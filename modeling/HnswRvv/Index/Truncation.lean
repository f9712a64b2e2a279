import HnswRvv.Index.RoundTrip

/-!
# Files that were cut or continued

A saved file has no redundancy besides the lengths in front of the upper lists. The check that
`loadIndex` makes follows these lengths, with seeks that may leave the file, and compares the place
where it ends with the length of the file. Every file that is a saved one cut short, or a saved one
with something behind it, fails there.
-/

namespace HnswRvv

namespace Index

open Framework

variable {V D : Type} [LinearOrder D] {P : Platform V D} {dataSize : Nat} {s s₁ t : Index V}
  {contents : List Byte} {input : InStream} {maxElementsI : Nat}

def Rejected (e : Failure) : Prop := e = .thrown .corruptedIndex

/-- The source does not initialise `linkListSize`. What a short read leaves of the old value is not
used: the stream has failed and does not move. -/
theorem checkLinkList_stale (old : Nat) (input : InStream) :
    (if (input.readField 4 old).1 ≠ 0 then
      (input.readField 4 old).2.seekCur (input.readField 4 old).1 else (input.readField 4 old).2) =
    if (input.readField 4 0).1 ≠ 0 then
      (input.readField 4 0).2.seekCur (input.readField 4 0).1 else (input.readField 4 0).2 := by
  have hsame : (input.readField 4 old).2 = (input.readField 4 0).2 := rfl
  rw [hsame]
  cases hfailed : (input.readField 4 0).2.failed with
  | true => simp [InStream.seekCur, hfailed]
  | false =>
    have hvalue : (input.readField 4 old).1 = (input.readField 4 0).1 := by
      have hfull : ¬ (input.read 4).1.length < 4 := by
        cases hbad : input.failed with
        | true => simp [InStream.readField, InStream.read, hbad] at hfailed
        | false =>
          simpa [InStream.readField, InStream.read, hbad] using hfailed
      have hdrop : ∀ x, (leBytes 4 x).drop (input.read 4).1.length = [] := fun x =>
        List.drop_of_length_le (by rw [length_leBytes]; omega)
      simp only [InStream.readField, hdrop]
    rw [hvalue]

private theorem wp_checkFile_failed (total : Nat) (hfailed : input.failed = true) :
    wp (checkFile total) (fun _ _ => False) (fun e _ => Rejected e) (t, input) := by
  have htell : input.tellg = -1 := by simp [InStream.tellg, hfailed]
  have hseek : input.seekCur t.level0Size.toInt = input := by simp [InStream.seekCur, hfailed]
  simp only [checkFile, wp_bind, wp_get, modifyInput, wp_modify, hseek]
  refine wp_mono (wp_forM (I := fun p => p.2 = input) rfl ?_) ?_ fun _ _ he => he
  · rintro i - ⟨t', _⟩ rfl
    simp only [checkLinkList, wp_bind, wp_get, htell]
    simp [Rejected]
  · rintro _ ⟨t', _⟩ rfl
    simp only [wp_bind, wp_get, htell]
    rw [if_pos (by omega), wp_throw]
    rfl

private theorem length_headerBytes (s : Index V) : s.headerBytes.length = 96 := by
  simp [headerBytes]

private theorem wp_loadHeader_short (hshort : contents.length < 96)
    {E : Failure → Index V × InStream → Prop} :
    wp (loadHeader maxElementsI) (fun _ p => p.2.failed = true) E
      (t, InStream.opened contents) := by
  simp only [loadHeader, readBinaryPOD, modifyIndex, wp_bind, wp_modify]
  apply InStream.Past.failed_readField (0 + 8 + 8 + 8 + 8 + 8 + 8 + 4 + 4 + 8 + 8 + 8 + 8) _
    (by decide) hshort
  iterate 12 apply InStream.Past.readField
  exact InStream.past_opened contents

variable [Inhabited V]

section Check

variable {saved : List Byte} {i : TableInt}

private theorem wp_checkLinkList_along (h : s.Saveable) (hi : i < s.curElementCount)
    (hagree : InStream.Agree contents saved) (hcontents : input.contents = contents)
    (hin : input.Along saved (s.listsFrom i)) :
    wp (checkLinkList contents.length)
      (fun _ p => p.2.contents = contents ∧ p.2.Along saved (s.listsFrom (i + 1)))
      (fun e _ => Rejected e) (t, input) := by
  rw [listsFrom_of_lt hi] at hin
  rw [← hcontents] at hagree
  simp only [checkLinkList, wp_bind, wp_get]
  split
  · rw [wp_throw]
    rfl
  · rw [wp_set]
    have hread := hin.readField hagree (by decide) (linkListSize_lt s i) 0
    generalize hfield : input.readField 4 0 = field at hread ⊢
    have hsame : field.2.contents = contents := by
      rw [← hfield, InStream.contents_readField, hcontents]
    split
    · next hsize =>
      refine ⟨by rw [InStream.contents_seekCur, hsame], ?_⟩
      cases hfailed : field.2.failed with
      | true => simp [InStream.Along, InStream.seekCur, hfailed]
      | false =>
        obtain ⟨hvalue, hafter⟩ := hread hfailed
        have hskip := hafter.seekCur
        rwa [h.length_written, ← hvalue] at hskip
    · next hzero =>
      refine ⟨hsame, fun hfailed => ?_⟩
      obtain ⟨hvalue, hafter⟩ := hread hfailed
      rw [← hvalue, not_not.mp hzero, List.take_zero, List.nil_append] at hafter
      exact hafter hfailed

private theorem wp_checkFile_along (h : s.Saveable) (C : VectorBytes V s.layout.dataSize)
    (hcount : t.curElementCount = s.curElementCount)
    (hsize : t.layout.sizeDataPerElement = s.layout.sizeDataPerElement)
    (hagree : InStream.Agree contents saved) (hne : contents ≠ saved)
    (hcontents : input.contents = contents)
    (hin : input.Along saved (s.level0Bytes C ++ s.listsFrom 0)) :
    wp (checkFile contents.length) (fun _ _ => False) (fun e _ => Rejected e) (t, input) := by
  have hskip := hin.seekCur
  rw [← (h.level0Size C).2] at hskip
  have hlevel0 : t.level0Size = s.level0Size := by rw [level0Size, hcount, hsize]; rfl
  simp only [checkFile, wp_bind, wp_get, modifyInput, wp_modify]
  rw [hlevel0, hcount]
  refine wp_mono (wp_forM_range (I := fun i p => p.2.contents = contents ∧
    p.2.Along saved (s.listsFrom i)) ⟨(InStream.contents_seekCur _ _).trans hcontents, hskip⟩ ?_)
    ?_ fun _ _ he => he
  · rintro i hi ⟨t', input'⟩ ⟨hsame, halong⟩
    exact wp_checkLinkList_along h hi hagree hsame halong
  · rintro _ ⟨t', input'⟩ ⟨hsame, halong⟩
    rw [listsFrom_count] at halong
    have hlength : contents.length ≠ saved.length := fun heq => hne (hagree.eq_of_length heq)
    have htell : input'.tellg ≠ contents.length := by
      intro heq
      rcases halong.tellg with hneg | hend
      · rw [heq] at hneg
        omega
      · rw [heq] at hend
        omega
    simp only [wp_bind, wp_get]
    rw [if_pos htell, wp_throw]
    rfl

end Check

private theorem headerBytes_prefix (C : VectorBytes V s.layout.dataSize)
    (hagree : InStream.Agree contents (s.saveIndex C)) (hlong : 96 ≤ contents.length) :
    s.headerBytes <+: contents := by
  have hsaved : s.headerBytes <+: s.saveIndex C := List.prefix_append _ _
  rcases hagree with hcut | hcontinued
  · apply List.prefix_of_prefix_length_le hsaved hcut
    rw [length_headerBytes]
    exact hlong
  · exact hsaved.trans hcontinued

private theorem wp_loadFrom_damaged (h : s.Saveable) (C : VectorBytes V s.layout.dataSize)
    (C' : VectorBytes V dataSize) (hagree : InStream.Agree contents (s.saveIndex C))
    (hne : contents ≠ s.saveIndex C) (maxElementsI : Nat)
    (mallocLevel0 mallocLinkLists malloc : Bool) :
    wp (loadFrom C' maxElementsI mallocLevel0 mallocLinkLists malloc) (fun _ _ => False)
      (fun e _ => Rejected e) (t, InStream.opened contents) := by
  rw [loadFrom, wp_bind, wp_get, wp_bind]
  by_cases hshort : contents.length < 96
  · refine wp_mono (wp_loadHeader_short hshort) ?_ fun _ _ he => he
    rintro _ ⟨t₁, input₁⟩ hfailed
    rw [wp_bind, modifyIndex, wp_modify, wp_bind, wp_get, wp_bind]
    exact wp_mono (wp_checkFile_failed _ hfailed) (fun _ _ hfalse => hfalse.elim) fun _ _ he => he
  · obtain ⟨rest, hrest⟩ := headerBytes_prefix C hagree (not_lt.mp hshort)
    have hopen : (InStream.opened contents).At (s.headerBytes ++ rest) := by
      rw [hrest]
      exact InStream.at_opened contents
    refine wp_loadHeader h hopen fun input₁ h₁ c₁ => ?_
    have halong : input₁.Along (s.saveIndex C) (s.level0Bytes C ++ s.listsFrom 0) := by
      intro _
      obtain ⟨-, before, hbefore, hpos⟩ := h₁
      have hcontents : input₁.contents = s.headerBytes ++ rest := c₁.trans hrest.symm
      rw [hcontents] at hbefore
      rw [← List.append_cancel_right hbefore] at hpos
      exact ⟨s.headerBytes, saveIndex_eq C s, hpos⟩
    rw [wp_bind, modifyIndex, wp_modify, wp_bind, wp_get, wp_bind]
    exact wp_mono (wp_checkFile_along h C rfl rfl hagree hne c₁ halong)
      (fun _ _ hfalse => hfalse.elim) fun _ _ he => he

/-- The file of an index, cut anywhere or with bytes behind it, is rejected by every load. -/
theorem loadIndex_damaged {may : Index V → Op V → Choices → Prop} (h : Reachable P may s)
    (hfits : s.Fits) (C : VectorBytes V s.layout.dataSize) (contents : List Byte)
    (hdamaged : (∃ lost, lost ≠ [] ∧ contents ++ lost = s.saveIndex C) ∨
      ∃ extra, extra ≠ [] ∧ contents = s.saveIndex C ++ extra)
    (C' : VectorBytes V dataSize) (maxElementsI : Nat) (mallocLevel0 mallocLinkLists malloc : Bool)
    (s₁ : Index V) :
    ∃ t, loadIndex C' (some contents) maxElementsI mallocLevel0 mallocLinkLists malloc s₁ =
      .error (.thrown .corruptedIndex) t := by
  have hagree : InStream.Agree contents (s.saveIndex C) := by
    rcases hdamaged with ⟨lost, -, heq⟩ | ⟨extra, -, heq⟩
    · exact Or.inl ⟨lost, heq⟩
    · exact Or.inr ⟨extra, heq.symm⟩
  have hne : contents ≠ s.saveIndex C := by
    intro hsame
    rcases hdamaged with ⟨lost, hlost, heq⟩ | ⟨extra, hextra, heq⟩
    · exact hlost (List.append_right_eq_self.mp (heq.trans hsame.symm))
    · exact hextra (List.append_right_eq_self.mp (heq.symm.trans hsame))
  have hwp : wp (loadIndex C' (some contents) maxElementsI mallocLevel0 mallocLinkLists malloc)
      (fun _ _ => False) (fun e _ => Rejected e) s₁ :=
    wp_loadIndex (wp_loadFrom_damaged (h.saveable hfits) C C' hagree hne maxElementsI mallocLevel0
      mallocLinkLists malloc)
  obtain ⟨hok, herror⟩ := wp_def.mp hwp
  cases hrun : loadIndex C' (some contents) maxElementsI mallocLevel0 mallocLinkLists malloc s₁ with
  | ok _ t => exact (hok _ t hrun).elim
  | error e t => exact ⟨t, by rw [herror e t hrun]⟩

/-- An index of four linked elements, with its last byte cut off and with a byte behind it. -/
theorem loadIndex_damaged_bytes : ∃ (s t t' : Index Byte)
    (C : VectorBytes Byte s.layout.dataSize), Reachable bytePlatform FreshReplacement s ∧ s.Fits ∧
    (s.curElementCount = 4 ∧ s.level 3 = 2 ∧ s.connections 0 1 = [2, 3] ∧ s.numDeleted = 1) ∧
    loadIndex C (some (s.saveIndex C).dropLast) 20 true true true (unloaded true) =
      .error (.thrown .corruptedIndex) t ∧
    loadIndex C (some (s.saveIndex C ++ [0])) 20 true true true (unloaded true) =
      .error (.thrown .corruptedIndex) t' := by
  obtain ⟨s, hreach, hfits, hlayout, hvalues⟩ := exists_bytes 7 (fun s =>
    s.curElementCount = 4 ∧ s.level 3 = 2 ∧ s.connections 0 1 = [2, 3] ∧ s.numDeleted = 1)
    (by decide +kernel)
  have hsize : s.layout.dataSize = 1 := by rw [hlayout]
  have hne : s.saveIndex (hsize ▸ singleByte) ≠ [] := by
    intro hnil
    have hlength := congrArg List.length hnil
    rw [saveIndex, List.length_append, length_headerBytes] at hlength
    exact absurd hlength (by simp)
  obtain ⟨t, ht⟩ := loadIndex_damaged hreach hfits (hsize ▸ singleByte) _
    (Or.inl ⟨[_], List.cons_ne_nil _ _, List.dropLast_append_getLast hne⟩)
    (hsize ▸ singleByte) 20 true true true (unloaded true)
  obtain ⟨t', ht'⟩ := loadIndex_damaged hreach hfits (hsize ▸ singleByte) _
    (Or.inr ⟨[0], List.cons_ne_nil _ _, rfl⟩) (hsize ▸ singleByte) 20 true true true (unloaded true)
  exact ⟨s, t, t', _, hreach, hfits, hvalues, ht, ht'⟩

end Index

end HnswRvv
