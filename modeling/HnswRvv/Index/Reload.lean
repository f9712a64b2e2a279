import HnswRvv.Index.RoundTrip

/-!
# Loading into an object in use

`clear()` forgets neither the labels nor the deleted elements of an object, and `loadIndex` adds to
both. So the labels of a loaded index depend on what the object knew before, and a load that fails
its check leaves the count of the file in an object that has no elements.
-/

namespace HnswRvv.Index

open Framework OrderDual
set_option linter.unusedSectionVars false

variable {V D : Type} [Inhabited V] [LinearOrder D] {P : Platform V D} {s s₁ t u : Index V}
  {dataSize : Nat}

/-- An object that has been constructed and not used. -/
def Fresh (P : Platform V D) (allowReplaceDeleted : Bool) (u : Index V) : Prop :=
  u = unloaded allowReplaceDeleted ∨ ∃ dataSize maxElements M efConstruction,
    construct P dataSize maxElements M efConstruction allowReplaceDeleted true true = .ok u

theorem Fresh.empty {allowReplaceDeleted : Bool} (h : Fresh P allowReplaceDeleted u) :
    u.labelLookup = (fun _ => none) ∧ u.numDeleted = 0 ∧ u.deletedElements = ∅ ∧
      u.allowReplaceDeleted = allowReplaceDeleted := by
  rcases h with rfl | ⟨_, _, _, _, hu⟩
  · exact ⟨rfl, rfl, rfl, rfl⟩
  · cases hu
    exact ⟨rfl, rfl, rfl, rfl⟩

def SameLoad (t u : Index V) : Prop :=
  t.curElementCount = u.curElementCount ∧ t.labelLookup = u.labelLookup ∧
    t.numDeleted = u.numDeleted ∧ t.deletedElements = u.deletedElements

private theorem WellFormed.deleted_eq_empty (h : s.WellFormed) (hzero : s.numDeleted = 0) :
    s.deletedElements = ∅ := by
  rw [h.numDeleted, Finset.card_eq_zero] at hzero
  rw [h.deleted, hzero, ite_self]

/-- Two objects that load one file hold the same afterwards if the first had no deleted elements
and no label that the file does not have. -/
theorem Loaded.sameLoad_iff {maxElementsI : Nat} (hw : s₁.WellFormed)
    (hu : Fresh P s₁.allowReplaceDeleted u) (ht : Loaded s s₁.clear maxElementsI t)
    {t₀ : Index V} (ht₀ : Loaded s u.clear maxElementsI t₀) :
    SameLoad t t₀ ↔ s₁.numDeleted = 0 ∧
      ∀ label, s₁.labelLookup label ≠ none → ∃ i < s.curElementCount, s.getExternalLabel i = label := by
  obtain ⟨hlookup, hnumDeleted, hdeleted, hallow⟩ := hu.empty
  have hcard : t.numDeleted = s₁.numDeleted + s.markedIds.card := by
    rw [ht.numDeleted, ht.markedIds]
    rfl
  have hcard₀ : t₀.numDeleted = s.markedIds.card := by
    rw [ht₀.numDeleted, ht₀.markedIds]
    simp [clear, hnumDeleted]
  have hlabels : t.labelLookup = t₀.labelLookup ↔ ∀ label, s₁.labelLookup label ≠ none →
      ∃ i < s.curElementCount, s.getExternalLabel i = label := by
    rw [funext_iff]
    refine forall_congr' fun label => ?_
    rw [ht.lookup, ht₀.lookup, ← lastLabelled_isSome]
    have hold : s₁.clear.labelLookup = s₁.labelLookup := rfl
    have hnone : u.clear.labelLookup label = none := congrFun hlookup label
    rw [hold, hnone]
    cases s.lastLabelled s.curElementCount label with
    | none => simp
    | some i => simp
  constructor
  · rintro ⟨-, hsame, hnum, -⟩
    exact ⟨by omega, hlabels.mp hsame⟩
  · rintro ⟨hzero, hknown⟩
    refine ⟨ht.count.trans ht₀.count.symm, hlabels.mpr hknown, by omega, ?_⟩
    have hallow₀ : u.clear.allowReplaceDeleted = s₁.allowReplaceDeleted := hallow
    have hallow₁ : s₁.clear.allowReplaceDeleted = s₁.allowReplaceDeleted := rfl
    have hdeleted₀ : u.clear.deletedElements = ∅ := hdeleted
    have hdeleted₁ : s₁.clear.deletedElements = ∅ := hw.deleted_eq_empty hzero
    rw [ht.deleted, ht₀.deleted, ht.markedIds, ht₀.markedIds, hallow₀, hallow₁, hdeleted₀,
      hdeleted₁]

/-- A load into an object in use gives what the same load into a fresh object gives exactly if the
object has no deleted elements and knows no label that is not in the file. -/
theorem loadIndex_fileOnly_iff (h₁ : Reachable P (fun _ _ _ => True) s₁)
    (h : Reachable P (fun _ _ _ => True) s) (hfits : s.Fits) (C : VectorBytes V s.layout.dataSize)
    (maxElementsI : Nat) (hu : Fresh P s₁.allowReplaceDeleted u) :
    ∃ t t₀, loadIndex C (some (s.saveIndex C)) maxElementsI true true true s₁ = .ok () t ∧
      loadIndex C (some (s.saveIndex C)) maxElementsI true true true u = .ok () t₀ ∧
      (SameLoad t t₀ ↔ s₁.numDeleted = 0 ∧ ∀ label, s₁.labelLookup label ≠ none →
        ∃ i < s.curElementCount, s.getExternalLabel i = label) := by
  have hsave := h.saveable hfits
  obtain ⟨t, ht, hload⟩ := loadIndex_saveIndex s₁ hsave C maxElementsI
  obtain ⟨t₀, ht₀, hload₀⟩ := loadIndex_saveIndex u hsave C maxElementsI
  exact ⟨t, t₀, ht, ht₀, hload.sameLoad_iff h₁.wellFormed hu hload₀⟩

private theorem emptyBytes_fits : emptyBytes.Fits := by
  constructor <;> simp [emptyBytes]

/-- An object with three elements loads the file of an index with one more. -/
theorem loadIndex_fileOnly_bytes : ∃ (s₁ s t t₀ : Index Byte)
    (C : VectorBytes Byte s.layout.dataSize), s₁.curElementCount = 3 ∧ s.curElementCount = 4 ∧
    Reachable bytePlatform (fun _ _ _ => True) s₁ ∧ Reachable bytePlatform (fun _ _ _ => True) s ∧
    s.Fits ∧ Fresh bytePlatform s₁.allowReplaceDeleted (unloaded s₁.allowReplaceDeleted) ∧
    loadIndex C (some (s.saveIndex C)) 20 true true true s₁ = .ok () t ∧
    loadIndex C (some (s.saveIndex C)) 20 true true true (unloaded s₁.allowReplaceDeleted) =
      .ok () t₀ ∧ SameLoad t t₀ := by
  obtain ⟨s₁, hreach₁, -, -, hcount₁, hzero, hlabels₁⟩ := exists_bytes 3 (fun s =>
    s.curElementCount = 3 ∧ s.numDeleted = 0 ∧
      (s.getExternalLabel 0, s.getExternalLabel 1, s.getExternalLabel 2) = (7, 8, 9))
    (by decide +kernel)
  obtain ⟨s, hreach, hfits, hlayout, hcount, hlabels⟩ := exists_bytes 7 (fun s =>
    s.curElementCount = 4 ∧
      (s.getExternalLabel 0, s.getExternalLabel 1, s.getExternalLabel 2) = (7, 8, 9))
    (by decide +kernel)
  have hsize : s.layout.dataSize = 1 := by rw [hlayout]
  have hreach' : Reachable bytePlatform (fun _ _ _ => True) s := hreach.mono fun _ _ => trivial
  have hreach₁' : Reachable bytePlatform (fun _ _ _ => True) s₁ := hreach₁.mono fun _ _ => trivial
  have hfresh : Fresh bytePlatform s₁.allowReplaceDeleted (unloaded s₁.allowReplaceDeleted) :=
    Or.inl rfl
  obtain ⟨t, t₀, ht, ht₀, hiff⟩ := loadIndex_fileOnly_iff hreach₁' hreach' hfits
    (hsize ▸ singleByte) 20 hfresh
  refine ⟨s₁, s, t, t₀, _, hcount₁, hcount, hreach₁', hreach', hfits, hfresh, ht, ht₀,
    hiff.mpr ⟨hzero, fun label hknown => ?_⟩⟩
  obtain ⟨i, hi⟩ := Option.ne_none_iff_exists'.mp hknown
  have hlt := hreach₁.wellFormed.lookup label i hi
  rw [hcount₁] at hlt
  refine ⟨i, hlt.trans (hcount ▸ Nat.lt_succ_self 3), ?_⟩
  rw [← hreach₁.labelled.label label i hi]
  simp only [Prod.mk.injEq] at hlabels hlabels₁
  interval_cases i
  · exact hlabels.1.trans hlabels₁.1.symm
  · exact hlabels.2.1.trans hlabels₁.2.1.symm
  · exact hlabels.2.2.trans hlabels₁.2.2.symm

/-- The file of an empty index, loaded into an object with one element: the object has no elements
afterwards, and still knows the label. -/
theorem loadIndex_keeps_label : ∃ s₁ t t₀ : Index Byte,
    Reachable bytePlatform (fun _ _ _ => True) s₁ ∧
    Reachable bytePlatform (fun _ _ _ => True) emptyBytes ∧ Fresh bytePlatform false emptyBytes ∧
    s₁.allowReplaceDeleted = false ∧
    loadIndex singleByte (some (emptyBytes.saveIndex singleByte)) 20 true true true s₁ = .ok () t ∧
    loadIndex singleByte (some (emptyBytes.saveIndex singleByte)) 20 true true true emptyBytes =
      .ok () t₀ ∧
    t.curElementCount = 0 ∧ t.labelLookup 5 = some 0 ∧ t₀.labelLookup 5 = none := by
  have hrun : ∃ s₁, afterOps bytePlatform [(.addPoint 7 5 false, plainChoices 0)] emptyBytes =
      some s₁ ∧ (s₁.allowReplaceDeleted, s₁.labelLookup 5) = (false, some 0) :=
    Option.map_eq_some_iff.mp (by decide +kernel)
  obtain ⟨s₁, hs₁, hvalues⟩ := hrun
  obtain ⟨hallow, hlabel⟩ := Prod.mk.inj hvalues
  have hreach := emptyBytes_reachable fun _ _ _ => True
  have hsave := hreach.saveable emptyBytes_fits
  obtain ⟨t, ht, hload⟩ := loadIndex_saveIndex s₁ hsave singleByte 20
  obtain ⟨t₀, ht₀, hload₀⟩ := loadIndex_saveIndex emptyBytes hsave singleByte 20
  exact ⟨s₁, t, t₀, hreach.afterOps (by simp [plainChoices_allocates]) hs₁, hreach,
    Or.inr ⟨1, 10, 2, 2, emptyBytes_built⟩, hallow, ht, ht₀, hload.count,
    (hload.lookup 5).trans hlabel, hload₀.lookup 5⟩

section Failed

variable {maxElementsI : Nat} {input : InStream}

/-- The count that a file gives: bytes 16 to 23, as far as it has them. -/
def fileCount (contents : List Byte) : Nat := leValue (fieldAt contents 16 8)

private theorem wp_loadHeader_any (contents : List Byte) {E : Failure → Index V × InStream → Prop}
    (hcount : t.curElementCount = 0) :
    wp (loadHeader maxElementsI)
      (fun _ p => p.1.curElementCount = fileCount contents ∧
        p.1.dataLevel0Memory = t.dataLevel0Memory) E
      (t, InStream.opened contents) := by
  have hpast := ((InStream.past_opened contents).readField 8 t.layout.offsetLevel0).readField 8
    t.maxElements
  simp only [loadHeader, readBinaryPOD, modifyIndex, wp_bind, wp_modify, hcount]
  exact ⟨hpast.value 8, trivial⟩

private theorem wp_checkFile_any (totalFilesize : Nat) :
    wp (checkFile totalFilesize) (fun _ p => p.1 = t) (fun _ p => p.1 = t) (t, input) := by
  simp only [checkFile, wp_bind, wp_get, modifyInput, wp_modify]
  refine wp_mono (wp_forM (I := fun p : Index V × InStream => p.1 = t) rfl ?_) ?_ fun _ _ he => he
  · rintro i - ⟨_, input'⟩ rfl
    simp only [checkLinkList, wp_bind, wp_get]
    split
    · rw [wp_throw]
    · rw [wp_set]
  · rintro _ ⟨_, input'⟩ rfl
    simp only [wp_bind, wp_get]
    split
    · rw [wp_throw]
    · rw [wp_modify]

private theorem wp_loadBody_any (C : VectorBytes V dataSize) (mallocLevel0 mallocLinkLists malloc : Bool) :
    wp (loadBody C mallocLevel0 mallocLinkLists malloc) (fun _ _ => True)
      (fun e _ => e ≠ .thrown .corruptedIndex) (t, input) := by
  have hloops : ∀ p : Index V × InStream, wp (loadElements malloc) (fun _ _ => True)
      (fun e _ => e ≠ .thrown .corruptedIndex) p := by
    intro p
    rw [loadElements, wp_bind, wp_get, wp_bind]
    refine wp_mono (wp_forM (I := fun _ => True) trivial ?_) (fun _ p' _ => ?_) fun _ _ he => he
    · rintro i - ⟨t', input'⟩ -
      simp only [loadElement, modifyIndex, wp_bind, wp_modify, wp_get]
      split
      · rw [wp_set]
        trivial
      · simp only [wp_bind, wp_set]
        split
        · rw [wp_throw]
          decide
        · rw [wp_modify]
          trivial
    · refine wp_forM (I := fun _ => True) trivial ?_
      rintro i - ⟨t', input'⟩ -
      rw [countDeleted, modifyIndex, wp_modify]
      trivial
  cases mallocLevel0 with
  | false =>
    simp only [loadBody, if_true, wp_bind, wp_throw]
    decide
  | true =>
    cases mallocLinkLists with
    | false =>
      simp only [loadBody, loadLevel0, modifyIndex, Bool.true_eq_false, if_true, if_false, wp_bind,
        wp_get, wp_set, wp_modify, wp_throw]
      decide
    | true =>
      simp only [loadBody, loadLevel0, modifyIndex, Bool.true_eq_false, if_false, wp_bind, wp_get,
        wp_set, wp_modify]
      exact hloops _

private theorem wp_loadFrom_any (C : VectorBytes V dataSize) (contents : List Byte) (maxElementsI : Nat)
    (mallocLevel0 mallocLinkLists malloc : Bool) (hcount : t.curElementCount = 0) :
    wp (loadFrom C maxElementsI mallocLevel0 mallocLinkLists malloc) (fun _ _ => True)
      (fun e p => e = .thrown .corruptedIndex →
        p.1.curElementCount = fileCount contents ∧ p.1.dataLevel0Memory = t.dataLevel0Memory)
      (t, InStream.opened contents) := by
  rw [loadFrom, wp_bind, wp_get, wp_bind]
  refine wp_mono (wp_loadHeader_any contents hcount) ?_ fun _ _ he => he
  rintro _ ⟨t₁, input₁⟩ hheader
  rw [wp_bind, modifyIndex, wp_modify, wp_bind, wp_get, wp_bind]
  refine wp_mono (wp_checkFile_any _) ?_ ?_
  · rintro _ ⟨_, input₂⟩ rfl
    rw [wp_bind, modifyInput, wp_modify]
    exact wp_mono (wp_loadBody_any C _ _ _) (fun _ _ _ => trivial) fun e _ he heq => absurd heq he
  · rintro e ⟨_, input₂⟩ rfl -
    exact hheader

end Failed

/-- A load that fails its check leaves the object alone or empty exactly if the file gives the
count zero. -/
theorem failedLoad_usable_iff (h : Reachable P (fun _ _ _ => True) s) (C : VectorBytes V dataSize)
    (contents : List Byte) (maxElementsI : Nat) (mallocLevel0 mallocLinkLists malloc : Bool)
    (t : Index V) (hload : loadIndex C (some contents) maxElementsI mallocLevel0 mallocLinkLists
      malloc s = .error (.thrown .corruptedIndex) t) :
    t = s ∨ t.curElementCount = 0 ↔ fileCount contents = 0 := by
  have hwp := wp_loadIndex (Q := fun _ _ => True)
    (E := fun e t => e = .thrown .corruptedIndex →
      t.curElementCount = fileCount contents ∧ t.dataLevel0Memory = s.clear.dataLevel0Memory)
    (wp_loadFrom_any C contents maxElementsI mallocLevel0 mallocLinkLists malloc rfl)
  obtain ⟨hcount, hblock⟩ := (wp_def.mp hwp).2 _ t hload rfl
  rw [← hcount]
  constructor
  · rintro (rfl | hzero)
    · -- a cleared object has no records
      have hle := h.backed.records
      rw [hblock] at hle
      exact Nat.le_zero.mp hle
    · exact hzero
  · exact Or.inr

/-- The header of an empty index with some bytes behind it, loaded into an object with four linked
elements. -/
theorem failedLoad_usable_bytes : ∃ (s t : Index Byte) (contents : List Byte),
    (s.curElementCount = 4 ∧ s.connections 0 1 = [2, 3] ∧ s.numDeleted = 1) ∧
    contents.length = 99 ∧ Reachable bytePlatform (fun _ _ _ => True) s ∧
    loadIndex singleByte (some contents) 20 true true true s = .error (.thrown .corruptedIndex) t ∧
    (t = s ∨ t.curElementCount = 0) := by
  obtain ⟨s, hreach, -, -, hvalues, hlast⟩ := exists_bytes 7 (fun s =>
    (s.curElementCount = 4 ∧ s.connections 0 1 = [2, 3] ∧ s.numDeleted = 1) ∧
    (failure (loadIndex singleByte (some (emptyBytes.saveIndex singleByte ++ [1, 2, 3])) 20 true
      true true s)).map Prod.fst = some (.thrown .corruptedIndex)) (by decide +kernel)
  have hreach' : Reachable bytePlatform (fun _ _ _ => True) s := hreach.mono fun _ _ => trivial
  obtain ⟨⟨e, t⟩, hfail, he⟩ := Option.map_eq_some_iff.mp hlast
  obtain rfl : e = .thrown .corruptedIndex := he
  have ht := failure_eq_some.mp hfail
  exact ⟨s, t, _, hvalues, by decide +kernel, hreach', ht,
    (failedLoad_usable_iff hreach' _ _ _ _ _ _ t ht).mpr (by decide +kernel)⟩

/-- A file that ends after the count, which says five. The object had one element. -/
theorem failedLoad_keeps_count : ∃ s t : Index Byte,
    Reachable bytePlatform (fun _ _ _ => True) s ∧ s.curElementCount = 1 ∧
    loadIndex singleByte (some (List.replicate 16 0 ++ leBytes 8 5)) 20 true true true s =
      .error (.thrown .corruptedIndex) t ∧
    t.curElementCount = 5 ∧ t ≠ s ∧ t.capacities.dataLevel0Memory = 0 := by
  have hrun : (afterOps bytePlatform [(.addPoint 7 5 false, plainChoices 0)] emptyBytes).any
      fun s => decide (s.curElementCount = 1) &&
        (failure (loadIndex singleByte (some (List.replicate 16 0 ++ leBytes 8 5)) 20 true true true
          s)).any fun r => decide ((r.1, r.2.curElementCount, r.2.capacities.dataLevel0Memory) =
            (.thrown .corruptedIndex, 5, 0)) := by
    decide +kernel
  obtain ⟨s, hreach, hvalues⟩ := (emptyBytes_reachable fun _ _ _ => True).exists_afterOps
    (by simp [plainChoices_allocates]) ((Option.any_eq_true _ _).mp hrun)
  rw [Bool.and_eq_true, decide_eq_true_eq] at hvalues
  obtain ⟨hcount, hload⟩ := hvalues
  obtain ⟨⟨e, t⟩, hfail, hleft⟩ := (Option.any_eq_true _ _).mp hload
  rw [decide_eq_true_eq, Prod.mk.injEq, Prod.mk.injEq] at hleft
  obtain ⟨rfl, hfive, hnone⟩ := hleft
  refine ⟨s, t, hreach, hcount, failure_eq_some.mp hfail, hfive, ?_, hnone⟩
  rintro rfl
  cases hcount.symm.trans hfive

end HnswRvv.Index
