import HnswRvv.Index.AllocationFailure
import HnswRvv.Index.Query
import HnswRvv.Index.Storage

/-!
# Saving and loading

What `loadIndex` makes of the bytes that `saveIndex` has written. Levels are not stored: they come
back as the quotient of a byte length, kept in 32 bits, and the size of one list. Everything else
comes back as it was, so the file stands for the index exactly when no such length was cut and the
capacity asked for can be given.
-/

namespace HnswRvv

open Framework OrderDual
set_option linter.unusedSectionVars false

namespace LinkList

variable {n offset : Nat} {ll : LinkList} {block post : List Byte}

@[simp] theorem length_bytes (n : Nat) (ll : LinkList) : (ll.bytes n).length = n * 4 + 4 := by
  rw [bytes, List.length_append, length_records (length_leBytes 4), Memory.length_slice,
    length_leBytes, Nat.add_comm]

private theorem word_ofBytes (h : block.drop offset = ll.bytes n ++ post) :
    (ofBytes n block offset).word = ll.word := by
  have hfield : fieldAt block offset 4 = leBytes 4 ll.word.toNat := by
    rw [← Nat.add_zero offset, ← fieldAt_drop, h, bytes, List.append_assoc]
    exact fieldAt_append [] rfl (length_leBytes 4 _)
  rw [ofBytes, hfield, leValue_leBytes ll.word.isLt, BitVec.ofNat_toNat, BitVec.setWidth_eq]

theorem fieldAt_entry (ll : LinkList) {j : Nat} (hj : j < n) :
    fieldAt (ll.bytes n) (4 + j * 4) 4 = leBytes 4 (ll.data.read j) := by
  have hj' : j < (ll.data.slice n).length := by rwa [Memory.length_slice]
  rw [← fieldAt_drop, bytes, List.drop_left' (length_leBytes 4 _),
    ← List.append_nil (List.flatMap _ _), fieldAt_records (length_leBytes 4) hj' []]
  simp [Memory.slice]

private theorem read_ofBytes (h : block.drop offset = ll.bytes n ++ post) {j : Nat} (hj : j < n)
    (hlt : ll.data.read j < 2 ^ 32) : (ofBytes n block offset).data.read j = ll.data.read j := by
  have hentry : fieldAt block (offset + 4 + j * 4) 4 = leBytes 4 (ll.data.read j) := by
    rw [Nat.add_assoc, ← fieldAt_drop, h, fieldAt_append_left (by rw [length_bytes]; omega),
      fieldAt_entry ll hj]
  rw [ofBytes, Memory.read_range _ hj, hentry, leValue_leBytes hlt]

private theorem connections_ofBytes (h : block.drop offset = ll.bytes n ++ post)
    (hcount : ll.getListCount ≤ n) (hids : ∀ id ∈ ll.connections, id < 2 ^ 32) :
    (ofBytes n block offset).connections = ll.connections := by
  have hlen : (ofBytes n block offset).getListCount = ll.getListCount := by
    rw [getListCount, getListCount, word_ofBytes h]
  rw [connections, connections, hlen]
  apply List.map_congr_left
  intro j hj
  have hj := List.mem_range.mp hj
  refine read_ofBytes h (hj.trans_le hcount) (hids _ ?_)
  exact List.mem_map.mpr ⟨j, List.mem_range.mpr hj, rfl⟩

private theorem isMarked_ofBytes (h : block.drop offset = ll.bytes n ++ post) :
    (ofBytes n block offset).isMarked = ll.isMarked := by
  rw [isMarked, isMarked, word_ofBytes h]

end LinkList

namespace Index

variable {V D : Type} [Inhabited V] [LinearOrder D] {P : Platform V D} {s t : Index V}
  {dataSize maxM0 : Nat} {C : VectorBytes V dataSize}

/-- The layout that the constructor computes. -/
def layoutOf (dataSize maxM maxM0 : Nat) : Layout where
  dataSize := dataSize
  sizeLinksLevel0 := maxM0 * 4 + 4
  sizeDataPerElement := maxM0 * 4 + 4 + dataSize + 8
  offsetData := maxM0 * 4 + 4
  labelOffset := maxM0 * 4 + 4 + dataSize
  offsetLevel0 := 0
  sizeLinksPerElement := maxM * 4 + 4

@[simp] theorem length_recordBytes (C : VectorBytes V dataSize) (maxM0 : Nat) (e : Element V) :
    (recordBytes C maxM0 e).length = maxM0 * 4 + 4 + dataSize + 8 := by
  rw [recordBytes, List.length_append, List.length_append, LinkList.length_bytes, C.length_encode,
    length_leBytes, ← Nat.add_assoc]

/-- Everything of a record that the index looks at. -/
structure SameRecord (e e' : Element V) : Prop where
  data : e'.data = e.data
  label : e'.label = e.label
  mark : e'.linklist0.isMarked = e.linklist0.isMarked
  links : e'.linklist0.connections = e.linklist0.connections

private theorem sameRecord_recordOfBytes {block : List Byte} (post : List Byte) {i : TableInt} {e : Element V}
    (hdrop : block.drop (i * t.layout.sizeDataPerElement) = recordBytes C t.maxM0 e ++ post)
    (hlevel0 : t.layout.offsetLevel0 = 0) (hdata : t.layout.offsetData = t.maxM0 * 4 + 4)
    (hlabel : t.layout.labelOffset = t.maxM0 * 4 + 4 + dataSize) (hlt : e.label < 2 ^ 64)
    (hcount : e.linklist0.getListCount ≤ t.maxM0)
    (hids : ∀ id ∈ e.linklist0.connections, id < 2 ^ 32) :
    SameRecord e (t.recordOfBytes C block i) := by
  have hlist : block.drop (i * t.layout.sizeDataPerElement + t.layout.offsetLevel0) =
      e.linklist0.bytes t.maxM0 ++ (C.encode e.data ++ leBytes 8 e.label ++ post) := by
    rw [hlevel0, Nat.add_zero, hdrop, recordBytes, List.append_assoc]
  have hvector : fieldAt block (i * t.layout.sizeDataPerElement + t.layout.offsetData) dataSize =
      C.encode e.data := by
    rw [← fieldAt_drop, hdrop, recordBytes, List.append_assoc, List.append_assoc]
    exact fieldAt_append _ (by rw [LinkList.length_bytes, hdata]) (C.length_encode _)
  have hword : fieldAt block (i * t.layout.sizeDataPerElement + t.layout.labelOffset) 8 =
      leBytes 8 e.label := by
    rw [← fieldAt_drop, hdrop, recordBytes, ← List.append_assoc, List.append_assoc]
    apply fieldAt_append _ _ (length_leBytes 8 _)
    rw [List.length_append, LinkList.length_bytes, C.length_encode, hlabel]
  constructor
  · rw [recordOfBytes, hvector, C.decode_encode]
  · rw [recordOfBytes, hword, leValue_leBytes hlt]
  · exact LinkList.isMarked_ofBytes hlist
  · exact LinkList.connections_ofBytes hlist hcount hids

/-- The numbers of an index are values of the types that hold them, and its level-0 block is an
object in memory. -/
structure Fits (s : Index V) : Prop where
  ids : s.maxElements < 2 ^ 32
  record : s.layout.sizeDataPerElement < 2 ^ 64
  block : s.maxElements * s.layout.sizeDataPerElement < 2 ^ 63
  efConstruction : s.efConstruction < 2 ^ 64
  level : ∀ i < s.curElementCount, s.level i < 2 ^ 31
  label : ∀ i < s.curElementCount, s.getExternalLabel i < 2 ^ 64

/-- What is known of an index in a run. -/
structure Saveable (s : Index V) : Prop where
  wellFormed : s.WellFormed
  layout : s.layout = layoutOf s.layout.dataSize s.maxM s.maxM0
  fits : s.Fits

namespace Saveable

variable {i : TableInt}

theorem stride (h : s.Saveable) : s.layout.sizeLinksPerElement = s.maxM * 4 + 4 := by
  rw [h.layout, layoutOf]

private theorem record_pos (h : s.Saveable) : 0 < s.layout.sizeDataPerElement := by
  rw [h.layout, layoutOf]
  exact Nat.succ_pos _

theorem maxlevel (h : s.Saveable) : (BitVec.ofInt 32 s.maxlevel).toInt = s.maxlevel := by
  have hbounds : -1 ≤ s.maxlevel ∧ s.maxlevel < 2 ^ 31 := by
    cases hep : s.enterpointNode with
    | none => rw [(h.wellFormed.entry.none hep).2]; decide
    | some ep =>
      have hlevel := h.wellFormed.entry.level ep hep
      have hlt := h.fits.level ep (h.wellFormed.entry.lt ep hep)
      omega
  rw [BitVec.toInt_ofInt]
  exact Int.bmod_eq_of_le (by omega) (by omega)

private theorem entry_lt (h : s.Saveable) : s.entry < 256 ^ 4 := by
  cases hep : s.enterpointNode with
  | none => rw [entry, hep]; decide
  | some ep =>
    rw [entry_of_some hep]
    exact ((h.wellFormed.entry.lt ep hep).trans_le h.wellFormed.cap).trans h.fits.ids

theorem enterpointNode (h : s.Saveable) :
    (if s.entry = 0xFFFFFFFF then none else some s.entry) = s.enterpointNode := by
  cases hep : s.enterpointNode with
  | none => rw [entry, hep]; rfl
  | some ep =>
    have hlt := (h.wellFormed.entry.lt ep hep).trans_le h.wellFormed.cap
    have hne : ep ≠ 0xFFFFFFFF := Nat.ne_of_lt (hlt.trans_le (Nat.le_of_lt_succ h.fits.ids))
    rw [entry_of_some hep, if_neg hne]

end Saveable

/-- An object after the header of `s` has been read into it. -/
def withHeader (s₀ s : Index V) (maxElementsI : Nat) : Index V :=
  { s₀ with
    maxElements := if maxElementsI < s.curElementCount then s.maxElements else maxElementsI
    curElementCount := s.curElementCount
    layout := { s₀.layout with
      offsetLevel0 := s.layout.offsetLevel0
      sizeDataPerElement := s.layout.sizeDataPerElement
      labelOffset := s.layout.labelOffset
      offsetData := s.layout.offsetData }
    maxlevel := s.maxlevel
    enterpointNode := s.enterpointNode
    maxM := s.maxM
    maxM0 := s.maxM0
    M := s.M
    mult := s.mult
    efConstruction := s.efConstruction }

section Header

variable {n x : Nat} {rest : List Byte} {old : Index V → Nat} {put : Nat → Index V → Index V}
  {s₀ : Index V} {input : InStream} {Q : Unit → Index V × InStream → Prop}
  {E : Failure → Index V × InStream → Prop}

private theorem wp_readBinaryPOD (hin : input.At (leBytes n x ++ rest)) (hx : x < 256 ^ n)
    (hQ : ∀ input', input'.At rest → input'.contents = input.contents → Q () (put x s₀, input')) :
    wp (readBinaryPOD n old put) Q E (s₀, input) := by
  obtain ⟨hvalue, hrest, hcontents⟩ := hin.readField hx (old s₀)
  rw [readBinaryPOD, wp_modify, hvalue]
  exact hQ _ hrest hcontents

private theorem wp_readBinaryPOD_bind {f : Unit → LoadM V Unit} (hin : input.At (leBytes n x ++ rest))
    (hx : x < 256 ^ n) (hQ : ∀ input', input'.At rest → input'.contents = input.contents →
      wp (f ()) Q E (put x s₀, input')) :
    wp (readBinaryPOD n old put >>= f) Q E (s₀, input) := by
  rw [wp_bind]
  exact wp_readBinaryPOD hin hx hQ

theorem wp_loadHeader {maxElementsI : Nat} (h : s.Saveable) (hin : input.At (s.headerBytes ++ rest))
    (hQ : ∀ input', input'.At rest → input'.contents = input.contents →
      Q () (s₀.withHeader s maxElementsI, input')) :
    wp (loadHeader maxElementsI) Q E (s₀, input) := by
  have hlayout : s.layout.offsetLevel0 < 256 ^ 8 ∧ s.layout.sizeDataPerElement < 256 ^ 8 ∧
      s.layout.labelOffset < 256 ^ 8 ∧ s.layout.offsetData < 256 ^ 8 := by
    have hrecord := h.fits.record
    rw [h.layout] at hrecord ⊢
    simp only [layoutOf] at hrecord ⊢
    omega
  have hp := h.wellFormed.params
  have hM : s.maxM < 256 ^ 8 ∧ s.maxM0 < 256 ^ 8 ∧ s.M < 256 ^ 8 := by
    have := hp.le_cap
    have := hp.maxM
    have := hp.maxM0
    omega
  have hmax : s.maxElements < 256 ^ 8 := h.fits.ids.trans (by decide)
  simp only [headerBytes, List.append_assoc] at hin
  unfold loadHeader
  refine wp_readBinaryPOD_bind hin hlayout.1 fun i₁ h₁ c₁ => ?_
  refine wp_readBinaryPOD_bind h₁ hmax fun i₂ h₂ c₂ => ?_
  refine wp_readBinaryPOD_bind h₂ (h.wellFormed.cap.trans_lt hmax) fun i₃ h₃ c₃ => ?_
  rw [wp_bind, modifyIndex, wp_modify]
  refine wp_readBinaryPOD_bind h₃ hlayout.2.1 fun i₄ h₄ c₄ => ?_
  refine wp_readBinaryPOD_bind h₄ hlayout.2.2.1 fun i₅ h₅ c₅ => ?_
  refine wp_readBinaryPOD_bind h₅ hlayout.2.2.2 fun i₆ h₆ c₆ => ?_
  refine wp_readBinaryPOD_bind h₆ (BitVec.isLt _) fun i₇ h₇ c₇ => ?_
  refine wp_readBinaryPOD_bind h₇ h.entry_lt fun i₈ h₈ c₈ => ?_
  refine wp_readBinaryPOD_bind h₈ hM.1 fun i₉ h₉ c₉ => ?_
  refine wp_readBinaryPOD_bind h₉ hM.2.1 fun i₁₀ h₁₀ c₁₀ => ?_
  refine wp_readBinaryPOD_bind h₁₀ hM.2.2 fun i₁₁ h₁₁ c₁₁ => ?_
  refine wp_readBinaryPOD_bind h₁₁ s.mult.isLt fun i₁₂ h₁₂ c₁₂ => ?_
  refine wp_readBinaryPOD h₁₂ h.fits.efConstruction fun i₁₃ h₁₃ c₁₃ => ?_
  simp only [BitVec.ofNat_toNat, BitVec.setWidth_eq, h.maxlevel, h.enterpointNode]
  apply hQ i₁₃ h₁₃
  simp only [c₁, c₂, c₃, c₄, c₅, c₆, c₇, c₈, c₉, c₁₀, c₁₁, c₁₂, c₁₃]

end Header

section Check

variable {i : Nat} {s₀ : Index V} {input : InStream} {contents : List Byte}
  {E : Failure → Index V × InStream → Prop}

/-- What the file holds from the lists of element `i` on. -/
def listsFrom (s : Index V) (i : TableInt) : List Byte :=
  (List.range' i (s.curElementCount - i)).flatMap s.elementListsBytes

theorem listsFrom_of_lt (hi : i < s.curElementCount) :
    s.listsFrom i = leBytes 4 (s.linkListSize i) ++
      ((s.linkListsBytes i).take (s.linkListSize i) ++ s.listsFrom (i + 1)) := by
  rw [listsFrom, show s.curElementCount - i = (s.curElementCount - (i + 1)) + 1 by omega,
    List.range'_succ, List.flatMap_cons, elementListsBytes, List.append_assoc]
  rfl

theorem listsFrom_count (s : Index V) : s.listsFrom s.curElementCount = [] := by
  rw [listsFrom, Nat.sub_self]
  rfl

theorem linkListSize_lt (s : Index V) (i : TableInt) : s.linkListSize i < 256 ^ 4 :=
  Nat.mod_lt _ (by decide)

theorem length_linkListsBytes (s : Index V) (i : TableInt) :
    (s.linkListsBytes i).length = s.level i * (s.maxM * 4 + 4) := by
  rw [linkListsBytes, length_records (LinkList.length_bytes s.maxM), Memory.length_slice]

private theorem Saveable.linkListSize_eq (h : s.Saveable) (i : TableInt) :
    s.linkListSize i = s.level i * (s.maxM * 4 + 4) % 2 ^ 32 := by
  rw [linkListSize, h.stride, Nat.mul_comm]
  split
  · rfl
  · rw [show s.level i = 0 by omega, Nat.zero_mul]

theorem Saveable.length_written (h : s.Saveable) (i : TableInt) :
    ((s.linkListsBytes i).take (s.linkListSize i)).length = s.linkListSize i := by
  rw [List.length_take, length_linkListsBytes, h.linkListSize_eq]
  exact min_eq_left (Nat.mod_le _ _)

private theorem wp_checkLinkList (h : s.Saveable) (hi : i < s.curElementCount)
    (hin : input.At (s.listsFrom i)) (hcontents : input.contents = contents) :
    wp (checkLinkList contents.length)
      (fun _ p => p.1 = s₀ ∧ p.2.At (s.listsFrom (i + 1)) ∧ p.2.contents = contents) E
      (s₀, input) := by
  rw [listsFrom_of_lt hi] at hin
  have hbounds : ¬ (input.tellg < 0 ∨ (contents.length : Int) ≤ input.tellg) := by
    have htell := hin.tellg
    obtain ⟨-, before, hbefore, -⟩ := hin
    have hlen := congrArg List.length hbefore
    rw [hcontents] at htell hlen
    simp only [List.length_append, length_leBytes] at htell hlen
    omega
  obtain ⟨hvalue, hrest, hsame⟩ := hin.readField (linkListSize_lt s i) 0
  simp only [checkLinkList, wp_bind, wp_get]
  rw [if_neg hbounds, wp_set, hvalue]
  refine ⟨rfl, ?_⟩
  split
  · obtain ⟨hskip, hskip'⟩ := hrest.seekCur
    rw [h.length_written] at hskip hskip'
    exact ⟨hskip, hskip'.trans (hsame.trans hcontents)⟩
  · next hzero =>
    rw [not_not.mp hzero, List.take_zero, List.nil_append] at hrest
    exact ⟨hrest, hsame.trans hcontents⟩

theorem length_level0Bytes (h : s.Saveable) (C : VectorBytes V s.layout.dataSize) :
    (s.level0Bytes C).length = s.curElementCount * s.layout.sizeDataPerElement := by
  rw [level0Bytes, length_records (length_recordBytes C s.maxM0), Memory.length_slice]
  conv_rhs => rw [h.layout, layoutOf]

theorem Saveable.level0Size (h : s.Saveable) (C : VectorBytes V s.layout.dataSize) :
    s.level0Size.toNat = (s.level0Bytes C).length ∧
      s.level0Size.toInt = (s.level0Bytes C).length := by
  have hlt : s.curElementCount * s.layout.sizeDataPerElement < 2 ^ 63 :=
    (Nat.mul_le_mul_right _ h.wellFormed.cap).trans_lt h.fits.block
  have hnat : s.level0Size.toNat = s.curElementCount * s.layout.sizeDataPerElement := by
    rw [Index.level0Size, BitVec.toNat_ofNat]
    exact Nat.mod_eq_of_lt (by omega)
  rw [length_level0Bytes h C, BitVec.toInt_eq_toNat_of_lt (by omega), hnat]
  exact ⟨rfl, rfl⟩

private theorem wp_checkFile (h : s.Saveable) (C : VectorBytes V s.layout.dataSize)
    (hcount : s₀.curElementCount = s.curElementCount)
    (hsize : s₀.layout.sizeDataPerElement = s.layout.sizeDataPerElement)
    (hin : input.At (s.level0Bytes C ++ s.listsFrom 0)) (hcontents : input.contents = contents) :
    wp (checkFile contents.length)
      (fun _ p => p.1 = s₀ ∧ p.2.failed = false ∧ p.2.contents = contents) E (s₀, input) := by
  have hskip := hin.seekCur
  rw [← (h.level0Size C).2] at hskip
  have hlevel0 : s₀.level0Size = s.level0Size := by rw [Index.level0Size, hcount, hsize]; rfl
  simp only [checkFile, wp_bind, wp_get, modifyInput, wp_modify]
  rw [hlevel0, hcount]
  refine wp_mono (wp_forM_range (I := fun i p => p.1 = s₀ ∧ p.2.At (s.listsFrom i) ∧
    p.2.contents = contents) ⟨rfl, hskip.1, hskip.2.trans hcontents⟩ ?_) ?_ fun _ _ he => he
  · rintro i hi ⟨_, input'⟩ ⟨rfl, hat, hsame⟩
    exact wp_checkLinkList h hi hat hsame
  · rintro _ ⟨_, input'⟩ ⟨rfl, hat, hsame⟩
    rw [listsFrom_count] at hat
    have htell : input'.tellg = contents.length := by
      rw [hat.tellg, hsame]
      simp
    simp only [wp_bind, wp_get, htell, ne_eq, not_true_eq_false, if_false, wp_modify]
    exact ⟨trivial, rfl, hsame⟩

end Check

section Elements

variable {i l : Nat}

private theorem Saveable.list_fits (h : s.Saveable) (hat : s.AtLevel l i) :
    (s.getLinklistAtLevel i l).getListCount ≤ s.maxLinks l ∧
      ∀ id ∈ (s.getLinklistAtLevel i l).connections, id < 2 ^ 32 := by
  have hfit := h.wellFormed.graph i l hat
  rw [← LinkList.length_connections]
  refine ⟨hfit.length_le, fun id hid => ?_⟩
  exact (((hfit.valid id hid).1.1).trans_le h.wellFormed.cap).trans h.fits.ids

private theorem Saveable.sameRecord (h : s.Saveable) (C : VectorBytes V s.layout.dataSize)
    (hmaxM0 : t.maxM0 = s.maxM0)
    (hoffsets : t.layout.offsetLevel0 = s.layout.offsetLevel0 ∧
      t.layout.sizeDataPerElement = s.layout.sizeDataPerElement ∧
      t.layout.offsetData = s.layout.offsetData ∧ t.layout.labelOffset = s.layout.labelOffset)
    (hi : i < s.curElementCount) :
    SameRecord (s.dataLevel0Memory.read i) (t.recordOfBytes C (s.level0Bytes C) i) := by
  have hi' : i < (s.dataLevel0Memory.slice s.curElementCount).length := by
    rwa [Memory.length_slice]
  obtain ⟨post, hpost⟩ := drop_records (length_recordBytes C s.maxM0) hi'
  have hget : (s.dataLevel0Memory.slice s.curElementCount)[i] = s.dataLevel0Memory.read i := by
    simp [Memory.slice]
  obtain ⟨hcount, hids⟩ := h.list_fits (l := 0) ⟨hi, Nat.zero_le _⟩
  have hlayout := h.layout
  obtain ⟨hlevel0, hsize, hdata, hlabel⟩ := hoffsets
  rw [hlayout, layoutOf] at hlevel0 hsize hdata hlabel
  apply sameRecord_recordOfBytes post
  · rw [hsize, hmaxM0, ← hget]
    exact hpost
  · exact hlevel0
  · rw [hdata, hmaxM0]
  · rw [hlabel, hmaxM0]
  · exact h.fits.label i hi
  · rw [hmaxM0]
    exact hcount
  · exact hids

private theorem Saveable.drop_written (h : s.Saveable)
    (hl : l < s.linkListSize i / (s.maxM * 4 + 4)) :
    l < s.level i ∧ ∃ post,
      ((s.linkListsBytes i).take (s.linkListSize i)).drop (l * (s.maxM * 4 + 4)) =
        ((s.linkLists.read i).read l).bytes s.maxM ++ post := by
  have hroom : (l + 1) * (s.maxM * 4 + 4) ≤ s.linkListSize i :=
    (Nat.le_div_iff_mul_le (Nat.succ_pos _)).mp hl
  have hle : s.linkListSize i ≤ s.level i * (s.maxM * 4 + 4) := by
    rw [h.linkListSize_eq]
    exact Nat.mod_le _ _
  have hlevel : l < s.level i := Nat.lt_of_mul_lt_mul_right (Nat.lt_of_lt_of_le
    (Nat.mul_lt_mul_of_pos_right (Nat.lt_succ_self l) (Nat.succ_pos _)) (hroom.trans hle))
  refine ⟨hlevel, ?_⟩
  have hl' : l < ((s.linkLists.read i).slice (s.level i)).length := by rwa [Memory.length_slice]
  obtain ⟨post, hpost⟩ := drop_records (LinkList.length_bytes s.maxM) hl'
  have hget : ((s.linkLists.read i).slice (s.level i))[l] = (s.linkLists.read i).read l := by
    simp [Memory.slice]
  rw [hget] at hpost
  rw [Nat.succ_mul] at hroom
  refine ⟨post.take (s.linkListSize i - l * (s.maxM * 4 + 4) - (s.maxM * 4 + 4)), ?_⟩
  rw [List.drop_take, linkListsBytes, hpost, List.take_append,
    List.take_of_length_le (by rw [LinkList.length_bytes]; omega), LinkList.length_bytes]

end Elements

/-- The last element below `i` that carries a label. -/
def lastLabelled (s : Index V) : Nat → LabelType → Option TableInt
  | 0, _ => none
  | i + 1, label => if label = s.getExternalLabel i then some i else s.lastLabelled i label

theorem lastLabelled_isSome {i : Nat} {label : LabelType} :
    (s.lastLabelled i label).isSome ↔ ∃ j < i, s.getExternalLabel j = label := by
  induction i with
  | zero => simp [lastLabelled]
  | succ i ih =>
    rw [lastLabelled]
    split
    · next heq => exact iff_of_true rfl ⟨i, Nat.lt_succ_self i, heq.symm⟩
    · next hne =>
      rw [ih]
      constructor
      · rintro ⟨j, hj, hlabel⟩
        exact ⟨j, Nat.lt_succ_of_lt hj, hlabel⟩
      · rintro ⟨j, hj, hlabel⟩
        have hji : j ≠ i := by
          rintro rfl
          exact hne hlabel.symm
        exact ⟨j, lt_of_le_of_ne (Nat.le_of_lt_succ hj) hji, hlabel⟩

theorem Labelled.lastLabelled (h : s.Labelled) (hw : s.WellFormed) (label : LabelType) :
    s.lastLabelled s.curElementCount label = s.labelLookup label := by
  have hbelow : ∀ i ≤ s.curElementCount,
      s.lastLabelled i label = (s.labelLookup label).filter (· < i) := by
    intro i
    induction i with
    | zero => cases s.labelLookup label <;> simp [Index.lastLabelled, Option.filter]
    | succ i ih =>
      intro hi
      rw [Index.lastLabelled, ih (Nat.le_of_succ_le hi)]
      split
      · next heq =>
        rw [heq, h.lookup i hi]
        simp [Option.filter]
      · next hne =>
        cases hlookup : s.labelLookup label with
        | none => rfl
        | some j =>
          have hji : j ≠ i := by
            rintro rfl
            exact hne (h.label label j hlookup).symm
          have hiff : j < i + 1 ↔ j < i := ⟨fun hj => lt_of_le_of_ne (Nat.le_of_lt_succ hj) hji,
            fun hj => Nat.lt_succ_of_lt hj⟩
          simp [Option.filter, hiff]
  rw [hbelow _ le_rfl]
  cases hlookup : s.labelLookup label with
  | none => rfl
  | some i => simp [Option.filter, hw.lookup label i hlookup]

/-- The object after the lists of the elements below `i` have been read; `s₁` is the object before
the loop, and the labels it knows stay. -/
structure Loading (s s₁ : Index V) (i : Nat) (t : Index V) : Prop where
  fields : t = { s₁ with
    labelLookup := t.labelLookup, elementLevels := t.elementLevels, linkLists := t.linkLists }
  lookup : ∀ label, t.labelLookup label = (s.lastLabelled i label).or (s₁.labelLookup label)
  level : ∀ j < i, t.level j = s.linkListSize j / (s.maxM * 4 + 4)
  lists : ∀ j < i, ∀ l < t.level j,
    ((t.linkLists.read j).read l).connections = ((s.linkLists.read j).read l).connections

section Loop

variable {i : Nat} {s₁ : Index V} {input : InStream} {E : Failure → Index V × InStream → Prop}

theorem Loading.succ (hload : Loading s s₁ i t)
    {level : Nat} {lists : Memory LinkList}
    (hlevel : level = s.linkListSize i / (s.maxM * 4 + 4))
    (hlists : ∀ l < level, (lists.read l).connections =
      ((s.linkLists.read i).read l).connections) :
    Loading s s₁ (i + 1)
      { t with
        labelLookup := fun l => if l = s.getExternalLabel i then some i else t.labelLookup l
        elementLevels := t.elementLevels.write i level
        linkLists := t.linkLists.write i lists } := by
  constructor
  · conv_lhs => rw [hload.fields]
  · intro label
    dsimp only
    rw [lastLabelled, hload.lookup]
    split <;> rfl
  · intro j hj
    rw [Index.level, Memory.read_write]
    split
    · next heq => rw [hlevel, heq]
    · exact hload.level j (by omega)
  · intro j hj l hl
    rw [Index.level, Memory.read_write] at hl
    dsimp only
    rw [Memory.read_write]
    split
    · next heq =>
      rw [if_pos heq] at hl
      rw [heq]
      exact hlists l hl
    · next hne =>
      rw [if_neg hne] at hl
      exact hload.lists j (by omega) l hl

private theorem wp_loadElement (h : s.Saveable) (hi : i < s.curElementCount) (hmaxM : s₁.maxM = s.maxM)
    (hstride : s₁.layout.sizeLinksPerElement = s.maxM * 4 + 4)
    (hlabel : s₁.getExternalLabel i = s.getExternalLabel i) (hload : Loading s s₁ i t)
    (hin : input.At (s.listsFrom i)) :
    wp (loadElement true i)
      (fun _ p => Loading s s₁ (i + 1) p.1 ∧ p.2.At (s.listsFrom (i + 1))) E (t, input) := by
  have hlabel' : t.getExternalLabel i = s.getExternalLabel i := by
    rw [hload.fields]
    exact hlabel
  have hmaxM' : t.maxM = s.maxM := by
    rw [hload.fields]
    exact hmaxM
  have hstride' : t.layout.sizeLinksPerElement = s.maxM * 4 + 4 := by
    rw [hload.fields]
    exact hstride
  rw [listsFrom_of_lt hi] at hin
  obtain ⟨hvalue, hrest, -⟩ := hin.readField (linkListSize_lt s i) 0
  simp only [loadElement, wp_bind, modifyIndex, wp_modify, wp_get, hvalue, hlabel', hstride']
  split
  · next hzero =>
    rw [hzero, List.take_zero, List.nil_append] at hrest
    rw [wp_set]
    refine ⟨hload.succ ?_ ?_, hrest⟩
    · rw [hzero, Nat.zero_div]
    · exact fun l hl => absurd hl (Nat.not_lt_zero l)
  · obtain ⟨hblock, hafter, -⟩ := hrest.read (h.length_written i)
    simp only [wp_bind, wp_set, Bool.true_eq_false, if_false, wp_modify, hblock]
    refine ⟨hload.succ rfl ?_, hafter⟩
    intro l hl
    obtain ⟨hlt, post, hpost⟩ := h.drop_written hl
    obtain ⟨hcount, hids⟩ := h.list_fits (l := l + 1) (i := i) ⟨hi, hlt⟩
    rw [linkListsOfBytes, Memory.read_range _ hl, hmaxM', hstride']
    exact LinkList.connections_ofBytes hpost hcount hids

/-- The marked ids below `i`. -/
def markedBelow (t : Index V) (i : Nat) : Finset TableInt :=
  (Finset.range i).filter fun j => t.isMarkedDeleted j = true

private theorem markedBelow_succ (t : Index V) (i : Nat) : t.markedBelow (i + 1) =
    if t.isMarkedDeleted i then insert i (t.markedBelow i) else t.markedBelow i := by
  rw [markedBelow, Finset.range_add_one, Finset.filter_insert]
  rfl

/-- The object after the marks below `i` have been counted; `t` is the object before, and what it
has counted stays. -/
def counted (t : Index V) (i : Nat) : Index V :=
  { t with
    numDeleted := t.numDeleted + (t.markedBelow i).card
    deletedElements :=
      if t.allowReplaceDeleted then t.deletedElements ∪ t.markedBelow i else t.deletedElements }

private theorem counted_zero (t : Index V) : t.counted 0 = t := by
  have hnone : t.markedBelow 0 = ∅ := rfl
  rw [counted, hnone, Finset.union_empty, ite_self, Finset.card_empty, Nat.add_zero]

private theorem wp_countDeleted (t : Index V) (i : Nat) :
    wp (countDeleted i) (fun _ p => p.1 = t.counted (i + 1)) E (t.counted i, input) := by
  rw [countDeleted, modifyIndex, wp_modify]
  have hmark : (t.counted i).isMarkedDeleted i = t.isMarkedDeleted i := rfl
  dsimp only
  rw [hmark]
  split
  · next hm =>
    have hnew : i ∉ t.markedBelow i := by simp [markedBelow]
    by_cases hallow : t.allowReplaceDeleted = true <;>
      simp [counted, markedBelow_succ, hm, hallow, Finset.card_insert_of_notMem hnew, Nat.add_assoc]
  · next hm => simp [counted, markedBelow_succ, hm]

end Loop

/-- The capacity after a load: the one asked for, or the saved one if that is too small. -/
def loadedCapacity (s : Index V) (maxElementsI : Nat) : Nat :=
  if maxElementsI < s.curElementCount then s.maxElements else maxElementsI

/-- What the object `s₁` holds after it has loaded the file of `s`. -/
structure Loaded (s s₁ : Index V) (maxElementsI : Nat) (t : Index V) : Prop where
  maxElements : t.maxElements = s.loadedCapacity maxElementsI
  count : t.curElementCount = s.curElementCount
  capacities : t.capacities = .allocated s.layout.sizeDataPerElement t.maxElements
  params : t.M = s.M ∧ t.maxM = s.maxM ∧ t.maxM0 = s.maxM0 ∧
    t.efConstruction = s.efConstruction
  maxlevel : t.maxlevel = s.maxlevel
  enterpointNode : t.enterpointNode = s.enterpointNode
  record : ∀ i < s.curElementCount,
    SameRecord (s.dataLevel0Memory.read i) (t.dataLevel0Memory.read i)
  level : ∀ i < s.curElementCount, t.level i = s.linkListSize i / (s.maxM * 4 + 4)
  lists : ∀ i < s.curElementCount, ∀ l < t.level i,
    ((t.linkLists.read i).read l).connections = ((s.linkLists.read i).read l).connections
  lookup : ∀ label, t.labelLookup label =
    (s.lastLabelled s.curElementCount label).or (s₁.labelLookup label)
  numDeleted : t.numDeleted = s₁.numDeleted + t.markedIds.card
  deleted : t.deletedElements =
    if s₁.allowReplaceDeleted then s₁.deletedElements ∪ t.markedIds else s₁.deletedElements

theorem saveIndex_eq (C : VectorBytes V dataSize) (s : Index V) :
    s.saveIndex C = s.headerBytes ++ (s.level0Bytes C ++ s.listsFrom 0) := by
  rw [saveIndex, listsFrom, Nat.sub_zero, List.range_eq_range']

section File

variable {s₁ : Index V} {input : InStream}

/-- `s₁` after the records of `s` have been read into it, before the lists are. -/
def withRecords (s : Index V) (C : VectorBytes V s.layout.dataSize) (s₁ : Index V) : Index V :=
  withListPointers (withLinkSizes (withLevel0 C (s.level0Bytes C) s₁))

private theorem wp_loadElements (h : s.Saveable) (hcount : t.curElementCount = s.curElementCount)
    (hmaxM : t.maxM = s.maxM) (hstride : t.layout.sizeLinksPerElement = s.maxM * 4 + 4)
    (hlabel : ∀ i < s.curElementCount, t.getExternalLabel i = s.getExternalLabel i)
    (hin : input.At (s.listsFrom 0)) :
    wp (loadElements true)
      (fun _ p => ∃ t', Loading s t s.curElementCount t' ∧ p.1 = t'.counted s.curElementCount)
      (fun _ _ => False) (t, input) := by
  rw [loadElements, wp_bind, wp_get, wp_bind]
  rw [hcount]
  have hstart : Loading s t 0 t := by
    exact ⟨rfl, fun label => rfl, fun j hj => absurd hj (Nat.not_lt_zero j),
      fun j hj => absurd hj (Nat.not_lt_zero j)⟩
  refine wp_mono (wp_forM_range (I := fun i p => Loading s t i p.1 ∧ p.2.At (s.listsFrom i))
    ⟨hstart, hin⟩ ?_) ?_ fun _ _ he => he
  · rintro i hi ⟨t', input'⟩ ⟨hload, hat⟩
    exact wp_loadElement h hi hmaxM hstride (hlabel i hi) hload hat
  · rintro _ ⟨t', input'⟩ ⟨hload, -⟩
    have hload : Loading s t s.curElementCount t' := hload
    refine wp_mono (wp_forM_range (I := fun i p => p.1 = t'.counted i) t'.counted_zero.symm ?_) ?_
      fun _ _ he => he
    · rintro i - ⟨_, input''⟩ rfl
      exact wp_countDeleted t' i
    · exact fun _ p hp => ⟨t', hload, hp⟩

private theorem wp_loadBody (h : s.Saveable) (C : VectorBytes V s.layout.dataSize)
    (hcount : s₁.curElementCount = s.curElementCount) (hmaxM : s₁.maxM = s.maxM)
    (hmaxM0 : s₁.maxM0 = s.maxM0)
    (hoffsets : s₁.layout.offsetLevel0 = s.layout.offsetLevel0 ∧
      s₁.layout.sizeDataPerElement = s.layout.sizeDataPerElement ∧
      s₁.layout.offsetData = s.layout.offsetData ∧ s₁.layout.labelOffset = s.layout.labelOffset)
    (hin : input.At (s.level0Bytes C ++ s.listsFrom 0)) :
    wp (loadBody C true true true)
      (fun _ p => ∃ t', Loading s (s.withRecords C s₁) s.curElementCount t' ∧
        p.1 = t'.counted s.curElementCount) (fun _ _ => False) (s₁, input) := by
  have hlevel0 : s₁.level0Size = s.level0Size := by
    rw [Index.level0Size, hcount, hoffsets.2.1]
    rfl
  obtain ⟨hblock, hafter, -⟩ := hin.read (h.level0Size C).1.symm
  have hread : ∀ i < s.curElementCount, (s.withRecords C s₁).dataLevel0Memory.read i =
      s₁.recordOfBytes C (s.level0Bytes C) i := by
    intro i hi
    rw [← hcount] at hi
    exact Memory.read_range _ hi
  simp only [loadBody, Bool.true_eq_false, if_false]
  rw [wp_bind, loadLevel0, wp_bind, wp_get, wp_set, hlevel0, hblock, wp_bind, modifyIndex,
    wp_modify, wp_bind, modifyIndex, wp_modify]
  change wp _ _ _ (s.withRecords C s₁, (input.read s.level0Size.toNat).2)
  apply wp_loadElements (t := s.withRecords C s₁) h hcount hmaxM _ _ hafter
  · exact congrArg (· * 4 + 4) hmaxM
  · intro i hi
    rw [getExternalLabel, hread i hi]
    exact (h.sameRecord C hmaxM0 hoffsets hi).label

theorem Loading.loaded {maxElementsI : Nat} (h : s.Saveable) (C : VectorBytes V s.layout.dataSize)
    (hload : Loading s (s.withRecords C (withDataSize s.layout.dataSize
      (s₁.withHeader s maxElementsI))) s.curElementCount t) :
    Loaded s s₁ maxElementsI (t.counted s.curElementCount) := by
  have hcount : t.curElementCount = s.curElementCount := by
    rw [hload.fields]
    rfl
  have hmarked : (t.counted s.curElementCount).markedIds = t.markedBelow s.curElementCount := by
    rw [← hcount]
    rfl
  constructor
  · rw [counted, hload.fields]
    rfl
  · exact hcount
  · rw [counted, hload.fields]
    rfl
  · rw [counted, hload.fields]
    exact ⟨rfl, rfl, rfl, rfl⟩
  · rw [counted, hload.fields]
    rfl
  · rw [counted, hload.fields]
    rfl
  · intro i hi
    have hread : (t.counted s.curElementCount).dataLevel0Memory.read i =
        (withDataSize s.layout.dataSize (s₁.withHeader s maxElementsI)).recordOfBytes C
          (s.level0Bytes C) i := by
      rw [counted, hload.fields]
      exact Memory.read_range _ hi
    rw [hread]
    exact h.sameRecord C rfl ⟨rfl, rfl, rfl, rfl⟩ hi
  · exact hload.level
  · exact hload.lists
  · exact hload.lookup
  · rw [hmarked, counted, hload.fields]
    rfl
  · rw [hmarked, counted, hload.fields]
    rfl

private theorem wp_loadFrom (s₁ : Index V) (h : s.Saveable) (C : VectorBytes V s.layout.dataSize)
    (maxElementsI : Nat) (hin : input.At (s.headerBytes ++ (s.level0Bytes C ++ s.listsFrom 0))) :
    wp (loadFrom C maxElementsI true true true) (fun _ p => Loaded s s₁ maxElementsI p.1)
      (fun _ _ => False) (s₁, input) := by
  rw [loadFrom, wp_bind, wp_get, wp_bind]
  refine wp_loadHeader h hin fun input₁ h₁ c₁ => ?_
  rw [wp_bind, modifyIndex, wp_modify, wp_bind, wp_get, wp_bind]
  refine wp_mono (wp_checkFile h C rfl rfl h₁ c₁) ?_ fun _ _ he => he
  rintro _ ⟨_, input₂⟩ ⟨rfl, hgood, hc⟩
  obtain ⟨h₂, -⟩ := h₁.seekBeg hgood (hc.trans c₁.symm)
  rw [wp_bind, modifyInput, wp_modify]
  refine wp_mono (wp_loadBody h C rfl rfl rfl ⟨rfl, rfl, rfl, rfl⟩ h₂) ?_ fun _ _ he => he
  rintro _ ⟨_, input₃⟩ ⟨t', hload, rfl⟩
  exact hload.loaded h C

theorem wp_loadIndex {C : VectorBytes V dataSize} {contents : List Byte} {maxElementsI : Nat}
    {mallocLevel0 mallocLinkLists malloc : Bool} {Q : Unit → Index V → Prop}
    {E : Failure → Index V → Prop}
    (h : wp (loadFrom C maxElementsI mallocLevel0 mallocLinkLists malloc) (fun _ p => Q () p.1)
      (fun e p => E e p.1) (s₁.clear, InStream.opened contents)) :
    wp (loadIndex C (some contents) maxElementsI mallocLevel0 mallocLinkLists malloc) Q E s₁ := by
  unfold wp at h ⊢
  rw [loadIndex]
  cases hrun : loadFrom C maxElementsI mallocLevel0 mallocLinkLists malloc
    (s₁.clear, InStream.opened contents) with
  | ok _ p =>
    rw [hrun] at h
    exact h
  | error e p =>
    rw [hrun] at h
    exact h

theorem loadIndex_saveIndex (s₁ : Index V) (h : s.Saveable) (C : VectorBytes V s.layout.dataSize)
    (maxElementsI : Nat) :
    ∃ t, loadIndex C (some (s.saveIndex C)) maxElementsI true true true s₁ = .ok () t ∧
      Loaded s s₁.clear maxElementsI t := by
  -- the contents are a variable here, or unification would run the load on them
  generalize hcontents : s.saveIndex C = contents
  have hopen : (InStream.opened contents).At
      (s.headerBytes ++ (s.level0Bytes C ++ s.listsFrom 0)) := by
    rw [← saveIndex_eq, hcontents]
    exact InStream.at_opened _
  obtain ⟨_, t, hrun, hload⟩ := exists_ok_of_wp (wp_loadIndex
    (Q := fun _ t => Loaded s s₁.clear maxElementsI t) (E := fun _ _ => False)
    (wp_loadFrom s₁.clear h C maxElementsI hopen))
  exact ⟨t, hrun, hload⟩

end File

theorem Stored.layout {x : V} {label : LabelType} (hst : Stored s x label t) :
    t.layout = s.layout ∧ t.maxM = s.maxM ∧ t.maxM0 = s.maxM0 := by
  cases hst with
  | inserted curlevel =>
    rw [inserted_fields, withNewElement_fields]
    exact ⟨rfl, rfl, rfl⟩
  | updated => exact ⟨rfl, rfl, rfl⟩
  | revived => exact ⟨rfl, rfl, rfl⟩

theorem Effect.layout {c : Choices} {op : Op V} {r : Option V} (he : Effect s c op r t) :
    t.layout = s.layout ∧ t.maxM = s.maxM ∧ t.maxM0 = s.maxM0 := by
  cases he with
  | addPointLevel hst => exact hst.layout
  | addPoint _ hst => exact hst.layout
  | replaced =>
    rw [replaced_fields]
    exact ⟨rfl, rfl, rfl⟩
  | _ => exact ⟨rfl, rfl, rfl⟩

theorem Reachable.layout {may : Index V → Op V → Choices → Prop} (h : Reachable P may s) :
    s.layout = layoutOf s.layout.dataSize s.maxM s.maxM0 := by
  apply h.invariant (I := fun s => s.layout = layoutOf s.layout.dataSize s.maxM s.maxM0)
  · intro _ _ _ _ _ s hs
    cases hs
    rfl
  · intro s op c r t _ _ he hlayout
    obtain ⟨hsame, hmaxM, hmaxM0⟩ := he.layout
    rw [hsame, hmaxM, hmaxM0]
    exact hlayout
  · intro t s' hl hlayout
    rw [hl.1.fields]
    exact hlayout

theorem Reachable.saveable {may : Index V → Op V → Choices → Prop} (h : Reachable P may s)
    (hfits : s.Fits) : s.Saveable :=
  ⟨h.wellFormed, h.layout, hfits⟩

private theorem length_saveIndex (h : s.Saveable) (C : VectorBytes V s.layout.dataSize) :
    (s.saveIndex C).length = s.indexFileSize := by
  have helement : ∀ i ∈ List.range s.curElementCount,
      (s.elementListsBytes i).length = 4 + s.linkListSize i := by
    intro i _
    rw [elementListsBytes, List.length_append, length_leBytes, h.length_written]
  rw [saveIndex, List.length_append, List.length_append, length_level0Bytes h C,
    List.length_flatMap, List.map_congr_left helement, indexFileSize, headerBytes]
  simp only [List.length_append, length_leBytes]
  exact (Nat.add_assoc _ _ _).symm

/-- What the file of `s` is to bring back in `t`. -/
structure RoundTrip (P : Platform V D) (s : Index V) (maxElementsI : Nat)
    (allowReplaceDeleted : Bool) (t : Index V) : Prop where
  maxElements : t.maxElements = s.loadedCapacity maxElementsI
  /-- Every array has room for that many elements. -/
  room : t.capacities = ⟨t.maxElements, t.maxElements, t.maxElements, t.maxElements, t.maxElements⟩
  params : t.M = s.M ∧ t.maxM = s.maxM ∧ t.maxM0 = s.maxM0 ∧
    t.efConstruction = s.efConstruction
  /-- Count, entry point, vectors, labels, marks, and the links of every level. -/
  elements : SameElements s t
  level : ∀ i < s.curElementCount, t.level i = s.level i
  lookup : t.labelLookup = s.labelLookup
  deleted : t.deletedElements = if allowReplaceDeleted then s.markedIds else ∅
  answers : ∀ ef q k isIdAllowed, searchKnnTagged P (t.setEf ef) q k isIdAllowed =
    searchKnnTagged P (s.setEf ef) q k isIdAllowed

private theorem Saveable.level_iff (h : s.Saveable) (i : TableInt) :
    s.linkListSize i / (s.maxM * 4 + 4) = s.level i ↔
      s.layout.sizeLinksPerElement * s.level i < 2 ^ 32 := by
  rw [h.linkListSize_eq, h.stride, Nat.mul_comm (s.maxM * 4 + 4)]
  constructor
  · intro heq
    have hle := Nat.div_mul_le_self (s.level i * (s.maxM * 4 + 4) % 2 ^ 32) (s.maxM * 4 + 4)
    rw [heq] at hle
    exact hle.trans_lt (Nat.mod_lt _ (by decide))
  · intro hlt
    rw [Nat.mod_eq_of_lt hlt, Nat.mul_div_cancel _ (Nat.succ_pos _)]

theorem Loaded.markedIds {maxElementsI : Nat} {s₁ : Index V} (hload : Loaded s s₁ maxElementsI t) :
    t.markedIds = s.markedIds := by
  ext i
  rw [mem_markedIds, mem_markedIds, hload.count]
  refine and_congr_right fun hi => ?_
  rw [isMarkedDeleted, isMarkedDeleted]
  exact iff_of_eq (congrArg (· = true) (hload.record i hi).mark)

private theorem Loaded.roundTrip {maxElementsI : Nat} {allowReplaceDeleted : Bool} (h : s.Saveable)
    (hl : s.Labelled) (P : Platform V D)
    (hlist : s.curElementCount ≤ s.capacities.visitedList)
    (hload : Loaded s (unloaded allowReplaceDeleted).clear maxElementsI t)
    (hlevel : ∀ i < s.curElementCount, s.layout.sizeLinksPerElement * s.level i < 2 ^ 32)
    (hroom : t.maxElements < 2 ^ 32 ∧ t.maxElements * s.layout.sizeDataPerElement < 2 ^ 64) :
    RoundTrip P s maxElementsI allowReplaceDeleted t := by
  have hcaps : t.capacities =
      ⟨t.maxElements, t.maxElements, t.maxElements, t.maxElements, t.maxElements⟩ :=
    hload.capacities.trans ((allocated_eq_iff h.record_pos).mpr hroom)
  have hlevel' : ∀ i < s.curElementCount, t.level i = s.level i := fun i hi =>
    (hload.level i hi).trans ((h.level_iff i).mpr (hlevel i hi))
  have hmarked := hload.markedIds
  have helements : SameElements s t := by
    refine ⟨hload.count, ?_, hload.maxlevel, hload.enterpointNode, fun i hi =>
      (hload.record i hi).data, fun i hi => (hload.record i hi).label, fun i hi =>
      (hload.record i hi).mark, fun i l hat => ?_⟩
    · rw [hload.numDeleted, hmarked, h.wellFormed.numDeleted]
      exact Nat.zero_add _
    · cases l with
      | zero => exact (hload.record i hat.1).links
      | succ l => exact hload.lists i hat.1 l (by rw [hlevel' i hat.1]; exact hat.2)
  have hcap : s.curElementCount ≤ t.maxElements := by
    have := h.wellFormed.cap
    rw [hload.maxElements, loadedCapacity]
    split <;> omega
  refine ⟨hload.maxElements, hcaps, hload.params, helements, hlevel', ?_, ?_,
    fun ef q k isIdAllowed => ?_⟩
  · funext label
    rw [hload.lookup, hl.lastLabelled h.wellFormed]
    exact Option.or_none
  · rw [hload.deleted, hmarked]
    exact congrArg (fun marked => if allowReplaceDeleted then marked else ∅) (Finset.empty_union _)
  · have hlist' : s.curElementCount ≤ t.capacities.visitedList := by
      rw [hcaps]
      exact hcap
    exact (helements.setEf ef).searchKnnTagged_eq (h.wellFormed.setEf ef) hcap rfl hlist hlist' P q k
      isIdAllowed

/-- Saving and loading brings an index back exactly when the upper lists of every element take
less than `2 ^ 32` bytes, and visited lists and a level-0 block for the new capacity can be had:
that many ids fit 32 bits, and the size of the block does not wrap. -/
theorem saveIndex_loadIndex_iff (h : Reachable P FreshReplacement s) (hfits : s.Fits)
    (C : VectorBytes V s.layout.dataSize) (maxElementsI : Nat) (allowReplaceDeleted : Bool) :
    (∃ t, loadIndex C (some (s.saveIndex C)) maxElementsI true true true
        (unloaded allowReplaceDeleted) = .ok () t ∧
      RoundTrip P s maxElementsI allowReplaceDeleted t ∧
      (s.saveIndex C).length = s.indexFileSize) ↔
    (∀ i < s.curElementCount, s.layout.sizeLinksPerElement * s.level i < 2 ^ 32) ∧
      s.loadedCapacity maxElementsI < 2 ^ 32 ∧
      s.loadedCapacity maxElementsI * s.layout.sizeDataPerElement < 2 ^ 64 := by
  have hsave := h.saveable hfits
  obtain ⟨t, ht, hload⟩ := loadIndex_saveIndex (unloaded allowReplaceDeleted) hsave C maxElementsI
  rw [← hload.maxElements]
  constructor
  · rintro ⟨t', ht', hback, -⟩
    obtain rfl : t = t' := by
      rw [ht] at ht'
      cases ht'
      rfl
    refine ⟨fun i hi => ?_,
      (allocated_eq_iff hsave.record_pos).mp (hload.capacities.symm.trans hback.room)⟩
    exact (hsave.level_iff i).mp ((hload.level i hi).symm.trans (hback.level i hi))
  · rintro ⟨hlevel, hroom⟩
    have hlist : s.curElementCount ≤ s.capacities.visitedList := by
      rw [h.capacities, Capacities.allocated, visitedListLength_eq_iff.mpr hfits.ids]
      exact h.wellFormed.cap
    exact ⟨t, ht, hload.roundTrip hsave h.labelled P hlist hlevel hroom, length_saveIndex hsave C⟩

/-- Squared differences of single bytes. -/
def bytePlatform : Platform Byte ℤ :=
  listPlatform (fun a b => ((a.toNat : ℤ) - b.toNat) ^ 2) 1000000

private theorem afterOp_first {c : Choices} {x : V} {label : LabelType} {level : Int}
    (hempty : s.curElementCount = 0) (hroom : 0 < s.maxElements)
    (hnew : s.labelLookup label = none) (hentry : s.enterpointNode = none)
    (hmax : s.maxlevel = -1) (hmalloc : c.malloc = true) (hlevel : 0 < level) :
    afterOp P c (.addPointLevel x label level) s = some (s.inserted x label level.toNat) := by
  have hwp : wp (runOp P c (.addPointLevel x label level))
      (fun _ s' => s' = s.inserted x label level.toNat) (fun _ _ => False) s := by
    have hne : level.toNat ≠ 0 := by omega
    have hraise : (-1 : Int) < level.toNat := by omega
    simp only [runOp, addPointLevel, insertNew, wp_bind, wp_get, hnew, hempty, hlevel, if_true]
    rw [if_neg (not_le.mpr hroom)]
    simp only [wp_bind, wp_get, wp_set, hmalloc, Bool.true_eq_false, and_false, if_false,
      wp_modify, hentry, wp_pure]
    simp only [hmax, hne, hraise, if_true, if_false, inserted, withNewElement, raiseEntry,
      appendElement, allocateLinkLists]
  obtain ⟨r, s', hrun, hs'⟩ := exists_ok_of_wp hwp
  rw [afterOp, hrun, hs']

private theorem exists_singleByte (level : Int) (hpos : 0 < level) (hlt : level < 2 ^ 31) :
    ∃ s : Index Byte, Reachable bytePlatform FreshReplacement s ∧ s.Fits ∧
      s.curElementCount = 1 ∧ s.level 0 = level.toNat ∧ s.layout = layoutOf 1 2 4 := by
  obtain ⟨s₀, hs₀⟩ : ∃ s₀, construct bytePlatform 1 10 2 2 false true true = .ok s₀ := ⟨_, rfl⟩
  have hreach : Reachable bytePlatform FreshReplacement s₀ :=
    Reachable.built 1 10 2 2 false le_rfl hs₀
  have hstep : afterOp bytePlatform (plainChoices 0) (.addPointLevel 7 0 level) s₀ =
      some (s₀.inserted 7 0 level.toNat) := by
    cases hs₀
    exact afterOp_first rfl (by decide) rfl rfl rfl rfl hpos
  have hfresh : FreshReplacement s₀ (.addPointLevel 7 0 level) (plainChoices 0) := nofun
  have hreach' := hreach.call hfresh (granted_of_allocates (plainChoices_allocates 0) _) hstep
  have hlayout : (s₀.inserted 7 0 level.toNat).layout = layoutOf 1 2 4 ∧
      (s₀.inserted 7 0 level.toNat).maxElements = 10 ∧
      (s₀.inserted 7 0 level.toNat).efConstruction = 2 ∧ s₀.curElementCount = 0 := by
    rw [inserted_fields, withNewElement_fields]
    cases hs₀
    exact ⟨rfl, rfl, rfl, rfl⟩
  obtain ⟨hlayout, hmax, hef, hzero⟩ := hlayout
  have hcount : (s₀.inserted 7 0 level.toNat).curElementCount = 1 := by
    rw [curElementCount_inserted, hzero]
  refine ⟨_, hreach', ⟨?_, ?_, ?_, ?_, ?_, ?_⟩, hcount, ?_, hlayout⟩
  · rw [hmax]
    decide
  · rw [hlayout]
    decide
  · rw [hmax, hlayout]
    decide
  · rw [hef]
    decide
  · intro i hi
    rw [hcount, Nat.lt_one_iff] at hi
    rw [level_inserted, if_pos (hi.trans hzero.symm)]
    omega
  · intro i hi
    rw [hcount, Nat.lt_one_iff] at hi
    rw [getExternalLabel_inserted, if_pos (hi.trans hzero.symm)]
    decide
  · rw [level_inserted, if_pos hzero.symm]

/-- An empty index of single bytes with `M = 2` and room for ten. -/
def emptyBytes : Index Byte :=
  { maxElements := 10
    curElementCount := 0
    numDeleted := 0
    M := 2
    maxM := 2
    maxM0 := 4
    efConstruction := 2
    ef := 10
    mult := 0
    maxlevel := -1
    enterpointNode := none
    layout := ⟨1, 20, 29, 20, 21, 0, 12⟩
    capacities := ⟨10, 10, 10, 10, 10⟩
    dataLevel0Memory := default
    linkLists := default
    elementLevels := default
    labelLookup := fun _ => none
    allowReplaceDeleted := false
    deletedElements := ∅ }

theorem emptyBytes_built : construct bytePlatform 1 10 2 2 false true true = .ok emptyBytes := rfl

theorem emptyBytes_reachable (may : Index Byte → Op Byte → Choices → Prop) :
    Reachable bytePlatform may emptyBytes :=
  Reachable.built 1 10 2 2 false le_rfl emptyBytes_built

/-- Four insertions on up to three levels, a deletion that is taken back, and one that is not. -/
def byteCalls : List (Op Byte × Choices) :=
  [(.addPoint 10 7 false, plainChoices 1), (.addPoint 60 8 false, plainChoices 0),
    (.addPoint 90 9 false, plainChoices 1), (.addPoint 40 10 false, plainChoices 2),
    (.markDelete 8, plainChoices 0), (.unmarkDelete 8, plainChoices 0),
    (.markDelete 9, plainChoices 0)]

/-- The state after a part of these calls, with what holds there by evaluation. -/
theorem exists_bytes (n : Nat) (Q : Index Byte → Prop) [DecidablePred Q]
    (hrun : (afterOps bytePlatform (byteCalls.take n) emptyBytes).any fun s => decide
      ((s.maxElements = 10 ∧ s.layout = ⟨1, 20, 29, 20, 21, 0, 12⟩ ∧ s.efConstruction = 2 ∧
        (∀ i, i < s.curElementCount → s.level i < 2 ^ 31) ∧
        ∀ i, i < s.curElementCount → s.getExternalLabel i < 2 ^ 64) ∧ Q s)) :
    ∃ s, Reachable bytePlatform FreshReplacement s ∧ s.Fits ∧
      s.layout = ⟨1, 20, 29, 20, 21, 0, 12⟩ ∧ Q s := by
  have hall : ∀ t : Index Byte, ∀ p ∈ byteCalls, FreshReplacement t p.1 p.2 ∧ p.2.Allocates := by
    simp [byteCalls, FreshReplacement, plainChoices_allocates]
  obtain ⟨s, hreach, ⟨hmax, hlayout, hef, hlevel, hlabel⟩, hQ⟩ :=
    (emptyBytes_reachable FreshReplacement).exists_run (fun p hp t =>
      have hp' := hall t p (List.mem_of_mem_take hp)
      ⟨hp'.1, granted_of_allocates hp'.2 p.1⟩) _ hrun
  refine ⟨s, hreach, ⟨?_, ?_, ?_, ?_, hlevel, hlabel⟩, hlayout, hQ⟩
  · rw [hmax]
    decide
  · rw [hlayout]
    decide
  · rw [hmax, hlayout]
    decide
  · rw [hef]
    decide

/-- Four linked elements on three levels, one of them deleted, come back. -/
theorem saveIndex_loadIndex_bytes : ∃ (s t : Index Byte) (C : VectorBytes Byte s.layout.dataSize),
    Reachable bytePlatform FreshReplacement s ∧ s.Fits ∧
    (s.curElementCount = 4 ∧ s.level 3 = 2 ∧ s.connections 0 1 = [2, 3] ∧ s.numDeleted = 1) ∧
    loadIndex C (some (s.saveIndex C)) 20 true true true (unloaded true) = .ok () t ∧
    RoundTrip bytePlatform s 20 true t := by
  obtain ⟨s, hreach, hfits, hlayout, hvalues, hshort⟩ := exists_bytes 7 (fun s =>
    (s.curElementCount = 4 ∧ s.level 3 = 2 ∧ s.connections 0 1 = [2, 3] ∧ s.numDeleted = 1) ∧
    ∀ i, i < s.curElementCount → s.layout.sizeLinksPerElement * s.level i < 2 ^ 32)
    (by decide +kernel)
  have hsize : s.layout.dataSize = 1 := by rw [hlayout]
  have hcap : s.loadedCapacity 20 = 20 := by
    rw [loadedCapacity, hvalues.1]
    rfl
  obtain ⟨t, ht, hback, -⟩ := (saveIndex_loadIndex_iff hreach hfits (hsize ▸ singleByte) 20 true).mpr
    ⟨hshort, by rw [hcap]; decide, by rw [hcap, hlayout]; decide⟩
  exact ⟨s, t, _, hreach, hfits, hvalues, ht, hback⟩

/-- The lists of an element of level 357913942 take `2 ^ 32 + 8` bytes. Eight of them are written,
and the element comes back with level 0. -/
theorem saveIndex_cuts_level : ∃ (s t : Index Byte) (C : VectorBytes Byte s.layout.dataSize),
    Reachable bytePlatform FreshReplacement s ∧ s.Fits ∧ s.curElementCount = 1 ∧
    s.level 0 = 357913942 ∧
    loadIndex C (some (s.saveIndex C)) 20 true true true (unloaded true) = .ok () t ∧
    t.level 0 = 0 := by
  obtain ⟨s, hreach, hfits, hcount, hlevel, hlayout⟩ :=
    exists_singleByte 357913942 (by decide) (by decide)
  have hsize : s.layout.dataSize = 1 := by rw [hlayout]; rfl
  have hsave := hreach.saveable hfits
  obtain ⟨t, ht, hload⟩ := loadIndex_saveIndex (unloaded true) hsave (hsize ▸ singleByte) 20
  refine ⟨s, t, _, hreach, hfits, hcount, hlevel, ht, ?_⟩
  rw [hload.level 0 (by rw [hcount]; exact Nat.zero_lt_one), ← hsave.stride, linkListSize, hlevel,
    hlayout]
  decide

end Index

end HnswRvv
