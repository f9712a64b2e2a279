import HnswRvv.Index.MemoryImage

/-!
# The blocks of an index

An index of a run that fits into memory is there as the bytes of its blocks. Whatever is written to
its fields through the accessors, they read the fields of the state that the same writes give, and the
file is a copy of the blocks.
-/

namespace HnswRvv.Index

open Framework
set_option linter.unusedSectionVars false

variable {V : Type} [Inhabited V] {dataSize : Nat} {C : VectorBytes V dataSize} {L : ByteLayout}
  {s : Index V} {heap : Heap IndexBlock}

section Exists

/-- The numbers of an index as the accessors have them. -/
def byteLayout (s : Index V) : ByteLayout where
  maxElements := BitVec.ofNat 64 s.maxElements
  dataSize := BitVec.ofNat 64 s.layout.dataSize
  maxM := BitVec.ofNat 64 s.maxM
  maxM0 := BitVec.ofNat 64 s.maxM0
  sizeLinksLevel0 := BitVec.ofNat 64 s.layout.sizeLinksLevel0
  sizeDataPerElement := BitVec.ofNat 64 s.layout.sizeDataPerElement
  offsetData := BitVec.ofNat 64 s.layout.offsetData
  labelOffset := BitVec.ofNat 64 s.layout.labelOffset
  offsetLevel0 := BitVec.ofNat 64 s.layout.offsetLevel0
  sizeLinksPerElement := BitVec.ofNat 64 s.layout.sizeLinksPerElement

/-- The blocks of an index, filled up with zeros. -/
def blocks (C : VectorBytes V dataSize) (s : Index V) : Heap IndexBlock
  | .dataLevel0Memory => s.level0Bytes C ++
      List.replicate ((s.maxElements - s.curElementCount) * s.layout.sizeDataPerElement) 0
  | .linkLists id => s.linkListsBytes id.toNat ++ [0]

theorem Saveable.unwrapped (h : s.Saveable) : s.byteLayout.Unwrapped s.maxM := by
  have hp := h.wellFormed.params
  have hM := hp.maxM
  have hM0 := hp.maxM0
  have hcap := hp.le_cap
  have hrecord := h.fits.record
  have hlayout := h.layout
  have hwidth : ∀ n < 2 ^ 64, (BitVec.ofNat 64 n).toNat = n := fun n hn => by
    rw [BitVec.toNat_ofNat, Nat.mod_eq_of_lt hn]
  generalize s.layout.dataSize = dataSize at hlayout
  rw [hlayout, layoutOf] at hrecord
  dsimp only at hrecord
  simp only [byteLayout, hlayout, layoutOf]
  constructor
  · omega
  · exact hwidth _ (by omega)
  · rw [hwidth _ (by omega)]
    omega
  · rfl
  · rw [hwidth _ (by omega)]
    omega
  · rw [hwidth _ (by omega), hwidth _ (by omega)]
    omega
  · rw [hwidth _ (by omega), hwidth _ (by omega)]
    omega
  · exact hwidth _ (by omega)

private theorem Saveable.toNat_maxElements (h : s.Saveable) :
    s.byteLayout.maxElements.toNat = s.maxElements := by
  have hids := h.fits.ids
  rw [byteLayout, BitVec.toNat_ofNat, Nat.mod_eq_of_lt (by omega)]

private theorem Saveable.toNat_record (h : s.Saveable) :
    s.byteLayout.sizeDataPerElement.toNat = s.layout.sizeDataPerElement := by
  rw [byteLayout, BitVec.toNat_ofNat, Nat.mod_eq_of_lt h.fits.record]

private theorem Saveable.toNat_block (h : s.Saveable) :
    (s.byteLayout.maxElements * s.byteLayout.sizeDataPerElement).toNat =
      s.maxElements * s.layout.sizeDataPerElement := by
  have hblock := h.fits.block
  rw [BitVec.toNat_mul, h.toNat_maxElements, h.toNat_record, Nat.mod_eq_of_lt (by omega)]

private theorem Saveable.hasLayout (h : s.Saveable) : s.HasLayout s.layout.dataSize s.byteLayout := by
  have hp := h.wellFormed.params
  have hrecord := h.fits.record
  have hblock := h.fits.block
  have hids := h.fits.ids
  have hcount := h.wellFormed.cap
  have hmax := h.toNat_maxElements
  have hdata : s.layout.dataSize ≤ s.layout.sizeDataPerElement := by
    rw [h.layout, layoutOf]
    dsimp only
    omega
  refine ⟨h.unwrapped, ?_, h.stride, ?_, fun id hid => ?_, ?_, ?_⟩
  · rw [hp.maxM0, hp.maxM]
  · rw [byteLayout, BitVec.toNat_ofNat, Nat.mod_eq_of_lt (by omega)]
  · rw [h.toNat_block, h.toNat_record]
    exact Nat.mul_le_mul_right _ (hmax ▸ hid)
  · rw [hmax]
    exact hcount
  · omega

theorem Saveable.allocated (h : s.Saveable) (C : VectorBytes V s.layout.dataSize) :
    s.byteLayout.Allocated s.levels (s.blocks C) := by
  have hlevels : ∀ id, s.levels id < 2 ^ 31 := by
    intro id
    rw [levels]
    split
    · next hid => exact h.fits.level _ hid
    · norm_num
  refine ⟨hlevels, ?_, fun id hid hpos => ?_⟩
  · rw [h.toNat_block, blocks, List.length_append, length_level0Bytes h C, List.length_replicate,
      ← Nat.add_mul, Nat.add_sub_cancel' h.wellFormed.cap]
  · rw [h.unwrapped.toNat_lists (hlevels id), h.unwrapped.sizeLinksPerElement, blocks,
      List.length_append, length_linkListsBytes, List.length_singleton, levels]
    split
    · rfl
    · next hid => rw [levels, if_neg hid] at hpos; exact absurd hpos (lt_irrefl 0)

theorem Saveable.image (h : s.Saveable) (C : VectorBytes V s.layout.dataSize) :
    s.Image C s.byteLayout (s.blocks C) := by
  have hL := h.unwrapped
  have hlayout := h.hasLayout
  refine ⟨hlayout, h.allocated C, fun id hid level hle => Heap.load_eq_some.mpr ⟨?_, ?_⟩⟩
  · refine hL.row_inside hlayout.room (h.allocated C) (hid.trans_le hlayout.count_le) ?_
    rwa [levels, if_pos hid]
  · cases level with
    | zero =>
      have hi : id.toNat < (s.dataLevel0Memory.slice s.curElementCount).length := by
        rwa [Memory.length_slice]
      have hsize : s.layout.sizeDataPerElement = s.maxM0 * 4 + 4 + s.layout.dataSize + 8 := by
        rw [h.layout]
        rfl
      have hrecord := fieldAt_records (length_recordBytes C s.maxM0) hi
        (List.replicate ((s.maxElements - s.curElementCount) * s.layout.sizeDataPerElement) 0)
      rw [hL.row_level0 (hlayout.room.row_lt (hid.trans_le hlayout.count_le)), ByteLayout.rowSize,
        if_pos rfl, h.toNat_record]
      rw [← hsize] at hrecord
      refine hrecord.trans ?_
      simp only [Memory.slice, List.getElem_map, List.getElem_range]
      rfl
    | succ l =>
      have hl : l < ((s.linkLists.read id.toNat).slice (s.level id.toNat)).length := by
        rwa [Memory.length_slice]
      rw [hL.row_upper (hle.trans_lt (h.fits.level _ hid)), ByteLayout.rowSize,
        if_neg (Nat.succ_ne_zero l), hL.sizeLinksPerElement, rowBytes, rowTail,
        if_neg (Nat.succ_ne_zero l), List.append_nil]
      refine (fieldAt_records (LinkList.length_bytes s.maxM) hl [0]).trans ?_
      simp only [Memory.slice, List.getElem_map, List.getElem_range]
      rfl

end Exists

section File

/-- `saveIndex` as it copies the blocks. -/
def dumpIndex (L : ByteLayout) (heap : Heap IndexBlock) (s : Index V) : List Byte :=
  s.headerBytes ++ ((heap .dataLevel0Memory).take
      (BitVec.ofNat 64 s.curElementCount * L.sizeDataPerElement).toNat ++
    (List.range s.curElementCount).flatMap fun i => leBytes 4 (s.linkListSize i) ++
      (heap (.linkLists (BitVec.ofNat 32 i))).take (s.linkListSize i))

private theorem HasLayout.toNat_id (h : s.HasLayout dataSize L) {i : TableInt} (hi : i < s.curElementCount) :
    (BitVec.ofNat 32 i).toNat = i := by
  rw [BitVec.toNat_ofNat, Nat.mod_eq_of_lt (hi.trans_le h.ids)]

private theorem HasLayout.toNat_level0 (h : s.HasLayout dataSize L) :
    (BitVec.ofNat 64 s.curElementCount * L.sizeDataPerElement).toNat =
      s.curElementCount * L.sizeDataPerElement.toNat := by
  have hids := h.ids
  have hlt : s.curElementCount * L.sizeDataPerElement.toNat < 2 ^ 64 := by
    cases hcount : s.curElementCount with
    | zero => simp
    | succ n =>
      -- the last record is inside the block
      have hn : n < s.curElementCount := by
        rw [hcount]
        exact Nat.lt_succ_self n
      have hid := h.toNat_id hn
      have hroom := h.room (BitVec.ofNat 32 n) (by rw [hid]; exact hn.trans_le h.count_le)
      rw [hid] at hroom
      exact hroom.trans_lt (BitVec.isLt _)
  rw [BitVec.toNat_mul, BitVec.toNat_ofNat, Nat.mod_eq_of_lt (a := s.curElementCount) (by omega),
    Nat.mod_eq_of_lt hlt]

theorem Image.level0Bytes (h : s.Image C L heap) : s.level0Bytes C =
    (heap .dataLevel0Memory).take (s.curElementCount * L.sizeDataPerElement.toNat) := by
  rw [Index.level0Bytes, Memory.slice, List.flatMap_map, take_rows]
  intro i hi
  have hid := h.layout.toNat_id hi
  have hload := h.rows (BitVec.ofNat 32 i) (by rwa [hid]) 0 (Nat.zero_le _)
  have hlt : (BitVec.ofNat 32 i).toNat < L.maxElements.toNat := by
    rw [hid]
    exact hi.trans_le h.layout.count_le
  rw [h.layout.unwrapped.row_level0 (h.layout.room.row_lt hlt), hid] at hload
  exact (Heap.load_eq_some.mp hload).2

theorem Image.linkListsBytes (h : s.Image C L heap) {i : TableInt} (hi : i < s.curElementCount) :
    s.linkListsBytes i =
      (heap (.linkLists (BitVec.ofNat 32 i))).take (s.level i * L.sizeLinksPerElement.toNat) := by
  rw [Index.linkListsBytes, Memory.slice, List.flatMap_map, take_rows]
  intro l hl
  have hid := h.layout.toNat_id hi
  have hlt : (BitVec.ofNat 32 i).toNat < s.curElementCount := by rwa [hid]
  have hle : l + 1 ≤ s.level (BitVec.ofNat 32 i).toNat := by rwa [hid]
  have hload := h.rows (BitVec.ofNat 32 i) hlt (l + 1) hle
  rw [h.layout.unwrapped.row_upper (h.level_lt hlt hle), hid, rowBytes, rowTail,
    if_neg (Nat.succ_ne_zero l), List.append_nil] at hload
  exact (Heap.load_eq_some.mp hload).2

theorem Image.saveIndex (h : s.Image C L heap) : s.saveIndex C = s.dumpIndex L heap := by
  rw [Index.saveIndex, dumpIndex, h.layout.toNat_level0, h.level0Bytes]
  congr 2
  refine List.flatMap_congr fun i hi => ?_
  have hi := List.mem_range.mp hi
  have hle : s.linkListSize i ≤ s.level i * L.sizeLinksPerElement.toNat := by
    rw [linkListSize, h.layout.links, h.layout.unwrapped.sizeLinksPerElement]
    refine (Nat.mod_le _ _).trans ?_
    split
    · rw [Nat.mul_comm]
    · exact Nat.zero_le _
  rw [elementListsBytes, h.linkListsBytes hi, List.take_take, Nat.min_eq_left hle]

private theorem HasField.assignAll {f : FieldName} (h : s.HasField L f)
    (ws : List ((f : FieldName) × f.part.Val)) : (s.assignAll C ws).HasField L f := by
  induction ws generalizing s with
  | nil => exact h
  | cons w ws ih =>
    refine ih ⟨?_, ?_⟩
    · rw [curElementCount_assign]
      exact h.lt
    · rw [levels_assign]
      exact h.legal

/-- Every state of a run that fits into memory is there in bytes. After any writes through the
accessors, they read the fields of the state with the same writes, and its file is a copy of the
blocks. -/
theorem writes_inMemory {D : Type} [LinearOrder D] {P : Platform V D}
    {may : Index V → Op V → Choices → Prop} (h : Reachable P may s) (hfits : s.Fits)
    (C : VectorBytes V s.layout.dataSize) {ws : List ((f : FieldName) × f.part.Val)}
    (hws : ∀ w ∈ ws, s.LegalWrite C s.byteLayout w) :
    ∃ heap, s.byteLayout.run ws (s.blocks C) = some heap ∧
      (∀ f, s.HasField s.byteLayout f →
        s.byteLayout.read f heap = some ((s.assignAll C ws).fieldValue C f)) ∧
      (s.assignAll C ws).saveIndex C = (s.assignAll C ws).dumpIndex s.byteLayout heap := by
  obtain ⟨heap, hrun, himage⟩ := ((h.saveable hfits).image C).run hws
  exact ⟨heap, hrun, fun f hf => himage.read (hf.assignAll ws), himage.saveIndex⟩

instance (L : ByteLayout) (elementLevels : BitVec 32 → Nat) (f : FieldName) :
    Decidable (L.Legal elementLevels f) :=
  match f with
  | ⟨_, _, .listCount⟩ => inferInstanceAs (Decidable (_ ∧ _ ∧ True))
  | ⟨_, _, .link _⟩ => inferInstanceAs (Decidable (_ ∧ _ ∧ _ < _))
  | ⟨_, _, .deleteMark⟩ | ⟨_, _, .vector⟩ | ⟨_, _, .label⟩ =>
    inferInstanceAs (Decidable (_ ∧ _ ∧ _ = _))

instance (L : ByteLayout) (s : Index V) (f : FieldName) : Decidable (s.HasField L f) :=
  decidable_of_iff (f.internalId.toNat < s.curElementCount ∧ L.Legal s.levels f)
    ⟨fun h => ⟨h.1, h.2⟩, fun h => ⟨h.lt, h.legal⟩⟩

/-- A new link for the first of four elements, and a mark for the second. -/
def sampleWrites : List ((f : FieldName) × f.part.Val) :=
  [⟨⟨0, 1, .link 0⟩, (1 : BitVec 32)⟩, ⟨⟨1, 0, .deleteMark⟩, true⟩]

/-- Four linked elements on three levels, one of them deleted. -/
theorem writes_inMemory_bytes : ∃ (s : Index Byte) (C : VectorBytes Byte s.layout.dataSize)
    (heap : Heap IndexBlock), Reachable bytePlatform FreshReplacement s ∧ s.Fits ∧
    (s.curElementCount = 4 ∧ s.level 3 = 2 ∧ s.connections 0 1 = [2, 3] ∧ s.numDeleted = 1) ∧
    s.byteLayout.run sampleWrites (s.blocks C) = some heap ∧
    s.byteLayout.read ⟨0, 1, .link 0⟩ heap = some (1 : BitVec 32) ∧
    s.byteLayout.read ⟨0, 1, .link 1⟩ heap = some (3 : BitVec 32) ∧
    s.byteLayout.read ⟨1, 0, .deleteMark⟩ heap = some true ∧
    s.byteLayout.read ⟨2, 0, .deleteMark⟩ heap = some true := by
  obtain ⟨s, hreach, hfits, hlayout, hvalues, ⟨hlink, hlink', hmark, hmark'⟩, hfields⟩ := exists_bytes 7
    (fun s => (s.curElementCount = 4 ∧ s.level 3 = 2 ∧ s.connections 0 1 = [2, 3] ∧
        s.numDeleted = 1) ∧
      (s.HasField s.byteLayout ⟨0, 1, .link 0⟩ ∧ s.HasField s.byteLayout ⟨0, 1, .link 1⟩ ∧
        s.HasField s.byteLayout ⟨1, 0, .deleteMark⟩ ∧ s.HasField s.byteLayout ⟨2, 0, .deleteMark⟩) ∧
      (s.assignAll singleByte sampleWrites).fieldValue singleByte ⟨0, 1, .link 0⟩ = (1 : BitVec 32) ∧
      (s.assignAll singleByte sampleWrites).fieldValue singleByte ⟨0, 1, .link 1⟩ = (3 : BitVec 32) ∧
      (s.assignAll singleByte sampleWrites).fieldValue singleByte ⟨1, 0, .deleteMark⟩ = true ∧
      (s.assignAll singleByte sampleWrites).fieldValue singleByte ⟨2, 0, .deleteMark⟩ = true)
    (by decide +kernel)
  have hsize : 1 = s.layout.dataSize := by rw [hlayout]
  have hlegal : ∀ w ∈ sampleWrites, s.LegalWrite (hsize ▸ singleByte) s.byteLayout w := by
    simp only [sampleWrites, List.mem_cons, List.not_mem_nil, or_false]
    rintro w (rfl | rfl)
    · exact ⟨hlink, trivial, trivial⟩
    · exact ⟨hmark, trivial, trivial⟩
  obtain ⟨heap, hrun, hread, -⟩ := writes_inMemory hreach hfits (hsize ▸ singleByte) hlegal
  refine ⟨s, hsize ▸ singleByte, heap, hreach, hfits, hvalues, hrun, ?_⟩
  rw [hread _ hlink, hread _ hlink', hread _ hmark, hread _ hmark']
  simp only [Option.some.injEq]
  clear hread hrun hlegal
  generalize s.layout.dataSize = dataSize at hsize
  subst hsize
  exact hfields

end File

end HnswRvv.Index
