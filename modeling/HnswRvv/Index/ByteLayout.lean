import HnswRvv.Framework.ByteFields

/-!
# The layout of an index in memory

The records of all elements lie in one block; the upper link lists of an element have a block of
their own. Offsets and sizes are computed in `size_t`, and so is the size of the block that is asked
for. The accessors read and write single fields at computed offsets. As long as the size of the block
does not wrap around, they implement independent fields.
-/

namespace HnswRvv

open Framework

inductive IndexBlock where
  | dataLevel0Memory
  | linkLists (internalId : BitVec 32)
  deriving DecidableEq, Repr

/-- The numbers that the accessors use. -/
structure ByteLayout where
  maxElements : BitVec 64
  dataSize : BitVec 64
  maxM : BitVec 64
  maxM0 : BitVec 64
  sizeLinksLevel0 : BitVec 64
  sizeDataPerElement : BitVec 64
  offsetData : BitVec 64
  labelOffset : BitVec 64
  offsetLevel0 : BitVec 64
  sizeLinksPerElement : BitVec 64
  deriving DecidableEq, Repr

def ByteLayout.construct (maxElements M dataSize : BitVec 64) : ByteLayout :=
  let M := if M ≤ 10000 then M else 10000
  let maxM := M
  let maxM0 := M * 2
  let sizeLinksLevel0 := maxM0 * 4 + 4
  { maxElements := maxElements
    dataSize := dataSize
    maxM := maxM
    maxM0 := maxM0
    sizeLinksLevel0 := sizeLinksLevel0
    sizeDataPerElement := sizeLinksLevel0 + dataSize + 8
    offsetData := sizeLinksLevel0
    labelOffset := sizeLinksLevel0 + dataSize
    offsetLevel0 := 0
    sizeLinksPerElement := maxM * 4 + 4 }

namespace ByteLayout

variable (L : ByteLayout)

/-- `data_level0_memory_ + internal_id * size_data_per_element_ + offset`; the product is a
`size_t`. -/
def recordPointer (internalId : BitVec 32) (offset : BitVec 64) : Pointer IndexBlock :=
  ⟨.dataLevel0Memory, (internalId.setWidth 64 * L.sizeDataPerElement).toNat + offset.toNat⟩

def getLinklist0 (internalId : BitVec 32) : Pointer IndexBlock :=
  L.recordPointer internalId L.offsetLevel0

def getLinklist (internalId : BitVec 32) (level : Nat) : Pointer IndexBlock :=
  ⟨.linkLists internalId, (BitVec.ofNat 64 (level - 1) * L.sizeLinksPerElement).toNat⟩

def getLinklistAtLevel (internalId : BitVec 32) (level : Nat) : Pointer IndexBlock :=
  if level = 0 then L.getLinklist0 internalId else L.getLinklist internalId level

def getDataByInternalId (internalId : BitVec 32) : Pointer IndexBlock :=
  L.recordPointer internalId L.offsetData

def getExternalLabeLp (internalId : BitVec 32) : Pointer IndexBlock :=
  L.recordPointer internalId L.labelOffset

/-- `(tableint *)(ptr + 1) + idx` -/
def linkPointer (ptr : Pointer IndexBlock) (idx : Nat) : Pointer IndexBlock :=
  ⟨ptr.block, ptr.offset + 4 + idx * 4⟩

/-- `((unsigned char *)get_linklist0(internalId)) + 2` -/
def markPointer (internalId : BitVec 32) : Pointer IndexBlock :=
  ⟨(L.getLinklist0 internalId).block, (L.getLinklist0 internalId).offset + 2⟩

section Access

variable (heap : Heap IndexBlock)

def getListCount (ptr : Pointer IndexBlock) : Option Nat := (heap.load ptr 2).map leValue

/-- The argument becomes an `unsigned short`. -/
def setListCount (ptr : Pointer IndexBlock) (size : Nat) : Option (Heap IndexBlock) :=
  heap.store ptr (leBytes 2 size)

def getLink (ptr : Pointer IndexBlock) (idx : Nat) : Option (BitVec 32) :=
  (heap.load (linkPointer ptr idx) 4).map fun bytes => BitVec.ofNat 32 (leValue bytes)

def setLink (ptr : Pointer IndexBlock) (idx : Nat) (id : BitVec 32) : Option (Heap IndexBlock) :=
  heap.store (linkPointer ptr idx) (leBytes 4 id.toNat)

/-- `*ll_cur & DELETE_MARK` -/
def isMarkedDeleted (internalId : BitVec 32) : Option Bool :=
  (heap.load (L.markPointer internalId) 1).map fun bytes => bytes.headD 0 &&& 1 != 0

/-- `*ll_cur |= DELETE_MARK` or `*ll_cur &= ~DELETE_MARK` -/
def setDeleteMark (internalId : BitVec 32) (mark : Bool) : Option (Heap IndexBlock) := do
  let bytes ← heap.load (L.markPointer internalId) 1
  heap.store (L.markPointer internalId)
    [if mark then bytes.headD 0 ||| 1 else bytes.headD 0 &&& ~~~1]

def getExternalLabel (internalId : BitVec 32) : Option (BitVec 64) :=
  (heap.load (L.getExternalLabeLp internalId) 8).map fun bytes => BitVec.ofNat 64 (leValue bytes)

def setExternalLabel (internalId : BitVec 32) (label : BitVec 64) : Option (Heap IndexBlock) :=
  heap.store (L.getExternalLabeLp internalId) (leBytes 8 label.toNat)

def getData (internalId : BitVec 32) : Option (List Byte) :=
  heap.load (L.getDataByInternalId internalId) L.dataSize.toNat

/-- `memcpy(getDataByInternalId(internalId), data_point, data_size_)` -/
def setData (internalId : BitVec 32) (dataPoint : List Byte) : Option (Heap IndexBlock) :=
  heap.store (L.getDataByInternalId internalId) dataPoint

end Access

end ByteLayout

/-- The fields of a link list, and the others of a record. -/
inductive FieldPart where
  | listCount
  | link (idx : Nat)
  | deleteMark
  | vector
  | label
  deriving DecidableEq, Repr

abbrev FieldPart.Val : FieldPart → Type
  | listCount => Nat
  | link _ => BitVec 32
  | deleteMark => Bool
  | vector => List Byte
  | label => BitVec 64

/-- A field of an element. The mark, the vector and the label belong to level 0. -/
structure FieldName where
  internalId : BitVec 32
  level : Nat
  part : FieldPart
  deriving DecidableEq, Repr

namespace ByteLayout

variable (L : ByteLayout)

def read (f : FieldName) (heap : Heap IndexBlock) : Option f.part.Val :=
  match f with
  | ⟨id, level, .listCount⟩ => getListCount heap (L.getLinklistAtLevel id level)
  | ⟨id, level, .link idx⟩ => getLink heap (L.getLinklistAtLevel id level) idx
  | ⟨id, _, .deleteMark⟩ => L.isMarkedDeleted heap id
  | ⟨id, _, .vector⟩ => L.getData heap id
  | ⟨id, _, .label⟩ => L.getExternalLabel heap id

def write (f : FieldName) (v : f.part.Val) (heap : Heap IndexBlock) : Option (Heap IndexBlock) :=
  match f, v with
  | ⟨id, level, .listCount⟩, size => setListCount heap (L.getLinklistAtLevel id level) size
  | ⟨id, level, .link idx⟩, v => setLink heap (L.getLinklistAtLevel id level) idx v
  | ⟨id, _, .deleteMark⟩, mark => L.setDeleteMark heap id mark
  | ⟨id, _, .vector⟩, dataPoint => L.setData heap id dataPoint
  | ⟨id, _, .label⟩, label => L.setExternalLabel heap id label

def run : List ((f : FieldName) × f.part.Val) → Heap IndexBlock → Option (Heap IndexBlock)
  | [], heap => some heap
  | w :: ws, heap => (L.write w.1 w.2 heap).bind (run ws)

variable (elementLevels : BitVec 32 → Nat)

/-- The fields of elements with an id below `max_elements_`. -/
def Legal (f : FieldName) : Prop :=
  f.internalId.toNat < L.maxElements.toNat ∧ f.level ≤ elementLevels f.internalId ∧
    match f.part with
    | .listCount => True
    | .link idx => idx < if f.level = 0 then L.maxM0.toNat else L.maxM.toNat
    | .deleteMark | .vector | .label => f.level = 0

/-- Counts that a list can have, and vectors of the right size. -/
def LegalValue : (part : FieldPart) → part.Val → Prop
  | .listCount, (size : Nat) => size ≤ L.maxM0.toNat
  | .link _, _ | .deleteMark, _ | .label, _ => True
  | .vector, (dataPoint : List Byte) => dataPoint.length = L.dataSize.toNat

structure Allocated (heap : Heap IndexBlock) : Prop where
  level_lt : ∀ id, elementLevels id < 2 ^ 31
  level0 : (heap .dataLevel0Memory).length = (L.maxElements * L.sizeDataPerElement).toNat
  upper : ∀ id, id.toNat < L.maxElements.toNat → 0 < elementLevels id →
    (heap (.linkLists id)).length =
      (L.sizeLinksPerElement * BitVec.ofNat 64 (elementLevels id) + 1).toNat

/-- Every write succeeds, and every read gives what was last written to the same field. -/
def IndependentFields (heap : Heap IndexBlock) : Prop :=
  ∀ ws : List ((f : FieldName) × f.part.Val),
    (∀ w ∈ ws, L.Legal elementLevels w.1 ∧ L.LegalValue w.1.part w.2) →
    ∃ heap', L.run ws heap = some heap' ∧ ∀ f, L.Legal elementLevels f →
      (L.read f heap').isSome ∧ L.read f heap' = lastWritten (fun f => L.read f heap) ws f

private theorem bit_mark (b : Byte) (mark : Bool) :
    ((if mark then b ||| 1 else b &&& ~~~1) &&& 1 != 0) = mark := by
  revert b mark
  decide

/-- The bytes of each field and what they stand for. -/
def field (id : BitVec 32) (level : Nat) : (part : FieldPart) → ByteField IndexBlock part.Val
  | .listCount => .plain (L.getLinklistAtLevel id level) 2 leValue (leBytes 2) (· < 256 ^ 2)
      (fun _ _ => length_leBytes 2 _) (fun _ h => leValue_leBytes h)
  | .link idx => .plain (linkPointer (L.getLinklistAtLevel id level) idx) 4
      (fun bytes => BitVec.ofNat 32 (leValue bytes)) (fun v => leBytes 4 v.toNat) (fun _ => True)
      (fun _ _ => length_leBytes 4 _)
      (fun v _ => by rw [leValue_leBytes v.isLt, BitVec.ofNat_toNat, BitVec.setWidth_eq])
  | .deleteMark =>
    { place := L.markPointer id
      size := 1
      get := fun bytes => bytes.headD 0 &&& 1 != 0
      put := fun mark old => [if mark then old.headD 0 ||| 1 else old.headD 0 &&& ~~~1]
      Valid := fun _ => True
      length_put := fun _ _ _ _ => rfl
      get_put := fun mark old _ _ => bit_mark _ mark }
  | .vector => .plain (L.getDataByInternalId id) L.dataSize.toNat (fun bytes => bytes)
      (fun dataPoint => dataPoint) (fun dataPoint => dataPoint.length = L.dataSize.toNat)
      (fun _ h => h) (fun _ _ => rfl)
  | .label => .plain (L.getExternalLabeLp id) 8 (fun bytes => BitVec.ofNat 64 (leValue bytes))
      (fun label => leBytes 8 label.toNat) (fun _ => True) (fun _ _ => length_leBytes 8 _)
      (fun v _ => by rw [leValue_leBytes v.isLt, BitVec.ofNat_toNat, BitVec.setWidth_eq])

def fields (f : FieldName) : ByteField IndexBlock f.part.Val := L.field f.internalId f.level f.part

variable {L} {elementLevels}

theorem read_eq (f : FieldName) (heap : Heap IndexBlock) :
    L.read f heap = (L.fields f).read heap := by
  obtain ⟨id, level, part⟩ := f
  cases part with
  | vector => exact Option.map_id'.symm
  | _ => rfl

theorem write_eq (f : FieldName) {v : f.part.Val} (hv : (L.fields f).Valid v)
    (heap : Heap IndexBlock) : L.write f v heap = (L.fields f).write v heap := by
  obtain ⟨id, level, part⟩ := f
  cases part with
  | deleteMark => rfl
  | _ => exact (ByteField.write_eq_store hv (fun _ => rfl) heap).symm

theorem run_eq {ws : List ((f : FieldName) × f.part.Val)}
    (h : ∀ w ∈ ws, (L.fields w.1).Valid w.2) (heap : Heap IndexBlock) :
    L.run ws heap = runWrites L.fields ws heap := by
  induction ws generalizing heap with
  | nil => rfl
  | cons w ws ih =>
    obtain ⟨hw, hws⟩ := List.forall_mem_cons.mp h
    rw [run, runWrites, write_eq w.1 hw]
    congr 1
    funext heap'
    exact ih hws heap'

/-- Where a part begins in its record or list. -/
def partOffset (L : ByteLayout) : FieldPart → Nat
  | .listCount => 0
  | .link idx => 4 + idx * 4
  | .deleteMark => 2
  | .vector => L.offsetData.toNat
  | .label => L.labelOffset.toNat

def partSize (L : ByteLayout) : FieldPart → Nat
  | .listCount => 2
  | .link _ => 4
  | .deleteMark => 1
  | .vector => L.dataSize.toNat
  | .label => 8

@[simp] theorem size_fields (f : FieldName) : (L.fields f).size = L.partSize f.part := by
  obtain ⟨id, level, part⟩ := f
  cases part <;> rfl

private theorem toNat_row {id : BitVec 32} (h : id.toNat * L.sizeDataPerElement.toNat < 2 ^ 64) :
    (id.setWidth 64 * L.sizeDataPerElement).toNat = id.toNat * L.sizeDataPerElement.toNat := by
  have hid := id.isLt
  rw [BitVec.toNat_mul, BitVec.toNat_setWidth, Nat.mod_eq_of_lt (a := id.toNat) (by omega),
    Nat.mod_eq_of_lt h]

/-- The numbers of a layout with lists of `m` and `2 m` entries, if none of them wraps around. -/
structure Unwrapped (L : ByteLayout) (m : Nat) : Prop where
  le : m ≤ 10000
  maxM : L.maxM.toNat = m
  maxM0 : L.maxM0.toNat = m * 2
  offsetLevel0 : L.offsetLevel0 = 0
  offsetData : L.offsetData.toNat = m * 8 + 4
  labelOffset : L.labelOffset.toNat = m * 8 + 4 + L.dataSize.toNat
  sizeDataPerElement : L.sizeDataPerElement.toNat = m * 8 + 4 + L.dataSize.toNat + 8
  sizeLinksPerElement : L.sizeLinksPerElement.toNat = m * 4 + 4

/-- The bytes of a record, or of an upper list. -/
def rowSize (L : ByteLayout) (level : Nat) : Nat :=
  if level = 0 then L.sizeDataPerElement.toNat else L.sizeLinksPerElement.toNat

/-- The block has room for all records. -/
def HasRoom (L : ByteLayout) : Prop :=
  ∀ id : BitVec 32, id.toNat < L.maxElements.toNat →
    (id.toNat + 1) * L.sizeDataPerElement.toNat ≤ (L.maxElements * L.sizeDataPerElement).toNat

theorem HasRoom.row_lt (h : L.HasRoom) {id : BitVec 32} (hid : id.toNat < L.maxElements.toNat) :
    id.toNat * L.sizeDataPerElement.toNat < 2 ^ 64 := by
  have hfit := h id hid
  have hblock := (L.maxElements * L.sizeDataPerElement).isLt
  rw [Nat.succ_mul] at hfit
  omega

namespace Unwrapped

variable {m : Nat} {id id' : BitVec 32} {level level' : Nat} {part part' : FieldPart}
  {f g : FieldName} {heap : Heap IndexBlock}

theorem row_level0 (hL : L.Unwrapped m) (h : id.toNat * L.sizeDataPerElement.toNat < 2 ^ 64) :
    L.getLinklistAtLevel id 0 =
      ⟨.dataLevel0Memory, id.toNat * L.sizeDataPerElement.toNat⟩ := by
  simp [getLinklistAtLevel, getLinklist0, recordPointer, hL.offsetLevel0, toNat_row h]

private theorem mul_list_lt (hL : L.Unwrapped m) (hlevel : level < 2 ^ 31) :
    level * L.sizeLinksPerElement.toNat < 2 ^ 63 := by
  have hle := hL.le
  rw [hL.sizeLinksPerElement]
  calc level * (m * 4 + 4) ≤ 2 ^ 31 * 40004 := Nat.mul_le_mul hlevel.le (by omega)
    _ < 2 ^ 63 := by norm_num

theorem toNat_lists (hL : L.Unwrapped m) (hlevel : level < 2 ^ 31) :
    (L.sizeLinksPerElement * BitVec.ofNat 64 level + 1).toNat =
      level * L.sizeLinksPerElement.toNat + 1 := by
  have hlt := hL.mul_list_lt hlevel
  rw [BitVec.toNat_add, BitVec.toNat_mul, BitVec.toNat_ofNat, Nat.mod_eq_of_lt (a := level) (by omega),
    Nat.mul_comm, Nat.mod_eq_of_lt (a := level * _) (by omega),
    show BitVec.toNat (1 : BitVec 64) = 1 from rfl, Nat.mod_eq_of_lt (by omega)]

theorem row_upper (hL : L.Unwrapped m) (hlevel : level + 1 < 2 ^ 31) :
    L.getLinklistAtLevel id (level + 1) =
      ⟨.linkLists id, level * L.sizeLinksPerElement.toNat⟩ := by
  have hlt := hL.mul_list_lt (Nat.lt_of_succ_lt hlevel)
  rw [getLinklistAtLevel, if_neg (Nat.succ_ne_zero level), getLinklist, Nat.add_sub_cancel,
    BitVec.toNat_mul, BitVec.toNat_ofNat, Nat.mod_eq_of_lt (a := level) (by omega),
    Nat.mod_eq_of_lt (by omega)]

theorem rows_apart (hL : L.Unwrapped m) (hroom : L.HasRoom)
    (hid : id.toNat < L.maxElements.toNat) (hid' : id'.toNat < L.maxElements.toNat)
    (hlevel : level < 2 ^ 31) (hlevel' : level' < 2 ^ 31) (hne : id = id' → level ≠ level') :
    (L.getLinklistAtLevel id level).block ≠ (L.getLinklistAtLevel id' level').block ∨
      (L.getLinklistAtLevel id level).offset + L.rowSize level ≤
        (L.getLinklistAtLevel id' level').offset ∨
      (L.getLinklistAtLevel id' level').offset + L.rowSize level' ≤
        (L.getLinklistAtLevel id level).offset := by
  cases level with
  | zero =>
    rw [hL.row_level0 (hroom.row_lt hid)]
    cases level' with
    | zero =>
      rw [hL.row_level0 (hroom.row_lt hid')]
      exact .inr (Framework.rows_apart (fun h => hne (BitVec.eq_of_toNat_eq h) rfl) _)
    | succ l' =>
      rw [hL.row_upper hlevel']
      exact .inl (by simp)
  | succ l =>
    rw [hL.row_upper hlevel]
    cases level' with
    | zero =>
      rw [hL.row_level0 (hroom.row_lt hid')]
      exact .inl (by simp)
    | succ l' =>
      rw [hL.row_upper hlevel']
      by_cases h : id = id'
      · have hl : l ≠ l' := fun hl => hne h (hl ▸ rfl)
        exact .inr (Framework.rows_apart hl _)
      · exact .inl (by simp [h])

theorem row_inside (hL : L.Unwrapped m) (hroom : L.HasRoom) (hheap : L.Allocated elementLevels heap)
    (hid : id.toNat < L.maxElements.toNat) (hlevel : level ≤ elementLevels id) :
    (L.getLinklistAtLevel id level).offset + L.rowSize level ≤
      (heap (L.getLinklistAtLevel id level).block).length := by
  cases level with
  | zero =>
    have hfit := hroom id hid
    rw [Nat.succ_mul] at hfit
    rw [hL.row_level0 (hroom.row_lt hid), hheap.level0]
    exact hfit
  | succ l =>
    have hlt := hheap.level_lt id
    have hrows := Nat.mul_le_mul_right L.sizeLinksPerElement.toNat hlevel
    rw [Nat.succ_mul] at hrows
    rw [hL.row_upper (hlevel.trans_lt hlt), hheap.upper id hid (by omega), hL.toNat_lists hlt, rowSize,
      if_neg (Nat.succ_ne_zero l)]
    dsimp only
    omega

theorem place_fields (hL : L.Unwrapped m) (hf : L.Legal elementLevels f) :
    (L.fields f).place = ⟨(L.getLinklistAtLevel f.internalId f.level).block,
      (L.getLinklistAtLevel f.internalId f.level).offset + L.partOffset f.part⟩ := by
  obtain ⟨id, level, part⟩ := f
  have hpart := hf.2.2
  cases part with
  | listCount => rfl
  | link idx =>
    simp [fields, field, ByteField.plain, linkPointer, partOffset, Nat.add_assoc]
  | deleteMark =>
    obtain rfl : level = 0 := hpart
    rfl
  | vector =>
    obtain rfl : level = 0 := hpart
    simp [fields, field, ByteField.plain, getDataByInternalId, getLinklistAtLevel, getLinklist0,
      recordPointer, partOffset, hL.offsetLevel0]
  | label =>
    obtain rfl : level = 0 := hpart
    simp [fields, field, ByteField.plain, getExternalLabeLp, getLinklistAtLevel, getLinklist0,
      recordPointer, partOffset, hL.offsetLevel0]

theorem end_le_row (hL : L.Unwrapped m) (hf : L.Legal elementLevels f) :
    L.partOffset f.part + L.partSize f.part ≤ L.rowSize f.level := by
  obtain ⟨id, level, part⟩ := f
  have hpart := hf.2.2
  have hrecord := hL.sizeDataPerElement
  have hlist := hL.sizeLinksPerElement
  have hdata := hL.offsetData
  have hlabel := hL.labelOffset
  have hM := hL.maxM
  have hM0 := hL.maxM0
  cases part with
  | listCount =>
    simp only [partOffset, partSize, rowSize]
    split <;> omega
  | link idx =>
    simp only at hpart
    simp only [partOffset, partSize, rowSize]
    split at hpart
    · next h =>
      rw [if_pos h]
      omega
    · next h =>
      rw [if_neg h]
      omega
  | _ =>
    simp only [partOffset, partSize, rowSize]
    rw [if_pos hpart]
    omega

theorem link_lt (hL : L.Unwrapped m) {idx : Nat}
    (hf : L.Legal elementLevels ⟨id, level, .link idx⟩) : idx < m * 2 := by
  have hidx : idx < if level = 0 then L.maxM0.toNat else L.maxM.toNat := hf.2.2
  rw [hL.maxM0, hL.maxM] at hidx
  split at hidx <;> omega

private theorem parts_apart (hL : L.Unwrapped m) (hf : L.Legal elementLevels ⟨id, level, part⟩)
    (hf' : L.Legal elementLevels ⟨id, level, part'⟩) (hne : part ≠ part') :
    L.partOffset part + L.partSize part ≤ L.partOffset part' ∨
      L.partOffset part' + L.partSize part' ≤ L.partOffset part := by
  have hdata := hL.offsetData
  have hlabel := hL.labelOffset
  cases part with
  | link idx =>
    have hidx := hL.link_lt hf
    cases part' with
    | link idx' =>
      have : idx ≠ idx' := fun h => hne (h ▸ rfl)
      simp only [partOffset, partSize]
      omega
    | _ =>
      simp only [partOffset, partSize]
      omega
  | _ =>
    cases part' with
    | link idx =>
      have hidx := hL.link_lt hf'
      simp only [partOffset, partSize]
      omega
    | _ =>
      first
      | exact absurd rfl hne
      | simp only [partOffset, partSize]
        omega

/-- Fields of different elements, of different levels and of different parts are apart. -/
theorem fields_apart (hL : L.Unwrapped m) (hroom : L.HasRoom)
    (hlevels : ∀ id, elementLevels id < 2 ^ 31) (hf : L.Legal elementLevels f)
    (hg : L.Legal elementLevels g) (hne : f ≠ g) : (L.fields f).Apart (L.fields g) := by
  rw [ByteField.Apart, size_fields, size_fields, hL.place_fields hf, hL.place_fields hg]
  have hf_end := hL.end_le_row hf
  have hg_end := hL.end_le_row hg
  by_cases hrow : f.internalId = g.internalId ∧ f.level = g.level
  · obtain ⟨id, level, part⟩ := f
    obtain ⟨id', level', part'⟩ := g
    obtain ⟨rfl, rfl⟩ : id = id' ∧ level = level' := hrow
    have hparts := hL.parts_apart hf hg fun h => hne (h ▸ rfl)
    dsimp only
    omega
  · rcases hL.rows_apart hroom hf.1 hg.1 (hf.2.1.trans_lt (hlevels _)) (hg.2.1.trans_lt (hlevels _))
      (fun hid hlevel => hrow ⟨hid, hlevel⟩) with hblock | hbefore | hafter
    · exact .inl hblock
    · dsimp only
      omega
    · dsimp only
      omega

private theorem fields_inside (hL : L.Unwrapped m) (hroom : L.HasRoom)
    (hheap : L.Allocated elementLevels heap) (hf : L.Legal elementLevels f) :
    (L.fields f).Inside heap := by
  have hrow := hL.row_inside hroom hheap hf.1 hf.2.1
  have hend := hL.end_le_row hf
  rw [ByteField.Inside, size_fields, hL.place_fields hf]
  dsimp only
  omega

end Unwrapped

section Construct

variable (maxElements M dataSize : BitVec 64)

/-- `M_` -/
def listLimit (M : BitVec 64) : Nat := min M.toNat 10000

def recordSize (M dataSize : BitVec 64) : Nat := listLimit M * 8 + 4 + dataSize.toNat + 8

private theorem maxM_construct : (construct maxElements M dataSize).maxM.toNat = listLimit M := by
  by_cases h : M ≤ 10000
  · have hle : M.toNat ≤ 10000 := BitVec.le_def.mp h
    simp only [construct, h, if_true, listLimit, Nat.min_eq_left hle]
  · have hle : ¬ M.toNat ≤ 10000 := fun hle => h (BitVec.le_def.mpr hle)
    simp only [construct, h, if_false, listLimit, Nat.min_eq_right (Nat.le_of_not_le hle)]
    rfl

private theorem sizeLinksLevel0_construct :
    (construct maxElements M dataSize).sizeLinksLevel0.toNat = listLimit M * 8 + 4 := by
  have hM := maxM_construct maxElements M dataSize
  have hle : listLimit M ≤ 10000 := Nat.min_le_right _ _
  change ((construct maxElements M dataSize).maxM * 2#64 * 4#64 + 4#64).toNat = _
  simp only [BitVec.toNat_add, BitVec.toNat_mul, hM, BitVec.toNat_ofNat]
  omega

private theorem labelOffset_construct : (construct maxElements M dataSize).labelOffset.toNat =
    (listLimit M * 8 + 4 + dataSize.toNat) % 2 ^ 64 := by
  rw [← sizeLinksLevel0_construct maxElements M dataSize, ← BitVec.toNat_add]
  rfl

private theorem sizeDataPerElement_construct :
    (construct maxElements M dataSize).sizeDataPerElement.toNat = recordSize M dataSize % 2 ^ 64 := by
  change ((construct maxElements M dataSize).labelOffset + 8).toNat = _
  rw [BitVec.toNat_add, labelOffset_construct, recordSize]
  exact Nat.mod_add_mod _ _ _

private theorem blockSize_construct :
    ((construct maxElements M dataSize).maxElements *
      (construct maxElements M dataSize).sizeDataPerElement).toNat =
      maxElements.toNat * recordSize M dataSize % 2 ^ 64 := by
  rw [BitVec.toNat_mul, sizeDataPerElement_construct, Nat.mul_mod_mod]
  rfl

private theorem unwrapped_construct (h : recordSize M dataSize < 2 ^ 64) :
    (construct maxElements M dataSize).Unwrapped (listLimit M) := by
  have hM := maxM_construct maxElements M dataSize
  have hle : listLimit M ≤ 10000 := Nat.min_le_right _ _
  have hsize := sizeDataPerElement_construct maxElements M dataSize
  have hlabel := labelOffset_construct maxElements M dataSize
  rw [Nat.mod_eq_of_lt h] at hsize
  rw [recordSize] at h
  rw [Nat.mod_eq_of_lt (by omega)] at hlabel
  refine ⟨hle, hM, ?_, rfl, sizeLinksLevel0_construct maxElements M dataSize, hlabel, hsize, ?_⟩
  · change ((construct maxElements M dataSize).maxM * 2#64).toNat = _
    simp only [BitVec.toNat_mul, hM, BitVec.toNat_ofNat]
    omega
  · change ((construct maxElements M dataSize).maxM * 4#64 + 4#64).toNat = _
    simp only [BitVec.toNat_add, BitVec.toNat_mul, hM, BitVec.toNat_ofNat]
    omega

end Construct

theorem Unwrapped.valid_of_legalValue {m : Nat} (hL : L.Unwrapped m) {f : FieldName}
    {v : f.part.Val} (hv : L.LegalValue f.part v) : (L.fields f).Valid v := by
  obtain ⟨id, level, part⟩ := f
  cases part with
  | listCount =>
    have hle : (v : Nat) ≤ L.maxM0.toNat := hv
    have hm := hL.le
    rw [hL.maxM0] at hle
    exact hle.trans_lt (show m * 2 < 256 ^ 2 by omega)
  | vector => exact hv
  | _ => trivial

private theorem Unwrapped.independentFields {m : Nat} (hL : L.Unwrapped m) (hroom : L.HasRoom)
    {heap : Heap IndexBlock} (hheap : L.Allocated elementLevels heap) :
    L.IndependentFields elementLevels heap := by
  intro ws hws
  have hinside : ∀ f, L.Legal elementLevels f → (L.fields f).Inside heap := fun f hf =>
    hL.fields_inside hroom hheap hf
  have hvalid : ∀ w ∈ ws, L.Legal elementLevels w.1 ∧ (L.fields w.1).Valid w.2 := fun w hw =>
    ⟨(hws w hw).1, hL.valid_of_legalValue (hws w hw).2⟩
  have hbefore : ∀ f, L.Legal elementLevels f → (L.fields f).read heap = L.read f heap := fun f _ =>
    (read_eq f heap).symm
  obtain ⟨heap', hrun, hlen, hread⟩ := runWrites_spec hinside
    (fun f g hf hg hne => hL.fields_apart hroom hheap.level_lt hf hg hne) hbefore hvalid
  refine ⟨heap', ?_, fun f hf => ?_⟩
  · rw [run_eq fun w hw => (hvalid w hw).2, hrun]
  · have hload : (L.fields f).Inside heap' := by
      rw [ByteField.Inside, hlen]
      exact hinside f hf
    rw [read_eq]
    refine ⟨?_, hread f hf⟩
    rw [ByteField.read, Heap.load_of_le hload]
    rfl

section Construct

variable {maxElements M dataSize : BitVec 64}

/-- An allocation for elements without upper levels. -/
def flatHeap (L : ByteLayout) : Heap IndexBlock
  | .dataLevel0Memory => List.replicate (L.maxElements * L.sizeDataPerElement).toNat 0
  | .linkLists _ => []

private theorem allocated_flatHeap (L : ByteLayout) : L.Allocated (fun _ => 0) L.flatHeap where
  level_lt _ := by norm_num
  level0 := List.length_replicate
  upper _ _ h := absurd h (lt_irrefl 0)

theorem IndependentFields.inside (h : L.IndependentFields (fun _ => 0) L.flatHeap) {f : FieldName}
    (hf : L.Legal (fun _ => 0) f) {v : f.part.Val} (hv : L.LegalValue f.part v)
    {p : Pointer IndexBlock} (hp : p.block = .dataLevel0Memory) {bytes : List Byte}
    (hwrite : L.write f v L.flatHeap = L.flatHeap.store p bytes) :
    p.offset + bytes.length ≤ (L.maxElements * L.sizeDataPerElement).toNat := by
  obtain ⟨heap', hrun, -⟩ := h [⟨f, v⟩] (by simpa using ⟨hf, hv⟩)
  rw [run, hwrite] at hrun
  obtain ⟨heap₁, hstore, -⟩ := Option.bind_eq_some_iff.mp hrun
  have hle := (Heap.store_eq_some hstore).1
  rwa [hp, flatHeap, List.length_replicate] at hle

private theorem IndependentFields.label_inside (h : L.IndependentFields (fun _ => 0) L.flatHeap)
    (id : BitVec 32) (hid : id.toNat < L.maxElements.toNat) :
    (id.setWidth 64 * L.sizeDataPerElement).toNat + L.labelOffset.toNat + 8 ≤
      (L.maxElements * L.sizeDataPerElement).toNat := by
  have hwrite : L.write ⟨id, 0, .label⟩ 0 L.flatHeap =
      L.flatHeap.store (L.getExternalLabeLp id) (leBytes 8 0) := rfl
  have hle := h.inside (f := ⟨id, 0, .label⟩) (v := 0) ⟨hid, le_rfl, rfl⟩ trivial rfl hwrite
  rwa [length_leBytes] at hle

private theorem IndependentFields.vector_inside (h : L.IndependentFields (fun _ => 0) L.flatHeap)
    (id : BitVec 32) (hid : id.toNat < L.maxElements.toNat) :
    (id.setWidth 64 * L.sizeDataPerElement).toNat + L.offsetData.toNat + L.dataSize.toNat ≤
      (L.maxElements * L.sizeDataPerElement).toNat := by
  have hwrite : L.write ⟨id, 0, .vector⟩ (List.replicate L.dataSize.toNat 0) L.flatHeap =
      L.flatHeap.store (L.getDataByInternalId id) (List.replicate L.dataSize.toNat 0) := rfl
  have hle := h.inside (f := ⟨id, 0, .vector⟩) (v := List.replicate L.dataSize.toNat 0)
    ⟨hid, le_rfl, rfl⟩ List.length_replicate rfl hwrite
  rwa [List.length_replicate] at hle

private theorem IndependentFields.record_inside (h : L.IndependentFields (fun _ => 0) L.flatHeap) {m : Nat}
    (hL : L.Unwrapped m) (id : BitVec 32) (hid : id.toNat < L.maxElements.toNat)
    (hrow : id.toNat * L.sizeDataPerElement.toNat < 2 ^ 64) :
    (id.toNat + 1) * L.sizeDataPerElement.toNat ≤ (L.maxElements * L.sizeDataPerElement).toNat := by
  have hlabel := h.label_inside id hid
  have hlast : L.labelOffset.toNat + 8 = L.sizeDataPerElement.toNat := by
    rw [hL.labelOffset, hL.sizeDataPerElement]
  rw [toNat_row hrow] at hlabel
  rw [Nat.succ_mul]
  omega

private theorem recordSize_lt (h : (construct maxElements M dataSize).IndependentFields (fun _ => 0)
      (construct maxElements M dataSize).flatHeap) (hpos : 0 < maxElements.toNat) :
    recordSize M dataSize < 2 ^ 64 := by
  have hvector := h.vector_inside 0 hpos
  have hlabel := h.label_inside 0 hpos
  have hdata : (construct maxElements M dataSize).offsetData.toNat = listLimit M * 8 + 4 :=
    sizeLinksLevel0_construct maxElements M dataSize
  have hsize : (construct maxElements M dataSize).dataSize = dataSize := rfl
  have hblock := ((construct maxElements M dataSize).maxElements *
    (construct maxElements M dataSize).sizeDataPerElement).isLt
  rw [hdata, hsize] at hvector
  rw [labelOffset_construct, Nat.mod_eq_of_lt (by omega)] at hlabel
  rw [recordSize]
  omega

private theorem block_of_independentFields
    (h : (construct maxElements M dataSize).IndependentFields (fun _ => 0)
      (construct maxElements M dataSize).flatHeap) :
    min maxElements.toNat (2 ^ 32) * recordSize M dataSize ≤
      maxElements.toNat * recordSize M dataSize % 2 ^ 64 := by
  have hblock := blockSize_construct maxElements M dataSize
  have hsize := sizeDataPerElement_construct maxElements M dataSize
  have hlt := Nat.mod_lt (maxElements.toNat * recordSize M dataSize) (Nat.two_pow_pos 64)
  generalize maxElements.toNat * recordSize M dataSize % 2 ^ 64 = B at hblock hlt ⊢
  by_contra hgt
  have hpos : 0 < maxElements.toNat := by
    by_contra hzero
    simp [Nat.eq_zero_of_not_pos hzero] at hgt
  have hrecord := recordSize_lt h hpos
  rw [Nat.mod_eq_of_lt hrecord] at hsize
  -- the record in which the block ends
  have hk : B / recordSize M dataSize < min maxElements.toNat (2 ^ 32) :=
    (Nat.div_lt_iff_lt_mul (Nat.succ_pos _)).mpr (Nat.lt_of_not_le hgt)
  have hid : (BitVec.ofNat 32 (B / recordSize M dataSize)).toNat = B / recordSize M dataSize := by
    rw [BitVec.toNat_ofNat, Nat.mod_eq_of_lt (hk.trans_le (Nat.min_le_right _ _))]
  have hend := h.record_inside (unwrapped_construct maxElements M dataSize hrecord)
    (BitVec.ofNat 32 (B / recordSize M dataSize))
    (by rw [hid]; exact hk.trans_le (Nat.min_le_left _ _))
    (by rw [hid, hsize]; exact (Nat.div_mul_le_self _ _).trans_lt hlt)
  rw [hid, hsize, hblock, Nat.mul_comm] at hend
  exact absurd (Nat.lt_mul_div_succ B (Nat.succ_pos _)) (Nat.not_lt.mpr hend)

private theorem hasRoom_construct (hrecord : recordSize M dataSize < 2 ^ 64)
    (hfits : min maxElements.toNat (2 ^ 32) * recordSize M dataSize ≤
      maxElements.toNat * recordSize M dataSize % 2 ^ 64) :
    (construct maxElements M dataSize).HasRoom := by
  intro id hid
  rw [blockSize_construct, sizeDataPerElement_construct, Nat.mod_eq_of_lt hrecord]
  exact (Nat.mul_le_mul_right _ (Nat.le_min.mpr ⟨hid, id.isLt⟩)).trans hfits

private theorem independentFields_of_block (hfits : min maxElements.toNat (2 ^ 32) * recordSize M dataSize ≤
      maxElements.toNat * recordSize M dataSize % 2 ^ 64) {heap : Heap IndexBlock}
    (hheap : (construct maxElements M dataSize).Allocated elementLevels heap) :
    (construct maxElements M dataSize).IndependentFields elementLevels heap := by
  rcases Nat.eq_zero_or_pos maxElements.toNat with hzero | hpos
  · -- no element has a field
    have hnone : ∀ f, ¬ (construct maxElements M dataSize).Legal elementLevels f := fun f hf =>
      absurd hf.1 (hzero ▸ Nat.not_lt_zero _)
    intro ws hws
    cases ws with
    | nil => exact ⟨heap, rfl, fun f hf => absurd hf (hnone f)⟩
    | cons w ws => exact absurd (hws w List.mem_cons_self).1 (hnone w.1)
  · have hlt := Nat.mod_lt (maxElements.toNat * recordSize M dataSize) (Nat.two_pow_pos 64)
    have hone : 1 * recordSize M dataSize ≤
        min maxElements.toNat (2 ^ 32) * recordSize M dataSize :=
      Nat.mul_le_mul_right _ (Nat.le_min.mpr ⟨hpos, by norm_num⟩)
    have hrecord : recordSize M dataSize < 2 ^ 64 := by omega
    exact (unwrapped_construct maxElements M dataSize hrecord).independentFields
      (hasRoom_construct hrecord hfits) hheap

/-- The accessors implement independent fields in every state exactly if all elements that can have
an id fit into the block whose size was computed. -/
theorem independentFields_iff (maxElements M dataSize : BitVec 64) :
    (∀ elementLevels heap, (construct maxElements M dataSize).Allocated elementLevels heap →
      (construct maxElements M dataSize).IndependentFields elementLevels heap) ↔
    min maxElements.toNat (2 ^ 32) * recordSize M dataSize ≤
      maxElements.toNat * recordSize M dataSize % 2 ^ 64 := by
  constructor
  · intro h
    exact block_of_independentFields (h _ _ (allocated_flatHeap _))
  · intro hfits elementLevels heap hheap
    exact independentFields_of_block hfits hheap

/-- A thousand records of 652 bytes. -/
theorem independentFields_thousand :
    1000 * recordSize 16 512 < 2 ^ 64 ∧
      (construct 1000 16 512).IndependentFields (fun _ => 0) (construct 1000 16 512).flatHeap :=
  ⟨by decide, (independentFields_iff 1000 16 512).mpr (by decide) _ _ (allocated_flatHeap _)⟩

/-- `M = 16` and room for 16 records of `2 ^ 60` bytes: the size of the block is zero, and the count
of the first element is already outside. -/
theorem setListCount_outside :
    ((construct 16 16 1152921504606846836).maxElements *
      (construct 16 16 1152921504606846836).sizeDataPerElement).toNat = 0 ∧
    (construct 16 16 1152921504606846836).Allocated (fun _ => 0)
      (construct 16 16 1152921504606846836).flatHeap ∧
    (construct 16 16 1152921504606846836).Legal (fun _ => 0) ⟨0, 0, .listCount⟩ ∧
    (construct 16 16 1152921504606846836).run [⟨⟨0, 0, .listCount⟩, (3 : Nat)⟩]
      (construct 16 16 1152921504606846836).flatHeap = none := by
  exact ⟨by decide, allocated_flatHeap _, ⟨by decide, le_rfl, trivial⟩, by decide⟩

end Construct

end ByteLayout

end HnswRvv
