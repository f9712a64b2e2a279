import HnswRvv.Index.ByteLayout
import HnswRvv.Index.RoundTrip

/-!
# The index in memory

The state of an index stands for the bytes of its blocks: the records of its elements and their
upper lists, in the form in which they are saved. The accessors on these bytes read what the state
holds, and every sequence of writes through them is one to the state.
-/

namespace HnswRvv

open Framework
set_option linter.unusedSectionVars false

private theorem leBytes_word (w : BitVec 32) : leBytes 4 w.toNat =
    [w.extractLsb' 0 8, w.extractLsb' 8 8, w.extractLsb' 16 8, w.extractLsb' 24 8] := by
  simp only [leBytes, BitVec.extractLsb', Nat.div_div_eq_div_mul, Nat.shiftRight_eq_div_pow]
  norm_num

private theorem leBytes_half (size : Nat) : leBytes 2 size =
    [(BitVec.ofNat 16 size).extractLsb' 0 8, (BitVec.ofNat 16 size).extractLsb' 8 8] := by
  simp only [leBytes, List.cons.injEq, and_true]
  constructor
  · apply BitVec.eq_of_toNat_eq
    simp
  · apply BitVec.eq_of_toNat_eq
    simp [Nat.shiftRight_eq_div_pow]
    omega

private theorem ofNat_leValue_leBytes {w n : Nat} (h : 256 ^ n = 2 ^ w) (x : Nat) :
    BitVec.ofNat w (leValue (leBytes n x)) = BitVec.ofNat w x := by
  rw [leValue_leBytes_mod, h]
  exact BitVec.eq_of_toNat_eq (by simp)

private theorem extract_count (w : BitVec 32) (h : BitVec 16) :
    (w &&& 0xFFFF0000#32 ||| h.setWidth 32).extractLsb' 0 8 = h.extractLsb' 0 8 ∧
    (w &&& 0xFFFF0000#32 ||| h.setWidth 32).extractLsb' 8 8 = h.extractLsb' 8 8 ∧
    (w &&& 0xFFFF0000#32 ||| h.setWidth 32).extractLsb' 16 8 = w.extractLsb' 16 8 ∧
    (w &&& 0xFFFF0000#32 ||| h.setWidth 32).extractLsb' 24 8 = w.extractLsb' 24 8 := by
  refine ⟨?_, ?_, ?_, ?_⟩
  all_goals
    ext i hi
    interval_cases i <;> simp

private theorem extract_setMark (w : BitVec 32) :
    (w ||| 0x00010000#32).extractLsb' 0 8 = w.extractLsb' 0 8 ∧
    (w ||| 0x00010000#32).extractLsb' 8 8 = w.extractLsb' 8 8 ∧
    (w ||| 0x00010000#32).extractLsb' 16 8 = w.extractLsb' 16 8 ||| 1 ∧
    (w ||| 0x00010000#32).extractLsb' 24 8 = w.extractLsb' 24 8 := by
  refine ⟨?_, ?_, ?_, ?_⟩
  all_goals
    ext i hi
    interval_cases i <;> simp

private theorem extract_clearMark (w : BitVec 32) :
    (w &&& ~~~0x00010000#32).extractLsb' 0 8 = w.extractLsb' 0 8 ∧
    (w &&& ~~~0x00010000#32).extractLsb' 8 8 = w.extractLsb' 8 8 ∧
    (w &&& ~~~0x00010000#32).extractLsb' 16 8 = w.extractLsb' 16 8 &&& ~~~1 ∧
    (w &&& ~~~0x00010000#32).extractLsb' 24 8 = w.extractLsb' 24 8 := by
  refine ⟨?_, ?_, ?_, ?_⟩
  all_goals
    ext i hi
    interval_cases i <;> simp

namespace LinkList

variable {n : Nat}

private theorem bytes_eq (n : Nat) (ll : LinkList) : ll.bytes n =
    ll.word.extractLsb' 0 8 :: ll.word.extractLsb' 8 8 :: ll.word.extractLsb' 16 8 ::
      ll.word.extractLsb' 24 8 :: (ll.data.slice n).flatMap (leBytes 4) := by
  rw [bytes, leBytes_word]
  rfl

private theorem leValue_count (ll : LinkList) : leValue (fieldAt (ll.bytes n) 0 2) = ll.getListCount := by
  rw [bytes_eq, getListCount]
  simp only [fieldAt, List.drop_zero, List.take_succ_cons, List.take_zero, leValue,
    BitVec.extractLsb'_toNat, BitVec.toNat_setWidth, Nat.shiftRight_eq_div_pow]
  omega

private theorem mark_bytes (ll : LinkList) :
    ((fieldAt (ll.bytes n) 2 1).headD 0 &&& 1 != 0) = ll.isMarked := by
  have hbit : ∀ b : Byte, (b &&& 1 != 0) = b.getLsbD 0 := by decide
  rw [bytes_eq, hbit, isMarked]
  simp [fieldAt]

private theorem splice_setListCount (ll : LinkList) (size : Nat) :
    splice (ll.bytes n) 0 (leBytes 2 size) = (ll.setListCount size).bytes n := by
  obtain ⟨h0, h1, h2, h3⟩ := extract_count ll.word (BitVec.ofNat 16 size)
  rw [bytes_eq, bytes_eq, leBytes_half, setListCount, h0, h1, h2, h3]
  rfl

private theorem splice_setMark (ll : LinkList) :
    splice (ll.bytes n) 2 [(fieldAt (ll.bytes n) 2 1).headD 0 ||| 1] = ll.setMark.bytes n := by
  obtain ⟨h0, h1, h2, h3⟩ := extract_setMark ll.word
  rw [bytes_eq, bytes_eq, setMark, h0, h1, h2, h3]
  rfl

private theorem splice_clearMark (ll : LinkList) :
    splice (ll.bytes n) 2 [(fieldAt (ll.bytes n) 2 1).headD 0 &&& ~~~1] = ll.clearMark.bytes n := by
  obtain ⟨h0, h1, h2, h3⟩ := extract_clearMark ll.word
  rw [bytes_eq, bytes_eq, clearMark, h0, h1, h2, h3]
  rfl

private theorem splice_entry (ll : LinkList) {idx : Nat} (h : idx < n) (id : TableInt) :
    splice (ll.bytes n) (4 + idx * 4) (leBytes 4 id) = (ll.writeEntries idx [id]).bytes n := by
  have hidx : idx < (ll.data.slice n).length := by rwa [Memory.length_slice]
  rw [bytes, bytes, splice_append_right (length_leBytes 4 _), splice_records (length_leBytes 4) hidx,
    writeEntries, writeEntries, Memory.slice_write]

end LinkList

namespace Index

variable {V : Type} [Inhabited V] {dataSize : Nat} {C : VectorBytes V dataSize} {L : ByteLayout}
  {s : Index V} {heap : Heap IndexBlock} {f : FieldName}

/-- The value that the state has for a field. -/
def fieldValue (C : VectorBytes V dataSize) (s : Index V) : (f : FieldName) → f.part.Val
  | ⟨id, level, .listCount⟩ => (s.getLinklistAtLevel id.toNat level).getListCount
  | ⟨id, level, .link idx⟩ =>
    BitVec.ofNat 32 ((s.getLinklistAtLevel id.toNat level).data.read idx)
  | ⟨id, _, .deleteMark⟩ => s.isMarkedDeleted id.toNat
  | ⟨id, _, .vector⟩ => C.encode (s.getDataByInternalId id.toNat)
  | ⟨id, _, .label⟩ => BitVec.ofNat 64 (s.getExternalLabel id.toNat)

/-- The state after a write to a field. -/
def assign (C : VectorBytes V dataSize) (s : Index V) (f : FieldName) (v : f.part.Val) : Index V :=
  match f, v with
  | ⟨id, level, .listCount⟩, size => s.setLinklistAtLevel id.toNat level
      ((s.getLinklistAtLevel id.toNat level).setListCount size)
  | ⟨id, level, .link idx⟩, v => s.setLinklistAtLevel id.toNat level
      ((s.getLinklistAtLevel id.toNat level).writeEntries idx [BitVec.toNat v])
  | ⟨id, _, .deleteMark⟩, mark => s.setLinklistAtLevel id.toNat 0
      (if mark then (s.getLinklistAtLevel id.toNat 0).setMark
        else (s.getLinklistAtLevel id.toNat 0).clearMark)
  | ⟨id, _, .vector⟩, dataPoint => s.setData id.toNat (C.decode dataPoint)
  | ⟨id, _, .label⟩, label => s.setExternalLabel id.toNat (BitVec.toNat label)

/-- What stands behind the list of a record. -/
def rowTail (C : VectorBytes V dataSize) (s : Index V) (i : TableInt) (level : Nat) : List Byte :=
  if level = 0 then C.encode (s.getDataByInternalId i) ++ leBytes 8 (s.getExternalLabel i) else []

/-- The record of an element, or one of its upper lists. -/
def rowBytes (C : VectorBytes V dataSize) (s : Index V) (i : TableInt) (level : Nat) : List Byte :=
  (s.getLinklistAtLevel i level).bytes (s.maxLinks level) ++ s.rowTail C i level

/-- The levels of the elements; a record that is not in use has no upper lists. -/
def levels (s : Index V) (id : BitVec 32) : Nat :=
  if id.toNat < s.curElementCount then s.level id.toNat else 0

/-- The numbers of a layout are those of the index, and its block has room for the records. -/
structure HasLayout (s : Index V) (dataSize : Nat) (L : ByteLayout) : Prop where
  unwrapped : L.Unwrapped s.maxM
  maxM0 : s.maxM0 = s.maxM * 2
  links : s.layout.sizeLinksPerElement = s.maxM * 4 + 4
  dataSize : L.dataSize.toNat = dataSize
  room : L.HasRoom
  count_le : s.curElementCount ≤ L.maxElements.toNat
  ids : s.curElementCount ≤ 2 ^ 32

/-- The blocks hold the records and the upper lists of the elements. -/
structure Image (C : VectorBytes V dataSize) (L : ByteLayout) (s : Index V) (heap : Heap IndexBlock) :
    Prop where
  layout : s.HasLayout dataSize L
  allocated : L.Allocated s.levels heap
  rows : ∀ id : BitVec 32, id.toNat < s.curElementCount → ∀ level ≤ s.level id.toNat,
    heap.load (L.getLinklistAtLevel id level) (L.rowSize level) = some (s.rowBytes C id.toNat level)

structure HasField (L : ByteLayout) (s : Index V) (f : FieldName) : Prop where
  lt : f.internalId.toNat < s.curElementCount
  legal : L.Legal s.levels f

private theorem HasField.level_le (h : s.HasField L f) : f.level ≤ s.level f.internalId.toNat := by
  have hle := h.legal.2.1
  rwa [levels, if_pos h.lt] at hle

theorem HasLayout.maxLinks (h : s.HasLayout dataSize L) (level : Nat) :
    s.maxLinks level = if level = 0 then L.maxM0.toNat else L.maxM.toNat := by
  rw [Index.maxLinks, h.unwrapped.maxM0, h.unwrapped.maxM, h.maxM0]

theorem HasLayout.link_lt (h : s.HasLayout dataSize L) {id : BitVec 32} {level idx : Nat}
    (hf : s.HasField L ⟨id, level, .link idx⟩) : idx < s.maxLinks level := by
  rw [h.maxLinks]
  exact hf.legal.2.2

theorem HasLayout.offsetData (h : s.HasLayout dataSize L) (ll : LinkList) :
    (ll.bytes (s.maxLinks 0)).length = L.offsetData.toNat := by
  rw [LinkList.length_bytes, h.maxLinks, if_pos rfl, h.unwrapped.maxM0, h.unwrapped.offsetData]
  omega

theorem HasLayout.labelOffset (h : s.HasLayout dataSize L) :
    L.labelOffset.toNat = L.offsetData.toNat + dataSize := by
  rw [h.unwrapped.labelOffset, h.unwrapped.offsetData, h.dataSize]

theorem Image.level_lt (h : s.Image C L heap) {id : BitVec 32} (hid : id.toNat < s.curElementCount)
    {level : Nat} (hlevel : level ≤ s.level id.toNat) : level < 2 ^ 31 := by
  have hlt := h.allocated.level_lt id
  rw [levels, if_pos hid] at hlt
  exact hlevel.trans_lt hlt

section Read

variable {id : BitVec 32} {level : Nat}

private theorem fieldAt_rowBytes {offset n : Nat} (h : offset + n ≤ s.maxLinks level * 4 + 4) (i : TableInt) :
    fieldAt (s.rowBytes C i level) offset n =
      fieldAt ((s.getLinklistAtLevel i level).bytes (s.maxLinks level)) offset n :=
  fieldAt_append_left (by rwa [LinkList.length_bytes]) _

private theorem get_rowBytes (h : s.HasLayout dataSize L) (hf : s.HasField L f) :
    (L.fields f).get (fieldAt (s.rowBytes C f.internalId.toNat f.level) (L.partOffset f.part)
      (L.partSize f.part)) = s.fieldValue C f := by
  obtain ⟨id, level, part⟩ := f
  have hpart := hf.legal.2.2
  cases part with
  | listCount =>
    change leValue (fieldAt (s.rowBytes C id.toNat level) 0 2) = _
    rw [fieldAt_rowBytes (by omega), LinkList.leValue_count]
    rfl
  | link idx =>
    have hidx := h.link_lt hf
    change BitVec.ofNat 32 (leValue (fieldAt (s.rowBytes C id.toNat level) (4 + idx * 4) 4)) = _
    rw [fieldAt_rowBytes (by omega), LinkList.fieldAt_entry _ hidx, ofNat_leValue_leBytes (by norm_num)]
    rfl
  | deleteMark =>
    obtain rfl : level = 0 := hpart
    change ((fieldAt (s.rowBytes C id.toNat 0) 2 1).headD 0 &&& 1 != 0) = _
    rw [fieldAt_rowBytes (by omega), LinkList.mark_bytes]
    rfl
  | vector =>
    obtain rfl : level = 0 := hpart
    change fieldAt (s.rowBytes C id.toNat 0) L.offsetData.toNat L.dataSize.toNat = _
    rw [rowBytes, rowTail, if_pos rfl]
    exact fieldAt_append _ (h.offsetData _) ((C.length_encode _).trans h.dataSize.symm)
  | label =>
    obtain rfl : level = 0 := hpart
    change BitVec.ofNat 64 (leValue (fieldAt (s.rowBytes C id.toNat 0) L.labelOffset.toNat 8)) = _
    rw [rowBytes, rowTail, if_pos rfl, ← List.append_assoc,
      ← List.append_nil (_ ++ leBytes 8 _), List.append_assoc,
      fieldAt_append _ (by rw [List.length_append, h.offsetData, C.length_encode, h.labelOffset])
        (length_leBytes 8 _), ofNat_leValue_leBytes (by norm_num)]
    rfl

theorem Image.read (h : s.Image C L heap) (hf : s.HasField L f) :
    L.read f heap = some (s.fieldValue C f) := by
  have hL := h.layout.unwrapped
  rw [ByteLayout.read_eq, ByteField.read_within (h.rows _ hf.lt _ hf.level_le)
    (hL.place_fields hf.legal) (by rw [ByteLayout.size_fields]; exact hL.end_le_row hf.legal),
    ByteLayout.size_fields, get_rowBytes h.layout hf]

end Read

section Write

variable {v : f.part.Val}

private theorem assign_fields (C : VectorBytes V dataSize) (s : Index V) (f : FieldName) (v : f.part.Val) :
    s.assign C f v = { s with
      dataLevel0Memory := (s.assign C f v).dataLevel0Memory
      linkLists := (s.assign C f v).linkLists } := by
  obtain ⟨id, level, part⟩ := f
  cases part with
  | vector => rfl
  | label => rfl
  | _ =>
    simp only [assign, setLinklistAtLevel]
    split <;> rfl

theorem curElementCount_assign : (s.assign C f v).curElementCount = s.curElementCount := by
  rw [assign_fields]

private theorem level_assign (i : TableInt) : (s.assign C f v).level i = s.level i := by
  rw [assign_fields]
  rfl

theorem levels_assign : (s.assign C f v).levels = s.levels := by
  rw [assign_fields]
  rfl

theorem HasLayout.assign (h : s.HasLayout dataSize L) : (s.assign C f v).HasLayout dataSize L := by
  rw [assign_fields]
  exact ⟨h.unwrapped, h.maxM0, h.links, h.dataSize, h.room, h.count_le, h.ids⟩

@[simp] theorem rowTail_setLinklistAtLevel (s : Index V) (i j : TableInt) (l l' : Nat) (ll : LinkList) :
    (s.setLinklistAtLevel i l ll).rowTail C j l' = s.rowTail C j l' := by
  obtain ⟨hdata, hlabel⟩ := read_setLinklistAtLevel s i j l ll
  rw [rowTail, getDataByInternalId, getExternalLabel, hdata, hlabel]
  rfl

@[simp] theorem maxLinks_setLinklistAtLevel (s : Index V) (i : TableInt) (l l' : Nat) (ll : LinkList) :
    (s.setLinklistAtLevel i l ll).maxLinks l' = s.maxLinks l' := by
  unfold setLinklistAtLevel
  split <;> rfl

private theorem rowBytes_setLinklistAtLevel (s : Index V) (i j : TableInt) (l l' : Nat) (ll : LinkList) :
    (s.setLinklistAtLevel i l ll).rowBytes C j l' =
      if j = i ∧ l' = l then ll.bytes (s.maxLinks l) ++ s.rowTail C i l else s.rowBytes C j l' := by
  rw [rowBytes, rowTail_setLinklistAtLevel, maxLinks_setLinklistAtLevel, getLinklistAtLevel_set]
  split
  · next h =>
    obtain ⟨rfl, rfl⟩ := h
    rfl
  · rfl

private theorem splice_rowBytes {i : TableInt} {level offset : Nat} {bytes : List Byte} {ll : LinkList}
    (h : offset + bytes.length ≤ s.maxLinks level * 4 + 4)
    (hll : splice ((s.getLinklistAtLevel i level).bytes (s.maxLinks level)) offset bytes =
      ll.bytes (s.maxLinks level)) :
    splice (s.rowBytes C i level) offset bytes =
      (s.setLinklistAtLevel i level ll).rowBytes C i level := by
  rw [rowBytes_setLinklistAtLevel, if_pos ⟨rfl, rfl⟩, rowBytes,
    splice_append_left (by rwa [LinkList.length_bytes]), hll]

private theorem rowBytes_setData (s : Index V) (i j : TableInt) (x : V) (l : Nat) :
    (s.setData i x).rowBytes C j l = (s.getLinklistAtLevel j l).bytes (s.maxLinks l) ++
      if l = 0 then C.encode (if j = i then x else s.getDataByInternalId j) ++
        leBytes 8 (s.getExternalLabel j) else [] := by
  rw [rowBytes, rowTail, getLinklistAtLevel_setData, getDataByInternalId_setData,
    getExternalLabel_setData]
  rfl

private theorem rowBytes_setExternalLabel (s : Index V) (i j : TableInt) (label : LabelType) (l : Nat) :
    (s.setExternalLabel i label).rowBytes C j l = (s.getLinklistAtLevel j l).bytes (s.maxLinks l) ++
      if l = 0 then C.encode (s.getDataByInternalId j) ++
        leBytes 8 (if j = i then label else s.getExternalLabel j) else [] := by
  rw [rowBytes, rowTail, getLinklistAtLevel_setExternalLabel, getDataByInternalId_setExternalLabel,
    getExternalLabel_setExternalLabel]
  rfl

def Encodes (C : VectorBytes V dataSize) : (part : FieldPart) → part.Val → Prop
  | .vector, dataPoint => ∃ x, C.encode x = dataPoint
  | .listCount, _ | .link _, _ | .deleteMark, _ | .label, _ => True

private theorem put_rowBytes (h : s.HasLayout dataSize L) (hf : s.HasField L f) (hv : Encodes C f.part v) :
    splice (s.rowBytes C f.internalId.toNat f.level) (L.partOffset f.part) ((L.fields f).put v
      (fieldAt (s.rowBytes C f.internalId.toNat f.level) (L.partOffset f.part) (L.partSize f.part))) =
    (s.assign C f v).rowBytes C f.internalId.toNat f.level := by
  obtain ⟨id, level, part⟩ := f
  have hpart := hf.legal.2.2
  cases part with
  | listCount =>
    apply splice_rowBytes
    · change 0 + (leBytes 2 v).length ≤ _
      rw [length_leBytes]
      omega
    · exact LinkList.splice_setListCount _ _
  | link idx =>
    have hidx := h.link_lt hf
    apply splice_rowBytes
    · change 4 + idx * 4 + (leBytes 4 (BitVec.toNat v)).length ≤ s.maxLinks level * 4 + 4
      rw [length_leBytes]
      omega
    · exact LinkList.splice_entry _ hidx _
  | deleteMark =>
    obtain rfl : level = 0 := hpart
    apply splice_rowBytes
    · change 2 + 1 ≤ _
      omega
    · change splice _ 2 [if v then (fieldAt (s.rowBytes C id.toNat 0) 2 1).headD 0 ||| 1
        else (fieldAt (s.rowBytes C id.toNat 0) 2 1).headD 0 &&& ~~~1] = _
      rw [fieldAt_rowBytes (by omega)]
      cases v with
      | true => exact LinkList.splice_setMark _
      | false => exact LinkList.splice_clearMark _
  | vector =>
    obtain rfl : level = 0 := hpart
    obtain ⟨x, rfl⟩ := hv
    change splice (s.rowBytes C id.toNat 0) L.offsetData.toNat (C.encode x) =
      (s.setData id.toNat (C.decode (C.encode x))).rowBytes C id.toNat 0
    rw [C.decode_encode, rowBytes_setData, if_pos rfl, if_pos rfl, rowBytes, rowTail, if_pos rfl]
    exact splice_middle (h.offsetData _) ((C.length_encode _).trans (C.length_encode _).symm) _
  | label =>
    obtain rfl : level = 0 := hpart
    change splice (s.rowBytes C id.toNat 0) L.labelOffset.toNat (leBytes 8 (BitVec.toNat v)) =
      (s.setExternalLabel id.toNat (BitVec.toNat v)).rowBytes C id.toNat 0
    have hvector := C.length_encode (s.getDataByInternalId id.toNat)
    rw [rowBytes_setExternalLabel, if_pos rfl, if_pos rfl, rowBytes, rowTail, if_pos rfl,
      h.labelOffset, splice_append_right (h.offsetData _)]
    have hlen : (leBytes 8 (BitVec.toNat v)).length =
        (leBytes 8 (s.getExternalLabel id.toNat)).length := by rw [length_leBytes, length_leBytes]
    have hlast := splice_middle hvector hlen []
    rw [List.append_nil, List.append_nil] at hlast
    rw [hlast]

private theorem rowBytes_assign_of_ne (hf : s.HasField L f) {j : TableInt} {l : Nat}
    (hne : j = f.internalId.toNat → l ≠ f.level) :
    (s.assign C f v).rowBytes C j l = s.rowBytes C j l := by
  obtain ⟨id, level, part⟩ := f
  have hlist : ∀ ll, (s.setLinklistAtLevel id.toNat level ll).rowBytes C j l = s.rowBytes C j l := by
    intro ll
    rw [rowBytes_setLinklistAtLevel, if_neg fun h => hne h.1 h.2]
  cases part with
  | listCount => exact hlist _
  | link idx => exact hlist _
  | deleteMark =>
    obtain rfl : level = 0 := hf.legal.2.2
    exact hlist _
  | vector =>
    obtain rfl : level = 0 := hf.legal.2.2
    change (s.setData id.toNat _).rowBytes C j l = _
    rw [rowBytes_setData, rowBytes, rowTail]
    by_cases hl : l = 0
    · rw [if_pos hl, if_pos hl, if_neg fun h => hne h hl]
    · rw [if_neg hl, if_neg hl]
  | label =>
    obtain rfl : level = 0 := hf.legal.2.2
    change (s.setExternalLabel id.toNat _).rowBytes C j l = _
    rw [rowBytes_setExternalLabel, rowBytes, rowTail]
    by_cases hl : l = 0
    · rw [if_pos hl, if_pos hl, if_neg fun h => hne h hl]
    · rw [if_neg hl, if_neg hl]

/-- A write of a value that its field can hold. -/
structure LegalWrite (C : VectorBytes V dataSize) (L : ByteLayout) (s : Index V)
    (w : (f : FieldName) × f.part.Val) : Prop where
  field : s.HasField L w.1
  value : L.LegalValue w.1.part w.2
  encodes : Encodes C w.1.part w.2

theorem Image.write (h : s.Image C L heap) (hw : s.LegalWrite C L ⟨f, v⟩) :
    ∃ heap', L.write f v heap = some heap' ∧ (s.assign C f v).Image C L heap' := by
  have hL := h.layout.unwrapped
  have hf := hw.field
  have hvalid := hL.valid_of_legalValue hw.value
  obtain ⟨heap', hwrite, hrow, hsame⟩ := ByteField.write_within
    (h.rows _ hf.lt _ hf.level_le) (hL.place_fields hf.legal)
    (by rw [ByteLayout.size_fields]; exact hL.end_le_row hf.legal) hvalid
  rw [ByteLayout.size_fields, put_rowBytes h.layout hf hw.encodes] at hrow
  refine ⟨heap', (ByteLayout.write_eq f hvalid heap).trans hwrite, ?_⟩
  refine ⟨h.layout.assign, ?_, fun id hid level hlevel => ?_⟩
  · rw [levels_assign]
    refine ⟨h.allocated.level_lt, (hsame.length _).trans h.allocated.level0, fun id hid hpos => ?_⟩
    exact (hsame.length _).trans (h.allocated.upper id hid hpos)
  · rw [curElementCount_assign] at hid
    rw [level_assign] at hlevel
    by_cases hself : id = f.internalId ∧ level = f.level
    · rw [hself.1, hself.2]
      exact hrow
    · rw [hsame.load, h.rows id hid level hlevel, rowBytes_assign_of_ne hf]
      · exact fun hid' hlevel' => hself ⟨BitVec.eq_of_toNat_eq hid', hlevel'⟩
      · apply hL.rows_apart h.layout.room (hid.trans_le h.layout.count_le)
          (hf.lt.trans_le h.layout.count_le) (h.level_lt hid hlevel) (h.level_lt hf.lt hf.level_le)
        exact fun hid' hlevel' => hself ⟨hid', hlevel'⟩

theorem LegalWrite.assign {w : (f : FieldName) × f.part.Val} (h : s.LegalWrite C L w) :
    (s.assign C f v).LegalWrite C L w := by
  refine ⟨⟨?_, ?_⟩, h.value, h.encodes⟩
  · rw [curElementCount_assign]
    exact h.field.lt
  · rw [levels_assign]
    exact h.field.legal

def assignAll (C : VectorBytes V dataSize) : List ((f : FieldName) × f.part.Val) → Index V → Index V
  | [], s => s
  | w :: ws, s => assignAll C ws (s.assign C w.1 w.2)

theorem Image.run {ws : List ((f : FieldName) × f.part.Val)} (h : s.Image C L heap)
    (hws : ∀ w ∈ ws, s.LegalWrite C L w) :
    ∃ heap', L.run ws heap = some heap' ∧ (s.assignAll C ws).Image C L heap' := by
  induction ws generalizing s heap with
  | nil => exact ⟨heap, rfl, h⟩
  | cons w ws ih =>
    obtain ⟨hw, hrest⟩ := List.forall_mem_cons.mp hws
    obtain ⟨heap₁, hwrite, himage⟩ := h.write hw
    obtain ⟨heap', hrun, himage'⟩ := ih himage fun w' hw' => (hrest w' hw').assign
    refine ⟨heap', ?_, himage'⟩
    rw [ByteLayout.run, hwrite, Option.bind_some, hrun]

end Write

end Index

end HnswRvv
