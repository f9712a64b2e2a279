import HnswRvv.Framework.ByteStream

/-!
# Fields in blocks of bytes

A heap has blocks of bytes under names of a type `β`. A field is a range of one block together with
a way to read a value from its bytes and to write one over them. As long as the ranges lie inside
their blocks and apart from each other, fields behave like variables of their own: a read gives what
was last written to the same field.
-/

namespace HnswRvv.Framework

/-- `bytes` over a block, from an offset on. -/
def splice (block : List Byte) (offset : Nat) (bytes : List Byte) : List Byte :=
  block.take offset ++ (bytes ++ block.drop (offset + bytes.length))

section Splice

variable {block bytes : List Byte} {offset offset' n : Nat}

theorem length_splice (h : offset + bytes.length ≤ block.length) :
    (splice block offset bytes).length = block.length := by
  simp only [splice, List.length_append, List.length_take, List.length_drop]
  omega

theorem fieldAt_splice_of_disjoint (h : offset + bytes.length ≤ block.length)
    (hd : offset' + n ≤ offset ∨ offset + bytes.length ≤ offset') :
    fieldAt (splice block offset bytes) offset' n = fieldAt block offset' n := by
  apply List.ext_getElem?
  intro i
  rw [fieldAt, fieldAt, List.getElem?_take, List.getElem?_take, List.getElem?_drop,
    List.getElem?_drop]
  split
  · next hi =>
    have htake : (block.take offset).length = offset := by
      rw [List.length_take]
      omega
    rcases hd with hbefore | hafter
    · rw [splice, List.getElem?_append_left (by omega), List.getElem?_take, if_pos (by omega)]
    · rw [splice, List.getElem?_append_right (by omega), List.getElem?_append_right (by omega),
        List.getElem?_drop]
      congr 1
      omega
  · rfl

@[simp] theorem length_fieldAt (h : offset + n ≤ block.length) :
    (fieldAt block offset n).length = n := by
  rw [fieldAt, List.length_take, List.length_drop]
  omega

theorem fieldAt_fieldAt {k m : Nat} (h : k + m ≤ n) :
    fieldAt (fieldAt block offset n) k m = fieldAt block (offset + k) m := by
  rw [fieldAt, fieldAt, List.drop_take, List.take_take, List.drop_drop, Nat.min_eq_left (by omega)]
  rfl

theorem splice_append_right {pre : List Byte} (h : pre.length = n) {k : Nat} :
    splice (pre ++ block) (n + k) bytes = pre ++ splice block k bytes := by
  subst h
  rw [splice, splice, List.take_length_add_append, Nat.add_assoc, List.drop_length_add_append,
    List.append_assoc]

theorem splice_append_left (h : offset + bytes.length ≤ block.length) (post : List Byte) :
    splice (block ++ post) offset bytes = splice block offset bytes ++ post := by
  rw [splice, splice, List.take_append_of_le_length (by omega), List.drop_append_of_le_length h]
  simp only [List.append_assoc]

theorem fieldAt_whole (h : block.length = n) : fieldAt block 0 n = block := by
  rw [fieldAt, List.drop_zero, ← h, List.take_length]

theorem splice_whole (h : bytes.length = block.length) : splice block 0 bytes = bytes := by
  rw [splice, List.take_zero, Nat.zero_add, h, List.drop_length, List.append_nil, List.nil_append]

theorem splice_middle {pre old : List Byte} (h : pre.length = n) (hbytes : bytes.length = old.length)
    (post : List Byte) : splice (pre ++ (old ++ post)) n bytes = pre ++ (bytes ++ post) := by
  rw [← Nat.add_zero n, splice_append_right h, splice_append_left (by omega), splice_whole hbytes]

theorem fieldAt_splice_within {k : Nat} (h : k + bytes.length ≤ n) (hn : offset + n ≤ block.length) :
    fieldAt (splice block (offset + k) bytes) offset n = splice (fieldAt block offset n) k bytes := by
  have hsplit : block = block.take offset ++ (fieldAt block offset n ++ block.drop (offset + n)) := by
    rw [fieldAt, ← List.drop_drop, List.take_append_drop, List.take_append_drop]
  have hpre : (block.take offset).length = offset := by
    rw [List.length_take]
    omega
  have hlen := length_fieldAt hn
  generalize fieldAt block offset n = field at hsplit hlen ⊢
  generalize block.take offset = pre at hsplit hpre
  generalize block.drop (offset + n) = post at hsplit
  subst hsplit
  rw [splice_append_right hpre, splice_append_left (h.trans hlen.ge)]
  exact fieldAt_append pre hpre ((length_splice (h.trans hlen.ge)).trans hlen)

theorem splice_records {α : Type} {f : α → List Byte} {size : Nat} (hsize : ∀ a, (f a).length = size)
    {l : List α} {i : Nat} (hi : i < l.length) (a : α) :
    splice (l.flatMap f) (i * size) (f a) = (l.set i a).flatMap f := by
  induction l generalizing i with
  | nil => exact absurd hi (Nat.not_lt_zero i)
  | cons b l ih =>
    cases i with
    | zero =>
      rw [List.flatMap_cons, Nat.zero_mul, List.set_cons_zero, List.flatMap_cons]
      exact splice_middle (List.length_nil) ((hsize a).trans (hsize b).symm) _
    | succ i =>
      rw [List.flatMap_cons, Nat.succ_mul, Nat.add_comm, splice_append_right (hsize b),
        ih (Nat.lt_of_succ_lt_succ hi), List.set_cons_succ, List.flatMap_cons]

end Splice

abbrev Heap (β : Type) := β → List Byte

structure Pointer (β : Type) where
  block : β
  offset : Nat
  deriving DecidableEq, Repr

namespace Heap

variable {β : Type} [DecidableEq β]

/-- `n` bytes from a pointer on, if they are inside the block. -/
def load (heap : Heap β) (p : Pointer β) (n : Nat) : Option (List Byte) :=
  if p.offset + n ≤ (heap p.block).length then some (fieldAt (heap p.block) p.offset n) else none

/-- `bytes` written from a pointer on. -/
def store (heap : Heap β) (p : Pointer β) (bytes : List Byte) : Option (Heap β) :=
  if p.offset + bytes.length ≤ (heap p.block).length then
    some (Function.update heap p.block (splice (heap p.block) p.offset bytes))
  else none

variable {heap heap' : Heap β} {p q : Pointer β} {bytes : List Byte} {n : Nat}

omit [DecidableEq β] in
theorem load_of_le (h : p.offset + n ≤ (heap p.block).length) :
    heap.load p n = some (fieldAt (heap p.block) p.offset n) := if_pos h

theorem store_of_le (h : p.offset + bytes.length ≤ (heap p.block).length) : heap.store p bytes =
    some (Function.update heap p.block (splice (heap p.block) p.offset bytes)) := if_pos h

theorem store_eq_some (h : heap.store p bytes = some heap') :
    p.offset + bytes.length ≤ (heap p.block).length ∧
      heap' = Function.update heap p.block (splice (heap p.block) p.offset bytes) := by
  rw [store] at h
  split at h
  · next hle => exact ⟨hle, (Option.some.inj h).symm⟩
  · exact absurd h (by simp)

theorem length_of_store (h : heap.store p bytes = some heap') (b : β) :
    (heap' b).length = (heap b).length := by
  obtain ⟨hle, rfl⟩ := store_eq_some h
  by_cases hb : b = p.block
  · subst hb
    rw [Function.update_self, length_splice hle]
  · rw [Function.update_of_ne hb]

theorem load_store_of_apart (h : heap.store p bytes = some heap') (hapart : q.block ≠ p.block ∨
      q.offset + n ≤ p.offset ∨ p.offset + bytes.length ≤ q.offset) :
    heap'.load q n = heap.load q n := by
  have hlen := length_of_store h q.block
  obtain ⟨hle, rfl⟩ := store_eq_some h
  have hbytes : fieldAt (Function.update heap p.block (splice (heap p.block) p.offset bytes) q.block)
      q.offset n = fieldAt (heap q.block) q.offset n := by
    by_cases hb : q.block = p.block
    · rw [hb, Function.update_self]
      exact fieldAt_splice_of_disjoint hle (hapart.resolve_left fun hne => hne hb)
    · rw [Function.update_of_ne hb]
  rw [load, load, hlen, hbytes]

omit [DecidableEq β] in
theorem load_eq_some {row : List Byte} : heap.load p n = some row ↔
    p.offset + n ≤ (heap p.block).length ∧ fieldAt (heap p.block) p.offset n = row := by
  rw [load]
  split
  · next h => simp [h]
  · next h => simp [h]

omit [DecidableEq β] in
theorem load_within {row : List Byte} {k m : Nat} (h : heap.load p n = some row) (hk : k + m ≤ n) :
    heap.load ⟨p.block, p.offset + k⟩ m = some (fieldAt row k m) := by
  obtain ⟨hle, rfl⟩ := load_eq_some.mp h
  refine load_eq_some.mpr ⟨?_, (fieldAt_fieldAt hk).symm⟩
  dsimp only
  omega

/-- All blocks keep their sizes, and all bytes outside of a range their values. -/
structure SameOutside (p : Pointer β) (n : Nat) (heap heap' : Heap β) : Prop where
  length : ∀ b, (heap' b).length = (heap b).length
  load : ∀ q m, q.block ≠ p.block ∨ q.offset + m ≤ p.offset ∨ p.offset + n ≤ q.offset →
    heap'.load q m = heap.load q m

theorem store_within {row : List Byte} {k : Nat} (h : heap.load p n = some row)
    (hk : k + bytes.length ≤ n) : ∃ heap', heap.store ⟨p.block, p.offset + k⟩ bytes = some heap' ∧
    heap'.load p n = some (splice row k bytes) ∧ SameOutside p n heap heap' := by
  obtain ⟨hle, rfl⟩ := load_eq_some.mp h
  have hstore : heap.store ⟨p.block, p.offset + k⟩ bytes = _ := store_of_le (by dsimp only; omega)
  refine ⟨_, hstore, load_eq_some.mpr ⟨?_, ?_⟩, length_of_store hstore, fun q m hq => ?_⟩
  · rw [length_of_store hstore]
    exact hle
  · rw [Function.update_self]
    exact fieldAt_splice_within hk hle
  · apply load_store_of_apart hstore
    dsimp only
    rcases hq with hblock | hbefore | hafter
    · exact .inl hblock
    · exact .inr (.inl (by omega))
    · exact .inr (.inr (by omega))

end Heap

/-- A range of `size` bytes that holds a value. A write may depend on the bytes that are there, and
only the values in `Valid` can be read again. -/
structure ByteField (β A : Type) where
  place : Pointer β
  size : Nat
  get : List Byte → A
  put : A → List Byte → List Byte
  Valid : A → Prop
  length_put : ∀ a old, Valid a → old.length = size → (put a old).length = size
  get_put : ∀ a old, Valid a → old.length = size → get (put a old) = a

namespace ByteField

variable {β A B : Type}

def Inside (f : ByteField β A) (heap : Heap β) : Prop :=
  f.place.offset + f.size ≤ (heap f.place.block).length

def Apart (f : ByteField β A) (g : ByteField β B) : Prop :=
  f.place.block ≠ g.place.block ∨ f.place.offset + f.size ≤ g.place.offset ∨
    g.place.offset + g.size ≤ f.place.offset

variable [DecidableEq β]

def read (f : ByteField β A) (heap : Heap β) : Option A := (heap.load f.place f.size).map f.get

def write (f : ByteField β A) (a : A) (heap : Heap β) : Option (Heap β) :=
  (heap.load f.place f.size).bind fun old => heap.store f.place (f.put a old)

variable {f : ByteField β A} {g : ByteField β B} {a : A} {heap heap' : Heap β}

theorem write_of_inside (h : f.Inside heap) (a : A) : f.write a heap =
    heap.store f.place (f.put a (fieldAt (heap f.place.block) f.place.offset f.size)) := by
  rw [write, Heap.load_of_le h, Option.bind_some]

/-! A field of a row whose bytes are known. -/

variable {row : Pointer β} {n k : Nat} {bytes : List Byte}

omit [DecidableEq β] in
theorem read_within (h : heap.load row n = some bytes)
    (hplace : f.place = ⟨row.block, row.offset + k⟩) (hk : k + f.size ≤ n) :
    f.read heap = some (f.get (fieldAt bytes k f.size)) := by
  rw [read, hplace, Heap.load_within h hk, Option.map_some]

theorem write_within (h : heap.load row n = some bytes)
    (hplace : f.place = ⟨row.block, row.offset + k⟩) (hk : k + f.size ≤ n) (ha : f.Valid a) :
    ∃ heap', f.write a heap = some heap' ∧
      heap'.load row n = some (splice bytes k (f.put a (fieldAt bytes k f.size))) ∧
      Heap.SameOutside row n heap heap' := by
  have hold : (fieldAt bytes k f.size).length = f.size := by
    obtain ⟨hle, rfl⟩ := Heap.load_eq_some.mp h
    exact length_fieldAt (by rwa [length_fieldAt hle])
  have hput : k + (f.put a (fieldAt bytes k f.size)).length ≤ n := by rwa [f.length_put a _ ha hold]
  obtain ⟨heap', hstore, hrow, hsame⟩ := Heap.store_within h hput
  refine ⟨heap', ?_, hrow, hsame⟩
  rw [write, hplace, Heap.load_within h hk, Option.bind_some, hstore]

/-- A write inside the block succeeds; the field then holds the value, every field apart from it
what it held before, and all blocks have kept their sizes. -/
theorem write_spec (h : f.Inside heap) (ha : f.Valid a) : ∃ heap', f.write a heap = some heap' ∧
    f.read heap' = some a ∧ (∀ b, (heap' b).length = (heap b).length) ∧
    ∀ {B : Type} (g : ByteField β B), g.Apart f → g.read heap' = g.read heap := by
  obtain ⟨heap', hwrite, hself, hsame⟩ :=
    write_within (k := 0) (Heap.load_of_le h) rfl (Nat.zero_add _).le ha
  have hold : (fieldAt (heap f.place.block) f.place.offset f.size).length = f.size :=
    length_fieldAt h
  rw [fieldAt_whole hold, splice_whole ((f.length_put a _ ha hold).trans hold.symm)] at hself
  refine ⟨heap', hwrite, ?_, hsame.length, fun g hg => ?_⟩
  · rw [read, hself, Option.map_some, f.get_put a _ ha hold]
  · rw [read, read, hsame.load _ _ hg]

end ByteField

/-- A field that is written without regard to the bytes that are there. -/
def ByteField.plain {β A : Type} (place : Pointer β) (size : Nat) (get : List Byte → A)
    (bytes : A → List Byte) (Valid : A → Prop) (length_bytes : ∀ a, Valid a → (bytes a).length = size)
    (get_bytes : ∀ a, Valid a → get (bytes a) = a) : ByteField β A where
  place := place
  size := size
  get := get
  put a _ := bytes a
  Valid := Valid
  length_put a _ ha _ := length_bytes a ha
  get_put a _ ha _ := get_bytes a ha

theorem ByteField.write_eq_store {β A : Type} [DecidableEq β] {f : ByteField β A} {a : A}
    {bytes : List Byte} (ha : f.Valid a) (hput : ∀ old, f.put a old = bytes) (heap : Heap β) :
    f.write a heap = heap.store f.place bytes := by
  by_cases h : f.place.offset + f.size ≤ (heap f.place.block).length
  · rw [write_of_inside h, hput]
  · have hlen : bytes.length = f.size := by
      rw [← hput (List.replicate f.size 0)]
      exact f.length_put a _ ha (List.length_replicate)
    simp [write, Heap.load, Heap.store, hlen, h]

theorem rows_apart {a b : Nat} (hne : a ≠ b) (stride : Nat) :
    a * stride + stride ≤ b * stride ∨ b * stride + stride ≤ a * stride := by
  rw [← Nat.succ_mul, ← Nat.succ_mul]
  rcases Nat.lt_or_gt_of_ne hne with hlt | hgt
  · exact .inl (Nat.mul_le_mul_right stride hlt)
  · exact .inr (Nat.mul_le_mul_right stride hgt)

section Family

variable {β ι : Type} [DecidableEq ι] {Val : ι → Type}

/-- The variables that a family of fields stands for, after some writes. -/
def lastWritten (v : (i : ι) → Option (Val i)) : List ((i : ι) × Val i) → (i : ι) → Option (Val i)
  | [] => v
  | w :: ws => lastWritten (Function.update v w.1 (some w.2)) ws

variable [DecidableEq β] (field : (i : ι) → ByteField β (Val i))

def runWrites : List ((i : ι) × Val i) → Heap β → Option (Heap β)
  | [], heap => some heap
  | w :: ws, heap => ((field w.1).write w.2 heap).bind (runWrites ws)

variable {field} {heap : Heap β} {Use : ι → Prop} {v : (i : ι) → Option (Val i)}

theorem runWrites_spec (hinside : ∀ i, Use i → (field i).Inside heap)
    (hapart : ∀ i j, Use i → Use j → i ≠ j → (field i).Apart (field j))
    (hv : ∀ i, Use i → (field i).read heap = v i) {ws : List ((i : ι) × Val i)}
    (hws : ∀ w ∈ ws, Use w.1 ∧ (field w.1).Valid w.2) :
    ∃ heap', runWrites field ws heap = some heap' ∧
      (∀ b, (heap' b).length = (heap b).length) ∧
      ∀ i, Use i → (field i).read heap' = lastWritten v ws i := by
  induction ws generalizing heap v with
  | nil => exact ⟨heap, rfl, fun _ => rfl, hv⟩
  | cons w ws ih =>
    obtain ⟨⟨huse, hvalid⟩, hrest⟩ := List.forall_mem_cons.mp hws
    obtain ⟨heap₁, hwrite, hself, hlen₁, hother⟩ :=
      ByteField.write_spec (hinside w.1 huse) hvalid
    have hinside₁ : ∀ i, Use i → (field i).Inside heap₁ := by
      intro i hi
      rw [ByteField.Inside, hlen₁]
      exact hinside i hi
    have hv₁ : ∀ i, Use i → (field i).read heap₁ = Function.update v w.1 (some w.2) i := by
      intro i hi
      by_cases hiw : i = w.1
      · subst hiw
        rw [hself, Function.update_self]
      · rw [Function.update_of_ne hiw, hother _ (hapart i w.1 hi huse hiw), hv i hi]
    obtain ⟨heap', hrun, hlen, hread⟩ := ih hinside₁ hv₁ hrest
    refine ⟨heap', ?_, fun b => (hlen b).trans (hlen₁ b), hread⟩
    rw [runWrites, hwrite, Option.bind_some, hrun]

end Family

end HnswRvv.Framework
