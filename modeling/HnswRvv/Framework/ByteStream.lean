import Mathlib

/-!
# Little-endian fields and input streams

A field of `n` bytes holds a natural number modulo `256 ^ n`. An `InStream` is a file opened for
reading: a read that finds too few bytes sets the fail bit, and a failed stream neither moves nor
reads until it is cleared. A seek beyond the end is not an error.
-/

namespace HnswRvv.Framework

abbrev Byte := BitVec 8

def leBytes : Nat → Nat → List Byte
  | 0, _ => []
  | n + 1, x => BitVec.ofNat 8 x :: leBytes n (x / 256)

def leValue : List Byte → Nat
  | [] => 0
  | b :: bs => b.toNat + 256 * leValue bs

@[simp] theorem length_leBytes (n x : Nat) : (leBytes n x).length = n := by
  induction n generalizing x with
  | zero => rfl
  | succ n ih => rw [leBytes, List.length_cons, ih]

theorem leValue_leBytes_mod (n x : Nat) : leValue (leBytes n x) = x % 256 ^ n := by
  induction n generalizing x with
  | zero => simp [leBytes, leValue, Nat.mod_one]
  | succ n ih =>
    have hsplit : x % 256 ^ (n + 1) = x % 256 + 256 * (x / 256 % 256 ^ n) := by
      rw [pow_succ', Nat.mod_mul]
    rw [leBytes, leValue, ih, BitVec.toNat_ofNat, hsplit]

theorem leValue_leBytes {n x : Nat} (h : x < 256 ^ n) : leValue (leBytes n x) = x := by
  rw [leValue_leBytes_mod, Nat.mod_eq_of_lt h]

theorem leBytes_zero (n : Nat) : leBytes n 0 = List.replicate n 0 := by
  induction n with
  | zero => rfl
  | succ n ih =>
    rw [leBytes, Nat.zero_div, ih, List.replicate_succ]
    rfl

theorem leValue_replicate_zero (n : Nat) : leValue (List.replicate n 0) = 0 := by
  induction n with
  | zero => rfl
  | succ n ih =>
    rw [List.replicate_succ, leValue, ih]
    rfl

theorem leValue_append_zeros (field : List Byte) (n k : Nat) :
    leValue (field ++ (leBytes n 0).drop k) = leValue field := by
  induction field with
  | nil => rw [leBytes_zero, List.drop_replicate, List.nil_append, leValue_replicate_zero, leValue]
  | cons b field ih => rw [List.cons_append, leValue, leValue, ih]

/-- `n` bytes of a block, from an offset on. -/
def fieldAt (block : List Byte) (offset n : Nat) : List Byte := (block.drop offset).take n

theorem fieldAt_append (pre : List Byte) {field post : List Byte} {offset n : Nat}
    (hpre : pre.length = offset) (hfield : field.length = n) : fieldAt (pre ++ (field ++ post)) offset n = field := by
  subst hpre hfield
  simp [fieldAt]

theorem fieldAt_append_left {block : List Byte} {offset n : Nat} (h : offset + n ≤ block.length)
    (post : List Byte) : fieldAt (block ++ post) offset n = fieldAt block offset n := by
  have hrest : n ≤ (block.drop offset).length := by
    rw [List.length_drop]
    omega
  rw [fieldAt, fieldAt, List.drop_append_of_le_length (by omega),
    List.take_append_of_le_length hrest]

theorem fieldAt_drop (block : List Byte) (i offset n : Nat) :
    fieldAt (block.drop i) offset n = fieldAt block (i + offset) n := by
  rw [fieldAt, fieldAt, List.drop_drop]

section Records

variable {α β : Type} {f : α → List β} {size : Nat} {l : List α}

theorem length_records (hsize : ∀ a, (f a).length = size) :
    (l.flatMap f).length = l.length * size := by
  rw [List.length_flatMap, List.map_congr_left fun a _ => hsize a]
  simp

theorem drop_records (hsize : ∀ a, (f a).length = size) {i : Nat} (hi : i < l.length) :
    ∃ post, (l.flatMap f).drop (i * size) = f l[i] ++ post := by
  induction l generalizing i with
  | nil => exact absurd hi (Nat.not_lt_zero i)
  | cons a l ih =>
    cases i with
    | zero => exact ⟨l.flatMap f, by simp⟩
    | succ i =>
      obtain ⟨post, hpost⟩ := ih (Nat.lt_of_succ_lt_succ hi)
      refine ⟨post, ?_⟩
      rw [List.flatMap_cons, Nat.succ_mul, Nat.add_comm, ← List.drop_drop, ← hsize a, List.drop_left,
        hsize a, hpost]
      rfl

theorem fieldAt_records {f : α → List Byte} (hsize : ∀ a, (f a).length = size) {i : Nat}
    (hi : i < l.length) (rest : List Byte) :
    fieldAt (l.flatMap f ++ rest) (i * size) size = f l[i] := by
  have hle : i * size ≤ (l.flatMap f).length := by
    rw [length_records hsize]
    exact Nat.mul_le_mul_right size hi.le
  obtain ⟨post, hpost⟩ := drop_records hsize hi
  rw [fieldAt, List.drop_append_of_le_length hle, hpost, List.append_assoc,
    List.take_left' (hsize l[i])]

theorem take_rows {block : List Byte} {f : Nat → List Byte} {n : Nat}
    (h : ∀ i < n, fieldAt block (i * size) size = f i) :
    block.take (n * size) = (List.range n).flatMap f := by
  induction n with
  | zero => simp
  | succ n ih =>
    rw [Nat.succ_mul, List.take_add, ih fun i hi => h i (Nat.lt_succ_of_lt hi), List.range_succ,
      List.flatMap_append, List.flatMap_singleton, ← h n (Nat.lt_succ_self n), fieldAt]

end Records

structure InStream where
  contents : List Byte
  pos : Nat
  failed : Bool
  deriving DecidableEq, Repr

namespace InStream

def opened (contents : List Byte) : InStream := ⟨contents, 0, false⟩

def tellg (input : InStream) : Int := if input.failed then -1 else input.pos

/-- `seekg(pos, beg)` -/
def seekBeg (pos : Nat) (input : InStream) : InStream :=
  if input.failed then input else { input with pos := pos }

/-- `seekg(off, cur)` -/
def seekCur (off : Int) (input : InStream) : InStream :=
  if input.failed then input
  else if input.pos + off < 0 then { input with failed := true }
  else { input with pos := (input.pos + off).toNat }

def clear (input : InStream) : InStream := { input with failed := false }

/-- `read(…, n)`: the bytes found, at most `n`. -/
def read (n : Nat) (input : InStream) : List Byte × InStream :=
  if input.failed then ([], input)
  else
    let found := fieldAt input.contents input.pos n
    (found, { input with pos := input.pos + found.length, failed := decide (found.length < n) })

/-- A field of `n` bytes read over the number `old`: after a short read the upper bytes are still
the old ones. -/
def readField (n old : Nat) (input : InStream) : Nat × InStream :=
  let (found, input) := input.read n
  (leValue (found ++ (leBytes n old).drop found.length), input)

@[simp] theorem contents_seekCur (off : Int) (input : InStream) :
    (input.seekCur off).contents = input.contents := by
  unfold seekCur
  split_ifs <;> rfl

@[simp] theorem contents_readField (n old : Nat) (input : InStream) :
    (input.readField n old).2.contents = input.contents := by
  simp only [readField, read]
  split <;> rfl

/-- The first `pos` bytes of a file have been read, or the stream has failed at its end. -/
def Past (contents : List Byte) (pos : Nat) (input : InStream) : Prop :=
  input.contents = contents ∧
    (input.failed = false ∧ input.pos = pos ∨ input.failed = true ∧ contents.length < pos)

theorem past_opened (contents : List Byte) : (opened contents).Past contents 0 :=
  ⟨rfl, Or.inl ⟨rfl, rfl⟩⟩

theorem Past.readField {contents : List Byte} {pos : Nat} {input : InStream}
    (h : input.Past contents pos) (n old : Nat) :
    (input.readField n old).2.Past contents (pos + n) := by
  obtain ⟨hcontents, ⟨hgood, rfl⟩ | ⟨hbad, hshort⟩⟩ := h
  · have hlen : (fieldAt contents input.pos n).length = min n (contents.length - input.pos) := by
      rw [fieldAt, List.length_take, List.length_drop]
    simp only [Past, InStream.readField, read, hgood, Bool.false_eq_true, if_false, hcontents, hlen,
      true_and, decide_eq_false_iff_not, decide_eq_true_eq]
    omega
  · simp only [Past, InStream.readField, read, hbad, if_true, hcontents, true_and]
    exact Or.inr (Nat.lt_add_right n hshort)

theorem Past.value {contents : List Byte} {pos : Nat} {input : InStream}
    (h : input.Past contents pos) (n : Nat) :
    (input.readField n 0).1 = leValue (fieldAt contents pos n) := by
  obtain ⟨hcontents, ⟨hgood, rfl⟩ | ⟨hbad, hshort⟩⟩ := h
  · simp only [InStream.readField, read, hgood, Bool.false_eq_true, if_false, hcontents,
      leValue_append_zeros]
  · have hnone : fieldAt contents pos n = [] := by
      rw [fieldAt, List.drop_of_length_le hshort.le, List.take_nil]
    simp only [InStream.readField, read, hbad, if_true, hnone, leValue_append_zeros]

theorem Past.failed_readField {contents : List Byte} {n : Nat} {input : InStream} (pos : Nat)
    (h : input.Past contents pos) (hn : 0 < n) (hshort : contents.length < pos + n) (old : Nat) :
    (input.readField n old).2.failed = true := by
  obtain ⟨hcontents, ⟨hgood, rfl⟩ | ⟨hbad, -⟩⟩ := h
  · simp only [InStream.readField, read, hgood, Bool.false_eq_true, if_false, hcontents,
      decide_eq_true_eq, fieldAt, List.length_take, List.length_drop]
    omega
  · simp only [InStream.readField, read, hbad, if_true]

/-- The stream is good and `rest` is what is still to be read. -/
def At (rest : List Byte) (input : InStream) : Prop :=
  input.failed = false ∧ ∃ read, input.contents = read ++ rest ∧ input.pos = read.length

variable {input : InStream} {field rest : List Byte} {n : Nat}

theorem at_opened (contents : List Byte) : (opened contents).At contents :=
  ⟨rfl, [], rfl, rfl⟩

theorem At.tellg (h : input.At rest) : input.tellg = input.contents.length - rest.length := by
  obtain ⟨hgood, before, hcontents, hpos⟩ := h
  rw [InStream.tellg, hgood, hcontents, List.length_append, hpos]
  simp

theorem At.read (h : input.At (field ++ rest)) (hn : field.length = n) :
    (input.read n).1 = field ∧ (input.read n).2.At rest ∧
      (input.read n).2.contents = input.contents := by
  obtain ⟨hgood, before, hcontents, hpos⟩ := h
  have hfound : fieldAt input.contents input.pos n = field := by
    rw [hcontents]
    exact fieldAt_append _ hpos.symm hn
  simp only [InStream.read, hgood, Bool.false_eq_true, if_false, hfound, hn]
  refine ⟨trivial, ⟨by simp, before ++ field, ?_, ?_⟩, trivial⟩
  · rw [hcontents, List.append_assoc]
  · rw [List.length_append, hpos, hn]

theorem At.readField {x : Nat} (h : input.At (leBytes n x ++ rest)) (hx : x < 256 ^ n)
    (old : Nat) : (input.readField n old).1 = x ∧ (input.readField n old).2.At rest ∧
      (input.readField n old).2.contents = input.contents := by
  obtain ⟨hfound, hrest⟩ := h.read (length_leBytes n x)
  simp only [InStream.readField, hfound]
  refine ⟨?_, hrest⟩
  rw [length_leBytes, List.drop_of_length_le (length_leBytes n old).le, List.append_nil,
    leValue_leBytes hx]

theorem At.seekCur (h : input.At (field ++ rest)) :
    (input.seekCur field.length).At rest ∧
      (input.seekCur field.length).contents = input.contents := by
  obtain ⟨hgood, before, hcontents, hpos⟩ := h
  have hnot : ¬ ((input.pos : Int) + field.length < 0) := by omega
  simp only [InStream.seekCur, hgood, Bool.false_eq_true, if_false, hnot]
  refine ⟨⟨rfl, before ++ field, ?_, ?_⟩, trivial⟩
  · rw [hcontents, List.append_assoc]
  · rw [List.length_append, hpos]
    exact Int.toNat_natCast (before.length + field.length)

theorem At.seekBeg {input' : InStream} (h : input.At rest) (hgood : input'.failed = false)
    (hcontents : input'.contents = input.contents) :
    (input'.seekBeg input.tellg.toNat).At rest ∧
      (input'.seekBeg input.tellg.toNat).contents = input.contents := by
  obtain ⟨hin, before, hbefore, hpos⟩ := h
  simp only [InStream.seekBeg, hgood, InStream.tellg, hin, Bool.false_eq_true, if_false]
  exact ⟨⟨rfl, before, hcontents.trans hbefore, hpos⟩, hcontents⟩

/-- The one file is the other one cut short. -/
def Agree (contents saved : List Byte) : Prop := contents <+: saved ∨ saved <+: contents

theorem Agree.fieldAt_eq {contents saved : List Byte} {pos n : Nat} (h : Agree contents saved)
    (hcontents : pos + n ≤ contents.length) (hsaved : pos + n ≤ saved.length) :
    fieldAt contents pos n = fieldAt saved pos n := by
  rcases h with ⟨post, rfl⟩ | ⟨post, rfl⟩
  · exact (fieldAt_append_left hcontents post).symm
  · exact fieldAt_append_left hsaved post

theorem Agree.eq_of_length {contents saved : List Byte} (h : Agree contents saved)
    (hlength : contents.length = saved.length) : contents = saved := by
  rcases h with hpre | hpre
  · exact hpre.eq_of_length hlength
  · exact (hpre.eq_of_length hlength.symm).symm

/-- Unless it has failed, the stream stands where `rest` begins in `saved`; the file itself may end
before that. -/
def Along (saved rest : List Byte) (input : InStream) : Prop :=
  input.failed = false → ∃ before, saved = before ++ rest ∧ input.pos = before.length

variable {saved : List Byte}

theorem Along.tellg (h : input.Along saved []) : input.tellg < 0 ∨ input.tellg = saved.length := by
  cases hfailed : input.failed with
  | true => simp [InStream.tellg, hfailed]
  | false =>
    obtain ⟨before, hsaved, hpos⟩ := h hfailed
    simp [InStream.tellg, hfailed, hsaved, hpos]

theorem Along.seekCur (h : input.Along saved (field ++ rest)) :
    (input.seekCur field.length).Along saved rest := by
  intro hafter
  cases hfailed : input.failed with
  | true => simp [InStream.seekCur, hfailed] at hafter
  | false =>
    obtain ⟨before, hsaved, hpos⟩ := h hfailed
    have hnot : ¬ ((input.pos : Int) + field.length < 0) := by omega
    refine ⟨before ++ field, by rw [hsaved, List.append_assoc], ?_⟩
    simp only [InStream.seekCur, hfailed, Bool.false_eq_true, if_false, hnot]
    rw [List.length_append, hpos]
    exact Int.toNat_natCast (before.length + field.length)

theorem Along.readField {x : Nat} (h : input.Along saved (leBytes n x ++ rest))
    (hagree : Agree input.contents saved) (hn : 0 < n) (hx : x < 256 ^ n) (old : Nat)
    (hfull : (input.readField n old).2.failed = false) :
    (input.readField n old).1 = x ∧ (input.readField n old).2.Along saved rest := by
  cases hfailed : input.failed with
  | true => simp [InStream.readField, InStream.read, hfailed] at hfull
  | false =>
    obtain ⟨before, hsaved, hpos⟩ := h hfailed
    have hlength : input.pos + n ≤ input.contents.length := by
      simp only [InStream.readField, InStream.read, hfailed, Bool.false_eq_true, if_false,
        decide_eq_false_iff_not, fieldAt, List.length_take, List.length_drop] at hfull
      omega
    have hfound : fieldAt input.contents input.pos n = leBytes n x := by
      rw [hagree.fieldAt_eq hlength, hsaved]
      · exact fieldAt_append before hpos.symm (length_leBytes n x)
      · simp only [hsaved, List.length_append, length_leBytes, hpos]
        omega
    simp only [InStream.readField, InStream.read, hfailed, Bool.false_eq_true, if_false, hfound,
      length_leBytes]
    constructor
    · rw [List.drop_of_length_le (length_leBytes n old).le, List.append_nil, leValue_leBytes hx]
    · intro _
      refine ⟨before ++ leBytes n x, by rw [hsaved, List.append_assoc], ?_⟩
      rw [List.length_append, length_leBytes, hpos]

end InStream

structure OutStream where
  contents : List Byte
  failed : Bool
  deriving DecidableEq, Repr

namespace OutStream

def opened : OutStream := ⟨[], false⟩

/-- `write(source, n)`: a negative count puts nothing and fails the stream for good. -/
def write (source : List Byte) (n : Int) (out : OutStream) : OutStream :=
  if out.failed then out
  else if n < 0 then { out with failed := true }
  else { out with contents := out.contents ++ source.take n.toNat }

variable {source : List Byte} {n : Int} {out : OutStream}

theorem write_whole (hgood : out.failed = false) (hn : n = source.length) :
    out.write source n = ⟨out.contents ++ source, false⟩ := by
  subst hn
  simp [write, hgood]

theorem length_write_le : (out.write source n).contents.length ≤
    out.contents.length + source.length := by
  unfold write
  split_ifs
  · exact Nat.le_add_right _ _
  · exact Nat.le_add_right _ _
  · simp

theorem length_write_lt (hn : n < source.length) (hpos : 0 < source.length) :
    (out.write source n).contents.length < out.contents.length + source.length := by
  unfold write
  split_ifs
  · exact Nat.lt_add_of_pos_right hpos
  · exact Nat.lt_add_of_pos_right hpos
  · simp
    omega

end OutStream

end HnswRvv.Framework
