import HnswRvv.Framework.ByteStream

/-!
# The dataset file

Four `int`s and four arrays of `float`s. `write_bin` and `read_bin` form each array length as a
product of two `int`s, in 32 bits, before it is widened; the model wraps the product around. A
`float` is the bits of its cell.
-/

namespace HnswRvv

open Framework

abbrev FloatCell := BitVec 32

structure Dataset where
  dim : BitVec 32
  trainElements : BitVec 32
  testElements : BitVec 32
  topk : BitVec 32
  trainData : List FloatCell
  testData : List FloatCell
  neighbors : List FloatCell
  distances : List FloatCell
  deriving DecidableEq, Repr

namespace Dataset

/-- `a * b * sizeof(float)` as a `std::streamsize`. -/
def byteCount (a b : BitVec 32) : Int := (BitVec.ofInt 64 (a * b).toInt * 4).toInt

def floatBytes (cells : List FloatCell) : List Byte := cells.flatMap fun c => leBytes 4 c.toNat

def intBytes (x : BitVec 32) : List Byte := leBytes 4 x.toNat

def writeHeader (d : Dataset) : OutStream :=
  let out := OutStream.opened
  let out := out.write (intBytes d.dim) 4
  let out := out.write (intBytes d.trainElements) 4
  let out := out.write (intBytes d.testElements) 4
  out.write (intBytes d.topk) 4

def writeBin (d : Dataset) : List Byte :=
  let out := d.writeHeader
  let out := out.write (floatBytes d.trainData) (byteCount d.dim d.trainElements)
  let out := out.write (floatBytes d.testData) (byteCount d.dim d.testElements)
  let out := out.write (floatBytes d.neighbors) (byteCount d.topk d.testElements)
  let out := out.write (floatBytes d.distances) (byteCount d.topk d.testElements)
  out.contents

inductive ReadFailure where
  /-- `exit(1)` after "does not exist" -/
  | noFile
  /-- `new float[n]` with a negative `n` -/
  | badArrayNewLength
  deriving DecidableEq, Repr

/-- `new float[a * b]` -/
def newFloats (a b : BitVec 32) : Except ReadFailure Nat :=
  if (a * b).toInt < 0 then .error .badArrayNewLength else .ok (a * b).toInt.toNat

def readInt (old : BitVec 32) (input : InStream) : BitVec 32 × InStream :=
  (BitVec.ofNat 32 (input.readField 4 old.toNat).1, (input.readField 4 old.toNat).2)

/-- The cells of an array of `n` floats. -/
def floatsOfBytes (n : Nat) (bytes : List Byte) : List FloatCell :=
  (List.range n).map fun i => BitVec.ofNat 32 (leValue (fieldAt bytes (i * 4) 4))

/-- An array of `n` floats, with `fresh` in its memory, after the read of `count` bytes into it. -/
def readFloats (n : Nat) (count : Int) (fresh : List Byte) (input : InStream) :
    List FloatCell × InStream :=
  let (found, input) := input.read count.toNat
  (floatsOfBytes n (found ++ fresh.drop found.length), input)

/-- `old` holds the caller's variables before the call, and `fresh` the bytes of the four
allocations. -/
def readBin (file : Option (List Byte)) (old : Dataset) (fresh : Nat → List Byte) :
    Except ReadFailure Dataset := do
  let some contents := file | throw .noFile
  let (dim, input) := readInt old.dim (InStream.opened contents)
  let (trainElements, input) := readInt old.trainElements input
  let (testElements, input) := readInt old.testElements input
  let (topk, input) := readInt old.topk input
  let trainLength ← newFloats dim trainElements
  let testLength ← newFloats dim testElements
  let neighborsLength ← newFloats topk testElements
  let distancesLength ← newFloats topk testElements
  let (trainData, input) := readFloats trainLength (byteCount dim trainElements) (fresh 0) input
  let (testData, input) := readFloats testLength (byteCount dim testElements) (fresh 1) input
  let (neighbors, input) := readFloats neighborsLength (byteCount topk testElements) (fresh 2) input
  let (distances, _) := readFloats distancesLength (byteCount topk testElements) (fresh 3) input
  return { dim, trainElements, testElements, topk, trainData, testData, neighbors, distances }

/-- Sizes that are not negative, and arrays of the lengths that the format comment gives. -/
structure Documented (d : Dataset) : Prop where
  dim : 0 ≤ d.dim.toInt
  trainElements : 0 ≤ d.trainElements.toInt
  testElements : 0 ≤ d.testElements.toInt
  topk : 0 ≤ d.topk.toInt
  trainData : d.trainData.length = d.dim.toNat * d.trainElements.toNat
  testData : d.testData.length = d.dim.toNat * d.testElements.toNat
  neighbors : d.neighbors.length = d.topk.toNat * d.testElements.toNat
  distances : d.distances.length = d.topk.toNat * d.testElements.toNat

variable {a b : BitVec 32} {cells : List FloatCell} {d : Dataset}

private theorem byteCount_eq (a b : BitVec 32) : byteCount a b = 4 * (a * b).toInt := by
  have hlt := BitVec.toInt_lt (x := a * b)
  have hge := BitVec.le_toInt (x := a * b)
  have hbmod : ∀ x : Int, -2 ^ 63 ≤ x → x < 2 ^ 63 → x.bmod (2 ^ 64) = x := fun x h1 h2 =>
    Int.bmod_eq_of_le (by omega) (by omega)
  rw [byteCount, BitVec.toInt_mul, BitVec.toInt_ofInt, hbmod (a * b).toInt (by omega) (by omega),
    show (4 : BitVec 64).toInt = 4 from rfl, hbmod _ (by omega) (by omega), mul_comm]

private theorem toInt_mul_of_lt (h : a.toNat * b.toNat < 2 ^ 31) :
    (a * b).toInt = (a.toNat * b.toNat : Nat) := by
  have hmod : (a * b).toNat = a.toNat * b.toNat := by
    rw [BitVec.toNat_mul, Nat.mod_eq_of_lt (by omega)]
  rw [BitVec.toInt_eq_toNat_of_lt (by omega), hmod]

private theorem toInt_mul_lt (h : 2 ^ 31 ≤ a.toNat * b.toNat) : (a * b).toInt < (a.toNat * b.toNat : Nat) := by
  have := BitVec.toInt_lt (x := a * b)
  omega

@[simp] theorem length_intBytes (x : BitVec 32) : (intBytes x).length = 4 := length_leBytes 4 _

@[simp] theorem length_floatBytes (cells : List FloatCell) :
    (floatBytes cells).length = 4 * cells.length := by
  rw [floatBytes, length_records fun _ => length_leBytes 4 _, Nat.mul_comm]

private theorem floatsOfBytes_floatBytes (cells : List FloatCell) (rest : List Byte) :
    floatsOfBytes cells.length (floatBytes cells ++ rest) = cells := by
  apply List.ext_getElem
  · simp [floatsOfBytes]
  · intro i hi hi'
    have hcell : fieldAt (floatBytes cells ++ rest) (i * 4) 4 = leBytes 4 cells[i].toNat :=
      fieldAt_records (fun _ => length_leBytes 4 _) hi' rest
    simp only [floatsOfBytes, List.getElem_map, List.getElem_range, hcell]
    rw [leValue_leBytes (cells[i].isLt), BitVec.ofNat_toNat, BitVec.setWidth_eq]

private theorem readInt_of_at {x : BitVec 32} (old : BitVec 32) {input : InStream} {rest : List Byte}
    (h : input.At (intBytes x ++ rest)) :
    (readInt old input).1 = x ∧ (readInt old input).2.At rest := by
  obtain ⟨hval, hrest, -⟩ := h.readField x.isLt old.toNat
  refine ⟨?_, hrest⟩
  rw [readInt, hval, BitVec.ofNat_toNat, BitVec.setWidth_eq]

private theorem readFloats_of_at {input : InStream} {rest : List Byte} (fresh : List Byte)
    (h : input.At (floatBytes cells ++ rest)) {n : Nat} {count : Int} (hn : n = cells.length)
    (hcount : count = 4 * n) : (readFloats n count fresh input).1 = cells ∧
      (readFloats n count fresh input).2.At rest := by
  obtain ⟨hfound, hrest, -⟩ := h.read (n := count.toNat) (by rw [length_floatBytes]; omega)
  refine ⟨?_, hrest⟩
  simp only [readFloats, hfound, hn, floatsOfBytes_floatBytes]

/-- Every product of two sizes fits an `int`. -/
def ProductsFit (d : Dataset) : Prop :=
  d.dim.toNat * d.trainElements.toNat < 2 ^ 31 ∧ d.dim.toNat * d.testElements.toNat < 2 ^ 31 ∧
    d.topk.toNat * d.testElements.toNat < 2 ^ 31

/-- The bytes that the format comment describes. -/
def fileBytes (d : Dataset) : List Byte :=
  intBytes d.dim ++ (intBytes d.trainElements ++ (intBytes d.testElements ++ (intBytes d.topk ++
    (floatBytes d.trainData ++ (floatBytes d.testData ++ (floatBytes d.neighbors ++
      floatBytes d.distances))))))

private theorem length_fileBytes (h : d.Documented) : d.fileBytes.length =
    16 + 4 * (d.dim.toNat * d.trainElements.toNat + d.dim.toNat * d.testElements.toNat +
      2 * (d.topk.toNat * d.testElements.toNat)) := by
  simp only [fileBytes, List.length_append, length_intBytes, length_floatBytes, h.trainData,
    h.testData, h.neighbors, h.distances]
  omega

private theorem byteCount_of_lt (h : a.toNat * b.toNat < 2 ^ 31)
    (hlen : cells.length = a.toNat * b.toNat) : byteCount a b = (floatBytes cells).length := by
  rw [byteCount_eq, toInt_mul_of_lt h, length_floatBytes, hlen]
  omega

private theorem writeHeader_eq (d : Dataset) : d.writeHeader =
    ⟨intBytes d.dim ++ (intBytes d.trainElements ++ (intBytes d.testElements ++ intBytes d.topk)),
      false⟩ := by
  have htake : ∀ x, (intBytes x).take 4 = intBytes x := fun x =>
    List.take_of_length_le (length_intBytes x).le
  simp [writeHeader, OutStream.opened, OutStream.write, htake]

theorem writeBin_of_fit (h : d.Documented) (hfit : d.ProductsFit) : d.writeBin = d.fileBytes := by
  obtain ⟨htrain, htest, htop⟩ := hfit
  rw [writeBin, writeHeader_eq]
  rw [OutStream.write_whole rfl (byteCount_of_lt htrain h.trainData),
    OutStream.write_whole rfl (byteCount_of_lt htest h.testData),
    OutStream.write_whole rfl (byteCount_of_lt htop h.neighbors),
    OutStream.write_whole rfl (byteCount_of_lt htop h.distances)]
  simp only [fileBytes, List.append_assoc]

private theorem byteCount_lt (h : 2 ^ 31 ≤ a.toNat * b.toNat) (hlen : cells.length = a.toNat * b.toNat) :
    byteCount a b < (floatBytes cells).length ∧ 0 < (floatBytes cells).length := by
  have hlt := toInt_mul_lt h
  rw [byteCount_eq, length_floatBytes, hlen]
  omega

private theorem length_writeBin_lt (h : d.Documented) (hfit : ¬ d.ProductsFit) :
    d.writeBin.length < d.fileBytes.length := by
  have hheader : d.writeHeader.contents.length = 16 := by simp [writeHeader_eq]
  rw [writeBin]
  set o₁ := d.writeHeader.write (floatBytes d.trainData) (byteCount d.dim d.trainElements)
  set o₂ := o₁.write (floatBytes d.testData) (byteCount d.dim d.testElements)
  set o₃ := o₂.write (floatBytes d.neighbors) (byteCount d.topk d.testElements)
  have h₁ : o₁.contents.length ≤ 16 + (floatBytes d.trainData).length :=
    hheader ▸ OutStream.length_write_le
  have h₂ : o₂.contents.length ≤ o₁.contents.length + (floatBytes d.testData).length :=
    OutStream.length_write_le
  have h₃ : o₃.contents.length ≤ o₂.contents.length + (floatBytes d.neighbors).length :=
    OutStream.length_write_le
  have h₄ : (o₃.write (floatBytes d.distances) (byteCount d.topk d.testElements)).contents.length ≤
      o₃.contents.length + (floatBytes d.distances).length := OutStream.length_write_le
  have htotal : d.fileBytes.length = 16 + (floatBytes d.trainData).length +
      (floatBytes d.testData).length + (floatBytes d.neighbors).length +
      (floatBytes d.distances).length := by
    simp [fileBytes]
    omega
  rw [htotal]
  rcases Nat.lt_or_ge (d.dim.toNat * d.trainElements.toNat) (2 ^ 31) with htrain | htrain
  · rcases Nat.lt_or_ge (d.dim.toNat * d.testElements.toNat) (2 ^ 31) with htest | htest
    · rcases Nat.lt_or_ge (d.topk.toNat * d.testElements.toNat) (2 ^ 31) with htop | htop
      · exact absurd ⟨htrain, htest, htop⟩ hfit
      · obtain ⟨hlt, hpos⟩ := byteCount_lt htop h.neighbors
        have : o₃.contents.length < o₂.contents.length + _ := OutStream.length_write_lt hlt hpos
        omega
    · obtain ⟨hlt, hpos⟩ := byteCount_lt htest h.testData
      have : o₂.contents.length < o₁.contents.length + _ := OutStream.length_write_lt hlt hpos
      omega
  · obtain ⟨hlt, hpos⟩ := byteCount_lt htrain h.trainData
    have : o₁.contents.length < 16 + _ := hheader ▸ OutStream.length_write_lt hlt hpos
    omega

private theorem newFloats_of_lt (h : a.toNat * b.toNat < 2 ^ 31) :
    newFloats a b = .ok (a.toNat * b.toNat) := by
  rw [newFloats, toInt_mul_of_lt h, if_neg (by omega), Int.toNat_natCast]

theorem readBin_fileBytes (h : d.Documented) (hfit : d.ProductsFit) (old : Dataset)
    (fresh : Nat → List Byte) : readBin (some d.fileBytes) old fresh = .ok d := by
  obtain ⟨htrain, htest, htop⟩ := hfit
  obtain ⟨h1, hin1⟩ := readInt_of_at old.dim (InStream.at_opened d.fileBytes)
  obtain ⟨h2, hin2⟩ := readInt_of_at old.trainElements hin1
  obtain ⟨h3, hin3⟩ := readInt_of_at old.testElements hin2
  obtain ⟨h4, hin4⟩ := readInt_of_at old.topk hin3
  have hcount : ∀ {a b : BitVec 32}, a.toNat * b.toNat < 2 ^ 31 →
      byteCount a b = 4 * (a.toNat * b.toNat : Nat) := fun hlt => by
    rw [byteCount_eq, toInt_mul_of_lt hlt]
  obtain ⟨h5, hin5⟩ := readFloats_of_at (fresh 0) hin4 h.trainData.symm (hcount htrain)
  obtain ⟨h6, hin6⟩ := readFloats_of_at (fresh 1) hin5 h.testData.symm (hcount htest)
  obtain ⟨h7, hin7⟩ := readFloats_of_at (fresh 2) hin6 h.neighbors.symm (hcount htop)
  rw [← List.append_nil (floatBytes d.distances)] at hin7
  obtain ⟨h8, -⟩ := readFloats_of_at (fresh 3) hin7 h.distances.symm (hcount htop)
  simp only [readBin, h1, h2, h3, h4, newFloats_of_lt htrain, newFloats_of_lt htest,
    newFloats_of_lt htop, bind, Except.bind, h5, h6, h7, h8]
  rfl

/-- The file has the size of the format comment and is read back as it was, exactly when no product
of sizes overflows an `int`. -/
theorem readBin_writeBin_iff (h : d.Documented) (old : Dataset) (fresh : Nat → List Byte) :
    (d.writeBin.length = 16 + 4 * (d.dim.toNat * d.trainElements.toNat +
        d.dim.toNat * d.testElements.toNat + 2 * (d.topk.toNat * d.testElements.toNat)) ∧
      readBin (some d.writeBin) old fresh = .ok d) ↔
      d.dim.toNat * d.trainElements.toNat < 2 ^ 31 ∧ d.dim.toNat * d.testElements.toNat < 2 ^ 31 ∧
        d.topk.toNat * d.testElements.toNat < 2 ^ 31 := by
  rw [← length_fileBytes h]
  constructor
  · rintro ⟨hlen, -⟩
    by_contra hfit
    exact (length_writeBin_lt h hfit).ne hlen
  · intro hfit
    rw [writeBin_of_fit h hfit]
    exact ⟨rfl, readBin_fileBytes h hfit old fresh⟩

/-- One training vector, one test vector and its nearest neighbour. -/
def onePair : Dataset where
  dim := 2
  trainElements := 1
  testElements := 1
  topk := 1
  trainData := [0x3f800000#32, 0x40000000#32]
  testData := [0x3f800000#32, 0x3f800000#32]
  neighbors := [0]
  distances := [0x3f800000#32]

theorem readBin_writeBin_onePair : onePair.writeBin.length = 40 ∧
    readBin (some onePair.writeBin) onePair (fun _ => []) = .ok onePair :=
  (readBin_writeBin_iff (by constructor <;> decide) _ _).mpr (by decide)

/-- `2 ^ 22` vectors of dimension `2 ^ 10`, all zero. -/
def wideTrain : Dataset where
  dim := 1024
  trainElements := 4194304
  testElements := 0
  topk := 0
  trainData := List.replicate (1024 * 4194304) 0
  testData := []
  neighbors := []
  distances := []

/-- The product wraps around to zero: the file ends after its header, and an array of length zero
is read back. -/
theorem writeBin_wideTrain : wideTrain.Documented ∧ wideTrain.writeBin.length = 16 ∧
    ∃ t, readBin (some wideTrain.writeBin) onePair (fun _ => []) = .ok t ∧ t.trainData = [] ∧
      t ≠ wideTrain := by
  have hdoc : wideTrain.Documented :=
    ⟨by decide, by decide, by decide, by decide, List.length_replicate, rfl, rfl, rfl⟩
  have hfile : wideTrain.writeBin = [0, 4, 0, 0, 0, 0, 64, 0, 0, 0, 0, 0, 0, 0, 0, 0] := by
    have hzero : byteCount wideTrain.dim wideTrain.trainElements = 0 := by decide
    rw [writeBin, hzero, writeHeader_eq]
    rfl
  rw [hfile]
  refine ⟨hdoc, rfl, _, rfl, rfl, fun he => ?_⟩
  have hlen : wideTrain.trainData.length = 0 := he ▸ rfl
  exact absurd (hdoc.trainData.symm.trans hlen) (by decide)

end Dataset

end HnswRvv
