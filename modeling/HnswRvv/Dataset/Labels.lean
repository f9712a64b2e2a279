import HnswRvv.Dataset.GroundTruth
import HnswRvv.Framework.SignificantBits
import HnswRvv.Index.Runs

/-!
# Labels in the dataset file

A neighbour is a `size_t` in the index, a `float` in the file and an `int` when recall is counted.
A `float` has 24 significant bits, so that a label with more of them comes back as another one.
Labels and recall are right for all data exactly as long as there are no more than `2 ^ 24 + 1`
training vectors.
-/

namespace HnswRvv

open Framework GroundTruth
set_option linter.unusedSectionVars false

/-- The conversion of a `size_t` to `float`, to the nearest with ties to even. -/
def floatOfLabel (l : LabelType) : FloatCell := BitVec.ofNat 32 (encodeNat 24 127 (roundBits 24 l))

/-- `static_cast<int>` of a `float`; not defined for infinities and NaNs, nor where the number
without its fraction is not an `int`. -/
def staticCastInt (c : FloatCell) : Option Int :=
  let fields := c.toNat % 2 ^ 31
  let magnitude : Int := truncNat 24 127 fields
  let value := if c.msb then -magnitude else magnitude
  if fields / 2 ^ 23 ≠ 255 ∧ -2 ^ 31 ≤ value ∧ value < 2 ^ 31 then some value else none

section Conversions

variable {l : LabelType}

private theorem encodeNat_lt {n : Nat} (h : n ≤ 2 ^ 31) : encodeNat 24 127 n < 159 * 2 ^ 23 := by
  rcases eq_or_ne n 0 with rfl | hn
  · decide
  · have hexponent := (encodeNat_fields (p := 24) (by decide) 127 hn).1
    have hlog : n.log2 < 32 := (Nat.log2_lt hn).mpr (by omega)
    rw [← Nat.div_lt_iff_lt_mul (by decide)]
    omega

private theorem staticCastInt_floatOfLabel (h : l < 2 ^ 31) : staticCastInt (floatOfLabel l) =
    if roundBits 24 l < 2 ^ 31 then some (roundBits 24 l : Int) else none := by
  have hlt := encodeNat_lt (roundBits_le (p := 24) (by decide) h)
  have hcode : (floatOfLabel l).toNat = encodeNat 24 127 (roundBits 24 l) := by
    rw [floatOfLabel, BitVec.toNat_ofNat, Nat.mod_eq_of_lt (by omega)]
  have hmsb : (floatOfLabel l).msb = false := by
    rw [BitVec.msb_eq_false_iff_two_mul_lt, hcode]
    omega
  have htrunc : truncNat 24 127 (encodeNat 24 127 (roundBits 24 l)) = roundBits 24 l :=
    truncNat_encodeNat (by decide) (by decide) (hasBits_roundBits (by decide) l)
  have hfinite : encodeNat 24 127 (roundBits 24 l) / 2 ^ 23 ≠ 255 :=
    (Nat.div_lt_of_lt_mul (by omega)).ne
  rw [staticCastInt, hcode, Nat.mod_eq_of_lt (by omega), htrunc, hmsb]
  simp only [Bool.false_eq_true, if_false, hfinite, ne_eq, not_false_eq_true, true_and]
  congr 1
  simp only [eq_iff_iff]
  omega

private theorem staticCastInt_floatOfLabel_eq_iff (h : l < 2 ^ 31) :
    staticCastInt (floatOfLabel l) = some (l : Int) ↔ HasBits 24 l := by
  rw [staticCastInt_floatOfLabel h, ← roundBits_eq_self_iff (by decide)]
  constructor
  · intro hsome
    split at hsome
    · exact Int.ofNat_inj.mp (Option.some.inj hsome)
    · exact absurd hsome (by simp)
  · intro hround
    rw [hround, if_pos h]

end Conversions

/-- What an undefined conversion yields is arbitrary. -/
def castInt (undefined : FloatCell → Int) (c : FloatCell) : Int :=
  (staticCastInt c).getD (undefined c)

private theorem castInt_floatOfLabel (undefined : FloatCell → Int) {l : LabelType} (h : l ≤ 2 ^ 24) :
    castInt undefined (floatOfLabel l) = l := by
  rw [castInt, (staticCastInt_floatOfLabel_eq_iff (h.trans_lt (by decide))).mpr
    (hasBits_of_le (by decide) h), Option.getD_some]

variable {D : Type} [LinearOrder D]

def binary32Cells (undefined : FloatCell → Int) (ofDist : D → FloatCell) : FloatCells D where
  ofLabel := floatOfLabel
  toInt := castInt undefined
  ofDist := ofDist
  toInt_ofLabel _ := castInt_floatOfLabel undefined

inductive RecallFailure where
  | index (e : Failure)
  /-- `exit(1)` after "No ground truth data provided" -/
  | noGroundTruth
  deriving DecidableEq, Repr

section Recall

variable (P : Platform FloatVector D) (s : Index FloatVector) (toInt : FloatCell → Int)

/-- `found_labels` -/
def foundLabels (q : FloatVector) (topk : Nat) : Except RecallFailure (List LabelType) :=
  match s.searchKnn P q topk none with
  | .ok result => .ok ((P.answers.drain result).map (·.2))
  | .error e => .error (.index e)

/-- `ground_truth` for query `i`; `neighbors` may be null. -/
def groundTruth (neighbors : Option (List FloatCell)) (topk datasetTopk i : Nat) :
    Except RecallFailure (List Int) :=
  (List.range topk).mapM fun j =>
    match neighbors with
    | none => if topk = 1 then .ok (i : Int) else .error .noGroundTruth
    | some cells => .ok (toInt (cells.getD (i * datasetTopk + j) 0))

/-- `total_correct` of `calculate_recall` -/
def totalCorrect (queryData : List FloatCell) (neighbors : Option (List FloatCell))
    (numQueries dim topk datasetTopk : Nat) : Except RecallFailure Nat :=
  (List.range numQueries).foldlM (fun totalCorrect i => do
    let found ← foundLabels P s (vectorAt queryData dim i) topk
    let truth ← groundTruth toInt neighbors topk datasetTopk i
    return totalCorrect + found.countP (isFound truth)) 0

/-- The quotient is a `float`; its rounding is a parameter. -/
def calculateRecall (quotient : Nat → Int → FloatCell) (queryData : List FloatCell)
    (neighbors : Option (List FloatCell)) (numQueries dim topk datasetTopk : Nat) :
    Except RecallFailure FloatCell := do
  let correct ← totalCorrect P s toInt queryData neighbors numQueries dim topk datasetTopk
  let totalComparisons := BitVec.ofNat 32 numQueries * BitVec.ofNat 32 topk
  return quotient correct totalComparisons.toInt

/-- How many answers are among the nearest neighbours. -/
def exactCorrect (queryData : List FloatCell) (nearest : Nat → List LabelType)
    (numQueries dim topk : Nat) : Except RecallFailure Nat :=
  (List.range numQueries).foldlM (fun correct i => do
    let found ← foundLabels P s (vectorAt queryData dim i) topk
    return correct + found.countP (· ∈ nearest i)) 0

variable {toInt} {topk datasetTopk i : Nat}

private theorem groundTruth_of_labels {cells : List FloatCell} {labels : List LabelType}
    (hlen : labels.length = topk) (h : ∀ j (hj : j < labels.length),
      toInt (cells.getD (i * datasetTopk + j) 0) = labels[j]) :
    groundTruth toInt (some cells) topk datasetTopk i = .ok (labels.map Nat.cast) := by
  have hmap : (List.range topk).map (fun j => toInt (cells.getD (i * datasetTopk + j) 0)) =
      labels.map Nat.cast := by
    apply List.ext_getElem
    · simp [hlen]
    · intro j hj hj'
      simpa using h j (by simpa using hj')
  rw [← hmap]
  exact List.mapM_pure

private theorem isFound_labels {labels : List LabelType} (h : ∀ l ∈ labels, l < 2 ^ 64) :
    isFound (labels.map Nat.cast) = fun l => decide (l ∈ labels) := by
  funext found
  rw [isFound, List.any_map, Bool.eq_iff_iff, List.any_eq_true, decide_eq_true_eq]
  have hword : ∀ l ∈ labels, (BitVec.ofInt 64 (l : Int)).toNat = l := by
    intro l hl
    rw [BitVec.ofInt_natCast, BitVec.toNat_ofNat, Nat.mod_eq_of_lt (h l hl)]
  constructor
  · rintro ⟨l, hl, heq⟩
    rw [Function.comp, hword l hl, beq_iff_eq] at heq
    exact heq ▸ hl
  · intro hl
    exact ⟨found, hl, by rw [Function.comp, hword found hl, beq_self_eq_true]⟩

private theorem totalCorrect_eq_exactCorrect {cells queryData : List FloatCell} {numQueries dim : Nat}
    {nearest : Nat → List LabelType} (hlt : ∀ i < numQueries, ∀ l ∈ nearest i, l < 2 ^ 64)
    (htruth : ∀ i < numQueries, groundTruth toInt (some cells) topk datasetTopk i =
      .ok ((nearest i).map Nat.cast)) :
    totalCorrect P s toInt queryData (some cells) numQueries dim topk datasetTopk =
      exactCorrect P s queryData nearest numQueries dim topk := by
  induction numQueries with
  | zero => rfl
  | succ n ih =>
    have hrest := ih (fun i hi => hlt i (hi.trans n.lt_succ_self))
      (fun i hi => htruth i (hi.trans n.lt_succ_self))
    unfold totalCorrect exactCorrect at hrest ⊢
    rw [List.range_succ, List.foldlM_append, List.foldlM_append, hrest]
    simp only [List.foldlM_cons, List.foldlM_nil, htruth n n.lt_succ_self, bind, Except.bind,
      isFound_labels (hlt n n.lt_succ_self)]

/-- Recall is then the share of the answers that are among the nearest neighbours. -/
theorem calculateRecall_eq {cells queryData : List FloatCell} {numQueries dim : Nat}
    (quotient : Nat → Int → FloatCell) {nearest : Nat → List LabelType}
    (hlt : ∀ i < numQueries, ∀ l ∈ nearest i, l < 2 ^ 64)
    (htruth : ∀ i < numQueries, groundTruth toInt (some cells) topk datasetTopk i =
      .ok ((nearest i).map Nat.cast)) :
    calculateRecall P s toInt quotient queryData (some cells) numQueries dim topk datasetTopk =
      (exactCorrect P s queryData nearest numQueries dim topk).map fun correct =>
        quotient correct (BitVec.ofNat 32 numQueries * BitVec.ofNat 32 topk).toInt := by
  rw [calculateRecall, totalCorrect_eq_exactCorrect P s hlt htruth]
  cases exactCorrect P s queryData nearest numQueries dim topk <;> rfl

end Recall

/-- Arguments of `create_dataset` with data that its `int`s can address. -/
structure DatasetJob (trainElements : Nat) where
  dim : Nat
  testElements : Nat
  topk : Nat
  trainData : List FloatCell
  testData : List FloatCell
  length_trainData : trainData.length = dim * trainElements
  length_testData : testData.length = dim * testElements
  topk_le : topk ≤ trainElements
  dim_lt : dim < 2 ^ 31
  testElements_lt : testElements < 2 ^ 31
  trainSize_lt : dim * trainElements < 2 ^ 31
  testSize_lt : dim * testElements < 2 ^ 31
  rowsSize_lt : topk * testElements < 2 ^ 31

/-- Neighbour `j` of test vector `i`, as the tools read it. -/
def Dataset.storedLabel (d : Dataset) (i j : Nat) : Option Int :=
  staticCastInt (d.neighbors.getD (i * d.topk.toInt.toNat + j) 0)

namespace DatasetJob

variable {trainElements : Nat} (J : DatasetJob trainElements)

/-- The nearest neighbours of test vector `i`, in ascending order. -/
def nearest (P : BruteforcePlatform FloatVector D) (i : Nat) : List (D × LabelType) :=
  rowPairs P J.trainData J.testData J.dim trainElements J.topk i

/-- `d` is read from the file that `create_dataset` has written. -/
def Reread (F : FloatCells D) (P : BruteforcePlatform FloatVector D)
    (block : Memory (BruteforceRecord FloatVector)) (rows : Rows) (old : Dataset)
    (fresh : Nat → List Byte) (d : Dataset) : Prop :=
  ∃ written, createDataset F P J.dim trainElements J.testElements J.topk J.trainData J.testData
      block rows = .ok written ∧ Dataset.readBin (some written.writeBin) old fresh = .ok d

/-- The labels of the nearest neighbours come back, no two neighbours become the same, and both
tools count recall exactly: `check_dataset` finds all its answers, and `calculate_recall` as many of
an index as are among the nearest. -/
structure Faithful (P : BruteforcePlatform FloatVector D) (undefined : FloatCell → Int)
    (ofDist : D → FloatCell) (d : Dataset) : Prop where
  labels : ∀ i < J.testElements, ∀ j (hj : j < (J.nearest P i).length),
    d.storedLabel i j = some ((J.nearest P i)[j].2 : Int)
  distinct : ∀ i < J.testElements, ∀ j < J.topk, ∀ j' < J.topk,
    d.storedLabel i j = d.storedLabel i j' → j = j'
  checked : ∀ topk ≤ J.topk, ∀ block,
    checkDataset (binary32Cells undefined ofDist) P d topk block = .ok (J.testElements * topk)
  exactRecall : ∀ {D' : Type} [LinearOrder D'] (P' : Platform FloatVector D') (s : Index FloatVector),
    ∀ topk ≤ J.topk, totalCorrect P' s (castInt undefined) d.testData (some d.neighbors)
        J.testElements J.dim topk J.topk =
      exactCorrect P' s J.testData (fun i => ((J.nearest P i).take topk).map (·.2))
        J.testElements J.dim topk

variable {J} {F : FloatCells D} {P : BruteforcePlatform FloatVector D}
  {block : Memory (BruteforceRecord FloatVector)} {rows : Rows} {old : Dataset}
  {fresh : Nat → List Byte} {d : Dataset} {i j : Nat}

private theorem length_nearest (i : Nat) : (J.nearest P i).length = J.topk := length_rowPairs J.topk_le i

private theorem nodup_nearest (i : Nat) : ((J.nearest P i).map (·.2)).Nodup := by
  have hsub : ((J.nearest P i).map (·.2)).Sublist _ := (List.take_sublist _ _).map _
  apply hsub.nodup
  rw [((sorted_perm _).map _).nodup_iff, List.map_map]
  simpa [trainPair, Function.comp_def] using List.nodup_range

private theorem label_lt (hj : j < (J.nearest P i).length) : (J.nearest P i)[j].2 < trainElements :=
  label_of_mem_rowPairs (List.getElem_mem hj)

private theorem exists_reread (hint : trainElements < 2 ^ 31) (J : DatasetJob trainElements)
    (F : FloatCells D) (P : BruteforcePlatform FloatVector D)
    (block : Memory (BruteforceRecord FloatVector)) (rows : Rows) (old : Dataset)
    (fresh : Nat → List Byte) : ∃ rows', J.Reread F P block rows old fresh
        (datasetOf J.dim trainElements J.testElements J.topk J.trainData J.testData rows') ∧
      rows'.neighbors.slice (J.testElements * J.topk) =
        flatRows (fun t => F.ofLabel t.2) (J.nearest P) J.testElements := by
  obtain ⟨rows', hcreate, hn, -⟩ := createDataset_rows (F := F) (P := P) J.trainData J.dim
    J.testData J.testElements J.topk_le hint block rows
  exact ⟨rows', ⟨_, hcreate, readBin_datasetOf J.length_trainData J.length_testData J.dim_lt hint
    J.testElements_lt (J.topk_le.trans_lt hint) J.trainSize_lt J.testSize_lt J.rowsSize_lt old fresh⟩,
    hn⟩

private theorem Reread.eq_datasetOf (hint : trainElements < 2 ^ 31) (h : J.Reread F P block rows old fresh d) :
    ∃ rows', d = datasetOf J.dim trainElements J.testElements J.topk J.trainData J.testData rows' ∧
      d.neighbors = flatRows (fun t => F.ofLabel t.2) (J.nearest P) J.testElements := by
  obtain ⟨rows', ⟨written, hcreate, hread⟩, hn⟩ := exists_reread hint J F P block rows old fresh
  obtain ⟨written', hcreate', hread'⟩ := h
  rw [hcreate] at hcreate'
  cases hcreate'
  rw [hread] at hread'
  cases hread'
  exact ⟨rows', rfl, hn⟩

private theorem Reread.topk_eq (hint : trainElements < 2 ^ 31) (h : J.Reread F P block rows old fresh d) :
    d.topk.toInt.toNat = J.topk := by
  obtain ⟨rows', rfl, -⟩ := h.eq_datasetOf hint
  simp [datasetOf, toNat_ofNat_int (J.topk_le.trans_lt hint)]

theorem Reread.cell (hint : trainElements < 2 ^ 31) (h : J.Reread F P block rows old fresh d)
    (hi : i < J.testElements) (hj : j < (J.nearest P i).length) :
    d.neighbors.getD (i * J.topk + j) 0 = F.ofLabel (J.nearest P i)[j].2 := by
  obtain ⟨rows', -, hn⟩ := h.eq_datasetOf hint
  rw [hn, getD_flatRows length_nearest hi hj]

private theorem Reread.storedLabel_eq_iff {undefined : FloatCell → Int} {ofDist : D → FloatCell}
    (hint : trainElements < 2 ^ 31)
    (h : J.Reread (binary32Cells undefined ofDist) P block rows old fresh d)
    (hi : i < J.testElements) (hj : j < (J.nearest P i).length) :
    d.storedLabel i j = some ((J.nearest P i)[j].2 : Int) ↔ HasBits 24 (J.nearest P i)[j].2 := by
  rw [Dataset.storedLabel, h.topk_eq hint, h.cell hint hi hj]
  exact staticCastInt_floatOfLabel_eq_iff ((label_lt hj).trans hint)

private theorem Reread.faithful {undefined : FloatCell → Int} {ofDist : D → FloatCell}
    (h : J.Reread (binary32Cells undefined ofDist) P block rows old fresh d)
    (hlabels : trainElements ≤ 2 ^ 24 + 1) : J.Faithful P undefined ofDist d := by
  have hint : trainElements < 2 ^ 31 := hlabels.trans_lt (by decide)
  have hle : ∀ {i j} (hj : j < (J.nearest P i).length), (J.nearest P i)[j].2 ≤ 2 ^ 24 :=
    fun hj => Nat.lt_succ_iff.mp ((label_lt hj).trans_le hlabels)
  have hstored : ∀ i < J.testElements, ∀ j (hj : j < (J.nearest P i).length),
      d.storedLabel i j = some ((J.nearest P i)[j].2 : Int) := fun i hi j hj =>
    (h.storedLabel_eq_iff hint hi hj).mpr (hasBits_of_le (by decide) (hle hj))
  obtain ⟨rows', rfl, hn⟩ := h.eq_datasetOf hint
  constructor
  · exact hstored
  · intro i hi j hj j' hj' heq
    rw [← length_nearest (P := P) i] at hj hj'
    rw [hstored i hi j hj, hstored i hi j' hj'] at heq
    have hlabel : (J.nearest P i)[j].2 = (J.nearest P i)[j'].2 :=
      Int.ofNat_inj.mp (Option.some.inj heq)
    have hinj := @List.Nodup.getElem_inj_iff _ _ (nodup_nearest (P := P) i) j (by simpa using hj) j'
      (by simpa using hj')
    exact hinj.mp (by simpa using hlabel)
  · intro topk htopk block'
    exact checkDataset_datasetOf htopk J.topk_le hlabels J.dim_lt J.testElements_lt hn block'
  · intro D' _ P' s topk htopk
    apply totalCorrect_eq_exactCorrect
    · intro i hi l hl
      obtain ⟨t, ht, rfl⟩ := List.mem_map.mp hl
      exact (label_of_mem_rowPairs (List.mem_of_mem_take ht)).trans (hint.trans (by decide))
    · intro i hi
      apply groundTruth_of_labels
      · rw [List.length_map, List.length_take, length_nearest, Nat.min_eq_left htopk]
      · intro j hj
        rw [List.length_map, List.length_take, Nat.lt_min] at hj
        rw [h.cell hint hi hj.2, List.getElem_map, List.getElem_take]
        exact castInt_floatOfLabel undefined (hle hj.2)

/-- One test vector without coordinates, and all training vectors as its neighbours. -/
def everyLabel (trainElements : Nat) (hint : trainElements < 2 ^ 31) : DatasetJob trainElements where
  dim := 0
  testElements := 1
  topk := trainElements
  trainData := []
  testData := []
  length_trainData := (Nat.zero_mul _).symm
  length_testData := rfl
  topk_le := le_rfl
  dim_lt := by decide
  testElements_lt := by decide
  trainSize_lt := by omega
  testSize_lt := by decide
  rowsSize_lt := by omega

private theorem exists_everyLabel (hint : trainElements < 2 ^ 31) {l : LabelType} (hl : l < trainElements) :
    ∃ j, ∃ hj : j < ((everyLabel trainElements hint).nearest P 0).length,
      ((everyLabel trainElements hint).nearest P 0)[j].2 = l := by
  have hmem : trainPair P [] 0 (vectorAt [] 0 0) l ∈ (everyLabel trainElements hint).nearest P 0 := by
    rw [nearest, rowPairs, nearestPairs, everyLabel, List.take_of_length_le, (sorted_perm _).mem_iff]
    · exact List.mem_map_of_mem (List.mem_range.mpr hl)
    · rw [(sorted_perm _).length_eq, List.length_map, List.length_range]
  obtain ⟨j, hj, heq⟩ := List.mem_iff_getElem.mp hmem
  exact ⟨j, hj, by rw [heq, trainPair]⟩

/-- Through the file a label comes back exactly if it has at most 24 significant bits. With up to
`2 ^ 24 + 1` training vectors, and with no other number of them, all datasets are faithful. -/
theorem faithful_iff (hint : trainElements < 2 ^ 31) :
    (∀ l < trainElements, ∀ {D : Type} [LinearOrder D] (P : BruteforcePlatform FloatVector D)
      undefined ofDist (J : DatasetJob trainElements) block rows old fresh,
      ∃ d, J.Reread (binary32Cells undefined ofDist) P block rows old fresh d ∧
        ∀ i < J.testElements, ∀ j (hj : j < (J.nearest P i).length), (J.nearest P i)[j].2 = l →
          (d.storedLabel i j = some (l : Int) ↔ HasBits 24 l)) ∧
    ((∀ {D : Type} [LinearOrder D] (P : BruteforcePlatform FloatVector D) undefined ofDist
      (J : DatasetJob trainElements) block rows old fresh,
      ∃ d, J.Reread (binary32Cells undefined ofDist) P block rows old fresh d ∧
        J.Faithful P undefined ofDist d) ↔ trainElements ≤ 2 ^ 24 + 1) := by
  refine ⟨?_, ?_, ?_⟩
  · intro l _ D _ P undefined ofDist J block rows old fresh
    obtain ⟨rows', h, -⟩ := exists_reread hint J (binary32Cells undefined ofDist) P block rows old fresh
    refine ⟨_, h, fun i hi j hj hl => ?_⟩
    rw [← hl]
    exact h.storedLabel_eq_iff hint hi hj
  · intro hall
    apply (forall_hasBits_iff (p := 24) (by decide)).mp
    intro l hl
    obtain ⟨d, h, hd⟩ := hall lineScan (fun _ => 0) (BitVec.ofNat 32) (everyLabel trainElements hint)
      default ⟨default, default⟩ ⟨0, 0, 0, 0, [], [], [], []⟩ fun _ => []
    obtain ⟨j, hj, hjl⟩ := exists_everyLabel (P := lineScan) hint hl
    rw [← hjl, ← h.storedLabel_eq_iff hint (Nat.lt_succ_self 0) hj]
    exact hd.labels 0 (Nat.lt_succ_self 0) j hj
  · intro hlabels D _ P undefined ofDist J block rows old fresh
    obtain ⟨rows', h, -⟩ := exists_reread hint J (binary32Cells undefined ofDist) P block rows old fresh
    exact ⟨_, h, h.faithful hlabels⟩

/-- Three points on a line, two test points. -/
def line : DatasetJob 3 where
  dim := 1
  testElements := 2
  topk := 2
  trainData := [5, 9, 7]
  testData := [6, 9]
  length_trainData := rfl
  length_testData := rfl
  topk_le := by decide
  dim_lt := by decide
  testElements_lt := by decide
  trainSize_lt := by decide
  testSize_lt := by decide
  rowsSize_lt := by decide

theorem faithful_iff_line : 3 < 2 ^ 31 ∧ ∃ d, line.Reread
    (binary32Cells (fun _ => 0) (BitVec.ofNat 32)) lineScan default ⟨default, default⟩
    ⟨0, 0, 0, 0, [], [], [], []⟩ (fun _ => []) d ∧
      line.Faithful lineScan (fun _ => 0) (BitVec.ofNat 32) d :=
  ⟨by decide, (faithful_iff (by decide)).2.mpr (by decide) lineScan _ _ line _ _ _ _⟩

/-- The last training vector is the test vector, and no other is. -/
def last (n : Nat) (hn : n + 1 < 2 ^ 31) : DatasetJob (n + 1) where
  dim := 1
  testElements := 1
  topk := 1
  trainData := List.replicate n 0 ++ [1]
  testData := [1]
  length_trainData := by simp
  length_testData := rfl
  topk_le := by omega
  dim_lt := by decide
  testElements_lt := by decide
  trainSize_lt := by omega
  testSize_lt := by decide
  rowsSize_lt := by decide

private theorem vectorAt_last {n i : Nat} (hi : i < n) :
    vectorAt (List.replicate n 0 ++ [1]) 1 i = [0] := by
  obtain ⟨k, rfl⟩ := Nat.exists_eq_add_of_lt hi
  rw [vectorAt, Nat.mul_one, List.drop_append_of_le_length (by simp; omega), List.drop_replicate,
    show i + k + 1 - i = k + 1 by omega, List.replicate_succ]
  rfl

private theorem nearest_last (n : Nat) (hn : n + 1 < 2 ^ 31) : (last n hn).nearest lineScan 0 = [(0, n)] := by
  have hothers : (List.range n).map (trainPair lineScan (List.replicate n 0 ++ [1]) 1 [1]) =
      (List.range n).map fun i => (1, i) := by
    apply List.map_congr_left
    intro i hi
    rw [trainPair, vectorAt_last (List.mem_range.mp hi)]
    rfl
  have hself : trainPair lineScan (List.replicate n 0 ++ [1]) 1 [1] n = (0, n) := by
    rw [trainPair, show vectorAt (List.replicate n 0 ++ [1]) 1 n = [1] by simp [vectorAt]]
    rfl
  have hsorted : (0, n) :: (List.range n).map (fun i => (1, i)) = sorted LexLess
      ((List.range (n + 1)).map (trainPair lineScan (List.replicate n 0 ++ [1]) 1 [1])) := by
    apply lexLess_strictTotal.eq_sorted
    · rw [List.pairwise_cons, List.pairwise_map]
      refine ⟨fun t ht => ?_, List.pairwise_lt_range.imp fun hlt => ?_⟩
      · obtain ⟨i, -, rfl⟩ := List.mem_map.mp ht
        simp [LexLess]
      · simp [LexLess, hlt.le]
    · rw [List.range_succ, List.map_append, hothers, List.map_singleton, hself]
      exact (List.perm_append_singleton _ _).symm
  rw [nearest, rowPairs, nearestPairs]
  change (sorted LexLess ((List.range (n + 1)).map
    (trainPair lineScan (List.replicate n 0 ++ [1]) 1 [1]))).take 1 = _
  rw [← hsorted]
  rfl

/-- Absolute differences of the first coordinates. -/
def floatPlatform : Platform FloatVector Nat := Index.listPlatform lineScan.fstdistfunc 1000000

/-- With 16777218 training vectors the nearest neighbour 16777217 comes back as 16777216. An index
that finds it is counted as wrong. -/
theorem last_label_lost : ∃ d,
    (last 16777217 (by decide)).Reread (binary32Cells (fun _ => 0) (BitVec.ofNat 32)) lineScan default
      ⟨default, default⟩ ⟨0, 0, 0, 0, [], [], [], []⟩ (fun _ => []) d ∧
    (last 16777217 (by decide)).nearest lineScan 0 = [(0, 16777217)] ∧
    d.storedLabel 0 0 = some 16777216 ∧
    ∃ s, (Index.construct floatPlatform 4 10 2 2 false true true).toOption.bind (Index.afterOps
        floatPlatform [(.addPoint [1] 16777217 false, Index.plainChoices 0)]) = some s ∧
      totalCorrect floatPlatform s (castInt fun _ => 0) d.testData (some d.neighbors) 1 1 1 1 = .ok 0 ∧
      exactCorrect floatPlatform s [1] (fun _ => [16777217]) 1 1 1 = .ok 1 := by
  have hint : 16777217 + 1 < 2 ^ 31 := by decide
  have hrun : ((Index.construct floatPlatform 4 10 2 2 false true true).toOption.bind (Index.afterOps
      floatPlatform [(.addPoint [1] 16777217 false, Index.plainChoices 0)])).any (fun s => decide
        (totalCorrect floatPlatform s (castInt fun _ => 0) [1] (some [floatOfLabel 16777217]) 1 1 1 1 =
            .ok 0 ∧
          exactCorrect floatPlatform s [1] (fun _ => [16777217]) 1 1 1 = .ok 1)) = true := by
    decide +kernel
  obtain ⟨s, hs, hcounts⟩ := (Option.any_eq_true _ _).mp hrun
  obtain ⟨rows', h, hn⟩ := exists_reread hint (last 16777217 hint)
    (binary32Cells (fun _ => 0) (BitVec.ofNat 32)) lineScan default ⟨default, default⟩
    ⟨0, 0, 0, 0, [], [], [], []⟩ fun _ => []
  have hnearest := nearest_last 16777217 hint
  have hcells : rows'.neighbors.slice ((last 16777217 hint).testElements * (last 16777217 hint).topk) =
      [floatOfLabel 16777217] := by
    rw [hn, flatRows, show (last 16777217 hint).testElements = 1 from rfl]
    simp [List.range_succ, hnearest, binary32Cells]
  refine ⟨_, h, hnearest, ?_, s, hs, ?_⟩
  · rw [Dataset.storedLabel, h.topk_eq hint, datasetOf, hcells]
    change staticCastInt (floatOfLabel 16777217) = some 16777216
    decide
  · rw [datasetOf, hcells]
    exact of_decide_eq_true hcounts

end DatasetJob

end HnswRvv
