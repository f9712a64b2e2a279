import HnswRvv.Bruteforce.Nearest
import HnswRvv.Dataset.Format

/-!
# Ground truth and its checker

`create_dataset` builds a brute-force index over the training vectors and stores, for every test
vector, its nearest neighbours in ascending order in one flat array; labels are kept as `float`s.
`check_dataset` builds the same index from the file and counts how many of its answers are among the
first stored neighbours. The two tools may use different numbers of neighbours.
-/

namespace HnswRvv

open Framework BruteforceSearch
set_option linter.unusedSectionVars false

/-- The conversions between labels, distances and the cells of a `float` array. Labels up to
`2 ^ 24` are represented exactly. -/
structure FloatCells (D : Type) where
  ofLabel : LabelType → FloatCell
  toInt : FloatCell → Int
  ofDist : D → FloatCell
  toInt_ofLabel : ∀ n, n ≤ 2 ^ 24 → toInt (ofLabel n) = n

abbrev FloatVector := List FloatCell

inductive ToolFailure where
  | index (e : BruteforceFailure)
  | emptyTop
  | topkTooLarge
  deriving DecidableEq, Repr

namespace GroundTruth

variable {D : Type} [LinearOrder D] (F : FloatCells D) (P : BruteforcePlatform FloatVector D)

/-- `data + i * dim`, as the vector that is copied from there. -/
def vectorAt (data : List FloatCell) (dim i : Nat) : FloatVector := (data.drop (i * dim)).take dim

/-- Additions in a given order, each vector under its own number. -/
def insertAll (trainData : List FloatCell) (dim : Nat) (order : List Nat) :
    BruteforceM FloatVector Unit :=
  order.forM fun i => BruteforceSearch.addPoint (vectorAt trainData dim i) i

def buildIndex (trainData : List FloatCell) (dim trainElements : Nat)
    (block : Memory (BruteforceRecord FloatVector)) :
    Except ToolFailure (BruteforceSearch FloatVector) :=
  match insertAll trainData dim (List.range trainElements) (built trainElements block) with
  | .ok _ s => .ok s
  | .error e _ => .error (.index e)

def query (s : BruteforceSearch FloatVector) (q : FloatVector) (k : Nat) :
    Except ToolFailure P.answers.Carrier :=
  match BruteforceSearch.searchKnn P s q k none with
  | .ok result => .ok result
  | .error e => .error (.index e)

/-- `neighbors` and `distances`. -/
structure Rows where
  neighbors : Memory FloatCell
  distances : Memory FloatCell

/-- The inner loop of `create_dataset`, from cell `base + j - 1` down to `base`. -/
def fillRow (base : Nat) : Nat → P.answers.Carrier → Rows → Except ToolFailure Rows
  | 0, _, rows => .ok rows
  | j + 1, result, rows =>
    match P.answers.top result with
    | none => .error .emptyTop
    | some t => fillRow base j (P.answers.pop result)
        { neighbors := rows.neighbors.write (base + j) (F.ofLabel t.2)
          distances := rows.distances.write (base + j) (F.ofDist t.1) }

def fillRows (s : BruteforceSearch FloatVector) (testData : List FloatCell)
    (dim testElements topk : Nat) (rows : Rows) : Except ToolFailure Rows :=
  (List.range testElements).foldlM (fun rows i => do
    let result ← query P s (vectorAt testData dim i) topk
    fillRow F P (i * topk) topk result rows) rows

/-- The arguments of `write_bin`. -/
def datasetOf (dim trainElements testElements topk : Nat) (trainData testData : List FloatCell)
    (rows : Rows) : Dataset where
  dim := BitVec.ofNat 32 dim
  trainElements := BitVec.ofNat 32 trainElements
  testElements := BitVec.ofNat 32 testElements
  topk := BitVec.ofNat 32 topk
  trainData := trainData
  testData := testData
  neighbors := rows.neighbors.slice (testElements * topk)
  distances := rows.distances.slice (testElements * topk)

/-- The main part of `create_dataset`; `rows` and `block` are what the allocations hold. -/
def createDataset (dim trainElements testElements topk : Nat) (trainData testData : List FloatCell)
    (block : Memory (BruteforceRecord FloatVector)) (rows : Rows) : Except ToolFailure Dataset := do
  let s ← buildIndex trainData dim trainElements block
  let rows ← fillRows F P s testData dim testElements topk rows
  return datasetOf dim trainElements testElements topk trainData testData rows

/-- `std::find` over `ground_truth`: an `int` is compared with a label as a `size_t`. -/
def isFound (groundTruth : List Int) (found : LabelType) : Bool :=
  groundTruth.any fun g => (BitVec.ofInt 64 g).toNat == found

/-- The correct answers for test vector `i`. -/
def checkRow (d : Dataset) (topk : Nat) (s : BruteforceSearch FloatVector) (i : Nat) :
    Except ToolFailure Nat := do
  let result ← query P s (vectorAt d.testData d.dim.toInt.toNat i) topk
  let groundTruth := (List.range topk).map fun j =>
    F.toInt (d.neighbors.getD (i * d.topk.toInt.toNat + j) 0)
  let foundLabels := (P.answers.drain result).map (·.2)
  return foundLabels.countP (isFound groundTruth)

/-- `total_correct` of `check_dataset`. -/
def checkDataset (d : Dataset) (topk : Nat) (block : Memory (BruteforceRecord FloatVector)) :
    Except ToolFailure Nat := do
  if d.topk.toInt < topk then throw .topkTooLarge
  let s ← buildIndex d.trainData d.dim.toInt.toNat d.trainElements.toInt.toNat block
  (List.range d.testElements.toInt.toNat).foldlM (fun totalCorrect i => do
    let correct ← checkRow F P d topk s i
    return totalCorrect + correct) 0

/-- The pair of training vector `l` for a query. -/
def trainPair (trainData : List FloatCell) (dim : Nat) (q : FloatVector) (l : Nat) :
    D × LabelType :=
  (P.fstdistfunc q (vectorAt trainData dim l), l)

/-- The `k` lexicographically smallest pairs over all training vectors, in ascending order. -/
def nearestPairs (trainData : List FloatCell) (dim trainElements : Nat) (q : FloatVector) (k : Nat) :
    List (D × LabelType) :=
  (sorted LexLess ((List.range trainElements).map (trainPair P trainData dim q))).take k

variable {F P} {trainData : List FloatCell} {dim k : Nat}

variable (trainData dim) in
private theorem insertAll_slots {order : List Nat} {s : BruteforceSearch FloatVector}
    (hnodup : order.Nodup) (hnew : ∀ l ∈ order, s.dictExternalToInternal l = none)
    (hroom : s.curElementCount + order.length ≤ s.maxElements) (hint : s.maxElements < 2 ^ 31) :
    ∃ s', insertAll trainData dim order s = .ok () s' ∧
      s'.curElementCount = s.curElementCount + order.length ∧
      (∀ i, i < s.curElementCount → s'.data.read i = s.data.read i) ∧
      ∀ j (hj : j < order.length), s'.data.read (s.curElementCount + j) =
        ⟨vectorAt trainData dim order[j], order[j]⟩ := by
  induction order generalizing s with
  | nil => exact ⟨s, rfl, rfl, fun _ _ => rfl, nofun⟩
  | cons l order ih =>
    obtain ⟨hl, hnodup⟩ := List.nodup_cons.mp hnodup
    rw [List.length_cons] at hroom
    have hadd := addPoint_new (x := vectorAt trainData dim l) (hnew l List.mem_cons_self)
      (by omega) (by omega)
    obtain ⟨s', hrun, hcount, hold, hslots⟩ := ih (s := { s.setEntry l s.curElementCount with
        data := s.data.write s.curElementCount ⟨vectorAt trainData dim l, l⟩
        curElementCount := s.curElementCount + 1 }) hnodup
      (fun l' hl' => by
        have hne : l' ≠ l := fun he => hl (he ▸ hl')
        simpa [setEntry, hne] using hnew l' (List.mem_cons_of_mem l hl'))
      (by simp [setEntry]; omega) hint
    dsimp only at hcount hold hslots
    refine ⟨s', ?_, ?_, fun i hi => ?_, fun j hj => ?_⟩
    · change EStateM.bind (addPoint _ l) (fun _ => insertAll trainData dim order) s = _
      rw [EStateM.bind, hadd]
      exact hrun
    · rw [hcount, List.length_cons]
      omega
    · rw [hold i (by omega)]
      exact s.data.read_write_of_ne _ hi.ne
    · cases j with
      | zero =>
        rw [Nat.add_zero, hold s.curElementCount (Nat.lt_succ_self _)]
        exact s.data.read_write_self _ _
      | succ j =>
        have hslot := hslots j (Nat.lt_of_succ_lt_succ hj)
        rw [show s.curElementCount + (j + 1) = s.curElementCount + 1 + j by omega, hslot]
        rfl

variable (trainData dim) in
/-- An index over all training vectors answers with the smallest pairs, in whatever order the
vectors were added. -/
theorem insertAll_query {n : Nat} {order : List Nat} (hperm : order.Perm (List.range n))
    (hint : n < 2 ^ 31) (hk : k ≤ n) (block : Memory (BruteforceRecord FloatVector)) :
    ∃ s, insertAll trainData dim order (built n block) = .ok () s ∧ ∀ q, ∃ result,
      query P s q k = .ok result ∧
      (P.answers.drain result).reverse = nearestPairs P trainData dim n q k := by
  have hlen : order.length = n := by rw [hperm.length_eq, List.length_range]
  obtain ⟨s, hrun, hcount, -, hslots⟩ := insertAll_slots trainData dim (s := built n block)
    (hperm.nodup_iff.mpr List.nodup_range) (fun _ _ => rfl)
    (by simp [built, hlen]) hint
  have hn : s.curElementCount = n := by rw [hcount, hlen]; simp [built]
  refine ⟨s, hrun, fun q => ?_⟩
  obtain ⟨result, hres, hsmall⟩ := searchKnn_holdsSmallest (P := P) (s := s) (q := q) (k := k)
    (by omega) (by omega)
  refine ⟨result, by rw [query, hres], ?_⟩
  have hpairs : pairs P s q s.curElementCount = order.map (trainPair P trainData dim q) := by
    apply List.ext_getElem
    · simp [pairs, hn, hlen]
    · intro j hj hj'
      have hjo : j < order.length := by simpa using hj'
      have hslot := hslots j hjo
      rw [show (built n block).curElementCount + j = j from Nat.zero_add j] at hslot
      simp [pairs, pairAt, trainPair, hslot]
  rw [hsmall.drain_reverse lexLess_strictTotal, hpairs, nearestPairs,
    lexLess_strictTotal.sorted_congr (hperm.map _)]

private theorem length_nearestPairs {n : Nat} (hk : k ≤ n) (q : FloatVector) :
    (nearestPairs P trainData dim n q k).length = k := by
  rw [nearestPairs, List.length_take, (sorted_perm _).length_eq, List.length_map, List.length_range,
    Nat.min_eq_left hk]

def Rows.read (rows : Rows) (c : Nat) : FloatCell × FloatCell :=
  (rows.neighbors.read c, rows.distances.read c)

variable (F) in
def cells (t : D × LabelType) : FloatCell × FloatCell := (F.ofLabel t.2, F.ofDist t.1)

private theorem fillRow_read (base : Nat) {n : Nat} {result : P.answers.Carrier} (rows : Rows)
    (hsize : P.answers.size result = n) :
    ∃ rows', fillRow F P base n result rows = .ok rows' ∧
      (∀ c, c < base ∨ base + n ≤ c → rows'.read c = rows.read c) ∧
      ∀ j (hj : j < (P.answers.drain result).reverse.length),
        rows'.read (base + j) = cells F (P.answers.drain result).reverse[j] := by
  induction n generalizing result rows with
  | zero =>
    refine ⟨rows, rfl, fun _ _ => rfl, fun j hj => ?_⟩
    rw [List.length_reverse, P.answers.length_drain, hsize] at hj
    exact absurd hj (Nat.not_lt_zero j)
  | succ n ih =>
    obtain ⟨t, ht⟩ := P.answers.exists_top (q := result)
      (by intro h0; simp [PriorityQueue.size, h0] at hsize)
    have hpop := P.answers.size_pop ht
    obtain ⟨rows', hfill, hframe, hrow⟩ := ih ⟨rows.neighbors.write (base + n) (F.ofLabel t.2),
      rows.distances.write (base + n) (F.ofDist t.1)⟩
      (show P.answers.size (P.answers.pop result) = n by omega)
    have hlen : (P.answers.drain (P.answers.pop result)).reverse.length = n := by
      rw [List.length_reverse, P.answers.length_drain]
      omega
    refine ⟨rows', by rw [fillRow, ht]; exact hfill, fun c hc => ?_, fun j hj => ?_⟩
    · rw [hframe c (by omega)]
      simp only [Rows.read, Memory.read_write_of_ne _ _ (show c ≠ base + n by omega)]
    · have hrev : (P.answers.drain result).reverse =
          (P.answers.drain (P.answers.pop result)).reverse ++ [t] := by
        rw [P.answers.drain_of_top_some ht, List.reverse_cons]
      simp only [hrev, List.length_append, List.length_singleton, hlen] at hj ⊢
      rcases Nat.lt_or_ge j n with hlt | hge
      · rw [List.getElem_append_left (by omega)]
        exact hrow j (by omega)
      · obtain rfl : j = n := by omega
        rw [List.getElem_append_right (by omega), hframe (base + j) (by omega)]
        simp [Rows.read, cells]

/-- The cells of consecutive rows, behind each other. -/
def flatRows (f : D × LabelType → FloatCell) (nearest : Nat → List (D × LabelType))
    (testElements : Nat) : List FloatCell :=
  (List.range testElements).flatMap fun i => (nearest i).map f

private theorem slice_row {m : Memory FloatCell} {base : Nat} {f : D × LabelType → FloatCell}
    {l : List (D × LabelType)} (h : ∀ j (hj : j < l.length), m.read (base + j) = f l[j]) :
    m.slice (base + l.length) = m.slice base ++ l.map f := by
  rw [Memory.slice_add]
  congr 1
  apply List.ext_getElem
  · simp
  · intro j hj hj'
    simpa using h j (by simpa using hj')

private theorem fillRows_slice {s : BruteforceSearch FloatVector} (nearest : Nat → List (D × LabelType))
    {testData : List FloatCell} (testElements : Nat) {topk : Nat} (hlen : ∀ i, (nearest i).length = topk)
    (hquery : ∀ i, ∃ result, query P s (vectorAt testData dim i) topk = .ok result ∧
      (P.answers.drain result).reverse = nearest i) (rows : Rows) :
    ∃ rows', fillRows F P s testData dim testElements topk rows = .ok rows' ∧
      rows'.neighbors.slice (testElements * topk) =
        flatRows (fun t => F.ofLabel t.2) nearest testElements ∧
      rows'.distances.slice (testElements * topk) =
        flatRows (fun t => F.ofDist t.1) nearest testElements := by
  induction testElements with
  | zero => exact ⟨rows, rfl, by simp [flatRows], by simp [flatRows]⟩
  | succ m ih =>
    obtain ⟨rows₁, hfill₁, hn₁, hd₁⟩ := ih
    obtain ⟨result, hres, hdrain⟩ := hquery m
    have hsize : P.answers.size result = topk := by
      rw [← P.answers.length_drain, ← List.length_reverse, hdrain, hlen]
    obtain ⟨rows₂, hfill₂, hframe, hrow⟩ := fillRow_read (F := F) (m * topk) rows₁ hsize
    simp only [hdrain] at hrow
    -- the earlier rows lie below the base of this one
    have hbelow : ∀ c ∈ List.range (m * topk), rows₂.read c = rows₁.read c := fun c hc =>
      hframe c (.inl (List.mem_range.mp hc))
    have hsucc : (m + 1) * topk = m * topk + (nearest m).length := by rw [hlen, Nat.succ_mul]
    refine ⟨rows₂, ?_, ?_, ?_⟩
    · unfold fillRows at hfill₁ ⊢
      rw [List.range_succ, List.foldlM_append, hfill₁]
      simp only [bind, Except.bind, List.foldlM_cons, List.foldlM_nil, hres, hfill₂]
      rfl
    · have hold : rows₂.neighbors.slice (m * topk) = rows₁.neighbors.slice (m * topk) :=
        List.map_congr_left fun c hc => congrArg Prod.fst (hbelow c hc)
      rw [hsucc, slice_row (f := fun t => F.ofLabel t.2) fun j hj => congrArg Prod.fst (hrow j hj),
        hold, hn₁]
      simp [flatRows, List.range_succ]
    · have hold : rows₂.distances.slice (m * topk) = rows₁.distances.slice (m * topk) :=
        List.map_congr_left fun c hc => congrArg Prod.snd (hbelow c hc)
      rw [hsucc, slice_row (f := fun t => F.ofDist t.1) fun j hj => congrArg Prod.snd (hrow j hj),
        hold, hd₁]
      simp [flatRows, List.range_succ]

theorem getD_flatRows {f : D × LabelType → FloatCell} {nearest : Nat → List (D × LabelType)}
    {topk testElements i j : Nat} (hlen : ∀ i, (nearest i).length = topk) (hi : i < testElements)
    (hj : j < (nearest i).length) :
    (flatRows f nearest testElements).getD (i * topk + j) 0 = f (nearest i)[j] := by
  have hrow : ∀ i, ((nearest i).map f).length = topk := fun i => by rw [List.length_map, hlen]
  obtain ⟨post, hpost⟩ := drop_records hrow (l := List.range testElements) (i := i)
    (by rw [List.length_range]; exact hi)
  rw [List.getElem_range] at hpost
  rw [List.getD_eq_getElem?_getD, ← List.getElem?_drop, flatRows, hpost,
    List.getElem?_append_left (by simpa using hj)]
  simp [hj]

section Tools

variable (P) in
/-- What row `i` should hold. -/
def rowPairs (trainData testData : List FloatCell) (dim trainElements topk i : Nat) :
    List (D × LabelType) :=
  nearestPairs P trainData dim trainElements (vectorAt testData dim i) topk

variable {testData : List FloatCell} {trainElements testElements topk topk' i : Nat}

theorem length_rowPairs (h : topk ≤ trainElements) (i : Nat) :
    (rowPairs P trainData testData dim trainElements topk i).length = topk :=
  length_nearestPairs h _

private theorem rowPairs_take (h : topk' ≤ topk) :
    rowPairs P trainData testData dim trainElements topk' i =
      (rowPairs P trainData testData dim trainElements topk i).take topk' := by
  rw [rowPairs, rowPairs, nearestPairs, nearestPairs, List.take_take, Nat.min_eq_left h]

theorem label_of_mem_rowPairs {t : D × LabelType}
    (h : t ∈ rowPairs P trainData testData dim trainElements topk i) : t.2 < trainElements := by
  have hmem := (sorted_perm _).mem_iff.mp (List.mem_of_mem_take h)
  obtain ⟨l, hl, rfl⟩ := List.mem_map.mp hmem
  exact List.mem_range.mp hl

variable (trainData testData dim testElements) in
private theorem fillRows_insertAll (htopk : topk ≤ trainElements) (hint : trainElements < 2 ^ 31)
    {order : List Nat} (hperm : order.Perm (List.range trainElements))
    (block : Memory (BruteforceRecord FloatVector)) (rows : Rows) :
    ∃ s rows', insertAll trainData dim order (built trainElements block) = .ok () s ∧
      fillRows F P s testData dim testElements topk rows = .ok rows' ∧
      rows'.neighbors.slice (testElements * topk) = flatRows (fun t => F.ofLabel t.2)
        (rowPairs P trainData testData dim trainElements topk) testElements ∧
      rows'.distances.slice (testElements * topk) = flatRows (fun t => F.ofDist t.1)
        (rowPairs P trainData testData dim trainElements topk) testElements := by
  obtain ⟨s, hs, hquery⟩ := insertAll_query (P := P) trainData dim hperm hint htopk block
  obtain ⟨rows', hfill, hn, hd⟩ := fillRows_slice (F := F)
    (rowPairs P trainData testData dim trainElements topk) testElements (length_rowPairs htopk)
    (fun i => hquery _) rows
  exact ⟨s, rows', hs, hfill, hn, hd⟩

private theorem checkRow_eq {d : Dataset} {s : BruteforceSearch FloatVector} (hi : i < testElements)
    (htopk' : topk' ≤ topk) (htopk : topk ≤ trainElements) (hlabels : trainElements ≤ 2 ^ 24 + 1)
    (hdim : d.dim.toInt.toNat = dim) (hd : d.topk.toInt.toNat = topk) (htest : d.testData = testData)
    (hneighbors : d.neighbors = flatRows (fun t => F.ofLabel t.2)
      (rowPairs P trainData testData dim trainElements topk) testElements)
    (hquery : ∀ q, ∃ result, query P s q topk' = .ok result ∧
      (P.answers.drain result).reverse = nearestPairs P trainData dim trainElements q topk') :
    checkRow F P d topk' s i = .ok topk' := by
  obtain ⟨result, hres, hdrain⟩ := hquery (vectorAt testData dim i)
  have hlen : (P.answers.drain result).length = topk' := by
    rw [← List.length_reverse, hdrain, length_nearestPairs (htopk'.trans htopk)]
  have hall : ((P.answers.drain result).map (·.2)).countP (isFound ((List.range topk').map fun j =>
      F.toInt (d.neighbors.getD (i * topk + j) 0))) = ((P.answers.drain result).map (·.2)).length := by
    apply List.countP_eq_length.mpr
    intro l hl
    obtain ⟨t, ht, rfl⟩ := List.mem_map.mp hl
    have hmem : t ∈ rowPairs P trainData testData dim trainElements topk' i := by
      rw [rowPairs, ← hdrain]
      exact List.mem_reverse.mpr ht
    have hlt := label_of_mem_rowPairs hmem
    rw [rowPairs_take htopk', List.mem_iff_getElem] at hmem
    obtain ⟨j, hj, hjt⟩ := hmem
    rw [List.length_take, Nat.lt_min] at hj
    rw [List.getElem_take] at hjt
    have hcell : d.neighbors.getD (i * topk + j) 0 = F.ofLabel t.2 := by
      rw [hneighbors, getD_flatRows (length_rowPairs htopk) hi hj.2, hjt]
    rw [isFound, List.any_eq_true]
    refine ⟨t.2, List.mem_map.mpr ⟨j, List.mem_range.mpr hj.1, ?_⟩, ?_⟩
    · rw [hcell, F.toInt_ofLabel t.2 (Nat.lt_succ_iff.mp (hlt.trans_le hlabels))]
    · rw [beq_iff_eq, BitVec.ofInt_natCast, BitVec.toNat_ofNat]
      exact Nat.mod_eq_of_lt (hlt.trans_le (hlabels.trans (by norm_num)))
  rw [List.length_map, hlen] at hall
  simp only [checkRow, hdim, hd, htest, hres, bind, Except.bind, pure, Except.pure, hall]

variable (topk') in
private theorem checkDataset_eq {d : Dataset} {s : BruteforceSearch FloatVector}
    (block : Memory (BruteforceRecord FloatVector)) (htopk' : (topk' : Int) ≤ d.topk.toInt)
    (hbuild : buildIndex d.trainData d.dim.toInt.toNat d.trainElements.toInt.toNat block = .ok s)
    (hrow : ∀ i, i < d.testElements.toInt.toNat → checkRow F P d topk' s i = .ok topk') :
    checkDataset F P d topk' block = .ok (d.testElements.toInt.toNat * topk') := by
  have hfold : ∀ m, m ≤ d.testElements.toInt.toNat →
      (List.range m).foldlM (fun totalCorrect i => do
        let correct ← checkRow F P d topk' s i
        return totalCorrect + correct) 0 = .ok (m * topk') := by
    intro m hm
    induction m with
    | zero => rw [Nat.zero_mul]; rfl
    | succ m ih =>
      rw [List.range_succ, List.foldlM_append, ih (by omega), Nat.succ_mul]
      simp only [bind, Except.bind, List.foldlM_cons, List.foldlM_nil, hrow m hm]
      rfl
  rw [checkDataset, if_neg htopk'.not_gt, hbuild]
  exact hfold _ le_rfl

theorem toNat_ofNat_int {n : Nat} (h : n < 2 ^ 31) :
    (BitVec.ofNat 32 n).toNat = n ∧ (BitVec.ofNat 32 n).toInt = n := by
  have hnat : (BitVec.ofNat 32 n).toNat = n := by
    rw [BitVec.toNat_ofNat, Nat.mod_eq_of_lt (by omega)]
  exact ⟨hnat, by rw [BitVec.toInt_eq_toNat_of_lt (by omega), hnat]⟩

theorem readBin_datasetOf {rows : Rows} (htrainData : trainData.length = dim * trainElements)
    (htestData : testData.length = dim * testElements) (hdim : dim < 2 ^ 31)
    (htrain : trainElements < 2 ^ 31) (htest : testElements < 2 ^ 31) (htopk : topk < 2 ^ 31)
    (htrainSize : dim * trainElements < 2 ^ 31) (htestSize : dim * testElements < 2 ^ 31)
    (hrowsSize : topk * testElements < 2 ^ 31) (old : Dataset) (fresh : Nat → List Byte) :
    Dataset.readBin
      (some (datasetOf dim trainElements testElements topk trainData testData rows).writeBin)
      old fresh = .ok (datasetOf dim trainElements testElements topk trainData testData rows) := by
  have hfit : (datasetOf dim trainElements testElements topk trainData testData rows).ProductsFit := by
    simp only [Dataset.ProductsFit, datasetOf, (toNat_ofNat_int hdim).1, (toNat_ofNat_int htrain).1,
      (toNat_ofNat_int htest).1, (toNat_ofNat_int htopk).1]
    exact ⟨htrainSize, htestSize, hrowsSize⟩
  have hdoc : (datasetOf dim trainElements testElements topk trainData testData rows).Documented := by
    constructor <;> simp only [datasetOf, (toNat_ofNat_int hdim), (toNat_ofNat_int htrain),
      (toNat_ofNat_int htest), (toNat_ofNat_int htopk), Memory.length_slice, htrainData, htestData,
      Nat.mul_comm topk, Nat.cast_nonneg]
  rw [Dataset.writeBin_of_fit hdoc hfit]
  exact Dataset.readBin_fileBytes hdoc hfit old fresh

variable (trainData testData dim testElements) in
theorem createDataset_rows (htopk : topk ≤ trainElements) (hint : trainElements < 2 ^ 31)
    (block : Memory (BruteforceRecord FloatVector)) (rows : Rows) :
    ∃ rows', createDataset F P dim trainElements testElements topk trainData testData block rows =
        .ok (datasetOf dim trainElements testElements topk trainData testData rows') ∧
      rows'.neighbors.slice (testElements * topk) = flatRows (fun t => F.ofLabel t.2)
        (rowPairs P trainData testData dim trainElements topk) testElements ∧
      rows'.distances.slice (testElements * topk) = flatRows (fun t => F.ofDist t.1)
        (rowPairs P trainData testData dim trainElements topk) testElements := by
  obtain ⟨s, rows', hs, hfill, hn, hd⟩ := fillRows_insertAll (F := F) (P := P) trainData dim
    testData testElements htopk hint (List.Perm.refl _) block rows
  have hbuild : buildIndex trainData dim trainElements block = .ok s := by rw [buildIndex, hs]
  refine ⟨rows', ?_, hn, hd⟩
  simp only [createDataset, hbuild, hfill, bind, Except.bind]
  rfl

theorem checkDataset_datasetOf {rows : Rows} (htopk' : topk' ≤ topk) (htopk : topk ≤ trainElements)
    (hlabels : trainElements ≤ 2 ^ 24 + 1) (hdim : dim < 2 ^ 31) (htest : testElements < 2 ^ 31)
    (hneighbors : rows.neighbors.slice (testElements * topk) = flatRows (fun t => F.ofLabel t.2)
      (rowPairs P trainData testData dim trainElements topk) testElements)
    (block : Memory (BruteforceRecord FloatVector)) :
    checkDataset F P (datasetOf dim trainElements testElements topk trainData testData rows) topk'
      block = .ok (testElements * topk') := by
  have hint : trainElements < 2 ^ 31 := by omega
  have htopk31 : topk < 2 ^ 31 := by omega
  obtain ⟨s, hs, hquery⟩ := insertAll_query (P := P) trainData dim (List.Perm.refl _)
    hint (htopk'.trans htopk) block
  have hbuild : buildIndex trainData dim trainElements block = .ok s := by rw [buildIndex, hs]
  have htestInt : (BitVec.ofNat 32 testElements).toInt.toNat = testElements := by
    rw [(toNat_ofNat_int htest).2, Int.toNat_natCast]
  have hcheck := checkDataset_eq (F := F) (P := P) topk' block (s := s)
    (d := datasetOf dim trainElements testElements topk trainData testData rows)
    (by simp [datasetOf, toNat_ofNat_int htopk31, htopk'])
    (by simp [datasetOf, toNat_ofNat_int hdim, toNat_ofNat_int hint, hbuild])
    (fun i hi => checkRow_eq (by rwa [datasetOf, htestInt] at hi) htopk' htopk hlabels
      (by simp [datasetOf, toNat_ofNat_int hdim]) (by simp [datasetOf, toNat_ofNat_int htopk31])
      rfl hneighbors hquery)
  rwa [datasetOf, htestInt] at hcheck

/-- `create_dataset` stores the nearest pairs of every test vector in ascending order, whatever the
order of insertion, and `check_dataset` finds every answer of the file it reads back correct. -/
theorem createDataset_checkDataset (htrainData : trainData.length = dim * trainElements)
    (htestData : testData.length = dim * testElements) (htopk : topk ≤ trainElements)
    (hlabels : trainElements ≤ 2 ^ 24) (hdim : dim < 2 ^ 31) (htest : testElements < 2 ^ 31)
    (htrainSize : dim * trainElements < 2 ^ 31) (htestSize : dim * testElements < 2 ^ 31)
    (hrowsSize : topk * testElements < 2 ^ 31) (F : FloatCells D)
    (P : BruteforcePlatform FloatVector D) (block : Memory (BruteforceRecord FloatVector))
    (rows : Rows) :
    ∃ d, createDataset F P dim trainElements testElements topk trainData testData block rows = .ok d ∧
      d.neighbors = flatRows (fun t => F.ofLabel t.2)
        (rowPairs P trainData testData dim trainElements topk) testElements ∧
      d.distances = flatRows (fun t => F.ofDist t.1)
        (rowPairs P trainData testData dim trainElements topk) testElements ∧
      (∀ order : List Nat, order.Perm (List.range trainElements) →
        ∃ s rows', insertAll trainData dim order (built trainElements block) = .ok () s ∧
          fillRows F P s testData dim testElements topk rows = .ok rows' ∧
          rows'.neighbors.slice (testElements * topk) = d.neighbors ∧
          rows'.distances.slice (testElements * topk) = d.distances) ∧
      ∀ topk', topk' ≤ topk → ∀ old fresh block', ∃ d', Dataset.readBin (some d.writeBin) old fresh =
        .ok d' ∧ checkDataset F P d' topk' block' = .ok (testElements * topk') := by
  have hint : trainElements < 2 ^ 31 := by omega
  obtain ⟨rows', hcreate, hn, hd⟩ := createDataset_rows (F := F) (P := P) trainData dim testData
    testElements htopk hint block rows
  refine ⟨_, hcreate, hn, hd, ?_, ?_⟩
  · intro order hperm
    obtain ⟨s₁, rows₁, hs₁, hfill₁, hn₁, hd₁⟩ := fillRows_insertAll (F := F) (P := P)
      trainData dim testData testElements htopk hint hperm block rows
    exact ⟨s₁, rows₁, hs₁, hfill₁, hn₁.trans hn.symm, hd₁.trans hd.symm⟩
  · intro topk' htopk' old fresh block'
    exact ⟨_, readBin_datasetOf htrainData htestData hdim hint htest (by omega) htrainSize htestSize
      hrowsSize old fresh, checkDataset_datasetOf htopk' htopk (by omega) hdim htest hn block'⟩

/-- Cells that hold a number as its bits, and absolute differences of the first coordinates. -/
def plainCells : FloatCells Nat where
  ofLabel := BitVec.ofNat 32
  toInt := BitVec.toInt
  ofDist := BitVec.ofNat 32
  toInt_ofLabel n hn := (toNat_ofNat_int (hn.trans_lt (by norm_num))).2

def lineScan : BruteforcePlatform FloatVector Nat where
  fstdistfunc a b := Nat.dist (a.headD 0).toNat (b.headD 0).toNat
  maxDist := 1000000
  answers := listQueue LexLess lexLess_asymm not_lexLess_trans

/-- Three points on a line and two test points, one of them with a tie. -/
theorem createDataset_checkDataset_line :
    ∃ d, createDataset plainCells lineScan 1 3 2 2 [5, 9, 7] [6, 9] default ⟨default, default⟩ = .ok d ∧
      d.neighbors = [0, 2, 1, 2] ∧ d.distances = [1, 1, 0, 2] ∧
      ∃ d', Dataset.readBin (some d.writeBin) d (fun _ => []) = .ok d' ∧
        checkDataset plainCells lineScan d' 1 default = .ok 2 := by
  obtain ⟨d, hd, -, -, -, hcheck⟩ := @createDataset_checkDataset Nat _ [5, 9, 7] 1 [6, 9] 3 2 2
    rfl rfl (by decide) (by decide) (by decide) (by decide) (by decide) (by decide) (by decide)
    plainCells lineScan default ⟨default, default⟩
  have hrows : (createDataset plainCells lineScan 1 3 2 2 [5, 9, 7] [6, 9] default
      ⟨default, default⟩).map (fun d => (d.neighbors, d.distances)) =
      .ok ([0, 2, 1, 2], [1, 1, 0, 2]) := by decide +kernel
  rw [hd] at hrows
  have hpair := Except.ok.inj hrows
  exact ⟨d, hd, congrArg Prod.fst hpair, congrArg Prod.snd hpair, hcheck 1 (by decide) d _ default⟩

end Tools

end GroundTruth

end HnswRvv
