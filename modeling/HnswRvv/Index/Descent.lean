import HnswRvv.Index.Runs

/-!
# The greedy descent

The loop over the upper levels that a search, an insertion and a repair begin with. On each level
it ends at an element that none of its neighbours on the level undercuts. To say which lists it
reads, the loop is written once more with a log of them.
-/

namespace HnswRvv.Index

open Framework OrderDual
set_option linter.unusedSectionVars false

variable {V D : Type} [Inhabited V] [LinearOrder D]

section Log

variable (P : Platform V D) (s : Index V) (q : V) (checked : Bool)

/-- `greedyLevel` with the elements whose lists it reads. -/
def greedyLevelLog (level : Nat) :
    Nat → D × TableInt → List TableInt × Except Failure (D × TableInt)
  | 0, _ => ([], .error .unfinished)
  | fuel + 1, cur =>
    match greedyScan P s q checked (s.connections cur.2 level) cur false with
    | .error e => ([cur.2], .error e)
    | .ok (next, changed) =>
      if changed then
        let (reads, result) := greedyLevelLog level fuel next
        (cur.2 :: reads, result)
      else ([cur.2], .ok next)

/-- `descend` with the levels and elements whose lists it reads. -/
def descendLog : List Nat → D × TableInt →
    List (Nat × TableInt) × Except Failure (D × TableInt)
  | [], cur => ([], .ok cur)
  | level :: rest, cur =>
    let (reads, result) := greedyLevelLog P s q checked level s.curElementCount cur
    match result with
    | .error e => (reads.map (level, ·), .error e)
    | .ok cur =>
      let (more, result) := descendLog rest cur
      (reads.map (level, ·) ++ more, result)

private theorem greedyLevelLog_result (level fuel : Nat) (cur : D × TableInt) :
    (greedyLevelLog P s q checked level fuel cur).2 = greedyLevel P s q checked level fuel cur := by
  induction fuel generalizing cur with
  | zero => rfl
  | succ fuel ih =>
    rw [greedyLevelLog, greedyLevel]
    cases greedyScan P s q checked (s.connections cur.2 level) cur false with
    | error e => rfl
    | ok scanned =>
      obtain ⟨next, changed⟩ := scanned
      cases changed with
      | false => rfl
      | true => exact ih next

private theorem descendLog_result (levels : List Nat) (cur : D × TableInt) :
    (descendLog P s q checked levels cur).2 = descend P s q checked levels cur := by
  induction levels generalizing cur with
  | nil => rfl
  | cons level levels ih =>
    simp only [descendLog, descend, greedyLevelLog_result]
    cases greedyLevel P s q checked level s.curElementCount cur with
    | error e => rfl
    | ok next => exact ih next

end Log

variable {P : Platform V D} {s : Index V} {q : V} {checked : Bool} {l : Nat}

private theorem greedyLevelLog_atLevel (checked : Bool) (hg : s.GraphInv)
    (hcap : s.curElementCount ≤ s.maxElements) (fuel : Nat) {cur : D × TableInt} (hcur : WalkAt P s q l cur) :
    ∀ i ∈ (greedyLevelLog P s q checked l fuel cur).1, s.AtLevel l i := by
  induction fuel generalizing cur with
  | zero => exact fun _ hi => absurd hi List.not_mem_nil
  | succ fuel ih =>
    have hlinks := (hg cur.2 l hcur.1).valid
    obtain ⟨next, changed, hscan, hnext, -⟩ := greedyScan_ok checked hcap
      (s.connections cur.2 l) (fun j hj => (hlinks j hj).1) hcur false
    rw [greedyLevelLog, hscan]
    intro i hi
    cases changed with
    | false =>
      obtain rfl := List.mem_singleton.mp hi
      exact hcur.1
    | true =>
      rcases List.mem_cons.mp hi with rfl | hi
      · exact hcur.1
      · exact ih hnext i hi

private theorem descendLog_atLevel (hg : s.GraphInv) (hcap : s.curElementCount ≤ s.maxElements) {hi : Nat}
    (lo : Nat) {cur : D × TableInt} (hcur : WalkAt P s q hi cur) :
    ∀ r ∈ (descendLog P s q checked (levelsDown hi lo) cur).1, s.AtLevel r.1 r.2 := by
  induction hi generalizing cur with
  | zero =>
    rw [levelsDown_of_le (Nat.zero_le lo)]
    exact fun _ hr => absurd hr List.not_mem_nil
  | succ hi ih =>
    rcases Nat.lt_or_ge lo (hi + 1) with hlt | hge
    · obtain ⟨next, hlevel, hnext⟩ := greedyLevel_ok checked hg hcap s.curElementCount hcur
        (card_nearer_lt hcur)
      have hreads := greedyLevelLog_atLevel checked hg hcap s.curElementCount hcur
      rw [← greedyLevelLog_result] at hlevel
      rw [levelsDown_of_lt hlt, Nat.add_sub_cancel]
      simp only [descendLog, hlevel]
      intro r hr
      rcases List.mem_append.mp hr with hr | hr
      · obtain ⟨i, hi', rfl⟩ := List.mem_map.mp hr
        exact hreads i hi'
      · exact ih (hnext.mono (Nat.le_succ hi)) r hr
    · rw [levelsDown_of_le hge]
      exact fun _ hr => absurd hr List.not_mem_nil

private theorem descend_append (levels levels' : List Nat) (cur : D × TableInt) :
    descend P s q checked (levels ++ levels') cur =
      (descend P s q checked levels cur).bind (descend P s q checked levels') := by
  induction levels generalizing cur with
  | nil => rfl
  | cons level levels ih =>
    rw [List.cons_append, descend, descend]
    cases greedyLevel P s q checked level s.curElementCount cur with
    | error e => rfl
    | ok next => exact ih next

private theorem levelsDown_concat {hi l : Nat} (hl : 0 < l) (hle : l ≤ hi) :
    levelsDown hi (l - 1) = levelsDown hi l ++ [l] := by
  rw [levelsDown, levelsDown, show hi - (l - 1) = (hi - l) + 1 by omega, Nat.sub_add_cancel hl,
    List.range'_succ, List.reverse_cons]

/-- A level ends no farther away than it was entered, at an element no neighbour undercuts. -/
theorem greedyLevel_localMinimum (checked : Bool) (hg : s.GraphInv)
    (hcap : s.curElementCount ≤ s.maxElements) {cur : D × TableInt} (hcur : WalkAt P s q l cur) :
    ∃ left, greedyLevel P s q checked l s.curElementCount cur = .ok left ∧ WalkAt P s q l left ∧
      left.1 ≤ cur.1 ∧
      ∀ j ∈ s.connections left.2 l, left.1 ≤ P.fstdistfunc q (s.getDataByInternalId j) := by
  obtain ⟨left, hlevel, hleft⟩ := greedyLevel_ok checked hg hcap s.curElementCount hcur
    (card_nearer_lt hcur)
  obtain ⟨-, hwalk, hleast⟩ := greedyLevel_steepestEnd checked hcur.2 hlevel
  have hle := dist_le_of_walk hwalk
  refine ⟨left, hlevel, hleft, ?_, fun j hj => hleft.2 ▸ hleast j hj⟩
  rw [hleft.2, hcur.2]
  exact hle

/-- From an element of the highest level, the loop over the levels `hi, …, lo + 1` ends. It leaves
every level at a local minimum of the level, no farther away than it entered the level, and reads
no list of a level that the list's element does not have. -/
theorem descend_localMinima (h : s.WellFormed) (q : V) (checked : Bool) (hi lo : Nat)
    (start : TableInt) (hstart : start < s.curElementCount) (hlevel : lo < hi → hi ≤ s.level start) :
    (∃ last, descend P s q checked (levelsDown hi lo)
      (P.fstdistfunc q (s.getDataByInternalId start), start) = .ok last) ∧
    (∀ l, lo < l → l ≤ hi → ∃ entered left,
      descend P s q checked (levelsDown hi l)
        (P.fstdistfunc q (s.getDataByInternalId start), start) = .ok entered ∧
      greedyLevel P s q checked l s.curElementCount entered = .ok left ∧
      descend P s q checked (levelsDown hi (l - 1))
        (P.fstdistfunc q (s.getDataByInternalId start), start) = .ok left ∧
      s.AtLevel l left.2 ∧ left.1 = P.fstdistfunc q (s.getDataByInternalId left.2) ∧
      left.1 ≤ entered.1 ∧
      ∀ j ∈ s.connections left.2 l, left.1 ≤ P.fstdistfunc q (s.getDataByInternalId j)) ∧
    (descendLog P s q checked (levelsDown hi lo)
      (P.fstdistfunc q (s.getDataByInternalId start), start)).2 =
      descend P s q checked (levelsDown hi lo)
        (P.fstdistfunc q (s.getDataByInternalId start), start) ∧
    ∀ r ∈ (descendLog P s q checked (levelsDown hi lo)
      (P.fstdistfunc q (s.getDataByInternalId start), start)).1, r.1 ≤ s.level r.2 := by
  rcases Nat.lt_or_ge lo hi with hlt | hge
  · have hwalk : WalkAt P s q hi (P.fstdistfunc q (s.getDataByInternalId start), start) :=
      walkAt_element ⟨hstart, hlevel hlt⟩
    refine ⟨?_, fun l hlo hle => ?_, descendLog_result P s q checked _ _, fun r hr => ?_⟩
    · obtain ⟨last, hlast, -⟩ := descend_ok checked h.graph h.cap lo hwalk
      exact ⟨last, hlast⟩
    · obtain ⟨entered, hentered, hwalk'⟩ := descend_ok checked h.graph h.cap l hwalk
      rw [min_eq_right hle] at hwalk'
      obtain ⟨left, hleft, hat, hdist, hmin⟩ :=
        greedyLevel_localMinimum checked h.graph h.cap hwalk'
      refine ⟨entered, left, hentered, hleft, ?_, hat.1, hat.2, hdist, hmin⟩
      rw [levelsDown_concat (Nat.zero_lt_of_lt hlo) hle, descend_append, hentered]
      change descend P s q checked [l] entered = .ok left
      rw [descend, hleft]
      rfl
    · exact (descendLog_atLevel h.graph h.cap lo hwalk r hr).2
  · rw [levelsDown_of_le hge]
    exact ⟨⟨_, rfl⟩, fun l hlo hle => absurd (hlo.trans_le hle) (not_lt.mpr hge), rfl,
      fun r hr => absurd hr List.not_mem_nil⟩

/-- The descent of a query through level 1 of three points, from the entry point. -/
theorem descend_localMinima_points : ∃ s : Index (ℤ × ℤ × ℤ),
    s.curElementCount = 3 ∧ s.level 0 = 1 ∧
    (∃ last, descend pointPlatform s (8, 0, 0) true (levelsDown 1 0) (64, 0) = .ok last) ∧
    ∀ r ∈ (descendLog pointPlatform s (8, 0, 0) true (levelsDown 1 0) (64, 0)).1,
      r.1 ≤ s.level r.2 := by
  have hrun : ∃ s, afterOps pointPlatform
      [(.addPoint (0, 0, 0) 7 false, plainChoices 1), (.addPoint (5, 0, 0) 8 false, plainChoices 0),
        (.addPoint (9, 0, 0) 9 false, plainChoices 1)] (emptyPoints false) = some s ∧
      (s.curElementCount, s.level 0, s.getDataByInternalId 0) = (3, 1, 0, 0, 0) :=
    Option.map_eq_some_iff.mp (by decide +kernel)
  obtain ⟨s, hs, hfields⟩ := hrun
  simp only [Prod.mk.injEq] at hfields
  obtain ⟨hcount, hlevel, hdata⟩ := hfields
  have hreach := (emptyPoints_reachable (fun _ _ _ => True) false).afterOps
    (by simp [plainChoices_allocates]) hs
  have hdist : pointPlatform.fstdistfunc (8, 0, 0) (s.getDataByInternalId 0) = 64 := by
    rw [hdata]
    decide
  have hmin := descend_localMinima (P := pointPlatform) hreach.wellFormed (8, 0, 0) true 1 0 0
    (by rw [hcount]; decide) (fun _ => hlevel.ge)
  rw [hdist] at hmin
  exact ⟨s, hcount, hlevel, hmin.1, hmin.2.2.2⟩

end HnswRvv.Index
