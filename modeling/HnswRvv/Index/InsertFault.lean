import HnswRvv.Index.Runs

/-!
# Insertions that find nobody to link to

`searchBaseLayer` leaves deleted elements out of its answer, and `addPoint` makes up for it only if
the entry point itself is deleted. An insertion therefore takes the last of no neighbours exactly
if the steepest descent towards its vector ends in a region that is deleted as a whole.
-/

namespace HnswRvv.Index

open Framework OrderDual
set_option linter.unusedSectionVars false

variable {V D : Type} [Inhabited V] [LinearOrder D] {P : Platform V D} {s s' : Index V}
  {c : Choices} {x : V} {label : LabelType}

private theorem Inserts.not_throws {op : Op V} {curlevel : Nat} {e : Exn} (h : Inserts s c op x curlevel) :
    ¬Throws s op e := by
  intro hthrows
  have hstored : ∀ {label : LabelType}, s.labelLookup label = none →
      s.curElementCount < s.maxElements → ¬StoreThrows s label e := by
    intro label hnew hroom hst
    cases hst with
    | updateDeleted hlookup _ _ => cases hnew.symm.trans hlookup
    | capacityExceeded _ hfull => exact absurd hroom (not_lt.mpr hfull)
  cases h with
  | addPointLevel hnew hroom =>
    cases hthrows with
    | addPointLevel hst => exact hstored hnew hroom hst
  | addPoint hplain hnew hroom =>
    cases hthrows with
    | addPoint _ hst => exact hstored hnew hroom hst
    | replacementDisabled hallow =>
      rcases hplain with hoff | ⟨hon, -⟩
      · cases hoff
      · cases hallow.symm.trans hon

private theorem runOp_emptyBack_iff (P : Platform V D) {op : Op V} (h : s.WellFormed) (hb : s.Backed)
    (hg : Granted s c op) : (∃ s', runOp P c op s = .error .emptyBack s') ↔ Faults P s c op := by
  obtain ⟨hok, herror⟩ := wp_def.mp (wp_runOp (P := P) op h hb hg)
  constructor
  · rintro ⟨s', hrun⟩
    rcases herror _ s' hrun with ⟨exn, he, -, -⟩ | ⟨-, hfaults⟩
    · cases he
    · exact hfaults
  · intro hfaults
    cases hrun : runOp P c op s with
    | ok r s' => exact absurd hfaults (hok r s' hrun).1.2
    | error e s' =>
      rcases herror e s' hrun with ⟨exn, -, -, hthrows⟩ | ⟨rfl, -⟩
      · obtain ⟨x, curlevel, hins, -⟩ := hfaults
        exact absurd hthrows hins.not_throws
      · exact ⟨s', rfl⟩

/-- A call never takes the last of no neighbours, exactly if every vector it inserts has its
descent end where links of the level still lead to a live element, or finds the entry point
deleted. -/
theorem insertion_finds_neighbour_iff (h : Reachable P (fun _ _ _ => True) s) (op : Op V)
    (hg : Granted s c op) : (∀ s', runOp P c op s ≠ .error .emptyBack s') ↔
      ∀ x curlevel ep start, Inserts s c op x curlevel → s.enterpointNode = some ep →
        DescendsTo P s x curlevel ep start → s.isMarkedDeleted ep = true ∨
          ∃ i, s.LinkReach (min curlevel s.maxlevel.toNat) start i ∧ s.isMarkedDeleted i = false := by
  have hfaults := runOp_emptyBack_iff P h.wellFormed h.backed hg
  rw [← not_exists, hfaults]
  constructor
  · intro hsafe x curlevel ep start hins hep hstart
    by_contra hnone
    rw [not_or, not_exists, Bool.not_eq_true] at hnone
    refine hsafe ⟨x, curlevel, hins, ep, start, hep, hstart, hnone.1, fun i hi => ?_⟩
    by_contra hlive
    exact hnone.2 i ⟨hi, Bool.eq_false_of_not_eq_true hlive⟩
  · rintro hfinds ⟨x, curlevel, hins, ep, start, hep, hstart, hlive, hall⟩
    rcases hfinds x curlevel ep start hins hep hstart with hdeleted | ⟨i, hi, hi'⟩
    · cases hlive.symm.trans hdeleted
    · cases hi'.symm.trans (hall i hi)

private theorem WellFormed.atLevel_of_descendsTo {lo : Nat} {ep start : TableInt} (h : s.WellFormed)
    (hep : s.enterpointNode = some ep) (hstart : DescendsTo P s x lo ep start) :
    s.AtLevel (min lo s.maxlevel.toNat) start := by
  have hlevel := h.entry.level ep hep
  obtain ⟨i, hend, hat⟩ := descentEnd_ok (P := P) (q := x) true h.graph h.cap hep
    (h.entry.lt ep hep) (by omega) lo
  rw [hstart.unique (descentEnd_descendsTo hep hend), min_comm]
  exact hat

/-- Where every list of a deleted element names a live one, every insertion succeeds. -/
theorem insertion_finds_neighbour_points : ∃ s : Index (ℤ × ℤ × ℤ),
    Reachable pointPlatform (fun _ _ _ => True) s ∧
    Granted s (plainChoices 2) (.addPoint (9, 0, 1) 11 false) ∧
    (s.curElementCount = 4 ∧ s.labelLookup 11 = none ∧ s.isMarkedDeleted 2 = true) ∧
    ∀ s', runOp pointPlatform (plainChoices 2) (.addPoint (9, 0, 1) 11 false) s ≠
      .error .emptyBack s' := by
  obtain ⟨s, hreach, ⟨hcount, hvalues⟩, hlists⟩ := exists_sample_reachable (fun s =>
    (s.curElementCount = 4 ∧ s.labelLookup 11 = none ∧ s.isMarkedDeleted 2 = true) ∧
    ∀ i : Nat, i < 4 → ∀ l : Nat, l < s.level i + 1 → ∃ j ∈ i :: s.connections i l,
      s.isMarkedDeleted j = false) (by decide +kernel)
  have hg := granted_of_allocates (s := s) (plainChoices_allocates 2) (.addPoint (9, 0, 1) 11 false)
  refine ⟨s, hreach, hg, ⟨hcount, hvalues⟩,
    (insertion_finds_neighbour_iff hreach _ hg).mpr fun x curlevel ep start _ hep hstart => ?_⟩
  obtain ⟨hlt, hle⟩ := hreach.wellFormed.atLevel_of_descendsTo hep hstart
  rw [hcount] at hlt
  obtain ⟨j, hj, hlive⟩ := hlists start hlt _ (Nat.lt_succ_of_le hle)
  rcases List.mem_cons.mp hj with rfl | hj
  · exact Or.inr ⟨j, Relation.ReflTransGen.refl, hlive⟩
  · exact Or.inr ⟨j, Relation.ReflTransGen.single hj, hlive⟩

/-- Two elements on level 1, far from each other, and four more around the second. All but the
first, which is the entry point, are deleted; the lists around the second are full, so that no link
leads back. The next insertion there has no neighbour. -/
theorem insertion_strands : ∃ s : Index (ℤ × ℤ × ℤ),
    Reachable pointPlatform (fun _ _ _ => True) s ∧ s.labelLookup 6 = none ∧
    s.isMarkedDeleted 0 = false ∧
    ∃ s', runOp pointPlatform (plainChoices 0) (.addPoint (12, 1, 1) 6 false) s =
      .error .emptyBack s' := by
  have hrun : (afterOps pointPlatform
      [(.addPoint (0, 1, 1) 0 false, plainChoices 1), (.addPoint (10, 1, 1) 1 false, plainChoices 1),
        (.addPoint (11, 1, 1) 2 false, plainChoices 0), (.addPoint (10, 2, 1) 3 false, plainChoices 0),
        (.addPoint (10, 1, 2) 4 false, plainChoices 0), (.addPoint (10, 1, 0) 5 false, plainChoices 0),
        (.markDelete 1, plainChoices 0), (.markDelete 2, plainChoices 0),
        (.markDelete 3, plainChoices 0), (.markDelete 4, plainChoices 0),
        (.markDelete 5, plainChoices 0)] (emptyPoints false)).any
      fun s => decide ((s.labelLookup 6, s.isMarkedDeleted 0) = (none, false)) &&
        (failure (runOp pointPlatform (plainChoices 0) (.addPoint (12, 1, 1) 6 false) s)).any
          fun r => decide (r.1 = .emptyBack) := by
    decide +kernel
  obtain ⟨s, hreach, hvalues⟩ := (emptyPoints_reachable (fun _ _ _ => True) false).exists_afterOps
    (by simp [plainChoices_allocates]) ((Option.any_eq_true _ _).mp hrun)
  rw [Bool.and_eq_true, decide_eq_true_eq, Prod.mk.injEq] at hvalues
  obtain ⟨⟨hnew, hlive⟩, hlast⟩ := hvalues
  obtain ⟨⟨e, s'⟩, hfail, he⟩ := (Option.any_eq_true _ _).mp hlast
  obtain rfl : e = .emptyBack := of_decide_eq_true he
  exact ⟨s, hreach, hnew, hlive, s', failure_eq_some.mp hfail⟩

end HnswRvv.Index
