import HnswRvv.Bindings.PyIndex
import HnswRvv.Concurrent.Solo
import HnswRvv.Index.Query

/-!
# Adding the rows of an array

`add_items` of the Python module. The first row ever is added by the calling thread, the others by
the workers of `ParallelFor`, each of which calls `addPoint` while the others do. The scratch vectors
of the workers do not overlap and are local values here.
-/

namespace HnswRvv.Bindings

open Framework Concurrent OrderDual
set_option linter.unusedSectionVars false

section Rows

variable {V D T : Type} [Inhabited V] [LinearOrder D] [DecidableEq T]

def rowRequest (c : Nat → Choices) (vector : Nat → V) (label : Nat → LabelType) (row : Nat) :
    Request V := .add (c row) (vector row) (label row)

/-- What threads that add rows between `a` and `b` make of an index. -/
structure Grown (vector : Nat → V) (label : Nat → LabelType) (a b : Nat) (s s' : Index V) : Prop where
  clean : Clean s'
  maxElements : s'.maxElements = s.maxElements
  holds : ∀ row, a ≤ row → row < b → ∀ entry, s'.view.entries (label row) = some entry →
    entry = (vector row, false)
  kept : ∀ l, (∀ row, a ≤ row → row < b → label row ≠ l) →
    s'.view.entries l = s.view.entries l

/-- The rows from `a` to `b` have labels of their own that the index does not know. -/
structure Fresh (label : Nat → LabelType) (a b : Nat) (s : Index V) : Prop where
  unknown : ∀ row, a ≤ row → row < b → s.labelLookup (label row) = none
  injective : ∀ row row', a ≤ row → row < b → a ≤ row' → row' < b → label row = label row' →
    row = row'

variable {P : Platform V D} {fuel a b m : Nat} {c : Nat → Choices} {vector : Nat → V}
  {label : Nat → LabelType} {s s' : Index V} {ids : T → List Nat} {t : T}

private theorem addedLabels_rows (rows : List Nat) :
    addedLabels (rows.map (rowRequest c vector label)) = rows.map label := by
  induction rows with
  | nil => rfl
  | cons row rows ih => exact congrArg (label row :: ·) ih

private theorem serial_rows (P : Platform V D) (fuel : Nat) (c : Nat → Choices) (vector : Nat → V)
    (label : Nat → LabelType) : Serial
    (fun row (t : T) => addPoint P t fuel (c row) (vector row) (label row) false) []
    fun t rows => serve P t fuel (rows.map (rowRequest c vector label)) where
  nil _ := rfl
  cons _ _ _ := rfl

private theorem Handout.sum_length [Fintype T] (h : Handout a m ids) : ∑ t, (ids t).length = m - a := by
  have hunion : (Finset.univ.biUnion fun t => (ids t).toFinset) = Finset.Ico a m := by
    ext id
    rw [Finset.mem_biUnion, Finset.mem_Ico, ← h.mem id]
    simp
  rw [← Nat.card_Ico, ← hunion, Finset.card_biUnion]
  · refine Finset.sum_congr rfl fun t _ => ?_
    exact (List.toFinset_card_of_nodup ((h.increasing t).imp Nat.ne_of_lt)).symm
  · refine fun t _ u _ hne => Finset.disjoint_left.mpr fun id ht hu => ?_
    exact hne (h.disjoint t u id (List.mem_toFinset.mp ht) (List.mem_toFinset.mp hu))

section Dealt

variable (hdeal : Handout a m ids) (hm : m ≤ max a b) (hfresh : Fresh label a b s)
include hdeal hm

theorem Handout.inside {row : Nat} (hrow : row ∈ ids t) : a ≤ row ∧ row < b := by
  have hin := (hdeal.mem row).mp ⟨t, hrow⟩
  omega

include hfresh

private theorem onlyNew_rows : OnlyNew s fun t => (ids t).map (rowRequest c vector label) where
  fresh t l hl := by
    rw [addedLabels_rows] at hl
    obtain ⟨row, hrow, rfl⟩ := List.mem_map.mp hl
    obtain ⟨hlo, hhi⟩ := hdeal.inside hm hrow
    exact hfresh.unknown row hlo hhi
  nodup t := by
    rw [addedLabels_rows]
    refine List.Nodup.map_on (fun row hrow row' hrow' he => ?_)
      ((hdeal.increasing t).imp Nat.ne_of_lt)
    obtain ⟨hlo, hhi⟩ := hdeal.inside hm hrow
    obtain ⟨hlo', hhi'⟩ := hdeal.inside hm hrow'
    exact hfresh.injective row row' hlo hhi hlo' hhi' he
  disjoint t u l ht hu := by
    rw [addedLabels_rows] at ht hu
    obtain ⟨row, hrow, rfl⟩ := List.mem_map.mp ht
    obtain ⟨row', hrow', he⟩ := List.mem_map.mp hu
    obtain ⟨hlo, hhi⟩ := hdeal.inside hm hrow
    obtain ⟨hlo', hhi'⟩ := hdeal.inside hm hrow'
    obtain rfl := hfresh.injective row' row hlo' hhi' hlo hhi he
    exact hdeal.disjoint t u row' hrow hrow'

end Dealt

structure Supplied (fuel a b : Nat) (c : Nat → Choices) (s : Index V) : Prop where
  clean : Clean s
  malloc : ∀ row, (c row).malloc = true
  rounds : s.maxElements ≤ fuel
  vectors : s.curElementCount + (b - a) < fuel

private theorem provided_rows [Fintype T] (hsup : Supplied fuel a b c s) (hdeal : Handout a m ids)
    (hm : m ≤ max a b) : Provided s (fun t => (ids t).map (rowRequest c vector label)) fuel where
  clean := hsup.clean
  malloc t c' x l hmem := by
    obtain ⟨row, -, he⟩ := List.mem_map.mp hmem
    cases he
    exact hsup.malloc row
  rounds := hsup.rounds
  vectors := by
    have hload : load (fun t => (ids t).map (rowRequest c vector label)) = m - a := by
      simp only [load, List.length_map, hdeal.sum_length]
    have := hsup.vectors
    rw [hload]
    omega

section Finished

variable [Fintype T] [Nonempty T] (hsup : Supplied fuel a b c s) (hfresh : Fresh label a b s)
  (hdeal : Handout a m ids) (hm : m ≤ max a b)
  {q : Pool T (Shared V T) (Except Failure (List (LabelType × V)))}
  (hrun : Pool.Runs (threads P fuel s fun t => (ids t).map (rowRequest c vector label)) q)
  (hdone : q.Finished)
include hsup hfresh hdeal hm hrun hdone

/-- Whether or not all rows fit in, those that the index has are right, and nothing else changes. -/
theorem grown_rows : Grown vector label a b s q.shared.index := by
  have hnew : OnlyNew s fun t => (ids t).map (rowRequest c vector label) :=
    onlyNew_rows hdeal hm hfresh
  obtain ⟨γ, hinv, hγ, hpost⟩ := finished_inv (provided_rows hsup hdeal hm) hrun hdone
  have hnone : ∀ l, (∀ row, a ≤ row → row < b → label row ≠ l) →
      ∀ t, l ∉ addedLabels ((ids t).map (rowRequest c vector label)) := by
    intro l hl t ht
    rw [addedLabels_rows] at ht
    obtain ⟨row, hrow, he⟩ := List.mem_map.mp ht
    obtain ⟨hlo, hhi⟩ := hdeal.inside hm hrow
    exact hl row hlo hhi he
  refine ⟨hinv.clean hγ hnew, ?_, fun row hlo hhi entry hentry => ?_,
    fun l hl => hinv.view_kept hsup.clean hγ (hnone l hl)⟩
  · obtain ⟨t⟩ := ‹Nonempty T›
    obtain ⟨r, hr⟩ := hdone t
    have hd := hpost t r hr
    cases r with
    | ok out => exact maxElements_of_settings hd.2.settings
    | error e =>
      rcases hd.2 with ⟨-, hset, -⟩ | ⟨-, before, l, after, hreqs, -⟩
      · exact maxElements_of_settings hset
      · have hl : .get l ∈ (ids t).map (rowRequest c vector label) := by
          rw [show (ids t).map (rowRequest c vector label) = before ++ .get l :: after from hreqs]
          exact List.mem_append_right before List.mem_cons_self
        obtain ⟨row, -, he⟩ := List.mem_map.mp hl
        cases he
  · cases hlook : q.shared.index.labelLookup (label row) with
    | none =>
      rw [Index.view_entries_none hlook] at hentry
      cases hentry
    | some i =>
      by_cases hrow : ∃ t, row ∈ ids t
      · obtain ⟨t, ht⟩ := hrow
        have hmem : .add (c row) (vector row) (label row) ∈
            (ids t).map (rowRequest c vector label) := List.mem_map.mpr ⟨row, ht, rfl⟩
        rw [hinv.view_added hsup.clean hγ hnew hmem hlook] at hentry
        exact (Option.some.inj hentry).symm
      · -- a row that was not dealt has a label that nobody added
        exfalso
        have hkept : q.shared.index.view.entries (label row) = s.view.entries (label row) := by
          refine hinv.view_kept hsup.clean hγ fun t ht => hrow ⟨t, ?_⟩
          rw [addedLabels_rows] at ht
          obtain ⟨row', hrow', he⟩ := List.mem_map.mp ht
          obtain ⟨hlo', hhi'⟩ := hdeal.inside hm hrow'
          rwa [← hfresh.injective row' row hlo' hhi' hlo hhi he]
        rw [hkept, Index.view_entries_none (hfresh.unknown row hlo hhi)] at hentry
        cases hentry

private theorem added_rows (hok : ∀ t, ∃ out, q.thread t = .done (.ok out)) :
    q.shared.index.curElementCount = s.curElementCount + (m - a) ∧
      ∀ row, a ≤ row → row < m → ∃ i, q.shared.index.labelLookup (label row) = some i := by
  have hnew : OnlyNew s fun t => (ids t).map (rowRequest c vector label) :=
    onlyNew_rows hdeal hm hfresh
  obtain ⟨γ, hinv, hγ, hpost⟩ := finished_inv (provided_rows hsup hdeal hm) hrun hdone
  have hadded : ∀ t, ∀ l ∈ addedLabels ((ids t).map (rowRequest c vector label)),
      ∃ i, q.shared.index.labelLookup l = some i := fun t => by
    obtain ⟨out, ht⟩ := hok t
    exact (hpost t _ ht).2.added
  refine ⟨?_, fun row hlo hhi => ?_⟩
  · rw [hinv.count_eq hsup.clean hγ hnew hadded]
    simp only [addedLabels_rows, List.length_map, hdeal.sum_length]
  · obtain ⟨t, ht⟩ := (hdeal.mem row).mpr ⟨hlo, hhi⟩
    refine hadded t (label row) ?_
    rw [addedLabels_rows]
    exact List.mem_map_of_mem ht

private theorem full_rows {t : T} {e : Failure} (ht : q.thread t = .done (.error e)) :
    e = .thrown .capacityExceeded ∧ q.shared.index.curElementCount = s.maxElements ∧
      s.maxElements < s.curElementCount + (m - a) := by
  have hnew : OnlyNew s fun t => (ids t).map (rowRequest c vector label) :=
    onlyNew_rows hdeal hm hfresh
  obtain ⟨γ, hinv, hγ, hpost⟩ := finished_inv (provided_rows hsup hdeal hm) hrun hdone
  have hadds : ∀ (t : T) l, .get l ∉ (ids t).map (rowRequest c vector label) := by
    intro t l hl
    obtain ⟨row, -, he⟩ := List.mem_map.mp hl
    cases he
  have hfull := hnew.full hsup.clean hadds hinv (hpost t _ ht)
  simpa only [addedLabels_rows, List.length_map, hdeal.sum_length] using hfull

end Finished

/-- What becomes of a call that adds the rows from `a` to `b`. -/
def Settles (vector : Nat → V) (label : Nat → LabelType) (a b : Nat) (s : Index V)
    (r : Except Failure Unit) (s' : Index V) : Prop :=
  Grown vector label a b s s' ∧
    ((r = .ok () ∧ s'.curElementCount = s.curElementCount + (b - a) ∧
        ∀ row, a ≤ row → row < b → ∃ i, s'.labelLookup (label row) = some i) ∨
      (r = .error (.thrown .capacityExceeded) ∧ s'.curElementCount = s.maxElements ∧
        s.maxElements < s.curElementCount + (b - a)))

private theorem settles_parallelFor {n : Nat} (hn : 0 < n) (hfit : max a b + n < sizeT)
    (hsup : Supplied fuel a b c s) (hfresh : Fresh label a b s) {r : Except Failure Unit}
    {σ : Shared V (Fin n)} (h : ParallelFor (n := n)
      (fun row t => addPoint P t fuel (c row) (vector row) (label row) false) a b (b + 1)
      ⟨s, fun _ => none⟩ r σ) : Settles vector label a b s r σ.index := by
  have hne : Nonempty (Fin n) := ⟨⟨0, hn⟩⟩
  obtain ⟨ids, m, q, hdeal, hm, hrun, hdone, rfl, hok, hbad⟩ :=
    h.serial (serial_rows P fuel c vector label) hn hfit (by omega)
  refine ⟨grown_rows hsup hfresh hdeal hm hrun hdone, ?_⟩
  cases r with
  | ok u =>
    obtain ⟨hall, hthreads⟩ := hok rfl
    obtain ⟨hcount, hknown⟩ := added_rows hsup hfresh hdeal hm hrun hdone
      fun t => ⟨[], hthreads t⟩
    exact Or.inl ⟨rfl, by omega, fun row hlo hhi => hknown row hlo (by omega)⟩
  | error e =>
    obtain ⟨t, ht⟩ := hbad e rfl
    obtain ⟨he, hcount, hlt⟩ := full_rows hsup hfresh hdeal hm hrun hdone ht
    exact Or.inr ⟨congrArg _ he, hcount, by omega⟩

private theorem settles_first (hsup : Supplied fuel 0 1 c s) (hfresh : Fresh label 0 1 s)
    {r : Except Failure Unit} {σ : Shared V (Fin 1)}
    (h : (addPoint P 0 fuel (c 0) (vector 0) (label 0) false).run.solo ⟨s, fun _ => none⟩ =
      some (r, σ)) : Settles vector label 0 1 s r σ.index := by
  have hloop : forLoop (fun row (t : Fin 1) =>
      addPoint P t fuel (c row) (vector row) (label row) false) 0 1 0 =
      addPoint P 0 fuel (c 0) (vector 0) (label 0) false := by
    rw [forLoop, List.range'_succ, List.range'_zero, List.forM_cons, List.forM_nil]
    exact bind_pure_unit
  have hfor : ParallelFor (fun row (t : Fin 1) =>
      addPoint P t fuel (c row) (vector row) (label row) false) 0 1 2 ⟨s, fun _ => none⟩ r σ := by
    rw [← hloop] at h
    have hrun := Pool.runs_of_solo ⟨⟨s, fun _ => none⟩, fun t => (forLoop (fun row (t : Fin 1) =>
      addPoint P t fuel (c row) (vector row) (label row) false) 0 1 t).run⟩ 0 h
    rw [ParallelFor, if_pos rfl]
    refine ⟨_, hrun, fun t => ?_, rfl⟩
    dsimp only
    rw [Subsingleton.elim t 0, Function.update_self]
  exact settles_parallelFor Nat.one_pos (by decide) hsup hfresh hfor

theorem Settles.trans {s₁ : Index V} {r : Except Failure Unit} (hab : a ≤ m) (hbc : m ≤ b)
    (hfresh : Fresh label a b s) (h : Settles vector label a m s (.ok ()) s₁)
    (h' : Settles vector label m b s₁ r s') : Settles vector label a b s r s' := by
  obtain ⟨hgrown, hdone⟩ := h
  obtain ⟨hgrown', hdone'⟩ := h'
  obtain ⟨-, hcount, hknown⟩ : (.ok () : Except Failure Unit) = .ok () ∧ _ :=
    hdone.resolve_right fun hbad => by cases hbad.1
  have hother : ∀ row, a ≤ row → row < m →
      s'.view.entries (label row) = s₁.view.entries (label row) := fun row hlo hhi =>
    hgrown'.kept (label row) fun row' hlo' hhi' he => by
      have := hfresh.injective row' row (by omega) (by omega) hlo (by omega) he
      omega
  refine ⟨⟨hgrown'.clean, hgrown'.maxElements.trans hgrown.maxElements,
    fun row hlo hhi entry hentry => ?_, fun l hl => ?_⟩, ?_⟩
  · by_cases hrow : row < m
    · rw [hother row hlo hrow] at hentry
      exact hgrown.holds row hlo hrow entry hentry
    · exact hgrown'.holds row (by omega) hhi entry hentry
  · rw [hgrown'.kept l fun row hlo hhi => hl row (by omega) hhi,
      hgrown.kept l fun row hlo hhi => hl row hlo (by omega)]
  · rw [hcount, hgrown.maxElements] at hdone'
    refine hdone'.imp (fun ⟨hr, hc, hk⟩ => ⟨hr, by omega, fun row hlo hhi => ?_⟩)
      fun ⟨hr, hc, hlt⟩ => ⟨hr, hc, by omega⟩
    by_cases hrow : row < m
    · obtain ⟨i, hi⟩ := hknown row hlo hrow
      have hview := hother row hlo hrow
      rw [Index.view_entries_some hi] at hview
      cases hlook : s'.labelLookup (label row) with
      | some j => exact ⟨j, rfl⟩
      | none =>
        rw [Index.view_entries_none hlook] at hview
        cases hview
    · exact hk row (by omega) hhi

theorem Fresh.mono (h : Fresh label a b s) (hm : m ≤ b) : Fresh label a m s where
  unknown row hlo hhi := h.unknown row hlo (hhi.trans_le hm)
  injective row row' hlo hhi hlo' hhi' :=
    h.injective row row' hlo (hhi.trans_le hm) hlo' (hhi'.trans_le hm)

theorem Fresh.rest {r : Except Failure Unit} (h : Fresh label a b s)
    (hs : Settles vector label a m s r s') (hm : a ≤ m) : Fresh label m b s' where
  unknown row hlo hhi := by
    have hkept := hs.1.kept (label row) fun row' hlo' hhi' he => by
      have := h.injective row' row hlo' (by omega) (by omega) hhi he
      omega
    rw [Index.view_entries_none (h.unknown row (by omega) hhi)] at hkept
    cases hlook : s'.labelLookup (label row) with
    | none => rfl
    | some i =>
      rw [Index.view_entries_some hlook] at hkept
      cases hkept
  injective row row' hlo hhi hlo' hhi' := h.injective row row' (by omega) hhi (by omega) hhi'

private theorem live_rows [Fintype T] (hsup : Supplied fuel a b c s) (hdeal : Handout a m ids)
    (hm : m ≤ max a b) :
    Pool.Live (threads P fuel s fun t => (ids t).map (rowRequest c vector label)) := fun _ hp =>
  ((follows_threads (provided_rows hsup hdeal hm)).runs hp).progress
    fun _ _ _ _ hd hbusy => hbusy hd.outside

private theorem Settles.of_error {e : Failure} (h : Settles vector label a m s (.error e) s') (hlo : a ≤ m)
    (hhi : m ≤ b) (hfresh : Fresh label a b s) : Settles vector label a b s (.error e) s' := by
  have hrest := hfresh.rest h hlo
  obtain ⟨hgrown, hdone⟩ := h
  refine ⟨⟨hgrown.clean, hgrown.maxElements, fun row hrow hrow' entry hentry => ?_,
    fun l hl => hgrown.kept l fun row hrow hrow' => hl row hrow (hrow'.trans_le hhi)⟩,
    hdone.imp (fun hok => by cases hok.1) fun ⟨he, hcount, hlt⟩ => ⟨he, hcount, by omega⟩⟩
  by_cases hin : row < m
  · exact hgrown.holds row hrow hin entry hentry
  · rw [Index.view_entries_none (hrest.unknown row (not_lt.mp hin) hrow')] at hentry
    cases hentry

theorem Settles.refl (h : Clean s) : Settles vector label a a s (.ok ()) s :=
  ⟨⟨h, rfl, fun row hlo hhi => absurd hlo (not_le.mpr hhi), fun _ _ => rfl⟩,
    Or.inl ⟨rfl, by omega, fun row hlo hhi => absurd hlo (not_le.mpr hhi)⟩⟩

theorem Supplied.rest (h : Supplied fuel a b c s) (hs : Settles vector label a m s (.ok ()) s')
    (hlo : a ≤ m) (hhi : m ≤ b) : Supplied fuel m b c s' := by
  obtain ⟨-, hcount, -⟩ : (.ok () : Except Failure Unit) = .ok () ∧ _ :=
    hs.2.resolve_right fun hbad => by cases hbad.1
  have := h.vectors
  exact ⟨hs.1.clean, h.malloc, hs.1.maxElements.le.trans h.rounds, by omega⟩

theorem Supplied.first (h : Supplied fuel 0 b c s) (hb : b ≠ 0) : Supplied fuel 0 1 c s := by
  have := h.vectors
  exact ⟨h.clean, h.malloc, h.rounds, by omega⟩

end Rows

section Call

variable {F D : Type} [LinearOrder D]

/-- What `ParallelFor` makes of the number of threads it is given. -/
def loopThreads (hardwareConcurrency : Nat) (numThreads : Int) : Nat :=
  let n := (numThreads % sizeT).toNat
  if n = 0 then hardwareConcurrency else n

/-- The body of the loop. A vector is normalized in a part of `norm_array`, which has room for as
many threads as `num_threads` says. -/
def addRow {n : Nat} (P : Platform (List F) D) (fuel : Nat) (c : Nat → Choices) (x : PyIndex F)
    (it : Items F) (row : Nat) (t : Fin n) : Task (List F) (Fin n) Unit :=
  if x.normalize = true ∧ it.numThreads * x.dim < (t.val + 1) * x.dim then throw .outOfBounds
  else addPoint P t fuel (c row) (it.vector row) (it.label row) false

variable (P : Platform (List F) D) (hardwareConcurrency fuel : Nat) (c : Nat → Choices)

/-- The second part of `add_items`, from the loop on. -/
def AddRows (x : PyIndex F) (it : Items F) (start : Nat) (s : Index (List F))
    (r : Except PyError Unit) (x' : PyIndex F) : Prop :=
  ∃ r' σ, ParallelFor (n := loopThreads hardwareConcurrency it.numThreads)
      (addRow P fuel c x it) start it.rows (it.rows + 1) ⟨s, fun _ => none⟩ r' σ ∧
    match r' with
    | .ok _ => r = .ok () ∧
      x' = { x with apprAlg := some σ.index, curL := (x.curL + it.rows) % sizeT }
    | .error e => r = .error (.index e) ∧ x' = { x with apprAlg := some σ.index }

/-- What a call of `add_items` without `replace_deleted` can come to, if no other call is at work
on the index. -/
inductive AddItems (O : FloatOps F) (x : PyIndex F) (input : NdArray F)
    (ids : Option (NdArray LabelType)) (numThreads : Int) : Except PyError Unit → PyIndex F → Prop
  | rejected {e : PyError} : x.items O input ids numThreads = .error e →
      AddItems O x input ids numThreads (.error e) x
  | noRow {it : Items F} : x.items O input ids numThreads = .ok it → x.epAdded = false →
      it.rows = 0 → AddItems O x input ids numThreads (.error .outOfBounds) x
  | nothing {it : Items F} : x.items O input ids numThreads = .ok it → x.epAdded = true →
      it.rows = 0 → x.apprAlg = none → AddItems O x input ids numThreads (.ok ()) x
  | null {it : Items F} : x.items O input ids numThreads = .ok it → it.rows ≠ 0 →
      x.apprAlg = none → AddItems O x input ids numThreads (.error (.index .nullPointer)) x
  | firstFails {it : Items F} {s : Index (List F)} {e : Failure} {σ : Shared (List F) (Fin 1)} :
      x.items O input ids numThreads = .ok it → x.epAdded = false → it.rows ≠ 0 →
      x.apprAlg = some s →
      (addPoint P 0 fuel (c 0) (it.vector 0) (it.label 0) false).run.solo ⟨s, fun _ => none⟩ =
        some (.error e, σ) →
      AddItems O x input ids numThreads (.error (.index e)) { x with apprAlg := some σ.index }
  | afterFirst {it : Items F} {s : Index (List F)} {σ : Shared (List F) (Fin 1)}
      {r : Except PyError Unit} {x' : PyIndex F} :
      x.items O input ids numThreads = .ok it → x.epAdded = false → it.rows ≠ 0 →
      x.apprAlg = some s →
      (addPoint P 0 fuel (c 0) (it.vector 0) (it.label 0) false).run.solo ⟨s, fun _ => none⟩ =
        some (.ok (), σ) →
      AddRows P hardwareConcurrency fuel c { x with epAdded := true, apprAlg := some σ.index } it 1
        σ.index r x' →
      AddItems O x input ids numThreads r x'
  | rows {it : Items F} {s : Index (List F)} {r : Except PyError Unit} {x' : PyIndex F} :
      x.items O input ids numThreads = .ok it → x.epAdded = true → x.apprAlg = some s →
      AddRows P hardwareConcurrency fuel c x it 0 s r x' →
      AddItems O x input ids numThreads r x'

variable {P hardwareConcurrency fuel c} {O : FloatOps F} {x x' : PyIndex F} {input : NdArray F}
  {ids : Option (NdArray LabelType)} {numThreads : Int} {it : Items F} {s s' : Index (List F)}
  {r : Except PyError Unit} {start : Nat}

/-- Room for the points, threads to add them, and labels of their own that the index does not know. -/
structure Ready (fuel : Nat) (c : Nat → Choices) (it : Items F) (s : Index (List F)) : Prop where
  rows : it.rows ≠ 0
  threads : 0 < it.numThreads
  fits : (it.rows : Int) + it.numThreads < sizeT
  supplied : Supplied fuel 0 it.rows c s
  fresh : Fresh it.label 0 it.rows s

structure Ended (x : PyIndex F) (it : Items F) (s : Index (List F)) (r : Except PyError Unit)
    (x' : PyIndex F) (s' : Index (List F)) : Prop where
  apprAlg : x'.apprAlg = some s'
  grown : Grown it.vector it.label 0 it.rows s s'
  outcome : (r = .ok () ∧ s'.curElementCount = s.curElementCount + it.rows ∧
      (∀ row < it.rows, s'.view.entries (it.label row) = some (it.vector row, false)) ∧
      x'.curL = (x.curL + it.rows) % sizeT) ∨
    (r = .error (.index (.thrown .capacityExceeded)) ∧ s'.curElementCount = s.maxElements ∧
      s.maxElements < s.curElementCount + it.rows ∧ x'.curL = x.curL)

private theorem loopThreads_eq (hardwareConcurrency : Nat) (h : Ready fuel c it s) :
    loopThreads hardwareConcurrency it.numThreads = it.numThreads.toNat := by
  have hlt : it.numThreads < sizeT := by
    have := h.fits
    omega
  rw [loopThreads, Int.emod_eq_of_lt h.threads.le hlt]
  exact if_neg (by have := h.threads; omega)

private theorem addRow_eq (h : Ready fuel c it s) :
    addRow (n := loopThreads hardwareConcurrency it.numThreads) P fuel c x it =
      fun row t => addPoint P t fuel (c row) (it.vector row) (it.label row) false := by
  funext row t
  refine if_neg fun hshort => ?_
  have ht : (t.val + 1 : Int) ≤ it.numThreads := by
    have hlt := t.isLt
    have heq := loopThreads_eq hardwareConcurrency h
    omega
  exact absurd hshort.2 (not_lt.mpr (mul_le_mul_of_nonneg_right ht (Int.natCast_nonneg _)))

theorem Settles.ended (h : Settles it.vector it.label 0 it.rows s (.ok ()) s') (hx' : x'.apprAlg = some s')
    (hcurL : x'.curL = (x.curL + it.rows) % sizeT) : Ended x it s (.ok ()) x' s' := by
  obtain ⟨-, hcount, hknown⟩ : (.ok () : Except Failure Unit) = .ok () ∧ _ :=
    h.2.resolve_right fun hbad => by cases hbad.1
  refine ⟨hx', h.1, Or.inl ⟨rfl, hcount, fun row hrow => ?_, hcurL⟩⟩
  obtain ⟨i, hi⟩ := hknown row (Nat.zero_le row) hrow
  have hentry := Index.view_entries_some hi
  rw [hentry, h.1.holds row (Nat.zero_le row) hrow _ hentry]

private theorem Settles.ended_error {e : Failure} (h : Settles it.vector it.label 0 it.rows s (.error e) s')
    (hx' : x'.apprAlg = some s') (hcurL : x'.curL = x.curL) :
    Ended x it s (.error (.index e)) x' s' := by
  obtain ⟨he, hcount, hlt⟩ := h.2.resolve_left fun hok => by cases hok.1
  cases he
  exact ⟨hx', h.1, Or.inr ⟨rfl, hcount, hlt, hcurL⟩⟩

section Loop

variable {s₁ : Index (List F)} (h : Ready fuel c it s) (hstart : start ≤ it.rows)
  (hpart : Settles it.vector it.label 0 start s (.ok ()) s₁)
include h hstart hpart

private theorem exists_addRows (P : Platform (List F) D) (hardwareConcurrency : Nat) (y : PyIndex F) :
    ∃ r x', AddRows P hardwareConcurrency fuel c y it start s₁ r x' := by
  have hn := loopThreads_eq hardwareConcurrency h
  have hthreads := h.threads
  have hfits := h.fits
  obtain ⟨r', σ, hloop⟩ : ∃ r' σ, ParallelFor (n := loopThreads hardwareConcurrency it.numThreads)
      (addRow P fuel c y it) start it.rows (it.rows + 1) ⟨s₁, fun _ => none⟩ r' σ := by
    rw [addRow_eq h]
    exact exists_parallelFor (by omega) (serial_rows P fuel c it.vector it.label) (by omega) (by omega)
      fun ids m hdeal hm => live_rows (h.supplied.rest hpart (Nat.zero_le _) hstart) hdeal hm
  cases r' with
  | ok u => exact ⟨_, _, .ok u, σ, hloop, rfl, rfl⟩
  | error e => exact ⟨_, _, .error e, σ, hloop, rfl, rfl⟩

theorem AddRows.ended {y : PyIndex F} (hcurL : y.curL = x.curL)
    (hrun : AddRows P hardwareConcurrency fuel c y it start s₁ r x') : ∃ s', Ended x it s r x' s' := by
  obtain ⟨r', σ, hloop, hend⟩ := hrun
  rw [addRow_eq h] at hloop
  have hn := loopThreads_eq hardwareConcurrency h
  have hthreads := h.threads
  have hfits := h.fits
  have hrest := settles_parallelFor (by omega) (by omega)
    (h.supplied.rest hpart (Nat.zero_le _) hstart) (h.fresh.rest hpart (Nat.zero_le _)) hloop
  have hall := hpart.trans (Nat.zero_le _) hstart h.fresh hrest
  cases r' with
  | ok u =>
    obtain ⟨rfl, rfl⟩ := hend
    exact ⟨_, hall.ended rfl (by rw [← hcurL])⟩
  | error e =>
    obtain ⟨rfl, rfl⟩ := hend
    exact ⟨_, hall.ended_error rfl hcurL⟩

end Loop

private theorem PyIndex.initNewIndex_ok (P : Platform (List F) D) (maxElements efConstruction : Nat) {M : Nat}
    (allowReplaceDeleted : Bool) (hM : 2 ≤ M) (hx : x.apprAlg = none) :
    ∃ s, x.initNewIndex P maxElements M efConstruction allowReplaceDeleted true true =
        (.ok (), { x with curL := 0, apprAlg := some s, epAdded := false }) ∧
      Clean s ∧ s.curElementCount = 0 ∧ s.maxElements = maxElements ∧ ∀ l, s.labelLookup l = none := by
  obtain ⟨s, hs⟩ : ∃ s, Index.construct P (x.dim * 4) maxElements M efConstruction
      allowReplaceDeleted true true = .ok s := ⟨_, rfl⟩
  refine ⟨s.setEf x.defaultEf, ?_,
    ⟨(Index.construct_wellFormed hM hs).setEf x.defaultEf, ?_, ?_, ?_⟩, ?_, ?_, ?_⟩
  · rw [initNewIndex, hx]
    simp only [Option.isSome_none, Bool.false_eq_true, if_false, hs]
  all_goals cases hs
  · exact ⟨fun _ _ hl => (Option.some_ne_none _ hl.symm).elim, fun i hi => absurd hi (Nat.not_lt_zero i)⟩
  · exact fun i hi => absurd hi (Nat.not_lt_zero i)
  · exact fun i hi => absurd hi (Nat.not_lt_zero i)
  · rfl
  · rfl
  · exact fun _ => rfl

end Call

/-- Integers in place of floats, and nothing to normalize. -/
def intOps : FloatOps ℤ := ⟨0, (· + ·), (· * ·), id⟩

def rowPlatform : Platform (List ℤ) ℤ :=
  Index.listPlatform (fun a b => ((a.zip b).map fun p => (p.1 - p.2) ^ 2).sum) 1000000

def nineRows : NdArray ℤ where
  shape := [9, 2]
  data := (List.range 18).map fun i => if i % 2 = 0 then (i : ℤ) else 0
  length_eq := rfl

end HnswRvv.Bindings
