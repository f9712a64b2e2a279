import HnswRvv.Concurrent.Threads
import HnswRvv.Index.AllocationFailure

/-!
# A thread on its own

The steps of `addPoint` under nobody's interference are the call of `addPoint` on an index that
nobody else uses. The steps read again what the call reads once, and write in several steps what it
writes at once; apart from that the two differ in the bounds on their loops.
-/

namespace HnswRvv.Concurrent

open Framework OrderDual
set_option linter.unusedSectionVars false

variable {V D T α β : Type} [Inhabited V] [LinearOrder D]

/-- What a call returns and the index it leaves. -/
def outcome (f : IndexM V α) (s : Index V) : Except Failure α × Index V :=
  match f s with
  | .ok a s' => (.ok a, s')
  | .error e s' => (.error e, s')

private theorem apply_eq (f : IndexM V α) (σ : Shared V T) :
    Shared.apply f σ = ((outcome f σ.index).1, ⟨(outcome f σ.index).2, σ.held⟩) := by
  unfold Shared.apply outcome
  cases f σ.index <;> rfl

private theorem outcome_bind_ok {f : IndexM V α} {g : α → IndexM V β} {s s' : Index V} {a : α}
    (h : outcome f s = (.ok a, s')) : outcome (f >>= g) s = outcome (g a) s' := by
  simp only [outcome, bind, EStateM.bind] at h ⊢
  cases hf : f s with
  | ok b t =>
    rw [hf] at h
    cases h
    rfl
  | error e t =>
    rw [hf] at h
    cases h

private theorem outcome_bind_error {f : IndexM V α} {g : α → IndexM V β} {s s' : Index V} {e : Failure}
    (h : outcome f s = (.error e, s')) : outcome (f >>= g) s = (.error e, s') := by
  simp only [outcome, bind, EStateM.bind] at h ⊢
  cases hf : f s with
  | ok b t =>
    rw [hf] at h
    cases h
  | error e t =>
    rw [hf] at h
    cases h
    rfl

private theorem outcome_keeps {R : Index V → Index V → Prop} {f : IndexM V α} {s s' : Index V}
    (hf : Framework.Keeps R f) {r : Except Failure α} (h : outcome f s = (r, s')) : R s s' := by
  have hk := wp_def.mp (hf s)
  unfold outcome at h
  cases hr : f s with
  | ok a t =>
    rw [hr] at h
    cases h
    exact hk.1 _ _ hr
  | error e t =>
    rw [hr] at h
    cases h
    exact hk.2 _ _ hr

@[simp] theorem outcome_readOnly (x : Except Failure α) (s : Index V) :
    outcome (readOnly x) s = (x, s) := by
  cases x <;> rfl

private theorem readOnly_bind (x : Except Failure α) (f : α → Except Failure β) :
    (readOnly (x >>= f) : IndexM V β) = readOnly x >>= fun a => readOnly (f a) := by
  cases x <;> rfl

/-- The bound on the rounds is at least the capacity. -/
structure Bounded (fuel : Nat) (s : Index V) : Prop where
  cap : s.curElementCount ≤ s.maxElements
  rounds : s.maxElements ≤ fuel

private theorem Bounded.sameRoom {fuel : Nat} {s s' : Index V} (h : Bounded fuel s)
    (hr : Index.SameRoom s s') : Bounded fuel s' :=
  ⟨hr.count h.cap, hr.maxElements.le.trans h.rounds⟩

/-- The steps `m` from `σ` end like the call `f` on `s`, if that does not run out of rounds. -/
def Realises (fuel : Nat) (σ : Shared V T) (s : Index V) (m : Task V T α) (f : IndexM V α) : Prop :=
  Bounded fuel s → (outcome f s).1 ≠ .error .unfinished →
    ((m.run.force σ).1, (m.run.force σ).2.index) = outcome f s ∧ Bounded fuel (outcome f s).2

section Rules

variable {fuel : Nat} {σ : Shared V T} {s u : Index V} {m : Task V T α} {f : IndexM V α} {b : β}
  {r : IndexM V β} {k : Lock}

private theorem realises_pure (hs : σ.index = s) (a : α) : Realises fuel σ s (pure a : Task V T α) (pure a) :=
  fun hb _ => ⟨by rw [← hs]; rfl, hb⟩

private theorem realises_throw (hs : σ.index = s) (e : Failure) :
    Realises fuel σ s (throw e : Task V T α) (throw e) :=
  fun hb _ => ⟨by rw [← hs]; rfl, hb⟩

private theorem realises_bind {g : α → Task V T β} {h : α → IndexM V β} (hm : Realises fuel σ s m f)
    (hg : ∀ a σ' s', outcome f s = (.ok a, s') → σ'.index = s' → Realises fuel σ' s' (g a) (h a)) :
    Realises fuel σ s (m >>= g) (f >>= h) := by
  intro hb hne
  cases hf : outcome f s with
  | mk r s' =>
    cases r with
    | error e =>
      rw [outcome_bind_error hf] at hne ⊢
      obtain ⟨heq, hb'⟩ := hm hb (by rw [hf]; exact fun h => hne (congrArg _ (Except.error.inj h)))
      rw [hf] at heq hb'
      refine ⟨?_, hb'⟩
      rw [ExceptT.run_bind, Prog.force_bind]
      obtain ⟨h₁, h₂⟩ := Prod.mk.inj heq
      rw [h₁]
      exact Prod.ext rfl h₂
    | ok a =>
      rw [outcome_bind_ok hf] at hne ⊢
      obtain ⟨heq, hb'⟩ := hm hb (by rw [hf]; exact fun h => by cases h)
      rw [hf] at heq hb'
      obtain ⟨h₁, h₂⟩ := Prod.mk.inj heq
      rw [ExceptT.run_bind, Prog.force_bind, h₁]
      exact hg a _ s' hf h₂ hb' hne

private theorem realises_bind_readOnly {y : Except Failure α} {g : α → Task V T β} {h : α → IndexM V β}
    (hm : Realises fuel σ s m (readOnly y))
    (hg : ∀ a σ', σ'.index = s → Realises fuel σ' s (g a) (h a)) :
    Realises fuel σ s (m >>= g) (readOnly y >>= h) := by
  refine realises_bind hm fun a σ' s' ho hs' => ?_
  rw [outcome_readOnly] at ho
  obtain ⟨-, rfl⟩ := Prod.mk.inj ho
  exact hg a σ' hs'

private theorem realises_access (hs : σ.index = s) (hf : Framework.Keeps Index.SameRoom f) :
    Realises fuel σ s (access f) f := by
  intro hb _
  refine ⟨?_, hb.sameRoom ?_⟩
  · rw [access, ExceptT.run_mk, Prog.force_atomic, apply_eq, hs]
  · exact outcome_keeps hf rfl

private theorem realises_locking (hs : σ.index = s) (hf : Framework.Keeps Index.SameRoom f) :
    Realises fuel σ s (locking k f) f := realises_access hs hf

private theorem realises_write {g : Index V → Index V} (hg : Index.SameRoom σ.index (g σ.index)) :
    Realises fuel σ σ.index (locking k (modify g) : Task V T Unit) (set (g σ.index)) :=
  fun hb _ => ⟨rfl, hb.sameRoom hg⟩

private theorem realises_left {g : β → Task V T α} (hr : outcome r σ.index = (.ok b, u))
    (h : Realises fuel ⟨u, σ.held⟩ s (g b) f) : Realises fuel σ s (access r >>= g) f := by
  intro hb hne
  have hforce : ((access r : Task V T β).run.force σ) = (.ok b, ⟨u, σ.held⟩) := by
    rw [access, ExceptT.run_mk, Prog.force_atomic, apply_eq, hr]
  rw [ExceptT.run_bind, Prog.force_bind, hforce]
  exact h hb hne

private theorem realises_left_locking {g : β → Task V T α} (hr : outcome r σ.index = (.ok b, u))
    (h : Realises fuel ⟨u, σ.held⟩ s (g b) f) : Realises fuel σ s (locking k r >>= g) f :=
  realises_left hr h

private theorem realises_left_error {g : β → Task V T α} {e : Failure}
    (hr : outcome r σ.index = (.error e, s)) (hf : outcome f s = (.error e, s)) :
    Realises fuel σ s (access r >>= g) f := by
  intro hb _
  have hforce : ((access r : Task V T β).run.force σ) = (.error e, ⟨s, σ.held⟩) := by
    rw [access, ExceptT.run_mk, Prog.force_atomic, apply_eq, hr]
  rw [ExceptT.run_bind, Prog.force_bind, hforce, hf]
  exact ⟨rfl, hb⟩

private theorem realises_left_locking_error {g : β → Task V T α} {e : Failure}
    (hr : outcome r σ.index = (.error e, s)) (hf : outcome f s = (.error e, s)) :
    Realises fuel σ s (locking k r >>= g) f := realises_left_error hr hf

private theorem realises_lift {p : Prog (Shared V T) β} {g : β → Task V T α}
    (h : Realises fuel (p.force σ).2 s (g (p.force σ).1) f) :
    Realises fuel σ s (ExceptT.lift p >>= g) f := by
  intro hb hne
  rw [ExceptT.run_bind, Prog.force_bind, ExceptT.run_lift, map_eq_pure_bind, Prog.force_bind]
  exact h hb hne

private theorem realises_ensuring (h : Realises fuel σ s m f) :
    Realises fuel σ s (Prog.ensuring m (release k)) f := by
  intro hb hne
  obtain ⟨heq, hb'⟩ := h hb hne
  refine ⟨?_, hb'⟩
  rw [← heq, Prog.ensuring, ExceptT.run_mk, Prog.force_bind, Prog.force_bind]
  rfl

private theorem realises_withLock {t : T} (h : ∀ held, Realises fuel ⟨σ.index, held⟩ s m f) :
    Realises fuel σ s (withLock t k m) f := by
  intro hb hne
  rw [withLock, ExceptT.run_mk, Prog.force_bind]
  exact realises_ensuring (h _) hb hne

private theorem realises_right {g : β → IndexM V α} (hr : outcome r s = (.ok b, u))
    (hroom : Bounded fuel s → Bounded fuel u) (h : Realises fuel σ u m (g b)) :
    Realises fuel σ s m (r >>= g) := by
  intro hb hne
  rw [outcome_bind_ok hr] at hne ⊢
  exact h (hroom hb) hne

private theorem realises_get {g : Index V → IndexM V α} (h : Realises fuel σ s m (g s)) :
    Realises fuel σ s m (get >>= g) := realises_right rfl id h

private theorem realises_value {m : Task V T β} {g : β → Task V T α} (hm : Realises fuel σ s m (pure b))
    (hg : ∀ σ', σ'.index = s → Realises fuel σ' s (g b) f) : Realises fuel σ s (m >>= g) f := by
  have hbind : Realises fuel σ s (m >>= g) (pure b >>= fun _ => f) := by
    refine realises_bind hm fun a σ' s' ho hs' => ?_
    cases ho
    exact hg σ' hs'
  exact hbind

private theorem realises_readOnly (hs : σ.index = s) (y : Except Failure α) :
    Realises fuel σ s (ExceptT.mk (pure y) : Task V T α) (readOnly y) := by
  intro hb _
  rw [outcome_readOnly, ← hs]
  exact ⟨rfl, hs ▸ hb⟩

private theorem realises_of_bounded (h : Bounded fuel s → Realises fuel σ s m f) : Realises fuel σ s m f :=
  fun hb => h hb hb

private theorem realises_forM {g : α → Task V T Unit} {h : α → IndexM V Unit}
    (hstep : ∀ a σ, Realises fuel σ σ.index (g a) (h a)) (l : List α) (hs : σ.index = s) :
    Realises fuel σ s (forM l g) (forM l h) := by
  induction l generalizing σ s with
  | nil => exact realises_pure hs ()
  | cons a l ih =>
    rw [List.forM_cons, List.forM_cons]
    subst hs
    exact realises_bind (hstep a σ) fun _ _ _ _ hs' => ih hs'

end Rules

section Steps

variable {P : Platform V D} {fuel rounds n : Nat} {σ : Shared V T} {s : Index V} {q x : V}
  {checked isUpdate : Bool} {level : Nat} {cur : D × TableInt} {c : Choices} {ep curC i : TableInt}

private theorem realises_greedyLevel (hn : n ≤ rounds) :
    Realises fuel σ σ.index (greedyLevel P q checked level rounds cur)
      (readOnly (σ.index.greedyLevel P q checked level n cur)) := by
  induction n generalizing rounds cur with
  | zero =>
    intro _ hne
    exact absurd rfl hne
  | succ n ih =>
    obtain ⟨rounds, rfl⟩ := Nat.exists_eq_succ_of_ne_zero (Nat.ne_zero_of_lt hn)
    rw [greedyLevel, Index.greedyLevel]
    cases hscan : σ.index.greedyScan P q checked (σ.index.connections cur.2 level) cur false with
    | error e =>
      refine realises_left_locking_error (e := e) ?_ rfl
      rw [outcome_bind_ok (a := σ.index) rfl, hscan]
      rfl
    | ok r =>
      refine realises_left_locking (b := r) (u := σ.index) ?_ ?_
      · rw [outcome_bind_ok (a := σ.index) rfl, hscan]
        rfl
      · obtain ⟨cur', changed⟩ := r
        cases changed with
        | false => exact realises_pure rfl cur'
        | true => exact ih (Nat.le_of_succ_le_succ hn)

private theorem realises_descend (hs : σ.index = s) (levels : List Nat) :
    Realises fuel σ s (descend P fuel q checked levels cur)
      (readOnly (s.descend P q checked levels cur)) := by
  refine realises_of_bounded fun hb => ?_
  induction levels generalizing σ cur with
  | nil => exact realises_pure hs cur
  | cons level levels ih =>
    have hcons : s.descend P q checked (level :: levels) cur =
        s.greedyLevel P q checked level s.curElementCount cur >>= fun cur =>
          s.descend P q checked levels cur := by
      rw [Index.descend]
      cases s.greedyLevel P q checked level s.curElementCount cur <;> rfl
    rw [descend, hcons, readOnly_bind]
    subst hs
    exact realises_bind_readOnly (realises_greedyLevel (hb.cap.trans hb.rounds))
      fun _ _ hs' => ih hs'

private theorem realises_searchLoop {efConstruction : Nat} {b : Beam P.queues Bool} (hn : n ≤ rounds) :
    Realises fuel σ σ.index (searchLoop P efConstruction x level rounds b)
      (readOnly ((Index.liftAbort (BestFirst.loop P.queues (searchView P σ.index x level)
        (Index.layerPolicy efConstruction) n b)).map Beam.topCandidates)) := by
  induction n generalizing rounds b with
  | zero =>
    rw [searchLoop, BestFirst.loop]
    cases BestFirst.next P.queues (Index.layerPolicy efConstruction) b with
    | inl b => exact realises_pure rfl b.topCandidates
    | inr cb =>
      intro _ hne
      exact absurd rfl hne
  | succ n ih =>
    obtain ⟨rounds, rfl⟩ := Nat.exists_eq_succ_of_ne_zero (Nat.ne_zero_of_lt hn)
    rw [searchLoop, BestFirst.loop]
    cases BestFirst.next P.queues (Index.layerPolicy efConstruction) b with
    | inl b => exact realises_pure rfl b.topCandidates
    | inr cb =>
      obtain ⟨i, b⟩ := cb
      dsimp only
      cases hexp : BestFirst.expand P.queues (searchView P σ.index x level)
          (Index.layerPolicy efConstruction) ((searchView P σ.index x level).links i) b with
      | error a =>
        cases a with
        | fuel =>
          intro _ hne
          exact absurd rfl hne
        | emptyQueue =>
          refine realises_left_locking_error (e := .emptyTop) ?_ rfl
          rw [outcome_bind_ok (a := σ.index) rfl, outcome_readOnly]
          exact congrArg (fun e => (Index.liftAbort e, σ.index)) hexp
      | ok b' =>
        refine realises_left_locking (b := b') (u := σ.index) ?_ (ih (Nat.le_of_succ_le_succ hn))
        rw [outcome_bind_ok (a := σ.index) rfl, outcome_readOnly]
        exact congrArg (fun e => (Index.liftAbort e, σ.index)) hexp

private theorem realises_searchBaseLayer (hs : σ.index = s) :
    Realises fuel σ s (searchBaseLayer P fuel i x level)
      (readOnly (s.searchBaseLayer P i x level)) := by
  subst hs
  have heq : σ.index.searchBaseLayer P i x level =
      (Index.liftAbort (BestFirst.loop P.queues (searchView P σ.index x level)
        (Index.layerPolicy σ.index.efConstruction) σ.index.curElementCount
        (BestFirst.start P.queues (searchView P σ.index x level)
          (Index.layerPolicy σ.index.efConstruction) P.maxDist i false))).map Beam.topCandidates := by
    rw [Index.searchBaseLayer, BestFirst.search, searchView]
    split <;> next h => rw [h]; rfl
  rw [searchBaseLayer, heq]
  exact realises_of_bounded fun hb =>
    realises_left rfl (realises_searchLoop (hb.cap.trans hb.rounds))

private theorem realises_mutuallyConnectNewElement (hs : σ.index = s) (top : P.queues.far.Carrier) :
    Realises fuel σ s (mutuallyConnectNewElement P curC top level isUpdate)
      (Index.mutuallyConnectNewElement P curC top level isUpdate) := by
  subst hs
  rw [mutuallyConnectNewElement, Index.mutuallyConnectNewElement]
  refine realises_left rfl (realises_get ?_)
  dsimp only
  split
  · exact realises_throw rfl _
  · generalize Index.poppedIds P (σ.index.getNeighborsByHeuristic2 P top σ.index.M) = ids
    have hforward := (Index.writeClosed_sameRoom (V := V)).setForwardLinks curC level isUpdate ids
    cases ids.getLast? with
    | none => exact realises_throw rfl _
    | some next =>
      have hback : ∀ (σ₁ : Shared V T) s₁, σ₁.index = s₁ → Realises fuel σ₁ s₁
          (forM ids (fun other => locking (.element other)
            (Index.setBackLink P curC level isUpdate other)) >>= fun _ => pure next)
          (forM ids (Index.setBackLink P curC level isUpdate) >>= fun _ => pure next) :=
        fun σ₁ s₁ hs₁ => realises_bind (realises_forM (fun other _ => realises_locking rfl
          (Index.writeClosed_sameRoom.setBackLink curC level isUpdate other)) ids hs₁)
          fun _ _ _ _ hs₂ => realises_pure hs₂ next
      dsimp only
      split
      · exact realises_bind (realises_locking rfl hforward) fun _ σ₁ s₁ _ => hback σ₁ s₁
      · exact realises_bind (realises_access rfl hforward) fun _ σ₁ s₁ _ => hback σ₁ s₁

private theorem realises_withEntryPoint (hs : σ.index = s) {epDeleted : Bool}
    (hep : s.isMarkedDeleted ep = epDeleted) (top : P.queues.far.Carrier) :
    Realises fuel σ s (withEntryPoint P epDeleted x ep top) (pure (s.addEntryPoint P x ep top)) := by
  subst hs hep
  rw [withEntryPoint, Index.addEntryPoint]
  split
  · exact realises_left rfl (realises_pure rfl _)
  · exact realises_pure rfl _

private theorem realises_repairLevel (hs : σ.index = s) :
    Realises fuel σ s (repairLevel P fuel x ep i level curC)
      (Index.repairLevel P x ep i level curC) := by
  rw [repairLevel, Index.repairLevel]
  refine realises_get (realises_bind_readOnly (realises_searchBaseLayer hs) fun top σ₁ hs₁ => ?_)
  dsimp only
  split
  · subst hs₁
    refine realises_left rfl (realises_value (realises_withEntryPoint rfl rfl _) fun σ₂ hs₂ => ?_)
    exact realises_mutuallyConnectNewElement hs₂ _
  · exact realises_pure hs₁ curC

private theorem realises_repairLevels (hs : σ.index = s) (levels : List Nat) :
    Realises fuel σ s (repairLevels P fuel x ep i levels curC)
      (Index.repairLevels P x ep i levels curC) := by
  induction levels generalizing σ s curC with
  | nil => exact realises_pure hs ()
  | cons level levels ih => exact realises_bind (realises_repairLevel hs) fun _ _ _ _ hs' => ih hs'

private theorem realises_descendFrom (hs : σ.index = s) {hi lo : Nat} {start : TableInt} :
    Realises fuel σ s (descendFrom P fuel q checked hi lo start)
      (readOnly ((s.descend P q checked (Index.levelsDown hi lo)
        (P.fstdistfunc q (s.getDataByInternalId start), start)).map Prod.snd)) := by
  subst hs
  rw [descendFrom]
  refine realises_left rfl ?_
  have hmap : ∀ y : Except Failure (D × TableInt),
      (readOnly (y.map Prod.snd) : IndexM V TableInt) = readOnly y >>= fun cur => pure cur.2 := by
    intro y
    cases y <;> rfl
  rw [hmap]
  exact realises_bind_readOnly (realises_descend rfl _) fun cur _ hs' => realises_pure hs' cur.2

private theorem realises_repairConnectionsForUpdate (hs : σ.index = s) {maxLevel : Int} :
    Realises fuel σ s (repairConnectionsForUpdate P fuel x ep i level maxLevel)
      (Index.repairConnectionsForUpdate P x ep i level maxLevel) := by
  have hmap : ∀ (y : Except Failure (D × TableInt)) (g : TableInt → IndexM V Unit),
      (readOnly y >>= fun cur => g cur.2) = readOnly (y.map Prod.snd) >>= g := by
    intro y g
    cases y <;> rfl
  rw [repairConnectionsForUpdate, Index.repairConnectionsForUpdate]
  refine realises_get ?_
  rw [hmap _ fun start => if maxLevel < level then throw (.thrown .levelAboveMax)
    else Index.repairLevels P x ep i (List.range (level + 1)).reverse start]
  refine realises_bind_readOnly (realises_descendFrom hs) fun start σ₁ hs₁ => ?_
  split
  · exact realises_throw hs₁ _
  · exact realises_repairLevels hs₁ _

private theorem realises_gatherCandidates (hs : σ.index = s) (idx : Nat) (links : List TableInt)
    (sets : List TableInt × List TableInt) :
    Realises fuel σ s (gatherCandidates c level idx links sets)
      (pure (Index.gatherCandidates c s level idx links sets)) := by
  induction links generalizing idx sets σ with
  | nil => exact realises_pure hs sets
  | cons oneHop links ih =>
    rw [gatherCandidates, Index.gatherCandidates]
    split
    · exact ih hs _ _
    · subst hs
      exact realises_left_locking rfl (ih rfl _ _)

private theorem realises_rewireNeighbor (sCand : List TableInt) (neigh : TableInt) :
    Realises fuel σ σ.index (rewireNeighbor P c level sCand neigh)
      (Index.rewireNeighbor P c level sCand neigh) := by
  rw [rewireNeighbor, Index.rewireNeighbor]
  refine realises_left rfl (realises_get ?_)
  refine realises_bind_readOnly (realises_readOnly rfl _) fun candidates σ₁ hs₁ => ?_
  obtain ⟨index, held⟩ := σ₁
  obtain rfl : index = σ.index := hs₁
  exact realises_write (Index.sameRoom_setLinklistAtLevel _ neigh level _)

private theorem realises_rewireLayer : Realises fuel σ σ.index (rewireLayer P c i level)
    (Index.rewireLayer P c i level) := by
  rw [rewireLayer, Index.rewireLayer]
  refine realises_left_locking (b := σ.index.connections i level) (u := σ.index) rfl
    (realises_get ?_)
  dsimp only
  split
  · exact realises_pure rfl ()
  · refine realises_value (realises_gatherCandidates rfl 0 _ _) fun σ₁ hs₁ => ?_
    exact realises_forM (fun neigh _ => realises_rewireNeighbor _ neigh) _ hs₁

private theorem realises_updatePoint (hs : σ.index = s) : Realises fuel σ s (updatePoint P fuel c x i)
    (Index.updatePoint P c x i) := by
  subst hs
  rw [updatePoint, Index.updatePoint]
  refine realises_left rfl (realises_right rfl (fun hb => ⟨hb.cap, hb.rounds⟩) ?_)
  refine realises_get (realises_left rfl (realises_left rfl (realises_left rfl ?_)))
  dsimp only
  split
  · exact realises_pure rfl ()
  · refine realises_left rfl (realises_left rfl ?_)
    by_cases hlists : (σ.index.setData i x).LacksLists i
    · rw [if_pos hlists, if_pos (decide_eq_true hlists)]
      exact realises_throw rfl _
    · rw [if_neg hlists, if_neg fun h => hlists (of_decide_eq_true h)]
      refine realises_bind (realises_forM (fun _ _ => realises_rewireLayer) _ rfl)
        fun _ _ _ _ hs₁ => ?_
      exact realises_repairConnectionsForUpdate hs₁

section Marks

def SameMarks (s s' : Index V) : Prop := ∀ i, s'.isMarkedDeleted i = s.isMarkedDeleted i

theorem SameMarks.refl (s : Index V) : SameMarks s s := fun _ => rfl

theorem SameMarks.trans (s s' s'' : Index V) (h : SameMarks s s') (h' : SameMarks s' s'') :
    SameMarks s s'' := fun i => (h' i).trans (h i)

theorem SameMarks.setLinklistAtLevel (s : Index V) (i : TableInt) (l : Nat) {ll : LinkList}
    (h : ll.isMarked = (s.getLinklistAtLevel i l).isMarked) :
    SameMarks s (s.setLinklistAtLevel i l ll) := by
  intro j
  rw [Index.isMarkedDeleted, Index.getLinklistAtLevel_set]
  split
  · next hj =>
    obtain ⟨rfl, rfl⟩ := hj
    exact h
  · rfl

theorem isMarked_writeEntries (ll : LinkList) (idx : Nat) (ids : List TableInt) :
    (ll.writeEntries idx ids).isMarked = ll.isMarked := by
  rw [LinkList.isMarked, LinkList.word_writeEntries, LinkList.isMarked]

theorem SameMarks.wp_keeps {m : IndexM V α} {t : Index V} (h : SameMarks s t)
    (hm : Framework.Keeps SameMarks m) :
    wp m (fun _ s' => SameMarks s s') (fun _ s' => SameMarks s s') t :=
  wp_mono (hm t) (fun _ _ h' => h.trans _ _ _ h') fun _ _ h' => h.trans _ _ _ h'

private theorem keepsMarks_writeForwardLinks (idx : Nat) (ids : List TableInt) :
    Framework.Keeps (SameMarks (V := V)) (Index.writeForwardLinks curC level isUpdate idx ids) := by
  induction ids generalizing idx with
  | nil => exact keeps_pure SameMarks.refl ()
  | cons id ids ih =>
    refine keeps_get fun s => ?_
    dsimp only
    split
    · exact SameMarks.refl s
    · split
      · exact SameMarks.refl s
      · exact (SameMarks.setLinklistAtLevel s curC level (isMarked_writeEntries _ _ _)).wp_keeps
          (ih (idx + 1))

private theorem keepsMarks_setBackLink (other : TableInt) :
    Framework.Keeps SameMarks (Index.setBackLink P curC level isUpdate other) := by
  refine keeps_get fun s => ?_
  dsimp only
  split
  · exact SameMarks.refl s
  · split
    · exact SameMarks.refl s
    · split
      · exact SameMarks.refl s
      · split
        · exact SameMarks.refl s
        · split <;> exact SameMarks.setLinklistAtLevel s other level
            (by rw [LinkList.isMarked_setListCount, isMarked_writeEntries])

private theorem keepsMarks_mutuallyConnectNewElement (top : P.queues.far.Carrier) :
    Framework.Keeps SameMarks (Index.mutuallyConnectNewElement P curC top level isUpdate) := by
  refine keeps_get fun s => ?_
  dsimp only
  split
  · exact SameMarks.refl s
  · split
    · exact SameMarks.refl s
    · refine Framework.Keeps.bind SameMarks.trans (keeps_get fun s => ?_) (fun _ => ?_) s
      · dsimp only
        split
        · exact SameMarks.refl s
        · exact (SameMarks.setLinklistAtLevel s curC level
            (LinkList.isMarked_setListCount _ _)).wp_keeps (keepsMarks_writeForwardLinks 0 _)
      · refine Framework.Keeps.bind SameMarks.trans ?_ fun _ => keeps_pure SameMarks.refl _
        exact keeps_forM SameMarks.refl SameMarks.trans keepsMarks_setBackLink

end Marks

private theorem realises_insertLevels (hs : σ.index = s) {epDeleted : Bool} {maxlevelcopy : Int}
    (hep : s.isMarkedDeleted ep = epDeleted) (levels : List Nat) :
    Realises fuel σ s (insertLevels P fuel x curC ep epDeleted maxlevelcopy levels i)
      (Index.insertLevels P x curC ep maxlevelcopy levels i) := by
  induction levels generalizing σ s i with
  | nil => exact realises_pure hs ()
  | cons level levels ih =>
    rw [insertLevels, Index.insertLevels]
    refine realises_get ?_
    split
    · exact realises_throw hs _
    · refine realises_bind_readOnly (realises_searchBaseLayer hs) fun top σ₁ hs₁ => ?_
      refine realises_value (realises_withEntryPoint hs₁ hep top) fun σ₂ hs₂ => ?_
      refine realises_bind (realises_mutuallyConnectNewElement hs₂ _) fun _ σ₃ s₃ ho hs₃ => ?_
      have hmarks := outcome_keeps (keepsMarks_mutuallyConnectNewElement _) ho
      exact ih hs₃ ((hmarks ep).trans hep)

private theorem realises_linkNewElement (hs : σ.index = s) {curlevel : Nat} {maxlevelcopy : Int}
    (hmax : s.maxlevel = maxlevelcopy) (hep : s.enterpointNode = some ep) :
    Realises fuel σ s (linkBelow P fuel x curC curlevel maxlevelcopy ep (some ep))
      (Index.linkNewElement P x curC ep curlevel maxlevelcopy) := by
  have hentry : s.entry = ep := by rw [Index.entry, hep, Option.getD_some]
  have hend : s.descentEnd P x true curlevel =
      (s.descend P x true (Index.levelsDown maxlevelcopy.toNat curlevel)
        (P.fstdistfunc x (s.getDataByInternalId ep), ep)).map Prod.snd := by
    rw [Index.descentEnd, hmax, hentry]
    split <;> next h => rw [h]; rfl
  rw [linkBelow, Index.linkNewElement]
  refine realises_get ?_
  rw [hend]
  refine realises_bind_readOnly (realises_descendFrom hs) fun start σ₁ hs₁ => ?_
  subst hs₁
  exact realises_left rfl (realises_insertLevels rfl rfl _)

def grantLists (c : Choices) (curC : TableInt) (curlevel : Nat) : IndexM V Unit :=
  if curlevel ≠ 0 ∧ c.malloc = false then throw (.thrown .addPointLinklist)
  else modify fun t => if curlevel = 0 then t else t.allocateLinkLists curC curlevel

def linkOrFound (P : Platform V D) (x : V) (curC : TableInt) (curlevel : Nat) (maxlevel : Int) :
    Option TableInt → IndexM V Unit
  | some ep => Index.linkNewElement P x curC ep curlevel maxlevel
  | none => modify fun t => { t with enterpointNode := some 0, maxlevel := curlevel }

def riseAbove (curC : TableInt) (curlevel : Nat) (maxlevel : Int) : IndexM V Unit :=
  modify fun t => if maxlevel < curlevel then
    { t with enterpointNode := some curC, maxlevel := curlevel } else t

/-- The part of the call behind the new record. -/
def linkAppended (P : Platform V D) (c : Choices) (x : V) (curC : TableInt) (curlevel : Nat)
    (enterpoint : Option TableInt) (maxlevel : Int) : IndexM V Unit :=
  grantLists c curC curlevel >>= fun _ =>
    linkOrFound P x curC curlevel maxlevel enterpoint >>= fun _ => riseAbove curC curlevel maxlevel

private theorem insertNew_eq (label : LabelType) (curlevel : Nat) :
    Index.insertNew P c x label curlevel = get >>= fun s =>
      set (s.appendElement x label curlevel) >>= fun _ =>
        linkAppended P c x s.curElementCount curlevel s.enterpointNode s.maxlevel >>= fun _ =>
          pure s.curElementCount := by
  rw [Index.insertNew]
  refine bind_congr fun s => bind_congr fun _ => ?_
  rw [linkAppended, grantLists]
  split
  · rfl
  · rw [bind_assoc]
    refine bind_congr fun _ => ?_
    cases s.enterpointNode with
    | some ep => rw [bind_assoc]; rfl
    | none => rfl

private theorem realises_writeRecord {label : LabelType} {curlevel : Nat}
    (hs : initRecord x label curC σ.index = s) :
    Realises fuel σ s (writeRecord c x label curC curlevel) (grantLists c curC curlevel) := by
  subst hs
  rw [writeRecord, grantLists]
  refine realises_left rfl ?_
  by_cases hlevel : curlevel = 0
  · simp only [hlevel, ne_eq, not_true_eq_false, false_and, if_true, if_false]
    exact realises_pure rfl ()
  · cases hmalloc : c.malloc with
    | false =>
      simp only [hlevel, ne_eq, not_false_eq_true, true_and, if_true]
      exact realises_throw rfl _
    | true =>
      simp only [hlevel, ne_eq, not_false_eq_true, true_and, if_true, if_false, Bool.true_eq_false]
      exact realises_access rfl (keeps_modify fun _ => ⟨rfl, rfl, rfl, id⟩)

private theorem realises_linkOrFound (hs : σ.index = s) {curlevel : Nat} :
    Realises fuel σ s (linkBelow P fuel x curC curlevel s.maxlevel s.entry s.enterpointNode)
      (linkOrFound P x curC curlevel s.maxlevel s.enterpointNode) := by
  cases hep : s.enterpointNode with
  | none =>
    subst hs
    exact fun hb _ => ⟨rfl, hb.cap, hb.rounds⟩
  | some ep =>
    have hentry : s.entry = ep := by rw [Index.entry, hep, Option.getD_some]
    rw [hentry]
    exact realises_linkNewElement hs rfl hep

private theorem realises_raiseEnterpoint (hs : σ.index = s) {curlevel : Nat} {maxlevelcopy : Int} :
    Realises fuel σ s (raiseEnterpoint curC curlevel maxlevelcopy)
      (riseAbove curC curlevel maxlevelcopy) := by
  subst hs
  rw [raiseEnterpoint, riseAbove]
  split
  · exact fun hb _ => ⟨rfl, hb.cap, hb.rounds⟩
  · exact realises_pure rfl ()

private theorem realises_linkElement {label : LabelType} {curlevel : Nat}
    (hs : initRecord x label curC σ.index = s) :
    Realises fuel σ s (linkElement P fuel c x label curC curlevel s.maxlevel)
      (linkAppended P c x curC curlevel s.enterpointNode s.maxlevel) := by
  rw [linkElement, linkAppended]
  refine realises_left (b := s.enterpointNode) (u := σ.index) (by rw [← hs]; rfl) ?_
  refine realises_left (b := s.entry) (u := σ.index) (by rw [← hs]; rfl) ?_
  refine realises_bind (realises_writeRecord hs) fun _ σ₁ s₁ ho hs₁ => ?_
  have hkeeps : Framework.Keeps (fun s s' : Index V => s'.maxlevel = s.maxlevel ∧
      s'.enterpointNode = s.enterpointNode) (grantLists c curC curlevel) := by
    intro t
    rw [grantLists]
    split
    · exact ⟨rfl, rfl⟩
    · rw [wp_modify]
      split <;> exact ⟨rfl, rfl⟩
  obtain ⟨hmax, hep⟩ := outcome_keeps hkeeps ho
  have hentry : s₁.entry = s.entry := by rw [Index.entry, hep, Index.entry]
  rw [← hmax, ← hep, ← hentry]
  exact realises_bind (realises_linkOrFound hs₁) fun _ _ _ _ hs₂ => realises_raiseEnterpoint hs₂

private theorem realises_insertNew {t : T} {label : LabelType} {curlevel : Nat}
    (hs : initRecord x label curC (setLevel curC curlevel σ.index) = s) :
    Realises fuel σ s (insertNew P t fuel c x label curC curlevel)
      (linkAppended P c x curC curlevel s.enterpointNode s.maxlevel >>= fun _ => pure curC) := by
  rw [insertNew]
  have hlink : ∀ held : Lock → Option T, Realises fuel ⟨setLevel curC curlevel σ.index, held⟩ s
      (linkElement P fuel c x label curC curlevel s.maxlevel)
      (linkAppended P c x curC curlevel s.enterpointNode s.maxlevel) :=
    fun held => realises_linkElement hs
  refine realises_left rfl (realises_lift ?_)
  refine realises_left (b := s.maxlevel) (u := setLevel curC curlevel σ.index)
    (by rw [← hs]; rfl) ?_
  split
  · exact realises_lift (realises_bind (hlink _) fun _ _ _ _ hs₁ => realises_pure hs₁ curC)
  · exact realises_bind (realises_ensuring (hlink _)) fun _ _ _ _ hs₁ => realises_pure hs₁ curC

private theorem realises_addPointLevel {t : T} {label : LabelType} {lvl : Int} (hs : σ.index = s) :
    Realises fuel σ s (addPointLevel P t fuel c x label lvl)
      (Index.addPointLevel P c x label lvl) := by
  subst hs
  rw [addPointLevel, Index.addPointLevel]
  refine realises_get ?_
  have hreserve : outcome (lookupOrReserve label) σ.index = match σ.index.labelLookup label with
      | some id => if σ.index.allowReplaceDeleted ∧ σ.index.isMarkedDeleted id then
          (.error (.thrown .updateDeleted), σ.index) else (.ok (.inl id), σ.index)
      | none => if σ.index.maxElements ≤ σ.index.curElementCount then
          (.error (.thrown .capacityExceeded), σ.index)
        else (.ok (.inr σ.index.curElementCount),
          { σ.index with
            curElementCount := σ.index.curElementCount + 1
            labelLookup := fun l => if l = label then some σ.index.curElementCount
              else σ.index.labelLookup l }) := by
    rw [lookupOrReserve, outcome_bind_ok (a := σ.index) rfl]
    cases σ.index.labelLookup label with
    | some id =>
      dsimp only
      split <;> rfl
    | none =>
      dsimp only
      split <;> rfl
  cases hl : σ.index.labelLookup label with
  | some id =>
    rw [hl] at hreserve
    dsimp only at hreserve ⊢
    split at hreserve
    · next hdel =>
      rw [if_pos hdel]
      exact realises_left_error hreserve rfl
    · next hdel =>
      rw [if_neg hdel]
      refine realises_left hreserve (realises_left (b := σ.index.isMarkedDeleted id) rfl ?_)
      have hupdate : ∀ (σ₁ : Shared V T) s₁, σ₁.index = s₁ → Realises fuel σ₁ s₁
          (updatePoint P fuel c x id >>= fun _ => pure id)
          (Index.updatePoint P c x id >>= fun _ => pure id) := fun σ₁ s₁ hs₁ =>
        realises_bind (realises_updatePoint hs₁) fun _ _ _ _ hs₂ => realises_pure hs₂ id
      split
      · exact realises_bind (realises_access rfl (Index.writeClosed_sameRoom.unmarkDeletedInternal id))
          fun _ σ₁ s₁ _ => hupdate σ₁ s₁
      · exact hupdate _ _ rfl
  | none =>
    rw [hl] at hreserve
    dsimp only at hreserve ⊢
    split at hreserve
    · next hfull =>
      rw [if_pos hfull]
      exact realises_left_error hreserve rfl
    · next hroom =>
      rw [if_neg hroom, insertNew_eq]
      refine realises_left hreserve (realises_get (realises_right rfl ?_ ?_))
      · exact fun hb => ⟨Nat.lt_of_not_le hroom, hb.rounds⟩
      · exact realises_withLock fun held => realises_insertNew rfl

private theorem realises_addPoint {t : T} {label : LabelType} {replaceDeleted : Bool} (hs : σ.index = s) :
    Realises fuel σ s (addPoint P t fuel c x label replaceDeleted)
      (Index.addPoint P c x label replaceDeleted) := by
  subst hs
  rw [addPoint, Index.addPoint]
  refine realises_left rfl (realises_get ?_)
  have hplain : ∀ σ₁ : Shared V T, σ₁.index = σ.index → Realises fuel σ₁ σ.index
      (addPointLevel P t fuel c x label (-1) >>= fun _ => pure ())
      (Index.addPointLevel P c x label (-1) >>= fun _ => pure ()) := fun σ₁ hs₁ =>
    realises_bind (realises_addPointLevel hs₁) fun _ _ _ _ hs₂ => realises_pure hs₂ ()
  split
  · exact realises_throw rfl _
  · refine realises_withLock fun held => ?_
    cases replaceDeleted with
    | false => exact hplain _ rfl
    | true =>
      simp only [Bool.true_eq_false, if_false, false_or]
      by_cases hempty : σ.index.deletedElements = ∅
      · rw [if_pos hempty]
        refine realises_left (b := none) (u := σ.index) ?_ (hplain _ rfl)
        rw [takeVacant, outcome_bind_ok (a := σ.index) rfl, if_pos hempty]
        rfl
      · rw [if_neg hempty]
        refine realises_left (b := some (c.begin_ σ.index.deletedElements)) (u :=
          { σ.index with deletedElements :=
              σ.index.deletedElements.erase (c.begin_ σ.index.deletedElements) }) ?_ ?_
        · rw [takeVacant, outcome_bind_ok (a := σ.index) rfl, if_neg hempty]
          rfl
        · refine realises_left rfl (realises_left rfl (realises_left rfl (realises_right rfl
            (fun hb => ⟨hb.cap, hb.rounds⟩) ?_)))
          exact realises_bind (realises_access rfl (Index.writeClosed_sameRoom.unmarkDeletedInternal _))
            fun _ _ _ _ hs₁ => realises_updatePoint hs₁

end Steps

section Alone

variable [Fintype T] [DecidableEq T] {P : Platform V D} {fuel : Nat} {s : Index V} {c : Choices}
  {x : V} {label : LabelType}

/-- One thread adds a point, the others do nothing. -/
def lone (P : Platform V D) (t : T) (fuel : Nat) (c : Choices) (x : V) (label : LabelType)
    (s : Index V) : Pool T (Shared V T) (Except Failure Unit) :=
  ⟨⟨s, fun _ => none⟩, fun u =>
    if u = t then (addPoint P t fuel c x label false).run else .done (.ok ())⟩

def loneRequests (t : T) (c : Choices) (x : V) (label : LabelType) (u : T) : List (Request V) :=
  if u = t then [.add c x label] else []

/-- The last step of a thread that reads nothing. -/
def nothingRead (r : Except Failure Unit) :
    Prog (Shared V T) (Except Failure (List (LabelType × V))) := .done (r.map fun _ => [])

private theorem threads_lone (t : T) : threads P fuel s (loneRequests t c x label) =
    (lone P t fuel c x label s).andThen nothingRead := by
  refine congrArg (Pool.mk _) (funext fun u => ?_)
  dsimp only [loneRequests, lone]
  split
  · next hu =>
    subst hu
    rw [serve, serve, ExceptT.run_bind]
    refine bind_congr fun r => ?_
    cases r <;> rfl
  · rfl

section Lone

variable (h : Clean s) (hmalloc : c.malloc = true) (hrounds : s.maxElements ≤ fuel)
  (hvectors : s.curElementCount + 1 < fuel) (t : T)
include h hmalloc hrounds hvectors

private theorem follows_lone : (protocol (terms s (loneRequests t c x label))).Follows
    (Done s (loneRequests t c x label)) ((lone P t fuel c x label s).andThen nothingRead) := by
  have hload : load (loneRequests t c x label) = 1 := by
    rw [load, Finset.sum_eq_single t (fun u _ hu => by rw [loneRequests, if_neg hu]; rfl)
      (fun ht => absurd (Finset.mem_univ t) ht), loneRequests, if_pos rfl]
    rfl
  rw [← threads_lone]
  refine follows_threads ⟨h, fun u c' x' l hm => ?_, hrounds, by rwa [hload]⟩
  rw [loneRequests] at hm
  split at hm
  · cases List.mem_singleton.mp hm
    exact hmalloc
  · exact absurd hm List.not_mem_nil

theorem solo_lone : ∃ r, ((lone P t fuel c x label s).thread t).solo ⟨s, fun _ => none⟩ = some r := by
  have hlive : Pool.Live ((lone P t fuel c x label s).andThen nothingRead) := fun p hp =>
    ((follows_lone h hmalloc hrounds hvectors t).runs hp).progress
      fun u r σ g hd hbusy => hbusy hd.outside
  exact Pool.solo_of_live (Pool.Live.of_andThen hlive) fun u hu => ⟨.ok (), if_neg hu⟩

private theorem held_lone {r : Except Failure Unit} {σ : Shared V T}
    (hsolo : ((lone P t fuel c x label s).thread t).solo ⟨s, fun _ => none⟩ = some (r, σ)) :
    σ.held = fun _ => none := by
  have hrun := Pool.runs_andThen (Pool.runs_of_solo _ t hsolo) (nothingRead (V := V))
  obtain ⟨γ, hinv, hpost⟩ := ((follows_lone h hmalloc hrounds hvectors t).runs hrun).post
  refine funext (hinv.held_of_outside fun u => ?_)
  by_cases hu : u = t
  · refine (hpost u (r.map fun _ => []) ?_).outside
    rw [Pool.andThen_thread, hu]
    dsimp only
    rw [Function.update_self, Prog.done_bind]
    rfl
  · refine (hpost u (.ok []) ?_).outside
    rw [Pool.andThen_thread]
    dsimp only [lone]
    rw [Function.update_of_ne hu, if_neg hu]
    rfl

end Lone

private theorem addPoint_ne_unfinished (h : Clean s) (hmalloc : c.malloc = true) :
    (outcome (Index.addPoint P c x label false) s).1 ≠ .error .unfinished := by
  have hgranted : ¬ Index.ListsDenied s c (.addPoint x label false) := fun hd =>
    absurd hmalloc (Bool.eq_false_iff.mp hd.1)
  have hwp := wp_def.mp (Index.wp_addPoint (P := P) h.wellFormed h.backed hgranted)
  unfold outcome
  cases hr : Index.addPoint P c x label false s with
  | ok a s' => exact fun he => by cases he
  | error e s' =>
    intro he
    cases he
    rcases hwp.2 _ _ hr with ⟨exn, hexn, -⟩ | ⟨hempty, -⟩
    · cases hexn
    · cases hempty

/-- Alone, the steps of a thread that adds a point never wait; they return what the call returns,
leave the index that the call leaves, and hold no lock at the end. -/
theorem addPoint_alone (h : Clean s) (hmalloc : c.malloc = true) (hrounds : s.maxElements ≤ fuel)
    (hvectors : s.curElementCount + 1 < fuel) (t : T) :
    (addPoint P t fuel c x label false).run.solo ⟨s, fun _ => none⟩ =
      some ((outcome (Index.addPoint P c x label false) s).1,
        ⟨(outcome (Index.addPoint P c x label false) s).2, fun _ => none⟩) := by
  have hthread : (lone P t fuel c x label s).thread t = (addPoint P t fuel c x label false).run :=
    if_pos rfl
  obtain ⟨⟨r, σ⟩, hsolo⟩ : ∃ r, ((lone P t fuel c x label s).thread t).solo ⟨s, fun _ => none⟩ =
    some r := solo_lone h hmalloc hrounds hvectors t
  have hheld := held_lone h hmalloc hrounds hvectors t hsolo
  have hreal : Realises fuel (⟨s, fun _ => none⟩ : Shared V T) s
    (addPoint P t fuel c x label false) (Index.addPoint P c x label false) := realises_addPoint rfl
  obtain ⟨heq, -⟩ := hreal ⟨h.wellFormed.cap, hrounds⟩ (addPoint_ne_unfinished h hmalloc)
  rw [hthread] at hsolo
  rw [Prog.force_of_solo hsolo] at heq
  rw [hsolo, ← heq, ← hheld]

/-- A fifth element, which gets lists on two levels. -/
theorem addPoint_alone_linkedPoints : ∃ s, LinkedPoints s ∧
    (addPoint Index.pointPlatform () 20 (Index.plainChoices 1) (3, 0, 0) 5 false).run.solo
        ⟨s, fun _ => none⟩ =
      some ((outcome (Index.addPoint Index.pointPlatform (Index.plainChoices 1) (3, 0, 0) 5 false)
          s).1,
        ⟨(outcome (Index.addPoint Index.pointPlatform (Index.plainChoices 1) (3, 0, 0) 5 false)
          s).2, fun _ => none⟩) := by
  obtain ⟨s, hs⟩ := exists_linkedPoints
  refine ⟨s, hs, addPoint_alone hs.clean rfl ?_ ?_ ()⟩
  · rw [hs.capacity]
    decide
  · rw [hs.count]
    decide

end Alone

end HnswRvv.Concurrent
