import HnswRvv.Framework.Interleaving

/-!
# Sharing the rows of a loop

`ParallelFor` of the Python bindings. The workers draw the next id from an atomic counter until it
reaches the end; one that catches an exception records it and moves the counter to the end, so that
the others stop too. The counter is a `size_t` and wraps around.

Every run of the workers is a run of threads that were dealt their ids beforehand. What holds for
threads with fixed ids, however these are dealt, holds for the workers.
-/

namespace HnswRvv.Bindings

open Framework
set_option linter.unusedSectionVars false

variable {S ε α T : Type}

/-- The number of values of a `size_t`. -/
def sizeT : Nat := 2 ^ 64

/-- `current` and `lastException` -/
structure Control (ε : Type) where
  current : Nat
  lastException : Option ε

/-- `current.fetch_add(1)` -/
def fetchAdd : Prog (S × Control ε) Nat :=
  Prog.atomic (fun _ => true) fun σ =>
    (σ.2.current, σ.1, { σ.2 with current := (σ.2.current + 1) % sizeT })

/-- The handler, under `lastExceptMutex`. -/
def recordException (end_ : Nat) (e : ε) : Prog (S × Control ε) Unit :=
  Prog.atomic (fun _ => true) fun σ => ((), σ.1, ⟨end_, some e⟩)

/-- Behind the call of `fn`: the next round, or the handler. -/
def afterCall (end_ : Nat) (next : Prog (S × Control ε) Bool) :
    Except ε Unit → Prog (S × Control ε) Bool
  | .ok _ => next
  | .error e => do
    recordException end_ e
    pure true

section Workers

variable (fn : Nat → T → ExceptT ε (Prog S) Unit)

/-- `while (true) …` of one thread; `false` if it takes more rounds than `rounds`. -/
def worker (end_ : Nat) (t : T) : Nat → Prog (S × Control ε) Bool
  | 0 => pure false
  | rounds + 1 => do
    let id ← fetchAdd
    if end_ ≤ id then pure true
    else (fn id t).run.onFst >>= afterCall end_ (worker end_ t rounds)

/-- The threads before their first step. -/
def workers (start end_ rounds : Nat) (s : S) : Pool T (S × Control ε) Bool :=
  ⟨(s, ⟨start, none⟩), fun t => worker fn end_ t rounds⟩

/-- `for (size_t id = start; id < end; id++) fn(id, threadId)` -/
def forLoop (start end_ : Nat) (t : T) : ExceptT ε (Prog S) Unit :=
  forM (List.range' start (end_ - start)) fun id => fn id t

/-- `if (lastException) std::rethrow_exception(lastException)` -/
def rethrow : Option ε → Except ε Unit
  | none => .ok ()
  | some e => .error e

/-- What `ParallelFor` can do with `n` threads to a state that only `fn` works on. -/
def ParallelFor {n : Nat} (fn : Nat → Fin n → ExceptT ε (Prog S) Unit) (start end_ rounds : Nat)
    (s : S) (r : Except ε Unit) (s' : S) : Prop :=
  if n = 1 then
    ∃ p, Pool.Runs ⟨s, fun t => (forLoop fn start end_ t).run⟩ p ∧
      (∀ t, p.thread t = .done r) ∧ p.shared = s'
  else
    ∃ p, Pool.Runs (workers fn start end_ rounds s) p ∧ p.Finished ∧
      rethrow p.shared.2.lastException = r ∧ p.shared.1 = s'

end Workers

/-- `body` calls `fn` for one id after the other. -/
structure Serial (fn : Nat → T → ExceptT ε (Prog S) Unit) (a : α)
    (body : T → List Nat → ExceptT ε (Prog S) α) : Prop where
  nil : ∀ t, body t [] = pure a
  cons : ∀ t id ids, body t (id :: ids) = fn id t >>= fun _ => body t ids

private theorem serial_forM (fn : Nat → T → ExceptT ε (Prog S) Unit) :
    Serial fn () fun t ids => forM ids fun id => fn id t where
  nil _ := rfl
  cons _ _ _ := rfl

theorem Serial.run_eq {fn : Nat → T → ExceptT ε (Prog S) Unit} {a : α}
    {body : T → List Nat → ExceptT ε (Prog S) α} (h : Serial fn a body) (t : T) (ids : List Nat) :
    (body t ids).run = (forM ids fun id => fn id t : ExceptT ε (Prog S) Unit).run >>=
      fun r => .done (r.map fun _ => a) := by
  have hbind : body t ids = (forM ids fun id => fn id t) >>= fun _ => pure a := by
    induction ids with
    | nil => rw [h.nil, List.forM_nil, pure_bind]
    | cons id ids ih => rw [h.cons, ih, List.forM_cons, bind_assoc]
  rw [hbind, ExceptT.run_bind]
  refine congrArg _ (funext fun r => ?_)
  cases r <;> rfl

/-- The ids from `start` to `m` are dealt out, each to one thread. -/
structure Handout (start m : Nat) (ids : T → List Nat) : Prop where
  le : start ≤ m
  mem : ∀ id, (∃ t, id ∈ ids t) ↔ start ≤ id ∧ id < m
  increasing : ∀ t, (ids t).Pairwise (· < ·)
  disjoint : ∀ t u id, id ∈ ids t → id ∈ ids u → t = u

theorem Handout.empty (start : Nat) : Handout start start fun _ : T => [] where
  le := Nat.le_refl _
  mem id := by
    constructor
    · rintro ⟨t, ht⟩
      exact absurd ht List.not_mem_nil
    · omega
  increasing _ := List.Pairwise.nil
  disjoint _ _ _ h := absurd h List.not_mem_nil

theorem Handout.length_le {start m : Nat} {ids : T → List Nat} (h : Handout start m ids) (t : T) :
    (ids t).length ≤ m - start := by
  have hsub : (ids t).toFinset ⊆ Finset.Ico start m := fun id hid =>
    Finset.mem_Ico.mpr ((h.mem id).mp ⟨t, List.mem_toFinset.mp hid⟩)
  have hnodup : (ids t).Nodup := (h.increasing t).imp Nat.ne_of_lt
  have hcard := Finset.card_le_card hsub
  rwa [List.toFinset_card_of_nodup hnodup, Nat.card_Ico] at hcard

private theorem Handout.deal [DecidableEq T] {start m : Nat} {ids : T → List Nat} (h : Handout start m ids)
    (t : T) : Handout start (m + 1) (Function.update ids t (ids t ++ [m])) := by
  have hold : ∀ u id, id ∈ ids u → start ≤ id ∧ id < m := fun u id hid => (h.mem id).mp ⟨u, hid⟩
  have hmem : ∀ u id, id ∈ Function.update ids t (ids t ++ [m]) u ↔
      id ∈ ids u ∨ u = t ∧ id = m := by
    intro u id
    by_cases hu : u = t
    · subst hu
      simp
    · simp [hu]
  refine ⟨Nat.le_succ_of_le h.le, fun id => ?_, fun u => ?_, fun u v id hu hv => ?_⟩
  · constructor
    · rintro ⟨u, hu⟩
      have hle := h.le
      rcases (hmem u id).mp hu with hu | ⟨-, rfl⟩
      · have := hold u id hu
        omega
      · omega
    · rintro ⟨hlo, hhi⟩
      rcases Nat.lt_succ_iff_lt_or_eq.mp hhi with hlt | rfl
      · obtain ⟨u, hu⟩ := (h.mem id).mpr ⟨hlo, hlt⟩
        exact ⟨u, (hmem u id).mpr (Or.inl hu)⟩
      · exact ⟨t, (hmem t id).mpr (Or.inr ⟨rfl, rfl⟩)⟩
  · by_cases hu : u = t
    · subst hu
      rw [Function.update_self, List.pairwise_append]
      refine ⟨h.increasing u, List.pairwise_singleton _ _, fun x hx y hy => ?_⟩
      rw [List.mem_singleton.mp hy]
      exact (hold u x hx).2
    · rw [Function.update_of_ne hu]
      exact h.increasing u
  · rcases (hmem u id).mp hu with hu' | ⟨hut, hid⟩ <;>
      rcases (hmem v id).mp hv with hv' | ⟨hvt, hid'⟩
    · exact h.disjoint u v id hu' hv'
    · exact absurd (hold u id hu').2 (by omega)
    · exact absurd (hold v id hv').2 (by omega)
    · exact hut.trans hvt.symm

/-- A worker is inside `fn`, with so much of it and so many rounds to go, or behind its loop. -/
inductive Phase (S ε : Type) where
  | running (rest : Prog S (Except ε Unit)) (rounds : Nat)
  | stopped (r : Except ε Unit)

def Phase.isStopped : Phase S ε → Bool
  | .running _ _ => false
  | .stopped _ => true

@[simp] theorem Phase.isStopped_running (rest : Prog S (Except ε Unit)) (k : Nat) :
    (Phase.running rest k).isStopped = false := rfl

@[simp] theorem Phase.isStopped_stopped (r : Except ε Unit) :
    (Phase.stopped r : Phase S ε).isStopped = true := rfl

def resume (fn : Nat → T → ExceptT ε (Prog S) Unit) (end_ : Nat) (t : T) :
    Phase S ε → Prog (S × Control ε) Bool
  | .running rest rounds => rest.onFst >>= afterCall end_ (worker fn end_ t rounds)
  | .stopped _ => pure true

/-- What is left of a thread with fixed ids that still has `rest` to do behind the present one. -/
def remainder (a : α) (rest : ExceptT ε (Prog S) α) : Phase S ε → Prog S (Except ε α)
  | .running m _ => m >>= ExceptT.bindCont fun _ => rest
  | .stopped r => ExceptT.bindCont (fun _ => pure a) r

section Counter

variable [Fintype T] [DecidableEq T]

/-- The number of workers behind their loop. -/
def stoppedCount (φ : T → Phase S ε) : Nat := (Finset.univ.filter fun t => (φ t).isStopped).card

variable {start end_ m k : Nat} {c : Control ε} {φ : T → Phase S ε} {t u : T} {r : Except ε Unit}
  {rest : Prog S (Except ε Unit)}

private theorem stoppedCount_le : stoppedCount φ ≤ Fintype.card T := Finset.card_filter_le _ _

private theorem stoppedCount_stop (ht : (φ t).isStopped = false) :
    stoppedCount (Function.update φ t (.stopped r)) = stoppedCount φ + 1 := by
  have hset : (Finset.univ.filter fun u => (Function.update φ t (.stopped r) u).isStopped) =
      insert t (Finset.univ.filter fun u => (φ u).isStopped) := by
    ext u
    by_cases hu : u = t
    · subst hu
      simp
    · simp [hu]
  rw [stoppedCount, hset, Finset.card_insert_of_notMem (by simp [ht]), stoppedCount]

private theorem isStopped_update_running (ht : (φ t).isStopped = false) :
    (Function.update φ t (.running rest k) u).isStopped = (φ u).isStopped := by
  by_cases hu : u = t
  · subst hu
    rw [Function.update_self, ht, Phase.isStopped_running]
  · rw [Function.update_of_ne hu]

private theorem update_running_eq (ht : (φ t).isStopped = false) :
    Function.update φ t (.running rest k) u = .stopped r ↔ φ u = .stopped r := by
  by_cases hu : u = t
  · subst hu
    rw [Function.update_self]
    constructor
    · intro h
      cases h
    · intro h
      rw [h] at ht
      cases ht
  · rw [Function.update_of_ne hu]

/-- The counter when the ids below `m` are dealt. -/
structure Counter (start end_ : Nat) (c : Control ε) (φ : T → Phase S ε) (m : Nat) : Prop where
  dealt : m ≤ max start end_
  running : c.current < end_ → c.current = m ∧ c.lastException = none
  drained : end_ ≤ c.current → c.lastException = none → m = max start end_
  bound : c.current ≤ max start end_ + stoppedCount φ
  quit : ∀ t, (φ t).isStopped = true → end_ ≤ c.current
  unharmed : c.lastException = none → ∀ t e, φ t ≠ .stopped (.error e)
  blamed : ∀ e, c.lastException = some e → ∃ t, φ t = .stopped (.error e)

private theorem counter_start (h : ∀ t, (φ t).isStopped = false) :
    Counter start end_ ⟨start, none⟩ φ start where
  dealt := Nat.le_max_left _ _
  running _ := ⟨rfl, rfl⟩
  drained hle _ := (Nat.max_eq_left hle).symm
  bound := Nat.le_add_right_of_le (Nat.le_max_left _ _)
  quit t ht := absurd ((h t).symm.trans ht) Bool.false_ne_true
  unharmed _ t e he := by
    have hfalse := h t
    rw [he] at hfalse
    cases hfalse
  blamed _ he := absurd he.symm (Option.some_ne_none _)

theorem Counter.call (h : Counter start end_ c φ m) (ht : (φ t).isStopped = false) :
    Counter start end_ c (Function.update φ t (.running rest k)) m where
  dealt := h.dealt
  running := h.running
  drained := h.drained
  bound := by
    simp only [stoppedCount, isStopped_update_running ht]
    exact h.bound
  quit u hu := h.quit u (by rwa [isStopped_update_running ht] at hu)
  unharmed hn u e he := h.unharmed hn u e ((update_running_eq ht).mp he)
  blamed e he := by
    obtain ⟨u, hu⟩ := h.blamed e he
    exact ⟨u, (update_running_eq ht).mpr hu⟩

variable (hfit : max start end_ + Fintype.card T < sizeT)
include hfit

private theorem Counter.draw (h : Counter start end_ c φ m) (hle : start ≤ m) (hlt : c.current < end_)
    (ht : (φ t).isStopped = false) :
    Counter start end_ { c with current := (c.current + 1) % sizeT }
      (Function.update φ t (.running rest k)) (m + 1) := by
  obtain ⟨hcur, hnone⟩ := h.running hlt
  have hmax : end_ ≤ max start end_ := Nat.le_max_right _ _
  have hmod : (c.current + 1) % sizeT = m + 1 := by
    rw [Nat.mod_eq_of_lt (by omega), hcur]
  have hcall : Counter start end_ c (Function.update φ t (.running rest k)) m := h.call ht
  rw [hmod]
  refine ⟨by omega, fun _ => ⟨rfl, hnone⟩, fun hend _ => ?_, ?_, fun u hu => ?_, hcall.unharmed,
    hcall.blamed⟩
  · change end_ ≤ m + 1 at hend
    omega
  · change m + 1 ≤ _
    omega
  · have := hcall.quit u hu
    omega

theorem Counter.leave (h : Counter start end_ c φ m) (hend : end_ ≤ c.current)
    (ht : (φ t).isStopped = false) :
    Counter start end_ { c with current := (c.current + 1) % sizeT }
      (Function.update φ t (.stopped (.ok ()))) m := by
  have hcount := stoppedCount_stop (r := .ok ()) ht
  have hcard := stoppedCount_le (φ := Function.update φ t (.stopped (.ok ())))
  have hbound := h.bound
  have hmod : (c.current + 1) % sizeT = c.current + 1 := Nat.mod_eq_of_lt (by omega)
  rw [hmod]
  refine ⟨h.dealt, fun hlt => ?_, fun _ hnone => h.drained hend hnone, ?_, fun _ _ => ?_,
    fun hnone u e he => ?_, fun e he => ?_⟩
  · change c.current + 1 < end_ at hlt
    omega
  · change c.current + 1 ≤ _
    omega
  · change end_ ≤ c.current + 1
    omega
  · by_cases hu : u = t
    · subst hu
      rw [Function.update_self] at he
      cases he
    · rw [Function.update_of_ne hu] at he
      exact h.unharmed hnone u e he
  · obtain ⟨u, hu⟩ := h.blamed e he
    have hne : u ≠ t := by
      rintro rfl
      rw [hu] at ht
      cases ht
    exact ⟨u, by rw [Function.update_of_ne hne, hu]⟩

omit hfit in
theorem Counter.record (h : Counter start end_ c φ m) (e : ε) :
    Counter start end_ ⟨end_, some e⟩ (Function.update φ t (.stopped (.error e))) m where
  dealt := h.dealt
  running hlt := absurd hlt (Nat.lt_irrefl _)
  drained _ hnone := absurd hnone (Option.some_ne_none _)
  bound := Nat.le_add_right_of_le (Nat.le_max_right _ _)
  quit _ _ := Nat.le_refl _
  unharmed hnone := absurd hnone (Option.some_ne_none _)
  blamed e' he := by
    cases he
    exact ⟨t, Function.update_self _ _ _⟩

end Counter

section Shares

variable [Fintype T] [DecidableEq T]

/-- The workers `p` are in the phases `φ` and have drawn `ids` so far: threads that have these ids,
and any further ones for the workers that still run, can have come to the same point. -/
structure Shares (fn : Nat → T → ExceptT ε (Prog S) Unit) (a : α)
    (body : T → List Nat → ExceptT ε (Prog S) α) (start end_ rounds : Nat) (s : S)
    (p : Pool T (S × Control ε) Bool) (φ : T → Phase S ε) (ids : T → List Nat) (m : Nat) :
    Prop where
  thread : ∀ t, p.thread t = resume fn end_ t (φ t)
  counter : Counter start end_ p.shared.2 φ m
  handout : Handout start m ids
  drawn : ∀ t rest k, φ t = .running rest k → k + (ids t).length = rounds
  serial : ∀ further : T → List Nat, (∀ t, (φ t).isStopped = true → further t = []) →
    Pool.Runs ⟨s, fun t => (body t (ids t ++ further t)).run⟩
      ⟨p.shared.1, fun t => remainder a (body t (further t)) (φ t)⟩

variable {fn : Nat → T → ExceptT ε (Prog S) Unit} {a : α}
  {body : T → List Nat → ExceptT ε (Prog S) α} {start end_ rounds m : Nat} {s : S}
  {p p' : Pool T (S × Control ε) Bool} {φ : T → Phase S ε} {ids : T → List Nat} {t : T} {b : Bool}

private theorem shares_workers : Shares fn a body start end_ rounds s (workers fn start end_ rounds s)
    (fun _ => .running (pure (.ok ())) rounds) (fun _ => []) start where
  thread _ := rfl
  counter := counter_start fun _ => rfl
  handout := Handout.empty start
  drawn t rest k hr := by
    cases hr
    rfl
  serial _ _ := .refl

private theorem Shares.thread_update (h : Shares fn a body start end_ rounds s p φ ids m)
    {ph : Phase S ε} (u : T) :
    Function.update p.thread t (resume fn end_ t ph) u = resume fn end_ u (Function.update φ t ph u) := by
  by_cases hu : u = t
  · subst hu
    rw [Function.update_self, Function.update_self]
  · rw [Function.update_of_ne hu, Function.update_of_ne hu, h.thread u]

private theorem Shares.rounds_pos (h : Shares fn a body start end_ rounds s p φ ids m)
    (hrounds : end_ - start < rounds) {rest : Prog S (Except ε Unit)} {k : Nat}
    (ht : φ t = .running rest k) : 0 < k := by
  have hlen := h.handout.length_le t
  have hdrawn := h.drawn t rest k ht
  have hdealt := h.counter.dealt
  omega

theorem Shares.call (h : Shares fn a body start end_ rounds s p φ ids m) {ready : S → Bool}
    {effect : S → S} {next : S → Prog S (Except ε Unit)} {k : Nat}
    (ht : φ t = .running (.act ready effect next) k) (hready : ready p.shared.1 = true) :
    Shares fn a body start end_ rounds s
      ⟨(effect p.shared.1, p.shared.2),
        Function.update p.thread t (resume fn end_ t (.running (next p.shared.1) k))⟩
      (Function.update φ t (.running (next p.shared.1) k)) ids m := by
  have hrun : (φ t).isStopped = false := by rw [ht, Phase.isStopped_running]
  refine ⟨h.thread_update, h.counter.call hrun, h.handout, fun u rest j hu => ?_,
    fun further hf => ?_⟩
  · by_cases hut : u = t
    · subst hut
      rw [Function.update_self] at hu
      cases hu
      exact h.drawn u _ k ht
    · rw [Function.update_of_ne hut] at hu
      exact h.drawn u rest j hu
  · have hbefore := h.serial further fun u hu => hf u (by rwa [isStopped_update_running hrun])
    refine hbefore.tail ?_
    have hstep := Pool.Step.act (p := ⟨p.shared.1, fun u => remainder a (body u (further u)) (φ u)⟩) t
      (congrArg (remainder a (body t (further t))) ht) hready
    convert hstep using 2
    exact funext (Function.apply_update (fun u ph => remainder a (body u (further u)) ph) φ t _)

private theorem Shares.draw (hbody : Serial fn a body) (hfit : max start end_ + Fintype.card T < sizeT)
    (h : Shares fn a body start end_ rounds s p φ ids m) {k : Nat}
    (ht : φ t = .running (.done (.ok ())) (k + 1)) (hlt : p.shared.2.current < end_) :
    Shares fn a body start end_ rounds s
      ⟨(p.shared.1, { p.shared.2 with current := (p.shared.2.current + 1) % sizeT }),
        Function.update p.thread t (resume fn end_ t (.running (fn p.shared.2.current t).run k))⟩
      (Function.update φ t (.running (fn p.shared.2.current t).run k))
      (Function.update ids t (ids t ++ [m])) (m + 1) := by
  have hrun : (φ t).isStopped = false := by rw [ht, Phase.isStopped_running]
  have hcur := (h.counter.running hlt).1
  refine ⟨h.thread_update, h.counter.draw hfit h.handout.le hlt hrun, h.handout.deal t,
    fun u rest j hu => ?_, fun further hf => ?_⟩
  · by_cases hut : u = t
    · subst hut
      rw [Function.update_self] at hu ⊢
      cases hu
      have hdrawn := h.drawn u _ _ ht
      rw [List.length_append, List.length_singleton]
      omega
    · rw [Function.update_of_ne hut] at hu ⊢
      exact h.drawn u rest j hu
  · have hbefore := h.serial (Function.update further t (m :: further t)) fun u hu => by
      have hut : u ≠ t := by
        rintro rfl
        rw [hrun] at hu
        cases hu
      rw [Function.update_of_ne hut]
      exact hf u (by rwa [isStopped_update_running hrun])
    convert hbefore using 3
    · next u =>
      by_cases hut : u = t
      · subst hut
        rw [Function.update_self, Function.update_self, List.append_assoc, List.singleton_append]
      · rw [Function.update_of_ne hut, Function.update_of_ne hut]
    · next u =>
      by_cases hut : u = t
      · subst hut
        rw [Function.update_self, Function.update_self, ht, hbody.cons, hcur]
        rfl
      · rw [Function.update_of_ne hut, Function.update_of_ne hut]

theorem Shares.stop (h : Shares fn a body start end_ rounds s p φ ids m) {rest : Prog S (Except ε Unit)}
    {k : Nat} {r : Except ε Unit} {c : Control ε} (ht : φ t = .running rest k)
    (hc : Counter start end_ c (Function.update φ t (.stopped r)) m)
    (hr : remainder a (body t []) (.running rest k) = remainder a (body t []) (.stopped r)) :
    Shares fn a body start end_ rounds s
      ⟨(p.shared.1, c), Function.update p.thread t (resume fn end_ t (.stopped r))⟩
      (Function.update φ t (.stopped r)) ids m := by
  refine ⟨h.thread_update, hc, h.handout, fun u rest j hu => ?_, fun further hf => ?_⟩
  · by_cases hut : u = t
    · subst hut
      rw [Function.update_self] at hu
      cases hu
    · rw [Function.update_of_ne hut] at hu
      exact h.drawn u rest j hu
  · have hnil : further t = [] := hf t (by rw [Function.update_self, Phase.isStopped_stopped])
    have hbefore := h.serial further fun u hu => by
      by_cases hut : u = t
      · rw [hut, hnil]
      · exact hf u (by rwa [Function.update_of_ne hut])
    convert hbefore using 3
    next u =>
      by_cases hut : u = t
      · subst hut
        rw [Function.update_self, ht, hnil, hr]
      · rw [Function.update_of_ne hut]

theorem Shares.step (hbody : Serial fn a body) (hfit : max start end_ + Fintype.card T < sizeT)
    (hrounds : end_ - start < rounds) (h : Shares fn a body start end_ rounds s p φ ids m)
    (hs : Pool.Step p p') : ∃ φ' ids' m', Shares fn a body start end_ rounds s p' φ' ids' m' := by
  cases hs with
  | @act t ready effect next hp hready =>
    rw [h.thread t] at hp
    cases ht : φ t with
    | stopped r =>
      rw [ht] at hp
      cases hp
    | running rest k =>
      rw [ht] at hp
      have hrun : (φ t).isStopped = false := by rw [ht, Phase.isStopped_running]
      cases rest with
      | act ready' effect' next' =>
        cases hp
        exact ⟨_, _, _, h.call ht hready⟩
      | done r =>
        cases r with
        | error e =>
          cases hp
          exact ⟨_, _, _, h.stop ht (h.counter.record e) rfl⟩
        | ok u =>
          obtain ⟨k, rfl⟩ := Nat.exists_eq_succ_of_ne_zero (h.rounds_pos hrounds ht).ne'
          cases hp
          by_cases hend : end_ ≤ p.shared.2.current
          · have hstop := h.stop ht (h.counter.leave hfit hend hrun) (by rw [hbody.nil]; rfl)
            refine ⟨Function.update φ t (.stopped (.ok ())), ids, m, ?_⟩
            convert hstop using 3
            exact if_pos hend
          · have hdraw := h.draw hbody hfit ht (Nat.lt_of_not_le hend)
            refine ⟨Function.update φ t (.running (fn p.shared.2.current t).run k),
              Function.update ids t (ids t ++ [m]), m + 1, ?_⟩
            convert hdraw using 3
            exact if_neg hend

private theorem shares_of_runs (hbody : Serial fn a body) (hfit : max start end_ + Fintype.card T < sizeT)
    (hrounds : end_ - start < rounds) (hrun : Pool.Runs (workers fn start end_ rounds s) p) :
    ∃ φ ids m, Shares fn a body start end_ rounds s p φ ids m := by
  induction hrun with
  | refl => exact ⟨_, _, _, shares_workers⟩
  | tail _ hs ih =>
    obtain ⟨φ, ids, m, h⟩ := ih
    exact h.step hbody hfit hrounds hs

private theorem Shares.stopped_of_done (hrounds : end_ - start < rounds)
    (h : Shares fn a body start end_ rounds s p φ ids m) (ht : p.thread t = .done b) :
    b = true ∧ ∃ r, φ t = .stopped r := by
  rw [h.thread t] at ht
  cases hφ : φ t with
  | stopped r =>
    rw [hφ] at ht
    cases ht
    exact ⟨rfl, r, rfl⟩
  | running rest k =>
    rw [hφ] at ht
    obtain ⟨k, rfl⟩ := Nat.exists_eq_succ_of_ne_zero (h.rounds_pos hrounds hφ).ne'
    cases rest with
    | act ready effect next => cases ht
    | done r => cases r <;> cases ht

theorem Shares.finished [Nonempty T] (hrounds : end_ - start < rounds)
    (h : Shares fn a body start end_ rounds s p φ ids m) (hdone : p.Finished) :
    ∃ q, Pool.Runs ⟨s, fun t => (body t (ids t)).run⟩ q ∧ q.Finished ∧ q.shared = p.shared.1 ∧
      (p.shared.2.lastException = none → m = max start end_ ∧ ∀ t, q.thread t = .done (.ok a)) ∧
      ∀ e, p.shared.2.lastException = some e → ∃ t, q.thread t = .done (.error e) := by
  have hstopped : ∀ t, ∃ r, φ t = .stopped r := fun t => by
    obtain ⟨b, hb⟩ := hdone t
    exact (h.stopped_of_done hrounds hb).2
  have hserial := h.serial (fun _ => []) fun _ _ => rfl
  simp only [List.append_nil] at hserial
  refine ⟨_, hserial, fun t => ?_, rfl, fun hnone => ⟨?_, fun t => ?_⟩, fun e he => ?_⟩
  · obtain ⟨r, hr⟩ := hstopped t
    cases r with
    | ok u => exact ⟨.ok a, congrArg (remainder a (body t [])) hr⟩
    | error e => exact ⟨.error e, congrArg (remainder a (body t [])) hr⟩
  · obtain ⟨t⟩ := ‹Nonempty T›
    obtain ⟨r, hr⟩ := hstopped t
    exact h.counter.drained (h.counter.quit t (by rw [hr, Phase.isStopped_stopped])) hnone
  · obtain ⟨r, hr⟩ := hstopped t
    cases r with
    | ok u => exact congrArg (remainder a (body t [])) hr
    | error e => exact absurd hr (h.counter.unharmed hnone t e)
  · obtain ⟨t, ht⟩ := h.counter.blamed e he
    exact ⟨t, congrArg (remainder a (body t [])) ht⟩

private theorem Shares.step_between (hrounds : end_ - start < rounds)
    (h : Shares fn a body start end_ rounds s p φ ids m) {r : Except ε Unit} {k : Nat}
    (ht : φ t = .running (.done r) k) : ∃ p', Pool.Step p p' := by
  obtain ⟨k, rfl⟩ := Nat.exists_eq_succ_of_ne_zero (h.rounds_pos hrounds ht).ne'
  have hthread := h.thread t
  rw [ht] at hthread
  cases r with
  | ok u => exact ⟨_, Pool.Step.act t hthread rfl⟩
  | error e => exact ⟨_, Pool.Step.act t hthread rfl⟩

theorem Shares.progress (hrounds : end_ - start < rounds)
    (h : Shares fn a body start end_ rounds s p φ ids m)
    (hlive : Pool.Live ⟨s, fun t => (body t (ids t)).run⟩) :
    p.Finished ∨ ∃ p', Pool.Step p p' := by
  have hserial := h.serial (fun _ => []) fun _ _ => rfl
  simp only [List.append_nil] at hserial
  by_cases hbetween : ∃ t r k, φ t = .running (.done r) k
  · obtain ⟨t, r, k, ht⟩ := hbetween
    exact Or.inr (h.step_between hrounds ht)
  · rcases hlive _ hserial with hdone | ⟨q, hstep⟩
    · refine Or.inl fun t => ?_
      obtain ⟨b, hb⟩ := hdone t
      cases ht : φ t with
      | stopped r => exact ⟨true, by rw [h.thread t, ht]; rfl⟩
      | running rest k =>
        cases rest with
        | done r => exact absurd ⟨t, r, k, ht⟩ hbetween
        | act ready effect next =>
          dsimp only at hb
          rw [ht] at hb
          cases hb
    · refine Or.inr ?_
      cases hstep with
      | @act t ready effect next hq hready =>
        dsimp only at hq
        cases ht : φ t with
        | stopped r =>
          rw [ht] at hq
          cases r <;> cases hq
        | running rest k =>
          cases rest with
          | done r => exact absurd ⟨t, r, k, ht⟩ hbetween
          | act ready' effect' next' =>
            have hthread := h.thread t
            rw [ht] at hthread hq
            cases hq
            exact ⟨_, Pool.Step.act t hthread hready⟩

end Shares

section Loop

variable {n : Nat} {fn : Nat → Fin n → ExceptT ε (Prog S) Unit} {a : α}
  {body : Fin n → List Nat → ExceptT ε (Prog S) α} {start end_ rounds : Nat} {s s' : S}
  {r : Except ε Unit}

private theorem handout_one (hn : n = 1) (start end_ : Nat) : Handout start (max start end_)
    fun _ : Fin n => List.range' start (end_ - start) where
  le := Nat.le_max_left _ _
  mem id := by
    subst hn
    constructor
    · rintro ⟨-, hid⟩
      rw [List.mem_range'_1] at hid
      omega
    · intro hid
      exact ⟨0, List.mem_range'_1.mpr (by omega)⟩
  increasing _ := List.pairwise_lt_range'
  disjoint t u _ _ _ := by
    subst hn
    exact Subsingleton.elim t u

theorem ParallelFor.serial (hbody : Serial fn a body) (hn : 0 < n)
    (hfit : max start end_ + n < sizeT) (hrounds : end_ - start < rounds)
    (h : ParallelFor fn start end_ rounds s r s') :
    ∃ ids m q, Handout start m ids ∧ m ≤ max start end_ ∧
      Pool.Runs ⟨s, fun t => (body t (ids t)).run⟩ q ∧ q.Finished ∧ q.shared = s' ∧
      (r = .ok () → m = max start end_ ∧ ∀ t, q.thread t = .done (.ok a)) ∧
      ∀ e, r = .error e → ∃ t, q.thread t = .done (.error e) := by
  rw [ParallelFor] at h
  split at h
  · next hone =>
    obtain ⟨p, hrun, hthread, rfl⟩ := h
    have hrun' := Pool.runs_andThen hrun fun r => .done (r.map fun _ => a)
    refine ⟨_, _, p.andThen fun r => .done (r.map fun _ => a), handout_one hone start end_,
      Nat.le_refl _, ?_, fun t => ?_, rfl, ?_, ?_⟩
    · simp only [hbody.run_eq]
      exact hrun'
    · exact ⟨r.map fun _ => a, by rw [Pool.andThen_thread, hthread t, Prog.done_bind]⟩
    · rintro rfl
      exact ⟨rfl, fun t => by rw [Pool.andThen_thread, hthread t, Prog.done_bind]; rfl⟩
    · rintro e rfl
      exact ⟨⟨0, hn⟩, by rw [Pool.andThen_thread, hthread, Prog.done_bind]; rfl⟩
  · obtain ⟨p, hrun, hdone, hr, rfl⟩ := h
    have hne : Nonempty (Fin n) := ⟨⟨0, hn⟩⟩
    rw [← Fintype.card_fin n] at hfit
    obtain ⟨φ, ids, m, hsh⟩ := shares_of_runs hbody hfit hrounds hrun
    obtain ⟨q, hq, hfin, hshared, hok, hbad⟩ := hsh.finished hrounds hdone
    refine ⟨ids, m, q, hsh.handout, hsh.counter.dealt, hq, hfin, hshared, fun hr' => hok ?_,
      fun e hr' => hbad e ?_⟩ <;>
    · rw [hr'] at hr
      cases hl : p.shared.2.lastException <;> rw [hl] at hr <;> cases hr <;> rfl

/-- Without an exception, every id from `start` to `end_` is passed to `fn` once, by one thread, and
each thread takes its ids in increasing order; otherwise the ids that were passed are the first ones,
and the exception of a call is rethrown. -/
theorem parallelFor_deals (hn : 0 < n) (hfit : max start end_ + n < sizeT)
    (hrounds : end_ - start < rounds) (h : ParallelFor fn start end_ rounds s r s') :
    ∃ (ids : Fin n → List Nat) (m : Nat) (q : Pool (Fin n) S (Except ε Unit)),
      Handout start m ids ∧ m ≤ max start end_ ∧
      Pool.Runs ⟨s, fun t => (forM (ids t) fun id => fn id t : ExceptT ε (Prog S) Unit).run⟩ q ∧
      q.Finished ∧ q.shared = s' ∧
      (r = .ok () → m = max start end_ ∧ ∀ t, q.thread t = .done (.ok ())) ∧
      ∀ e, r = .error e → ∃ t, q.thread t = .done (.error e) :=
  h.serial (serial_forM fn) hn hfit hrounds

def writeDown (id : Nat) (_ : Fin 2) : ExceptT String (Prog (List Nat)) Unit :=
  ExceptT.lift (Prog.atomic (fun _ => true) fun s => ((), s ++ [id]))

private theorem parallelFor_writeDown : ParallelFor writeDown 0 3 4 [] (.ok ()) [0, 1, 2] := by
  have hfirst := Pool.runs_of_solo (workers writeDown 0 3 4 []) 0
    (a := true) (s := ([0, 1, 2], ⟨4, none⟩)) rfl
  have hsecond := Pool.runs_of_solo ⟨([0, 1, 2], ⟨4, none⟩),
    Function.update (workers writeDown 0 3 4 []).thread 0 (.done true)⟩ 1
    (a := true) (s := ([0, 1, 2], ⟨5, none⟩)) rfl
  rw [ParallelFor, if_neg (by decide)]
  refine ⟨_, hfirst.trans hsecond, fun t => ⟨true, ?_⟩, rfl, rfl⟩
  fin_cases t <;> rfl

theorem parallelFor_deals_writeDown :
    ∃ (ids : Fin 2 → List Nat) (m : Nat) (q : Pool (Fin 2) (List Nat) (Except String Unit)),
      Handout 0 m ids ∧ q.shared = [0, 1, 2] ∧ m = 3 := by
  obtain ⟨ids, m, q, hdeal, -, -, -, hq, hok, -⟩ :=
    parallelFor_deals (by decide) (by decide) (by decide) parallelFor_writeDown
  exact ⟨ids, m, q, hdeal, hq, (hok rfl).1⟩

private theorem parallelFor_live (hbody : Serial fn a body)
    (hfit : max start end_ + n < sizeT) (hrounds : end_ - start < rounds)
    (hlive : ∀ ids m, Handout start m ids → m ≤ max start end_ →
      Pool.Live ⟨s, fun t => (body t (ids t)).run⟩) :
    if n = 1 then Pool.Live ⟨s, fun t => (forLoop fn start end_ t).run⟩
    else Pool.Live (workers fn start end_ rounds s) := by
  split
  · next hone =>
    have hall := hlive _ _ (handout_one hone start end_) (Nat.le_refl _)
    simp only [hbody.run_eq] at hall
    exact Pool.Live.of_andThen hall
  · intro p hrun
    rw [← Fintype.card_fin n] at hfit
    obtain ⟨φ, ids, m, hsh⟩ := shares_of_runs hbody hfit hrounds hrun
    exact hsh.progress hrounds (hlive ids m hsh.handout hsh.counter.dealt)

theorem exists_parallelFor (hn : 0 < n) (hbody : Serial fn a body)
    (hfit : max start end_ + n < sizeT) (hrounds : end_ - start < rounds)
    (hlive : ∀ ids m, Handout start m ids → m ≤ max start end_ →
      Pool.Live ⟨s, fun t => (body t (ids t)).run⟩) :
    ∃ r s', ParallelFor fn start end_ rounds s r s' := by
  have hloop := parallelFor_live hbody hfit hrounds hlive
  split at hloop
  · next hone =>
    obtain ⟨p, hrun, hdone⟩ := hloop.exists_finished
    obtain ⟨r, hr⟩ := hdone ⟨0, hn⟩
    refine ⟨r, p.shared, ?_⟩
    rw [ParallelFor, if_pos hone]
    refine ⟨p, hrun, fun t => ?_, rfl⟩
    rwa [show t = ⟨0, hn⟩ from Fin.ext (by omega)]
  · next hmany =>
    obtain ⟨p, hrun, hdone⟩ := hloop.exists_finished
    refine ⟨rethrow p.shared.2.lastException, p.shared.1, ?_⟩
    rw [ParallelFor, if_neg hmany]
    exact ⟨p, hrun, hdone, rfl, rfl⟩

end Loop

end HnswRvv.Bindings
