import Mathlib

/-!
# Threads that interleave

The program of a thread is a tree of acts on a shared state. An act waits until the state is ready
for it, changes the state in one step, and goes on with what it has seen. A pool of threads runs by
letting any thread whose act is ready make its step; nothing is assumed about the choice.
-/

namespace HnswRvv.Framework

inductive Prog (S α : Type) : Type
  | done (a : α)
  | act (ready : S → Bool) (effect : S → S) (next : S → Prog S α)

namespace Prog

variable {S α β : Type}

def bind : Prog S α → (α → Prog S β) → Prog S β
  | done a, f => f a
  | act ready effect next, f => act ready effect fun s => (next s).bind f

instance : Monad (Prog S) where
  pure := done
  bind := bind

@[simp] theorem done_bind (a : α) (f : α → Prog S β) : (done a : Prog S α) >>= f = f a := rfl

@[simp] theorem act_bind (ready : S → Bool) (effect : S → S) (next : S → Prog S α)
    (f : α → Prog S β) :
    act ready effect next >>= f = act ready effect fun s => next s >>= f := rfl

theorem bind_pure_eq (p : Prog S α) : p.bind done = p := by
  induction p with
  | done a => rfl
  | act ready effect next ih => exact congrArg (act ready effect) (funext ih)

theorem bind_bind {γ : Type} (p : Prog S α) (f : α → Prog S β) (g : β → Prog S γ) :
    (p.bind f).bind g = p.bind fun a => (f a).bind g := by
  induction p with
  | done a => rfl
  | act ready effect next ih => exact congrArg (act ready effect) (funext ih)

instance : LawfulMonad (Prog S) :=
  LawfulMonad.mk' (Prog S) bind_pure_eq (fun _ _ => rfl) bind_bind

/-- One act: the value it returns and the state it leaves. -/
def atomic (ready : S → Bool) (f : S → α × S) : Prog S α :=
  act ready (fun s => (f s).2) fun s => done (f s).1

/-- A program followed by clean-up that runs also when an exception passes. -/
def ensuring {ε : Type} (m : ExceptT ε (Prog S) α) (fin : Prog S Unit) : ExceptT ε (Prog S) α :=
  ExceptT.mk do
    let r ← m.run
    fin
    pure r

/-- A program on the first part of a state. -/
def onFst {C : Type} : Prog S α → Prog (S × C) α
  | done a => done a
  | act ready effect next =>
    act (fun σ => ready σ.1) (fun σ => (effect σ.1, σ.2)) fun σ => (next σ.1).onFst

/-- The run of a thread that nobody interferes with; `none` if it has to wait. -/
def solo : Prog S α → S → Option (α × S)
  | done a, s => some (a, s)
  | act ready effect next, s => if ready s then (next s).solo (effect s) else none

/-- What the program computes if no act ever waits. -/
def force : Prog S α → S → α × S
  | done a, s => (a, s)
  | act _ effect next, s => (next s).force (effect s)

@[simp] theorem force_atomic (ready : S → Bool) (f : S → α × S) (s : S) :
    (atomic ready f).force s = f s := rfl

@[simp] theorem force_bind (p : Prog S α) (f : α → Prog S β) (s : S) :
    (p >>= f).force s = (f (p.force s).1).force (p.force s).2 := by
  induction p generalizing s with
  | done a => rfl
  | act ready effect next ih => exact ih s (effect s)

theorem force_of_solo {p : Prog S α} {s : S} {r : α × S} (h : p.solo s = some r) :
    p.force s = r := by
  induction p generalizing s with
  | done a => exact Option.some.inj h
  | act ready effect next ih =>
    rw [solo] at h
    split at h
    · exact ih s h
    · cases h

end Prog

structure Pool (ι S α : Type) where
  shared : S
  thread : ι → Prog S α

namespace Pool

variable {ι S α : Type} [DecidableEq ι]

inductive Step : Pool ι S α → Pool ι S α → Prop
  | act {p : Pool ι S α} (t : ι) {ready : S → Bool} {effect : S → S} {next : S → Prog S α} :
      p.thread t = .act ready effect next → ready p.shared = true →
      Step p ⟨effect p.shared, Function.update p.thread t (next p.shared)⟩

/-- Any number of steps, in any order of the threads. -/
abbrev Runs : Pool ι S α → Pool ι S α → Prop := Relation.ReflTransGen Step

def Finished (p : Pool ι S α) : Prop := ∀ t, ∃ a, p.thread t = .done a

/-- A thread that nobody interferes with makes its run inside the pool. -/
theorem runs_of_solo (p : Pool ι S α) (t : ι) {a : α} {s : S}
    (h : (p.thread t).solo p.shared = some (a, s)) :
    Runs p ⟨s, Function.update p.thread t (.done a)⟩ := by
  obtain ⟨shared, thread⟩ := p
  dsimp only at h ⊢
  generalize hp : thread t = prog at h
  induction prog generalizing shared thread with
  | done b =>
    cases h
    rw [← hp, Function.update_eq_self]
  | act ready effect next ih =>
    rw [Prog.solo] at h
    split at h
    · next hready =>
      refine Relation.ReflTransGen.head (Step.act t hp hready) ?_
      have hrest := ih shared (effect shared) (Function.update thread t (next shared))
        (Function.update_self _ _ _) h
      rwa [Function.update_idem] at hrest
    · cases h

/-- The threads go on with `f`. -/
def andThen {β : Type} (p : Pool ι S α) (f : α → Prog S β) : Pool ι S β :=
  ⟨p.shared, fun t => p.thread t >>= f⟩

omit [DecidableEq ι] in
theorem andThen_thread {β : Type} (p : Pool ι S α) (f : α → Prog S β) (t : ι) :
    (p.andThen f).thread t = p.thread t >>= f := rfl

theorem Step.andThen {β : Type} {p p' : Pool ι S α} (h : Step p p') (f : α → Prog S β) :
    Step (p.andThen f) (p'.andThen f) := by
  cases h with
  | @act t ready effect next hp hready =>
    have hf : (p.andThen f).thread t = .act ready effect fun s => next s >>= f := by
      rw [andThen_thread, hp, Prog.act_bind]
    have hupdate : (fun u => Function.update p.thread t (next p.shared) u >>= f) =
        Function.update (p.andThen f).thread t (next (p.andThen f).shared >>= f) :=
      funext (Function.apply_update (fun _ (q : Prog S α) => q >>= f) p.thread t _)
    have hstep := Step.act t hf hready
    rwa [← hupdate] at hstep

theorem runs_andThen {β : Type} {p p' : Pool ι S α} (h : Runs p p') (f : α → Prog S β) :
    Runs (p.andThen f) (p'.andThen f) := by
  induction h with
  | refl => exact .refl
  | tail _ hs ih => exact ih.tail (hs.andThen f)

/-- Wherever the schedule has led, all threads are done or one of them can go on. -/
def Live (p : Pool ι S α) : Prop := ∀ p', Runs p p' → Finished p' ∨ ∃ p'', Step p' p''

/-- Threads that could go on with a last value can go on without it. -/
theorem Live.of_andThen {β : Type} {p : Pool ι S α} {f : α → β}
    (h : Live (p.andThen fun a => .done (f a))) : Live p := by
  intro p' hrun
  rcases h _ (runs_andThen hrun _) with hdone | ⟨p'', hstep⟩
  · refine Or.inl fun t => ?_
    obtain ⟨b, hb⟩ := hdone t
    cases ht : p'.thread t with
    | done a => exact ⟨a, rfl⟩
    | act ready effect next =>
      rw [andThen_thread, ht] at hb
      cases hb
  · refine Or.inr ?_
    cases hstep with
    | @act t ready effect next hp hready =>
      cases ht : p'.thread t with
      | done a =>
        rw [andThen_thread, ht] at hp
        cases hp
      | act ready' effect' next' =>
        rw [andThen_thread, ht] at hp
        cases hp
        exact ⟨_, Step.act t ht hready⟩

theorem solo_of_live {p : Pool ι S α} {t : ι} (hlive : Live p)
    (hothers : ∀ u, u ≠ t → ∃ a, p.thread u = .done a) :
    ∃ r, (p.thread t).solo p.shared = some r := by
  obtain ⟨shared, thread⟩ := p
  dsimp only at hothers ⊢
  generalize hp : thread t = prog
  induction prog generalizing shared thread with
  | done a => exact ⟨(a, shared), rfl⟩
  | act ready effect next ih =>
    have hready : ready shared = true := by
      rcases hlive _ .refl with hdone | ⟨p', hstep⟩
      · obtain ⟨a, ha⟩ := hdone t
        dsimp only at ha
        rw [hp] at ha
        cases ha
      · cases hstep with
        | @act u ready' effect' next' hu hready =>
          dsimp only at hu
          by_cases hut : u = t
          · rw [hut, hp] at hu
            cases hu
            exact hready
          · obtain ⟨a, ha⟩ := hothers u hut
            rw [ha] at hu
            cases hu
    rw [Prog.solo, if_pos hready]
    refine ih shared (effect shared) (Function.update thread t (next shared)) (fun p' hrun => ?_)
      (fun u hu => ?_) (Function.update_self _ _ _)
    · exact hlive p' (.head (Step.act t hp hready) hrun)
    · rw [Function.update_of_ne hu]
      exact hothers u hu

/-- `q` is what is left of `p` after one act. -/
def After (q p : Prog S α) : Prop := ∃ ready effect next s, p = .act ready effect next ∧ q = next s

theorem wellFounded_after : WellFounded (After : Prog S α → Prog S α → Prop) := by
  refine ⟨fun p => ?_⟩
  induction p with
  | done a =>
    refine ⟨_, ?_⟩
    rintro q ⟨ready, effect, next, s, hp, -⟩
    cases hp
  | act ready effect next ih =>
    refine ⟨_, ?_⟩
    rintro q ⟨ready', effect', next', s, hp, rfl⟩
    cases hp
    exact ih s

/-- The programs of the threads, as a multiset. -/
def programs [Fintype ι] (p : Pool ι S α) : Multiset (Prog S α) :=
  (Finset.univ : Finset ι).val.map p.thread

theorem Step.cutExpand [Fintype ι] {p p' : Pool ι S α} (h : Step p p') :
    Relation.CutExpand After p'.programs p.programs := by
  cases h with
  | @act t ready effect next hp hready =>
    have hsplit : ∀ f : ι → Prog S α, (Finset.univ : Finset ι).val.map f =
        f t ::ₘ ((Finset.univ : Finset ι).erase t).val.map f := by
      intro f
      rw [← Multiset.map_cons, Finset.erase_val, Multiset.cons_erase (Finset.mem_univ t)]
    have hrest : ((Finset.univ : Finset ι).erase t).val.map
        (Function.update p.thread t (next p.shared)) =
        ((Finset.univ : Finset ι).erase t).val.map p.thread := by
      refine Multiset.map_congr rfl fun u hu => ?_
      exact Function.update_of_ne (Finset.ne_of_mem_erase hu) _ _
    rw [programs, programs, hsplit, hsplit p.thread, hrest, ← Multiset.singleton_add,
      ← Multiset.singleton_add]
    dsimp only
    rw [Function.update_self]
    exact Relation.cutExpand_single_add ⟨ready, effect, next, p.shared, hp, rfl⟩ _

theorem wellFounded_step [Finite ι] :
    WellFounded fun p' p : Pool ι S α => Step p p' := by
  have := Fintype.ofFinite ι
  have : Std.Irrefl (After : Prog S α → Prog S α → Prop) := wellFounded_after.irrefl
  exact Subrelation.wf (fun h => h.cutExpand)
    (InvImage.wf programs (WellFounded.cutExpand wellFounded_after))

/-- If a pool that is not finished can always make a step, every run reaches a finished pool. -/
theorem exists_finished [Finite ι] {Good : Pool ι S α → Prop}
    (hstep : ∀ p p', Good p → Step p p' → Good p')
    (hprogress : ∀ p, Good p → Finished p ∨ ∃ p', Step p p') {p : Pool ι S α} (hp : Good p) :
    ∃ p', Runs p p' ∧ Finished p' := by
  revert hp
  apply wellFounded_step.induction p
  intro p ih hp
  rcases hprogress p hp with hdone | ⟨p', hp'⟩
  · exact ⟨p, .refl, hdone⟩
  · obtain ⟨q, hq, hdone⟩ := ih p' hp' (hstep p p' hp hp')
    exact ⟨q, .head hp' hq, hdone⟩

theorem Live.exists_finished [Finite ι] {p : Pool ι S α} (h : Live p) :
    ∃ p', Runs p p' ∧ Finished p' := by
  have hstep : ∀ p p' : Pool ι S α, Live p → Step p p' → Live p' :=
    fun _ _ hp hs q hrun => hp q (.head hs hrun)
  exact Pool.exists_finished hstep (fun p hp => hp p .refl) h

end Pool

end HnswRvv.Framework
