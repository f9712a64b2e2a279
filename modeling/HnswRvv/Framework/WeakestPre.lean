import Mathlib

/-!
# Weakest preconditions for state with failure

`wp m Q E s` holds when the run of `m` from `s` either returns with `Q` or fails with `E`;
the state at the failure is kept, so `E` can speak about it.
-/

namespace HnswRvv.Framework

variable {ε σ α β : Type}

def wp (m : EStateM ε σ α) (Q : α → σ → Prop) (E : ε → σ → Prop) (s : σ) : Prop :=
  match m s with
  | .ok a s' => Q a s'
  | .error e s' => E e s'

theorem wp_def {m : EStateM ε σ α} {Q : α → σ → Prop} {E : ε → σ → Prop} {s : σ} :
    wp m Q E s ↔ (∀ a s', m s = .ok a s' → Q a s') ∧ ∀ e s', m s = .error e s' → E e s' := by
  unfold wp
  cases h : m s with
  | ok a s' =>
    refine ⟨fun hq => ⟨?_, nofun⟩, fun hq => hq.1 a s' rfl⟩
    rintro _ _ ⟨⟩
    exact hq
  | error e s' =>
    refine ⟨fun he => ⟨nofun, ?_⟩, fun hq => hq.2 e s' rfl⟩
    rintro _ _ ⟨⟩
    exact he

/-- How a run failed, and the state it left. -/
def failure : EStateM.Result ε σ α → Option (ε × σ)
  | .ok _ _ => none
  | .error e s => some (e, s)

theorem failure_eq_some {r : EStateM.Result ε σ α} {e : ε} {s : σ} :
    failure r = some (e, s) ↔ r = .error e s := by
  cases r with
  | ok a s' => simp [failure]
  | error e' s' => simp [failure]

@[simp] theorem wp_pure (a : α) (Q : α → σ → Prop) (E : ε → σ → Prop) (s : σ) :
    wp (pure a : EStateM ε σ α) Q E s = Q a s := rfl

@[simp] theorem wp_bind (m : EStateM ε σ α) (f : α → EStateM ε σ β) (Q : β → σ → Prop)
    (E : ε → σ → Prop) (s : σ) : wp (m >>= f) Q E s = wp m (fun a => wp (f a) Q E) E s := by
  simp only [wp, bind, EStateM.bind]
  cases m s <;> rfl

@[simp] theorem wp_get (Q : σ → σ → Prop) (E : ε → σ → Prop) (s : σ) :
    wp (get : EStateM ε σ σ) Q E s = Q s s := rfl

@[simp] theorem wp_set (s' : σ) (Q : PUnit → σ → Prop) (E : ε → σ → Prop) (s : σ) :
    wp (set s' : EStateM ε σ PUnit) Q E s = Q ⟨⟩ s' := rfl

@[simp] theorem wp_modify (f : σ → σ) (Q : PUnit → σ → Prop) (E : ε → σ → Prop) (s : σ) :
    wp (modify f : EStateM ε σ PUnit) Q E s = Q ⟨⟩ (f s) := rfl

@[simp] theorem wp_throw (e : ε) (Q : α → σ → Prop) (E : ε → σ → Prop) (s : σ) :
    wp (throw e : EStateM ε σ α) Q E s = E e s := rfl

/-- A computation that only reads, run inside one that keeps a state. -/
def readOnly (x : Except ε α) : EStateM ε σ α := fun s =>
  match x with
  | .ok a => .ok a s
  | .error e => .error e s

@[simp] theorem wp_readOnly_ok (a : α) (Q : α → σ → Prop) (E : ε → σ → Prop) (s : σ) :
    wp (readOnly (.ok a) : EStateM ε σ α) Q E s = Q a s := rfl

theorem wp_mono {m : EStateM ε σ α} {Q Q' : α → σ → Prop} {E E' : ε → σ → Prop} {s : σ}
    (h : wp m Q E s) (hq : ∀ a s', Q a s' → Q' a s') (he : ∀ e s', E e s' → E' e s') :
    wp m Q' E' s := by
  unfold wp at h ⊢
  cases hm : m s with
  | ok a s' => rw [hm] at h; exact hq a s' h
  | error e s' => rw [hm] at h; exact he e s' h

theorem exists_ok_of_wp {m : EStateM ε σ α} {Q : α → σ → Prop} {s : σ}
    (h : wp m Q (fun _ _ => False) s) : ∃ a s', m s = .ok a s' ∧ Q a s' := by
  obtain ⟨hok, herror⟩ := wp_def.mp h
  cases hm : m s with
  | ok a s' => exact ⟨a, s', rfl, hok a s' hm⟩
  | error e s' => exact (herror e s' hm).elim

theorem wp_forM {l : List α} {f : α → EStateM ε σ PUnit} {I : σ → Prop} {E : ε → σ → Prop} {s : σ}
    (hs : I s) (hstep : ∀ a ∈ l, ∀ s, I s → wp (f a) (fun _ => I) E s) :
    wp (forM l f) (fun _ => I) E s := by
  induction l generalizing s with
  | nil => exact hs
  | cons a l ih =>
    rw [List.forM_cons, wp_bind]
    refine wp_mono (hstep a List.mem_cons_self s hs) (fun _ s' hs' => ?_) fun _ _ he => he
    exact ih hs' fun b hb => hstep b (List.mem_cons_of_mem a hb)

/-- Loop rule for a counting loop, whose invariant may speak about the rounds done. -/
theorem wp_forM_range {n : Nat} {f : Nat → EStateM ε σ PUnit} {I : Nat → σ → Prop}
    {E : ε → σ → Prop} {s : σ} (hs : I 0 s)
    (hstep : ∀ i < n, ∀ s, I i s → wp (f i) (fun _ => I (i + 1)) E s) :
    wp (forM (List.range n) f) (fun _ => I n) E s := by
  have hloop : ∀ k i s, i + k = n → I i s →
      wp (forM (List.range' i k) f) (fun _ => I n) E s := by
    intro k
    induction k with
    | zero =>
      intro i s hk hi
      rw [Nat.add_zero] at hk
      exact hk ▸ hi
    | succ k ih =>
      intro i s hk hi
      rw [List.range'_succ, List.forM_cons, wp_bind]
      refine wp_mono (hstep i (by omega) s hi) (fun _ s' hs' => ?_) fun _ _ he => he
      exact ih (i + 1) s' (by omega) hs'
  rw [List.range_eq_range']
  exact hloop n 0 s (Nat.zero_add n) hs

/-- Every run of `m` ends in a state related to the one it started in. -/
def Keeps (R : σ → σ → Prop) (m : EStateM ε σ α) : Prop :=
  ∀ s, wp m (fun _ s' => R s s') (fun _ s' => R s s') s

section Keeps

variable {R : σ → σ → Prop}

theorem keeps_pure (hrefl : ∀ s, R s s) (a : α) : Keeps R (pure a : EStateM ε σ α) :=
  fun s => hrefl s

theorem keeps_throw (hrefl : ∀ s, R s s) (e : ε) : Keeps R (throw e : EStateM ε σ α) :=
  fun s => hrefl s

theorem keeps_modify {f : σ → σ} (h : ∀ s, R s (f s)) :
    Keeps R (modify f : EStateM ε σ PUnit) := h

theorem keeps_readOnly (hrefl : ∀ s, R s s) (x : Except ε α) :
    Keeps R (readOnly x : EStateM ε σ α) := by
  intro s
  cases x with
  | ok a => exact hrefl s
  | error e => exact hrefl s

theorem Keeps.bind (htrans : ∀ s s' s'', R s s' → R s' s'' → R s s'') {m : EStateM ε σ α}
    {f : α → EStateM ε σ β} (hm : Keeps R m) (hf : ∀ a, Keeps R (f a)) : Keeps R (m >>= f) := by
  intro s
  rw [wp_bind]
  refine wp_mono (hm s) (fun a s' hs' => ?_) fun _ _ he => he
  exact wp_mono (hf a s') (fun _ s'' hs'' => htrans s s' s'' hs' hs'')
    fun _ s'' hs'' => htrans s s' s'' hs' hs''

/-- After `get`, what follows need only be good for the state it got. -/
theorem keeps_get {f : σ → EStateM ε σ α}
    (hf : ∀ s, wp (f s) (fun _ s' => R s s') (fun _ s' => R s s') s) : Keeps R (get >>= f) := hf

theorem keeps_forM (hrefl : ∀ s, R s s) (htrans : ∀ s s' s'', R s s' → R s' s'' → R s s'')
    {l : List α} {f : α → EStateM ε σ PUnit} (hf : ∀ a, Keeps R (f a)) : Keeps R (forM l f) := by
  induction l with
  | nil => exact keeps_pure hrefl PUnit.unit
  | cons a l ih =>
    rw [List.forM_cons]
    exact (hf a).bind htrans fun _ => ih

end Keeps

end HnswRvv.Framework
