import HnswRvv.Bruteforce.State

/-!
# A brute-force index as a finite map

`VectorTable` says what a brute-force index is for: the labels added and not since removed, each
with its last vector, up to a capacity. An index refines it as long as no removal names the label
of the last slot and no insertion needs a slot number that an `int` cannot hold.
-/

namespace HnswRvv

open Framework

structure VectorTable (V : Type) where
  entries : LabelType → Option V
  count : Nat
  capacity : Nat

namespace VectorTable

open BruteforceSearch (Update)

variable {V : Type}

def empty (capacity : Nat) : VectorTable V := ⟨fun _ => none, 0, capacity⟩

def put (m : VectorTable V) (label : LabelType) (x : V) : VectorTable V :=
  { m with entries := Function.update m.entries label (some x) }

def forget (m : VectorTable V) (label : LabelType) : VectorTable V :=
  { m with entries := Function.update m.entries label none }

/-- The meaning of the calls: the exception, if there is one, and the table after the call. -/
def after (m : VectorTable V) : Update V → Option BruteforceExn × VectorTable V
  | .addPoint x label =>
    match m.entries label with
    | some _ => (none, m.put label x)
    | none =>
      if m.count < m.capacity then (none, { m.put label x with count := m.count + 1 })
      else (some .capacityExceeded, m)
  | .removePoint label =>
    match m.entries label with
    | some _ => (none, { m.forget label with count := m.count - 1 })
    | none => (none, m)

end VectorTable

namespace BruteforceSearch

variable {V : Type} [Inhabited V] {s s' : BruteforceSearch V} {m : VectorTable V} {x : V}
  {label : LabelType} {i : Nat}

/-- The dictionary is a bijection from the labels of the table onto the slots in use, and every
slot holds its label and the vector of the table. -/
structure Refines (s : BruteforceSearch V) (m : VectorTable V) : Prop where
  capacity : s.maxElements = m.capacity
  count : s.curElementCount = m.count
  absent : ∀ label, m.entries label = none → s.dictExternalToInternal label = none
  slots : Set.BijOn s.dictExternalToInternal {label | m.entries label ≠ none}
    (some '' Set.Iio s.curElementCount)
  records : ∀ label i, s.dictExternalToInternal label = some i →
    (s.data.read i).label = label ∧ m.entries label = some (s.data.read i).data

/-- A call that answers as the table does; one that throws leaves the state as it was. -/
def Answers (s : BruteforceSearch V) (c : Update V) : Option BruteforceExn → BruteforceSearch V → Prop
  | none, s' => c.run s = .ok () s'
  | some e, s' => c.run s = .error (.thrown e) s' ∧ s' = s

/-- Every state of a run refines the table that the calls so far have made, and every call
answers as it does. -/
def Refined : BruteforceSearch V → VectorTable V → List (Update V) → Prop
  | s, m, [] => s.Refines m
  | s, m, c :: cs => s.Refines m ∧ ∃ s', s.Answers c (m.after c).1 s' ∧ Refined s' (m.after c).2 cs

/-- A removal does not name the label of the last slot, and a new label gets a slot number that
an `int` can hold. -/
def KeepsSlots (s : BruteforceSearch V) : Update V → Prop
  | .addPoint _ label => s.dictExternalToInternal label = none →
      s.curElementCount < s.maxElements → s.curElementCount < 2 ^ 31
  | .removePoint label => s.dictExternalToInternal label ≠ some (s.curElementCount - 1)

instance (s : BruteforceSearch V) : (c : Update V) → Decidable (s.KeepsSlots c)
  | .addPoint _ _ => inferInstanceAs (Decidable (_ → _ → _))
  | .removePoint _ => inferInstanceAs (Decidable (_ ≠ _))

/-- The state in which the program goes on after a call. -/
def Leads (s : BruteforceSearch V) (c : Update V) (s' : BruteforceSearch V) : Prop :=
  c.run s = .ok () s' ∨ ∃ e, c.run s = .error (.thrown e) s'

/-- Every call of a run keeps the slots apart. -/
def Avoids : BruteforceSearch V → List (Update V) → Prop
  | _, [] => True
  | s, c :: cs => s.KeepsSlots c ∧ ∀ s', s.Leads c s' → Avoids s' cs

/-- The dictionary and the labels in the slots are inverse to each other. -/
structure Tabulates (s : BruteforceSearch V) (m : VectorTable V) : Prop where
  capacity : s.maxElements = m.capacity
  count : s.curElementCount = m.count
  none_iff : ∀ label, s.dictExternalToInternal label = none ↔ m.entries label = none
  slot : ∀ label i, s.dictExternalToInternal label = some i → i < s.curElementCount ∧
    (s.data.read i).label = label ∧ m.entries label = some (s.data.read i).data
  onto : ∀ i, i < s.curElementCount → s.dictExternalToInternal (s.data.read i).label = some i

theorem Tabulates.injective {l l' : LabelType} (h : s.Tabulates m)
    (hl : s.dictExternalToInternal l = some i) (hl' : s.dictExternalToInternal l' = some i) :
    l = l' := by
  rw [← (h.slot l i hl).2.1, ← (h.slot l' i hl').2.1]

theorem Tabulates.refines (h : s.Tabulates m) : s.Refines m where
  capacity := h.capacity
  count := h.count
  absent label := (h.none_iff label).mpr
  slots := by
    have hsome : ∀ label, m.entries label ≠ none → ∃ i, s.dictExternalToInternal label = some i :=
      fun label hne => Option.ne_none_iff_exists'.mp fun hd => hne ((h.none_iff label).mp hd)
    refine ⟨?_, ?_, ?_⟩
    · intro label hne
      obtain ⟨i, hi⟩ := hsome label hne
      exact ⟨i, (h.slot label i hi).1, hi.symm⟩
    · intro l hl l' _ heq
      obtain ⟨i, hi⟩ := hsome l hl
      exact h.injective hi (heq ▸ hi)
    · rintro _ ⟨i, hi, rfl⟩
      refine ⟨(s.data.read i).label, ?_, h.onto i hi⟩
      simp [(h.slot _ i (h.onto i hi)).2.2]
  records label i hi := (h.slot label i hi).2

private theorem tabulates_built (maxElements : Nat) (block : Memory (BruteforceRecord V)) :
    (built maxElements block).Tabulates (.empty maxElements) where
  capacity := rfl
  count := rfl
  none_iff label := by simp [built, VectorTable.empty]
  slot label i hi := by simp [built] at hi
  onto i hi := absurd hi (Nat.not_lt_zero i)

theorem Tabulates.update (h : s.Tabulates m) (hi : s.dictExternalToInternal label = some i) :
    Tabulates { s with data := s.data.write i ⟨x, label⟩ } (m.put label x) where
  capacity := h.capacity
  count := h.count
  none_iff l := by
    by_cases hl : l = label
    · subst hl
      simp [VectorTable.put, hi]
    · simp [VectorTable.put, hl, h.none_iff l]
  slot l j hj := by
    have hslot := h.slot l j hj
    by_cases hl : l = label
    · subst hl
      obtain rfl : j = i := Option.some_inj.mp (hj.symm.trans hi)
      simp [VectorTable.put, hslot.1]
    · have hne : j ≠ i := fun he => hl (h.injective hj (he ▸ hi))
      simpa [VectorTable.put, hl, Memory.read_write_of_ne, hne] using hslot
  onto j hj := by
    by_cases hji : j = i
    · subst hji
      simp [hi]
    · simpa [Memory.read_write_of_ne, hji] using h.onto j hj

theorem Tabulates.insert (h : s.Tabulates m) (hd : s.dictExternalToInternal label = none) :
    Tabulates
      { s.setEntry label s.curElementCount with
        data := s.data.write s.curElementCount ⟨x, label⟩
        curElementCount := s.curElementCount + 1 }
      { m.put label x with count := m.count + 1 } where
  capacity := h.capacity
  count := by simp [h.count]
  none_iff l := by
    by_cases hl : l = label
    · simp [setEntry, VectorTable.put, hl]
    · simp [setEntry, VectorTable.put, hl, h.none_iff l]
  slot l j hj := by
    by_cases hl : l = label
    · subst hl
      obtain rfl : s.curElementCount = j := by simpa [setEntry] using hj
      simp [VectorTable.put]
    · have hslot := h.slot l j (by simpa [setEntry, hl] using hj)
      have hne : j ≠ s.curElementCount := hslot.1.ne
      simpa [VectorTable.put, hl, Memory.read_write_of_ne, hne] using ⟨by omega, hslot.2⟩
  onto j hj := by
    by_cases hjc : j = s.curElementCount
    · simp [setEntry, hjc]
    · have hold := h.onto j (by simp at hj; omega)
      have hl : (s.data.read j).label ≠ label := fun he => by simp [he, hd] at hold
      simpa [setEntry, Memory.read_write_of_ne, hjc, hl] using hold

theorem Tabulates.remove (h : s.Tabulates m) (hi : s.dictExternalToInternal label = some i)
    (hlast : i + 1 ≠ s.curElementCount) :
    Tabulates
      { (s.eraseEntry label).setEntry (s.data.read (s.curElementCount - 1)).label i with
        data := s.data.write i (s.data.read (s.curElementCount - 1))
        curElementCount := s.curElementCount - 1 }
      { m.forget label with count := m.count - 1 } := by
  have hic := (h.slot label i hi).1
  obtain ⟨n, hn⟩ : ∃ n, s.curElementCount = n + 1 := ⟨s.curElementCount - 1, by omega⟩
  have hmoved := h.onto n (by omega)
  generalize hl₂ : (s.data.read n).label = moved at hmoved
  have hne : moved ≠ label := by
    intro he
    rw [he, hi, Option.some_inj] at hmoved
    omega
  simp only [hn, Nat.add_sub_cancel, hl₂]
  constructor
  · exact h.capacity
  · simp [← h.count, hn]
  · intro l
    by_cases hlm : l = moved
    · simp [setEntry, VectorTable.forget, hlm, hne, (h.slot moved n hmoved).2.2]
    · by_cases hll : l = label
      · simp [setEntry, eraseEntry, VectorTable.forget, hll, hne.symm]
      · simp [setEntry, eraseEntry, VectorTable.forget, hlm, hll, h.none_iff l]
  · intro l j hj
    by_cases hlm : l = moved
    · obtain rfl : i = j := by simpa [setEntry, hlm] using hj
      simp [VectorTable.forget, hlm, hne, hl₂, (h.slot moved n hmoved).2.2]
      omega
    · have hll : l ≠ label := fun he => by simp [setEntry, eraseEntry, he, hne.symm] at hj
      have hold : s.dictExternalToInternal l = some j := by
        simpa [setEntry, eraseEntry, hlm, hll] using hj
      have hslot := h.slot l j hold
      have hji : j ≠ i := fun he => hll (h.injective hold (he ▸ hi))
      have hjn : j ≠ n := fun he => hlm (h.injective hold (he ▸ hmoved))
      simpa [VectorTable.forget, hll, Memory.read_write_of_ne, hji] using ⟨by omega, hslot.2⟩
  · intro j hj
    by_cases hji : j = i
    · simp [setEntry, hji, hl₂]
    · have hj' : j < n := hj
      have hold := h.onto j (by omega)
      have hlm : (s.data.read j).label ≠ moved := fun he => by
        rw [he, hmoved, Option.some_inj] at hold
        omega
      have hll : (s.data.read j).label ≠ label := fun he => by
        rw [he, hi, Option.some_inj] at hold
        exact hji hold.symm
      simpa [setEntry, eraseEntry, Memory.read_write_of_ne, hji, hlm, hll] using hold

/-- The slots in use fit the block, and their numbers an `int`. -/
def Bounded (s : BruteforceSearch V) : Prop :=
  s.curElementCount ≤ s.maxElements ∧ s.curElementCount ≤ 2 ^ 31

private theorem Tabulates.after_update (h : s.Tabulates m) (hd : s.dictExternalToInternal label = some i) :
    m.after (.addPoint x label) = (none, m.put label x) := by
  simp [VectorTable.after, (h.slot label i hd).2.2]

private theorem Tabulates.after_insert (h : s.Tabulates m) (hd : s.dictExternalToInternal label = none)
    (hroom : s.curElementCount < s.maxElements) :
    m.after (.addPoint x label) = (none, { m.put label x with count := m.count + 1 }) := by
  simp [VectorTable.after, (h.none_iff label).mp hd, ← h.count, ← h.capacity, hroom]

private theorem Tabulates.after_full (h : s.Tabulates m) (hd : s.dictExternalToInternal label = none)
    (hfull : s.maxElements ≤ s.curElementCount) :
    m.after (.addPoint x label) = (some .capacityExceeded, m) := by
  simp [VectorTable.after, (h.none_iff label).mp hd, ← h.count, ← h.capacity, not_lt.mpr hfull]

private theorem Tabulates.after_remove (h : s.Tabulates m) (hd : s.dictExternalToInternal label = some i) :
    m.after (.removePoint label) = (none, { m.forget label with count := m.count - 1 }) := by
  simp [VectorTable.after, (h.slot label i hd).2.2]

private theorem Tabulates.after_absent (h : s.Tabulates m) (hd : s.dictExternalToInternal label = none) :
    m.after (.removePoint label) = (none, m) := by
  simp [VectorTable.after, (h.none_iff label).mp hd]

theorem Tabulates.step {c : Update V} (h : s.Tabulates m) (hb : s.Bounded) (hk : s.KeepsSlots c) :
    ∃ s', s.Answers c (m.after c).1 s' ∧ s'.Tabulates (m.after c).2 ∧ s'.Bounded := by
  obtain ⟨hmax, hint⟩ := hb
  cases c with
  | addPoint x label =>
    cases hd : s.dictExternalToInternal label with
    | some i =>
      have hslot := h.slot label i hd
      rw [h.after_update hd]
      exact ⟨_, addPoint_update hd (by omega) (by omega), h.update hd, hmax, hint⟩
    | none =>
      by_cases hroom : s.curElementCount < s.maxElements
      · have hlt := hk hd hroom
        rw [h.after_insert hd hroom]
        exact ⟨_, addPoint_new hd hroom hlt, h.insert hd, hroom, hlt⟩
      · rw [h.after_full hd (not_lt.mp hroom)]
        exact ⟨s, ⟨addPoint_full hd (by omega), rfl⟩, h, hmax, hint⟩
  | removePoint label =>
    cases hd : s.dictExternalToInternal label with
    | some i =>
      have hslot := h.slot label i hd
      have hlast : i + 1 ≠ s.curElementCount := by
        intro he
        apply hk
        rw [hd, ← he, Nat.add_sub_cancel]
      rw [h.after_remove hd]
      refine ⟨_, removePoint_present hd (by omega) hmax (by omega), h.remove hd hlast, ?_, ?_⟩
      · exact (Nat.sub_le _ 1).trans hmax
      · exact (Nat.sub_le _ 1).trans hint
    | none =>
      rw [h.after_absent hd]
      exact ⟨s, removePoint_absent hd, h, hmax, hint⟩

theorem addPoint_overflow (h : s.dictExternalToInternal label = none)
    (hroom : s.curElementCount < s.maxElements) (hint : s.curElementCount = 2 ^ 31) :
    ∃ s', addPoint x label s = .error .outOfBounds s' := by
  have hneg : intOfSize s.curElementCount = -2 ^ 31 := by rw [hint]; rfl
  rw [addPoint_insert h hroom, hneg]
  exact ⟨_, rfl⟩

/-- A call that answers as the table does, and leaves its bijection, keeps the slots apart. -/
theorem Tabulates.keepsSlots {c : Update V} (h : s.Tabulates m) (hb : s.Bounded)
    (ha : s.Answers c (m.after c).1 s') (hr : s'.Refines (m.after c).2) : s.KeepsSlots c := by
  obtain ⟨hmax, hint⟩ := hb
  cases c with
  | addPoint x label =>
    intro hd hroom
    by_contra hwide
    obtain ⟨t, ht⟩ := addPoint_overflow (x := x) hd hroom (by omega)
    rw [h.after_insert hd hroom] at ha
    exact absurd (ha.symm.trans ht) (by simp)
  | removePoint label =>
    intro hd
    have hslot := h.slot label _ hd
    rw [h.after_remove hd] at ha hr
    have hrun := removePoint_present hd (by omega) hmax (by omega)
    obtain rfl : _ = s' := (EStateM.Result.ok.inj (hrun.symm.trans ha)).2
    -- the entry of the removed label is written again
    have hgone := hr.absent label (by simp [VectorTable.forget])
    simp [setEntry, hslot.2.1] at hgone

theorem Answers.leads {c : Update V} {e : Option BruteforceExn} (h : s.Answers c e s') :
    s.Leads c s' := by
  cases e with
  | none => exact .inl h
  | some e => exact .inr ⟨e, h.1⟩

theorem Leads.unique {c : Update V} {t : BruteforceSearch V} (h : s.Leads c s')
    (ht : s.Leads c t) : s' = t := by
  rcases h with h | ⟨e, h⟩ <;> rcases ht with ht | ⟨e', ht⟩ <;> simp_all

theorem Refined.refines {cs : List (Update V)} (h : Refined s m cs) : s.Refines m := by
  cases cs with
  | nil => exact h
  | cons c cs => exact h.1

private theorem refined_iff_of_tabulates {cs : List (Update V)} (h : s.Tabulates m) (hb : s.Bounded) :
    Refined s m cs ↔ Avoids s cs := by
  induction cs generalizing s m with
  | nil => exact iff_of_true h.refines trivial
  | cons c cs ih =>
    constructor
    · rintro ⟨-, s', ha, hrest⟩
      have hk := h.keepsSlots hb ha hrest.refines
      obtain ⟨t, hta, htab, htb⟩ := h.step hb hk
      obtain rfl := ha.leads.unique hta.leads
      refine ⟨hk, fun u hu => ?_⟩
      rw [← ha.leads.unique hu]
      exact (ih htab htb).mp hrest
    · rintro ⟨hk, hrest⟩
      obtain ⟨t, hta, htab, htb⟩ := h.step hb hk
      exact ⟨h.refines, t, hta, (ih htab htb).mpr (hrest t hta.leads)⟩

omit [Inhabited V] in
theorem bounded_built (maxElements : Nat) (block : Memory (BruteforceRecord V)) :
    (built maxElements block).Bounded :=
  ⟨Nat.zero_le _, Nat.zero_le _⟩

/-- A run from an empty index stays a finite map exactly when no removal names the label of the
last slot and no new label needs a slot number past those of an `int`. -/
theorem built_refined_iff (maxElements : Nat) (block : Memory (BruteforceRecord V))
    (cs : List (Update V)) :
    Refined (built maxElements block) (.empty maxElements) cs ↔
      Avoids (built maxElements block) cs :=
  refined_iff_of_tabulates (tabulates_built maxElements block) (bounded_built maxElements block)

/-- Two labels, and the removal of the first. -/
theorem built_refined_first_removed :
    Refined (built 2 (default : Memory (BruteforceRecord Nat))) (.empty 2)
      [.addPoint 7 1, .addPoint 8 2, .removePoint 1] := by
  rw [built_refined_iff]
  refine ⟨by decide, fun s hs => ?_⟩
  obtain rfl := Leads.unique hs (.inl rfl)
  refine ⟨by decide, fun s hs => ?_⟩
  obtain rfl := Leads.unique hs (.inl rfl)
  exact ⟨by decide, fun _ _ => trivial⟩

/-- The only label removed: it stays in the dictionary, the next label gets the same slot, and an
addition of the removed label then overwrites the record of the other one. -/
theorem removePoint_last_slot :
    ¬ Refined (built 2 (default : Memory (BruteforceRecord Nat))) (.empty 2)
        [.addPoint 7 1, .removePoint 1] ∧
      ∃ s, (do addPoint 7 1; removePoint 1; addPoint 8 2; addPoint 9 1 : BruteforceM Nat Unit)
          (built 2 default) = .ok () s ∧
        s.curElementCount = 1 ∧ s.dictExternalToInternal 1 = some 0 ∧
        s.dictExternalToInternal 2 = some 0 ∧ s.data.read 0 = ⟨9, 1⟩ := by
  constructor
  · rw [refined_iff_of_tabulates (tabulates_built 2 _) (bounded_built 2 _)]
    rintro ⟨-, hrest⟩
    exact (hrest _ (.inl rfl)).1 (by decide)
  · exact ⟨_, rfl, by decide⟩

end BruteforceSearch

end HnswRvv
