import HnswRvv.Index.Invariant

/-!
# What the writes of a call have in common

Between two allocations a call only writes link lists, vectors, marks, labels and the entry point.
A relation that every such write keeps is kept by the functions built from them, in whatever state
they run and however they end. With it the memory behind the elements is followed through a run:
every element has its record, and its upper lists if it has upper levels.
-/

namespace HnswRvv.Index

open Framework OrderDual

variable {V D : Type} [Inhabited V] [LinearOrder D] {P : Platform V D} {s s' : Index V}
  {c : Choices}

/-- A preorder on states that the writes of a call keep. -/
structure WriteClosed (R : Index V → Index V → Prop) : Prop where
  refl : ∀ s, R s s
  trans : ∀ s s' s'', R s s' → R s' s'' → R s s''
  links : ∀ s i l ll, R s (s.setLinklistAtLevel i l ll)
  data : ∀ s i x, R s (s.setData i x)
  mark : ∀ s i, R s (s.withMark i)
  unmark : ∀ s i, R s (s.withoutMark i)
  relabel : ∀ s i label, R s (s.relabel i label)
  entry : ∀ (s : Index V) ep l, R s { s with enterpointNode := ep, maxlevel := l }

namespace WriteClosed

variable {R : Index V → Index V → Prop} (hR : WriteClosed R)
  (curC i : TableInt) (l : Nat) (isUpdate : Bool) (x : V) (label : LabelType)

include hR

theorem bind {α β : Type} {m : IndexM V α} {f : α → IndexM V β} (hm : Keeps R m)
    (hf : ∀ a, Keeps R (f a)) : Keeps R (m >>= f) := hm.bind hR.trans hf

theorem wp_keeps {α : Type} {m : IndexM V α} {t : Index V} (h : R s t) (hm : Keeps R m) :
    wp m (fun _ s' => R s s') (fun _ s' => R s s') t :=
  wp_mono (hm t) (fun _ _ h' => hR.trans _ _ _ h h') fun _ _ h' => hR.trans _ _ _ h h'

theorem writeForwardLinks (idx : Nat) (ids : List TableInt) :
    Keeps R (Index.writeForwardLinks curC l isUpdate idx ids) := by
  induction ids generalizing idx with
  | nil => exact keeps_pure hR.refl ()
  | cons id ids ih =>
    refine keeps_get fun s => ?_
    dsimp only
    split
    · exact hR.refl s
    · split
      · exact hR.refl s
      · rw [wp_bind, wp_set]
        exact hR.wp_keeps (hR.links s curC l _) (ih (idx + 1))

theorem setForwardLinks (ids : List TableInt) :
    Keeps R (Index.setForwardLinks curC l isUpdate ids) := by
  refine keeps_get fun s => ?_
  dsimp only
  split
  · exact hR.refl s
  · rw [wp_bind, wp_set]
    exact hR.wp_keeps (hR.links s curC l _) (hR.writeForwardLinks curC l isUpdate 0 ids)

theorem setBackLink (other : TableInt) : Keeps R (Index.setBackLink P curC l isUpdate other) := by
  refine keeps_get fun s => ?_
  dsimp only
  split
  · exact hR.refl s
  · split
    · exact hR.refl s
    · split
      · exact hR.refl s
      · split
        · exact hR.refl s
        · split <;> exact hR.links _ _ _ _

theorem mutuallyConnectNewElement (q : P.queues.far.Carrier) :
    Keeps R (Index.mutuallyConnectNewElement P curC q l isUpdate) := by
  refine keeps_get fun s => ?_
  dsimp only
  split
  · exact hR.refl s
  · split
    · exact hR.refl s
    · refine hR.bind (hR.setForwardLinks curC l isUpdate _) (fun _ => ?_) s
      refine hR.bind ?_ fun _ => keeps_pure hR.refl _
      exact keeps_forM hR.refl hR.trans (hR.setBackLink curC l isUpdate)

theorem repairLevels (ep : TableInt) (levels : List Nat) (start : TableInt) :
    Keeps R (Index.repairLevels P x ep i levels start) := by
  induction levels generalizing start with
  | nil => exact keeps_pure hR.refl ()
  | cons level levels ih =>
    refine hR.bind (keeps_get fun s => ?_) ih
    refine hR.bind (keeps_readOnly hR.refl _) (fun top => ?_) s
    dsimp only
    split
    · exact hR.mutuallyConnectNewElement i level true _
    · exact keeps_pure hR.refl start

theorem rewireNeighbor (layer : Nat) (sCand : List TableInt) (neigh : TableInt) :
    Keeps R (Index.rewireNeighbor P c layer sCand neigh) := by
  refine keeps_get fun s => ?_
  dsimp only
  rw [wp_bind]
  generalize keepClosest P s neigh _ _ _ = candidates
  cases candidates with
  | error e => exact hR.refl s
  | ok candidates => exact hR.links _ _ _ _

theorem rewireLayer (layer : Nat) : Keeps R (Index.rewireLayer P c i layer) := by
  refine keeps_get fun s => ?_
  dsimp only
  split
  · exact hR.refl s
  · exact keeps_forM hR.refl hR.trans (hR.rewireNeighbor layer _) s

theorem updatePoint : Keeps R (Index.updatePoint P c x i) := by
  refine hR.bind (keeps_modify fun s => hR.data s i x) fun _ => keeps_get fun s => ?_
  split
  · exact hR.refl s
  · split
    · exact hR.refl s
    · refine hR.bind (keeps_forM hR.refl hR.trans (hR.rewireLayer i))
        (fun _ => keeps_get fun s => ?_) s
      refine hR.bind (keeps_readOnly hR.refl _) (fun cur => ?_) s
      split
      · exact keeps_throw hR.refl _
      · exact hR.repairLevels i x _ _ _

theorem markDeletedInternal : Keeps R (Index.markDeletedInternal i) := by
  refine keeps_get fun s => ?_
  split
  · exact hR.refl s
  · split
    · exact hR.refl s
    · exact hR.mark s i

theorem unmarkDeletedInternal : Keeps R (Index.unmarkDeletedInternal i) := by
  refine keeps_get fun s => ?_
  split
  · exact hR.refl s
  · split
    · exact hR.unmark s i
    · exact hR.refl s

theorem insertLevels (ep : TableInt) (maxlevelcopy : Int) (levels : List Nat)
    (start : TableInt) : Keeps R (Index.insertLevels P x curC ep maxlevelcopy levels start) := by
  induction levels generalizing start with
  | nil => exact keeps_pure hR.refl ()
  | cons level levels ih =>
    refine keeps_get fun s => ?_
    split
    · exact hR.refl s
    · refine hR.bind (keeps_readOnly hR.refl _) (fun top => ?_) s
      exact hR.bind (hR.mutuallyConnectNewElement curC level false _) ih

/-- An insertion keeps what its new element keeps, with its lists or, if they are denied, without. -/
theorem insertNew {curlevel : Nat} (hnew : R s (s.withNewElement x label curlevel))
    (hdenied : curlevel ≠ 0 → c.malloc = false → R s (s.appendElement x label curlevel)) :
    wp (Index.insertNew P c x label curlevel) (fun _ s' => R s s') (fun _ s' => R s s') s := by
  simp only [Index.insertNew, wp_bind, wp_get, wp_set]
  split
  · next h => exact hdenied h.1 h.2
  · have hraise : ∀ t : Index V, R t (if s.maxlevel < curlevel then
        { t with enterpointNode := some s.curElementCount, maxlevel := curlevel } else t) := by
      intro t
      split
      · exact hR.entry t _ _
      · exact hR.refl t
    rw [wp_bind, wp_modify]
    refine hR.wp_keeps hnew ?_
    split
    · refine hR.bind (keeps_get fun t => ?_) fun _ =>
        hR.bind (keeps_modify hraise) fun _ => keeps_pure hR.refl _
      exact hR.bind (keeps_readOnly hR.refl _) (hR.insertLevels s.curElementCount x _ _ _) t
    · exact hR.bind (keeps_modify fun t => hR.entry t _ _) fun _ =>
        hR.bind (keeps_modify hraise) fun _ => keeps_pure hR.refl _

end WriteClosed

/-- Every element has a record, and its upper lists if it has upper levels. -/
structure Backed (s : Index V) : Prop where
  records : s.curElementCount ≤ s.dataLevel0Memory.cells.length
  lists : ∀ i, i < s.curElementCount → ¬s.LacksLists i

theorem Backed.write {t : Index V} {i : TableInt} {e : Element V} (h : s.Backed)
    (hcount : t.curElementCount = s.curElementCount)
    (hrecords : t.dataLevel0Memory = s.dataLevel0Memory.write i e)
    (hlists : t.linkLists = s.linkLists) (hlevels : t.elementLevels = s.elementLevels) :
    t.Backed := by
  constructor
  · rw [hcount, hrecords]
    exact h.records.trans (Memory.length_le_write _ _ _)
  · intro j hj
    rw [LacksLists, level, hlists, hlevels]
    exact h.lists j (hcount ▸ hj)

theorem Backed.setLinklistAtLevel (h : s.Backed) (i : TableInt) (l : Nat) (ll : LinkList) :
    (s.setLinklistAtLevel i l ll).Backed := by
  rw [Index.setLinklistAtLevel]
  split
  · exact h.write rfl rfl rfl rfl
  · refine ⟨h.records, fun j hj hlacks => ?_⟩
    obtain ⟨hlevel, hnull⟩ := hlacks
    simp only [Memory.read_write] at hnull
    split at hnull
    · exact Memory.write_ne_default _ _ _ hnull
    · exact h.lists j hj ⟨hlevel, hnull⟩

theorem writeClosed_backed : WriteClosed fun s s' : Index V => s.Backed → s'.Backed where
  refl _ := id
  trans _ _ _ h h' := h' ∘ h
  links _ i l ll h := h.setLinklistAtLevel i l ll
  data _ _ _ h := h.write rfl rfl rfl rfl
  mark s i h := by
    have hset := h.setLinklistAtLevel i 0 (s.getLinklistAtLevel i 0).setMark
    exact ⟨hset.records, hset.lists⟩
  unmark s i h := by
    have hset := h.setLinklistAtLevel i 0 (s.getLinklistAtLevel i 0).clearMark
    exact ⟨hset.records, hset.lists⟩
  relabel _ _ _ h := h.write rfl rfl rfl rfl
  entry _ _ _ h := ⟨h.records, h.lists⟩

theorem Backed.withNewElement (h : s.Backed) (x : V) (label : LabelType) (curlevel : Nat) :
    (s.withNewElement x label curlevel).Backed := by
  constructor
  · rw [withNewElement_fields]
    exact Memory.lt_length_write _ _ _
  · rintro i hi ⟨hlevel, hnull⟩
    rw [level_withNewElement] at hlevel
    by_cases hself : i = s.curElementCount
    · rw [if_pos hself] at hlevel
      rw [Index.withNewElement, if_neg hlevel, allocateLinkLists, hself] at hnull
      simp only [Memory.read_write_self] at hnull
      exact Memory.fill_ne_default hlevel _ hnull
    · rw [if_neg hself] at hlevel
      have hlt : i < s.curElementCount := by
        rw [curElementCount_withNewElement] at hi
        omega
      refine h.lists i hlt ⟨hlevel, ?_⟩
      rw [Index.withNewElement] at hnull
      split at hnull
      · exact hnull
      · rw [allocateLinkLists, Memory.read_write_of_ne _ _ hself] at hnull
        exact hnull

end HnswRvv.Index
