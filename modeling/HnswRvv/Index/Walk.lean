import HnswRvv.Framework.SteepestDescent
import HnswRvv.Index.Links

/-!
# Walking the graph

In a graph whose lists fit, a greedy descent ends, and so does a search of one layer: neither
leaves the elements of the level it works on, and fuel for every element is enough.
-/

namespace HnswRvv.Index

open Framework OrderDual
set_option linter.unusedSectionVars false

variable {V D : Type} [Inhabited V] [LinearOrder D] {P : Platform V D} {s s' : Index V} {q : V}

section Descent

variable (checked : Bool) {l : Nat}

/-- What a descent holds: an element of the level and its distance. -/
def WalkAt (P : Platform V D) (s : Index V) (q : V) (l : Nat) (cur : D × TableInt) : Prop :=
  s.AtLevel l cur.2 ∧ cur.1 = P.fstdistfunc q (s.getDataByInternalId cur.2)

theorem walkAt_element {i : TableInt} (h : s.AtLevel l i) :
    WalkAt P s q l (P.fstdistfunc q (s.getDataByInternalId i), i) := ⟨h, rfl⟩

theorem greedyScan_ok (hcap : s.curElementCount ≤ s.maxElements) (links : List TableInt)
    (hlinks : ∀ j ∈ links, s.AtLevel l j) {cur : D × TableInt} (hcur : WalkAt P s q l cur)
    (changed : Bool) :
    ∃ cur' changed', greedyScan P s q checked links cur changed = .ok (cur', changed') ∧
      WalkAt P s q l cur' ∧ (cur' = cur ∧ changed' = changed ∨ cur'.1 < cur.1 ∧ changed' = true) := by
  induction links generalizing cur changed with
  | nil => exact ⟨cur, changed, rfl, hcur, Or.inl ⟨rfl, rfl⟩⟩
  | cons j links ih =>
    obtain ⟨hj, hrest⟩ := List.forall_mem_cons.mp hlinks
    have hcheck : (checked && decide (s.maxElements < j)) = false := by
      rw [decide_eq_false (not_lt.mpr (hj.1.le.trans hcap)), Bool.and_false]
    rw [greedyScan, hcheck, if_neg Bool.false_ne_true]
    split
    · next hlt =>
      obtain ⟨cur', changed', he, hw, hmove⟩ := ih hrest (walkAt_element hj) true
      refine ⟨cur', changed', he, hw, Or.inr ?_⟩
      rcases hmove with ⟨rfl, rfl⟩ | ⟨hlt', rfl⟩
      · exact ⟨hlt, rfl⟩
      · exact ⟨hlt'.trans hlt, rfl⟩
    · exact ih hrest hcur changed

/-- The elements nearer than `d`. -/
def nearer (P : Platform V D) (s : Index V) (q : V) (d : D) : Finset TableInt :=
  (Finset.range s.curElementCount).filter fun i => P.fstdistfunc q (s.getDataByInternalId i) < d

/-- A level ends: every further pass leaves fewer elements nearer than the current one. -/
theorem greedyLevel_ok (hg : s.GraphInv) (hcap : s.curElementCount ≤ s.maxElements) (fuel : Nat)
    {cur : D × TableInt} (hcur : WalkAt P s q l cur) (hfuel : (nearer P s q cur.1).card < fuel) :
    ∃ cur', greedyLevel P s q checked l fuel cur = .ok cur' ∧ WalkAt P s q l cur' := by
  induction fuel generalizing cur with
  | zero => omega
  | succ fuel ih =>
    have hlinks := (hg cur.2 l hcur.1).valid
    obtain ⟨cur', changed', he, hw, hmove⟩ := greedyScan_ok checked hcap
      (s.connections cur.2 l) (fun j hj => (hlinks j hj).1) hcur false
    rw [greedyLevel, he]
    rcases hmove with ⟨rfl, rfl⟩ | ⟨hlt, rfl⟩
    · exact ⟨cur', rfl, hw⟩
    · refine ih hw (lt_of_lt_of_le (Finset.card_lt_card ?_) (Nat.lt_succ_iff.mp hfuel))
      refine Finset.ssubset_iff_of_subset (fun i hi => ?_) |>.mpr ⟨cur'.2, ?_, ?_⟩
      · rw [nearer, Finset.mem_filter] at hi ⊢
        exact ⟨hi.1, hi.2.trans hlt⟩
      · rw [nearer, Finset.mem_filter, Finset.mem_range, ← hw.2]
        exact ⟨hw.1.1, hlt⟩
      · rw [nearer, Finset.mem_filter, ← hw.2]
        exact fun h => lt_irrefl _ h.2

theorem card_nearer_lt {cur : D × TableInt} (hcur : WalkAt P s q l cur) :
    (nearer P s q cur.1).card < s.curElementCount := by
  rw [← Finset.card_range s.curElementCount]
  refine Finset.card_lt_card (Finset.filter_ssubset.mpr ⟨cur.2, Finset.mem_range.mpr hcur.1.1, ?_⟩)
  rw [← hcur.2]
  exact lt_irrefl _

theorem WalkAt.mono {l' : Nat} {cur : D × TableInt} (h : WalkAt P s q l cur) (hl : l' ≤ l) :
    WalkAt P s q l' cur := ⟨⟨h.1.1, hl.trans h.1.2⟩, h.2⟩

theorem levelsDown_of_le {hi lo : Nat} (h : hi ≤ lo) : levelsDown hi lo = [] := by
  rw [levelsDown, Nat.sub_eq_zero_of_le h]
  rfl

theorem levelsDown_of_lt {hi lo : Nat} (h : lo < hi) :
    levelsDown hi lo = hi :: levelsDown (hi - 1) lo := by
  rw [levelsDown, levelsDown, show hi - lo = (hi - 1 - lo) + 1 by omega, List.range'_concat,
    List.reverse_append]
  simp only [List.reverse_cons, List.reverse_nil, List.nil_append, List.singleton_append, one_mul,
    List.cons.injEq, and_true]
  omega

/-- A descent that starts with an element of level `hi` ends with one of every level it has
passed. -/
theorem descend_ok (hg : s.GraphInv) (hcap : s.curElementCount ≤ s.maxElements) {hi : Nat} (lo : Nat)
    {cur : D × TableInt} (hcur : WalkAt P s q hi cur) :
    ∃ cur', descend P s q checked (levelsDown hi lo) cur = .ok cur' ∧
      WalkAt P s q (min hi lo) cur' := by
  induction hi generalizing cur with
  | zero =>
    rw [levelsDown_of_le (Nat.zero_le lo)]
    exact ⟨cur, rfl, hcur.mono (min_le_left _ _)⟩
  | succ hi ih =>
    rcases Nat.lt_or_ge lo (hi + 1) with hlt | hge
    · obtain ⟨cur₁, he, hw⟩ := greedyLevel_ok checked hg hcap s.curElementCount hcur
        (card_nearer_lt hcur)
      obtain ⟨cur₂, he₂, hw₂⟩ := ih (hw.mono (Nat.le_succ hi))
      rw [levelsDown_of_lt hlt, descend, he, Nat.add_sub_cancel]
      exact ⟨cur₂, he₂, hw₂.mono (by omega)⟩
    · rw [levelsDown_of_le hge]
      exact ⟨cur, rfl, hcur.mono (min_le_left _ _)⟩

private theorem greedyScan_firstNearest {links : List TableInt} {cur cur' : D × TableInt}
    {changed changed' : Bool} (hcur : cur.1 = P.fstdistfunc q (s.getDataByInternalId cur.2))
    (h : greedyScan P s q checked links cur changed = .ok (cur', changed')) :
    cur'.1 = P.fstdistfunc q (s.getDataByInternalId cur'.2) ∧
      (cur' = cur ∧ changed' = changed ∧
          (∀ j ∈ links, cur.1 ≤ P.fstdistfunc q (s.getDataByInternalId j)) ∨
        changed' = true ∧ cur'.1 < cur.1 ∧
          FirstNearest (fun j => P.fstdistfunc q (s.getDataByInternalId j)) links cur'.2) := by
  induction links generalizing cur changed with
  | nil =>
    cases h
    exact ⟨hcur, Or.inl ⟨rfl, rfl, nofun⟩⟩
  | cons j links ih =>
    rw [greedyScan] at h
    split at h
    · cases h
    split at h
    · next hlt =>
      obtain ⟨hdist, ⟨rfl, rfl, hle⟩ | ⟨rfl, hlt', hfirst⟩⟩ := ih rfl h
      · exact ⟨hdist, Or.inr ⟨rfl, hlt, FirstNearest.head hle⟩⟩
      · exact ⟨hdist, Or.inr ⟨rfl, hlt'.trans hlt, FirstNearest.tail (hdist ▸ hlt') hfirst⟩⟩
    · next hge =>
      obtain ⟨hdist, ⟨rfl, rfl, hle⟩ | ⟨rfl, hlt', hfirst⟩⟩ := ih hcur h
      · exact ⟨hdist, Or.inl ⟨rfl, rfl, List.forall_mem_cons.mpr ⟨not_lt.mp hge, hle⟩⟩⟩
      · exact ⟨hdist, Or.inr ⟨rfl, hlt',
          FirstNearest.tail (hdist ▸ hlt'.trans_le (not_lt.mp hge)) hfirst⟩⟩

theorem greedyLevel_steepestEnd {fuel : Nat} {cur cur' : D × TableInt}
    (hcur : cur.1 = P.fstdistfunc q (s.getDataByInternalId cur.2))
    (h : greedyLevel P s q checked l fuel cur = .ok cur') :
    cur'.1 = P.fstdistfunc q (s.getDataByInternalId cur'.2) ∧
      SteepestEnd (fun i => s.connections i l)
        (fun i => P.fstdistfunc q (s.getDataByInternalId i)) cur.2 cur'.2 := by
  induction fuel generalizing cur with
  | zero => cases h
  | succ fuel ih =>
    rw [greedyLevel] at h
    split at h
    · cases h
    · next next changed hscan =>
      obtain ⟨hdist, ⟨rfl, rfl, hle⟩ | ⟨rfl, hlt, hfirst⟩⟩ :=
        greedyScan_firstNearest checked hcur hscan
      · cases h
        exact ⟨hdist, Relation.ReflTransGen.refl, hcur ▸ hle⟩
      · obtain ⟨hdist', hwalk, hleast⟩ := ih hdist h
        rw [hcur, hdist] at hlt
        exact ⟨hdist', Relation.ReflTransGen.head ⟨hlt, hfirst⟩ hwalk, hleast⟩

private theorem descend_levelDescent {levels : List Nat} {cur cur' : D × TableInt}
    (hcur : cur.1 = P.fstdistfunc q (s.getDataByInternalId cur.2))
    (h : descend P s q checked levels cur = .ok cur') :
    LevelDescent (fun l i => s.connections i l)
      (fun i => P.fstdistfunc q (s.getDataByInternalId i)) levels cur.2 cur'.2 := by
  induction levels generalizing cur with
  | nil =>
    cases h
    exact LevelDescent.done _
  | cons level levels ih =>
    rw [descend] at h
    split at h
    · cases h
    · next next hlevel =>
      obtain ⟨hdist, hend⟩ := greedyLevel_steepestEnd checked hcur hlevel
      exact LevelDescent.level hend (ih hdist h)

end Descent

/-- `t` holds the elements of `s` with their vectors and links, and perhaps others. -/
structure Extends (s t : Index V) : Prop where
  cap : s.curElementCount ≤ s.maxElements → s.curElementCount ≤ t.maxElements
  count : s.curElementCount ≤ t.curElementCount
  data : ∀ i, i < s.curElementCount → t.getDataByInternalId i = s.getDataByInternalId i
  links : ∀ l i, s.AtLevel l i → t.connections i l = s.connections i l

namespace Extends

variable {t : Index V} {checked : Bool} {l : Nat}

private theorem greedyScan_eq (he : Extends s t) (hcap : s.curElementCount ≤ s.maxElements)
    (links : List TableInt) (hlinks : ∀ j ∈ links, s.AtLevel l j) (cur : D × TableInt)
    (changed : Bool) :
    greedyScan P t q checked links cur changed = greedyScan P s q checked links cur changed := by
  induction links generalizing cur changed with
  | nil => rfl
  | cons j links ih =>
    obtain ⟨hj, hrest⟩ := List.forall_mem_cons.mp hlinks
    have hchecks : decide (t.maxElements < j) = decide (s.maxElements < j) := by
      rw [decide_eq_false (not_lt.mpr (hj.1.le.trans hcap)),
        decide_eq_false (not_lt.mpr (hj.1.le.trans (he.cap hcap)))]
    rw [greedyScan, greedyScan, hchecks, he.data j hj.1, ih hrest, ih hrest]

private theorem greedyLevel_eq (he : Extends s t) (hg : s.GraphInv)
    (hcap : s.curElementCount ≤ s.maxElements) {fuel fuel' : Nat} (hfuel : fuel ≤ fuel')
    {cur cur' : D × TableInt} (hcur : WalkAt P s q l cur)
    (h : greedyLevel P s q checked l fuel cur = .ok cur') :
    greedyLevel P t q checked l fuel' cur = .ok cur' := by
  induction fuel generalizing cur fuel' with
  | zero => cases h
  | succ fuel ih =>
    obtain ⟨fuel', rfl⟩ : ∃ n, fuel' = n + 1 := ⟨fuel' - 1, by omega⟩
    have hlinks := (hg cur.2 l hcur.1).valid
    obtain ⟨next, changed, hscan, hw, -⟩ := greedyScan_ok checked hcap
      (s.connections cur.2 l) (fun j hj => (hlinks j hj).1) hcur false
    rw [greedyLevel, hscan] at h
    rw [greedyLevel, he.links l cur.2 hcur.1, he.greedyScan_eq hcap _ fun j hj => (hlinks j hj).1,
      hscan]
    cases changed with
    | false => exact h
    | true => exact ih (Nat.succ_le_succ_iff.mp hfuel) hw h

private theorem descend_eq (he : Extends s t) (hg : s.GraphInv) (hcap : s.curElementCount ≤ s.maxElements)
    {hi lo : Nat} {cur cur' : D × TableInt} (hcur : WalkAt P s q hi cur)
    (h : descend P s q checked (levelsDown hi lo) cur = .ok cur') :
    descend P t q checked (levelsDown hi lo) cur = .ok cur' := by
  induction hi generalizing cur with
  | zero =>
    rw [levelsDown_of_le (Nat.zero_le lo)] at h ⊢
    exact h
  | succ hi ih =>
    rcases Nat.lt_or_ge lo (hi + 1) with hlt | hge
    · obtain ⟨cur₁, hlevel, hw⟩ := greedyLevel_ok checked hg hcap s.curElementCount hcur
        (card_nearer_lt hcur)
      rw [levelsDown_of_lt hlt, descend, hlevel, Nat.add_sub_cancel] at h
      rw [levelsDown_of_lt hlt, descend, he.greedyLevel_eq hg hcap he.count hcur hlevel,
        Nat.add_sub_cancel]
      exact ih (hw.mono (Nat.le_succ hi)) h
    · rw [levelsDown_of_le hge] at h ⊢
      exact h

end Extends

/-- A non-empty index has an entry point on the highest level of all. -/
structure EntryInv (s : Index V) : Prop where
  none : s.enterpointNode = none → s.curElementCount = 0 ∧ s.maxlevel = -1
  lt : ∀ ep, s.enterpointNode = some ep → ep < s.curElementCount
  level : ∀ ep, s.enterpointNode = some ep → (s.level ep : Int) = s.maxlevel
  le : ∀ i, i < s.curElementCount → (s.level i : Int) ≤ s.maxlevel

theorem EntryInv.exists_entry (h : s.EntryInv) (hpos : 0 < s.curElementCount) :
    ∃ ep, s.enterpointNode = some ep := by
  cases hep : s.enterpointNode with
  | none =>
    have := (h.none hep).1
    omega
  | some ep => exact ⟨ep, rfl⟩

theorem entry_of_some {ep : TableInt} (h : s.enterpointNode = some ep) : s.entry = ep := by
  rw [entry, h]
  rfl

theorem descentEnd_ok (checked : Bool) (hg : s.GraphInv) (hcap : s.curElementCount ≤ s.maxElements)
    {ep : TableInt} (hep : s.enterpointNode = some ep) (hlt : ep < s.curElementCount)
    (hlevel : s.maxlevel.toNat ≤ s.level ep) (lo : Nat) :
    ∃ i, descentEnd P s q checked lo = .ok i ∧ s.AtLevel (min s.maxlevel.toNat lo) i := by
  obtain ⟨cur, he, hw⟩ := descend_ok (P := P) (q := q) checked hg hcap lo
    (walkAt_element ⟨hlt, hlevel⟩)
  refine ⟨cur.2, ?_, hw.1⟩
  rw [descentEnd, entry_of_some hep, he]

/-- The steepest descent towards `q`, from the entry point to just above level `lo`, ends at `i`. -/
def DescendsTo (P : Platform V D) (s : Index V) (q : V) (lo : Nat) (ep i : TableInt) : Prop :=
  LevelDescent (fun l i => s.connections i l)
    (fun i => P.fstdistfunc q (s.getDataByInternalId i)) (levelsDown s.maxlevel.toNat lo) ep i

theorem descentEnd_descendsTo {checked : Bool} {lo : Nat} {ep i : TableInt}
    (hep : s.enterpointNode = some ep) (h : descentEnd P s q checked lo = .ok i) :
    DescendsTo P s q lo ep i := by
  rw [descentEnd, entry_of_some hep] at h
  split at h
  · cases h
  · next cur hcur =>
    cases h
    exact descend_levelDescent checked rfl hcur

theorem Extends.descentEnd_eq {t : Index V} {checked : Bool} (he : Extends s t) (hg : s.GraphInv)
    (hcap : s.curElementCount ≤ s.maxElements) {ep : TableInt} (hep : s.enterpointNode = some ep)
    (hept : t.enterpointNode = s.enterpointNode) (hmax : t.maxlevel = s.maxlevel)
    (hlt : ep < s.curElementCount) (hlevel : s.maxlevel.toNat ≤ s.level ep) (lo : Nat) :
    descentEnd P t q checked lo = descentEnd P s q checked lo := by
  obtain ⟨cur, hcur, -⟩ := descend_ok (P := P) (q := q) checked hg hcap lo
    (walkAt_element ⟨hlt, hlevel⟩)
  rw [descentEnd, descentEnd, entry_of_some hep, entry_of_some (hept.trans hep), hmax,
    he.data ep hlt, hcur, he.descend_eq hg hcap ⟨⟨hlt, hlevel⟩, rfl⟩ hcur]

/-- The elements that links of a layer lead to. -/
def LinkReach (s : Index V) (layer : Nat) : TableInt → TableInt → Prop :=
  Relation.ReflTransGen fun i j => j ∈ s.connections i layer

theorem LinkReach.atLevel {layer : Nat} {ep i : TableInt} (h : s.LinkReach layer ep i)
    (hg : s.GraphInv) (hep : s.AtLevel layer ep) : s.AtLevel layer i := by
  induction h with
  | refl => exact hep
  | tail _ hlink ih => exact ((hg _ _ ih).valid _ hlink).1

theorem Extends.linkReach_iff {t : Index V} (he : Extends s t) (hg : s.GraphInv) {layer : Nat}
    {ep i : TableInt} (hep : s.AtLevel layer ep) : t.LinkReach layer ep i ↔ s.LinkReach layer ep i := by
  constructor <;> intro h
  · induction h with
    | refl => exact Relation.ReflTransGen.refl
    | tail _ hlink ih =>
      rw [he.links layer _ (LinkReach.atLevel ih hg hep)] at hlink
      exact ih.tail hlink
  · induction h with
    | refl => exact Relation.ReflTransGen.refl
    | tail hreach hlink ih =>
      rw [← he.links layer _ (LinkReach.atLevel hreach hg hep)] at hlink
      exact ih.tail hlink

private theorem trim_layerPolicy {Q : BeamQueues TableInt D} {efConstruction : Nat} (d : D)
    {top : Q.far.Carrier} (h : Q.far.size top ≤ efConstruction + 1) :
    ∃ st, BestFirst.trim Q (layerPolicy efConstruction) d (Q.far.size top) top false =
      .ok (Q.far.popTo efConstruction top, st) := by
  have hdone : ∀ n top, BestFirst.trim Q (layerPolicy efConstruction) d n top true =
      .ok (top, true) := by
    intro n top
    cases n <;> simp [BestFirst.trim, layerPolicy]
  cases ht : Q.far.top top with
  | none =>
    have h0 : Q.far.size top = 0 := by rw [PriorityQueue.size, Q.far.elems_of_top_none top ht]; rfl
    rw [Q.far.popTo_of_le (by omega), h0, BestFirst.trim]
    exact ⟨false, by simp [layerPolicy, h0]⟩
  | some p =>
    have hs := Q.far.size_pop ht
    rcases Nat.lt_or_ge efConstruction (Q.far.size top) with hlt | hge
    · rw [Q.far.popTo_of_lt ht hlt, Q.far.popTo_of_le (by omega), hs, BestFirst.trim, ht]
      exact ⟨true, by simpa [layerPolicy, hlt] using hdone _ _⟩
    · rw [Q.far.popTo_of_le hge, hs, BestFirst.trim]
      exact ⟨false, by simp [layerPolicy, not_lt.mpr hge]⟩

theorem layerPolicy_keepsNearest (Q : BeamQueues TableInt D) (efConstruction : Nat) :
    KeepsNearest Q (layerPolicy efConstruction) efConstruction where
  stop st n d lb h := by
    simp only [layerPolicy, Bool.and_eq_true, beq_iff_eq] at h
    exact h.2
  consider st n d lb := rfl
  trim st n d lb top h := trim_layerPolicy d h
  trim_added st n d lb c top h := trim_layerPolicy d h

/-- The elements of a level bound every search of that layer. -/
def levelElements (s : Index V) (layer : Nat) : Finset TableInt :=
  (Finset.range s.curElementCount).filter fun i => layer ≤ s.level i

theorem mem_levelElements {layer : Nat} {i : TableInt} :
    i ∈ s.levelElements layer ↔ s.AtLevel layer i := by
  rw [levelElements, Finset.mem_filter, Finset.mem_range, AtLevel]

theorem card_levelElements_le (s : Index V) (layer : Nat) :
    (s.levelElements layer).card ≤ s.curElementCount :=
  (Finset.card_filter_le _ _).trans (Finset.card_range _).le

theorem levelElements_closed (hg : s.GraphInv) (layer : Nat) :
    ∀ i ∈ s.levelElements layer, ∀ j ∈ s.connections i layer, j ∈ s.levelElements layer := by
  intro i hi j hj
  rw [mem_levelElements] at hi ⊢
  exact ((hg i layer hi).valid j hj).1

/-- The result of `searchBaseLayer`: distinct live elements reached from the start. It is empty
only if no live element can be reached. -/
structure LayerResult (P : Platform V D) (s : Index V) (q : V) (layer : Nat) (ep : TableInt)
    (top : P.queues.far.Carrier) : Prop where
  nodup : (queueIds P top).Nodup
  reach : ∀ i ∈ queueIds P top, s.LinkReach layer ep i
  live : ∀ i ∈ queueIds P top, s.isMarkedDeleted i = false
  size_le : P.queues.far.size top ≤ s.efConstruction
  nonempty : ∀ i, s.LinkReach layer ep i → s.isMarkedDeleted i = false →
    P.queues.far.elems top ≠ 0

private theorem searchBaseLayer_beam (hg : s.GraphInv) (hef : 0 < s.efConstruction) {layer : Nat}
    {ep : TableInt} (hep : s.AtLevel layer ep) :
    ∃ b, searchBaseLayer P s ep q layer = .ok b.topCandidates ∧
      BestFirst.search P.queues (layerGraph P s q layer fun i => !s.isMarkedDeleted i)
        (layerPolicy s.efConstruction) s.curElementCount P.maxDist ep false = .ok b ∧
      BestFirst.Sound P.queues (layerGraph P s q layer fun i => !s.isMarkedDeleted i) ep b ∧
      BestFirst.Nearest P.queues (layerGraph P s q layer fun i => !s.isMarkedDeleted i)
        s.efConstruction b ∧
      (P.queues.far.size b.topCandidates < s.efConstruction →
        ∀ i, s.LinkReach layer ep i → i ∈ b.visited) := by
  obtain ⟨b, hb, hsound, hnear, hall⟩ := BestFirst.search_nearest (Q := P.queues)
    (G := layerGraph P s q layer fun i => !s.isMarkedDeleted i)
    (layerPolicy_keepsNearest P.queues s.efConstruction) hef (levelElements_closed hg layer)
    (mem_levelElements.mpr hep) (card_levelElements_le s layer) P.maxDist false
  exact ⟨b, by rw [searchBaseLayer, hb]; rfl, hb, hsound, hnear, hall⟩

theorem searchBaseLayer_ok (hg : s.GraphInv) (hef : 0 < s.efConstruction) {layer : Nat}
    {ep : TableInt} (hep : s.AtLevel layer ep) :
    ∃ top, searchBaseLayer P s ep q layer = .ok top ∧ LayerResult P s q layer ep top := by
  obtain ⟨b, hrun, -, hsound, hnear, hall⟩ := searchBaseLayer_beam (P := P) (q := q) hg hef hep
  refine ⟨b.topCandidates, hrun, hsound.nodup, ?_, ?_, hnear.size_le, ?_⟩
  · intro i hi
    obtain ⟨p, hp, rfl⟩ := Multiset.mem_map.mp hi
    exact hsound.reach _ (hsound.result p hp).1
  · intro i hi
    obtain ⟨p, hp, rfl⟩ := Multiset.mem_map.mp hi
    simpa [layerGraph] using (hsound.result p hp).2.1
  · intro i hi hlive h0
    have hsize : P.queues.far.size b.topCandidates = 0 := by rw [PriorityQueue.size, h0]; rfl
    have hel : (layerGraph P s q layer fun i => !s.isMarkedDeleted i).eligible i = true := by
      simp [layerGraph, hlive]
    rcases hnear.best i (hall (by omega) i hi) hel with hm | ⟨hfull, -⟩
    · rw [h0] at hm
      exact Multiset.notMem_zero _ hm
    · omega

theorem searchBaseLayer_local (hg : s.GraphInv) (hef : 0 < s.efConstruction) {layer : Nat}
    {ep : TableInt} (hep : s.AtLevel layer ep) {top : P.queues.far.Carrier}
    (h : searchBaseLayer P s ep q layer = .ok top) {p : D × TableInt}
    (hp : p ∈ P.queues.far.elems top) (hmin : ∀ r ∈ P.queues.far.elems top, p.1 ≤ r.1) :
    p.1 = P.fstdistfunc q (s.getDataByInternalId p.2) ∧
      ∀ j ∈ s.connections p.2 layer, s.isMarkedDeleted j = false →
        p.1 ≤ P.fstdistfunc q (s.getDataByInternalId j) := by
  obtain ⟨b, hrun, hb, hsound, hnear, -⟩ := searchBaseLayer_beam (P := P) (q := q) hg hef hep
  obtain rfl : top = b.topCandidates := Except.ok.inj (h.symm.trans hrun)
  refine ⟨(hsound.result p hp).2.2, fun j hj hlive => ?_⟩
  refine BestFirst.search_nearest_local (layerPolicy_keepsNearest P.queues s.efConstruction) hef ?_
    hb hnear hp hmin hj ?_
  · intro st n d lb hs
    simp only [layerPolicy, Bool.and_eq_true, decide_eq_true_eq] at hs
    exact hs.1
  · simp [layerGraph, hlive]

/-- With room for all elements that links lead to, the search returns every live one of them. -/
theorem searchBaseLayer_all (hg : s.GraphInv) (hef : 0 < s.efConstruction) {layer : Nat}
    {ep : TableInt} (hep : s.AtLevel layer ep) {top : P.queues.far.Carrier}
    (h : searchBaseLayer P s ep q layer = .ok top) {U : Finset TableInt} (hU : ep ∈ U)
    (hclosed : ∀ i ∈ U, ∀ j ∈ s.connections i layer, j ∈ U) (hcard : U.card ≤ s.efConstruction)
    {i : TableInt} (hi : s.LinkReach layer ep i) (hlive : s.isMarkedDeleted i = false) :
    i ∈ queueIds P top := by
  obtain ⟨b, hrun, -, hsound, hnear, hall⟩ := searchBaseLayer_beam (P := P) (q := q) hg hef hep
  obtain rfl : top = b.topCandidates := Except.ok.inj (h.symm.trans hrun)
  have hreach : ∀ j, s.LinkReach layer ep j → j ∈ U := by
    intro j hj
    induction hj with
    | refl => exact hU
    | tail _ hlink ih => exact hclosed _ ih _ hlink
  by_contra hnot
  -- the results are elements of `U` other than `i`, so there is room left
  have hsub : (queueIds P b.topCandidates).toFinset ⊆ U.erase i := by
    intro j hj
    have hmem := Multiset.mem_toFinset.mp hj
    obtain ⟨p, hp, rfl⟩ := Multiset.mem_map.mp hmem
    refine Finset.mem_erase.mpr ⟨fun he => hnot (he ▸ hmem), hreach _ ?_⟩
    exact hsound.reach _ (hsound.result p hp).1
  have hsize : P.queues.far.size b.topCandidates < s.efConstruction := by
    have hle := Finset.card_le_card hsub
    rw [queueIds, Multiset.toFinset_card_of_nodup hsound.nodup,
      Finset.card_erase_of_mem (hreach i hi), Multiset.card_map] at hle
    have hpos : 0 < U.card := Finset.card_pos.mpr ⟨i, hreach i hi⟩
    rw [PriorityQueue.size]
    omega
  rcases hnear.best i (hall hsize i hi) (by simp [layerGraph, hlive]) with hmem | ⟨hfull, -⟩
  · exact hnot (Multiset.mem_map_of_mem Prod.snd hmem)
  · omega

end HnswRvv.Index
