import HnswRvv.Index.Invariant

/-!
# Inserting a point

A new element is linked level by level, from the highest level it shares with the graph down to
level 0. The only way to fail is a first level on which no live element can be reached while the
entry point is live (`Stranded`): later levels start at a live neighbour, and a deleted entry
point is always a candidate.
-/

namespace HnswRvv.Index

open Framework OrderDual
set_option linter.unusedSectionVars false

variable {V D : Type} [Inhabited V] [LinearOrder D] {P : Platform V D} {s s' : Index V} {x : V}
  {label : LabelType} {curlevel : Nat}

/-- From `start`, links of level `l` lead to deleted elements only, and the entry point is live. -/
def Stranded (s : Index V) (l : Nat) (start ep : TableInt) : Prop :=
  s.isMarkedDeleted ep = false ∧ ∀ i, s.LinkReach l start i → s.isMarkedDeleted i = true

/-- An element `curC` that is still to be linked on the levels below `n`, starting at `start`. -/
structure Linkable (s : Index V) (curC ep start : TableInt) (n : Nat) : Prop where
  cur : ∀ l < n, s.AtLevel l curC
  blank : ∀ l < n, s.getLinklistAtLevel curC l = default
  unlinked : ∀ l < n, ∀ o, s.AtLevel l o → curC ∉ s.connections o l
  entry : ∀ l < n, s.AtLevel l ep
  entry_ne : ep ≠ curC
  begins : ∀ l < n, s.AtLevel l start
  begins_ne : start ≠ curC

theorem LinkReach.ne {curC start i : TableInt} {l : Nat} (h : s.LinkReach l start i)
    (hg : s.GraphInv) (hstart : s.AtLevel l start) (hne : start ≠ curC)
    (hun : ∀ o, s.AtLevel l o → curC ∉ s.connections o l) : i ≠ curC := by
  cases h with
  | refl => exact hne
  | tail hreach hlink =>
    rintro rfl
    exact hun _ (LinkReach.atLevel hreach hg hstart) hlink

/-- The last level of an insertion: `curC` is linked to neighbours selected from the results of a
search, in a state whose level-0 lists are still those of `s`. -/
def BaseConnected (P : Platform V D) (s s' : Index V) (x : V) (curC ep : TableInt) : Prop :=
  ∃ t start top, SameRecords s t ∧ (∀ j, t.getLinklistAtLevel j 0 = s.getLinklistAtLevel j 0) ∧
    t.GraphInv ∧ t.AtLevel 0 start ∧ start ≠ curC ∧ searchBaseLayer P t start x 0 = .ok top ∧
    CandidatesFit P t curC 0 (addEntryPoint P t x ep top) ∧
    P.queues.far.elems (addEntryPoint P t x ep top) ≠ 0 ∧
    Connected P t s' curC (addEntryPoint P t x ep top) 0 false

theorem BaseConnected.of_same {t : Index V} {curC ep : TableInt} (hrec : SameRecords s t)
    (hlists : ∀ j, t.getLinklistAtLevel j 0 = s.getLinklistAtLevel j 0)
    (h : BaseConnected P t s' x curC ep) : BaseConnected P s s' x curC ep := by
  obtain ⟨u, start, top, hrec', hlists', h⟩ := h
  exact ⟨u, start, top, hrec.trans hrec', fun j => (hlists' j).trans (hlists j), h⟩

section Levels

variable {curC ep start : TableInt} {n : Nat} {top : P.queues.far.Carrier}

theorem Linkable.candidatesFit (h : Linkable s curC ep start (n + 1)) (hg : s.GraphInv)
    (hres : LayerResult P s x n start top) :
    CandidatesFit P s curC n (addEntryPoint P s x ep top) := by
  have hn := Nat.lt_succ_self n
  have hfit : CandidatesFit P s curC n top :=
    ⟨hres.nodup, fun j hj => ⟨(hres.reach j hj).atLevel hg (h.begins n hn),
      (hres.reach j hj).ne hg (h.begins n hn) h.begins_ne (h.unlinked n hn)⟩⟩
  exact hfit.addEntryPoint x ep hres.live fun _ => ⟨h.entry n hn, h.entry_ne⟩

theorem Linkable.below {q : P.queues.far.Carrier} {next : TableInt}
    (h : Linkable s curC ep start (n + 1)) (hfit : CandidatesFit P s curC n q)
    (hconn : Connected P s s' curC q n false) (hnext : next ∈ queueIds P q) :
    Linkable s' curC ep next n := by
  have hn := Nat.lt_succ_self n
  have hrec := hconn.records
  obtain ⟨hat, hne⟩ := hfit.valid next hnext
  have hframe : ∀ l < n, ∀ j, s'.getLinklistAtLevel j l = s.getLinklistAtLevel j l :=
    fun l hl j => hconn.frame j l (Or.inr hl.ne)
  constructor
  · intro l hl
    exact hrec.atLevel.mpr (h.cur l (hl.trans hn))
  · intro l hl
    rw [hframe l hl]
    exact h.blank l (hl.trans hn)
  · intro l hl o ho
    rw [connections, hframe l hl]
    exact h.unlinked l (hl.trans hn) o (hrec.atLevel.mp ho)
  · intro l hl
    exact hrec.atLevel.mpr (h.entry l (hl.trans hn))
  · exact h.entry_ne
  · intro l hl
    exact hrec.atLevel.mpr ⟨hat.1, hl.le.trans hat.2⟩
  · exact hne

private theorem LayerResult.stranded_iff (hres : LayerResult P s x n start top)
    (hef : 0 < s.efConstruction) :
    Stranded s n start ep ↔ P.queues.far.elems (addEntryPoint P s x ep top) = 0 := by
  constructor
  · rintro ⟨hep, hall⟩
    rw [addEntryPoint_of_live hep]
    refine Multiset.eq_zero_of_forall_notMem fun p hp => ?_
    have hmem := Multiset.mem_map_of_mem Prod.snd hp
    exact Bool.false_ne_true ((hres.live p.2 hmem).symm.trans (hall p.2 (hres.reach p.2 hmem)))
  · intro hnone
    have hep : s.isMarkedDeleted ep = false := by
      by_contra hm
      exact addEntryPoint_ne_zero hef (Or.inl (Bool.eq_true_of_not_eq_false hm)) hnone
    rw [addEntryPoint_of_live hep] at hnone
    refine ⟨hep, fun i hi => ?_⟩
    by_contra hm
    exact hres.nonempty i hi (Bool.eq_false_of_not_eq_true hm) hnone

/-- A level below does not strand: its start is live, or it is the deleted entry point. -/
theorem LayerResult.not_stranded_below {l : Nat} {next : TableInt}
    (hres : LayerResult P s x n start top) (hrec : SameRecords s s')
    (hnext : next ∈ queueIds P (addEntryPoint P s x ep top)) : ¬Stranded s' l next ep := by
  rintro ⟨hep, hall⟩
  have hdead := hall next Relation.ReflTransGen.refl
  rw [hrec.mark] at hep hdead
  rw [addEntryPoint_of_live hep] at hnext
  exact Bool.false_ne_true ((hres.live next hnext).symm.trans hdead)

private theorem wp_insertLevels {maxlevelcopy : Int} (n : Nat) (hg : s.GraphInv) (hp : s.Params)
    (h : Linkable s curC ep start n) (hmax : (n : Int) ≤ maxlevelcopy + 1) :
    wp (insertLevels P x curC ep maxlevelcopy (List.range n).reverse start)
      (fun _ s' => LinksOnly s s' ∧ (n = 0 → s' = s) ∧
        (0 < n → ¬Stranded s (n - 1) start ep ∧ BaseConnected P s s' x curC ep))
      (fun e s' => e = .emptyBack ∧ s' = s ∧ 0 < n ∧ Stranded s (n - 1) start ep) s := by
  induction n generalizing s start with
  | zero =>
    rw [List.range_zero, List.reverse_nil, insertLevels, wp_pure]
    exact ⟨⟨SameRecords.refl s, hg⟩, fun _ => rfl, fun h => absurd h (lt_irrefl 0)⟩
  | succ n ih =>
    have hn := Nat.lt_succ_self n
    have hef := hp.efConstruction_pos
    obtain ⟨top, htop, hres⟩ := searchBaseLayer_ok (P := P) (q := x) hg hef (h.begins n hn)
    have hfit := h.candidatesFit hg hres
    rw [List.range_succ, List.reverse_append]
    simp only [List.reverse_cons, List.reverse_nil, List.nil_append, List.singleton_append,
      insertLevels, wp_bind, wp_get]
    rw [if_neg (by push_cast at hmax; omega)]
    simp only [wp_bind, htop, wp_readOnly_ok]
    refine wp_mono (wp_mutuallyConnectNewElement hg hp (h.cur n hn) hfit
      fun _ => ⟨h.blank n hn, h.unlinked n hn⟩) (fun next s₁ h₁ => ?_) fun e s₁ h₁ => ?_
    · obtain ⟨hconn, hnext⟩ := h₁
      have hrec := hconn.records
      have hsome : P.queues.far.elems (addEntryPoint P s x ep top) ≠ 0 := by
        intro h0
        rw [queueIds, h0, Multiset.map_zero] at hnext
        exact Multiset.notMem_zero next hnext
      have hbase : ∀ s₂, (n = 0 → s₂ = s₁) → (0 < n → BaseConnected P s₁ s₂ x curC ep) →
          BaseConnected P s s₂ x curC ep := by
        intro s₂ hzero hpos
        rcases Nat.eq_zero_or_pos n with rfl | hn0
        · rw [hzero rfl]
          exact ⟨s, start, top, SameRecords.refl s, fun _ => rfl, hg, h.begins 0 hn, h.begins_ne, htop,
            hfit, hsome, hconn⟩
        · exact (hpos hn0).of_same hrec fun j => hconn.frame j 0 (Or.inr hn0.ne)
      refine wp_mono (ih hconn.graph (hrec.params hp) (h.below hfit hconn hnext)
        (by push_cast at hmax; omega)) (fun _ s₂ h₂ => ?_) fun e s₂ h₂ => ?_
      · refine ⟨LinksOnly.trans ⟨hrec, hconn.graph⟩ h₂.1, fun h0 => absurd h0 (Nat.succ_ne_zero n),
          fun _ => ⟨?_, ?_⟩⟩
        · rw [Nat.add_sub_cancel, hres.stranded_iff hef]
          exact hsome
        · exact hbase s₂ h₂.2.1 fun hn0 => (h₂.2.2 hn0).2
      · exact absurd h₂.2.2.2 (hres.not_stranded_below hrec hnext)
    · obtain ⟨rfl, rfl, hnone⟩ := h₁
      refine ⟨rfl, rfl, Nat.succ_pos n, ?_⟩
      rw [Nat.add_sub_cancel, hres.stranded_iff hef]
      exact hnone

end Levels

/-- `enterpoint_node_` and `maxlevel_` after an insertion at `curlevel`. -/
def raiseEntry (s : Index V) (curC : TableInt) (curlevel : Nat) : Index V :=
  if s.maxlevel < curlevel then { s with enterpointNode := some curC, maxlevel := curlevel } else s

def inserted (s : Index V) (x : V) (label : LabelType) (curlevel : Nat) : Index V :=
  (s.withNewElement x label curlevel).raiseEntry s.curElementCount curlevel

private theorem raiseEntry_fields (s : Index V) (curC : TableInt) (curlevel : Nat) :
    s.raiseEntry curC curlevel =
      { s with
        enterpointNode := (s.raiseEntry curC curlevel).enterpointNode
        maxlevel := (s.raiseEntry curC curlevel).maxlevel } := by
  unfold raiseEntry
  split <;> rfl

theorem LinksOnly.raiseEntry (h : LinksOnly s s') (curC : TableInt) (curlevel : Nat) :
    LinksOnly (s.raiseEntry curC curlevel) (s'.raiseEntry curC curlevel) := by
  obtain ⟨⟨hf, hd, hl, hm⟩, hg⟩ := h
  have hmax : s'.maxlevel = s.maxlevel := by rw [hf]
  unfold Index.raiseEntry
  rw [hmax]
  split
  · exact ⟨⟨by rw [hf], hd, hl, hm⟩,
      hg.congr rfl (fun _ => rfl) (fun _ => rfl) fun _ _ => rfl⟩
  · exact ⟨⟨hf, hd, hl, hm⟩, hg⟩

private theorem maxlevel_withNewElement : (s.withNewElement x label curlevel).maxlevel = s.maxlevel := by
  rw [withNewElement_fields]
  rfl

private theorem enterpointNode_withNewElement :
    (s.withNewElement x label curlevel).enterpointNode = s.enterpointNode := by
  rw [withNewElement_fields]
  rfl

theorem Params.withNewElement (hp : s.Params) (x : V) (label : LabelType) (curlevel : Nat) :
    (s.withNewElement x label curlevel).Params := by
  rw [withNewElement_fields]
  exact ⟨hp.1, hp.2, hp.3, hp.4, hp.5⟩

private theorem markedIds_withNewElement : (s.withNewElement x label curlevel).markedIds = s.markedIds := by
  ext i
  rw [mem_markedIds, mem_markedIds, curElementCount_withNewElement, isMarkedDeleted_withNewElement]
  by_cases h : i = s.curElementCount
  · simp [h]
  · rw [if_neg h]
    have := Nat.lt_succ_iff_lt_or_eq (m := i) (n := s.curElementCount)
    tauto

theorem inserted_fields (s : Index V) (x : V) (label : LabelType) (curlevel : Nat) :
    s.inserted x label curlevel =
      { s.withNewElement x label curlevel with
        enterpointNode := (s.inserted x label curlevel).enterpointNode
        maxlevel := (s.inserted x label curlevel).maxlevel } := by
  unfold inserted
  exact raiseEntry_fields _ _ _

@[simp] theorem curElementCount_inserted :
    (s.inserted x label curlevel).curElementCount = s.curElementCount + 1 := by
  rw [inserted_fields]
  exact curElementCount_withNewElement

theorem level_inserted {i : TableInt} : (s.inserted x label curlevel).level i =
    if i = s.curElementCount then curlevel else s.level i := by
  rw [inserted_fields]
  exact level_withNewElement

theorem getDataByInternalId_inserted {i : TableInt} :
    (s.inserted x label curlevel).getDataByInternalId i =
      if i = s.curElementCount then x else s.getDataByInternalId i := by
  rw [inserted_fields]
  exact getDataByInternalId_withNewElement

theorem getExternalLabel_inserted {i : TableInt} :
    (s.inserted x label curlevel).getExternalLabel i =
      if i = s.curElementCount then label else s.getExternalLabel i := by
  rw [inserted_fields]
  exact getExternalLabel_withNewElement

theorem isMarkedDeleted_inserted {i : TableInt} : (s.inserted x label curlevel).isMarkedDeleted i =
    if i = s.curElementCount then false else s.isMarkedDeleted i := by
  rw [inserted_fields]
  exact isMarkedDeleted_withNewElement

theorem labelLookup_inserted (l : LabelType) : (s.inserted x label curlevel).labelLookup l =
    if l = label then some s.curElementCount else s.labelLookup l := by
  rw [inserted_fields, withNewElement_fields]
  rfl

theorem maxElements_inserted : (s.inserted x label curlevel).maxElements = s.maxElements := by
  rw [inserted_fields, withNewElement_fields]
  rfl

theorem allowReplaceDeleted_inserted :
    (s.inserted x label curlevel).allowReplaceDeleted = s.allowReplaceDeleted := by
  rw [inserted_fields, withNewElement_fields]
  rfl

private theorem entry_inserted (s : Index V) (x : V) (label : LabelType) (curlevel : Nat) :
    s.maxlevel < curlevel ∧
      (s.inserted x label curlevel).enterpointNode = some s.curElementCount ∧
      (s.inserted x label curlevel).maxlevel = curlevel ∨
    curlevel ≤ s.maxlevel ∧ (s.inserted x label curlevel).enterpointNode = s.enterpointNode ∧
      (s.inserted x label curlevel).maxlevel = s.maxlevel := by
  unfold inserted raiseEntry
  rw [maxlevel_withNewElement]
  split
  · next hlt => exact Or.inl ⟨hlt, rfl, rfl⟩
  · next hge =>
    exact Or.inr ⟨not_lt.mp hge, enterpointNode_withNewElement, maxlevel_withNewElement⟩

theorem EntryInv.inserted (h : s.EntryInv) : (s.inserted x label curlevel).EntryInv := by
  have hold : ∀ i, i < s.curElementCount + 1 → i ≠ s.curElementCount → i < s.curElementCount :=
    fun i hi hne => lt_of_le_of_ne (Nat.lt_succ_iff.mp hi) hne
  rcases entry_inserted s x label curlevel with ⟨hlt, hep, hmax⟩ | ⟨hge, hep, hmax⟩
  · constructor <;> simp only [hep, hmax, curElementCount_inserted, level_inserted]
    · simp
    · rintro _ ⟨⟩
      exact Nat.lt_succ_self _
    · rintro _ ⟨⟩
      simp
    · intro i hi
      split
      · exact le_rfl
      · next hne => exact (h.le i (hold i hi hne)).trans hlt.le
  · constructor <;> simp only [hep, hmax, curElementCount_inserted, level_inserted]
    · intro hn
      have := (h.none hn).2
      omega
    · intro ep he
      exact (h.lt ep he).trans (Nat.lt_succ_self _)
    · intro ep he
      rw [if_neg (h.lt ep he).ne]
      exact h.level ep he
    · intro i hi
      split
      · exact hge
      · next hne => exact h.le i (hold i hi hne)

theorem WellFormed.inserted (h : s.WellFormed) (hroom : s.curElementCount < s.maxElements) :
    (s.inserted x label curlevel).WellFormed := by
  have hids : (s.inserted x label curlevel).markedIds = s.markedIds := by
    rw [inserted_fields]
    exact markedIds_withNewElement
  have hp := h.params.withNewElement x label curlevel
  have hg := h.graph.withNewElement x label curlevel
  constructor
  · rw [inserted_fields]
    exact ⟨hp.1, hp.2, hp.3, hp.4, hp.5⟩
  · rw [curElementCount_inserted, maxElements_inserted]
    exact hroom
  · rw [inserted_fields]
    exact hg.congr rfl (fun _ => rfl) (fun _ => rfl) fun _ _ => rfl
  · exact h.entry.inserted
  · intro l i hi
    rw [labelLookup_inserted] at hi
    rw [curElementCount_inserted]
    split at hi
    · cases hi
      exact Nat.lt_succ_self _
    · exact (h.lookup l i hi).trans (Nat.lt_succ_self _)
  · rw [hids, inserted_fields, withNewElement_fields]
    exact h.numDeleted
  · rw [hids, allowReplaceDeleted_inserted, ← h.deleted, inserted_fields, withNewElement_fields]
    rfl

private theorem extends_withNewElement (x : V) (label : LabelType) (curlevel : Nat) :
    Extends s (s.withNewElement x label curlevel) where
  cap h := by
    rw [withNewElement_fields]
    exact h
  count := by
    rw [curElementCount_withNewElement]
    exact Nat.le_succ _
  data i hi := by rw [getDataByInternalId_withNewElement, if_neg hi.ne]
  links l i hi := connections_withNewElement_of_ne hi.1.ne

/-- Where an insertion at `curlevel` fails: the end of the descent towards `x` is stranded. -/
def InsertFault (P : Platform V D) (s : Index V) (x : V) (curlevel : Nat) : Prop :=
  ∃ ep start, s.enterpointNode = some ep ∧ DescendsTo P s x curlevel ep start ∧
    Stranded s (min curlevel s.maxlevel.toNat) start ep

private theorem insertFault_iff {ep start : TableInt} (hep : s.enterpointNode = some ep)
    (hstart : DescendsTo P s x curlevel ep start) :
    InsertFault P s x curlevel ↔ Stranded s (min curlevel s.maxlevel.toNat) start ep := by
  constructor
  · rintro ⟨ep', start', hep', hstart', hstranded⟩
    obtain rfl : ep = ep' := Option.some.inj (hep.symm.trans hep')
    obtain rfl := hstart.unique hstart'
    exact hstranded
  · intro hstranded
    exact ⟨ep, start, hep, hstart, hstranded⟩

private theorem stranded_withNewElement_iff (hg : s.GraphInv) {l : Nat} {start ep : TableInt}
    (hstart : s.AtLevel l start) (hep : ep < s.curElementCount) :
    Stranded (s.withNewElement x label curlevel) l start ep ↔ Stranded s l start ep := by
  rw [Stranded, Stranded, isMarkedDeleted_withNewElement, if_neg hep.ne]
  refine and_congr_right fun _ => forall_congr' fun i => ?_
  rw [(extends_withNewElement x label curlevel).linkReach_iff hg hstart]
  refine imp_congr_right fun hi => ?_
  rw [isMarkedDeleted_withNewElement, if_neg (hi.atLevel hg hstart).1.ne]

private theorem wp_linkNewElement {ep : TableInt} (h : s.WellFormed) (hep : s.enterpointNode = some ep) :
    wp (linkNewElement P x s.curElementCount ep curlevel s.maxlevel)
      (fun _ s' => LinksOnly (s.withNewElement x label curlevel) s' ∧ ¬InsertFault P s x curlevel ∧
        BaseConnected P (s.withNewElement x label curlevel) s' x s.curElementCount ep)
      (fun e _ => e = .emptyBack ∧ InsertFault P s x curlevel)
      (s.withNewElement x label curlevel) := by
  have hg := h.graph.withNewElement x label curlevel
  have hp := h.params.withNewElement x label curlevel
  have hlt := h.entry.lt ep hep
  have hlevel := h.entry.level ep hep
  obtain ⟨start, hstart, hat⟩ := descentEnd_ok (P := P) (q := x) true h.graph h.cap
    hep hlt (by omega) curlevel
  have hdescent : descentEnd P (s.withNewElement x label curlevel) x true curlevel = .ok start := by
    rw [(extends_withNewElement x label curlevel).descentEnd_eq h.graph h.cap hep
      enterpointNode_withNewElement maxlevel_withNewElement hlt (by omega), hstart]
  have hn : (min (curlevel : Int) s.maxlevel + 1).toNat = min curlevel s.maxlevel.toNat + 1 := by
    omega
  simp only [linkNewElement, wp_bind, wp_get, hdescent, wp_readOnly_ok, hn]
  rw [min_comm] at hat
  have hlink : Linkable (s.withNewElement x label curlevel) s.curElementCount ep start
      (min curlevel s.maxlevel.toNat + 1) := by
    refine ⟨fun l hl => ⟨?_, ?_⟩, fun l hl => ?_, fun l _ o ho => ?_, fun l hl => ?_, hlt.ne,
      fun l hl => ?_, hat.1.ne⟩
    · rw [curElementCount_withNewElement]
      exact Nat.lt_succ_self _
    · rw [level_withNewElement, if_pos rfl]
      omega
    · exact getLinklistAtLevel_withNewElement_self (by omega)
    · exact notMem_connections_withNewElement h.graph ho
    · exact AtLevel.withNewElement ⟨hlt, by omega⟩
    · exact AtLevel.withNewElement ⟨hat.1, (Nat.lt_succ_iff.mp hl).trans hat.2⟩
  rw [insertFault_iff hep (descentEnd_descendsTo hep hstart),
    ← stranded_withNewElement_iff h.graph hat hlt]
  exact wp_mono (wp_insertLevels _ hg hp hlink (by push_cast; omega))
    (fun _ s' hs' => ⟨hs'.1, hs'.2.2 (Nat.succ_pos _)⟩) fun e s' he => ⟨he.1, he.2.2.2⟩

/-- The level-0 links after an insertion into an index that has an entry point. -/
def BaseInserted (P : Platform V D) (s s' : Index V) (x : V) (label : LabelType) (curlevel : Nat) :
    Prop :=
  ∀ ep, s.enterpointNode = some ep → ∃ t,
    BaseConnected P (s.withNewElement x label curlevel) t x s.curElementCount ep ∧
      ∀ j, s'.connections j 0 = t.connections j 0

theorem wp_insertNew {c : Choices} (h : s.WellFormed) (hlists : curlevel ≠ 0 → c.malloc = true) :
    wp (insertNew P c x label curlevel)
      (fun id s' => ((id = s.curElementCount ∧ LinksOnly (s.inserted x label curlevel) s') ∧
        ¬InsertFault P s x curlevel) ∧ BaseInserted P s s' x label curlevel)
      (fun e _ => e = .emptyBack ∧ InsertFault P s x curlevel) s := by
  simp only [insertNew, wp_bind, wp_get, wp_set]
  rw [if_neg fun hdenied => Bool.false_ne_true (hdenied.2.symm.trans (hlists hdenied.1))]
  simp only [wp_bind, wp_modify]
  have hstate : (if curlevel = 0 then s.appendElement x label curlevel
      else (s.appendElement x label curlevel).allocateLinkLists s.curElementCount curlevel) =
      s.withNewElement x label curlevel := rfl
  rw [hstate]
  cases hep : s.enterpointNode with
  | none =>
    have hmax := (h.entry.none hep).2
    have hlt : s.maxlevel < curlevel := by omega
    have hg := h.graph.withNewElement x label curlevel
    simp only [wp_bind, wp_modify, wp_pure, if_pos hlt, true_and]
    have hins : s.inserted x label curlevel = { s.withNewElement x label curlevel with
        enterpointNode := some s.curElementCount, maxlevel := curlevel } := by
      rw [inserted, raiseEntry, maxlevel_withNewElement, if_pos hlt]
    rw [hins]
    refine ⟨⟨⟨SameRecords.refl _, hg.congr rfl (fun _ => rfl) (fun _ => rfl) fun _ _ => rfl⟩, ?_⟩, ?_⟩
    · rintro ⟨ep, -, hep', -⟩
      cases hep.symm.trans hep'
    · intro ep hep'
      cases hep.symm.trans hep'
  | some ep =>
    simp only [wp_bind]
    refine wp_mono (wp_linkNewElement h hep) (fun _ s₁ h₁ => ?_) fun _ _ he => he
    have hmax : s₁.maxlevel = s.maxlevel := by
      rw [h₁.1.1.fields]
      exact maxlevel_withNewElement
    have hraise := h₁.1.raiseEntry s.curElementCount curlevel
    unfold Index.raiseEntry at hraise
    simp only [wp_bind, wp_modify, wp_pure, true_and]
    rw [hmax] at hraise
    refine ⟨⟨hraise, h₁.2.1⟩, fun ep' hep' => ⟨s₁, ?_, fun j => ?_⟩⟩
    · rw [← Option.some.inj (hep.symm.trans hep')]
      exact h₁.2.2
    · split <;> rfl

/-- Without memory for the upper lists, an insertion throws and leaves the new element behind. -/
theorem wp_insertNew_denied {c : Choices} (hlevel : curlevel ≠ 0) (hmalloc : c.malloc = false) :
    wp (insertNew P c x label curlevel) (fun _ _ => False)
      (fun e s' => e = .thrown .addPointLinklist ∧ s' = s.appendElement x label curlevel) s := by
  simp only [insertNew, wp_bind, wp_get, wp_set]
  rw [if_pos ⟨hlevel, hmalloc⟩, wp_throw]
  exact ⟨rfl, rfl⟩

end HnswRvv.Index
