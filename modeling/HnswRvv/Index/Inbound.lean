import HnswRvv.Index.Runs

/-!
# Inbound links

`checkIntegrity` asserts that every element of an index with more than one has an inbound link.
An insertion can break this in two ways, since a full list that gets a new link is pruned: no
selected neighbour may keep the newcomer, and the last link to an old element may be dropped. An
update rewires the lists around the point and can drop last links too. `KeepsInbound` asks for
neither to happen, in terms of the index before the call; runs that meet it keep every element
linked on level 0.
-/

namespace HnswRvv.Index

open Framework OrderDual
set_option linter.unusedSectionVars false

variable {V D : Type} [Inhabited V] [LinearOrder D] {P : Platform V D} {s s' : Index V} {x : V}
  {label : LabelType} {curlevel : Nat}

/-- `connections_checked` and `inbound_connections_num`, counted without a bound. -/
structure LinkCounts where
  checked : Nat
  inbound : Memory Nat

def LinkCounts.add (n : LinkCounts) (j : TableInt) : LinkCounts :=
  ⟨n.checked + 1, n.inbound.write j (n.inbound.read j + 1)⟩

/-- One entry of a list of `i`. -/
def countLink (s : Index V) (i : TableInt) (n : LinkCounts) (j : TableInt) :
    Except Failure LinkCounts :=
  if s.curElementCount ≤ j then .error .assertion
  else if j = i then .error .assertion
  else .ok (n.add j)

/-- The list of `p.1` at level `p.2`: its entries one by one, then that no two are equal. -/
def countList (s : Index V) (n : LinkCounts) (p : TableInt × Nat) : Except Failure LinkCounts := do
  let n ← (s.connections p.1 p.2).foldlM (s.countLink p.1) n
  if (s.connections p.1 p.2).toFinset.card ≠ (s.connections p.1 p.2).length then
    throw .assertion
  return n

/-- All lists, in the order of the two loops. -/
def allLists (s : Index V) : List (TableInt × Nat) :=
  (List.range s.curElementCount).flatMap fun i => (List.range (s.level i + 1)).map fun l => (i, l)

/-- One element in the last loop, with the least and the greatest count so far. -/
def spread (n : LinkCounts) (range : Nat × Nat) (i : TableInt) : Except Failure (Nat × Nat) :=
  if n.inbound.read i = 0 then .error .assertion
  else .ok (min (n.inbound.read i) range.1, max (n.inbound.read i) range.2)

/-- What `checkIntegrity` prints: the range of the inbound counts and the number of links. -/
structure IntegrityReport where
  inbound : Option (Nat × Nat)
  checked : Nat
  deriving DecidableEq

/-- The part of `checkIntegrity` after the counting. -/
def checkInbound (s : Index V) (n : LinkCounts) : Except Failure IntegrityReport :=
  if s.curElementCount > 1 then do
    let range ← (List.range s.curElementCount).foldlM (spread n) (n.inbound.read 0, n.inbound.read 0)
    return ⟨some range, n.checked⟩
  else return ⟨none, n.checked⟩

def checkIntegrity (s : Index V) : Except Failure IntegrityReport := do
  let n ← s.allLists.foldlM s.countList ⟨0, Memory.fill s.curElementCount 0⟩
  s.checkInbound n

/-- Some list leads to `k`. -/
def HasInbound (s : Index V) (k : TableInt) : Prop := ∃ i l, s.AtLevel l i ∧ k ∈ s.connections i l

private theorem mem_allLists {i : TableInt} {l : Nat} : (i, l) ∈ s.allLists ↔ s.AtLevel l i := by
  simp [allLists, AtLevel]

private theorem hasInbound_iff {k : TableInt} :
    s.HasInbound k ↔ k ∈ s.allLists.flatMap fun p => s.connections p.1 p.2 := by
  rw [List.mem_flatMap]
  constructor
  · rintro ⟨i, l, hi, hk⟩
    exact ⟨(i, l), mem_allLists.mpr hi, hk⟩
  · rintro ⟨⟨i, l⟩, hi, hk⟩
    exact ⟨i, l, mem_allLists.mp hi, hk⟩

private theorem read_foldl_add (links : List TableInt) (n : LinkCounts) (k : TableInt) :
    (links.foldl LinkCounts.add n).inbound.read k = n.inbound.read k + links.count k := by
  induction links generalizing n with
  | nil => rfl
  | cons j links ih =>
    rw [List.foldl_cons, ih, LinkCounts.add, Memory.read_write, List.count_cons]
    by_cases hk : k = j
    · subst hk
      simp [Nat.add_assoc, Nat.add_comm 1]
    · simp [hk, Ne.symm hk]

private theorem foldlM_countLink {i : TableInt} {l : Nat} {links : List TableInt}
    (h : ∀ j ∈ links, s.AtLevel l j ∧ j ≠ i) (n : LinkCounts) :
    links.foldlM (s.countLink i) n = .ok (links.foldl LinkCounts.add n) := by
  induction links generalizing n with
  | nil => rfl
  | cons j links ih =>
    obtain ⟨hj, hrest⟩ := List.forall_mem_cons.mp h
    rw [List.foldlM_cons, countLink, if_neg (not_le.mpr hj.1.1), if_neg hj.2, List.foldl_cons]
    exact ih hrest _

/-- In a graph whose lists fit, the first loops assert nothing wrong and count the links. -/
theorem foldlM_countList (hg : s.GraphInv) {lists : List (TableInt × Nat)}
    (h : ∀ p ∈ lists, s.AtLevel p.2 p.1) (n : LinkCounts) : lists.foldlM s.countList n =
      .ok ((lists.flatMap fun p => s.connections p.1 p.2).foldl LinkCounts.add n) := by
  induction lists generalizing n with
  | nil => rfl
  | cons p lists ih =>
    obtain ⟨hp, hrest⟩ := List.forall_mem_cons.mp h
    have hfit := hg p.1 p.2 hp
    have hstep : s.countList n p = .ok ((s.connections p.1 p.2).foldl LinkCounts.add n) := by
      rw [countList, foldlM_countLink hfit.valid]
      change (if _ then _ else _) = _
      rw [if_neg (not_not.mpr (List.toFinset_card_of_nodup hfit.nodup))]
      rfl
    rw [List.foldlM_cons, hstep, List.flatMap_cons, List.foldl_append]
    exact ih hrest _

private theorem foldlM_spread (n : LinkCounts) (ids : List TableInt) (range : Nat × Nat) :
    (∃ r, ids.foldlM (spread n) range = .ok r) ↔ ∀ i ∈ ids, 0 < n.inbound.read i := by
  induction ids generalizing range with
  | nil => simp [pure, Except.pure]
  | cons i ids ih =>
    rw [List.foldlM_cons, List.forall_mem_cons, spread]
    split
    · next h0 =>
      refine ⟨?_, fun h => absurd h0 h.1.ne'⟩
      rintro ⟨r, hr⟩
      cases hr
    · next h0 =>
      exact (ih _).trans (iff_and_self.mpr fun _ => Nat.pos_of_ne_zero h0)

/-- The check succeeds exactly if an index of more than one element has a link to each. -/
theorem checkIntegrity_iff (hg : s.GraphInv) : (∃ r, s.checkIntegrity = .ok r) ↔
    (1 < s.curElementCount → ∀ k, k < s.curElementCount → s.HasInbound k) := by
  rw [checkIntegrity, foldlM_countList hg fun p hp => mem_allLists.mp hp]
  have hread : ∀ k, 0 < ((s.allLists.flatMap fun p => s.connections p.1 p.2).foldl LinkCounts.add
      ⟨0, Memory.fill s.curElementCount 0⟩).inbound.read k ↔ s.HasInbound k := by
    intro k
    rw [read_foldl_add, show (Memory.fill s.curElementCount 0).read k = 0 from
      Memory.read_fill_default _ k, Nat.zero_add, List.count_pos_iff, hasInbound_iff]
  generalize (s.allLists.flatMap _).foldl LinkCounts.add _ = n at hread ⊢
  change (∃ r, s.checkInbound n = .ok r) ↔ _
  rw [checkInbound]
  split
  · next hmany =>
    have hall := foldlM_spread n (List.range s.curElementCount) (n.inbound.read 0, n.inbound.read 0)
    simp only [List.mem_range, hread] at hall
    rw [forall_prop_of_true hmany, ← hall]
    cases (List.range s.curElementCount).foldlM (spread n) (n.inbound.read 0, n.inbound.read 0) with
    | error e => exact ⟨nofun, nofun⟩
    | ok range => exact ⟨fun _ => ⟨range, rfl⟩, fun _ => ⟨_, rfl⟩⟩
  · next hfew =>
    exact ⟨fun _ h => absurd h hfew, fun _ => ⟨_, rfl⟩⟩

/-- No element carries the delete mark. -/
def Live (s : Index V) : Prop := ∀ i, i < s.curElementCount → s.isMarkedDeleted i = false

/-- The level-0 list of `o` once the next element, with vector `x`, has been linked back. -/
def relinked (P : Platform V D) (s : Index V) (x : V) (o : TableInt) : List TableInt :=
  newBackLinks P (s.withNewElement x 0 0) s.curElementCount 0 false o

/-- What the insertion of `x` reads on level 0: the old lists and vectors, and a blank newcomer. -/
structure Extended (P : Platform V D) (s t : Index V) (x : V) : Prop where
  count : t.curElementCount = s.curElementCount + 1
  params : t.Params
  M : t.M = s.M
  links : ∀ o, o ≠ s.curElementCount → t.connections o 0 = s.connections o 0
  data : ∀ o, o ≠ s.curElementCount → t.getDataByInternalId o = s.getDataByInternalId o
  mark : ∀ o, o ≠ s.curElementCount → t.isMarkedDeleted o = s.isMarkedDeleted o
  back : ∀ o, o ≠ s.curElementCount →
    newBackLinks P t s.curElementCount 0 false o = relinked P s x o

private theorem extended_of_same {t : Index V} (h : s.Params)
    (hrec : SameRecords (s.withNewElement x label curlevel) t)
    (hlists : ∀ j, t.getLinklistAtLevel j 0 =
      (s.withNewElement x label curlevel).getLinklistAtLevel j 0) : Extended P s t x := by
  have hlinks : ∀ o, o ≠ s.curElementCount → t.connections o 0 = s.connections o 0 := by
    intro o ho
    rw [connections, hlists, ← connections, connections_withNewElement_of_ne ho]
  refine ⟨hrec.curElementCount.trans curElementCount_withNewElement,
    hrec.params (h.withNewElement x label curlevel), ?_, hlinks, fun o ho => ?_, fun o ho => ?_,
    fun o ho => newBackLinks_congr (funext fun j => ?_) ?_ ?_⟩
  · rw [hrec.M, withNewElement_fields]
    rfl
  · rw [hrec.data, getDataByInternalId_withNewElement, if_neg ho]
  · rw [hrec.mark, isMarkedDeleted_withNewElement, if_neg ho]
  · rw [hrec.data, getDataByInternalId_withNewElement, getDataByInternalId_withNewElement]
  · rw [hrec.maxLinks, maxLinks_withNewElement, maxLinks_withNewElement]
  · rw [hlinks o ho, connections_withNewElement_of_ne ho]

/-- No level-0 link of `o` leads nearer to `x`. -/
def NearestAround (P : Platform V D) (s : Index V) (x : V) (o : TableInt) : Prop :=
  ∀ j ∈ s.connections o 0,
    P.fstdistfunc x (s.getDataByInternalId o) ≤ P.fstdistfunc x (s.getDataByInternalId j)

/-- The lists of level 0 after the insertion of `x`, with `sel` as its neighbours. -/
structure Joined (P : Platform V D) (s s' : Index V) (x : V) (sel : List TableInt) : Prop where
  old : ∀ o ∈ sel, o < s.curElementCount
  forward : s'.connections s.curElementCount 0 = sel
  back : ∀ o ∈ sel, s'.connections o 0 = relinked P s x o
  frame : ∀ o, o < s.curElementCount → o ∉ sel → s'.connections o 0 = s.connections o 0
  nearest : ∃ o ∈ sel, NearestAround P s x o
  all : s.curElementCount < s.M → s.FullyLinked 0 → ∀ o, o < s.curElementCount → o ∈ sel

section Joined

variable {t : Index V} {start : TableInt} {top : P.queues.far.Carrier}

private theorem Extended.exists_nearest (he : Extended P s t x) (hg : s.GraphInv) (hlive : s.Live)
    (hgt : t.GraphInv) (hstart : t.AtLevel 0 start) (htop : searchBaseLayer P t start x 0 = .ok top)
    (hold : ∀ j ∈ queueIds P top, j < s.curElementCount) (hsome : P.queues.far.elems top ≠ 0) :
    ∃ o ∈ selectedNeighbors P t top, NearestAround P s x o := by
  have hM := he.params.two_le
  obtain ⟨p, hp, hmin, hsel⟩ := exists_nearest_heuristic P t (M := t.M) (by omega) hsome
  obtain ⟨hdist, hlocal⟩ :=
    searchBaseLayer_local hgt he.params.efConstruction_pos hstart htop hp hmin
  have hlt := hold p.2 (Multiset.mem_map_of_mem Prod.snd hp)
  refine ⟨p.2, mem_selectedNeighbors.mpr (Multiset.mem_map_of_mem Prod.snd hsel), fun j hj => ?_⟩
  have hjlt := ((hg p.2 0 ⟨hlt, Nat.zero_le _⟩).valid j hj).1.1
  rw [← he.data p.2 hlt.ne, ← he.data j hjlt.ne, ← hdist]
  apply hlocal j
  · rw [he.links p.2 hlt.ne]
    exact hj
  · rw [he.mark j hjlt.ne]
    exact hlive j hjlt

/-- While there are fewer than `M` elements, all linked, each of them becomes a neighbour. -/
theorem Extended.mem_selected (he : Extended P s t x) (hg : s.GraphInv) (hlive : s.Live)
    (hgt : t.GraphInv) (hstart : t.AtLevel 0 start) (hlt : start < s.curElementCount)
    (htop : searchBaseLayer P t start x 0 = .ok top)
    (hfit : CandidatesFit P t s.curElementCount 0 top) (hM : s.curElementCount < s.M)
    (hfull : s.FullyLinked 0) {o : TableInt} (ho : o < s.curElementCount) :
    o ∈ selectedNeighbors P t top := by
  have hsize := hfit.size_lt (by rw [he.count]; exact Nat.lt_succ_self _)
  rw [he.count] at hsize
  rw [mem_selectedNeighbors_of_lt (by rw [he.M]; omega)]
  have hclosed : ∀ i ∈ Finset.range s.curElementCount, ∀ j ∈ t.connections i 0,
      j ∈ Finset.range s.curElementCount := by
    intro i hi j hj
    rw [Finset.mem_range] at hi ⊢
    rw [he.links i hi.ne] at hj
    exact ((hg i 0 ⟨hi, Nat.zero_le _⟩).valid j hj).1.1
  have hcard : (Finset.range s.curElementCount).card ≤ t.efConstruction := by
    have hef := he.params.efConstruction
    rw [he.M] at hef
    rw [Finset.card_range]
    omega
  apply searchBaseLayer_all hgt he.params.efConstruction_pos hstart htop (Finset.mem_range.mpr hlt)
    hclosed hcard
  · by_cases hos : o = start
    · rw [hos]
      exact Relation.ReflTransGen.refl
    · apply Relation.ReflTransGen.single
      rw [he.links start hlt.ne]
      exact hfull start o ⟨hlt, Nat.zero_le _⟩ ⟨ho, Nat.zero_le _⟩ hos
  · rw [he.mark o ho.ne]
    exact hlive o ho

end Joined

private theorem BaseInserted.joined (hb : BaseInserted P s s' x label curlevel) (h : s.WellFormed)
    (hlive : s.Live) (hpos : 0 < s.curElementCount) : ∃ sel, Joined P s s' x sel := by
  obtain ⟨ep, hep⟩ := h.entry.exists_entry hpos
  obtain ⟨u, ⟨t, start, top, hrec, hlists, hgt, hstart, hne, htop, hfit, hsome, hconn⟩, hu⟩ := hb ep hep
  have he : Extended P s t x := extended_of_same h.params hrec hlists
  have hlt := h.entry.lt ep hep
  rw [addEntryPoint_of_live ((he.mark ep hlt.ne).trans (hlive ep hlt))] at hfit hsome hconn
  have hold : ∀ {j}, t.AtLevel 0 j → j ≠ s.curElementCount → j < s.curElementCount := by
    intro j hj hne
    have hle := hj.1
    rw [he.count] at hle
    exact lt_of_le_of_ne (Nat.lt_succ_iff.mp hle) hne
  have hids : ∀ j ∈ queueIds P top, j < s.curElementCount := fun j hj =>
    hold (hfit.valid j hj).1 (hfit.valid j hj).2
  have hsel : ∀ o ∈ selectedNeighbors P t top, o < s.curElementCount := by
    intro o ho
    apply hids o
    exact Multiset.mem_of_le (Multiset.map_le_map (elems_heuristic_le P t top t.M))
      (mem_selectedNeighbors.mp ho)
  refine ⟨selectedNeighbors P t top, hsel, ?_, fun o ho => ?_, fun o ho hnot => ?_, ?_,
    fun hM hfull o ho => ?_⟩
  · rw [hu, hconn.forward]
  · rw [hu, hconn.back o ho, he.back o (hsel o ho).ne]
  · rw [hu, connections, hconn.frame o 0 (Or.inl ⟨ho.ne, hnot⟩), ← connections, he.links o ho.ne]
  · exact he.exists_nearest h.graph hlive hgt hstart htop hids hsome
  · exact he.mem_selected h.graph hlive hgt hstart (hold hstart hne) htop hfit hM hfull ho

/-- Every element that may be the nearest neighbour selected for `x` would keep a link to it. -/
def Welcomes (P : Platform V D) (s : Index V) (x : V) : Prop :=
  ∀ o, o < s.curElementCount → NearestAround P s x o → s.curElementCount ∈ relinked P s x o

/-- A link that one list would drop for `x` is also in a list that would keep it. -/
def Spares (P : Platform V D) (s : Index V) (x : V) : Prop :=
  ∀ o, o < s.curElementCount → ∀ k ∈ s.connections o 0, k ∉ relinked P s x o →
    ∃ o', o' < s.curElementCount ∧ k ∈ s.connections o' 0 ∧ k ∈ relinked P s x o'

/-- The lists that an update of `i` may take links from: its own, those of its neighbours, and
full ones that do not hold `i`. -/
def Rewritable (s : Index V) (i o : TableInt) : Prop :=
  o = i ∨ o ∈ s.connections i 0 ∨
    i ∉ s.connections o 0 ∧ s.maxLinks 0 ≤ (s.connections o 0).length

/-- Each link that an update of `i` may take is also in a list that it leaves alone. -/
def Redundant (s : Index V) (i : TableInt) : Prop :=
  ∀ o, o < s.curElementCount → s.Rewritable i o → ∀ k ∈ s.connections o 0,
    ∃ o', o' < s.curElementCount ∧ ¬s.Rewritable i o' ∧ k ∈ s.connections o' 0

/-- Storing `x` under `label` drops no last link: a new label is welcome and the old links are
spared, a known one belongs to a small index or to an element whose links are redundant. -/
def KeepsLinks (P : Platform V D) (s : Index V) (x : V) (label : LabelType) : Prop :=
  match s.labelLookup label with
  | none => Welcomes P s x ∧ Spares P s x
  | some i => s.curElementCount ≤ s.M ∨ s.Redundant i

/-- The calls of `addPoint` that keep every element linked. -/
def KeepsInbound (P : Platform V D) (s : Index V) : Op V → Prop
  | .addPointLevel x label _ => KeepsLinks P s x label
  | .addPoint x label _ => KeepsLinks P s x label
  | _ => False

section Decidable

variable (P s x)

instance (o : TableInt) : Decidable (NearestAround P s x o) :=
  inferInstanceAs (Decidable (∀ j ∈ s.connections o 0, _ ≤ _))

instance : Decidable (Welcomes P s x) :=
  inferInstanceAs (Decidable (∀ o, o < s.curElementCount → _ → _))

instance : Decidable (Spares P s x) :=
  inferInstanceAs (Decidable (∀ o, o < s.curElementCount → ∀ k ∈ s.connections o 0, _ → _))

instance (i o : TableInt) : Decidable (s.Rewritable i o) :=
  inferInstanceAs (Decidable (_ ∨ _ ∨ _ ∧ _))

instance (i : TableInt) : Decidable (s.Redundant i) :=
  inferInstanceAs (Decidable (∀ o, o < s.curElementCount → _ → ∀ k ∈ s.connections o 0, _))

instance (label : LabelType) : Decidable (KeepsLinks P s x label) :=
  match h : s.labelLookup label with
  | none => decidable_of_iff (Welcomes P s x ∧ Spares P s x) (by rw [KeepsLinks, h])
  | some i => decidable_of_iff (s.curElementCount ≤ s.M ∨ s.Redundant i) (by rw [KeepsLinks, h])

instance (op : Op V) : Decidable (KeepsInbound P s op) :=
  match op with
  | .addPointLevel x label _ => inferInstanceAs (Decidable (KeepsLinks P s x label))
  | .addPoint x label _ => inferInstanceAs (Decidable (KeepsLinks P s x label))
  | .markDelete _ | .unmarkDelete _ | .resizeIndex _ | .getDataByLabel _ => isFalse id

end Decidable

/-- No element is deleted, a small index is fully linked, and links of level 0 lead everywhere. -/
structure Attached (s : Index V) : Prop where
  live : s.Live
  full : s.curElementCount ≤ s.M → s.FullyLinked 0
  linked : 1 < s.curElementCount → ∀ k, k < s.curElementCount →
    ∃ o, o < s.curElementCount ∧ k ∈ s.connections o 0

theorem FullyLinked.linked (h : s.FullyLinked 0) (hmany : 1 < s.curElementCount) {k : TableInt}
    (hk : k < s.curElementCount) : ∃ o, o < s.curElementCount ∧ k ∈ s.connections o 0 := by
  have hother : ∃ o, o < s.curElementCount ∧ k ≠ o := by
    by_cases h0 : k = 0
    · exact ⟨1, hmany, h0.trans_ne Nat.zero_ne_one⟩
    · exact ⟨0, Nat.zero_lt_of_lt hmany, h0⟩
  obtain ⟨o, ho, hne⟩ := hother
  exact ⟨o, ho, h o k ⟨ho, Nat.zero_le _⟩ ⟨hk, Nat.zero_le _⟩ hne⟩

private theorem relinked_of_room {o : TableInt} (ho : o < s.curElementCount)
    (hroom : (s.connections o 0).length < s.maxLinks 0) :
    relinked P s x o = s.connections o 0 ++ [s.curElementCount] := by
  rw [relinked, newBackLinks, if_neg (by simp), maxLinks_withNewElement,
    connections_withNewElement_of_ne ho.ne, if_pos hroom]

private theorem GraphInv.relinked_eq (hg : s.GraphInv) (hsmall : s.curElementCount ≤ s.maxLinks 0)
    {o : TableInt} (ho : o < s.curElementCount) :
    relinked P s x o = s.connections o 0 ++ [s.curElementCount] := by
  have hfit := hg o 0 ⟨ho, Nat.zero_le _⟩
  exact relinked_of_room ho (lt_of_lt_of_le (length_lt_of_valid hfit.nodup hfit.valid ho) hsmall)

/-- Up to `maxM0_` elements, every insertion keeps every element linked. -/
theorem keepsLinks_of_small (hg : s.GraphInv) (hnew : s.labelLookup label = none)
    (hsmall : s.curElementCount ≤ s.maxLinks 0) : KeepsLinks P s x label := by
  rw [KeepsLinks, hnew]
  constructor
  · intro o ho _
    rw [hg.relinked_eq hsmall ho]
    simp
  · intro o ho k hk hdrop
    rw [hg.relinked_eq hsmall ho] at hdrop
    exact absurd (List.mem_append_left _ hk) hdrop

private theorem Joined.fullyLinked {sel : List TableInt} (h : Joined P s s' x sel) (hw : s.WellFormed)
    (hfull : s.FullyLinked 0) (hM : s.curElementCount < s.M)
    (hcount : s'.curElementCount = s.curElementCount + 1) : s'.FullyLinked 0 := by
  have hsel := h.all hM hfull
  have hold : ∀ {j}, s'.AtLevel 0 j → j ≠ s.curElementCount → j < s.curElementCount := by
    intro j hj hne
    have hle := hj.1
    rw [hcount] at hle
    exact lt_of_le_of_ne (Nat.lt_succ_iff.mp hle) hne
  intro i j hi hj hne
  by_cases hnew : i = s.curElementCount
  · subst hnew
    rw [h.forward]
    exact hsel j (hold hj hne)
  · have hlt := hold hi hnew
    rw [h.back i (hsel i hlt), hw.graph.relinked_eq (hM.le.trans (hw.params.M_le 0)) hlt]
    by_cases hj' : j = s.curElementCount
    · simp [hj']
    · exact List.mem_append_left _ (hfull i j ⟨hlt, Nat.zero_le _⟩ ⟨hold hj hj', Nat.zero_le _⟩ hne)

theorem Joined.keeps {sel : List TableInt} (h : Joined P s s' x sel) {o k : TableInt}
    (ho : o < s.curElementCount) (hk : k ∈ s.connections o 0) (hkeep : k ∈ relinked P s x o) :
    k ∈ s'.connections o 0 := by
  by_cases hsel : o ∈ sel
  · rw [h.back o hsel]
    exact hkeep
  · rw [h.frame o ho hsel]
    exact hk

theorem Joined.linked {sel : List TableInt} (h : Joined P s s' x sel) (hwelcome : Welcomes P s x)
    (hspare : Spares P s x)
    (hlinked : ∀ k, k < s.curElementCount → ∃ o, o < s.curElementCount ∧ k ∈ s.connections o 0)
    {k : TableInt} (hk : k < s.curElementCount + 1) :
    ∃ o, o < s.curElementCount ∧ k ∈ s'.connections o 0 := by
  by_cases hnew : k = s.curElementCount
  · subst hnew
    obtain ⟨o, ho, hnear⟩ := h.nearest
    refine ⟨o, h.old o ho, ?_⟩
    rw [h.back o ho]
    exact hwelcome o (h.old o ho) hnear
  · obtain ⟨o, ho, hko⟩ := hlinked k (lt_of_le_of_ne (Nat.lt_succ_iff.mp hk) hnew)
    by_cases hkeep : k ∈ relinked P s x o
    · exact ⟨o, ho, h.keeps ho hko hkeep⟩
    · obtain ⟨o', ho', hko', hkeep'⟩ := hspare o ho k hko hkeep
      exact ⟨o', ho', h.keeps ho' hko' hkeep'⟩

theorem Live.inserted (h : s.Live) (x : V) (label : LabelType) (curlevel : Nat) :
    (s.inserted x label curlevel).Live := by
  intro i hi
  rw [curElementCount_inserted] at hi
  rw [isMarkedDeleted_inserted]
  split
  · rfl
  · next hne => exact h i (lt_of_le_of_ne (Nat.lt_succ_iff.mp hi) hne)

theorem Live.same (h : s.Live) (hrec : SameRecords s s') : s'.Live := by
  intro i hi
  rw [hrec.curElementCount] at hi
  rw [hrec.mark, h i hi]

theorem Attached.inserted {level : Nat} (h : s.Attached) (hw : s.WellFormed)
    (hl : LinksOnly (s.inserted x label curlevel) s') (hb : BaseInserted P s s' x label level)
    (hwelcome : Welcomes P s x) (hspare : Spares P s x) : s'.Attached := by
  have hcount : s'.curElementCount = s.curElementCount + 1 :=
    hl.1.curElementCount.trans curElementCount_inserted
  have hM : s'.M = s.M := by
    rw [hl.1.M, inserted_fields, withNewElement_fields]
    rfl
  have hfull : s'.curElementCount ≤ s'.M → s'.FullyLinked 0 := by
    intro hsmall
    rw [hM, hcount] at hsmall
    rcases Nat.eq_zero_or_pos s.curElementCount with h0 | hpos
    · intro i j hi hj hne
      have hi := hi.1
      have hj := hj.1
      rw [hcount, h0] at hi hj
      exact absurd ((Nat.lt_one_iff.mp hj).trans (Nat.lt_one_iff.mp hi).symm) hne
    · obtain ⟨sel, hjoined⟩ := hb.joined hw h.live hpos
      exact hjoined.fullyLinked hw (h.full (Nat.le_of_succ_le hsmall)) hsmall hcount
  refine ⟨(h.live.inserted x label curlevel).same hl.1, hfull, fun hmany k hk => ?_⟩
  by_cases hsmall : s'.curElementCount ≤ s'.M
  · exact (hfull hsmall).linked hmany hk
  · -- from `M` elements on, the old ones have links of their own
    rw [hM, hcount, not_le, Nat.lt_succ_iff] at hsmall
    have hmany' : 1 < s.curElementCount := hw.params.two_le.trans hsmall
    obtain ⟨sel, hjoined⟩ := hb.joined hw h.live (Nat.zero_lt_of_lt hmany')
    rw [hcount] at hk
    obtain ⟨o, ho, hko⟩ := hjoined.linked hwelcome hspare (h.linked hmany') hk
    exact ⟨o, by rw [hcount]; exact Nat.lt_succ_of_lt ho, hko⟩

theorem BaseUpdated.keeps {i o k : TableInt} (hb : BaseUpdated (s.setData i x) s' i)
    (ho : ¬s.Rewritable i o) (hk : k ∈ s.connections o 0) : k ∈ s'.connections o 0 := by
  have hsame : ∀ j, (s.setData i x).connections j 0 = s.connections j 0 := fun j => by
    rw [connections, getLinklistAtLevel_setData, connections]
  rw [Rewritable, not_or, not_or, not_and_or, not_not, not_le] at ho
  apply hb.grows o ho.1
  · rw [hsame]
    exact ho.2.1
  · rw [hsame]
    exact ho.2.2
  · rw [hsame]
    exact hk

theorem Attached.updated {i : TableInt} (h : s.Attached) (hl : LinksOnly (s.setData i x) s')
    (hb : BaseUpdated (s.setData i x) s' i) (hkeep : s.curElementCount ≤ s.M ∨ s.Redundant i) :
    s'.Attached := by
  have hlive : (s.setData i x).Live := fun j hj => by
    rw [isMarkedDeleted_setData]
    exact h.live j hj
  have hcount : s'.curElementCount = s.curElementCount := hl.1.curElementCount
  have hfull : s.curElementCount ≤ s.M → s'.FullyLinked 0 := by
    intro hsmall
    refine hb.full hsmall (fun j hj => hlive j hj.1) fun a b ha hb hne => ?_
    rw [connections, getLinklistAtLevel_setData]
    exact h.full hsmall a b ha hb hne
  refine ⟨hlive.same hl.1, fun hsmall => hfull ?_, fun hmany k hk => ?_⟩
  · rw [hcount, hl.1.M] at hsmall
    exact hsmall
  · rcases hkeep with hsmall | hred
    · exact (hfull hsmall).linked hmany hk
    · rw [hcount] at hmany hk ⊢
      obtain ⟨o, ho, hko⟩ := h.linked hmany k hk
      by_cases hrw : s.Rewritable i o
      · obtain ⟨o', ho', hsafe, hko'⟩ := hred o ho hrw k hko
        exact ⟨o', ho', hb.keeps hsafe hko'⟩
      · exact ⟨o, ho, hb.keeps hrw hko⟩

theorem Attached.stored {t : Index V} (h : s.Attached) (hw : s.WellFormed)
    (hst : Stored s x label t) (hl : LinksOnly t s') (hb : BaseStored P s s' x label)
    (hkeep : KeepsLinks P s x label) : s'.Attached := by
  cases hst with
  | inserted curlevel hnew hroom =>
    rw [KeepsLinks, hnew] at hkeep
    obtain ⟨level, hb⟩ := hb.inserted hnew
    exact h.inserted hw hl hb hkeep.1 hkeep.2
  | updated hi hm =>
    rw [KeepsLinks, hi] at hkeep
    exact h.updated hl (hb.updated _ hi hm) hkeep
  | revived hi _ hm =>
    rw [h.live _ (hw.lookup label _ hi)] at hm
    cases hm

theorem Attached.call {c : Choices} {op : Op V} (h : s.Attached) (hw : s.WellFormed)
    (hback : s.Backed) (hg : Granted s c op) (hkeep : KeepsInbound P s op) (hs' : afterOp P c op s = some s') :
    s'.Attached := by
  have hempty : s.deletedElements = ∅ := by
    refine Finset.eq_empty_of_forall_notMem fun i hi => ?_
    obtain ⟨hlt, hm⟩ := hw.mem_deleted hi
    cases (h.live i hlt).symm.trans hm
  rcases afterOp_effects hw hback hg hs' with ⟨rfl, -⟩ | ⟨⟨r, t, he, hl⟩, hb⟩
  · exact h
  · cases he with
    | addPointLevel hst => exact h.stored hw hst hl hb hkeep
    | addPoint _ hst => exact h.stored hw hst hl (hb hempty) hkeep
    | replaced _ hne => exact absurd hempty hne.ne_empty
    | _ => exact hkeep.elim

private theorem Reachable.attached (h : Reachable P (fun s op _ => KeepsInbound P s op) s) : s.Attached := by
  induction h with
  | built _ _ _ _ _ _ _ hs =>
    cases hs
    exact ⟨fun i hi => absurd hi (Nat.not_lt_zero i), fun _ i _ hi => absurd hi.1 (Nat.not_lt_zero i),
      fun hmany => absurd hmany (Nat.not_lt_zero 1)⟩
  | call hr hcall hs' ih =>
    exact ih.call (Reachable.wellFormed hr) (Reachable.backed hr) hcall.2 hcall.1 hs'

/-- In every run of `addPoint` calls that drop no last link, the integrity check succeeds and every
element of an index with more than one has an inbound link. -/
theorem reachable_inbound (h : Reachable P (fun s op _ => KeepsInbound P s op) s) :
    (∃ report, s.checkIntegrity = .ok report) ∧
    (1 < s.curElementCount → ∀ k, k < s.curElementCount →
      ∃ i l, i < s.curElementCount ∧ l ≤ s.level i ∧ k ∈ s.connections i l) := by
  have hall : 1 < s.curElementCount → ∀ k, k < s.curElementCount → s.HasInbound k := by
    intro hmany k hk
    obtain ⟨o, ho, hko⟩ := h.attached.linked hmany k hk
    exact ⟨o, 0, ⟨ho, Nat.zero_le _⟩, hko⟩
  refine ⟨(checkIntegrity_iff h.wellFormed.graph).mpr hall, fun hmany k hk => ?_⟩
  obtain ⟨i, l, hi, hki⟩ := hall hmany k hk
  exact ⟨i, l, hi.1, hi.2, hki⟩

/-- Six insertions and an update, each of which drops no last link. -/
theorem reachable_inbound_points : ∃ s : Index (ℤ × ℤ × ℤ), s.curElementCount = 6 ∧
    Reachable pointPlatform (fun s op _ => KeepsInbound pointPlatform s op) s ∧
    (∃ report, s.checkIntegrity = .ok report) ∧
    (1 < s.curElementCount → ∀ k, k < s.curElementCount →
      ∃ i l, i < s.curElementCount ∧ l ≤ s.level i ∧ k ∈ s.connections i l) := by
  have hrun : ∃ s, afterOpsWhile pointPlatform (fun s op _ => KeepsInbound pointPlatform s op)
      [(.addPoint (6, 1, 0) 0 false, plainChoices 0), (.addPoint (1, 2, 0) 1 false, plainChoices 0),
        (.addPoint (5, 1, 2) 2 false, plainChoices 0), (.addPoint (1, 6, 2) 3 false, plainChoices 0),
        (.addPoint (4, 5, 0) 4 false, plainChoices 0), (.addPoint (2, 3, 2) 5 false, plainChoices 0),
        (.addPoint (0, 5, 0) 1 false, plainChoices 0)] (emptyPoints false) = some s ∧
      s.curElementCount = 6 := Option.map_eq_some_iff.mp (by decide +kernel)
  obtain ⟨s, hs, hcount⟩ := hrun
  have hreach := (emptyPoints_reachable _ false).afterOpsWhile (by simp [plainChoices_allocates]) hs
  exact ⟨s, hcount, hreach, reachable_inbound hreach⟩

/-- The sixth of six points around the first: it selects the first as its only neighbour, whose
full list prefers the four nearer ones. Nothing links to it, and the check fails. -/
theorem addPoint_leaves_unlinked : ∃ s : Index (ℤ × ℤ × ℤ),
    Reachable pointPlatform (fun _ op _ => ∃ x label, op = .addPoint x label false) s ∧ s.M = 2 ∧
    s.curElementCount = 6 ∧ s.checkIntegrity = .error .assertion ∧
    ∀ i l, i < s.curElementCount → l ≤ s.level i → 5 ∉ s.connections i l := by
  have hrun : ∃ s, afterOps pointPlatform
      [(.addPoint (0, 0, 0) 0 false, plainChoices 0), (.addPoint (1, 0, 0) 1 false, plainChoices 0),
        (.addPoint (-1, 0, 0) 2 false, plainChoices 0), (.addPoint (0, 1, 0) 3 false, plainChoices 0),
        (.addPoint (0, -1, 0) 4 false, plainChoices 0),
        (.addPoint (0, 0, 2) 5 false, plainChoices 0)] (emptyPoints false) = some s ∧
      (s.M, s.curElementCount, s.checkIntegrity,
        decide (5 ∈ s.allLists.flatMap fun p => s.connections p.1 p.2)) =
          (2, 6, .error .assertion, false) := Option.map_eq_some_iff.mp (by decide +kernel)
  obtain ⟨s, hs, hstate⟩ := hrun
  simp only [Prod.mk.injEq, decide_eq_false_iff_not, ← hasInbound_iff] at hstate
  obtain ⟨hM, hcount, hcheck, hnone⟩ := hstate
  refine ⟨s, ?_, hM, hcount, hcheck, fun i l hi hl hmem => hnone ⟨i, l, ⟨hi, hl⟩, hmem⟩⟩
  exact (emptyPoints_reachable _ false).afterOps (by simp [plainChoices_allocates]) hs

end HnswRvv.Index
