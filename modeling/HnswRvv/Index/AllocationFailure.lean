import HnswRvv.Index.Runs

/-!
# Calls that get no memory

Only `resizeIndex` touches the capacities of the per-element arrays; that holds for any state and
any call, so the capacities can be followed through a run without the rest of the invariant. An
insertion that gets no memory for its upper lists is the one call of `addPoint` that throws after it
has written.
-/

namespace HnswRvv.Index

open Framework OrderDual
set_option linter.unusedSectionVars false

variable {V D : Type} [Inhabited V] [LinearOrder D] {P : Platform V D} {s s' : Index V}
  {c : Choices}

/-- The capacities stay, and so does room for the elements. -/
structure SameRoom (s s' : Index V) : Prop where
  capacities : s'.capacities = s.capacities
  maxElements : s'.maxElements = s.maxElements
  layout : s'.layout = s.layout
  count : s.curElementCount ≤ s.maxElements → s'.curElementCount ≤ s'.maxElements

theorem sameRoom_setLinklistAtLevel (s : Index V) (i : TableInt) (l : Nat) (ll : LinkList) :
    SameRoom s (s.setLinklistAtLevel i l ll) := by
  unfold setLinklistAtLevel
  split <;> exact ⟨rfl, rfl, rfl, id⟩

theorem writeClosed_sameRoom : WriteClosed (SameRoom (V := V)) where
  refl _ := ⟨rfl, rfl, rfl, id⟩
  trans _ _ _ h h' := ⟨h'.capacities.trans h.capacities, h'.maxElements.trans h.maxElements,
    h'.layout.trans h.layout, h'.count ∘ h.count⟩
  links := sameRoom_setLinklistAtLevel
  data _ _ _ := ⟨rfl, rfl, rfl, id⟩
  mark s i := by
    have h := sameRoom_setLinklistAtLevel s i 0 (s.getLinklistAtLevel i 0).setMark
    exact ⟨h.capacities, h.maxElements, h.layout, h.count⟩
  unmark s i := by
    have h := sameRoom_setLinklistAtLevel s i 0 (s.getLinklistAtLevel i 0).clearMark
    exact ⟨h.capacities, h.maxElements, h.layout, h.count⟩
  relabel _ _ _ := ⟨rfl, rfl, rfl, id⟩
  entry _ _ _ := ⟨rfl, rfl, rfl, id⟩

private theorem keeps_runOp (op : Op V) (hop : ∀ n, op ≠ .resizeIndex n) : Keeps SameRoom (runOp P c op) := by
  intro s
  have hroom : ∀ x curlevel, Inserts s c op x curlevel → s.curElementCount < s.maxElements := by
    intro x curlevel hins
    cases hins <;> assumption
  refine writeClosed_sameRoom.runOp hop (fun x label curlevel hins => ?_)
    fun _ x label curlevel hins => ⟨rfl, rfl, rfl, fun _ => hroom x curlevel hins⟩
  rw [withNewElement_fields]
  exact ⟨rfl, rfl, rfl, fun _ => hroom x curlevel hins⟩

/-- Room for `n` elements in every array. -/
structure Capacities.Cover (k : Capacities) (n : Nat) : Prop where
  visitedList : n ≤ k.visitedList
  elementLevels : n ≤ k.elementLevels
  linkListLocks : n ≤ k.linkListLocks
  dataLevel0Memory : n ≤ k.dataLevel0Memory
  linkLists : n ≤ k.linkLists

/-- A call that returns has given every array the new capacity; one that throws has left room for
`max_elements_` in every array. The elements are not touched either way. -/
def AllOrNothing (s : Index V) (c : Choices) (n : Nat) : Prop :=
  (∀ u s', resizeIndex c n s = .ok u s' →
    s' = { s with maxElements := n, capacities := ⟨n, n, n, n, n⟩ }) ∧
  ∀ e s', resizeIndex c n s = .error e s' → s' = { s with capacities := s'.capacities } ∧
    s'.curElementCount ≤ s'.capacities.dataLevel0Memory ∧
    s'.curElementCount ≤ s'.capacities.linkLists ∧ Capacities.Cover s'.capacities s'.maxElements

/-- Visited lists can be `n` long, and the size of a level-0 block for `n` elements does not wrap. -/
def Addresses (s : Index V) (n : Nat) : Prop :=
  n < 2 ^ 32 ∧ n * s.layout.sizeDataPerElement < 2 ^ 64

/-- Where a resizing fails, what it has replaced by then is long enough for the old capacity, and
the block it could not replace is still there. -/
def ShrinksNothing (s : Index V) (c : Choices) (n : Nat) : Prop :=
  s.maxElements ≤ visitedListLength n ∧
    if c.reallocLevel0 = true then
      s.maxElements ≤ blockLength s.layout.sizeDataPerElement n ∧
        (n * 8 % 2 ^ 64 = 0 → s.maxElements = 0)
    else n * s.layout.sizeDataPerElement % 2 ^ 64 = 0 → s.maxElements = 0

/-- The call is refused, or it gets both blocks and the new capacity can be addressed, or it gets
one block at most and has shrunk nothing. -/
def ResizeFits (s : Index V) (c : Choices) (n : Nat) : Prop :=
  s.curElementCount ≤ n →
    if c.reallocLevel0 = true ∧ c.reallocLinkLists = true then s.Addresses n
    else ShrinksNothing s c n

/-- Every `resizeIndex` of a run fits, and none asks for no bytes while `realloc` returns null: that
would release a block and keep its address. -/
def ResizesFit (s : Index V) (op : Op V) (c : Choices) : Prop :=
  ∀ n, op = .resizeIndex n → ResizeFits s c n ∧ (s.curElementCount ≤ n →
    (n * s.layout.sizeDataPerElement % 2 ^ 64 = 0 → c.reallocLevel0 = true) ∧
      (n * 8 % 2 ^ 64 = 0 → c.reallocLinkLists = true))

/-- There is room for the elements, and more. -/
structure RoomInv (s : Index V) : Prop where
  cover : Capacities.Cover s.capacities s.maxElements
  count : s.curElementCount ≤ s.maxElements
  size : 0 < s.layout.sizeDataPerElement

private theorem visitedListLength_le (n : Nat) : visitedListLength n ≤ n := Nat.mod_le _ _

theorem visitedListLength_eq_iff {n : Nat} : visitedListLength n = n ↔ n < 2 ^ 32 := by
  constructor
  · intro h
    rw [← h]
    exact Nat.mod_lt n (by decide)
  · exact Nat.mod_eq_of_lt

private theorem blockLength_eq {bytes n : Nat} (hbytes : 0 < bytes) (h : n * bytes < 2 ^ 64) :
    blockLength bytes n = n := by
  rw [blockLength, Nat.mod_eq_of_lt h, Nat.mul_div_cancel n hbytes]

private theorem lt_of_blockLength_eq {bytes n : Nat} (h : blockLength bytes n = n) : n * bytes < 2 ^ 64 := by
  have hle : n * bytes ≤ n * bytes % 2 ^ 64 := by
    nth_rewrite 1 [← h]
    exact Nat.div_mul_le_self _ _
  exact hle.trans_lt (Nat.mod_lt _ (by decide))

private theorem allocated_eq {size n : Nat} (hsize : 0 < size) (hlt : n < 2 ^ 32) (hbytes : n * size < 2 ^ 64) :
    Capacities.allocated size n = ⟨n, n, n, n, n⟩ := by
  rw [Capacities.allocated, visitedListLength_eq_iff.mpr hlt, blockLength_eq hsize hbytes,
    blockLength_eq (by decide) (by omega)]

theorem allocated_eq_iff {size n : Nat} (hsize : 0 < size) :
    Capacities.allocated size n = ⟨n, n, n, n, n⟩ ↔ n < 2 ^ 32 ∧ n * size < 2 ^ 64 := by
  constructor
  · intro h
    exact ⟨visitedListLength_eq_iff.mp (congrArg Capacities.visitedList h),
      lt_of_blockLength_eq (congrArg Capacities.dataLevel0Memory h)⟩
  · exact fun h => allocated_eq hsize h.1 h.2

private theorem le_unchanged {m k bytes : Nat} (hnone : bytes = 0 → m = 0) (hk : m ≤ k) :
    m ≤ if bytes = 0 then 0 else k := by
  split
  · next hzero => exact (hnone hzero).le
  · exact hk

private theorem RoomInv.allOrNothing (h : s.RoomInv) {n : Nat} (hfits : ResizeFits s c n) :
    AllOrNothing s c n := by
  obtain ⟨hok, herror⟩ := wp_def.mp (wp_resizeIndex s c n)
  constructor
  · intro u s' hrun
    obtain ⟨hle, hblocks, rfl⟩ := hok u s' hrun
    have haddr := hfits hle
    rw [if_pos hblocks] at haddr
    rw [allocated_eq h.size haddr.1 haddr.2]
  · intro e s' hrun
    have hdata := h.cover.dataLevel0Memory
    have hlists := h.cover.linkLists
    have hcount := h.count
    rcases herror e s' hrun with ⟨-, -, rfl⟩ | ⟨hle, hnull, -, rfl⟩ | ⟨hle, hnull, -, rfl⟩
    · exact ⟨rfl, hcount.trans hdata, hcount.trans hlists, h.cover⟩
    · have hshrink := hfits hle
      rw [if_neg (by simp [hnull]), ShrinksNothing, if_neg (by simp [hnull])] at hshrink
      have hn := hshrink.1.trans (visitedListLength_le n)
      have hold := le_unchanged hshrink.2 hdata
      exact ⟨rfl, hcount.trans hold, hcount.trans hlists, hshrink.1, hn, hn, hold, hlists⟩
    · have hshrink := hfits hle
      rw [if_neg (by simp [hnull]), ShrinksNothing, if_pos hnull.1] at hshrink
      have hn := hshrink.1.trans (visitedListLength_le n)
      have hold := le_unchanged hshrink.2.2 hlists
      exact ⟨rfl, hcount.trans hshrink.2.1, hcount.trans hold, hshrink.1, hn, hn, hshrink.2.1, hold⟩

private theorem eq_zero_of_le {m k bytes : Nat} (h : m ≤ if bytes = 0 then 0 else k) (hzero : bytes = 0) :
    m = 0 := by
  rw [if_pos hzero] at h
  exact Nat.le_zero.mp h

theorem AllOrNothing.fits (hsize : 0 < s.layout.sizeDataPerElement) {n : Nat}
    (h : AllOrNothing s c n) : ResizeFits s c n := by
  obtain ⟨hok, herror⟩ := wp_def.mp (wp_resizeIndex s c n)
  intro hle
  cases hrun : resizeIndex c n s with
  | ok u s' =>
    obtain ⟨-, hblocks, hs'⟩ := hok u s' hrun
    have hcaps : Capacities.allocated s.layout.sizeDataPerElement n = ⟨n, n, n, n, n⟩ :=
      congrArg (fun t : Index V => t.capacities) (hs'.symm.trans (h.1 u s' hrun))
    rw [if_pos hblocks]
    exact (allocated_eq_iff hsize).mp hcaps
  | error e s' =>
    have hcover := (h.2 e s' hrun).2.2.2
    rcases herror e s' hrun with ⟨hlt, -⟩ | ⟨-, hnull, -, rfl⟩ | ⟨-, hnull, -, rfl⟩
    · exact absurd hle (not_le.mpr hlt)
    · rw [if_neg (by simp [hnull]), ShrinksNothing, if_neg (by simp [hnull])]
      exact ⟨hcover.visitedList, eq_zero_of_le hcover.dataLevel0Memory⟩
    · rw [if_neg (by simp [hnull]), ShrinksNothing, if_pos hnull.1]
      exact ⟨hcover.visitedList, hcover.dataLevel0Memory, eq_zero_of_le hcover.linkLists⟩

theorem RoomInv.resizeIndex (h : s.RoomInv) {n : Nat} (hfits : ResizeFits s c n) :
    wp (resizeIndex c n) (fun _ s' => s'.RoomInv) (fun _ s' => s'.RoomInv) s := by
  obtain ⟨hok, herror⟩ := h.allOrNothing hfits
  refine wp_def.mpr ⟨fun u s' hrun => ?_, fun e s' hrun => ?_⟩
  · have hle := ((wp_def.mp (wp_resizeIndex s c n)).1 u s' hrun).1
    rw [hok u s' hrun]
    exact ⟨⟨le_rfl, le_rfl, le_rfl, le_rfl, le_rfl⟩, hle, h.size⟩
  · obtain ⟨hs', -, -, hcover⟩ := herror e s' hrun
    refine ⟨hcover, ?_, ?_⟩
    · rw [hs']
      exact h.count
    · rw [hs']
      exact h.size

private theorem Attempted.roomInv (h : Attempted P (fun s => s.Addresses s.maxElements) ResizesFit s) :
    s.RoomInv := by
  induction h with
  | built _ maxElements _ _ _ _ hstart hs =>
    cases hs
    have hsize : ∀ a b : Nat, 0 < a + b + 8 := by omega
    refine ⟨?_, Nat.zero_le _, hsize _ _⟩
    dsimp only
    rw [allocated_eq (hsize _ _) hstart.1 hstart.2]
    exact ⟨le_rfl, le_rfl, le_rfl, le_rfl, le_rfl⟩
  | @call s s' op c _ hmay hs' ih =>
    by_cases hop : ∃ n, op = .resizeIndex n
    · obtain ⟨n, rfl⟩ := hop
      refine of_afterOp ?_ hs'
      simp only [runOp, wp_bind]
      exact wp_mono (ih.resizeIndex (hmay n rfl).1) (fun _ _ h => h) fun _ _ h _ _ => h
    · have hroom := of_afterOp (wp_mono (keeps_runOp op (fun n hn => hop ⟨n, hn⟩) s)
        (fun _ _ h => h) fun _ _ h _ _ => h) hs'
      refine ⟨?_, hroom.count ih.count, ?_⟩
      · rw [hroom.capacities, hroom.maxElements]
        exact ih.cover
      · rw [hroom.layout]
        exact ih.size

/-- As long as every resizing gets its blocks, the arrays have the lengths that were asked for last. -/
theorem Reachable.capacities {may : Index V → Op V → Choices → Prop} (h : Reachable P may s) :
    s.capacities = .allocated s.layout.sizeDataPerElement s.maxElements := by
  induction h with
  | built _ _ _ _ _ _ _ hs =>
    cases hs
    rfl
  | @call s s' op c _ hcall hs' ih =>
    by_cases hop : ∃ n, op = .resizeIndex n
    · obtain ⟨n, rfl⟩ := hop
      obtain ⟨hlevel0, hlists⟩ := hcall.2.blocks n rfl
      refine of_afterOp (Q := fun s' => s'.capacities =
        .allocated s'.layout.sizeDataPerElement s'.maxElements) ?_ hs'
      simp only [runOp, wp_bind]
      refine wp_mono (wp_resizeIndex s c n) (fun _ _ h => ?_) fun _ _ h _ _ => ?_
      · obtain ⟨-, -, rfl⟩ := h
        rfl
      · rcases h with ⟨-, -, rfl⟩ | ⟨-, hnull, -⟩ | ⟨-, ⟨-, hnull⟩, -⟩
        · exact ih
        · cases hlevel0.symm.trans hnull
        · cases hlists.symm.trans hnull
    · have hroom := of_afterOp (wp_mono (keeps_runOp op (fun n hn => hop ⟨n, hn⟩) s)
        (fun _ _ h => h) fun _ _ h _ _ => h) hs'
      rw [hroom.capacities, hroom.maxElements, hroom.layout]
      exact ih

/-- In a run that starts with a capacity it can address and whose resizings fit, a call of
`resizeIndex` is all or nothing exactly if it fits. -/
theorem resizeIndex_allOrNothing_iff
    (h : Attempted P (fun s => s.Addresses s.maxElements) ResizesFit s) (c : Choices) (n : Nat) :
    AllOrNothing s c n ↔ ResizeFits s c n :=
  ⟨AllOrNothing.fits h.roomInv.size, h.roomInv.allOrNothing⟩

/-- `plainChoices` for a `realloc` of the level-0 block that fails. -/
def deniedBlockChoices : Choices := { plainChoices 0 with reallocLevel0 := false }

/-- Growing an index of four linked elements fails without harm. -/
theorem resizeIndex_allOrNothing_points : ∃ s : Index (ℤ × ℤ × ℤ),
    Attempted pointPlatform (fun s => s.Addresses s.maxElements) ResizesFit s ∧
    (s.curElementCount = 4 ∧ s.maxElements = 10 ∧ s.layout.sizeDataPerElement = 40) ∧
    AllOrNothing s deniedBlockChoices 20 := by
  obtain ⟨s, hreach, hcount, hmax, hsize⟩ := exists_sample (fun s => s.Addresses s.maxElements)
    ResizesFit
    (fun s => s.curElementCount = 4 ∧ s.maxElements = 10 ∧ s.layout.sizeDataPerElement = 40)
    ⟨by decide, by decide⟩ (by simp [sampleCalls, ResizesFit]) (by decide +kernel)
  refine ⟨s, hreach, ⟨hcount, hmax, hsize⟩,
    (resizeIndex_allOrNothing_iff hreach deniedBlockChoices 20).mpr fun _ => ?_⟩
  rw [if_neg (by decide), ShrinksNothing, hmax, hsize]
  decide

/-- Shrinking an empty index fails with `max_elements_` twice the length of three arrays. -/
theorem resizeIndex_shrink_denied : ∃ s' : Index (ℤ × ℤ × ℤ),
    Attempted pointPlatform (fun s => s.Addresses s.maxElements) ResizesFit (emptyPoints false) ∧
    resizeIndex deniedBlockChoices 5 (emptyPoints false) = .error (.thrown .resizeBaseLayer) s' ∧
    s'.maxElements = 10 ∧ s'.capacities.visitedList = 5 ∧ s'.capacities.elementLevels = 5 ∧
    s'.capacities.linkListLocks = 5 :=
  ⟨_, emptyPoints_attempted _ _ ⟨by decide, by decide⟩, rfl, rfl, rfl, rfl, rfl⟩

/-- `addPoint` in both its forms. -/
inductive Op.IsAddPoint : Op V → Prop
  | addPointLevel (x : V) (label : LabelType) (level : Int) :
      Op.IsAddPoint (.addPointLevel x label level)
  | addPoint (x : V) (label : LabelType) (replaceDeleted : Bool) :
      Op.IsAddPoint (.addPoint x label replaceDeleted)

/-- In a run in which no insertion is denied its upper lists, a call of `addPoint` that throws
leaves the index as it was, exactly if it is not denied them either. -/
theorem failedInsertion_unchanged_iff {start : Index V → Prop}
    (h : Attempted P start (fun s op c => ¬ListsDenied s c op) s) (c : Choices) (op : Op V)
    (hop : Op.IsAddPoint op) :
    (∀ e s', runOp P c op s = .error (.thrown e) s' → s' = s) ↔ ¬ListsDenied s c op := by
  constructor
  · intro hsame hdenied
    obtain ⟨hok, herror⟩ := wp_def.mp (wp_runOp_denied (P := P) hdenied)
    cases hrun : runOp P c op s with
    | ok r s' => exact hok r s' hrun
    | error e s' =>
      obtain ⟨rfl, hcount⟩ := herror e s' hrun
      rw [hsame _ s' hrun] at hcount
      exact absurd hcount (Nat.lt_succ_self _).ne
  · intro hgranted e s' hrun
    have hresize : ∀ n, op = .resizeIndex n →
        c.reallocLevel0 = true ∧ c.reallocLinkLists = true := by
      rintro n rfl
      cases hop
    obtain ⟨hw, hb⟩ := h.sound id
    rcases (wp_def.mp (wp_runOp (P := P) op hw hb ⟨hgranted, hresize⟩)).2 _ s' hrun with
      ⟨-, -, hs', -⟩ | ⟨he, -⟩
    · exact hs'
    · cases he

/-- A new label in a full index is refused before memory for its lists is asked for. -/
theorem failedInsertion_unchanged_points : ∃ s : Index (ℤ × ℤ × ℤ),
    Attempted pointPlatform (fun _ => True) (fun s op c => ¬ListsDenied s c op) s ∧
    (s.curElementCount = 4 ∧ s.maxElements = 4 ∧ s.connections 0 1 = [2, 3] ∧ s.numDeleted = 1) ∧
    ∀ e s', runOp pointPlatform deniedListChoices (.addPoint (2, 2, 0) 11 false) s =
      .error (.thrown e) s' → s' = s := by
  obtain ⟨s, hs, ⟨t, ht, hvalues⟩⟩ := exists_sample (fun _ => True)
    (fun s op c => ¬ListsDenied s c op)
    (fun s => ∃ t, afterOp pointPlatform (plainChoices 0) (.resizeIndex 4) s = some t ∧
      t.curElementCount = 4 ∧ t.maxElements = 4 ∧ t.connections 0 1 = [2, 3] ∧ t.numDeleted = 1)
    trivial (fun p hp t => (sampleCalls_granted p hp t).lists) (by decide +kernel)
  have ht' := hs.call (granted_of_allocates (plainChoices_allocates 0) _).lists ht
  refine ⟨t, ht', hvalues, (failedInsertion_unchanged_iff ht' deniedListChoices _
    (.addPoint _ _ _)).mpr ?_⟩
  rintro ⟨-, x, curlevel, hins, -⟩
  cases hins with
  | addPoint _ _ hroom => exact absurd hroom (by rw [hvalues.1, hvalues.2.1]; exact lt_irrefl 4)

/-- The first insertion, at level 1 and without memory for its list, throws and is counted. -/
theorem failedInsertion_denied : ∃ s' : Index (ℤ × ℤ × ℤ),
    Attempted pointPlatform (fun _ => True) (fun s op c => ¬ListsDenied s c op)
      (emptyPoints false) ∧
    runOp pointPlatform deniedListChoices (.addPoint (0, 0, 0) 7 false) (emptyPoints false) =
      .error (.thrown .addPointLinklist) s' ∧
    s'.curElementCount = 1 ∧ s'.labelLookup 7 = some 0 ∧ s'.level 0 = 1 ∧
    (emptyPoints false).curElementCount = 0 ∧ (emptyPoints false).labelLookup 7 = none :=
  ⟨_, emptyPoints_attempted _ _ trivial, rfl, rfl, rfl, rfl, rfl, rfl⟩

end HnswRvv.Index
