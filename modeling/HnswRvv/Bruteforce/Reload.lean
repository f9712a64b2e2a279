import HnswRvv.Bruteforce.FiniteMap
import HnswRvv.Index.Storage

/-!
# A brute-force index after a reload

`saveIndex` writes the whole block, unused records included, and no dictionary. `loadIndex` reads
the block back and leaves the dictionary of the object as it is: a fresh object knows none of the
saved labels. It learns one again only when a removal moves the record of that label.
-/

namespace HnswRvv

open Framework

namespace BruteforceSearch

variable {V D : Type} [Inhabited V] [LinearOrder D] {dataSize : Nat} {P : BruteforcePlatform V D}
  {s s' t t' o : BruteforceSearch V}

def recordBytes (C : VectorBytes V dataSize) (e : BruteforceRecord V) : List Byte :=
  C.encode e.data ++ leBytes 8 e.label

def blockBytes (C : VectorBytes V dataSize) (s : BruteforceSearch V) : List Byte :=
  (s.data.slice s.maxElements).flatMap (recordBytes C)

def saveIndex (C : VectorBytes V dataSize) (s : BruteforceSearch V) : List Byte :=
  leBytes 8 s.maxElements ++ (leBytes 8 (dataSize + 8) ++ (leBytes 8 s.curElementCount ++
    s.blockBytes C))

def recordOfBytes (C : VectorBytes V dataSize) (block : List Byte) (i : Nat) :
    BruteforceRecord V where
  data := C.decode (fieldAt block (i * (dataSize + 8)) dataSize)
  label := leValue (fieldAt block (i * (dataSize + 8) + dataSize) 8)

/-- The counts and the block of the object replaced. -/
def withBlock (C : VectorBytes V dataSize) (maxElements curElementCount : Nat) (block : List Byte)
    (s : BruteforceSearch V) : BruteforceSearch V :=
  { s with
    data := ⟨(List.range maxElements).map (recordOfBytes C block)⟩
    maxElements := maxElements
    curElementCount := curElementCount }

/-- `block` holds the bytes of the new allocation; `size_per_element_` is read and then computed
anew. -/
def loadIndex (C : VectorBytes V dataSize) (contents : List Byte) (block : Option (List Byte))
    (s : BruteforceSearch V) : Except BruteforceFailure (BruteforceSearch V) :=
  let (maxElements, input) := (InStream.opened contents).readField 8 s.maxElements
  let (_, input) := input.readField 8 0
  let (curElementCount, input) := input.readField 8 s.curElementCount
  match block with
  | none => .error (.thrown .loadIndexData)
  | some block =>
    let (found, _) := input.read (maxElements * (dataSize + 8) % 2 ^ 64)
    .ok (s.withBlock C maxElements curElementCount (found ++ block.drop found.length))

/-- The size of the block fits a `size_t`, and so do the labels in it. -/
structure Fits (s : BruteforceSearch V) (dataSize : Nat) : Prop where
  block : s.maxElements * (dataSize + 8) < 2 ^ 64
  label : ∀ i, i < s.maxElements → (s.data.read i).label < 2 ^ 64

omit [Inhabited V] in
theorem length_recordBytes (C : VectorBytes V dataSize) (e : BruteforceRecord V) :
    (recordBytes C e).length = dataSize + 8 := by
  rw [recordBytes, List.length_append, C.length_encode, length_leBytes]

private theorem length_blockBytes (C : VectorBytes V dataSize) (s : BruteforceSearch V) :
    (s.blockBytes C).length = s.maxElements * (dataSize + 8) := by
  rw [blockBytes, length_records (length_recordBytes C), Memory.length_slice]

private theorem recordOfBytes_blockBytes (C : VectorBytes V dataSize) (h : s.Fits dataSize) {i : Nat}
    (hi : i < s.maxElements) (rest : List Byte) :
    recordOfBytes C (s.blockBytes C ++ rest) i = s.data.read i := by
  have hle : i * (dataSize + 8) ≤ (s.blockBytes C).length := by
    rw [length_blockBytes]
    exact Nat.mul_le_mul_right _ hi.le
  obtain ⟨post, hpost⟩ := drop_records (l := s.data.slice s.maxElements) (i := i)
    (length_recordBytes C) (by rw [Memory.length_slice]; exact hi)
  have hdrop : (s.blockBytes C ++ rest).drop (i * (dataSize + 8)) =
      C.encode (s.data.read i).data ++ (leBytes 8 (s.data.read i).label ++ (post ++ rest)) := by
    rw [List.drop_append_of_le_length hle, blockBytes, hpost]
    simp [recordBytes, Memory.slice]
  have hdata : fieldAt (s.blockBytes C ++ rest) (i * (dataSize + 8)) dataSize =
      C.encode (s.data.read i).data := by
    rw [← Nat.add_zero (i * _), ← fieldAt_drop, hdrop]
    exact fieldAt_append [] rfl (C.length_encode _)
  have hlabel : fieldAt (s.blockBytes C ++ rest) (i * (dataSize + 8) + dataSize) 8 =
      leBytes 8 (s.data.read i).label := by
    rw [← fieldAt_drop, hdrop]
    exact fieldAt_append _ (C.length_encode _) (length_leBytes 8 _)
  rw [recordOfBytes, hdata, hlabel, C.decode_encode, leValue_leBytes (h.label i hi)]

theorem loadIndex_saveIndex (C : VectorBytes V dataSize) (h : s.Fits dataSize)
    (hcount : s.curElementCount ≤ s.maxElements) (block : List Byte) (o : BruteforceSearch V) :
    ∃ t, loadIndex C (s.saveIndex C) (some block) o = .ok t ∧
      t.maxElements = s.maxElements ∧ t.curElementCount = s.curElementCount ∧
      t.dictExternalToInternal = o.dictExternalToInternal ∧
      ∀ i, i < s.maxElements → t.data.read i = s.data.read i := by
  have hblock := h.block
  have hmax : s.maxElements < 2 ^ 64 := by nlinarith
  obtain ⟨h1, hin1, -⟩ := (InStream.at_opened (s.saveIndex C)).readField hmax o.maxElements
  have hin2 := (hin1.read (length_leBytes 8 (dataSize + 8))).2.1
  obtain ⟨h3, hin3, -⟩ := hin2.readField (by omega) o.curElementCount
  rw [← List.append_nil (s.blockBytes C)] at hin3
  obtain ⟨h4, -, -⟩ := hin3.read (length_blockBytes C s)
  rw [← Nat.mod_eq_of_lt hblock] at h4
  refine ⟨o.withBlock C s.maxElements s.curElementCount
    (s.blockBytes C ++ block.drop (s.blockBytes C).length), ?_, rfl, rfl, rfl, fun i hi => ?_⟩
  · have hskip : ∀ input : InStream, (input.readField 8 0).2 = (input.read 8).2 := fun _ => rfl
    simp only [loadIndex, hskip, h1, h3, h4]
  · exact (Memory.read_range _ hi).trans (recordOfBytes_blockBytes C h hi _)

inductive Request (V : Type) where
  | update (c : Update V)
  | searchKnn (queryData : V) (k : Nat) (isIdAllowed : Option (LabelType → Bool))

/-- A request with its answer, which an update does not have. -/
def Request.run (P : BruteforcePlatform V D) : Request V → BruteforceM V (Option P.answers.Carrier)
  | .update c => do
    c.run
    return none
  | .searchKnn queryData k isIdAllowed => do
    match BruteforceSearch.searchKnn P (← get) queryData k isIdAllowed with
    | .ok topResults => return some topResults
    | .error e => throw e

/-- The same element counts, the same failures and the same answers; a program that goes on after
an exception sees the same again. -/
def SameBehaviour (P : BruteforcePlatform V D) :
    BruteforceSearch V → BruteforceSearch V → List (Request V) → Prop
  | s, t, [] => s.curElementCount = t.curElementCount
  | s, t, r :: rs => s.curElementCount = t.curElementCount ∧
    match r.run P s, r.run P t with
    | .ok a s', .ok b t' => a = b ∧ SameBehaviour P s' t' rs
    | .error e s', .error e' t' => e = e' ∧ (e.isThrown = true → SameBehaviour P s' t' rs)
    | _, _ => False

def Request.label : Request V → Option LabelType
  | .update (.addPoint _ label) => some label
  | .update (.removePoint label) => some label
  | .searchKnn _ _ _ => none

/-- The labels that a reloaded index does not know, after a request: a removal teaches it the label
of the record that is moved. -/
def unknownAfter (s : BruteforceSearch V) (unknown : Set LabelType) : Request V → Set LabelType
  | .update (.removePoint label) =>
    if s.dictExternalToInternal label = none then unknown
    else unknown \ {(s.data.read (s.curElementCount - 1)).label}
  | _ => unknown

/-- No update of a run is about a label that the reloaded index does not know. -/
def AvoidsUnknown (P : BruteforcePlatform V D) :
    Set LabelType → BruteforceSearch V → List (Request V) → Prop
  | _, _, [] => True
  | unknown, s, r :: rs => (∀ label ∈ r.label, label ∉ unknown) ∧
    ∀ s', ((∃ a, r.run P s = .ok a s') ∨ ∃ e, r.run P s = .error (.thrown e) s') →
      AvoidsUnknown P (s.unknownAfter unknown r) s' rs

/-- The states that additions make out of an empty index. -/
inductive Added : BruteforceSearch V → Prop
  | built (maxElements : Nat) (block : Memory (BruteforceRecord V)) : Added (built maxElements block)
  | add {s s' : BruteforceSearch V} {x : V} {label : LabelType} :
      Added s → s.Leads (.addPoint x label) s' → Added s'

/-- Every entry of the dictionary is a slot of the block. -/
structure SlotsInBlock (s : BruteforceSearch V) : Prop where
  bounded : s.Bounded
  slot : ∀ label i, s.dictExternalToInternal label = some i → i < s.maxElements ∧ i < 2 ^ 31

/-- `t` is `s` without the entries of some labels. -/
structure LacksEntries (unknown : Set LabelType) (s t : BruteforceSearch V) : Prop where
  maxElements : t.maxElements = s.maxElements
  count : t.curElementCount = s.curElementCount
  data : ∀ i, i < s.maxElements → t.data.read i = s.data.read i
  known : ∀ label, label ∉ unknown →
    t.dictExternalToInternal label = s.dictExternalToInternal label
  missing : ∀ label ∈ unknown,
    s.dictExternalToInternal label ≠ none ∧ t.dictExternalToInternal label = none

theorem SameBehaviour.count {rs : List (Request V)} (h : SameBehaviour P s t rs) :
    s.curElementCount = t.curElementCount := by
  cases rs with
  | nil => exact h
  | cons r rs => exact h.1

private theorem searchKnn_congr (hcount : t.curElementCount = s.curElementCount)
    (hdata : ∀ i, i < s.curElementCount → t.data.read i = s.data.read i) (q : V) (k : Nat)
    (isIdAllowed : Option (LabelType → Bool)) :
    searchKnn P t q k isIdAllowed = searchKnn P s q k isIdAllowed := by
  unfold searchKnn
  rw [hcount]
  by_cases hk : s.curElementCount < k
  · rw [if_pos hk, if_pos hk]
  · have hemplace : ∀ top, ∀ i ∈ List.range k, emplaceAllowed P t q isIdAllowed top i =
        emplaceAllowed P s q isIdAllowed top i := by
      intro top i hi
      rw [emplaceAllowed, pairAt, hdata i (by have := List.mem_range.mp hi; omega)]
      rfl
    have hscan : ∀ acc, ∀ i ∈ List.range' k (s.curElementCount - k),
        scanSlot P t q k isIdAllowed acc i = scanSlot P s q k isIdAllowed acc i := by
      intro acc i hi
      have hi' := List.mem_range'_1.mp hi
      rw [scanSlot, emplaceAllowed, pairAt, hdata i (by omega)]
      rfl
    rw [List.foldl_ext _ _ _ hemplace]
    dsimp only
    rw [List.foldl_ext _ _ _ hscan]

/-- Two calls that end alike: both return, both throw, or both end the program. -/
inductive Together {α : Type} (R : BruteforceSearch V → BruteforceSearch V → Prop) :
    EStateM.Result BruteforceFailure (BruteforceSearch V) α →
    EStateM.Result BruteforceFailure (BruteforceSearch V) α → Prop
  | ok {a : α} {s t : BruteforceSearch V} : R s t → Together R (.ok a s) (.ok a t)
  | thrown {e : BruteforceExn} {s t : BruteforceSearch V} :
      R s t → Together R (.error (.thrown e) s) (.error (.thrown e) t)
  | fault {e : BruteforceFailure} {s t : BruteforceSearch V} :
      e.isThrown = false → Together R (.error e s) (.error e t)

def Abreast (unknown : Set LabelType) (s t : BruteforceSearch V) : Prop :=
  LacksEntries unknown s t ∧ s.SlotsInBlock

variable {unknown : Set LabelType} {x : V} {label : LabelType}

private theorem LacksEntries.together_addPoint (h : LacksEntries unknown s t) (hs : s.SlotsInBlock)
    (hl : label ∉ unknown) :
    Together (Abreast unknown) (addPoint x label s) (addPoint x label t) := by
  obtain ⟨hmax, hint⟩ := hs.bounded
  have hd := h.known label hl
  cases hslot : s.dictExternalToInternal label with
  | some slot =>
    obtain ⟨hlt, hlt32⟩ := hs.slot label slot hslot
    rw [hslot] at hd
    rw [addPoint_update hslot hlt hlt32, addPoint_update hd (by rw [h.maxElements]; exact hlt) hlt32]
    refine .ok ⟨⟨h.maxElements, h.count, fun i hi => ?_, h.known, h.missing⟩, hs.bounded, hs.slot⟩
    simp only [Memory.read_write, h.data i hi]
  | none =>
    rw [hslot] at hd
    rcases Nat.lt_or_ge s.curElementCount s.maxElements with hroom | hfull
    · have hroom' : t.curElementCount < t.maxElements := by rw [h.count, h.maxElements]; exact hroom
      rcases Nat.lt_or_ge s.curElementCount (2 ^ 31) with hlt | hge
      · rw [addPoint_new hslot hroom hlt, addPoint_new hd hroom' (by rw [h.count]; exact hlt)]
        refine .ok ⟨⟨h.maxElements, congrArg (· + 1) h.count, fun i hi => ?_, fun l hlu => ?_,
          fun l hlu => ?_⟩, ⟨hroom, hlt⟩, fun l i hi => ?_⟩
        · simp only [Memory.read_write, h.data i hi, h.count]
        · simp only [setEntry, Function.update_apply, h.known l hlu, h.count]
        · have hne : l ≠ label := fun he => hl (he ▸ hlu)
          simpa [setEntry, hne] using h.missing l hlu
        · by_cases hne : l = label
          · obtain rfl : s.curElementCount = i := by simpa [setEntry, hne] using hi
            exact ⟨hroom, hlt⟩
          · exact hs.slot l i (by simpa [setEntry, hne] using hi)
      · obtain ⟨s₁, h₁⟩ := addPoint_overflow (x := x) hslot hroom (by omega)
        obtain ⟨t₁, h₂⟩ := addPoint_overflow (x := x) hd hroom' (by rw [h.count]; omega)
        rw [h₁, h₂]
        exact .fault rfl
    · rw [addPoint_full hslot hfull, addPoint_full hd (by rw [h.count, h.maxElements]; exact hfull)]
      exact .thrown ⟨h, hs⟩

private theorem LacksEntries.together_removePoint (h : LacksEntries unknown s t) (hs : s.SlotsInBlock)
    (hl : label ∉ unknown) :
    Together (Abreast (s.unknownAfter unknown (.update (.removePoint label))))
      (removePoint label s) (removePoint label t) := by
  obtain ⟨hmax, hint⟩ := hs.bounded
  have hd := h.known label hl
  cases hslot : s.dictExternalToInternal label with
  | none =>
    rw [hslot] at hd
    rw [removePoint_absent hslot, removePoint_absent hd, unknownAfter, if_pos hslot]
    exact .ok ⟨h, hs⟩
  | some slot =>
    obtain ⟨hlt, hlt32⟩ := hs.slot label slot hslot
    rw [hslot] at hd
    rw [unknownAfter, if_neg (by simp [hslot])]
    rcases Nat.eq_zero_or_pos s.curElementCount with hzero | hpos
    · rw [removePoint_empty hslot hzero, removePoint_empty hd (h.count.trans hzero)]
      exact .fault rfl
    · have hlast := h.data (s.curElementCount - 1) (by omega)
      rw [removePoint_present hslot hpos hmax hlt, removePoint_present hd (by rw [h.count]; exact hpos)
        (by rw [h.count, h.maxElements]; exact hmax) (by rw [h.maxElements]; exact hlt), h.count, hlast]
      generalize (s.data.read (s.curElementCount - 1)).label = moved
      refine .ok ⟨⟨h.maxElements, rfl, fun i hi => ?_, fun l hlu => ?_, fun l hlu => ?_⟩,
        ⟨(Nat.sub_le _ 1).trans hmax, (Nat.sub_le _ 1).trans hint⟩, fun l i hi => ?_⟩
      · simp only [Memory.read_write, h.data i hi]
      · by_cases hm : l = moved
        · simp [setEntry, hm]
        · have hlu' : l ∉ unknown := fun hmem => hlu ⟨hmem, hm⟩
          simp [setEntry, eraseEntry, Function.update_apply, hm, h.known l hlu']
      · have hm : l ≠ moved := hlu.2
        have hne : l ≠ label := fun he => hl (he ▸ hlu.1)
        simpa [setEntry, eraseEntry, hm, hne] using h.missing l hlu.1
      · by_cases hm : l = moved
        · obtain rfl : slot = i := by simpa [setEntry, hm] using hi
          exact ⟨hlt, hlt32⟩
        · have hne : l ≠ label := by
            rintro rfl
            simp [setEntry, eraseEntry, hm] at hi
          exact hs.slot l i (by simpa [setEntry, eraseEntry, hm, hne] using hi)

theorem Together.request {R : BruteforceSearch V → BruteforceSearch V → Prop} {c : Update V}
    (h : Together R (c.run s) (c.run t)) :
    Together R ((Request.update c).run P s) ((Request.update c).run P t) := by
  simp only [Request.run, bind, EStateM.bind]
  generalize c.run s = res at h ⊢
  generalize c.run t = res' at h ⊢
  cases h with
  | ok h => exact .ok h
  | thrown h => exact .thrown h
  | fault h => exact .fault h

theorem Abreast.request (h : Abreast unknown s t) (r : Request V)
    (hl : ∀ label ∈ r.label, label ∉ unknown) :
    Together (Abreast (s.unknownAfter unknown r)) (r.run P s) (r.run P t) := by
  obtain ⟨hlacks, hs⟩ := h
  match r with
  | .update (.addPoint x label) => exact Together.request (hlacks.together_addPoint hs (hl label rfl))
  | .update (.removePoint label) => exact Together.request (hlacks.together_removePoint hs (hl label rfl))
  | .searchKnn q k isIdAllowed =>
    have hdata : ∀ i, i < s.curElementCount → t.data.read i = s.data.read i := fun i hi =>
      hlacks.data i (hi.trans_le hs.bounded.1)
    have hrun : ∀ u : BruteforceSearch V, (Request.searchKnn q k isIdAllowed).run P u =
        match searchKnn P u q k isIdAllowed with
        | .ok topResults => .ok (some topResults) u
        | .error e => .error e u := by
      intro u
      simp only [Request.run, bind, EStateM.bind, get, getThe, MonadStateOf.get, EStateM.get]
      cases searchKnn P u q k isIdAllowed <;> rfl
    have hnot : ∀ e, searchKnn P s q k isIdAllowed = .error e → e.isThrown = false := by
      intro e he
      unfold searchKnn at he
      split_ifs at he <;> cases he <;> rfl
    rw [hrun, hrun, searchKnn_congr hlacks.count hdata]
    cases hres : searchKnn P s q k isIdAllowed with
    | ok topResults => exact .ok ⟨hlacks, hs⟩
    | error e => exact .fault (hnot e hres)

/-- An addition of an unknown label is an update in one object and an insertion in the other. -/
theorem LacksEntries.addPoint_unknown (h : LacksEntries unknown s t) (hs : s.SlotsInBlock)
    (hl : label ∈ unknown) :
    (∃ s', addPoint x label s = .ok () s' ∧ s'.curElementCount = s.curElementCount) ∧
      ∀ t', addPoint x label t = .ok () t' → t'.curElementCount = s.curElementCount + 1 := by
  obtain ⟨hmax, hint⟩ := hs.bounded
  obtain ⟨hsome, hnone⟩ := h.missing label hl
  obtain ⟨slot, hslot⟩ := Option.ne_none_iff_exists'.mp hsome
  obtain ⟨hlt, hlt32⟩ := hs.slot label slot hslot
  refine ⟨⟨_, addPoint_update hslot hlt hlt32, rfl⟩, fun t' ht' => ?_⟩
  rcases Nat.lt_or_ge t.curElementCount t.maxElements with hroom | hfull
  · rcases Nat.lt_or_ge t.curElementCount (2 ^ 31) with hlt' | hge
    · rw [addPoint_new hnone hroom hlt'] at ht'
      rw [← (EStateM.Result.ok.inj ht').2, ← h.count]
    · obtain ⟨u, hu⟩ := addPoint_overflow (x := x) hnone hroom (by rw [h.count] at *; omega)
      exact absurd (hu.symm.trans ht') (by simp)
  · exact absurd ((addPoint_full hnone hfull).symm.trans ht') (by simp)

private theorem LacksEntries.removePoint_unknown (h : LacksEntries unknown s t) (hs : s.SlotsInBlock)
    (hl : label ∈ unknown) :
    removePoint label t = .ok () t ∧
      ∀ s', removePoint label s = .ok () s' → s'.curElementCount + 1 = s.curElementCount := by
  obtain ⟨hmax, -⟩ := hs.bounded
  obtain ⟨hsome, hnone⟩ := h.missing label hl
  obtain ⟨slot, hslot⟩ := Option.ne_none_iff_exists'.mp hsome
  obtain ⟨hlt, -⟩ := hs.slot label slot hslot
  refine ⟨removePoint_absent hnone, fun s' hs' => ?_⟩
  rcases Nat.eq_zero_or_pos s.curElementCount with hzero | hpos
  · exact absurd ((removePoint_empty hslot hzero).symm.trans hs') (by simp)
  · rw [removePoint_present hslot hpos hmax hlt] at hs'
    rw [← (EStateM.Result.ok.inj hs').2]
    exact Nat.sub_add_cancel hpos

theorem Abreast.differ (h : Abreast unknown s t) {r : Request V} {rs : List (Request V)}
    (hr : label ∈ r.label) (hl : label ∈ unknown) : ¬ SameBehaviour P s t (r :: rs) := by
  obtain ⟨hlacks, hs⟩ := h
  rintro ⟨-, hsame⟩
  match r with
  | .update (.addPoint x l) =>
    obtain rfl : l = label := Option.some_inj.mp hr
    obtain ⟨⟨s', hs', hcount⟩, ht⟩ := hlacks.addPoint_unknown (x := x) hs hl
    simp only [Request.run, Update.run, bind, EStateM.bind, hs'] at hsame
    cases hrun : addPoint x l t with
    | ok u t' =>
      rw [hrun] at hsame
      have := hsame.2.count
      have := ht t' hrun
      omega
    | error e t' =>
      rw [hrun] at hsame
      exact hsame
  | .update (.removePoint l) =>
    obtain rfl : l = label := Option.some_inj.mp hr
    obtain ⟨ht', hrem⟩ := hlacks.removePoint_unknown hs hl
    simp only [Request.run, Update.run, bind, EStateM.bind, ht'] at hsame
    cases hrun : removePoint l s with
    | ok u s' =>
      rw [hrun] at hsame
      have := hsame.2.count
      have := hrem s' hrun
      have := hlacks.count
      omega
    | error e s' =>
      rw [hrun] at hsame
      exact hsame

private theorem Abreast.sameBehaviour_iff (h : Abreast unknown s t) (rs : List (Request V)) :
    SameBehaviour P s t rs ↔ AvoidsUnknown P unknown s rs := by
  induction rs generalizing unknown s t with
  | nil => exact iff_of_true h.1.count.symm trivial
  | cons r rs ih =>
    by_cases hl : ∀ label ∈ r.label, label ∉ unknown
    · have hcount := h.1.count.symm
      have ht := h.request (P := P) r hl
      rw [SameBehaviour, AvoidsUnknown, and_iff_right hcount, and_iff_right hl]
      generalize s.unknownAfter unknown r = unknown' at ht ⊢
      generalize r.run P s = res at ht ⊢
      generalize r.run P t = res' at ht ⊢
      cases ht with
      | ok h' => simp [ih h']
      | thrown h' => simp [BruteforceFailure.isThrown, ih h']
      | fault hf => cases ‹BruteforceFailure› <;> simp_all [BruteforceFailure.isThrown]
    · push Not at hl
      obtain ⟨label, hr, hmem⟩ := hl
      exact iff_of_false (h.differ hr hmem) fun ha => ha.1 label hr hmem

private theorem Added.slotsInBlock (h : Added s) : s.SlotsInBlock := by
  induction h with
  | built maxElements block => exact ⟨bounded_built maxElements block, nofun⟩
  | @add s s' x label _ hlead ih =>
    -- an addition keeps an object in step with itself
    have hself : LacksEntries ∅ s s := ⟨rfl, rfl, fun _ _ => rfl, fun _ _ => rfl, nofun⟩
    have ht : Together (Abreast ∅) (addPoint x label s) (addPoint x label s) :=
      hself.together_addPoint ih (Set.notMem_empty _)
    rcases hlead with hrun | ⟨e, hrun⟩
    · rw [show addPoint x label s = .ok () s' from hrun] at ht
      cases ht with
      | ok h => exact h.2
    · rw [show addPoint x label s = .error (.thrown e) s' from hrun] at ht
      cases ht with
      | thrown h => exact h.2
      | fault h => exact absurd h (by simp [BruteforceFailure.isThrown])

private theorem loadIndex_abreast (hs : Added s) (hfits : s.Fits dataSize) (C : VectorBytes V dataSize)
    (block : List Byte) (ho : o.dictExternalToInternal = fun _ => none) :
    ∃ t, loadIndex C (s.saveIndex C) (some block) o = .ok t ∧
      Abreast {label | s.dictExternalToInternal label ≠ none} s t := by
  have hin := hs.slotsInBlock
  obtain ⟨t, hload, hmax, hcount, hdict, hdata⟩ :=
    loadIndex_saveIndex C hfits hin.bounded.1 block o
  rw [ho] at hdict
  refine ⟨t, hload, ⟨hmax, hcount, hdata, fun label hl => ?_, fun label hl => ⟨hl, ?_⟩⟩, hin⟩
  · rw [hdict]
    exact (not_not.mp hl).symm
  · rw [hdict]

/-- An index made by additions, saved and loaded into an object without entries: the two behave
alike in exactly those continuations whose updates leave alone the saved labels that no removal
has moved. -/
theorem loadIndex_sameBehaviour_iff (hs : Added s) (hfits : s.Fits dataSize)
    (C : VectorBytes V dataSize) (block : List Byte)
    (ho : o.dictExternalToInternal = fun _ => none) :
    ∃ t, loadIndex C (s.saveIndex C) (some block) o = .ok t ∧
      ∀ (P : BruteforcePlatform V D) (rs : List (Request V)), SameBehaviour P s t rs ↔
        AvoidsUnknown P {label | s.dictExternalToInternal label ≠ none} s rs := by
  obtain ⟨t, hload, hab⟩ := loadIndex_abreast hs hfits C block ho
  exact ⟨t, hload, fun P rs => hab.sameBehaviour_iff rs⟩

/-- Squared differences of single bytes, with answers kept as lists. -/
def byteScan : BruteforcePlatform Byte ℤ where
  fstdistfunc a b := ((a.toNat : ℤ) - b.toNat) ^ 2
  maxDist := 1000000
  answers := listQueue LexLess lexLess_asymm not_lexLess_trans

/-- Room for two vectors, and label 1 with vector 7. -/
def oneByteStored : BruteforceSearch Byte where
  data := ⟨[⟨7, 1⟩]⟩
  maxElements := 2
  curElementCount := 1
  dictExternalToInternal := Function.update (fun _ => none) 1 (some 0)

private theorem oneByteStored_added : Added oneByteStored :=
  @Added.add Byte _ (built 2 default) _ 7 1 (.built 2 default) (.inl rfl)

private theorem oneByteStored_fits : oneByteStored.Fits 1 where
  block := by decide
  label := by decide

/-- A second label, and a query. -/
theorem loadIndex_sameBehaviour_new_label :
    ∃ t, loadIndex singleByte (oneByteStored.saveIndex singleByte) (some []) (built 0 default) =
        .ok t ∧
      SameBehaviour byteScan oneByteStored t [.update (.addPoint 8 2), .searchKnn 7 2 none] := by
  obtain ⟨t, hload, hiff⟩ := loadIndex_sameBehaviour_iff (D := ℤ) (o := built 0 default)
    oneByteStored_added oneByteStored_fits singleByte [] rfl
  refine ⟨t, hload, (hiff byteScan _).mpr ⟨?_, fun s _ => ⟨?_, fun _ _ => trivial⟩⟩⟩
  · rintro label hl
    obtain rfl : 2 = label := Option.some_inj.mp hl
    exact fun h => h rfl
  · rintro label hl
    exact absurd hl (by simp [Request.label])

/-- The saved label cannot be removed from the loaded index. -/
theorem loadIndex_removePoint_saved :
    ∃ s' t, removePoint 1 oneByteStored = .ok () s' ∧ s'.curElementCount = 0 ∧
      loadIndex singleByte (oneByteStored.saveIndex singleByte) (some []) (built 0 default) = .ok t ∧
      removePoint 1 t = .ok () t ∧ t.curElementCount = 1 ∧
      ¬ SameBehaviour byteScan oneByteStored t [.update (.removePoint 1)] := by
  obtain ⟨t, hload, hab⟩ := loadIndex_abreast (o := built 0 default) oneByteStored_added
    oneByteStored_fits singleByte [] rfl
  have hunknown : 1 ∈ {label | oneByteStored.dictExternalToInternal label ≠ none} := by decide
  refine ⟨_, t, rfl, rfl, hload, removePoint_absent (hab.1.missing 1 hunknown).2, hab.1.count, ?_⟩
  exact hab.differ rfl hunknown

end BruteforceSearch

end HnswRvv
