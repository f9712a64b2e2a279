import Mathlib

/-!
# Steepest descent

A walk on a graph that moves to the nearest link of a node as long as this brings it nearer; of
several nearest links it takes the first. The walk is deterministic, so it has at most one end.
On a graph with several levels, the end of the walk on one level is the start on the next.
-/

namespace HnswRvv.Framework

variable {N D : Type} [LinearOrder D] {dist : N → D}

/-- `b` is the first of the nearest nodes in a list. -/
inductive FirstNearest (dist : N → D) : List N → N → Prop
  | head {b : N} {l : List N} : (∀ c ∈ l, dist b ≤ dist c) → FirstNearest dist (b :: l) b
  | tail {a b : N} {l : List N} : dist b < dist a → FirstNearest dist l b →
      FirstNearest dist (a :: l) b

namespace FirstNearest

theorem mem {l : List N} {b : N} (h : FirstNearest dist l b) : b ∈ l := by
  induction h with
  | head _ => exact List.mem_cons_self
  | tail _ _ ih => exact List.mem_cons_of_mem _ ih

theorem unique {l : List N} {b c : N} (hb : FirstNearest dist l b) (hc : FirstNearest dist l c) :
    b = c := by
  induction hb with
  | head hle =>
    cases hc with
    | head _ => rfl
    | tail hlt hc => exact absurd hlt (not_lt.mpr (hle c hc.mem))
  | tail hlt hb ih =>
    cases hc with
    | head hle => exact absurd hlt (not_lt.mpr (hle _ hb.mem))
    | tail _ hc => exact ih hc

end FirstNearest

def Improves (links : N → List N) (dist : N → D) (a b : N) : Prop :=
  dist b < dist a ∧ FirstNearest dist (links a) b

/-- The walk from `a` ends at `b`. -/
structure SteepestEnd (links : N → List N) (dist : N → D) (a b : N) : Prop where
  walk : Relation.ReflTransGen (Improves links dist) a b
  least : ∀ c ∈ links b, dist b ≤ dist c

theorem dist_le_of_walk {links : N → List N} {a b : N}
    (h : Relation.ReflTransGen (Improves links dist) a b) : dist b ≤ dist a := by
  induction h with
  | refl => exact le_rfl
  | tail _ hmove ih => exact le_trans (le_of_lt hmove.1) ih

theorem SteepestEnd.eq_of_walk {links : N → List N} {a b c : N} (hb : SteepestEnd links dist a b)
    (hwalk : Relation.ReflTransGen (Improves links dist) b c) : b = c := by
  rcases Relation.ReflTransGen.cases_head hwalk with heq | ⟨d, hmove, -⟩
  · exact heq
  · exact absurd hmove.1 (not_lt.mpr (hb.least d hmove.2.mem))

theorem SteepestEnd.unique {links : N → List N} {a b c : N} (hb : SteepestEnd links dist a b)
    (hc : SteepestEnd links dist a c) : b = c := by
  have hmoves : Relator.RightUnique (Improves links dist) :=
    fun _ _ _ hmove hmove' => hmove.2.unique hmove'.2
  rcases Relation.ReflTransGen.total_of_right_unique hmoves hb.walk hc.walk with hwalk | hwalk
  · exact hb.eq_of_walk hwalk
  · exact (hc.eq_of_walk hwalk).symm

/-- A walk on several levels, one after the other. -/
inductive LevelDescent (links : Nat → N → List N) (dist : N → D) : List Nat → N → N → Prop
  | done (a : N) : LevelDescent links dist [] a a
  | level {l : Nat} {rest : List Nat} {a b c : N} : SteepestEnd (links l) dist a b →
      LevelDescent links dist rest b c → LevelDescent links dist (l :: rest) a c

theorem LevelDescent.unique {links : Nat → N → List N} {levels : List Nat} {a b c : N}
    (hb : LevelDescent links dist levels a b) (hc : LevelDescent links dist levels a c) : b = c := by
  induction hb with
  | done a =>
    cases hc with
    | done => rfl
  | level hend _ ih =>
    cases hc with
    | level hend' hrest =>
      obtain rfl := hend.unique hend'
      exact ih hrest

end HnswRvv.Framework
