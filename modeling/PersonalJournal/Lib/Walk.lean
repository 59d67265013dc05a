import Mathlib.Logic.Relation
import Mathlib.Data.Set.Finite.Basic
import Mathlib.Data.Fintype.Pigeonhole

namespace PersonalJournal.Walk
open Relation

variable {α : Type}

-- A walk along a partial function: it ends where there is nothing next.
inductive Ends (next : α → Option α) : α → Prop where
  | stop : next i = none → Ends next i
  | step : next i = some j → Ends next j → Ends next i

def Step (next : α → Option α) (i j : α) : Prop := next i = some j

def Circles (next : α → Option α) (i : α) : Prop := ∃ j, ReflTransGen (Step next) i j ∧ TransGen (Step next) j j

variable {next : α → Option α} {i j : α}

theorem Circles.tail (circles : Circles next i) (step : next i = some j) : Circles next j := by
  obtain ⟨k,path,cycle⟩ := circles
  have onward : ∀ {m}, TransGen (Step next) i m → ReflTransGen (Step next) j m := by
    intro m walk
    obtain ⟨first,here,rest⟩ := TransGen.head'_iff.mp walk
    cases Option.some.inj (step.symm.trans here)
    exact rest
  rcases ReflTransGen.cases_head path with rfl | ⟨first,here,rest⟩
  · exact ⟨i,onward cycle,cycle⟩
  · exact ⟨k,onward (TransGen.head' here rest),cycle⟩

theorem Circles.mono {next' : α → Option α} (along : ∀ i j, next i = some j → next' i = some j) (circles : Circles next i) :
    Circles next' i := by
  obtain ⟨k,path,cycle⟩ := circles
  exact ⟨k,ReflTransGen.mono along _ _ path,TransGen.mono along _ _ cycle⟩

theorem Ends.acyclic (ends : Ends next i) : ¬ Circles next i := by
  induction ends with
  | @stop i last =>
      have stuck : ∀ m, ¬ TransGen (Step next) i m := by
        intro m walk
        obtain ⟨first,here,_⟩ := TransGen.head'_iff.mp walk
        cases last.symm.trans here
      intro ⟨k,path,cycle⟩
      rcases ReflTransGen.cases_head path with rfl | ⟨first,here,_⟩
      · exact stuck _ cycle
      · cases last.symm.trans here
  | step step _ ih => exact fun circles => ih (circles.tail step)

theorem never_next (never : ¬ Ends next i) : ∃ j, next i = some j ∧ ¬ Ends next j := by
  cases step : next i with
  | none => exact absurd (.stop step) never
  | some j => exact ⟨j,rfl,fun ends => never (.step step ends)⟩

theorem segment (f : Nat → α) (steps : ∀ k, Step next (f k) (f (k+1))) (a d : Nat) :
    ReflTransGen (Step next) (f a) (f (a+d)) := by
  induction d with
  | zero => exact .refl
  | succ d ih => exact ih.tail (steps (a+d))

theorem circles_of_repeat (f : Nat → α) (steps : ∀ k, Step next (f k) (f (k+1))) (same : f a = f b) (before : a < b) :
    Circles next (f 0) := by
  obtain ⟨d,rfl⟩ := Nat.exists_eq_add_of_lt before
  have cycle := TransGen.tail' (segment f steps a d) (steps (a+d))
  have start := segment f steps 0 a
  rw [Nat.zero_add] at start
  exact ⟨f a,start,by rwa [← same] at cycle⟩

-- On finitely many points a walk that never ends comes back somewhere.
theorem ends_acyclic (finite : {i | (next i).isSome = true}.Finite) (i : α) : Ends next i ↔ ¬ Circles next i := by
  constructor
  · exact Ends.acyclic
  · intro acyclic
    by_contra never
    choose onward step stays using fun j : {j // ¬ Ends next j} => never_next j.2
    let f : Nat → {j // ¬ Ends next j} := fun k => Nat.rec ⟨i,never⟩ (fun _ j => ⟨onward j,stays j⟩) k
    have steps : ∀ k, Step next (f k).1 (f (k+1)).1 := fun k => step (f k)
    have := finite.to_subtype
    obtain ⟨a,b,apart,same⟩ := Finite.exists_ne_map_eq_of_infinite
      (fun k => (⟨(f k).1,Option.isSome_iff_exists.mpr ⟨_,steps k⟩⟩ : {i | (next i).isSome = true}))
    have meet : (f a).1 = (f b).1 := Subtype.mk.inj same
    apply acyclic
    rcases Nat.lt_or_gt_of_ne apart with before | after
    · exact circles_of_repeat (fun k => (f k).1) steps meet before
    · exact circles_of_repeat (fun k => (f k).1) steps meet.symm after

end PersonalJournal.Walk
