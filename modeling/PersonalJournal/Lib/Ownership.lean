import Mathlib.Data.List.Basic

namespace PersonalJournal.Ownership

variable {α : Type} {holds : α → Prop} {l : List α} {owner : Option Nat} {i j : Nat} {a b : α}

-- Among the threads of the list exactly the owner's number holds the resource.
structure Owner (holds : α → Prop) (l : List α) (owner : Option Nat) : Prop where
  only : ∀ (i : Nat) a, l[i]? = some a → (holds a ↔ owner = some i)
  inside : ∀ i : Nat, owner = some i → i < l.length

theorem Owner.unique (one : Owner holds l owner) (here : l[i]? = some a) (there : l[j]? = some b)
    (first : holds a) (second : holds b) : i = j := by
  have i' := (one.only i a here).mp first
  have j' := (one.only j b there).mp second
  exact Option.some.inj (i'.symm.trans j')

theorem Owner.keep (one : Owner holds l owner) (here : l[i]? = some a) (same : holds b ↔ holds a) :
    Owner holds (l.set i b) owner := by
  refine ⟨?_,fun j is => by simpa using one.inside j is⟩
  intro j c there
  by_cases equal : i = j
  · subst equal
    obtain ⟨near,_⟩ := List.getElem?_eq_some_iff.mp here
    rw [List.getElem?_set_self near] at there
    cases there
    exact same.trans (one.only i a here)
  · rw [List.getElem?_set_ne equal] at there
    exact one.only j c there

theorem Owner.acquire (one : Owner holds l none) (here : l[i]? = some a) (now : holds b) :
    Owner holds (l.set i b) (some i) := by
  obtain ⟨near,_⟩ := List.getElem?_eq_some_iff.mp here
  refine ⟨?_,fun j is => by cases is; simpa using near⟩
  intro j c there
  by_cases equal : i = j
  · subst equal
    rw [List.getElem?_set_self near] at there
    cases there
    exact iff_of_true now rfl
  · rw [List.getElem?_set_ne equal] at there
    refine iff_of_false (fun held => ?_) (fun is => equal (Option.some.inj is))
    cases (one.only j c there).mp held

theorem Owner.release (one : Owner holds l (some i)) (gone : ¬ holds b) : Owner holds (l.set i b) none := by
  refine ⟨?_,fun j is => by cases is⟩
  intro j c there
  by_cases equal : i = j
  · subst equal
    rw [List.getElem?_set_self (one.inside i rfl)] at there
    cases there
    exact iff_of_false gone (fun is => by cases is)
  · rw [List.getElem?_set_ne equal] at there
    refine iff_of_false (fun held => ?_) (fun is => by cases is)
    exact equal (Option.some.inj ((one.only j c there).mp held))

theorem Owner.join (one : Owner holds l owner) (without : ¬ holds b) : Owner holds (l ++ [b]) owner := by
  refine ⟨?_,fun j is => ?_⟩
  · intro j c there
    by_cases near : j < l.length
    · rw [List.getElem?_append_left near] at there
      exact one.only j c there
    · rw [List.getElem?_append_right (Nat.le_of_not_lt near)] at there
      have last := List.mem_of_getElem? there
      rw [List.mem_singleton] at last
      subst last
      exact iff_of_false without (fun is => near (one.inside j is))
  · have near := one.inside j is
    simp only [List.length_append]
    omega

end PersonalJournal.Ownership
