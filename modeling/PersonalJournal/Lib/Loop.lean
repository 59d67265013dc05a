import Mathlib.Logic.Relation

namespace PersonalJournal.Loop

inductive Turn (σ α : Type) where
  | again (next : σ)
  | leave (result : α)

variable {σ α : Type} {body : σ → Turn σ α}

-- Fuel counts turns. `none` says only that the loop has not left yet.
def run (body : σ → Turn σ α) : Nat → σ → Option α
  | 0,_ => none
  | fuel+1,s => match body s with
    | .again next => run body fuel next
    | .leave result => some result

inductive Leaves (body : σ → Turn σ α) : σ → α → Prop where
  | leave : body s = .leave result → Leaves body s result
  | again : body s = .again next → Leaves body next result → Leaves body s result

def Reaches (body : σ → Turn σ α) : σ → σ → Prop :=
  Relation.ReflTransGen (fun s next => body s = .again next)

theorem run_leaves (left : run body fuel s = some result) : Leaves body s result := by
  induction fuel generalizing s with
  | zero => simp [run] at left
  | succ fuel ih =>
      unfold run at left
      split at left
      · rename_i next turn
        exact .again turn (ih left)
      · rename_i other turn
        cases Option.some.inj left
        exact .leave turn

theorem leaves_run (leaves : Leaves body s result) : ∃ fuel, run body fuel s = some result := by
  induction leaves with
  | leave turn => exact ⟨1,by simp [run,turn]⟩
  | again turn _ ih =>
      obtain ⟨fuel,left⟩ := ih
      exact ⟨fuel+1,by simp [run,turn,left]⟩

theorem run_mono (left : run body fuel s = some result) (enough : fuel ≤ more) :
    run body more s = some result := by
  induction fuel generalizing s more with
  | zero => simp [run] at left
  | succ fuel ih =>
      obtain ⟨more,rfl⟩ := Nat.exists_eq_add_of_le' enough
      rw [show more + (fuel+1) = (more+fuel)+1 by omega]
      unfold run at left ⊢
      split at left
      · rename_i next turn
        simpa [turn] using ih left (Nat.le_add_left _ _)
      · rename_i other turn
        simpa [turn] using left

theorem leaves_unique (one : Leaves body s a) (two : Leaves body s b) : a = b := by
  obtain ⟨n,left⟩ := leaves_run one
  obtain ⟨m,right⟩ := leaves_run two
  have left := run_mono left (Nat.le_max_left n m)
  have right := run_mono right (Nat.le_max_right n m)
  exact Option.some.inj (left.symm.trans right)

theorem Reaches.refl (s : σ) : Reaches body s s := Relation.ReflTransGen.refl

theorem Reaches.step (turn : body s = .again next) (rest : Reaches body next final) :
    Reaches body s final := Relation.ReflTransGen.head turn rest

theorem Reaches.leaves (path : Reaches body s next) (leaves : Leaves body next result) :
    Leaves body s result := by
  induction path using Relation.ReflTransGen.head_induction_on with
  | refl => exact leaves
  | head turn _ ih => exact .again turn ih

-- Whatever the loop has come to, it goes on to the same end.
theorem Leaves.rest (leaves : Leaves body s result) (path : Reaches body s t) : Leaves body t result := by
  induction path with
  | refl => exact leaves
  | tail _ turn ih =>
      cases ih with
      | leave left => cases turn.symm.trans left
      | again other later =>
          cases turn.symm.trans other
          exact later

-- A measure that every turn lowers is enough fuel.
theorem run_total (measure : σ → Nat)
    (lower : ∀ s next, body s = .again next → measure next < measure s)
    (enough : measure s < fuel) : ∃ result, run body fuel s = some result := by
  induction fuel generalizing s with
  | zero => omega
  | succ fuel ih =>
      unfold run
      split
      · rename_i next turn
        have smaller := lower s next turn
        exact ih (by omega)
      · exact ⟨_,rfl⟩

-- What a computation with fuel comes to: never anything else, and with enough fuel this.
structure Settles (f : Nat → Option α) (result : α) : Prop where
  only : ∀ fuel other, f fuel = some other → other = result
  enough : ∃ n, ∀ fuel, n ≤ fuel → f fuel = some result

theorem Settles.unique {f : Nat → Option α} {a b : α} (one : Settles f a) (two : Settles f b) : a = b := by
  obtain ⟨n,enough⟩ := one.enough
  exact two.only n a (enough n (Nat.le_refl n))

theorem Leaves.settles (leaves : Leaves body s result) : Settles (fun fuel => run body fuel s) result := by
  refine ⟨?_,?_⟩
  · intro fuel other left
    exact leaves_unique (run_leaves left) leaves
  · obtain ⟨n,left⟩ := leaves_run leaves
    exact ⟨n,fun fuel more => run_mono left more⟩

theorem Settles.bind {β : Type} {f : Nat → Option α} {g : Nat → α → Option β} {a : α} {b : β} (one : Settles f a)
    (two : Settles (fun fuel => g fuel a) b) : Settles (fun fuel => (f fuel).bind (g fuel)) b := by
  refine ⟨?_,?_⟩
  · intro fuel other came
    obtain ⟨middle,first,second⟩ := Option.bind_eq_some_iff.mp came
    cases one.only fuel middle first
    exact two.only fuel other second
  · obtain ⟨n,first⟩ := one.enough
    obtain ⟨m,second⟩ := two.enough
    refine ⟨max n m,fun fuel more => ?_⟩
    have early := first fuel (Nat.le_trans (Nat.le_max_left n m) more)
    have late := second fuel (Nat.le_trans (Nat.le_max_right n m) more)
    simp only [early,Option.bind_some,late]

theorem Settles.map {β : Type} {f : Nat → Option α} {a : α} (one : Settles f a) (g : α → β) :
    Settles (fun fuel => (f fuel).map g) (g a) := by
  refine ⟨?_,?_⟩
  · intro fuel other came
    obtain ⟨middle,first,rfl⟩ := Option.map_eq_some_iff.mp came
    rw [one.only fuel middle first]
  · obtain ⟨n,first⟩ := one.enough
    exact ⟨n,fun fuel more => by rw [first fuel more]; rfl⟩

theorem Settles.done (a : α) : Settles (fun _ => some a) a :=
  ⟨fun _ _ same => (Option.some.inj same).symm,0,fun _ _ => rfl⟩

def Turn.map {τ β : Type} (f : σ → τ) (g : α → β) : Turn σ α → Turn τ β
  | .again next => .again (f next)
  | .leave result => .leave (g result)

-- A loop that does the same turns on other states.
theorem run_map {τ β : Type} {body' : τ → Turn τ β} {f : σ → τ} {g : α → β} (turns : ∀ s, body' (f s) = (body s).map f g)
    (fuel : Nat) (s : σ) : run body' fuel (f s) = (run body fuel s).map g := by
  induction fuel generalizing s with
  | zero => rfl
  | succ fuel ih =>
      simp only [run,turns s]
      cases body s with
      | again next => exact ih next
      | leave result => rfl

-- The same loop with something carried along, that each turn hands on or fails to.
def carryTurn {τ : Type} (body : σ → Turn σ α) (onward : σ → σ → τ → Option τ) (s : σ × τ) : Turn (σ × τ) (Option (α × τ)) :=
  match body s.1 with
  | .leave result => .leave (some (result,s.2))
  | .again next => match onward s.1 next s.2 with
    | none => .leave none
    | some t => .again (next,t)

-- An invariant of what is carried, under which it can always be handed on.
theorem run_carry {τ : Type} {onward : σ → σ → τ → Option τ} (I : τ → Prop)
    (keeps : ∀ s next t, body s = .again next → I t → ∃ t', onward s next t = some t' ∧ I t') {t : τ} (start : I t)
    (fuel : Nat) (s : σ) :
    ∃ t', I t' ∧ run (carryTurn body onward) fuel (s,t) = (run body fuel s).map (fun result => some (result,t')) := by
  induction fuel generalizing s t with
  | zero => exact ⟨t,start,rfl⟩
  | succ fuel ih =>
      cases turn : body s with
      | leave result =>
          refine ⟨t,start,?_⟩
          simp only [run,carryTurn,turn,Option.map_some]
      | again next =>
          obtain ⟨middle,handed,kept⟩ := keeps s next t turn start
          obtain ⟨t',held,ran⟩ := ih kept next
          refine ⟨t',held,?_⟩
          simp only [run,carryTurn,turn,handed]
          exact ran

end PersonalJournal.Loop
