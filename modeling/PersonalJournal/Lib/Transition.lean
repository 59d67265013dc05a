import Mathlib.Logic.Basic

namespace PersonalJournal.Transition

variable {σ α : Type} {step : σ → α → Option σ} {I : σ → Prop} {P Q : σ → α → σ → Prop}

-- A finite run of a labelled machine.
inductive Sequence (step : σ → α → Option σ) : σ → List α → σ → Prop where
  | nil : Sequence step s [] s
  | cons : step s action = some middle → Sequence step middle rest next → Sequence step s (action :: rest) next

inductive Along (step : σ → α → Option σ) (P : σ → α → σ → Prop) : σ → List α → σ → Prop where
  | nil : Along step P s [] s
  | cons : step s action = some middle → P s action middle → Along step P middle rest next →
      Along step P s (action :: rest) next

def run (step : σ → α → Option σ) : σ → List α → Option σ
  | s,[] => some s
  | s,action :: rest => (step s action).bind (run step · rest)

theorem run_exact : run step s actions = some next ↔ Sequence step s actions next := by
  induction actions generalizing s with
  | nil =>
      constructor
      · intro equal
        cases Option.some.inj equal
        exact .nil
      · intro path
        cases path
        rfl
  | cons action rest ih =>
      constructor
      · intro ran
        cases taken : step s action with
        | none => simp [run,taken] at ran
        | some middle => exact .cons taken (ih.mp (by simpa [run,taken] using ran))
      · intro path
        cases path with
        | cons taken later => simpa [run,taken] using ih.mpr later

theorem run_reaches (ran : (run step s actions).isSome) : ∃ next, Sequence step s actions next := by
  obtain ⟨next,ran⟩ := Option.isSome_iff_exists.mp ran
  exact ⟨next,run_exact.mp ran⟩

theorem Sequence.unique (one : Sequence step s actions a) (two : Sequence step s actions b) : a = b :=
  Option.some.inj ((run_exact.mpr one).symm.trans (run_exact.mpr two))

theorem Sequence.tested (path : Sequence step s actions next) (test : σ → Bool)
    (passed : (run step s actions).all test = true) : test next = true := by
  rw [run_exact.mpr path] at passed
  exact passed

theorem Sequence.append (one : Sequence step s before middle) (two : Sequence step middle after next) :
    Sequence step s (before ++ after) next := by
  induction one with
  | nil => exact two
  | cons taken _ ih => exact .cons taken (ih two)

theorem Sequence.single (taken : step s action = some next) : Sequence step s [action] next := .cons taken .nil

theorem Along.sequence (along : Along step P s actions next) : Sequence step s actions next := by
  induction along with
  | nil => exact .nil
  | cons taken _ _ ih => exact .cons taken ih

-- The last step of a run, and the run up to it.
theorem Along.last (along : Along step P s (before ++ [action]) next) :
    ∃ middle, Sequence step s before middle ∧ step middle action = some next ∧ P middle action next := by
  induction before generalizing s with
  | nil =>
      cases along with
      | cons taken holds rest =>
          cases rest
          exact ⟨s,.nil,taken,holds⟩
  | cons first before ih =>
      cases along with
      | cons taken _ rest =>
          obtain ⟨middle,path,last,holds⟩ := ih rest
          exact ⟨middle,.cons taken path,last,holds⟩

theorem Sequence.preserves (kept : ∀ s action next, I s → step s action = some next → I next)
    (path : Sequence step s actions next) (start : I s) : I next := by
  induction path with
  | nil => exact start
  | cons taken _ ih => exact ih (kept _ _ _ start taken)

theorem Sequence.preserves_within {A : α → Prop}
    (kept : ∀ s action next, A action → I s → step s action = some next → I next)
    (path : Sequence step s actions next) (kind : ∀ action ∈ actions, A action) (start : I s) : I next := by
  induction path with
  | nil => exact start
  | cons taken _ ih =>
      obtain ⟨first,later⟩ := List.forall_mem_cons.mp kind
      exact ih later (kept _ _ _ first start taken)

theorem Sequence.along (kept : ∀ s action next, I s → step s action = some next → I next)
    (each : ∀ s action next, I s → step s action = some next → P s action next)
    (path : Sequence step s actions next) (start : I s) : Along step P s actions next := by
  induction path with
  | nil => exact .nil
  | cons taken _ ih => exact .cons taken (each _ _ _ start taken) (ih (kept _ _ _ start taken))

-- The invariant may rest on P too.
theorem Along.imp (kept : ∀ s action next, I s → step s action = some next → P s action next → I next)
    (each : ∀ s action next, I s → step s action = some next → P s action next → Q s action next)
    (along : Along step P s actions next) (start : I s) : Along step Q s actions next := by
  induction along with
  | nil => exact .nil
  | cons taken holds _ ih => exact .cons taken (each _ _ _ start taken holds) (ih (kept _ _ _ start taken holds))

-- What is kept may be about the actions taken so far.
theorem Sequence.recorded {I : List α → σ → Prop}
    (kept : ∀ before s action next, I before s → step s action = some next → I (before ++ [action]) next)
    (path : Sequence step s actions next) (start : I before s) : I (before ++ actions) next := by
  induction path generalizing before with
  | nil => rwa [List.append_nil]
  | cons taken _ ih =>
      have later := ih (kept _ _ _ _ start taken)
      rwa [List.append_assoc] at later

-- No action is possible any more.
def Quiet (step : σ → α → Option σ) (s : σ) : Prop := ∀ action, step s action = none

theorem bounded_quiet (bounded : ∀ actions next, Sequence step s actions next → actions.length ≤ n) :
    ∃ actions next, Sequence step s actions next ∧ Quiet step next := by
  induction n generalizing s with
  | zero =>
      refine ⟨[],s,.nil,fun action => ?_⟩
      cases taken : step s action with
      | none => rfl
      | some next => exact absurd (bounded [action] next (.single taken)) (Nat.not_succ_le_zero 0)
  | succ n ih =>
      by_cases quiet : Quiet step s
      · exact ⟨[],s,.nil,quiet⟩
      · obtain ⟨action,possible⟩ := Classical.not_forall.mp quiet
        obtain ⟨middle,taken⟩ := Option.ne_none_iff_exists'.mp possible
        obtain ⟨rest,next,path,still⟩ := ih (fun rest next path =>
          Nat.le_of_succ_le_succ (bounded (action :: rest) next (.cons taken path)))
        exact ⟨action :: rest,next,.cons taken path,still⟩

-- A machine whose steps show as steps of another one, or do not show.
theorem Along.shows {τ β : Type} {step' : τ → β → Option τ} {R : σ → τ → Prop} {t : τ} (view : α → Option β)
    (hidden : ∀ s action next t, R s t → step s action = some next → P s action next → view action = none → R next t)
    (shown : ∀ s action next t seen, R s t → step s action = some next → P s action next → view action = some seen →
      ∃ t', step' t seen = some t' ∧ R next t')
    (along : Along step P s actions next) (start : R s t) :
    ∃ t', Sequence step' t (actions.filterMap view) t' ∧ R next t' := by
  induction along generalizing t with
  | nil => exact ⟨t,.nil,start⟩
  | @cons s action middle rest next taken holds _ ih =>
      cases seen : view action with
      | none =>
          obtain ⟨t',path,related⟩ := ih (hidden _ _ _ _ start taken holds seen)
          rw [List.filterMap_cons_none seen]
          exact ⟨t',path,related⟩
      | some b =>
          obtain ⟨middle',taken',between⟩ := shown _ _ _ _ _ start taken holds seen
          obtain ⟨t',path,related⟩ := ih between
          rw [List.filterMap_cons_some seen]
          exact ⟨t',.cons taken' path,related⟩

theorem Sequence.checked (check : σ → α → Bool) (each : ∀ s action next, check s action = true → P s action next)
    (path : Sequence (fun s action => if check s action then step s action else none) s actions next) :
    Along step P s actions next := by
  induction path with
  | nil => exact .nil
  | cons taken _ ih =>
      split at taken
      · rename_i passed
        exact .cons taken (each _ _ _ passed) ih
      · cases taken

end PersonalJournal.Transition
