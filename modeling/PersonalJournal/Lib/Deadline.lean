import PersonalJournal.Lib.Loop

namespace PersonalJournal.Deadline
open Loop

-- Why a wait ends.
inductive Wake where
  | ready
  | interrupted
  | expired
  | refused
  deriving DecidableEq

-- What a wait depends on, tick by tick.
structure Clock where
  ready : Nat → Bool
  signal : Nat → Bool
  refuses : Nat → Bool

-- A wait of so many ticks, and how many of them are left. What is ready is noticed before a signal.
def wait (ready signal : Nat → Bool) : Nat → Nat → Wake × Nat
  | 0,now => (if ready now then .ready else .expired,0)
  | left+1,now =>
    if ready now then (.ready,left+1)
    else if signal (now+1) ∧ ¬ ready (now+1) then (.interrupted,left)
    else wait ready signal left (now+1)

def Clock.sleep (c : Clock) (left now : Nat) : Wake × Nat :=
  if c.refuses now then (.refused,left) else wait c.ready c.signal left now

-- An interrupted wait is begun again, for what is left of it or for the whole time.
def waitTurn (c : Clock) (resumed : Bool) (s : Nat × Nat) : Turn (Nat × Nat) (Wake × Nat) :=
  match c.sleep s.2 s.1 with
  | (.interrupted,left) => .again (s.1+(s.2-left),if resumed then left else s.2)
  | (wake,left) => .leave (wake,s.1+(s.2-left))

def Still (ready : Nat → Bool) (start stop : Nat) : Prop := ∀ u, start ≤ u → u < stop → ready u = false

def Quiet (signal : Nat → Bool) (start stop : Nat) : Prop := ∀ u, start < u → u ≤ stop → signal u = false

-- What a wait comes to after the ticks that it spends.
inductive Wakes (ready signal : Nat → Bool) (left now : Nat) : Wake → Nat → Prop where
  | ready : spent ≤ left → ready (now+spent) = true → Still ready now (now+spent) → Wakes ready signal left now .ready spent
  | interrupted : 0 < spent → spent ≤ left → signal (now+spent) = true → Still ready now (now+spent+1) →
      Wakes ready signal left now .interrupted spent
  | expired : Still ready now (now+left+1) → Quiet signal now (now+left) → Wakes ready signal left now .expired left

theorem Still.earlier (still : Still ready (now+1) stop) (first : ready now = false) : Still ready now stop := by
  intro u after before
  rcases Nat.eq_or_lt_of_le after with rfl | later
  · exact first
  · exact still u later before

theorem Quiet.earlier (quiet : Quiet signal (now+1) stop) (first : signal (now+1) = false) : Quiet signal now stop := by
  intro u after before
  rcases Nat.eq_or_lt_of_le (show now+1 ≤ u from after) with rfl | later
  · exact first
  · exact quiet u later before

theorem wait_wakes (ready signal : Nat → Bool) (left now : Nat) :
    ∃ spent, Wakes ready signal left now (wait ready signal left now).1 spent ∧ (wait ready signal left now).2+spent = left := by
  induction left generalizing now with
  | zero =>
      refine ⟨0,?_,rfl⟩
      unfold wait
      split
      · rename_i there
        exact .ready (Nat.le_refl 0) there (fun u after before => by omega)
      · rename_i absent
        refine .expired (fun u after before => ?_) (fun u after before => by omega)
        rw [show u = now by omega]
        exact Bool.eq_false_iff.mpr absent
  | succ left ih =>
      unfold wait
      split
      · rename_i there
        exact ⟨0,.ready (Nat.zero_le _) there (fun u after before => by omega),rfl⟩
      · rename_i absent
        have first : ready now = false := Bool.eq_false_iff.mpr absent
        split
        · rename_i disturbed
          refine ⟨1,.interrupted Nat.one_pos (Nat.le_add_left 1 left) disturbed.1 (fun u after before => ?_),rfl⟩
          rcases Nat.eq_or_lt_of_le after with rfl | later
          · exact first
          · rw [show u = now+1 by omega]
            exact Bool.eq_false_iff.mpr disturbed.2
        · rename_i undisturbed
          obtain ⟨spent,wakes,sum⟩ := ih (now+1)
          refine ⟨spent+1,?_,by omega⟩
          generalize wait ready signal left (now+1) = result at wakes sum ⊢
          obtain ⟨wake,rest⟩ := result
          cases wakes with
          | ready within there still =>
              refine .ready (by omega) ?_ ?_
              · rwa [show now+(spent+1) = now+1+spent by omega]
              · rw [show now+(spent+1) = now+1+spent by omega]
                exact still.earlier first
          | interrupted some within signalled still =>
              refine .interrupted (by omega) (by omega) ?_ ?_
              · rwa [show now+(spent+1) = now+1+spent by omega]
              · rw [show now+(spent+1)+1 = now+1+spent+1 by omega]
                exact still.earlier first
          | expired still quiet =>
              have none : ready (now+1) = false := still (now+1) (Nat.le_refl _) (by omega)
              have unsignalled : signal (now+1) = false := by
                rcases Bool.eq_false_or_eq_true (signal (now+1)) with signalled | unsignalled
                · exact absurd ⟨signalled,by simp [none]⟩ undisturbed
                · exact unsignalled
              refine .expired ?_ ?_
              · rw [show now+(left+1)+1 = now+1+left+1 by omega]
                exact still.earlier first
              · rw [show now+(left+1) = now+1+left by omega]
                exact quiet.earlier unsignalled

-- The turn, by what the wait comes to.
inductive Turns (c : Clock) (resumed : Bool) (left now : Nat) : Turn (Nat × Nat) (Wake × Nat) → Prop where
  | refused : c.refuses now = true → Turns c resumed left now (.leave (.refused,now))
  | ready : spent ≤ left → c.ready (now+spent) = true → Still c.ready now (now+spent) →
      Turns c resumed left now (.leave (.ready,now+spent))
  | expired : Still c.ready now (now+left+1) → Quiet c.signal now (now+left) →
      Turns c resumed left now (.leave (.expired,now+left))
  | again : 0 < spent → spent ≤ left → c.signal (now+spent) = true → Still c.ready now (now+spent+1) →
      Turns c resumed left now (.again (now+spent,if resumed then left-spent else left))

theorem waitTurn_turns (c : Clock) (resumed : Bool) (left now : Nat) :
    Turns c resumed left now (waitTurn c resumed (now,left)) := by
  unfold waitTurn Clock.sleep
  dsimp only
  by_cases refuses : c.refuses now = true
  · rw [if_pos refuses]
    dsimp only
    rw [Nat.sub_self]
    exact .refused refuses
  · rw [if_neg refuses]
    obtain ⟨spent,wakes,sum⟩ := wait_wakes c.ready c.signal left now
    generalize wait c.ready c.signal left now = result at wakes sum ⊢
    obtain ⟨wake,rest⟩ := result
    have rest_eq : rest = left-spent := by dsimp only at sum; omega
    subst rest_eq
    cases wakes with
    | ready within there still =>
        dsimp only
        rw [show left-(left-spent) = spent by omega]
        exact .ready within there still
    | interrupted some within signalled still =>
        dsimp only
        rw [show left-(left-spent) = spent by omega]
        exact .again some within signalled still
    | expired still quiet =>
        dsimp only
        rw [show left-(left-left) = left by omega]
        exact .expired still quiet

-- What a wait that is taken up again for the rest of its time comes to.
inductive Comes (c : Clock) (now deadline : Nat) : Wake → Nat → Prop where
  | ready : now ≤ t → t ≤ deadline → c.ready t = true → Still c.ready now t → Comes c now deadline .ready t
  | expired : Still c.ready now (deadline+1) → Comes c now deadline .expired deadline
  | refused : now ≤ t → t ≤ deadline → c.refuses t = true → Still c.ready now t → Comes c now deadline .refused t

theorem Still.join (one : Still ready start middle) (two : Still ready middle stop) : Still ready start stop := by
  intro u after before
  by_cases early : u < middle
  · exact one u after early
  · exact two u (by omega) before

theorem Still.less (still : Still ready start stop) (less : stop' ≤ stop) : Still ready start stop' :=
  fun u after before => still u after (Nat.lt_of_lt_of_le before less)

-- Signals do not put the deadline off.
theorem resumed_comes (c : Clock) (left now : Nat) :
    ∃ wake t, Leaves (waitTurn c true) (now,left) (wake,t) ∧ Comes c now (now+left) wake t := by
  induction left using Nat.strongRecOn generalizing now with
  | _ left ih =>
      have turns := waitTurn_turns c true left now
      generalize turn : waitTurn c true (now,left) = result at turns
      cases turns with
      | refused refuses =>
          exact ⟨_,_,.leave turn,.refused (Nat.le_refl _) (Nat.le_add_right _ _) refuses (fun u after before => by omega)⟩
      | ready within there still =>
          exact ⟨_,_,.leave turn,.ready (Nat.le_add_right _ _) (by omega) there still⟩
      | expired still quiet => exact ⟨_,_,.leave turn,.expired still⟩
      | @again spent some within signalled still =>
          obtain ⟨wake,t,leaves,comes⟩ := ih (left-spent) (by omega) (now+spent)
          have before : Still c.ready now (now+spent) := still.less (Nat.le_succ _)
          refine ⟨wake,t,.again turn leaves,?_⟩
          rw [show now+spent+(left-spent) = now+left by omega] at comes
          cases comes with
          | ready after within there later => exact .ready (by omega) within there (before.join later)
          | expired later => exact .expired (before.join later)
          | refused after within refuses later => exact .refused (by omega) within refuses (before.join later)

-- Begun afresh after every signal, the wait goes on until something is ready or signals keep off for the whole time.
theorem restarted_leaves (c : Clock) (works : ∀ t, c.refuses t = false) (limit now : Nat) :
    (∃ result, Leaves (waitTurn c false) (now,limit) result) ↔
      (∃ t, now ≤ t ∧ c.ready t = true) ∨ ∃ t, now ≤ t ∧ Quiet c.signal t (t+limit) := by
  constructor
  · rintro ⟨result,leaves⟩
    generalize start : (now,limit) = s at leaves
    induction leaves generalizing now with
    | leave turn =>
        subst start
        have turns := waitTurn_turns c false limit now
        rw [turn] at turns
        cases turns with
        | refused refuses => cases (works now).symm.trans refuses
        | ready within there still => exact .inl ⟨_,Nat.le_add_right _ _,there⟩
        | expired still quiet => exact .inr ⟨now,Nat.le_refl _,quiet⟩
    | again turn later ih =>
        subst start
        have turns := waitTurn_turns c false limit now
        rw [turn] at turns
        cases turns with
        | again some within signalled still =>
            rcases ih _ rfl with ⟨t,after,there⟩ | ⟨t,after,quiet⟩
            · exact .inl ⟨t,by omega,there⟩
            · exact .inr ⟨t,by omega,quiet⟩
  · intro comes
    obtain ⟨t,after,ends⟩ : ∃ t, now ≤ t ∧ (c.ready t = true ∨ Quiet c.signal t (t+limit)) := by
      rcases comes with ⟨t,after,there⟩ | ⟨t,after,quiet⟩
      · exact ⟨t,after,.inl there⟩
      · exact ⟨t,after,.inr quiet⟩
    clear comes
    generalize distance : t-now = d
    induction d using Nat.strongRecOn generalizing now with
    | _ d ih =>
        have turns := waitTurn_turns c false limit now
        generalize turn : waitTurn c false (now,limit) = result at turns
        cases turns with
        | refused refuses => exact ⟨_,.leave turn⟩
        | ready within there still => exact ⟨_,.leave turn⟩
        | expired still quiet => exact ⟨_,.leave turn⟩
        | @again spent some within signalled still =>
            -- The signal came before t: behind it the wait would have ended or had its quiet time.
            have early : now+spent ≤ t := by
              refine Nat.le_of_not_lt (fun late => ?_)
              rcases ends with there | quiet
              · cases (still t after (by omega)).symm.trans there
              · cases (quiet (now+spent) (by omega) (by omega)).symm.trans signalled
            obtain ⟨result,leaves⟩ := ih (t-(now+spent)) (by omega) (now+spent) early rfl
            exact ⟨result,.again turn leaves⟩

end PersonalJournal.Deadline
