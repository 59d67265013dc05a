import Mathlib.Logic.Function.Basic

namespace PersonalJournal.Descriptors

variable {C : Type}

-- One opening of a number: for whom, and its place among all openings.
structure Opening (C : Type) where
  owner : C
  serial : Nat
deriving DecidableEq

-- What a component remembers of an opening. The kernel is told the number only.
structure Handle where
  fd : Nat
  serial : Nat
deriving DecidableEq

-- The open numbers of a process, and the calls of close() so far.
structure Ledger (C : Type) where
  entry : Nat → Option (Opening C)
  opened : Nat
  closings : List (C × Handle)
  numbered : ∀ n o, entry n = some o → o.serial < opened
  distinct : ∀ n m o p, entry n = some o → entry m = some p → o.serial = p.serial → n = m

variable {l m : Ledger C} {c d : C} {h k : Handle} {f g : C → Option Handle} {n : Nat}

-- Any number that is not open may be returned, and no other.
def Ledger.socket (l : Ledger C) (c : C) (n : Nat) : Option (Ledger C × Handle) :=
  if (l.entry n).isNone then
    some (⟨Function.update l.entry n (some ⟨c,l.opened⟩),l.opened + 1,l.closings,by
      intro i o found
      rw [Function.update_apply] at found
      split at found
      · cases found
        exact Nat.lt_succ_self _
      · exact Nat.lt_succ_of_lt (l.numbered i o found),by
      intro i j o p one two same
      rw [Function.update_apply] at one two
      split at one <;> split at two
      · simp_all
      · cases one
        exact absurd same.symm (Nat.ne_of_lt (l.numbered j p two))
      · cases two
        exact absurd same (Nat.ne_of_lt (l.numbered i o one))
      · exact l.distinct i j o p one two same⟩,⟨n,l.opened⟩)
  else none

-- Whatever is behind the number goes.
def Ledger.close (l : Ledger C) (c : C) (h : Handle) : Ledger C :=
  ⟨Function.update l.entry h.fd none,l.opened,(c,h) :: l.closings,by
    intro i o found
    rw [Function.update_apply] at found
    split at found
    · cases found
    · exact l.numbered i o found,by
    intro i j o p one two same
    rw [Function.update_apply] at one two
    split at one <;> split at two
    · cases one
    · cases one
    · cases two
    · exact l.distinct i j o p one two same⟩

-- The number is open, and it is this opening, made for c.
def Held (l : Ledger C) (c : C) (h : Handle) : Prop := l.entry h.fd = some ⟨c,h.serial⟩

-- No opening that is still there has been closed.
structure Clean (l : Ledger C) : Prop where
  past : ∀ c h, (c,h) ∈ l.closings → h.serial < l.opened
  present : ∀ n o, l.entry n = some o → ∀ c h, (c,h) ∈ l.closings → h.serial ≠ o.serial

-- Every component holds what it has a handle for.
structure Owned (l : Ledger C) (f : C → Option Handle) : Prop where
  clean : Clean l
  held : ∀ c h, f c = some h → Held l c h

theorem socket_cases (made : l.socket c n = some (m,h)) :
    l.entry n = none ∧ h = ⟨n,l.opened⟩ ∧ m.entry = Function.update l.entry n (some ⟨c,l.opened⟩) ∧
      m.opened = l.opened + 1 ∧ m.closings = l.closings := by
  unfold Ledger.socket at made
  split at made
  · rename_i free
    cases made
    exact ⟨Option.isNone_iff_eq_none.mp free,rfl,rfl,rfl,rfl⟩
  · cases made

theorem socket_held (made : l.socket c n = some (m,h)) : Held m c h := by
  obtain ⟨_,rfl,entry,_,_⟩ := socket_cases made
  unfold Held
  rw [entry]
  exact Function.update_self ..

theorem Held.socket (held : Held l d k) (made : l.socket c n = some (m,h)) : Held m d k := by
  obtain ⟨free,_,entry,_,_⟩ := socket_cases made
  unfold Held at held ⊢
  have apart : k.fd ≠ n := by
    intro same
    rw [same,free] at held
    cases held
  rw [entry,Function.update_of_ne apart]
  exact held

-- One number has one owner.
theorem Held.apart (one : Held l c h) (two : Held l d k) (other : d ≠ c) : k.fd ≠ h.fd := by
  intro same
  unfold Held at one two
  rw [same,one] at two
  exact other (congrArg Opening.owner (Option.some.inj two)).symm

theorem Held.close (one : Held l c h) (two : Held l d k) (other : d ≠ c) : Held (l.close c h) d k := by
  unfold Held
  show Function.update l.entry h.fd none k.fd = _
  rw [Function.update_of_ne (one.apart two other)]
  exact two

theorem Held.unclosed (held : Held l c h) (clean : Clean l) : (c,h) ∉ l.closings :=
  fun closed => clean.present _ _ held _ _ closed rfl

theorem Clean.socket (clean : Clean l) (made : l.socket c n = some (m,h)) : Clean m := by
  obtain ⟨_,_,entry,opened,closings⟩ := socket_cases made
  refine ⟨fun d k closed => ?_,fun i o found d k closed => ?_⟩
  · rw [closings] at closed
    rw [opened]
    exact Nat.lt_succ_of_lt (clean.past d k closed)
  · rw [closings] at closed
    rw [entry,Function.update_apply] at found
    split at found
    · cases found
      exact Nat.ne_of_lt (clean.past d k closed)
    · exact clean.present i o found d k closed

theorem Clean.close (clean : Clean l) (held : Held l c h) : Clean (l.close c h) := by
  refine ⟨fun d k closed => ?_,fun i o found d k closed => ?_⟩
  · rcases List.mem_cons.mp closed with now | before
    · cases now
      exact l.numbered _ _ held
    · exact clean.past d k before
  · have found : Function.update l.entry h.fd none i = some o := found
    rw [Function.update_apply] at found
    split at found
    · cases found
    · rename_i apart
      rcases List.mem_cons.mp closed with now | before
      · cases now
        exact fun same => apart (l.distinct _ _ _ _ found held same.symm)
      · exact clean.present i o found d k before

theorem Owned.keep (owned : Owned l f) (less : ∀ c h, g c = some h → f c = some h) : Owned l g :=
  ⟨owned.clean,fun c h has => owned.held c h (less c h has)⟩

theorem Owned.socket (owned : Owned l f) (made : l.socket c n = some (m,h))
    (others : ∀ d k, g d = some k → f d = some k ∨ d = c ∧ k = h) : Owned m g := by
  refine ⟨owned.clean.socket made,fun d k has => ?_⟩
  rcases others d k has with before | ⟨rfl,rfl⟩
  · exact (owned.held d k before).socket made
  · exact socket_held made

theorem Owned.close (owned : Owned l f) (mine : f c = some h) (others : ∀ d k, g d = some k → f d = some k ∧ d ≠ c) :
    Owned (l.close c h) g := by
  have held := owned.held c h mine
  refine ⟨owned.clean.close held,fun d k has => ?_⟩
  obtain ⟨before,other⟩ := others d k has
  exact held.close (owned.held d k before) other

end PersonalJournal.Descriptors
