import Mathlib.Logic.Function.Basic

namespace PersonalJournal.Fifo

-- Reliable first-in first-out channels. A channel keeps its history: the messages
-- ever put into it, and how many of them have been taken out.
structure Channel (α : Type) where
  sent : List α
  taken : Nat
  bound : taken ≤ sent.length

def Channel.empty : Channel α := ⟨[],0,Nat.le_refl 0⟩

def Channel.put (c : Channel α) (m : α) : Channel α :=
  ⟨c.sent ++ [m],c.taken,by rw [List.length_append]; exact Nat.le_add_right_of_le c.bound⟩

def Channel.take (c : Channel α) : Option (α × Channel α) :=
  if left : c.taken < c.sent.length then some (c.sent[c.taken],⟨c.sent,c.taken+1,left⟩) else none

variable {α ι : Type} {c d : Channel α} {m : α}

@[simp] theorem put_sent : (c.put m).sent = c.sent ++ [m] := rfl
@[simp] theorem put_taken : (c.put m).taken = c.taken := rfl

theorem take_exact (took : c.take = some (m,d)) :
    c.sent[c.taken]? = some m ∧ d.sent = c.sent ∧ d.taken = c.taken+1 := by
  unfold Channel.take at took
  split at took
  · rename_i left
    cases took
    exact ⟨List.getElem?_eq_getElem left,rfl,rfl⟩
  · cases took

theorem take_none : c.take = none ↔ c.taken = c.sent.length := by
  unfold Channel.take
  split
  · rename_i left
    exact ⟨fun empty => (by cases empty),fun all => absurd all (Nat.ne_of_lt left)⟩
  · rename_i read
    exact ⟨fun _ => Nat.le_antisymm c.bound (Nat.le_of_not_lt read),fun _ => rfl⟩

theorem take_mem (took : c.take = some (m,d)) : m ∈ c.sent :=
  List.mem_of_getElem? (take_exact took).1

section Family

variable [DecidableEq ι] {channels : ι → Channel α} {writes : List (ι × α)} {i : ι}

theorem put_taken_at (channels : ι → Channel α) (i j : ι) (m : α) :
    (Function.update channels i ((channels i).put m) j).taken = (channels j).taken := by
  by_cases same : j = i
  · subst same
    rw [Function.update_self,put_taken]
  · rw [Function.update_of_ne same]

theorem take_sent_at (took : (channels i).take = some (m,d)) (j : ι) :
    (Function.update channels i d j).sent = (channels j).sent := by
  by_cases same : j = i
  · subst same
    rw [Function.update_self]
    exact (take_exact took).2.1
  · rw [Function.update_of_ne same]

theorem take_taken (took : (channels i).take = some (m,d)) :
    (Function.update channels i d i).taken = (channels i).taken+1 := by
  rw [Function.update_self]
  exact (take_exact took).2.2

theorem take_taken_le (took : (channels i).take = some (m,d)) (j : ι) :
    (channels j).taken ≤ (Function.update channels i d j).taken := by
  by_cases same : j = i
  · subst same
    rw [take_taken took]
    exact Nat.le_succ _
  · apply Nat.le_of_eq
    rw [Function.update_of_ne same]

-- One channel for each index, and a list of writes performed in order.
def putAll (channels : ι → Channel α) (writes : List (ι × α)) : ι → Channel α :=
  writes.foldl (fun channels w => Function.update channels w.1 ((channels w.1).put w.2)) channels

def addressed (i : ι) (writes : List (ι × α)) : List α := (writes.filter (·.1 = i)).map (·.2)

theorem mem_addressed : m ∈ addressed i writes ↔ (i,m) ∈ writes := by
  constructor
  · intro member
    obtain ⟨⟨j,n⟩,kept,rfl⟩ := List.mem_map.mp member
    obtain ⟨there,same⟩ := List.mem_filter.mp kept
    cases of_decide_eq_true same
    exact there
  · intro there
    apply List.mem_map.mpr
    exact ⟨(i,m),List.mem_filter.mpr ⟨there,decide_eq_true rfl⟩,rfl⟩

theorem putAll_exact (channels : ι → Channel α) (writes : List (ι × α)) (i : ι) :
    (putAll channels writes i).sent = (channels i).sent ++ addressed i writes ∧
      (putAll channels writes i).taken = (channels i).taken := by
  induction writes generalizing channels with
  | nil => exact ⟨(List.append_nil _).symm,rfl⟩
  | cons w rest ih =>
      obtain ⟨j,n⟩ := w
      obtain ⟨sent,taken⟩ := ih (Function.update channels j ((channels j).put n))
      by_cases here : i = j
      · subst here
        rw [Function.update_self] at sent taken
        refine ⟨?_,taken⟩
        rw [putAll,List.foldl_cons]
        refine sent.trans ?_
        simp [addressed]
      · rw [Function.update_of_ne here] at sent taken
        refine ⟨?_,taken⟩
        rw [putAll,List.foldl_cons]
        refine sent.trans ?_
        simp [addressed,Ne.symm here]

end Family

end PersonalJournal.Fifo
