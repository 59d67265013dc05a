import Mathlib.Data.List.Nodup
import Mathlib.Data.List.Perm.Basic

namespace PersonalJournal.Allocation

variable {T : Type}

-- The blocks in use, each with its address and what it was taken for.
structure Heap (T : Type) where
  blocks : List (Nat × T)
  distinct : (blocks.map Prod.fst).Nodup

def Heap.Live (h : Heap T) (a : Nat) : Prop := a ∈ h.blocks.map Prod.fst

instance (h : Heap T) (a : Nat) : Decidable (h.Live a) := inferInstanceAs (Decidable (a ∈ _))

-- Where the next block comes to lie: anywhere but in a block that is in use.
structure Allocator (T : Type) where
  place : Heap T → Nat
  unused : ∀ h : Heap T, ¬ h.Live (place h)

def Heap.malloc (h : Heap T) (alloc : Allocator T) (t : T) : Heap T :=
  ⟨(alloc.place h,t) :: h.blocks,List.nodup_cons.mpr ⟨alloc.unused h,h.distinct⟩⟩

-- What is not in use must not be given back.
def Heap.free (h : Heap T) (a : Nat) : Option (Heap T) :=
  if h.Live a then some ⟨h.blocks.filter (fun b => b.1 ≠ a),(List.filter_sublist.map _).nodup h.distinct⟩ else none

-- An allocation that may be refused, and the release of a pointer that may be null.
def Heap.tryMalloc (h : Heap T) (granted : Bool) (alloc : Allocator T) (t : T) : Option Nat × Heap T :=
  if granted then (some (alloc.place h),h.malloc alloc t) else (none,h)

def Heap.release (h : Heap T) : Option Nat → Option (Heap T)
  | none => some h
  | some a => h.free a

-- The blocks in use are these, in some order.
def Heap.Holds (h : Heap T) (owned : List (Nat × T)) : Prop := h.blocks.Perm owned

variable {h next : Heap T} {owned rest : List (Nat × T)} {a : Nat} {t : T}

theorem Heap.Holds.self (h : Heap T) : h.Holds h.blocks := List.Perm.refl _

theorem Heap.Holds.perm (holds : h.Holds owned) (same : owned.Perm rest) : h.Holds rest := List.Perm.trans holds same

theorem Heap.Holds.malloc (holds : h.Holds owned) (alloc : Allocator T) (t : T) :
    (h.malloc alloc t).Holds ((alloc.place h,t) :: owned) := List.Perm.cons _ holds

-- A block that is owned can be given back, and then it is not owned any more.
theorem Heap.Holds.free (holds : h.Holds ((a,t) :: rest)) : ∃ next, h.free a = some next ∧ next.Holds rest := by
  have live : h.Live a := List.mem_map.mpr ⟨(a,t),(List.Perm.mem_iff holds).mpr List.mem_cons_self,rfl⟩
  refine ⟨_,if_pos live,?_⟩
  have apart : (a :: rest.map Prod.fst).Nodup := (List.Perm.map Prod.fst holds).nodup_iff.mp h.distinct
  have others : ∀ b ∈ rest, decide (b.1 ≠ a) = true := by
    intro b member
    refine decide_eq_true (fun same => ?_)
    exact (List.nodup_cons.mp apart).1 (same ▸ List.mem_map_of_mem member)
  have left := List.Perm.filter (fun b => decide (b.1 ≠ a)) holds
  rwa [List.filter_cons_of_neg (by simp),List.filter_eq_self.mpr others] at left

-- The block behind a pointer that may be null.
def block (t : T) : Option Nat → List (Nat × T)
  | none => []
  | some a => [(a,t)]

theorem Heap.Holds.tryMalloc (holds : h.Holds owned) (granted : Bool) (alloc : Allocator T) (t : T) :
    (h.tryMalloc granted alloc t).2.Holds (block t (h.tryMalloc granted alloc t).1 ++ owned) := by
  unfold Heap.tryMalloc
  cases granted with
  | true => exact holds.malloc alloc t
  | false => exact holds

theorem tryMalloc_some (granted : Bool) (alloc : Allocator T) (t : T) : (h.tryMalloc granted alloc t).1.isSome = granted := by
  unfold Heap.tryMalloc
  cases granted <;> rfl

theorem Heap.Holds.release (p : Option Nat) (holds : h.Holds (block t p ++ rest)) :
    ∃ next, h.release p = some next ∧ next.Holds rest := by
  cases p with
  | none => exact ⟨h,rfl,holds⟩
  | some a => exact holds.free

-- What the block at an address was taken for.
def Heap.what (h : Heap T) (a : Nat) : Option T := (h.blocks.find? (fun b => b.1 = a)).map Prod.snd

theorem Heap.what_dead (dead : ¬ h.Live a) : h.what a = none := by
  unfold Heap.what
  rw [List.find?_eq_none.mpr (fun b member same => dead (List.mem_map.mpr ⟨b,member,of_decide_eq_true same⟩))]
  rfl

theorem Heap.what_member (member : (a,t) ∈ h.blocks) : h.what a = some t := by
  obtain ⟨blocks,distinct⟩ := h
  unfold Heap.what
  dsimp only at member ⊢
  induction blocks with
  | nil => cases member
  | cons b rest ih =>
      obtain ⟨apart,others⟩ := List.nodup_cons.mp distinct
      rcases List.mem_cons.mp member with rfl | later
      · simp
      · have other : b.1 ≠ a := fun same => apart (same ▸ List.mem_map.mpr ⟨(a,t),later,rfl⟩)
        rw [List.find?_cons_of_neg (by simpa using other)]
        exact ih others later

theorem Heap.free_dead (freed : h.free a = some next) : ¬ next.Live a := by
  unfold Heap.free at freed
  split at freed
  · cases freed
    intro live
    obtain ⟨b,member,same⟩ := List.mem_map.mp live
    exact absurd same (of_decide_eq_true (List.mem_filter.mp member).2)
  · cases freed

-- How many blocks are in use for this.
def Heap.uses [DecidableEq T] (h : Heap T) (t : T) : Nat := (h.blocks.map Prod.snd).count t

theorem Heap.Holds.uses [DecidableEq T] (holds : h.Holds owned) (t : T) : h.uses t = (owned.map Prod.snd).count t :=
  (List.Perm.map Prod.snd holds).count_eq t

-- The allocator that goes on upwards.
def Allocator.above (T : Type) : Allocator T where
  place h := (h.blocks.map Prod.fst).foldr max 0+1
  unused h member := by
    have bounded : ∀ l : List Nat, ∀ a ∈ l, a ≤ l.foldr max 0 := by
      intro l
      induction l with
      | nil => simp
      | cons b l ih =>
          intro a member
          rw [List.foldr_cons]
          rcases List.mem_cons.mp member with rfl | later
          · exact Nat.le_max_left _ _
          · exact Nat.le_trans (ih a later) (Nat.le_max_right _ _)
    exact absurd (bounded _ _ member) (by omega)

end PersonalJournal.Allocation
