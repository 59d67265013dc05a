import Mathlib.Data.List.Nodup
import Mathlib.Logic.Function.Basic

namespace PersonalJournal.CircularList

-- The two pointers of each node. `none` is the null pointer.
@[ext]
structure Links (N : Type) where
  next : N → Option N
  prev : N → Option N

variable {N : Type} {h k : Links N} {x y z m p n e head list : N} {nodes items rest a b : List N}

def Linked (h : Links N) (x y : N) : Prop := h.next x = some y ∧ h.prev y = some x

-- From x to y through the nodes between them, and back.
def Segment (h : Links N) : N → List N → N → Prop
  | x,[],y => Linked h x y
  | x,m :: rest,y => Linked h x m ∧ Segment h m rest y

structure Ring (h : Links N) (head : N) (nodes : List N) : Prop where
  closed : Segment h head nodes head
  distinct : (head :: nodes).Nodup

theorem segment_append : Segment h x (a ++ m :: b) y ↔ Segment h x a m ∧ Segment h m b y := by
  induction a generalizing x with
  | nil => exact Iff.rfl
  | cons first rest ih =>
      constructor
      · rintro ⟨link,later⟩
        obtain ⟨before,after⟩ := ih.mp later
        exact ⟨⟨link,before⟩,after⟩
      · rintro ⟨⟨link,before⟩,after⟩
        exact ⟨link,ih.mpr ⟨before,after⟩⟩

-- A segment reads next of its nodes and of x, and prev of its nodes and of y.
theorem Segment.frame (segment : Segment h x nodes y) (forth : ∀ z ∈ x :: nodes, k.next z = h.next z)
    (back : ∀ z ∈ y :: nodes, k.prev z = h.prev z) : Segment k x nodes y := by
  induction nodes generalizing x with
  | nil =>
      obtain ⟨next,prev⟩ := segment
      exact ⟨(forth x List.mem_cons_self).trans next,(back y List.mem_cons_self).trans prev⟩
  | cons m rest ih =>
      obtain ⟨⟨next,prev⟩,later⟩ := segment
      refine ⟨⟨(forth x List.mem_cons_self).trans next,?_⟩,ih later ?_ ?_⟩
      · exact (back m (List.mem_cons_of_mem _ List.mem_cons_self)).trans prev
      · intro z member
        exact forth z (List.mem_cons_of_mem _ member)
      · intro z member
        rcases List.mem_cons.mp member with rfl | inside
        · exact back z List.mem_cons_self
        · exact back z (List.mem_cons_of_mem _ (List.mem_cons_of_mem _ inside))

theorem Ring.frame (ring : Ring h head nodes)
    (same : ∀ z ∈ head :: nodes, k.next z = h.next z ∧ k.prev z = h.prev z) : Ring k head nodes :=
  ⟨ring.closed.frame (fun z member => (same z member).1) (fun z member => (same z member).2),ring.distinct⟩

-- Any node of a ring may stand for its head.
theorem Ring.rotate (ring : Ring h x (a ++ y :: b)) : Ring h y (b ++ x :: a) := by
  obtain ⟨before,after⟩ := segment_append.mp ring.closed
  refine ⟨segment_append.mpr ⟨after,before⟩,?_⟩
  have order : List.Perm (x :: (a ++ y :: b)) (y :: (b ++ x :: a)) := by
    rw [← List.cons_append,← List.cons_append]
    exact List.perm_append_comm
  exact order.nodup_iff.mp ring.distinct

theorem Ring.member (ring : Ring h head nodes) (inside : e ∈ nodes) :
    ∃ a b, nodes = a ++ e :: b ∧ Ring h e (b ++ head :: a) := by
  obtain ⟨a,b,rfl⟩ := List.append_of_mem inside
  exact ⟨a,b,rfl,ring.rotate⟩

theorem Ring.next_nil (ring : Ring h head []) : h.next head = some head := ring.closed.1

theorem Ring.prev_nil (ring : Ring h head []) : h.prev head = some head := ring.closed.2

theorem Ring.next_cons (ring : Ring h head (m :: rest)) : h.next head = some m := ring.closed.1.1

theorem Ring.prev_concat (ring : Ring h head (a ++ [m])) : h.prev head = some m :=
  (segment_append.mp ring.closed).2.2

theorem Ring.empty_iff (ring : Ring h head nodes) : h.next head = some head ↔ nodes = [] := by
  cases nodes with
  | nil => exact iff_of_true ring.next_nil rfl
  | cons m rest =>
      rw [ring.next_cons]
      refine iff_of_false (fun same => ?_) (List.cons_ne_nil m rest)
      cases Option.some.inj same
      exact (List.nodup_cons.mp ring.distinct).1 List.mem_cons_self

theorem Ring.next_some (ring : Ring h head nodes) : ∃ n, h.next head = some n ∧ n ∈ head :: nodes := by
  cases nodes with
  | nil => exact ⟨head,ring.next_nil,List.mem_cons_self⟩
  | cons m rest => exact ⟨m,ring.next_cons,List.mem_cons_of_mem _ List.mem_cons_self⟩

theorem Ring.prev_some (ring : Ring h head nodes) : ∃ p, h.prev head = some p ∧ p ∈ head :: nodes := by
  rcases List.eq_nil_or_concat nodes with rfl | ⟨a,m,rfl⟩
  · exact ⟨head,ring.prev_nil,List.mem_cons_self⟩
  · rw [List.concat_eq_append] at ring ⊢
    exact ⟨m,ring.prev_concat,by simp⟩

-- What a node points to follows from the ring, so its members do.
theorem segment_unique (one : Segment h x a y) (two : Segment h x b y) (left : y ∉ a) (right : y ∉ b) : a = b := by
  induction a generalizing x b with
  | nil =>
      cases b with
      | nil => rfl
      | cons m rest =>
          cases Option.some.inj (one.1.symm.trans two.1.1)
          exact absurd List.mem_cons_self right
  | cons m rest ih =>
      cases b with
      | nil =>
          cases Option.some.inj (one.1.1.symm.trans two.1)
          exact absurd List.mem_cons_self left
      | cons m' rest' =>
          cases Option.some.inj (one.1.1.symm.trans two.1.1)
          obtain ⟨_,left⟩ := List.ne_and_not_mem_of_not_mem_cons left
          obtain ⟨_,right⟩ := List.ne_and_not_mem_of_not_mem_cons right
          rw [ih one.2 two.2 left right]

theorem Ring.unique (one : Ring h head a) (two : Ring h head b) : a = b := by
  apply segment_unique one.closed two.closed
  · exact (List.nodup_cons.mp one.distinct).1
  · exact (List.nodup_cons.mp two.distinct).1

-- The same pointers read the other way round.
def Links.swap (h : Links N) : Links N := ⟨h.prev,h.next⟩

theorem Segment.swap (segment : Segment h x nodes y) : Segment h.swap y nodes.reverse x := by
  induction nodes generalizing x with
  | nil => exact segment.symm
  | cons m rest ih =>
      obtain ⟨link,later⟩ := segment
      rw [List.reverse_cons]
      exact segment_append.mpr ⟨ih later,link.symm⟩

theorem Ring.swap (ring : Ring h head nodes) : Ring h.swap head nodes.reverse := by
  refine ⟨ring.closed.swap,?_⟩
  have same : (head :: nodes).Nodup ↔ (head :: nodes.reverse).Nodup :=
    ((List.reverse_perm nodes).symm.cons head).nodup_iff
  exact same.mp ring.distinct

-- Where a cursor on a node goes.
theorem Ring.next_node (ring : Ring h head (a ++ x :: rest)) : h.next x = (rest ++ [head]).head? := by
  have turned : Ring h x (rest ++ head :: a) := ring.rotate
  cases rest with
  | nil => exact turned.next_cons
  | cons m later => exact turned.next_cons

theorem Ring.next_head (ring : Ring h head nodes) : h.next head = (nodes ++ [head]).head? := by
  cases nodes with
  | nil => exact ring.next_nil
  | cons m rest => exact ring.next_cons

theorem Ring.head_apart (ring : Ring h head nodes) (inside : x ∈ nodes) : x ≠ head :=
  fun same => (List.nodup_cons.mp ring.distinct).1 (same ▸ inside)

variable [DecidableEq N]

def Links.setNext (h : Links N) (x : N) (q : Option N) : Links N := {h with next := Function.update h.next x q}

def Links.setPrev (h : Links N) (x : N) (q : Option N) : Links N := {h with prev := Function.update h.prev x q}

@[simp] theorem setNext_next (h : Links N) (x z : N) (q : Option N) :
    (h.setNext x q).next z = if z = x then q else h.next z := Function.update_apply ..

@[simp] theorem setNext_prev (h : Links N) (x : N) (q : Option N) : (h.setNext x q).prev = h.prev := rfl

@[simp] theorem setPrev_next (h : Links N) (x : N) (q : Option N) : (h.setPrev x q).next = h.next := rfl

@[simp] theorem setPrev_prev (h : Links N) (x z : N) (q : Option N) :
    (h.setPrev x q).prev z = if z = x then q else h.prev z := Function.update_apply ..

-- x and y become neighbours.
def Links.tie (h : Links N) (x y : N) : Links N := (h.setNext x (some y)).setPrev y (some x)

@[simp] theorem tie_next (h : Links N) (x y z : N) :
    (h.tie x y).next z = if z = x then some y else h.next z := by simp [Links.tie]

@[simp] theorem tie_prev (h : Links N) (x y z : N) :
    (h.tie x y).prev z = if z = y then some x else h.prev z := by simp [Links.tie]

theorem Ring.single (h : Links N) (x : N) : Ring (h.tie x x) x [] := by
  refine ⟨⟨?_,?_⟩,List.nodup_singleton x⟩
  · simp
  · simp

-- A node put between p and what came after it.
theorem Ring.insert (ring : Ring h p nodes) (after : h.next p = some n) (fresh : m ∉ p :: nodes) :
    Ring ((h.tie m n).tie p m) p (m :: nodes) := by
  obtain ⟨alone,unseen⟩ := List.ne_and_not_mem_of_not_mem_cons fresh
  have distinct : (p :: m :: nodes).Nodup := by
    refine List.nodup_cons.mpr ⟨?_,List.nodup_cons.mpr ⟨unseen,(List.nodup_cons.mp ring.distinct).2⟩⟩
    exact List.not_mem_cons_of_ne_of_not_mem (Ne.symm alone) (List.nodup_cons.mp ring.distinct).1
  refine ⟨?_,distinct⟩
  have first : Linked ((h.tie m n).tie p m) p m := by simp [Linked]
  cases nodes with
  | nil =>
      cases Option.some.inj (ring.next_nil.symm.trans after)
      refine ⟨first,?_,?_⟩
      · simp [alone]
      · simp [Ne.symm alone]
  | cons f rest =>
      cases Option.some.inj (ring.next_cons.symm.trans after)
      obtain ⟨notHead,notRest⟩ := List.nodup_cons.mp ring.distinct
      obtain ⟨notFirst,notLater⟩ := List.ne_and_not_mem_of_not_mem_cons notHead
      obtain ⟨other,absent⟩ := List.ne_and_not_mem_of_not_mem_cons unseen
      refine ⟨first,⟨?_,?_⟩,ring.closed.2.frame ?_ ?_⟩
      · simp [alone]
      · simp [Ne.symm other]
      · intro z member
        have notP : z ≠ p := fun same => notHead (same ▸ member)
        have notM : z ≠ m := fun same => unseen (same ▸ member)
        simp [notP,notM]
      · intro z member
        have notM : z ≠ m := by
          rintro rfl
          rcases List.mem_cons.mp member with same | inside
          · exact alone same
          · exact absent inside
        have notN : z ≠ n := by
          rintro rfl
          rcases List.mem_cons.mp member with same | inside
          · exact notFirst same.symm
          · exact (List.nodup_cons.mp notRest).1 inside
        simp [notM,notN]

-- Its neighbours close up behind a node that is taken out.
theorem Ring.remove (ring : Ring h e (m :: rest)) (before : h.prev e = some p) : Ring (h.tie p m) m rest := by
  obtain ⟨outside,distinct⟩ := List.nodup_cons.mp ring.distinct
  refine ⟨?_,distinct⟩
  have later : Segment h m rest e := ring.closed.2
  rcases List.eq_nil_or_concat rest with rfl | ⟨a,l,rfl⟩
  · cases Option.some.inj (before.symm.trans later.2)
    refine ⟨?_,?_⟩
    · simp
    · simp
  · rw [List.concat_eq_append] at later outside distinct ⊢
    obtain ⟨start,stop⟩ := segment_append.mp later
    cases Option.some.inj (before.symm.trans stop.2)
    have order : (m :: a).Nodup ∧ p ∉ m :: a := by
      rw [← List.cons_append] at distinct
      obtain ⟨early,_,apart⟩ := List.nodup_append.mp distinct
      exact ⟨early,fun member => apart p member p List.mem_cons_self rfl⟩
    refine segment_append.mpr ⟨start.frame ?_ ?_,?_,?_⟩
    · intro z member
      have notL : z ≠ p := fun same => order.2 (same ▸ member)
      simp [notL]
    · intro z member
      have notM : z ≠ m := by
        rintro rfl
        rcases List.mem_cons.mp member with same | inside
        · exact order.2 (same ▸ List.mem_cons_self)
        · exact (List.nodup_cons.mp order.1).1 inside
      simp [notM]
    · simp
    · simp

-- The nodes of a segment between other ends.
theorem Segment.regraft (segment : Segment h list (m :: rest) y) (distinct : (m :: rest).Nodup)
    (last : h.prev y = some z) (p' : p ∉ m :: rest) (n' : n ∉ m :: rest) :
    Segment ((h.tie p m).tie z n) p (m :: rest) n := by
  obtain ⟨_,later⟩ := segment
  obtain ⟨pm,_⟩ := List.ne_and_not_mem_of_not_mem_cons p'
  obtain ⟨nm,_⟩ := List.ne_and_not_mem_of_not_mem_cons n'
  rcases List.eq_nil_or_concat rest with rfl | ⟨a,l,rfl⟩
  · cases Option.some.inj (last.symm.trans later.2)
    refine ⟨⟨?_,?_⟩,?_,?_⟩
    · simp [pm]
    · simp [Ne.symm nm]
    · simp
    · simp
  · rw [List.concat_eq_append] at later distinct p' n' ⊢
    obtain ⟨start,stop⟩ := segment_append.mp later
    cases Option.some.inj (last.symm.trans stop.2)
    rw [← List.cons_append] at distinct p' n'
    obtain ⟨early,_,apart⟩ := List.nodup_append.mp distinct
    have notZ : z ∉ m :: a := fun member => apart z member z List.mem_cons_self rfl
    have pz : p ≠ z := fun same => p' (same ▸ List.mem_append_right _ List.mem_cons_self)
    have nz : n ≠ z := fun same => n' (same ▸ List.mem_append_right _ List.mem_cons_self)
    refine ⟨⟨?_,?_⟩,segment_append.mpr ⟨start.frame ?_ ?_,?_,?_⟩⟩
    · simp [pz]
    · simp [Ne.symm nm]
    · intro w member
      have notP : w ≠ p := fun same => p' (same ▸ List.mem_append_left _ member)
      have notL : w ≠ z := fun same => notZ (same ▸ member)
      simp [notP,notL]
    · intro w member
      have either : w = z ∨ w ∈ a := List.mem_cons.mp member
      have notM : w ≠ m := by
        rintro rfl
        rcases either with same | inside
        · exact notZ (same ▸ List.mem_cons_self)
        · exact (List.nodup_cons.mp early).1 inside
      have notN : w ≠ n := by
        rintro rfl
        rcases either with same | inside
        · exact nz same
        · exact n' (List.mem_append_left _ (List.mem_cons_of_mem _ inside))
      simp [notM,notN]
    · simp
    · simp

-- The members of one ring put behind the head of another.
theorem Ring.splice (from' : Ring h list (m :: rest)) (into : Ring h p nodes)
    (apart : List.Disjoint (list :: m :: rest) (p :: nodes)) (last : h.prev list = some z)
    (after : h.next p = some n) : Ring ((h.tie p m).tie z n) p (m :: rest ++ nodes) := by
  have distinct := (List.nodup_cons.mp from'.distinct).2
  have pOut : p ∉ m :: rest := fun member => apart (List.mem_cons_of_mem _ member) List.mem_cons_self
  have nIn : n ∈ p :: nodes := by
    obtain ⟨n',found,member⟩ := into.next_some
    cases Option.some.inj (found.symm.trans after)
    exact member
  have nOut : n ∉ m :: rest := fun member => apart (List.mem_cons_of_mem _ member) nIn
  have zIn : z ∈ m :: rest := by
    rcases List.eq_nil_or_concat (m :: rest) with nil | ⟨a,l,concat⟩
    · cases nil
    · rw [List.concat_eq_append] at concat
      rw [concat] at from' ⊢
      cases Option.some.inj (from'.prev_concat.symm.trans last)
      exact List.mem_append_right _ List.mem_cons_self
  have graft := from'.closed.regraft distinct last pOut nOut
  refine ⟨?_,?_⟩
  · cases nodes with
    | nil =>
        cases Option.some.inj (into.next_nil.symm.trans after)
        rw [List.append_nil]
        exact graft
    | cons f later =>
        cases Option.some.inj (into.next_cons.symm.trans after)
        refine segment_append.mpr ⟨graft,into.closed.2.frame ?_ ?_⟩
        · intro w member
          have notP : w ≠ p := fun same => (List.nodup_cons.mp into.distinct).1 (same ▸ member)
          have notZ : w ≠ z := by
            rintro rfl
            exact apart (List.mem_cons_of_mem _ zIn) (List.mem_cons_of_mem _ member)
          simp [notP,notZ]
        · intro w member
          have inside : w ∈ p :: n :: later := by
            rcases List.mem_cons.mp member with rfl | later'
            · exact List.mem_cons_self
            · exact List.mem_cons_of_mem _ (List.mem_cons_of_mem _ later')
          have notM : w ≠ m := by
            rintro rfl
            exact apart (List.mem_cons_of_mem _ List.mem_cons_self) inside
          have notF : w ≠ n := by
            rintro rfl
            obtain ⟨out,rest'⟩ := List.nodup_cons.mp into.distinct
            rcases List.mem_cons.mp member with rfl | later'
            · exact out List.mem_cons_self
            · exact (List.nodup_cons.mp rest').1 later'
          simp [notM,notF]
  · refine List.nodup_cons.mpr ⟨?_,List.nodup_append.mpr ⟨distinct,(List.nodup_cons.mp into.distinct).2,?_⟩⟩
    · intro member
      rcases List.mem_append.mp member with one | two
      · exact pOut one
      · exact (List.nodup_cons.mp into.distinct).1 two
    · rintro w one _ two rfl
      exact apart (List.mem_cons_of_mem _ one) (List.mem_cons_of_mem _ two)

theorem Ring.insert_tail (ring : Ring h head nodes) (before : h.prev head = some p) (fresh : m ∉ head :: nodes) :
    Ring ((h.tie m head).tie p m) head (nodes ++ [m]) := by
  rcases List.eq_nil_or_concat nodes with rfl | ⟨a,l,rfl⟩
  · cases Option.some.inj (ring.prev_nil.symm.trans before)
    exact ring.insert ring.next_nil fresh
  · rw [List.concat_eq_append] at ring fresh ⊢
    cases Option.some.inj (ring.prev_concat.symm.trans before)
    have turned : Ring h p (head :: a) := ring.rotate
    have unseen : m ∉ p :: head :: a := by
      intro member
      apply fresh
      simp only [List.mem_cons,List.mem_append] at member ⊢
      tauto
    have grown : Ring ((h.tie m head).tie p m) p ([m] ++ head :: a) := turned.insert turned.next_cons unseen
    have back := grown.rotate
    rw [List.append_assoc]
    exact back

-- A node taken out of the middle, seen from the head.
theorem Ring.detach (ring : Ring h head (a ++ e :: b)) (before : h.prev e = some p) (after : h.next e = some n) :
    Ring (h.tie p n) head (a ++ b) := by
  have turned : Ring h e (b ++ head :: a) := ring.rotate
  cases b with
  | nil =>
      cases Option.some.inj (turned.next_cons.symm.trans after)
      rw [List.append_nil]
      exact turned.remove before
  | cons m rest =>
      rw [List.cons_append] at turned
      cases Option.some.inj (turned.next_cons.symm.trans after)
      exact (turned.remove before).rotate

theorem Ring.splice_tail (from' : Ring h list (m :: rest)) (into : Ring h head nodes)
    (apart : List.Disjoint (list :: m :: rest) (head :: nodes)) (last : h.prev list = some z)
    (before : h.prev head = some p) : Ring ((h.tie p m).tie z head) head (nodes ++ (m :: rest)) := by
  rcases List.eq_nil_or_concat nodes with rfl | ⟨a,l,rfl⟩
  · cases Option.some.inj (into.prev_nil.symm.trans before)
    have joined := from'.splice into apart last into.next_nil
    rw [List.append_nil] at joined
    exact joined
  · rw [List.concat_eq_append] at into apart ⊢
    cases Option.some.inj (into.prev_concat.symm.trans before)
    have turned : Ring h p (head :: a) := into.rotate
    have other : List.Disjoint (list :: m :: rest) (p :: head :: a) := by
      intro w one two
      apply apart one
      simp only [List.mem_cons,List.mem_append] at two ⊢
      tauto
    have back := (from'.splice turned other last turned.next_cons).rotate
    rw [List.append_assoc]
    exact back

omit [DecidableEq N] in
-- Any number of lists side by side: what is on the list of each head.
structure Holds (h : Links N) (lists : N → Option (List N)) : Prop where
  ring : ∀ x a, lists x = some a → Ring h x a
  apart : ∀ x y a b, lists x = some a → lists y = some b → x ≠ y → List.Disjoint (x :: a) (y :: b)

-- On no list, unless as the head of an empty one.
def Loose (lists : N → Option (List N)) (e : N) : Prop := ∀ x a, lists x = some a → e ∈ x :: a → x = e ∧ a = []

variable {lists lists' : N → Option (List N)} {l : List N}

omit [DecidableEq N] in
theorem Holds.only (held : Holds h lists) (one : lists x = some a) (two : lists y = some b) (first : z ∈ x :: a)
    (second : z ∈ y :: b) : x = y := by
  by_contra differ
  exact held.apart x y a b one two differ first second

omit [DecidableEq N] in
theorem Holds.member_headless (held : Holds h lists) (found : lists head = some nodes) (inside : e ∈ nodes) :
    lists e = none := by
  cases own : lists e with
  | none => rfl
  | some c =>
      cases held.only found own (List.mem_cons_of_mem _ inside) List.mem_cons_self
      exact absurd inside (List.nodup_cons.mp (held.ring _ _ found).distinct).1

omit [DecidableEq N] in
-- Stores into the nodes of l that leave at most one list there.
theorem Holds.change (held : Holds h lists) (head : N) (l : List N)
    (off : ∀ z, z ∉ l → k.next z = h.next z ∧ k.prev z = h.prev z)
    (each : ∀ x a, lists' x = some a →
      (x = head ∧ Ring k x a ∧ x :: a ⊆ l) ∨ (lists x = some a ∧ List.Disjoint (x :: a) l)) : Holds k lists' := by
  refine ⟨?_,?_⟩
  · intro x a found
    rcases each x a found with ⟨_,ring,_⟩ | ⟨before,clear⟩
    · exact ring
    · apply (held.ring x a before).frame
      intro z member
      exact off z (fun inside => clear member inside)
  · intro x y a b one two differ
    rcases each x a one with ⟨rfl,_,within⟩ | ⟨before,clear⟩
    · rcases each y b two with ⟨rfl,_,_⟩ | ⟨_,clear⟩
      · exact absurd rfl differ
      · intro z first second
        exact clear second (within first)
    · rcases each y b two with ⟨rfl,_,within⟩ | ⟨other,_⟩
      · intro z first second
        exact clear first (within second)
      · exact held.apart x y a b before other differ

theorem tie_off (h : Links N) (left : z ≠ x) (right : z ≠ y) :
    (h.tie x y).next z = h.next z ∧ (h.tie x y).prev z = h.prev z := by
  simp [left,right]

theorem update_some {q : Option (List N)} (found : Function.update lists x q y = some a) :
    (y = x ∧ q = some a) ∨ (y ≠ x ∧ lists y = some a) := by
  rw [Function.update_apply] at found
  split at found
  · rename_i same
    exact .inl ⟨same,found⟩
  · rename_i differ
    exact .inr ⟨differ,found⟩

theorem Holds.init (held : Holds h lists) (loose : Loose lists e) :
    Holds (h.tie e e) (Function.update lists e (some [])) := by
  apply held.change e [e]
  · intro z outside
    have other : z ≠ e := fun same => outside (List.mem_singleton.mpr same)
    exact tie_off h other other
  · intro x a found
    rcases update_some found with ⟨rfl,empty⟩ | ⟨differ,before⟩
    · cases empty
      exact .inl ⟨rfl,Ring.single h x,List.Subset.refl _⟩
    · right
      refine ⟨before,List.disjoint_singleton.mpr ?_⟩
      intro member
      exact differ (loose x a before member).1

omit [DecidableEq N] in
-- What is stored into a node on no list is seen by none.
theorem Holds.scratch (held : Holds h lists) (loose : Loose lists e) (none' : lists e = none)
    (off : ∀ z, z ≠ e → k.next z = h.next z ∧ k.prev z = h.prev z) : Holds k lists := by
  apply held.change e [e]
  · intro z outside
    exact off z (fun same => outside (List.mem_singleton.mpr same))
  · intro x a found
    right
    refine ⟨found,List.disjoint_singleton.mpr ?_⟩
    intro member
    cases (loose x a found member).1
    cases none'.symm.trans found

omit [DecidableEq N] in
theorem Loose.outside (loose : Loose lists m) (found : lists head = some nodes) (other : m ≠ head) :
    m ∉ head :: nodes :=
  fun member => other (loose head nodes found member).1.symm

-- A node that was loose, put on one list.
theorem Holds.attach (held : Holds h lists) (loose : Loose lists m) (other : m ≠ head)
    (found : lists head = some nodes) (near : p ∈ head :: nodes) (near' : n ∈ head :: nodes)
    (ring : Ring ((h.tie m n).tie p m) head l) (same : ∀ z, z ∈ l ↔ z ∈ m :: nodes) :
    Holds ((h.tie m n).tie p m) (Function.update (Function.update lists m none) head (some l)) := by
  apply held.change head (m :: head :: nodes)
  · intro z outside
    obtain ⟨notM,rest⟩ := List.ne_and_not_mem_of_not_mem_cons outside
    have notP : z ≠ p := fun same => rest (same ▸ near)
    have notN : z ≠ n := fun same => rest (same ▸ near')
    simp [notM,notP,notN]
  · intro x a now
    rcases update_some now with ⟨rfl,is⟩ | ⟨differ,now⟩
    · cases is
      refine .inl ⟨rfl,ring,?_⟩
      intro z member
      rcases List.mem_cons.mp member with rfl | inside
      · exact List.mem_cons_of_mem _ List.mem_cons_self
      · rcases List.mem_cons.mp ((same z).mp inside) with rfl | old
        · exact List.mem_cons_self
        · exact List.mem_cons_of_mem _ (List.mem_cons_of_mem _ old)
    · rcases update_some now with ⟨_,impossible⟩ | ⟨notM,before⟩
      · cases impossible
      · refine .inr ⟨before,?_⟩
        intro z member inside
        rcases List.mem_cons.mp inside with rfl | old
        · exact notM (loose x a before member).1
        · exact differ (held.only before found member old)

theorem Holds.insert (held : Holds h lists) (loose : Loose lists m) (other : m ≠ head)
    (found : lists head = some nodes) (after : h.next head = some n) :
    Holds ((h.tie m n).tie head m) (Function.update (Function.update lists m none) head (some (m :: nodes))) := by
  have ring := held.ring head nodes found
  obtain ⟨n',next,near⟩ := ring.next_some
  cases Option.some.inj (next.symm.trans after)
  apply held.attach loose other found List.mem_cons_self near
  · exact ring.insert after (loose.outside found other)
  · exact fun z => Iff.rfl

theorem Holds.insert_tail (held : Holds h lists) (loose : Loose lists m) (other : m ≠ head)
    (found : lists head = some nodes) (before : h.prev head = some p) :
    Holds ((h.tie m head).tie p m) (Function.update (Function.update lists m none) head (some (nodes ++ [m]))) := by
  have ring := held.ring head nodes found
  obtain ⟨p',prev,near⟩ := ring.prev_some
  cases Option.some.inj (prev.symm.trans before)
  apply held.attach loose other found near List.mem_cons_self
  · exact ring.insert_tail before (loose.outside found other)
  · intro z
    simp only [List.mem_append,List.mem_cons,List.not_mem_nil]
    tauto

theorem Holds.detach (held : Holds h lists) (found : lists head = some (a ++ e :: b)) (before : h.prev e = some p)
    (after : h.next e = some n) : Holds (h.tie p n) (Function.update lists head (some (a ++ b))) := by
  have ring := held.ring head _ found
  have turned : Ring h e (b ++ head :: a) := ring.rotate
  have around : ∀ z, z ∈ e :: (b ++ head :: a) → z ∈ head :: (a ++ e :: b) := by
    intro z member
    simp only [List.mem_cons,List.mem_append] at member ⊢
    tauto
  obtain ⟨p',prev,nearP⟩ := turned.prev_some
  obtain ⟨n',next,nearN⟩ := turned.next_some
  cases Option.some.inj (prev.symm.trans before)
  cases Option.some.inj (next.symm.trans after)
  apply held.change head (head :: (a ++ e :: b))
  · intro z outside
    apply tie_off
    · exact fun same => outside (same ▸ around p nearP)
    · exact fun same => outside (same ▸ around n nearN)
  · intro x c now
    rcases update_some now with ⟨rfl,is⟩ | ⟨differ,old⟩
    · cases is
      refine .inl ⟨rfl,ring.detach before after,?_⟩
      intro z member
      simp only [List.mem_cons,List.mem_append] at member ⊢
      tauto
    · refine .inr ⟨old,?_⟩
      intro z one two
      exact differ (held.only old found one two)

theorem Holds.detach_loose (held : Holds h lists) (found : lists head = some (a ++ e :: b)) :
    Loose (Function.update lists head (some (a ++ b))) e := by
  have ring := held.ring head _ found
  intro x c now member
  rcases update_some now with ⟨rfl,is⟩ | ⟨differ,old⟩
  · cases is
    have turned : Ring h e (b ++ x :: a) := ring.rotate
    apply absurd _ (List.nodup_cons.mp turned.distinct).1
    simp only [List.mem_cons,List.mem_append] at member ⊢
    tauto
  · exact absurd (held.only old found member (by simp)) differ

-- A loose node given up as a head.
theorem Holds.forget (held : Holds h lists) (e : N) : Holds h (Function.update lists e none) := by
  refine ⟨?_,?_⟩
  · intro x a found
    rcases update_some found with ⟨_,impossible⟩ | ⟨_,before⟩
    · cases impossible
    · exact held.ring x a before
  · intro x y a b one two differ
    rcases update_some one with ⟨_,impossible⟩ | ⟨_,before⟩
    · cases impossible
    · rcases update_some two with ⟨_,impossible⟩ | ⟨_,before'⟩
      · cases impossible
      · exact held.apart x y a b before before' differ

-- One list put into another.
theorem Holds.merge (held : Holds h lists) (from' : lists list = some (m :: rest)) (into : lists head = some nodes)
    (other : list ≠ head) (last : h.prev list = some z) (nearP : p ∈ head :: nodes) (nearN : n ∈ head :: nodes)
    (ring : Ring ((h.tie p m).tie z n) head l) (same : ∀ z, z ∈ l ↔ z ∈ m :: rest ∨ z ∈ nodes) :
    Holds ((h.tie p m).tie z n) (Function.update (Function.update lists list none) head (some l)) := by
  obtain ⟨z',prev,nearZ⟩ := (held.ring list _ from').prev_some
  cases Option.some.inj (prev.symm.trans last)
  have inP := List.mem_append_right (list :: m :: rest) nearP
  have inN := List.mem_append_right (list :: m :: rest) nearN
  have inZ := List.mem_append_left (head :: nodes) nearZ
  have inM : m ∈ (list :: m :: rest) ++ (head :: nodes) := by simp
  apply held.change head ((list :: m :: rest) ++ (head :: nodes))
  · intro w outside
    have notP : w ≠ p := fun same => outside (same ▸ inP)
    have notN : w ≠ n := fun same => outside (same ▸ inN)
    have notZ : w ≠ z := fun same => outside (same ▸ inZ)
    have notM : w ≠ m := fun same => outside (same ▸ inM)
    simp [notP,notN,notZ,notM]
  · intro x a now
    rcases update_some now with ⟨rfl,is⟩ | ⟨differ,now⟩
    · cases is
      refine .inl ⟨rfl,ring,?_⟩
      intro w member
      rcases List.mem_cons.mp member with rfl | inside
      · simp
      · rcases (same w).mp inside with one | two
        · exact List.mem_append_left _ (List.mem_cons_of_mem _ one)
        · exact List.mem_append_right _ (List.mem_cons_of_mem _ two)
    · rcases update_some now with ⟨_,impossible⟩ | ⟨notList,before⟩
      · cases impossible
      · refine .inr ⟨before,?_⟩
        intro w one two
        rcases List.mem_append.mp two with there | here
        · exact notList (held.only before from' one there)
        · exact differ (held.only before into one here)

theorem Holds.splice (held : Holds h lists) (from' : lists list = some (m :: rest)) (into : lists head = some nodes)
    (other : list ≠ head) (last : h.prev list = some z) (after : h.next head = some n) :
    Holds ((h.tie head m).tie z n)
      (Function.update (Function.update lists list none) head (some (m :: rest ++ nodes))) := by
  have target := held.ring head nodes into
  obtain ⟨n',next,near⟩ := target.next_some
  cases Option.some.inj (next.symm.trans after)
  apply held.merge from' into other last List.mem_cons_self near
  · exact (held.ring list _ from').splice target (held.apart _ _ _ _ from' into other) last after
  · exact fun w => List.mem_append

theorem Holds.splice_tail (held : Holds h lists) (from' : lists list = some (m :: rest))
    (into : lists head = some nodes) (other : list ≠ head) (last : h.prev list = some z)
    (before : h.prev head = some p) :
    Holds ((h.tie p m).tie z head)
      (Function.update (Function.update lists list none) head (some (nodes ++ (m :: rest)))) := by
  have target := held.ring head nodes into
  obtain ⟨p',prev,near⟩ := target.prev_some
  cases Option.some.inj (prev.symm.trans before)
  apply held.merge from' into other last near List.mem_cons_self
  · exact (held.ring list _ from').splice_tail target (held.apart _ _ _ _ from' into other) last before
  · exact fun w => List.mem_append.trans or_comm

-- The head of the list that was put elsewhere.
theorem Holds.merge_loose (held : Holds h lists) (from' : lists list = some (m :: rest))
    (into : lists head = some nodes) (other : list ≠ head) (same : ∀ z, z ∈ l ↔ z ∈ m :: rest ∨ z ∈ nodes) :
    Loose (Function.update (Function.update lists list none) head (some l)) list := by
  intro x a now member
  rcases update_some now with ⟨rfl,is⟩ | ⟨_,now⟩
  · cases is
    rcases List.mem_cons.mp member with equal | inside
    · exact absurd equal other
    · rcases (same list).mp inside with one | two
      · exact absurd one (List.nodup_cons.mp (held.ring list _ from').distinct).1
      · exact absurd (held.only from' into List.mem_cons_self (List.mem_cons_of_mem _ two)) other
  · rcases update_some now with ⟨_,impossible⟩ | ⟨notList,before⟩
    · cases impossible
    · exact absurd (held.only before from' member List.mem_cons_self) notList

end PersonalJournal.CircularList
