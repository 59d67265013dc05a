import PersonalJournal.Lib.CircularList
import PersonalJournal.Lib.Loop
import PersonalJournal.Lib.Transition

namespace PersonalJournal.ListHead
open CircularList Transition

-- What the calls are for: lists by their heads, and no pointers.
abbrev Lists (N : Type) := N → Option (List N)

variable {N : Type} [DecidableEq N]

-- list.h. A store through a null pointer ends the program: none.
def storeNext (h : Links N) (to' q : Option N) : Option (Links N) := to'.map (h.setNext · q)

def storePrev (h : Links N) (to' q : Option N) : Option (Links N) := to'.map (h.setPrev · q)

def initListHead (h : Links N) (list : N) : Links N := (h.setPrev list (some list)).setNext list (some list)

def listEmpty (h : Links N) (head : N) : Bool := h.next head = some head

def listIsFirst (h : Links N) (list head : N) : Bool := h.prev list = some head

def listIsLast (h : Links N) (list head : N) : Bool := h.next list = some head

-- entry->prev is read again after the first store.
def _listDel (h : Links N) (entry : N) : Option (Links N) := do
  let h ← storePrev h (h.next entry) (h.prev entry)
  storeNext h (h.prev entry) (h.next entry)

def listDel (h : Links N) (entry : N) : Option (Links N) :=
  (_listDel h entry).map fun h => (h.setPrev entry none).setNext entry none

def _listAdd (h : Links N) (new : N) (prev next : Option N) : Option (Links N) := do
  let h ← storePrev h next (some new)
  let h := (h.setNext new next).setPrev new prev
  storeNext h prev (some new)

def listDelInit (h : Links N) (entry : N) : Option (Links N) := (_listDel h entry).map (initListHead · entry)

def listAdd (h : Links N) (new head : N) : Option (Links N) := _listAdd h new (some head) (h.next head)

def listAddTail (h : Links N) (new head : N) : Option (Links N) := _listAdd h new (h.prev head) (some head)

def listMove (h : Links N) (list head : N) : Option (Links N) := (_listDel h list).bind (listAdd · list head)

def listMoveTail (h : Links N) (entry head : N) : Option (Links N) :=
  (_listDel h entry).bind (listAddTail · entry head)

def _listSplice (h : Links N) (list : N) (prev next : Option N) : Option (Links N) :=
  if listEmpty h list then some h else do
    let first := h.next list
    let last := h.prev list
    let h ← storePrev h first prev
    let h ← storeNext h prev first
    let h ← storeNext h last next
    storePrev h next last

def listSplice (h : Links N) (list head : N) : Option (Links N) := _listSplice h list (some head) (h.next head)

def listSpliceTail (h : Links N) (list head : N) : Option (Links N) := _listSplice h list (h.prev head) (some head)

def listSpliceInit (h : Links N) (list head : N) : Option (Links N) :=
  (listSplice h list head).map (initListHead · list)

def listSpliceTailInit (h : Links N) (list head : N) : Option (Links N) :=
  (listSpliceTail h list head).map (initListHead · list)

inductive Call (N : Type) where
  | init (list : N)
  | add (new head : N)
  | addTail (new head : N)
  | del (entry : N)
  | delInit (entry : N)
  | move (list head : N)
  | moveTail (entry head : N)
  | splice (list head : N)
  | spliceTail (list head : N)
  | spliceInit (list head : N)
  | spliceTailInit (list head : N)
  deriving DecidableEq

def call (h : Links N) : Call N → Option (Links N)
  | .init list => some (initListHead h list)
  | .add new head => listAdd h new head
  | .addTail new head => listAddTail h new head
  | .del entry => listDel h entry
  | .delInit entry => listDelInit h entry
  | .move list head => listMove h list head
  | .moveTail entry head => listMoveTail h entry head
  | .splice list head => listSplice h list head
  | .spliceTail list head => listSpliceTail h list head
  | .spliceInit list head => listSpliceInit h list head
  | .spliceTailInit list head => listSpliceTailInit h list head

def Lists.put (lists : Lists N) (head : N) (nodes : List N) : Lists N := Function.update lists head (some nodes)

def Lists.drop (lists : Lists N) (e : N) : Lists N := Function.update lists e none

-- An entry goes from the list it is on, or a head of its own is given up.
inductive Detached (lists : Lists N) (e : N) : Lists N → Prop where
  | member : lists head = some (a ++ e :: b) → Detached lists e (lists.put head (a ++ b))
  | alone : lists e = some [] → Detached lists e (lists.drop e)

-- The list that was spliced has no valid head any more, unless there was nothing on it.
def spliced (lists : Lists N) (list head : N) (items joined : List N) : Lists N :=
  if items = [] then lists else (lists.drop list).put head joined

inductive Meaning : Lists N → Call N → Lists N → Prop where
  | init {lists : Lists N} : Loose lists e → Meaning lists (.init e) (lists.put e [])
  | add {lists : Lists N} : Loose lists new → new ≠ head → lists head = some nodes →
      Meaning lists (.add new head) ((lists.drop new).put head (new :: nodes))
  | addTail {lists : Lists N} : Loose lists new → new ≠ head → lists head = some nodes →
      Meaning lists (.addTail new head) ((lists.drop new).put head (nodes ++ [new]))
  | del {lists next : Lists N} : Detached lists e next → Meaning lists (.del e) next
  | delInit {lists next : Lists N} : Detached lists e next → Meaning lists (.delInit e) (next.put e [])
  | move {lists mid : Lists N} : Detached lists e mid → e ≠ head → mid head = some nodes →
      Meaning lists (.move e head) ((mid.drop e).put head (e :: nodes))
  | moveTail {lists mid : Lists N} : Detached lists e mid → e ≠ head → mid head = some nodes →
      Meaning lists (.moveTail e head) ((mid.drop e).put head (nodes ++ [e]))
  | splice {lists : Lists N} : lists list = some items → lists head = some nodes → list ≠ head →
      Meaning lists (.splice list head) (spliced lists list head items (items ++ nodes))
  | spliceTail {lists : Lists N} : lists list = some items → lists head = some nodes → list ≠ head →
      Meaning lists (.spliceTail list head) (spliced lists list head items (nodes ++ items))
  | spliceInit {lists : Lists N} : lists list = some items → lists head = some nodes → list ≠ head →
      Meaning lists (.spliceInit list head) ((spliced lists list head items (items ++ nodes)).put list [])
  | spliceTailInit {lists : Lists N} : lists list = some items → lists head = some nodes → list ≠ head →
      Meaning lists (.spliceTailInit list head) ((spliced lists list head items (nodes ++ items)).put list [])

inductive Meanings : Lists N → List (Call N) → Lists N → Prop where
  | nil : Meanings lists [] lists
  | cons : Meaning lists c mid → Meanings mid calls next → Meanings lists (c :: calls) next

variable {h k : Links N} {x p n e head list new : N} {nodes items a b : List N} {lists next mid : Lists N} {c : Call N}

theorem del_tie (after : h.next e = some n) (before : h.prev e = some p) : _listDel h e = some (h.tie p n) := by
  have again : (h.setPrev n (some p)).prev e = some p := by
    rw [setPrev_prev]
    split
    · rfl
    · exact before
  simp only [_listDel,storePrev,storeNext,after,before,Option.map_some,bind,Option.bind_some,again,setPrev_next]
  rfl

theorem add_tie (h : Links N) (new p n : N) :
    _listAdd h new (some p) (some n) = some ((h.tie new n).tie p new) := by
  simp only [_listAdd,storePrev,storeNext,Option.map_some,bind,Option.bind_some]
  rfl

theorem splice_tie {f l : N} (filled : h.next list ≠ some list) (first : h.next list = some f)
    (last : h.prev list = some l) : _listSplice h list (some p) (some n) = some ((h.tie p f).tie l n) := by
  have busy : listEmpty h list = false := by
    rw [listEmpty,decide_eq_false_iff_not]
    exact filled
  simp only [_listSplice,busy,storePrev,storeNext,first,last,Option.map_some,bind,Option.bind_some]
  rfl

-- _list_del leaves the entry on no list; it may be a head again, or be put elsewhere.
theorem detached (held : Holds h lists) (gone : Detached lists e mid) :
    ∃ k, _listDel h e = some k ∧ Holds k mid ∧ Loose mid e ∧ mid e = none := by
  cases gone with
  | member found =>
      rename_i head a b
      have turned := (held.ring head _ found).rotate
      obtain ⟨p,before,_⟩ := turned.prev_some
      obtain ⟨n,after,_⟩ := turned.next_some
      refine ⟨h.tie p n,del_tie after before,held.detach found before after,held.detach_loose found,?_⟩
      have headless := held.member_headless found (List.mem_append_right a List.mem_cons_self)
      have other : e ≠ head := by
        rintro rfl
        cases headless.symm.trans found
      rw [Lists.put,Function.update_of_ne other]
      exact headless
  | alone found =>
      have own := held.ring e [] found
      have same : h.tie e e = h := by
        ext1
        · exact Function.update_eq_self_iff.mpr own.next_nil.symm
        · exact Function.update_eq_self_iff.mpr own.prev_nil.symm
      refine ⟨h,?_,held.forget e,?_,Function.update_self ..⟩
      · rw [del_tie own.next_nil own.prev_nil,same]
      · intro y a now member
        rcases update_some now with ⟨_,impossible⟩ | ⟨differ,before⟩
        · cases impossible
        · exact absurd (held.only before found member List.mem_cons_self) differ

theorem added (held : Holds h lists) (loose : Loose lists new) (other : new ≠ head) (found : lists head = some nodes) :
    ∃ k, listAdd h new head = some k ∧ Holds k ((lists.drop new).put head (new :: nodes)) := by
  obtain ⟨n,after,_⟩ := (held.ring head nodes found).next_some
  refine ⟨(h.tie new n).tie head new,?_,held.insert loose other found after⟩
  rw [listAdd,after]
  exact add_tie h new head n

theorem added_tail (held : Holds h lists) (loose : Loose lists new) (other : new ≠ head)
    (found : lists head = some nodes) :
    ∃ k, listAddTail h new head = some k ∧ Holds k ((lists.drop new).put head (nodes ++ [new])) := by
  obtain ⟨p,before,_⟩ := (held.ring head nodes found).prev_some
  refine ⟨(h.tie new head).tie p new,?_,held.insert_tail loose other found before⟩
  rw [listAddTail,before]
  exact add_tie h new p head

-- The spliced head is on no list afterwards, so INIT_LIST_HEAD may follow.
theorem joined (held : Holds h lists) (from' : lists list = some items) (into : lists head = some nodes)
    (other : list ≠ head) :
    (∃ k, listSplice h list head = some k ∧ Holds k (spliced lists list head items (items ++ nodes))) ∧
      ∃ k, listSpliceTail h list head = some k ∧ Holds k (spliced lists list head items (nodes ++ items)) := by
  have source := held.ring list items from'
  have target := held.ring head nodes into
  obtain ⟨n,after,_⟩ := target.next_some
  obtain ⟨p,before,_⟩ := target.prev_some
  cases items with
  | nil =>
      have empty : listEmpty h list = true := decide_eq_true source.next_nil
      refine ⟨⟨h,?_,held⟩,⟨h,?_,held⟩⟩
      · rw [listSplice,_listSplice,if_pos empty]
      · rw [listSpliceTail,_listSplice,if_pos empty]
  | cons m rest =>
      obtain ⟨l,last,_⟩ := source.prev_some
      have filled : h.next list ≠ some list := fun same => List.cons_ne_nil m rest (source.empty_iff.mp same)
      refine ⟨⟨_,?_,held.splice from' into other last after⟩,⟨_,?_,held.splice_tail from' into other last before⟩⟩
      · rw [listSplice,after]
        exact splice_tie filled source.next_cons last
      · rw [listSpliceTail,before]
        exact splice_tie filled source.next_cons last

theorem spliced_loose (held : Holds h lists) (from' : lists list = some items) (into : lists head = some nodes)
    (other : list ≠ head) (joined : List N) (same : ∀ z, z ∈ joined ↔ z ∈ items ∨ z ∈ nodes) :
    Loose (spliced lists list head items joined) list := by
  cases items with
  | nil =>
      intro x a found member
      cases held.only found from' member List.mem_cons_self
      cases found.symm.trans from'
      exact ⟨rfl,rfl⟩
  | cons m rest => exact held.merge_loose from' into other same

theorem call_meaning (held : Holds h lists) (means : Meaning lists c next) :
    ∃ k, call h c = some k ∧ Holds k next := by
  cases means with
  | init loose => exact ⟨_,rfl,held.init loose⟩
  | add loose other found => exact added held loose other found
  | addTail loose other found => exact added_tail held loose other found
  | del gone =>
      rename_i e
      obtain ⟨k,ran,holds,loose,headless⟩ := detached held gone
      refine ⟨(k.setPrev e none).setNext e none,by rw [call,listDel,ran]; rfl,?_⟩
      apply holds.scratch loose headless
      intro z differ
      simp [differ]
  | delInit gone =>
      rename_i e mid
      obtain ⟨k,ran,holds,loose,_⟩ := detached held gone
      exact ⟨_,by rw [call,listDelInit,ran]; rfl,holds.init loose⟩
  | move gone other found =>
      obtain ⟨k,ran,holds,loose,_⟩ := detached held gone
      obtain ⟨k',put,holds'⟩ := added holds loose other found
      exact ⟨k',by rw [call,listMove,ran]; exact put,holds'⟩
  | moveTail gone other found =>
      obtain ⟨k,ran,holds,loose,_⟩ := detached held gone
      obtain ⟨k',put,holds'⟩ := added_tail holds loose other found
      exact ⟨k',by rw [call,listMoveTail,ran]; exact put,holds'⟩
  | splice from' into other => exact (joined held from' into other).1
  | spliceTail from' into other => exact (joined held from' into other).2
  | spliceInit from' into other =>
      obtain ⟨k,ran,holds⟩ := (joined held from' into other).1
      have loose := spliced_loose held from' into other _ (fun z => List.mem_append)
      exact ⟨_,by rw [call,listSpliceInit,ran]; rfl,holds.init loose⟩
  | spliceTailInit from' into other =>
      obtain ⟨k,ran,holds⟩ := (joined held from' into other).2
      have loose := spliced_loose held from' into other _ (fun z => List.mem_append.trans or_comm)
      exact ⟨_,by rw [call,listSpliceTailInit,ran]; rfl,holds.init loose⟩

-- Every run of calls that are used as they are meant.
theorem calls_refine {calls : List (Call N)} (held : Holds h lists) (means : Meanings lists calls next) :
    ∃ k, Sequence call h calls k ∧ Holds k next := by
  induction means generalizing h with
  | nil => exact ⟨h,.nil,held⟩
  | cons first _ ih =>
      obtain ⟨k,ran,holds⟩ := call_meaning held first
      obtain ⟨k',path,final⟩ := ih holds
      exact ⟨k',.cons ran path,final⟩

-- Memory that was never written, and no list yet.
def nulls : Links Nat := ⟨fun _ => none,fun _ => none⟩

theorem nulls_hold : Holds nulls (fun _ => none) := by
  refine ⟨?_,?_⟩
  · intro x a found
    cases found
  · intro x y a b found
    cases found

omit [DecidableEq N] in
theorem loose_none (e : N) : Loose (fun _ => none) e := by
  intro x a found
  cases found

theorem loose_put (loose : Loose lists e) (outside : e ∉ head :: nodes) : Loose (lists.put head nodes) e := by
  intro x a found member
  rcases update_some found with ⟨rfl,is⟩ | ⟨_,before⟩
  · cases is
    exact absurd member outside
  · exact loose x a before member

theorem loose_drop (loose : Loose lists e) (x : N) : Loose (lists.drop x) e := by
  intro y a found member
  rcases update_some found with ⟨_,impossible⟩ | ⟨_,before⟩
  · cases impossible
  · exact loose y a before member

theorem calls_refine_splice : ∃ k, Sequence call nulls [.init 0,.add 1 0,.init 2,.spliceTailInit 0 2] k ∧
    Ring k 2 [1] ∧ Ring k 0 [] := by
  have one : Loose (Lists.put (fun _ => none) 0 []) 1 := loose_put (loose_none 1) (by decide)
  have two : Loose (((Lists.put (fun _ => none) 0 []).drop 1).put 0 [1]) 2 :=
    loose_put (loose_drop (loose_put (loose_none 2) (by decide)) 1) (by decide)
  have from' : ((((Lists.put (fun _ => none) 0 []).drop 1).put 0 [1]).put 2 []) 0 = some [1] := rfl
  have into : ((((Lists.put (fun _ => none) 0 []).drop 1).put 0 [1]).put 2 []) 2 = some [] := rfl
  have joined := Meaning.spliceTailInit from' into (by decide)
  obtain ⟨k,path,holds⟩ := calls_refine nulls_hold
    (.cons (.init (loose_none 0)) (.cons (.add one (by decide) rfl) (.cons (.init two) (.cons joined .nil))))
  exact ⟨k,path,holds.ring 2 [1] rfl,holds.ring 0 [] rfl⟩

-- What the body of a loop comes to for one node.
inductive Flow (σ : Type) where
  | next (s : σ)
  | stop (s : σ)
  | fault

section Loops
variable {σ : Type} {links : σ → Links N} {body : N → σ → Flow σ} {s t : σ}

-- The body for the nodes of a list, one after the other.
def visit (body : N → σ → Flow σ) : List N → σ → Option σ
  | [],s => some s
  | x :: rest,s => match body x s with
    | .next s => visit body rest s
    | .stop s => some s
    | .fault => none

-- list_for_each and list_for_each_prev, which differ in the pointer that p follows.
-- A null p is not the head, and is followed.
def eachTurn (follow : σ → N → Option N) (body : N → σ → Flow σ) (head : N) :
    Option N × σ → Loop.Turn (Option N × σ) (Option σ)
  | (none,_) => .leave none
  | (some p,s) =>
      if p = head then .leave (some s)
      else match body p s with
        | .next s => .again (follow s p,s)
        | .stop s => .leave (some s)
        | .fault => .leave none

def Each (follow : σ → N → Option N) (body : N → σ → Flow σ) (head : N) (s : σ) (result : Option σ) : Prop :=
  Loop.Leaves (eachTurn follow body head) (follow s head,s) result

def ListForEach (links : σ → Links N) := Each (fun s => (links s).next)

def ListForEachPrev (links : σ → Links N) := Each (fun s => (links s).prev)

-- The _safe loops take n before the body runs, and step with p = n, n = p->next.
def safeTurn (follow : σ → N → Option N) (body : N → σ → Flow σ) (head : N) :
    N × Option N × σ → Loop.Turn (N × Option N × σ) (Option σ)
  | (p,n,s) =>
      if p = head then .leave (some s)
      else match body p s,n with
        | .next s,some p => .again (p,follow s p,s)
        | .next _,none => .leave none
        | .stop s,_ => .leave (some s)
        | .fault,_ => .leave none

def EachSafe (follow : σ → N → Option N) (body : N → σ → Flow σ) (head : N) (s : σ) (result : Option σ) : Prop :=
  match follow s head with
  | none => result = none
  | some p => Loop.Leaves (safeTurn follow body head) (p,follow s p,s) result

def ListForEachSafe (links : σ → Links N) := EachSafe (fun s => (links s).next)

def ListForEachPrevSafe (links : σ → Links N) := EachSafe (fun s => (links s).prev)

-- The loop has come to what is left of the list, and the body leaves the ring as it is.
theorem each_rest (kept : ∀ x ∈ nodes, ∀ s t, Ring (links s) head nodes → body x s = .next t → Ring (links t) head nodes)
    (ring : Ring (links s) head nodes) (seen : nodes = a ++ b) :
    Loop.Leaves (eachTurn (fun s => (links s).next) body head) ((b ++ [head]).head?,s) (visit body b s) := by
  induction b generalizing a s with
  | nil => exact .leave (by simp [eachTurn,visit])
  | cons x rest ih =>
      have inside : x ∈ nodes := seen ▸ List.mem_append_right a List.mem_cons_self
      have apart := ring.head_apart inside
      rw [List.cons_append,List.head?_cons,visit]
      cases turn : body x s with
      | next t =>
          have later := kept x inside s t ring turn
          have step : (links t).next x = (rest ++ [head]).head? := (seen ▸ later).next_node
          have onward := ih later (a := a ++ [x]) (by rw [seen,List.append_assoc]; rfl)
          rw [← step] at onward
          exact .again (by simp [eachTurn,apart,turn]) onward
      | stop t => exact .leave (by simp [eachTurn,apart,turn])
      | fault => exact .leave (by simp [eachTurn,apart,turn])

theorem each_visits (kept : ∀ x ∈ nodes, ∀ s t, Ring (links s) head nodes → body x s = .next t → Ring (links t) head nodes)
    (ring : Ring (links s) head nodes) : ListForEach links body head s (visit body nodes s) := by
  have all := each_rest kept ring (a := []) rfl
  rw [← ring.next_head] at all
  exact all

-- The body keeps the ring or takes its own node off, nothing else of it.
def OffOnly (links : σ → Links N) (body : N → σ → Flow σ) (head : N) : Prop :=
  ∀ a x b s t, Ring (links s) head (a ++ x :: b) → body x s = .next t →
    Ring (links t) head (a ++ x :: b) ∨ Ring (links t) head (a ++ b)

omit [DecidableEq N] in
theorem OffOnly.step (only : OffOnly links body head) (ring : Ring (links s) head (a ++ x :: b))
    (turn : body x s = .next t) : ∃ a', Ring (links t) head (a' ++ b) := by
  rcases only a x b s t ring turn with whole | less
  · refine ⟨a ++ [x],?_⟩
    rw [List.append_assoc]
    exact whole
  · exact ⟨a,less⟩

theorem safe_rest (only : OffOnly links body head) (ring : Ring (links s) head (a ++ x :: b)) :
    Loop.Leaves (safeTurn (fun s => (links s).next) body head) (x,(b ++ [head]).head?,s) (visit body (x :: b) s) := by
  induction b generalizing a x s with
  | nil =>
      have apart := ring.head_apart (List.mem_append_right a List.mem_cons_self)
      rw [visit]
      cases turn : body x s with
      | next t =>
          have back : safeTurn (fun s => (links s).next) body head (x,([] ++ [head]).head?,s) =
              .again (head,(links t).next head,t) := by simp [safeTurn,apart,turn]
          exact .again back (.leave (by simp [safeTurn,visit]))
      | stop t => exact .leave (by simp [safeTurn,apart,turn])
      | fault => exact .leave (by simp [safeTurn,apart,turn])
  | cons y rest ih =>
      have apart := ring.head_apart (List.mem_append_right a List.mem_cons_self)
      rw [visit]
      cases turn : body x s with
      | next t =>
          obtain ⟨a',later⟩ := only.step ring turn
          have onward := ih later
          rw [← later.next_node] at onward
          exact .again (by simp [safeTurn,apart,turn]) onward
      | stop t => exact .leave (by simp [safeTurn,apart,turn])
      | fault => exact .leave (by simp [safeTurn,apart,turn])

theorem safe_forward (only : OffOnly links body head) (ring : Ring (links s) head nodes) :
    ListForEachSafe links body head s (visit body nodes s) := by
  unfold ListForEachSafe EachSafe
  cases nodes with
  | nil =>
      simp only [ring.next_nil]
      exact .leave (by simp [safeTurn,visit])
  | cons x rest =>
      have first : (links s).next x = (rest ++ [head]).head? := Ring.next_node (a := []) ring
      simp only [ring.next_cons,first]
      exact safe_rest only (a := []) ring

omit [DecidableEq N] in
theorem OffOnly.swap (only : OffOnly links body head) : OffOnly (fun s => (links s).swap) body head := by
  intro a x b s t ring turn
  have back := ring.swap
  rw [List.reverse_append,List.reverse_cons,List.append_assoc] at back
  rcases only b.reverse x a.reverse s t back turn with whole | less
  · left
    have again := whole.swap
    rw [List.reverse_append,List.reverse_cons,List.reverse_reverse,List.reverse_reverse,List.append_assoc] at again
    exact again
  · right
    have again := less.swap
    rw [List.reverse_append,List.reverse_reverse,List.reverse_reverse] at again
    exact again

end Loops

-- A loop that takes the entries of a kind off their list.
def purge (del : Links N → N → Option (Links N)) (gone : N → Bool) (x : N) (h : Links N) : Flow (Links N) :=
  if gone x then match del h x with
    | some k => .next k
    | none => .fault
  else .next h

variable {gone : N → Bool}

omit [DecidableEq N] in
theorem purge_kept (del : Links N → N → Option (Links N)) (h : Links N) (stays : gone x = false) :
    purge del gone x h = .next h := by
  simp [purge,stays]

omit [DecidableEq N] in
theorem purge_gone (goes : gone x = true) (ran : del h x = some k) : purge del gone x h = .next k := by
  simp [purge,goes,ran]

theorem holds_single (ring : Ring h head nodes) : Holds h (Lists.put (fun _ => none) head nodes) := by
  refine ⟨?_,?_⟩
  · intro x a found
    rcases update_some found with ⟨rfl,is⟩ | ⟨_,impossible⟩
    · cases is
      exact ring
    · cases impossible
  · intro x y a b one two differ
    rcases update_some one with ⟨rfl,_⟩ | ⟨_,impossible⟩
    · rcases update_some two with ⟨rfl,_⟩ | ⟨_,impossible⟩
      · exact absurd rfl differ
      · cases impossible
    · cases impossible

-- _list_del stores into the ring only.
theorem del_frame (held : Holds h lists) (found : lists head = some (a ++ e :: b)) :
    ∃ k, _listDel h e = some k ∧ Holds k (lists.put head (a ++ b)) ∧ Loose (lists.put head (a ++ b)) e ∧
      lists.put head (a ++ b) e = none ∧
      ∀ z, z ∉ head :: (a ++ e :: b) → k.next z = h.next z ∧ k.prev z = h.prev z := by
  obtain ⟨k,ran,holds,loose,headless⟩ := detached held (.member found)
  refine ⟨k,ran,holds,loose,headless,?_⟩
  have turned := (held.ring head _ found).rotate
  obtain ⟨p,before,nearP⟩ := turned.prev_some
  obtain ⟨n,after,nearN⟩ := turned.next_some
  cases Option.some.inj ((del_tie after before).symm.trans ran)
  have around : ∀ z, z ∈ e :: (b ++ head :: a) → z ∈ head :: (a ++ e :: b) := by
    intro z member
    simp only [List.mem_cons,List.mem_append] at member ⊢
    tauto
  intro z outside
  apply tie_off
  · exact fun same => outside (same ▸ around p nearP)
  · exact fun same => outside (same ▸ around n nearN)

theorem del_off (held : Holds h lists) (found : lists head = some (a ++ e :: b)) :
    ∃ k, listDel h e = some k ∧ Holds k (lists.put head (a ++ b)) ∧ (k.next e = none ∧ k.prev e = none) ∧
      ∀ z, z ∉ head :: (a ++ e :: b) → k.next z = h.next z ∧ k.prev z = h.prev z := by
  obtain ⟨k,ran,holds,loose,headless,off⟩ := del_frame held found
  have elsewhere : ∀ z, z ≠ e → ((k.setPrev e none).setNext e none).next z = k.next z ∧
      ((k.setPrev e none).setNext e none).prev z = k.prev z := by
    intro z differ
    simp [differ]
  refine ⟨_,by rw [listDel,ran]; rfl,holds.scratch loose headless elsewhere,by simp,?_⟩
  intro z outside
  have differ : z ≠ e := by
    rintro rfl
    exact outside (List.mem_cons_of_mem _ (List.mem_append_right a List.mem_cons_self))
  rw [(elsewhere z differ).1,(elsewhere z differ).2]
  exact off z outside

theorem del_init_off (ring : Ring h head (a ++ e :: b)) :
    ∃ k, listDelInit h e = some k ∧ Ring k e [] := by
  have held := holds_single ring
  obtain ⟨k,ran,holds,loose,_⟩ := del_frame held (Function.update_self ..)
  exact ⟨_,by rw [listDelInit,ran]; rfl,(holds.init loose).ring e [] (Function.update_self ..)⟩

theorem del_init_self (ring : Ring h e []) : ∃ k, listDelInit h e = some k ∧ Ring k e [] := by
  refine ⟨_,?_,Ring.single (h.tie e e) e⟩
  rw [listDelInit,del_tie ring.next_nil ring.prev_nil]
  rfl

theorem purge_off (gone : N → Bool) (head : N) : OffOnly id (purge listDel gone) head := by
  intro a x b s t ring turn
  change Ring s head (a ++ x :: b) at ring
  by_cases goes : gone x = true
  · obtain ⟨k,ran,holds,_⟩ := del_off (holds_single ring) (Function.update_self ..)
    rw [purge_gone goes ran] at turn
    cases turn
    exact .inr (holds.ring head _ (Function.update_self ..))
  · rw [purge_kept _ _ (Bool.eq_false_iff.mpr goes)] at turn
    cases turn
    exact .inl ring

-- Both _safe loops come to every entry once, in their order, whichever the body takes off.
theorem safe_exact {σ : Type} {links : σ → Links N} {body : N → σ → Flow σ} {s : σ}
    (only : OffOnly links body head) (ring : Ring (links s) head nodes) :
    ListForEachSafe links body head s (visit body nodes s) ∧
      ListForEachPrevSafe links body head s (visit body nodes.reverse s) := by
  refine ⟨safe_forward only ring,?_⟩
  exact safe_forward only.swap ring.swap

-- Two of three entries are taken off, in either direction.
theorem safe_exact_purge : ∃ k : Links Nat, Ring k 2 [1,3,4] ∧
    (∃ t, ListForEachSafe id (purge listDel (fun x => x != 3)) 2 k t ∧
      t.map (fun t => (t.next 2,t.next 3)) = some (some 3,some 2)) ∧
    (∃ t, ListForEachPrevSafe id (purge listDel (fun x => x != 3)) 2 k t ∧
      t.map (fun t => (t.prev 2,t.prev 3)) = some (some 3,some 2)) := by
  have none' : Ring (nulls.tie 2 2) 2 [] := Ring.single nulls 2
  have one : Ring (((nulls.tie 2 2).tie 4 2).tie 2 4) 2 [4] := none'.insert none'.next_nil (by decide)
  have two := one.insert (m:=3) one.next_cons (by decide)
  have ring := two.insert (m:=1) two.next_cons (by decide)
  have only : OffOnly id (purge listDel (fun x => x != 3)) 2 := purge_off _ _
  obtain ⟨forward,backward⟩ := safe_exact only ring
  exact ⟨_,ring,⟨_,forward,rfl⟩,⟨_,backward,rfl⟩⟩

-- The entries that were taken off stay as list_del left them.
theorem purge_all (gone : N → Bool) (held : Holds h lists) (found : lists head = some (a ++ nodes)) :
    ∃ k, visit (purge listDel gone) nodes h = some k ∧
      Holds k (lists.put head (a ++ nodes.filter (fun x => !gone x))) ∧
      (∀ x ∈ nodes, gone x = true → k.next x = none ∧ k.prev x = none) ∧
      ∀ z, z ∉ head :: (a ++ nodes) → k.next z = h.next z ∧ k.prev z = h.prev z := by
  induction nodes generalizing h lists a with
  | nil =>
      refine ⟨h,rfl,?_,?_,fun _ _ => ⟨rfl,rfl⟩⟩
      · rw [List.filter_nil,Lists.put,← found,Function.update_eq_self]
        exact held
      · intro x member
        cases member
  | cons x rest ih =>
      by_cases goes : gone x = true
      · obtain ⟨k,ran,holds,cleared,off⟩ := del_off held found
        obtain ⟨k',visited,final,nulls,off'⟩ := ih (a := a) holds (Function.update_self ..)
        have out : x ∉ head :: (a ++ rest) := by
          have ring := (held.ring head _ found).rotate
          intro member
          apply (List.nodup_cons.mp ring.distinct).1
          simp only [List.mem_cons,List.mem_append] at member ⊢
          tauto
        refine ⟨k',?_,?_,?_,?_⟩
        · rw [visit,purge_gone goes ran]
          exact visited
        · rw [Lists.put,Lists.put,Function.update_idem] at final
          rw [List.filter_cons_of_neg (by simpa using goes)]
          exact final
        · intro y member goes'
          rcases List.mem_cons.mp member with rfl | later
          · rw [(off' y out).1,(off' y out).2]
            exact cleared
          · exact nulls y later goes'
        · intro z outside
          have less : z ∉ head :: (a ++ rest) := by
            intro member
            apply outside
            simp only [List.mem_cons,List.mem_append] at member ⊢
            tauto
          rw [(off' z less).1,(off' z less).2]
          exact off z outside
      · have stays := Bool.eq_false_iff.mpr goes
        have shape : a ++ x :: rest = (a ++ [x]) ++ rest := by rw [List.append_assoc]; rfl
        obtain ⟨k,visited,final,nulls,off⟩ := ih (a := a ++ [x]) held (by rw [← shape]; exact found)
        refine ⟨k,?_,?_,?_,?_⟩
        · rw [visit,purge_kept _ _ stays]
          exact visited
        · rw [List.filter_cons_of_pos (by simpa using stays)]
          rw [List.append_assoc] at final
          exact final
        · intro y member goes'
          rcases List.mem_cons.mp member with rfl | later
          · exact absurd goes' goes
          · exact nulls y later goes'
        · rw [shape]
          exact off

-- Up to the first entry of the kind the plain loop changes nothing.
theorem purge_reaches (del : Links N → N → Option (Links N)) (b nodes : List N) (ring : Ring h head (a ++ b ++ nodes))
    (stay : ∀ x ∈ b, gone x = false) :
    Loop.Reaches (eachTurn (fun s => s.next) (purge del gone) head) ((b ++ nodes ++ [head]).head?,h)
      ((nodes ++ [head]).head?,h) := by
  induction b generalizing a with
  | nil => exact .refl _
  | cons x rest ih =>
      obtain ⟨stays,later⟩ := List.forall_mem_cons.mp stay
      have shape : a ++ x :: rest ++ nodes = (a ++ [x]) ++ rest ++ nodes := by simp
      have apart : x ≠ head := ring.head_apart (by simp)
      have step : h.next x = (rest ++ nodes ++ [head]).head? := by
        have here : Ring h head (a ++ x :: (rest ++ nodes)) := by simpa using ring
        exact here.next_node
      have turn : eachTurn (fun s => s.next) (purge del gone) head (some x,h) = .again (h.next x,h) := by
        simp [eachTurn,apart,purge_kept del h stays]
      refine .step turn ?_
      rw [step]
      exact ih (shape ▸ ring) later

theorem purge_untouched (del : Links N → N → Option (Links N)) (ring : Ring h head nodes) (none' : nodes.any gone = false) :
    ListForEach id (purge del gone) head h (some h) := by
  have stay : ∀ x ∈ nodes, gone x = false := by simpa using none'
  have path := purge_reaches (a := []) del nodes [] (by simpa using ring) stay
  have start : h.next head = (nodes ++ [] ++ [head]).head? := by simpa using ring.next_head
  show Loop.Leaves _ (h.next head,h) _
  rw [start]
  exact path.leaves (.leave (by simp [eachTurn]))

omit [DecidableEq N] in
theorem purge_first (some' : nodes.any gone = true) :
    ∃ b x rest, nodes = b ++ x :: rest ∧ gone x = true ∧ ∀ y ∈ b, gone y = false := by
  induction nodes with
  | nil => cases some'
  | cons x rest ih =>
      by_cases goes : gone x = true
      · exact ⟨[],x,rest,rfl,goes,fun y member => by cases member⟩
      · have stays := Bool.eq_false_iff.mpr goes
        rw [List.any_cons,stays,Bool.false_or] at some'
        obtain ⟨b,y,later,rfl,goes',stay⟩ := ih some'
        exact ⟨x :: b,y,later,rfl,goes',List.forall_mem_cons.mpr ⟨stays,stay⟩⟩

theorem purge_arrives (del : Links N → N → Option (Links N)) (ring : Ring h head (b ++ x :: rest))
    (stay : ∀ y ∈ b, gone y = false) :
    Loop.Reaches (eachTurn (fun s => s.next) (purge del gone) head) (h.next head,h) (some x,h) := by
  have path := purge_reaches (a := []) del b (x :: rest) (by simpa using ring) stay
  have start : h.next head = (b ++ x :: rest ++ [head]).head? := ring.next_head
  rw [← start] at path
  exact path

-- list_del leaves p without a next.
theorem purge_faults (ring : Ring h head nodes) (some' : nodes.any gone = true) :
    ListForEach id (purge listDel gone) head h none := by
  obtain ⟨b,x,rest,rfl,goes,stay⟩ := purge_first some'
  have apart := ring.head_apart (List.mem_append_right b List.mem_cons_self)
  obtain ⟨k,ran,_,cleared,_⟩ := del_off (holds_single ring) (Function.update_self ..)
  have turn : eachTurn (fun s => s.next) (purge listDel gone) head (some x,h) = .again (none,k) := by
    simp [eachTurn,apart,purge_gone goes ran,cleared.1]
  exact (purge_arrives listDel ring stay).leaves (.again turn (.leave rfl))

-- list_del_init leaves p at itself.
theorem purge_stuck (ring : Ring h x []) (apart : x ≠ head) (goes : gone x = true) (result : Option (Links N)) :
    ¬ Loop.Leaves (eachTurn (fun s => s.next) (purge listDelInit gone) head) (some x,h) result := by
  intro leaves
  generalize at' : ((some x,h) : Option N × Links N) = s at leaves
  induction leaves generalizing h with
  | leave turn =>
      cases at'
      obtain ⟨k,ran,_⟩ := del_init_self ring
      simp [eachTurn,apart,purge_gone goes ran] at turn
  | again turn _ ih =>
      cases at'
      obtain ⟨k,ran,alone⟩ := del_init_self ring
      simp only [eachTurn,apart,if_false,purge_gone goes ran,alone.next_nil,Loop.Turn.again.injEq] at turn
      exact ih alone turn

theorem purge_endless (ring : Ring h head nodes) (some' : nodes.any gone = true) (result : Option (Links N)) :
    ¬ ListForEach id (purge listDelInit gone) head h result := by
  obtain ⟨b,x,rest,rfl,goes,stay⟩ := purge_first some'
  have apart := ring.head_apart (List.mem_append_right b List.mem_cons_self)
  obtain ⟨k,ran,alone⟩ := del_init_off ring
  intro leaves
  have there := Loop.Leaves.rest leaves (purge_arrives listDelInit ring stay)
  have turn : eachTurn (fun s => s.next) (purge listDelInit gone) head (some x,h) = .again (some x,k) := by
    simp [eachTurn,apart,purge_gone goes ran,alone.next_nil]
  have again := Loop.Leaves.rest there (.step turn (.refl _))
  exact purge_stuck alone apart goes result again

-- Only the _safe loop may take entries off: behind list_del the plain one follows a null
-- pointer, behind list_del_init it does not end.
theorem purge_exact (held : Holds h lists) (found : lists head = some nodes) (gone : N → Bool) :
    (∃ k, ListForEachSafe id (purge listDel gone) head h (some k) ∧
        Holds k (lists.put head (nodes.filter (fun x => !gone x))) ∧
        ∀ x ∈ nodes, gone x = true → k.next x = none ∧ k.prev x = none) ∧
      (∀ result, ListForEach id (purge listDel gone) head h result ↔
        result = if nodes.any gone then none else some h) ∧
      ∀ result, ListForEach id (purge listDelInit gone) head h result ↔
        nodes.any gone = false ∧ result = some h := by
  have ring := held.ring head nodes found
  refine ⟨?_,?_,?_⟩
  · obtain ⟨k,visited,final,nulls,_⟩ := purge_all (a := []) gone held found
    refine ⟨k,?_,final,nulls⟩
    rw [← visited]
    exact safe_forward (purge_off gone head) ring
  · intro result
    cases some' : nodes.any gone with
    | false =>
        have ends := purge_untouched listDel ring some'
        exact ⟨fun leaves => Loop.leaves_unique leaves ends,fun is => is ▸ ends⟩
    | true =>
        have ends := purge_faults ring some'
        exact ⟨fun leaves => Loop.leaves_unique leaves ends,fun is => is ▸ ends⟩
  · intro result
    cases some' : nodes.any gone with
    | false =>
        have ends := purge_untouched listDelInit ring some'
        exact ⟨fun leaves => ⟨rfl,Loop.leaves_unique leaves ends⟩,fun is => is.2 ▸ ends⟩
    | true =>
        refine iff_of_false (purge_endless ring some' result) ?_
        rintro ⟨impossible,_⟩
        cases impossible

theorem purge_exact_one : ∃ k : Links Nat, Ring k 2 [1] ∧
    ListForEach id (purge listDel (fun x => x == 1)) 2 k none ∧
    ∀ result, ¬ ListForEach id (purge listDelInit (fun x => x == 1)) 2 k result := by
  have ring : Ring (nulls.tie 2 2) 2 [] := Ring.single nulls 2
  have ring : Ring (((nulls.tie 2 2).tie 1 2).tie 2 1) 2 [1] := ring.insert ring.next_nil (by decide)
  obtain ⟨_,plain,endless⟩ := purge_exact (holds_single ring) (Function.update_self ..) (fun x => x == 1)
  refine ⟨_,ring,(plain none).mpr rfl,fun result leaves => ?_⟩
  cases ((endless result).mp leaves).1

end PersonalJournal.ListHead
