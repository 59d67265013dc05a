import PersonalJournal.Dns.Publication

namespace PersonalJournal.LockBalance
open Nat64 Answer Transition Ownership Resolver Publication

-- socket_gethostbyname as the header offers it: any number of calls on any threads, each
-- with its own arguments. A Worker is such a call here, and its `call` and `server`, which
-- only th_gethostbyname knows, say nothing.
structure State where
  shared : Shared
  calls : List Worker

def entering (args : MultiDns) : Worker := ⟨0,.first,.empty,.entered args⟩

-- The call is over where th_socket_gethostbyname would look at its result.
def returned : Pc → Bool
  | .failLocking => true
  | .failCounting => true
  | .failUnlocking => true
  | .ended _ => true
  | _ => false

inductive Action where
  | call (args : MultiDns)
  | program (ipinfo : Nat) (content : SocketIpinfo)
  | during (i : Nat) (event : Event)

def step (s : State) : Action → Option State
  | .call args => some {s with calls := s.calls ++ [entering args]}
  | .program ipinfo content => some {s with shared := s.shared.put ipinfo content}
  | .during i event => do
      let w ← s.calls[i]?
      if returned w.pc then none
      else
        let (shared,w) ← workerStep s.shared w event
        return ⟨shared,s.calls.set i w⟩

-- dnsquery_mutex has been initialised.
def initial (tables : Nat → SocketIpinfo) : State := ⟨(Resolver.initial tables).toShared,[]⟩

-- The call has the lock and has not returned.
def Within (w : Worker) : Prop := inside w.pc = true ∧ returned w.pc = false

-- The mutex is free when no call is behind it, so that a call which has to wait for it
-- waits for one that is still running.
structure Balanced (s : State) : Prop where
  unlocked : (∀ w ∈ s.calls, ¬ Within w) → s.shared.dnsquery_mutex = false
  waits : ∀ w ∈ s.calls, ∀ ipinfo, w.pc = .locking ipinfo → s.shared.dnsquery_mutex = true → ∃ v ∈ s.calls, Within v

-- No call comes to the end of its collection with an address in the table: `break` is taken.
def Breaks (s : State) (action : Action) (_ : State) : Prop :=
  ∀ i w ipinfo, action = .during i .go → s.calls[i]? = some w → w.pc = .collecting ipinfo [] →
    (s.shared.tables ipinfo).size ≤ 0

def Inside (w : Worker) : Prop := inside w.pc = true

-- A call that returns 0 keeps the lock.
structure Locked (s : State) (owner : Option Nat) : Prop where
  owns : Owner Inside s.calls owner
  mutex : s.shared.dnsquery_mutex = owner.isSome

theorem initial_locked (tables : Nat → SocketIpinfo) : Locked (initial tables) none :=
  ⟨⟨fun i w found => by simp [initial] at found,fun i is => by cases is⟩,rfl⟩

theorem during_cases (taken : step s (.during i event) = some t) :
    ∃ w shared v, s.calls[i]? = some w ∧ returned w.pc = false ∧ Moves s.shared w event shared v ∧
      t = ⟨shared,s.calls.set i v⟩ := by
  simp only [step,Option.bind_eq_bind,Option.bind_eq_some_iff] at taken
  obtain ⟨w,found,taken⟩ := taken
  split at taken
  · cases taken
  · rename_i running
    obtain ⟨⟨shared,v⟩,moved,same⟩ := Option.bind_eq_some_iff.mp taken
    cases same
    exact ⟨w,shared,v,found,by simpa using running,workerStep_moves moved,rfl⟩

theorem unlocking_moves (place : w.pc = .unlocking) (moves : Moves s w event t v) : t = {s with dnsquery_mutex := false} := by
  cases moves with
  | unlocked => rfl
  | _ => simp_all

-- The end of the collection: the call succeeds when there is an address, and only here.
theorem collected_moves (place : w.pc = .collecting ipinfo []) (moves : Moves s w event t v) :
    v.pc = .ended 0 ↔ 0 < (s.tables ipinfo).size := by
  cases moves with
  | found place' full =>
      cases place.symm.trans place'
      exact iff_of_true rfl full
  | empty place' none =>
      cases place.symm.trans place'
      exact iff_of_false Pc.noConfusion (Int.not_lt.mpr none)
  | _ => simp_all

theorem success_moves (moves : Moves s w event t v) (ended : v.pc = .ended 0) :
    event = .go ∧ ∃ ipinfo, w.pc = .collecting ipinfo [] := by
  cases moves with
  | found place => exact ⟨rfl,_,place⟩
  | _ => simp at ended

theorem during_locked (locked : Locked s owner) (found : s.calls[i]? = some w) (moves : Moves s.shared w event shared v) :
    ∃ owner, Locked ⟨shared,s.calls.set i v⟩ owner := by
  obtain ⟨owns,mutex⟩ := locked
  rcases moves_lock moves with ⟨out,out',_,same⟩ | ⟨free,taken,ipinfo,now⟩ | ⟨within,within',same⟩ | ⟨place,out,_⟩
  · refine ⟨owner,owns.keep found ?_,by rw [same,mutex]⟩
    simp only [Inside,out,out']
  · have none : owner = none := by
      rw [free] at mutex
      exact Option.isSome_eq_false_iff.mp mutex.symm |> Option.isNone_iff_eq_none.mp
    rw [none] at owns
    refine ⟨some i,owns.acquire found ?_,by rw [taken]; rfl⟩
    rw [now]
    rfl
  · refine ⟨owner,owns.keep found ?_,by rw [same,mutex]⟩
    simp only [Inside,within,within']
  · have mine : owner = some i := (owns.only i w found).mp (by simp [Inside,place,inside])
    rw [mine] at owns
    exact ⟨none,owns.release (by simp [Inside,out]),by rw [unlocking_moves place moves]; rfl⟩

theorem step_locked (locked : Locked s owner) (taken : step s action = some t) : ∃ owner, Locked t owner := by
  cases action with
  | call args =>
      cases taken
      exact ⟨owner,locked.owns.join (by simp [Inside,entering,inside]),locked.mutex⟩
  | program ipinfo content =>
      cases taken
      exact ⟨owner,locked.owns,locked.mutex⟩
  | during i event =>
      obtain ⟨w,shared,v,found,_,moves,rfl⟩ := during_cases taken
      exact during_locked locked found moves

-- Calls that have returned so far have returned -1.
def Failed (s : State) : Prop := ∀ w ∈ s.calls, w.pc ≠ .ended 0

theorem inside_within (within : Inside w) (unended : w.pc ≠ .ended 0) : Within w := by
  refine ⟨within,?_⟩
  unfold Inside inside at within
  cases place : w.pc <;> simp_all [returned]

theorem balanced_exact (locked : Locked s owner) : Balanced s ↔ Failed s := by
  obtain ⟨owns,mutex⟩ := locked
  constructor
  · intro balanced w member ended
    obtain ⟨i,found⟩ := List.getElem?_of_mem member
    have mine : owner = some i := (owns.only i w found).mp (by simp [Inside,ended,inside])
    have alone : ∀ v ∈ s.calls, ¬ Within v := by
      intro v member' within
      obtain ⟨j,found'⟩ := List.getElem?_of_mem member'
      have yours := (owns.only j v found').mp within.1
      cases mine.symm.trans yours
      cases found.symm.trans found'
      simp [Within,ended,returned] at within
    have free := balanced.unlocked alone
    rw [mutex,mine] at free
    cases free
  · intro failed
    have held : s.shared.dnsquery_mutex = true → ∃ v ∈ s.calls, Within v := by
      intro taken
      rw [mutex] at taken
      obtain ⟨i,is⟩ := Option.isSome_iff_exists.mp taken
      have near := owns.inside i is
      have found := List.getElem?_eq_getElem near
      exact ⟨_,List.getElem_mem near,inside_within ((owns.only i _ found).mpr is) (failed _ (List.getElem_mem near))⟩
    refine ⟨fun alone => ?_,fun _ _ _ _ => held⟩
    by_contra taken
    obtain ⟨v,member,within⟩ := held (by simpa using taken)
    exact alone v member within

theorem step_failed (failed : Failed s) (taken : step s action = some t) : Failed t ↔ Breaks s action t := by
  cases action with
  | call args =>
      cases taken
      refine iff_of_true (fun w member => ?_) (fun _ _ _ same => by cases same)
      rcases List.mem_append.mp member with old | new
      · exact failed w old
      · rw [List.mem_singleton.mp new]
        exact Pc.noConfusion
  | program ipinfo content =>
      cases taken
      exact iff_of_true failed (fun _ _ _ same => by cases same)
  | during i event =>
      obtain ⟨w,shared,v,found,running,moves,rfl⟩ := during_cases taken
      obtain ⟨near,_⟩ := List.getElem?_eq_some_iff.mp found
      constructor
      · intro failed' j u ipinfo same found' place
        cases same
        cases found.symm.trans found'
        by_contra full
        have ended := (collected_moves place moves).mpr (by omega)
        exact failed' v (List.mem_set near v) ended
      · intro breaks u member ended
        rcases List.mem_or_eq_of_mem_set member with old | rfl
        · exact failed u old ended
        · obtain ⟨rfl,ipinfo,place⟩ := success_moves moves ended
          have full := (collected_moves place moves).mp ended
          exact absurd (breaks i w ipinfo rfl found place) (Int.not_le.mpr full)

structure Kept (s : State) : Prop where
  locked : ∃ owner, Locked s owner
  failed : Failed s

theorem initial_kept (tables : Nat → SocketIpinfo) : Kept (initial tables) :=
  ⟨⟨none,initial_locked tables⟩,fun _ member => absurd member List.not_mem_nil⟩

theorem step_balanced (kept : Kept s) (taken : step s action = some t) : Balanced t ↔ Breaks s action t := by
  obtain ⟨⟨_,locked⟩,failed⟩ := kept
  obtain ⟨_,locked'⟩ := step_locked locked taken
  exact (balanced_exact locked').trans (step_failed failed taken)

theorem step_kept (kept : Kept s) (taken : step s action = some t) (breaks : Breaks s action t) : Kept t := by
  obtain ⟨_,locked⟩ := kept.locked
  exact ⟨step_locked locked taken,(step_failed kept.failed taken).mpr breaks⟩

theorem lock_balanced (tables : Nat → SocketIpinfo) (actions : List Action) (s : State) :
    Along step (fun _ _ t => Balanced t) (initial tables) actions s ↔ Along step Breaks (initial tables) actions s := by
  constructor
  · intro along
    exact along.imp (fun _ _ _ kept taken balanced => step_kept kept taken ((step_balanced kept taken).mp balanced))
      (fun _ _ _ kept taken => (step_balanced kept taken).mp) (initial_kept tables)
  · intro along
    exact along.imp (fun _ _ _ kept taken breaks => step_kept kept taken breaks)
      (fun _ _ _ kept taken => (step_balanced kept taken).mpr) (initial_kept tables)

-- Nobody gives back the lock of a call that has returned.
theorem kept_forever (locked : s.shared.dnsquery_mutex = true) (alone : ∀ w ∈ s.calls, ¬ Within w)
    (path : Sequence step s actions t) : t.shared.dnsquery_mutex = true := by
  have both := path.preserves (I:=fun s => s.shared.dnsquery_mutex = true ∧ ∀ w ∈ s.calls, ¬ Within w) ?_ ⟨locked,alone⟩
  · exact both.1
  · intro s action t kept taken
    obtain ⟨locked,alone⟩ := kept
    cases action with
    | call args =>
        cases taken
        refine ⟨locked,fun w member => ?_⟩
        rcases List.mem_append.mp member with old | new
        · exact alone w old
        · rw [List.mem_singleton.mp new]
          simp [Within,entering,inside]
    | program ipinfo content =>
        cases taken
        exact ⟨locked,alone⟩
    | during i event =>
        obtain ⟨w,shared,v,found,running,moves,rfl⟩ := during_cases taken
        have out : inside w.pc = false := by
          by_contra within
          exact alone w (List.mem_of_getElem? found) ⟨by simpa using within,running⟩
        rcases moves_lock moves with ⟨_,out',_,same⟩ | ⟨free,_⟩ | ⟨within,_⟩ | ⟨place,_⟩
        · refine ⟨same.trans locked,fun u member => ?_⟩
          rcases List.mem_or_eq_of_mem_set member with old | rfl
          · exact alone u old
          · simp [Within,out']
        · rw [locked] at free
          cases free
        · rw [out] at within
          cases within
        · rw [place] at out
          cases out

def args0 : MultiDns := ⟨0,0,3000,some "2001:67c:27e4::60"⟩

def oneAddress : Reply := ⟨[some address1],by decide⟩

-- One call gets its address and returns. The next one waits for the lock.
def twoLookups : List Action :=
  .call args0 :: ([.socket true,.go,.sendto true,.receive (some oneAddress),.go,.go,.go,.go].map (.during 0)) ++
    .call ⟨1,1,3000,some "2001:67c:27e4::60"⟩ :: ([.socket true,.go,.sendto true,.receive (some oneAddress)].map (.during 1))

theorem success_keeps_lock : ∃ s, Sequence step (initial blank) twoLookups s ∧
    s.calls.map (·.pc) = [.ended 0,.locking 1] ∧
    (∀ actions t, Sequence step s actions t → t.shared.dnsquery_mutex = true) ∧
    ¬ Along step (fun _ _ t => Balanced t) (initial blank) twoLookups s := by
  obtain ⟨s,path⟩ := run_reaches (show (run step (initial blank) twoLookups).isSome by decide)
  have places := path.tested (fun s => decide (s.calls.map (·.pc) = [.ended 0,.locking 1])) (by decide)
  have taken := path.tested (fun s => s.shared.dnsquery_mutex) (by decide)
  simp only [decide_eq_true_eq] at places
  have alone : ∀ w ∈ s.calls, ¬ Within w := by
    intro w member within
    have place := List.mem_map_of_mem (f:=(·.pc)) member
    rw [places] at place
    rcases List.mem_cons.mp place with ended | last
    · simp [Within,ended,returned] at within
    · simp [Within,List.mem_singleton.mp last,inside] at within
  refine ⟨s,path,places,fun actions t later => kept_forever taken alone later,?_⟩
  intro along
  have split : twoLookups = twoLookups.dropLast ++ [.during 1 (.receive (some oneAddress))] := rfl
  rw [split] at along
  obtain ⟨m,_,_,balanced⟩ := along.last
  have free := balanced.unlocked alone
  rw [taken] at free
  cases free

end PersonalJournal.LockBalance
