import Mathlib.Data.List.Nodup
import PersonalJournal.Dns.Resolver

namespace PersonalJournal.ServerChoice
open Transition Resolver

variable {i : Nat} {w v : Worker}

def assigned : Caller → Option Server
  | .assign .first => none
  | .assign .second => some .first
  | .assign .third => some .second
  | .create k => some k
  | .pollSize => some .third
  | .pollFail => some .third
  | .returned _ => some .third
  | _ => none

def dueFrom : Server → List Server
  | .first => [.first,.second,.third]
  | .second => [.second,.third]
  | .third => [.third]

def due : Caller → List Server
  | .assign k => dueFrom k
  | .create k => dueFrom k
  | .pollSize => []
  | .pollFail => []
  | .returned _ => []
  | _ => dueFrom .first

-- The address the thread has taken for its query.
def address : Pc → Option (Option String)
  | .reading got => got.dnsserver
  | .entered args => some args.dnsserver
  | .preparing args => some args.dnsserver
  | .sending args _ => some args.dnsserver
  | .awaiting args _ => some args.dnsserver
  | _ => none

-- A thread reads the record before it is freed, and its server before
-- th_gethostbyname writes the next one.
def InTime (s : State) (action : CallAction) (_ : State) : Prop :=
  ∀ i field garbage w, action = .worker i (.read field garbage) → s.workers[i]? = some w →
    s.freed = false ∧ (field = .dnsserver → assigned s.caller = some w.server)

structure ServesOwn (s : State) (i : Nat) (event : Event) (w : Worker) : Prop where
  record : ∀ field garbage, event = .read field garbage → s.freed = false
  argument : ∀ garbage, event = .read .dnsserver garbage →
    (s.source w garbage).dnsserver = some w.server.address
  query : ∀ args attempt sent, w.pc = .sending args attempt → event = .sendto sent →
    args.dnsserver = some w.server.address

def Serves (s : State) (action : CallAction) (_ : State) : Prop :=
  ∀ i event w, action = .worker i event → s.workers[i]? = some w → ServesOwn s i event w

def served (s : State) : List Server := s.workers.filterMap (fun w => if w.call = s.call then some w.server else none)

structure Assigning (s : State) : Prop where
  earlier : ∀ w ∈ s.workers, w.call ≠ s.call → ∃ ret, w.pc = .ended ret
  record : ∀ k, assigned s.caller = some k → s.record.dnsserver = some k.address
  begun : ∀ w ∈ s.workers, w.call = s.call → (assigned s.caller).isSome ∧ w.server ∉ due s.caller
  distinct : (served s).Nodup

def Taken (s : State) : Prop :=
  ∀ w ∈ s.workers, w.call = s.call → ∀ a, address w.pc = some a → a = some w.server.address

theorem address_injective {k l : Server} (same : k.address = l.address) : k = l := by
  cases k <;> cases l <;> first | rfl | exact absurd same (by decide)

theorem assigned_after (k : Server) : assigned k.after = some k := by cases k <;> rfl

theorem due_after (k : Server) : k ∉ due k.after := by cases k <;> decide

theorem due_shrinks (k : Server) (later : l ∈ due k.after) : l ∈ dueFrom k := by
  cases k <;> cases l <;> revert later <;> decide

theorem due_self (k : Server) : k ∈ dueFrom k := by cases k <;> decide

theorem entered_assigning (entered : Entered s) : Assigning s where
  earlier := fun w member _ => (entered.earlier w member).2
  record := fun k is => by rw [entered.caller] at is; cases is
  begun := fun w member same => absurd same (entered.earlier w member).1
  distinct := by
    have none' : served s = [] := List.filterMap_eq_nil_iff.mpr (fun w member => if_neg (entered.earlier w member).1)
    rw [none']
    exact List.nodup_nil

theorem caller_assigning (assigning : Assigning s) (advances : Advances s t) : Assigning t := by
  obtain ⟨earlier,record,begun,distinct⟩ := assigning
  have unstarted : assigned s.caller = none → ∀ w ∈ s.workers, w.call ≠ s.call := by
    intro none' w member same
    have some' := (begun w member same).1
    rw [none'] at some'
    cases some'
  cases advances with
  | initMutex place | initMutex1 place | fill place =>
      exact ⟨earlier,fun k is => (by cases is),
        fun w member same => absurd same (unstarted (by rw [place]; rfl) w member),distinct⟩
  | @assign k place =>
      refine ⟨earlier,fun l is => by cases is; rfl,fun w member same => ⟨rfl,?_⟩,distinct⟩
      have absent := (begun w member same).2
      rwa [place] at absent
  | @created k place =>
      have written : s.record.dnsserver = some k.address := record k (by rw [place]; rfl)
      refine ⟨EarlierEnded.created earlier k,fun l is => ?_,?_,?_⟩
      · rw [assigned_after] at is
        cases is
        exact written
      · intro w member same
        refine ⟨by rw [assigned_after]; rfl,?_⟩
        rcases List.mem_append.mp member with old | new
        · have absent := (begun w old same).2
          rw [place] at absent
          exact fun later => absent (due_shrinks k later)
        · rw [List.mem_singleton] at new
          subst new
          exact due_after k
      · have new : served {s with workers := s.workers ++ [⟨s.call,k,.empty,.reading .unread⟩],caller := k.after} =
            served s ++ [k] := by simp [served]
        rw [new]
        refine List.nodup_append.mpr ⟨distinct,List.nodup_singleton k,?_⟩
        intro l old m last equal
        rw [List.mem_singleton] at last
        obtain ⟨w,member,is⟩ := List.mem_filterMap.mp old
        split at is
        · rename_i same
          cases is
          have absent := (begun w member same).2
          rw [place] at absent
          exact absent ((equal.trans last) ▸ due_self k)
        · cases is
  | @uncreated k place =>
      refine ⟨earlier,fun l is => ?_,fun w member same => ⟨by rw [assigned_after]; rfl,?_⟩,distinct⟩
      · rw [assigned_after] at is
        cases is
        exact record k (by rw [place]; rfl)
      · have absent := (begun w member same).2
        rw [place] at absent
        exact fun later => absent (due_shrinks k later)
  | found place | missed place | failed place | waits place =>
      exact ⟨earlier,fun k is => record k (by rw [place]; exact is),fun w member same => ⟨rfl,List.not_mem_nil⟩,distinct⟩

theorem filterMap_set {f : Worker → Option Server} {l : List Worker} (found : l[i]? = some w) (same : f v = f w) :
    (l.set i v).filterMap f = l.filterMap f := by
  induction l generalizing i with
  | nil => rfl
  | cons head rest ih =>
      cases i with
      | zero =>
          cases Option.some.inj found
          simp only [List.set_cons_zero,List.filterMap_cons,same]
      | succ i => simp only [List.set_cons_succ,List.filterMap_cons,ih (by simpa using found)]

theorem worker_assigning (assigning : Assigning s) (found : s.workers[i]? = some w)
    (moves : Moves s.toShared w event shared v) :
    Assigning {s with toShared := shared,workers := s.workers.set i v} := by
  obtain ⟨call,server,call',record',_⟩ := moves.same
  obtain ⟨earlier,record,begun,distinct⟩ := assigning
  have member := List.mem_of_getElem? found
  refine ⟨EarlierEnded.moved earlier found moves,fun k is => ?_,?_,?_⟩
  · rw [record']
    exact record k is
  · intro u there same
    rw [call'] at same
    rcases List.mem_or_eq_of_mem_set there with old | rfl
    · exact begun u old same
    · rw [server]
      exact begun w member (call ▸ same)
  · have kept : served {s with toShared := shared,workers := s.workers.set i v} = served s := by
      simp only [served,call']
      exact filterMap_set found (by rw [call,server])
    rw [kept]
    exact distinct

theorem callStep_assigning (assigning : Assigning s) (taken : callStep s action = some t) : Assigning t := by
  cases action with
  | caller created => exact caller_assigning assigning (callerStep_advances taken)
  | worker i event =>
      obtain ⟨w,shared,v,found,moves,rfl⟩ := callStep_worker taken
      exact worker_assigning assigning found moves

-- An address is taken by reading the record, and is only passed on after that.
theorem moves_address (moves : Moves s w event t v) (known : address v.pc = some a) :
    address w.pc = some a ∨ ∃ garbage, event = .read .dnsserver garbage ∧ a = (s.source w garbage).dnsserver := by
  cases moves with
  | @read got garbage field more place read =>
      cases field with
      | host =>
          simp only [Arguments.read] at read
          split at read <;> cases read
          exact .inl (by rw [place]; exact known)
      | ipinfo =>
          simp only [Arguments.read] at read
          split at read <;> cases read
          exact .inl (by rw [place]; exact known)
      | timeout =>
          simp only [Arguments.read] at read
          split at read <;> cases read
          exact .inl (by rw [place]; exact known)
      | dnsserver =>
          simp only [Arguments.read] at read
          split at read <;> cases read
          exact .inr ⟨garbage,rfl,(Option.some.inj known).symm⟩
  | @enter got args place whole =>
      simp only [Arguments.complete,Option.bind_eq_bind,Option.bind_eq_some_iff,Option.pure_def,Option.some.injEq] at whole
      obtain ⟨host,_,ipinfo,_,timeout,_,server,is,rfl⟩ := whole
      exact .inl (by rw [place]; exact is.trans known)
  | opened place => exact .inl (by rw [place]; exact known)
  | prepared place => exact .inl (by rw [place]; exact known)
  | sent place => exact .inl (by rw [place]; exact known)
  | again place => exact .inl (by rw [place]; exact known)
  | _ => cases known

theorem source_live {s : Shared} (live : w.call = s.call) (fresh : s.freed = false) (garbage : MultiDns) :
    s.source w garbage = s.record := by
  simp [Shared.source,Shared.readable,live,fresh]

theorem inTime_taken (assigning : Assigning s) (taken : Taken s) (inTime : InTime s action t)
    (stepped : callStep s action = some t) : Taken t := by
  cases action with
  | caller created =>
      cases callerStep_advances stepped with
      | created place =>
          intro w member same a known
          rcases List.mem_append.mp member with old | new
          · exact taken w old same a known
          · rw [List.mem_singleton] at new
            subst new
            cases known
      | _ => exact taken
  | worker i event =>
      obtain ⟨w,shared,v,found,moves,rfl⟩ := callStep_worker stepped
      obtain ⟨_,server,call',_,_⟩ := moves.same
      have live := EarlierEnded.live assigning.earlier found moves
      intro u member same a known
      rw [call'] at same
      rcases List.mem_or_eq_of_mem_set member with old | rfl
      · exact taken u old same a known
      · rw [server]
        rcases moves_address moves known with before | ⟨garbage,rfl,rfl⟩
        · exact taken w (List.mem_of_getElem? found) live a before
        · obtain ⟨fresh,now⟩ := inTime i .dnsserver garbage w rfl found
          rw [source_live live fresh]
          exact assigning.record w.server (now rfl)

theorem inTime_serves (assigning : Assigning s) (taken : Taken s) (inTime : InTime s action t)
    (stepped : callStep s action = some t) : Serves s action t := by
  rintro i event w rfl found
  obtain ⟨w',shared,v,found',moves,rfl⟩ := callStep_worker stepped
  cases found.symm.trans found'
  have live := EarlierEnded.live assigning.earlier found moves
  refine ⟨?_,?_,?_⟩
  · rintro field garbage rfl
    exact (inTime i field garbage w rfl found).1
  · rintro garbage rfl
    obtain ⟨fresh,now⟩ := inTime i .dnsserver garbage w rfl found
    rw [source_live live fresh]
    exact assigning.record w.server (now rfl)
  · intro args attempt sent place _
    exact taken w (List.mem_of_getElem? found) live _ (by rw [place]; rfl)

theorem serves_inTime (assigning : Assigning s) (serves : Serves s action t) (stepped : callStep s action = some t) :
    InTime s action t := by
  rintro i field garbage w rfl found
  obtain ⟨w',shared,v,found',moves,rfl⟩ := callStep_worker stepped
  cases found.symm.trans found'
  have own := serves i _ w rfl found
  have live := EarlierEnded.live assigning.earlier found moves
  have fresh := own.record field garbage rfl
  refine ⟨fresh,?_⟩
  rintro rfl
  obtain ⟨k,now⟩ := Option.isSome_iff_exists.mp (assigning.begun w (List.mem_of_getElem? found) live).1
  have right := own.argument garbage rfl
  rw [source_live live fresh,assigning.record k now] at right
  rw [now,address_injective (Option.some.inj right)]

-- pthread_create does not fail.
def Granted (action : CallAction) : Prop := ∀ created, action = .caller created → created = true

-- The servers that have a thread by now, and those that are still to get one.
def Shares (s : State) : Prop := served s ++ due s.caller = [.first,.second,.third]

theorem due_next (k : Server) : dueFrom k = k :: due k.after := by cases k <;> rfl

theorem entered_shares (entered : Entered s) : Shares s := by
  have none' : served s = [] := List.filterMap_eq_nil_iff.mpr (fun w member => if_neg (entered.earlier w member).1)
  rw [Shares,none',entered.caller]
  rfl

theorem granted_shares (granted : Granted action) (shares : Shares s) (taken : callStep s action = some t) : Shares t := by
  cases action with
  | caller created =>
      cases granted created rfl
      have taken : callerStep s true = some t := taken
      unfold Shares at shares
      cases callerStep_advances taken with
      | initMutex place | initMutex1 place | fill place | assign place | found place | missed place | failed place | waits place =>
          rw [place] at shares
          exact shares
      | @created k place =>
          rw [place,due,due_next] at shares
          simpa [Shares,served] using shares
      | uncreated place => simp [callerStep,place] at taken
  | worker i event =>
      obtain ⟨w,shared,v,found,moves,rfl⟩ := callStep_worker taken
      obtain ⟨call,server,call',_,_⟩ := moves.same
      have kept : served {s with toShared := shared,workers := s.workers.set i v} = served s := by
        simp only [served,call']
        exact filterMap_set found (by rw [call,server])
      unfold Shares
      rw [kept]
      exact shares

-- Each thread that is created is for a server of its own, and for all three if none is refused.
theorem own_server_served (entered : Entered start) :
    (Along callStep InTime start actions s ↔ Along callStep Serves start actions s) ∧
    (Sequence callStep start actions s → (served s).Nodup ∧
      ((∀ action ∈ actions, Granted action) → due s.caller = [] → served s = [.first,.second,.third])) := by
  have start' := entered_assigning entered
  refine ⟨⟨?_,?_⟩,?_⟩
  · intro along
    have nothing : Taken start := fun w member same => absurd same (entered.earlier w member).1
    refine along.imp (I:=fun s => Assigning s ∧ Taken s) ?_ ?_ ⟨start',nothing⟩
    · intro s action next ⟨assigning,taken⟩ stepped inTime
      exact ⟨callStep_assigning assigning stepped,inTime_taken assigning taken inTime stepped⟩
    · intro s action next ⟨assigning,taken⟩ stepped inTime
      exact inTime_serves assigning taken inTime stepped
  · intro along
    exact along.imp (fun _ _ _ assigning stepped _ => callStep_assigning assigning stepped)
      (fun _ _ _ assigning stepped serves => serves_inTime assigning serves stepped) start'
  · intro path
    have assigning : Assigning s := path.preserves (fun _ _ _ => callStep_assigning) start'
    refine ⟨assigning.distinct,fun granted past => ?_⟩
    have shares : Shares s :=
      path.preserves_within (fun _ _ _ granted shares taken => granted_shares granted shares taken) granted (entered_shares entered)
    rwa [Shares,past,List.append_nil] at shares

-- The first thread reads its arguments when the second server is in the record.
def lateRead : List CallAction :=
  List.replicate 6 advance ++ argumentsRead 0 ++ [.worker 0 (.socket true),.worker 0 .go] ++ [.worker 0 (.sendto true)]

-- That run, and then the creation of the other two threads.
theorem own_server_served_late : ∃ s, Sequence callStep blankCall (lateRead ++ List.replicate 3 advance) s ∧
    (Along callStep InTime blankCall (lateRead ++ List.replicate 3 advance) s ↔
      Along callStep Serves blankCall (lateRead ++ List.replicate 3 advance) s) ∧ served s = [.first,.second,.third] := by
  obtain ⟨s,path⟩ := run_reaches (show (run callStep blankCall (lateRead ++ List.replicate 3 advance)).isSome by decide)
  have granted : ∀ action ∈ lateRead ++ List.replicate 3 advance, Granted action := by
    have created : (lateRead ++ List.replicate 3 advance).all
        (fun action => match action with | .caller created => created | _ => true) = true := by decide
    rintro action member flag rfl
    exact List.all_eq_true.mp created _ member
  have past : due s.caller = [] := of_decide_eq_true (path.tested (fun s => decide (due s.caller = [])) (by decide))
  exact ⟨s,path,(own_server_served blankCall_entered).1,((own_server_served blankCall_entered).2 path).2 granted past⟩

theorem late_read_misdirected : ∃ s, Sequence callStep blankCall lateRead s ∧
    s.workers[0]? = some ⟨1,.first,.empty,.awaiting ⟨0,0,3000,some Server.second.address⟩ 0⟩ ∧
    ¬ Along callStep Serves blankCall lateRead s := by
  obtain ⟨s,path⟩ := run_reaches (show (run callStep blankCall lateRead).isSome by decide)
  have asked := path.tested (fun s => decide (s.workers[0]? =
    some ⟨1,.first,.empty,.awaiting ⟨0,0,3000,some Server.second.address⟩ 0⟩)) (by decide)
  refine ⟨s,path,of_decide_eq_true asked,?_⟩
  intro along
  obtain ⟨m,before,_,serves⟩ := along.last
  have ready := before.tested (fun s => decide (s.workers[0]? =
    some ⟨1,.first,.empty,.sending ⟨0,0,3000,some Server.second.address⟩ 0⟩)) (by decide)
  have query := (serves 0 _ _ rfl (of_decide_eq_true ready)).query _ _ _ rfl rfl
  exact absurd query (by decide)

end PersonalJournal.ServerChoice
