import PersonalJournal.Dns.Publication
import PersonalJournal.Dns.ServerChoice

namespace PersonalJournal.Completion
open Nat64 Answer Transition Resolver Ownership Publication ServerChoice

variable {i : Nat} {w v : Worker}

def active : Pc → Bool
  | .reading _ => true
  | .entered _ => true
  | .preparing _ => true
  | .collecting _ _ => true
  | .stored _ _ => true
  | _ => false

def Settled (s : State) : Prop := ∀ w ∈ s.workers, w.call = s.call → active w.pc = false

-- The step reads or writes the table, the host or the record of the call.
def uses (args : Args) : Pc → Event → Bool
  | .reading _,.read _ _ => true
  | .preparing a,.go => a.host = args.host
  | .collecting ipinfo (some _ :: _),.go => ipinfo = args.ipinfo
  | .collecting ipinfo [],.go => ipinfo = args.ipinfo
  | .stored ipinfo _,.go => ipinfo = args.ipinfo
  | _,_ => false

def Untouched (s : State) (action : CallAction) (_ : State) : Prop :=
  ∀ i event w, action = .worker i event → s.workers[i]? = some w → uses s.args w.pc event = false

-- The table holds every address of the reply of the thread that has the lock.
def Complete (s : State) : Prop :=
  ∃ w ∈ s.workers, Holds s.call w ∧ s.table.stored = w.reply.addresses

def Final (s : State) : Prop :=
  ∀ more t, Sequence callStep s more t → Complete t ∧ Along callStep Untouched s more t

def Succeeds (s next : State) : Prop := s.caller = .pollSize ∧ next.caller = .returned 0

-- Arguments that were read from the record while it was alive.
def Known (args : Args) : Pc → Prop
  | .reading got => (∀ a, got.host = some a → a = args.host) ∧ (∀ a, got.ipinfo = some a → a = args.ipinfo) ∧
      ∀ a, got.dnsserver = some a → a.isSome
  | .entered a => a.host = args.host ∧ a.ipinfo = args.ipinfo ∧ a.dnsserver.isSome
  | .preparing a => a.host = args.host ∧ a.ipinfo = args.ipinfo ∧ a.dnsserver.isSome
  | .sending a _ => a.ipinfo = args.ipinfo
  | .awaiting a _ => a.ipinfo = args.ipinfo
  | .locking ipinfo => ipinfo = args.ipinfo
  | .collecting ipinfo _ => ipinfo = args.ipinfo
  | .stored ipinfo _ => ipinfo = args.ipinfo
  | _ => True

def filled : Caller → Bool
  | .assign _ => true
  | .create _ => true
  | .pollSize => true
  | .pollFail => true
  | .returned _ => true
  | _ => false

structure Supplied (s : State) : Prop where
  assigning : Assigning s
  alive : s.freed = false ∨ ∃ ret, s.caller = .returned ret
  record : filled s.caller = true → s.record.host = s.args.host ∧ s.record.ipinfo = s.args.ipinfo
  known : s.freed = false → ∀ w ∈ s.workers, w.call = s.call → Known s.args w.pc

theorem entered_supplied (entered : Entered s) : Supplied s where
  assigning := entered_assigning entered
  alive := .inl entered.fresh
  record := fun began => by rw [entered.caller] at began; cases began
  known := fun _ w member same => absurd same (entered.earlier w member).1

theorem returned_still (place : s.caller = .returned ret) : ¬ Advances s t := by
  intro advances
  cases advances <;> simp_all

theorem caller_supplied (supplied : Supplied s) (advances : Advances s t) : Supplied t := by
  obtain ⟨assigning,alive,record,known⟩ := supplied
  have assigning' := caller_assigning assigning advances
  have fresh : s.freed = false := by
    rcases alive with fresh | ⟨ret,gone⟩
    · exact fresh
    · exact absurd advances (returned_still gone)
  cases advances with
  | initMutex place => exact ⟨assigning',.inl fresh,fun began => (by cases began),known⟩
  | initMutex1 place => exact ⟨assigning',.inl fresh,fun began => (by cases began),known⟩
  | fill place => exact ⟨assigning',.inl fresh,fun _ => ⟨rfl,rfl⟩,known⟩
  | assign place => exact ⟨assigning',.inl fresh,fun _ => record (by rw [place]; rfl),known⟩
  | created place =>
      refine ⟨assigning',.inl fresh,fun _ => record (by rw [place]; rfl),fun fresh w member same => ?_⟩
      rcases List.mem_append.mp member with old | new
      · exact known fresh w old same
      · rw [List.mem_singleton] at new
        subst new
        exact ⟨fun a is => (by cases is),fun a is => (by cases is),fun a is => (by cases is)⟩
  | uncreated place => exact ⟨assigning',.inl fresh,fun _ => record (by rw [place]; rfl),known⟩
  | found place =>
      exact ⟨assigning',.inr ⟨_,rfl⟩,fun _ => record (by rw [place]; rfl),fun fresh => (by cases fresh)⟩
  | missed place => exact ⟨assigning',.inl fresh,fun _ => record (by rw [place]; rfl),known⟩
  | failed place =>
      exact ⟨assigning',.inr ⟨_,rfl⟩,fun _ => record (by rw [place]; rfl),fun fresh => (by cases fresh)⟩
  | waits place => exact ⟨assigning',.inl fresh,fun _ => record (by rw [place]; rfl),known⟩

theorem known_read (known : Known args (.reading got)) (read : got.read data field = some more)
    (host : data.host = args.host) (ipinfo : data.ipinfo = args.ipinfo) (server : data.dnsserver.isSome) :
    Known args (.reading more) := by
  obtain ⟨host',ipinfo',server'⟩ := known
  cases field with
  | host =>
      simp only [Arguments.read] at read
      split at read <;> cases read
      exact ⟨fun a is => Option.some.inj is ▸ host,ipinfo',server'⟩
  | ipinfo =>
      simp only [Arguments.read] at read
      split at read <;> cases read
      exact ⟨host',fun a is => Option.some.inj is ▸ ipinfo,server'⟩
  | timeout =>
      simp only [Arguments.read] at read
      split at read <;> cases read
      exact ⟨host',ipinfo',server'⟩
  | dnsserver =>
      simp only [Arguments.read] at read
      split at read <;> cases read
      exact ⟨host',ipinfo',fun a is => Option.some.inj is ▸ server⟩

theorem complete_known (whole : got.complete = some a) (known : Known args (.reading got)) :
    Known args (.entered a) := by
  obtain ⟨host',ipinfo',server'⟩ := known
  simp only [Arguments.complete,Option.bind_eq_bind,Option.bind_eq_some_iff,Option.pure_def,Option.some.injEq] at whole
  obtain ⟨host,hostIs,ipinfo,ipinfoIs,timeout,_,server,serverIs,rfl⟩ := whole
  exact ⟨host' _ hostIs,ipinfo' _ ipinfoIs,server' _ serverIs⟩

theorem moves_known (moves : Moves s w event t v) (known : Known args w.pc)
    (source : ∀ garbage, (s.source w garbage).host = args.host ∧ (s.source w garbage).ipinfo = args.ipinfo ∧
      (s.source w garbage).dnsserver.isSome) : Known args v.pc := by
  cases moves with
  | @read got garbage field more place read =>
      obtain ⟨host,ipinfo,server⟩ := source garbage
      rw [place] at known
      exact known_read known read host ipinfo server
  | enter place whole => rw [place] at known; exact complete_known whole known
  | opened place => rw [place] at known; exact known
  | prepared place => rw [place] at known; exact known.2.1
  | sent place => rw [place] at known; exact known
  | unsent place => rw [place] at known; exact known
  | received place => rw [place] at known; exact known
  | again place => rw [place] at known; exact known
  | silent place => rw [place] at known; exact known
  | locked place => rw [place] at known; exact known
  | store place => rw [place] at known; exact known
  | bump place => rw [place] at known; exact known
  | skip place => rw [place] at known; exact known
  | _ => exact True.intro

theorem worker_supplied (supplied : Supplied s) (found : s.workers[i]? = some w)
    (moves : Moves s.toShared w event shared v) :
    Supplied {s with toShared := shared,workers := s.workers.set i v} := by
  obtain ⟨call,_,call',record',freed'⟩ := moves.same
  obtain ⟨assigning,alive,record,known⟩ := supplied
  refine ⟨worker_assigning assigning found moves,freed' ▸ alive,fun began => ?_,fun fresh u member same => ?_⟩
  · rw [record']
    exact record began
  · rw [freed'] at fresh
    rw [call'] at same
    rcases List.mem_or_eq_of_mem_set member with old | rfl
    · exact known fresh u old same
    · have member := List.mem_of_getElem? found
      have live := EarlierEnded.live assigning.earlier found moves
      refine moves_known moves (known fresh w member live) (fun garbage => ?_)
      obtain ⟨k,now⟩ := Option.isSome_iff_exists.mp (assigning.begun w member live).1
      have began : filled s.caller = true := by
        cases place : s.caller <;> simp_all [assigned,filled]
      rw [source_live live fresh]
      exact ⟨(record began).1,(record began).2,by rw [assigning.record k now]; rfl⟩

theorem callStep_supplied (supplied : Supplied s) (taken : callStep s action = some t) : Supplied t := by
  cases action with
  | caller created => exact caller_supplied supplied (callerStep_advances taken)
  | worker i event =>
      obtain ⟨w,shared,v,found,moves,rfl⟩ := callStep_worker taken
      exact worker_supplied supplied found moves

theorem inactive_uses (still : active pc = false) : uses args pc event = false := by
  unfold uses
  split <;> first | rfl | cases still

theorem settled_moves (moves : Moves s w event t v) (still : active w.pc = false) (locked : s.dnsquery_mutex = true)
    (kept : w.pc ≠ .unlocking) : active v.pc = false ∧ t.tables = s.tables := by
  cases moves with
  | sent place => exact ⟨rfl,rfl⟩
  | unsent place => exact ⟨rfl,rfl⟩
  | received place => exact ⟨rfl,rfl⟩
  | again place => exact ⟨rfl,rfl⟩
  | silent place => exact ⟨rfl,rfl⟩
  | locked place free => cases free.symm.trans locked
  | unlocked place => exact absurd place kept
  | failLocked place => exact ⟨rfl,rfl⟩
  | failCounted place => exact ⟨rfl,rfl⟩
  | failUnlocked place => exact ⟨rfl,rfl⟩
  | _ => simp [active, *] at still

-- A call that has returned 0 and whose threads are all settled.
structure Closed (s : State) : Prop where
  guarded : ∃ owner, Guarded s owner
  settled : Settled s
  full : 0 < s.table.size
  caller : s.caller = .returned 0

theorem guarded_full (guarded : Guarded s owner) (full : 0 < s.table.size) :
    ∃ k w, owner = some k ∧ s.workers[k]? = some w ∧ Holds s.call w ∧ w.pc ≠ .unlocking := by
  cases owner with
  | none =>
      have empty := guarded.free rfl
      omega
  | some k =>
      have found := List.getElem?_eq_getElem (guarded.owns.inside k rfl)
      refine ⟨k,_,rfl,found,(guarded.owns.only k _ found).mpr rfl,fun place => ?_⟩
      have progress := guarded.busy k _ rfl found
      simp only [Progress,place] at progress
      omega

theorem closed_complete (closed : Closed s) : Complete s := by
  obtain ⟨⟨owner,guarded⟩,settled,full,_⟩ := closed
  obtain ⟨k,w,is,found,held,kept⟩ := guarded_full guarded full
  have member := List.mem_of_getElem? found
  have still := settled w member held.1
  have progress := guarded.busy k w is found
  refine ⟨w,member,held,?_⟩
  have within := held.2
  cases place : w.pc with
  | ended ret =>
      simp only [Progress,place] at progress
      rcases progress with empty | filled
      · omega
      · exact filled.2
  | unlocking => exact absurd place kept
  | collecting ipinfo rest => rw [place] at still; cases still
  | stored ipinfo rest => rw [place] at still; cases still
  | _ => rw [place] at within; cases within

theorem closed_step (closed : Closed s) (taken : callStep s action = some t) :
    Closed t ∧ Untouched s action t := by
  obtain ⟨⟨owner,guarded⟩,settled,full,returned⟩ := closed
  have guarded' := callStep_guarded ⟨owner,guarded⟩ taken
  cases action with
  | caller created =>
      simp [callStep,callerStep,returned] at taken
  | worker i event =>
      obtain ⟨w,shared,v,found,moves,rfl⟩ := callStep_worker taken
      obtain ⟨call,_,call',_,_⟩ := moves.same
      obtain ⟨k,u,is,there,held,kept⟩ := guarded_full guarded full
      have live := EarlierEnded.live guarded.earlier found moves
      have still := settled w (List.mem_of_getElem? found) live
      have kept' : w.pc ≠ .unlocking := by
        intro place
        have mine := guarded.owns.unique found there ⟨live,by rw [place]; rfl⟩ held
        subst mine
        cases found.symm.trans there
        exact kept place
      obtain ⟨still',same⟩ := settled_moves moves still (guarded.locked k is) kept'
      refine ⟨⟨guarded',?_,?_,returned⟩,?_⟩
      · intro u member same
        rw [call'] at same
        rcases List.mem_or_eq_of_mem_set member with old | rfl
        · exact settled u old same
        · exact still'
      · simpa only [State.table,same] using full
      · intro j event' u equal there'
        cases equal
        cases found.symm.trans there'
        exact inactive_uses still

theorem closed_final (closed : Closed s) : Final s := by
  intro more t path
  have closed' : Closed t := path.preserves (fun _ _ _ closed taken => (closed_step closed taken).1) closed
  exact ⟨closed_complete closed',path.along (fun _ _ _ closed taken => (closed_step closed taken).1)
    (fun _ _ _ closed taken => (closed_step closed taken).2) closed⟩

def Quiet (s : State) : Prop := ∀ more t, Sequence callStep s more t → Along callStep Untouched s more t

theorem quiet_step (quiet : Quiet s) (found : s.workers[i]? = some w)
    (moved : workerStep s.toShared w event = some (shared,v)) :
    uses s.args w.pc event = false ∧ Quiet {s with toShared := shared,workers := s.workers.set i v} := by
  have taken : callStep s (.worker i event) = some {s with toShared := shared,workers := s.workers.set i v} := by
    simp [callStep,found,moved]
  constructor
  · cases quiet _ _ (.single taken) with
    | cons taken' untouched _ => exact untouched i event w rfl found
  · intro more t path
    cases quiet _ _ (.cons taken path) with
    | cons taken' _ along =>
        cases Option.some.inj (taken.symm.trans taken')
        exact along

theorem quiet_preparing (quiet : Quiet s) (found : s.workers[i]? = some w) (place : w.pc = .preparing a)
    (known : Known s.args w.pc) : False := by
  obtain ⟨untouched,_⟩ := quiet_step quiet found
    (show workerStep s.toShared w .go = some (s.toShared,{w with pc := .sending a 0}) by simp [workerStep,place])
  rw [place] at known untouched
  simp [uses,known.1] at untouched

theorem quiet_entered (quiet : Quiet s) (found : s.workers[i]? = some w) (place : w.pc = .entered a)
    (known : Known s.args w.pc) : False := by
  rw [place] at known
  obtain ⟨_,later⟩ := quiet_step quiet found
    (show workerStep s.toShared w (.socket true) = some (s.toShared,{w with pc := .preparing a}) by
      simp [workerStep,place,known.2.2])
  have near := (List.getElem?_eq_some_iff.mp found).1
  exact quiet_preparing later (List.getElem?_set_self near) rfl known

theorem quiet_reading (quiet : Quiet s) (found : s.workers[i]? = some w) (place : w.pc = .reading got)
    (known : Known s.args w.pc) : False := by
  rw [place] at known
  cases whole : got.complete with
  | some a =>
      obtain ⟨_,later⟩ := quiet_step quiet found
        (show workerStep s.toShared w .go = some (s.toShared,{w with pc := .entered a}) by
          simp [workerStep,place,whole])
      have near := (List.getElem?_eq_some_iff.mp found).1
      exact quiet_entered later (List.getElem?_set_self near) rfl (complete_known whole known)
  | none =>
      have unread : ∃ field more, got.read (s.source w garbage) field = some more := by
        cases host : got.host with
        | none => exact ⟨.host,by simp [Arguments.read,host]⟩
        | some a =>
            cases ipinfo : got.ipinfo with
            | none => exact ⟨.ipinfo,by simp [Arguments.read,ipinfo]⟩
            | some b =>
                cases timeout : got.timeout with
                | none => exact ⟨.timeout,by simp [Arguments.read,timeout]⟩
                | some c =>
                    cases server : got.dnsserver with
                    | none => exact ⟨.dnsserver,by simp [Arguments.read,server]⟩
                    | some d => simp [Arguments.complete,host,ipinfo,timeout,server] at whole
      obtain ⟨field,more,read⟩ := unread
      obtain ⟨untouched,_⟩ := quiet_step quiet found
        (show workerStep s.toShared w (.read field garbage) = some (s.toShared,{w with pc := .reading more}) by
          simp [workerStep,place,read])
      rw [place] at untouched
      cases untouched

-- By induction on the answers still to be collected: the thread comes to an
-- address or to the final look at the size.
theorem quiet_collecting (guarded : ∃ owner, Guarded s owner) (quiet : Quiet s) (found : s.workers[i]? = some w)
    (place : w.pc = .collecting s.args.ipinfo rest) : False := by
  induction rest generalizing s w with
  | nil =>
      have moved : ∃ v, workerStep s.toShared w .go = some (s.toShared,v) := by
        by_cases empty : (s.tables s.args.ipinfo).size ≤ 0
        · exact ⟨{w with pc := .unlocking},by simp [workerStep,place,empty]⟩
        · exact ⟨{w with pc := .ended 0},by simp [workerStep,place,empty]⟩
      obtain ⟨v,moved⟩ := moved
      obtain ⟨untouched,_⟩ := quiet_step quiet found moved
      simp [uses,place] at untouched
  | cons answer rest ih =>
      cases answer with
      | some a =>
          obtain ⟨owner,guarded⟩ := guarded
          have room := (guarded_safe guarded).room w (List.mem_of_getElem? found) a rest place
          obtain ⟨table,kept⟩ := Option.isSome_iff_exists.mp room
          rw [State.table] at kept
          have moved : workerStep s.toShared w .go = some (s.toShared.put s.args.ipinfo table,
              {w with pc := .stored s.args.ipinfo rest}) := by simp [workerStep,place,kept]
          obtain ⟨untouched,_⟩ := quiet_step quiet found moved
          simp [uses,place] at untouched
      | none =>
          have moved : workerStep s.toShared w .go =
              some (s.toShared,{w with pc := .collecting s.args.ipinfo rest}) := by simp [workerStep,place]
          obtain ⟨_,later⟩ := quiet_step quiet found moved
          have near := (List.getElem?_eq_some_iff.mp found).1
          have taken : callStep s (.worker i .go) = some {s with
              workers := s.workers.set i {w with pc := .collecting s.args.ipinfo rest}} := by
            simp [callStep,found,moved]
          exact ih (callStep_guarded guarded taken) later (List.getElem?_set_self near) rfl

theorem quiet_settled (guarded : ∃ owner, Guarded s owner) (quiet : Quiet s)
    (known : ∀ w ∈ s.workers, w.call = s.call → Known s.args w.pc) : Settled s := by
  intro w member same
  obtain ⟨i,found⟩ := List.getElem?_of_mem member
  have known := known w member same
  cases place : w.pc with
  | reading got => exact (quiet_reading quiet found place known).elim
  | entered a => exact (quiet_entered quiet found place known).elim
  | preparing a => exact (quiet_preparing quiet found place known).elim
  | collecting ipinfo rest =>
      rw [place] at known
      simp only [Known] at known
      subst known
      exact (quiet_collecting guarded quiet found place).elim
  | stored ipinfo rest =>
      rw [place] at known
      obtain ⟨untouched,_⟩ := quiet_step quiet found
        (show workerStep s.toShared w .go = some (s.toShared.put ipinfo (s.tables ipinfo).bump,
          {w with pc := .collecting ipinfo rest}) by simp [workerStep,place])
      simp only [Known] at known
      simp [uses,place,known] at untouched
  | _ => rfl

theorem succeeds_returns (succeeds : Succeeds s t) (taken : callStep s action = some t) :
    0 < s.table.size ∧ t = {s with freed := true,caller := .returned 0} := by
  obtain ⟨place,returned⟩ := succeeds
  have running : s.caller ≠ .returned 0 := by
    intro gone
    cases place.symm.trans gone
  rcases callStep_returned taken running returned with ⟨_,full,equal⟩ | ⟨place',_⟩
  · exact ⟨full,equal⟩
  · cases place.symm.trans place'

-- Whether the result is final is decided by where the threads stand at the poll
-- that returns it.
theorem result_final (entered : Entered start) (path : Sequence callStep start actions s)
    (succeeds : Succeeds s t) (taken : callStep s action = some t) : Final t ↔ Settled s := by
  have guarded := callStep_guarded (reached_guarded entered path) taken
  have supplied : Supplied s := path.preserves (fun _ _ _ => callStep_supplied) (entered_supplied entered)
  obtain ⟨full,equal⟩ := succeeds_returns succeeds taken
  subst equal
  constructor
  · intro final
    have fresh : s.freed = false := by
      rcases supplied.alive with fresh | ⟨ret,gone⟩
      · exact fresh
      · cases succeeds.1.symm.trans gone
    have settled : Settled {s with freed := true,caller := .returned 0} :=
      quiet_settled guarded (fun more t path => (final more t path).2) (supplied.known fresh)
    exact settled
  · intro settled
    exact closed_final ⟨guarded,settled,full,rfl⟩

def loneThread : List CallAction :=
  List.replicate 6 advance ++ [.caller false,advance,.caller false] ++ answered 0 twoAddresses ++
    List.replicate 6 (.worker 0 .go)

theorem result_final_lone : ∃ s t, Sequence callStep blankCall loneThread s ∧ callStep s advance = some t ∧
    t.table.stored = [address1,address1] ∧ Final t := by
  obtain ⟨s,path⟩ := run_reaches (show (run callStep blankCall loneThread).isSome by decide)
  have polled := path.tested (fun s => decide (s.caller = .pollSize ∧ 0 < s.table.size)) (by decide)
  have settled := path.tested (fun s => decide (∀ w ∈ s.workers, w.call = s.call → active w.pc = false)) (by decide)
  have stored := path.tested (fun s => decide (s.table.stored = [address1,address1])) (by decide)
  simp only [decide_eq_true_eq] at polled settled stored
  obtain ⟨place,full⟩ := polled
  have taken : callStep s advance = some {s with freed := true,caller := .returned 0} := by
    simp [callStep,callerStep,advance,place,full]
  exact ⟨s,_,path,taken,stored,(result_final blankCall_entered path ⟨place,rfl⟩ taken).mpr settled⟩

-- The first thread has published one of its two addresses when the poll sees it.
def earlyPoll : List CallAction := started ++ answered 0 twoAddresses ++ List.replicate 2 (.worker 0 .go)

-- An address is missing, and the second thread is still to read the freed record.
theorem early_poll_unfinished : ∃ s t, Sequence callStep blankCall earlyPoll s ∧ callStep s advance = some t ∧
    Succeeds s t ∧ ¬ Complete t ∧ ¬ Quiet t ∧ ¬ Final t := by
  obtain ⟨s,path⟩ := run_reaches (show (run callStep blankCall earlyPoll).isSome by decide)
  have polled := path.tested (fun s => decide (s.caller = .pollSize ∧ 0 < s.table.size)) (by decide)
  have short := path.tested
    (fun s => decide (∀ w ∈ s.workers, inside w.pc = true → s.table.stored ≠ w.reply.addresses)) (by decide)
  have second := path.tested
    (fun s => decide (s.workers[1]? = some ⟨1,.second,.empty,.reading .unread⟩)) (by decide)
  obtain ⟨place,full⟩ := of_decide_eq_true polled
  have unfinished : ¬ Complete {s with freed := true,caller := .returned 0} := by
    intro ⟨w,member,held,whole⟩
    exact of_decide_eq_true short w member held.2 whole
  refine ⟨s,{s with freed := true,caller := .returned 0},path,?_,⟨place,rfl⟩,unfinished,?_,?_⟩
  · simp [callStep,callerStep,advance,place,full]
  · intro quiet
    exact quiet_reading quiet (of_decide_eq_true second) rfl
      ⟨fun a is => (by cases is),fun a is => (by cases is),fun a is => (by cases is)⟩
  · intro final
    exact unfinished (final [] _ .nil).1

end PersonalJournal.Completion
