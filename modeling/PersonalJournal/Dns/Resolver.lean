import Mathlib.Logic.Function.Basic
import PersonalJournal.Lib.Transition
import PersonalJournal.Dns.Answer

namespace PersonalJournal.Resolver
open Nat64 Answer Transition

-- The servers of th_gethostbyname, in the order in which it starts their threads.
inductive Server where
  | first
  | second
  | third
  deriving DecidableEq

def Server.address : Server → String
  | .first => "2001:67c:27e4:15::64"
  | .second => "2001:67c:27e4:15::6411"
  | .third => "2001:67c:27e4::60"

def Server.next : Server → Option Server
  | .first => some .second
  | .second => some .third
  | .third => none

-- Pointers to host buffers and address tables name their objects by number.
structure MultiDns where
  host : Nat
  ipinfo : Nat
  timeout : Int
  dnsserver : Option String
  deriving DecidableEq

inductive Field where
  | host
  | ipinfo
  | timeout
  | dnsserver
  deriving DecidableEq

-- The arguments of socket_gethostbyname as far as th_socket_gethostbyname has
-- read them. C leaves their order open.
structure Arguments where
  host : Option Nat
  ipinfo : Option Nat
  timeout : Option Int
  dnsserver : Option (Option String)
  deriving DecidableEq

def Arguments.unread : Arguments := ⟨none,none,none,none⟩

def Arguments.read (got : Arguments) (data : MultiDns) : Field → Option Arguments
  | .host => if got.host.isNone then some {got with host := some data.host} else none
  | .ipinfo => if got.ipinfo.isNone then some {got with ipinfo := some data.ipinfo} else none
  | .timeout => if got.timeout.isNone then some {got with timeout := some data.timeout} else none
  | .dnsserver => if got.dnsserver.isNone then some {got with dnsserver := some data.dnsserver} else none

def Arguments.complete (got : Arguments) : Option MultiDns := do
  return ⟨← got.host,← got.ipinfo,← got.timeout,← got.dnsserver⟩

-- What ReadRecvAnswer leaves in answers[0..answer_count): `some` for an address.
structure Reply where
  answers : List (Option In6Addr)
  short : answers.length ≤ socketMaxIpCount
  deriving DecidableEq

def Reply.empty : Reply := ⟨[],by decide⟩

def Reply.addresses (r : Reply) : List In6Addr := r.answers.filterMap id

inductive Pc where
  | reading (got : Arguments)
  | entered (args : MultiDns)
  | preparing (args : MultiDns)
  | sending (args : MultiDns) (attempt : Nat)
  | awaiting (args : MultiDns) (attempt : Nat)
  | locking (ipinfo : Nat)
  | collecting (ipinfo : Nat) (rest : List (Option In6Addr))
  | stored (ipinfo : Nat) (rest : List (Option In6Addr))
  | unlocking
  | failLocking
  | failCounting
  | failUnlocking
  | ended (ret : Int)
  deriving DecidableEq

structure Worker where
  call : Nat
  server : Server
  reply : Reply
  pc : Pc
  deriving DecidableEq

inductive Event where
  | read (field : Field) (garbage : MultiDns)
  | socket (opened : Bool)
  | sendto (sent : Bool)
  | receive (reply : Option Reply)
  | go

-- What the threads share. `call` numbers the calls of th_gethostbyname, and the
-- record is that of the latest one; all others have been freed.
structure Shared where
  call : Nat
  record : MultiDns
  freed : Bool
  tables : Nat → SocketIpinfo
  dnsquery_mutex : Bool
  dnsquery_mutex1 : Bool
  dnsquery_failcount : Int

def Shared.readable (s : Shared) (w : Worker) : Bool := w.call = s.call && !s.freed

-- A freed record may hold anything.
def Shared.source (s : Shared) (w : Worker) (garbage : MultiDns) : MultiDns :=
  if s.readable w then s.record else garbage

def Shared.put (s : Shared) (ipinfo : Nat) (t : SocketIpinfo) : Shared :=
  {s with tables := Function.update s.tables ipinfo t}

-- One atomic step of a thread. A buffer that nothing was received into is zero and
-- announces no records.
def workerStep (s : Shared) (w : Worker) (event : Event) : Option (Shared × Worker) :=
  match w.pc,event with
  | .reading got,.read field garbage =>
      (got.read (s.source w garbage) field).map (fun more => (s,{w with pc := .reading more}))
  | .reading got,.go => got.complete.map (fun args => (s,{w with pc := .entered args}))
  | .entered args,.socket opened =>
      if args.dnsserver.isSome && opened then some (s,{w with pc := .preparing args})
      else some (s,{w with pc := .failLocking})
  | .preparing args,.go => some (s,{w with pc := .sending args 0})
  | .sending args attempt,.sendto sent =>
      if sent then some (s,{w with pc := .awaiting args attempt})
      else some (s,{w with reply := .empty,pc := .locking args.ipinfo})
  | .awaiting args _,.receive (some reply) => some (s,{w with reply := reply,pc := .locking args.ipinfo})
  | .awaiting args attempt,.receive none =>
      if attempt+1 < 3 then some (s,{w with pc := .sending args (attempt+1)})
      else some (s,{w with reply := .empty,pc := .locking args.ipinfo})
  | .locking ipinfo,.go =>
      if s.dnsquery_mutex then none
      else some ({s with dnsquery_mutex := true},{w with pc := .collecting ipinfo w.reply.answers})
  | .collecting ipinfo (some a :: rest),.go =>
      ((s.tables ipinfo).store a).map (fun t => (s.put ipinfo t,{w with pc := .stored ipinfo rest}))
  | .stored ipinfo rest,.go => some (s.put ipinfo (s.tables ipinfo).bump,{w with pc := .collecting ipinfo rest})
  | .collecting ipinfo (none :: rest),.go => some (s,{w with pc := .collecting ipinfo rest})
  | .collecting ipinfo [],.go =>
      if (s.tables ipinfo).size ≤ 0 then some (s,{w with pc := .unlocking})
      else some (s,{w with pc := .ended 0})
  | .unlocking,.go => some ({s with dnsquery_mutex := false},{w with pc := .failLocking})
  | .failLocking,.go =>
      if s.dnsquery_mutex1 then none else some ({s with dnsquery_mutex1 := true},{w with pc := .failCounting})
  | .failCounting,.go =>
      some ({s with dnsquery_failcount := s.dnsquery_failcount+1},{w with pc := .failUnlocking})
  | .failUnlocking,.go => some ({s with dnsquery_mutex1 := false},{w with pc := .ended (-1)})
  | _,_ => none

structure Args where
  host : Nat
  ipinfo : Nat
  timeout : Int
  deriving DecidableEq

inductive Caller where
  | idle
  | initMutex
  | initMutex1
  | fill
  | assign (k : Server)
  | create (k : Server)
  | pollSize
  | pollFail
  | returned (ret : Int)
  deriving DecidableEq

def Server.after (k : Server) : Caller := match k.next with
  | some k => .assign k
  | none => .pollSize

structure State extends Shared where
  caller : Caller
  args : Args
  DNS64SERVERNUM : Int
  workers : List Worker

def State.table (s : State) : SocketIpinfo := s.tables s.args.ipinfo

-- One step of th_gethostbyname. `created` is the outcome of pthread_create. No
-- thread has the record before the first pthread_create.
def callerStep (s : State) (created : Bool) : Option State :=
  match s.caller with
  | .idle => none
  | .initMutex => some {s with dnsquery_mutex := false,caller := .initMutex1}
  | .initMutex1 => some {s with dnsquery_mutex1 := false,caller := .fill}
  | .fill => some {s with
      record := {s.record with host := s.args.host,ipinfo := s.args.ipinfo,timeout := s.args.timeout}
      caller := .assign .first}
  | .assign k => some {s with record := {s.record with dnsserver := some k.address},caller := .create k}
  | .create k =>
      if created then some {s with workers := s.workers ++ [⟨s.call,k,.empty,.reading .unread⟩],caller := k.after}
      else some {s with DNS64SERVERNUM := s.DNS64SERVERNUM-1,caller := k.after}
  | .pollSize =>
      if 0 < s.table.size then some {s with freed := true,caller := .returned 0} else some {s with caller := .pollFail}
  | .pollFail =>
      if s.dnsquery_failcount = s.DNS64SERVERNUM then some {s with freed := true,caller := .returned (-1)}
      else some {s with caller := .pollSize}
  | .returned _ => none

inductive CallAction where
  | caller (created : Bool)
  | worker (i : Nat) (event : Event)

def callStep (s : State) : CallAction → Option State
  | .caller created => callerStep s created
  | .worker i event => do
      let w ← s.workers[i]?
      let (shared,w) ← workerStep s.toShared w event
      return {s with toShared := shared,workers := s.workers.set i w}

def Caller.outside : Caller → Bool
  | .idle => true
  | .returned _ => true
  | _ => false

def enter (s : State) (args : Args) : State :=
  {s with
    call := s.call+1
    freed := false
    tables := Function.update s.tables args.ipinfo {s.tables args.ipinfo with size := 0}
    args := args
    caller := .initMutex}

inductive Action where
  | call (args : Args)
  | program (ipinfo : Nat) (content : SocketIpinfo)
  | during (action : CallAction)

-- The process: calls one after the other, and between them the program and
-- getaddrinfo_api do as they like with the tables.
def step (s : State) : Action → Option State
  | .call args => if s.caller.outside then some (enter s args) else none
  | .program ipinfo content => if s.caller.outside then some {s with toShared := s.put ipinfo content} else none
  | .during action => callStep s action

def initial (tables : Nat → SocketIpinfo) : State where
  call := 0
  record := ⟨0,0,0,none⟩
  freed := true
  tables := tables
  dnsquery_mutex := false
  dnsquery_mutex1 := false
  dnsquery_failcount := 0
  caller := .idle
  args := ⟨0,0,0⟩
  DNS64SERVERNUM := 3
  workers := []

-- The start of a call whose table is empty and that no thread of an earlier call
-- outlives. The counters are whatever earlier calls left.
structure Entered (s : State) : Prop where
  caller : s.caller = .initMutex
  fresh : s.freed = false
  empty : s.table.size = 0
  earlier : ∀ w ∈ s.workers, w.call ≠ s.call ∧ ∃ ret, w.pc = .ended ret

-- What one step of a thread did, by the place it was taken from.
inductive Moves (s : Shared) (w : Worker) : Event → Shared → Worker → Prop where
  | read : w.pc = .reading got → got.read (s.source w garbage) field = some more →
      Moves s w (.read field garbage) s {w with pc := .reading more}
  | enter : w.pc = .reading got → got.complete = some args → Moves s w .go s {w with pc := .entered args}
  | opened : w.pc = .entered args → args.dnsserver.isSome → Moves s w (.socket true) s {w with pc := .preparing args}
  | refused : w.pc = .entered args → (args.dnsserver.isSome && opened) = false →
      Moves s w (.socket opened) s {w with pc := .failLocking}
  | prepared : w.pc = .preparing args → Moves s w .go s {w with pc := .sending args 0}
  | sent : w.pc = .sending args attempt → Moves s w (.sendto true) s {w with pc := .awaiting args attempt}
  | unsent : w.pc = .sending args attempt →
      Moves s w (.sendto false) s {w with reply := .empty,pc := .locking args.ipinfo}
  | received : w.pc = .awaiting args attempt →
      Moves s w (.receive (some reply)) s {w with reply := reply,pc := .locking args.ipinfo}
  | again : w.pc = .awaiting args attempt → attempt+1 < 3 →
      Moves s w (.receive none) s {w with pc := .sending args (attempt+1)}
  | silent : w.pc = .awaiting args attempt → ¬ attempt+1 < 3 →
      Moves s w (.receive none) s {w with reply := .empty,pc := .locking args.ipinfo}
  | locked : w.pc = .locking ipinfo → s.dnsquery_mutex = false →
      Moves s w .go {s with dnsquery_mutex := true} {w with pc := .collecting ipinfo w.reply.answers}
  | store : w.pc = .collecting ipinfo (some a :: rest) → (s.tables ipinfo).store a = some t →
      Moves s w .go (s.put ipinfo t) {w with pc := .stored ipinfo rest}
  | bump : w.pc = .stored ipinfo rest →
      Moves s w .go (s.put ipinfo (s.tables ipinfo).bump) {w with pc := .collecting ipinfo rest}
  | skip : w.pc = .collecting ipinfo (none :: rest) → Moves s w .go s {w with pc := .collecting ipinfo rest}
  | empty : w.pc = .collecting ipinfo [] → (s.tables ipinfo).size ≤ 0 → Moves s w .go s {w with pc := .unlocking}
  | found : w.pc = .collecting ipinfo [] → 0 < (s.tables ipinfo).size → Moves s w .go s {w with pc := .ended 0}
  | unlocked : w.pc = .unlocking → Moves s w .go {s with dnsquery_mutex := false} {w with pc := .failLocking}
  | failLocked : w.pc = .failLocking → s.dnsquery_mutex1 = false →
      Moves s w .go {s with dnsquery_mutex1 := true} {w with pc := .failCounting}
  | failCounted : w.pc = .failCounting →
      Moves s w .go {s with dnsquery_failcount := s.dnsquery_failcount+1} {w with pc := .failUnlocking}
  | failUnlocked : w.pc = .failUnlocking → Moves s w .go {s with dnsquery_mutex1 := false} {w with pc := .ended (-1)}

theorem workerStep_moves (taken : workerStep s w event = some (t,v)) : Moves s w event t v := by
  unfold workerStep at taken
  split at taken
  · rename_i got field garbage place
    obtain ⟨more,read,equal⟩ := Option.map_eq_some_iff.mp taken
    cases equal
    exact .read place read
  · rename_i got place
    obtain ⟨args,whole,equal⟩ := Option.map_eq_some_iff.mp taken
    cases equal
    exact .enter place whole
  · rename_i args opened place
    split at taken
    · rename_i open'
      cases taken
      simp only [Bool.and_eq_true] at open'
      obtain ⟨named,rfl⟩ := open'
      exact .opened place named
    · rename_i closed
      cases taken
      exact .refused place (by simpa using closed)
  · rename_i args place
    cases taken
    exact .prepared place
  · rename_i args attempt sent place
    split at taken
    · rename_i went
      cases taken
      subst went
      exact .sent place
    · rename_i stayed
      cases taken
      cases sent with
      | false => exact .unsent place
      | true => exact absurd rfl stayed
  · rename_i args attempt reply place
    cases taken
    exact .received place
  · rename_i args attempt place
    split at taken
    · rename_i more
      cases taken
      exact .again place more
    · rename_i last
      cases taken
      exact .silent place last
  · rename_i ipinfo place
    split at taken
    · cases taken
    · rename_i free
      cases taken
      exact .locked place (by simpa using free)
  · rename_i ipinfo a rest place
    obtain ⟨table,kept,equal⟩ := Option.map_eq_some_iff.mp taken
    cases equal
    exact .store place kept
  · rename_i ipinfo rest place
    cases taken
    exact .bump place
  · rename_i ipinfo rest place
    cases taken
    exact .skip place
  · rename_i ipinfo place
    split at taken
    · rename_i none'
      cases taken
      exact .empty place none'
    · rename_i some'
      cases taken
      exact .found place (by omega)
  · rename_i place
    cases taken
    exact .unlocked place
  · rename_i place
    split at taken
    · cases taken
    · rename_i free
      cases taken
      exact .failLocked place (by simpa using free)
  · rename_i place
    cases taken
    exact .failCounted place
  · rename_i place
    cases taken
    exact .failUnlocked place
  · cases taken

inductive Advances (s : State) : State → Prop where
  | initMutex : s.caller = .initMutex → Advances s {s with dnsquery_mutex := false,caller := .initMutex1}
  | initMutex1 : s.caller = .initMutex1 → Advances s {s with dnsquery_mutex1 := false,caller := .fill}
  | fill : s.caller = .fill → Advances s {s with
      record := {s.record with host := s.args.host,ipinfo := s.args.ipinfo,timeout := s.args.timeout}
      caller := .assign .first}
  | assign : s.caller = .assign k →
      Advances s {s with record := {s.record with dnsserver := some k.address},caller := .create k}
  | created : s.caller = .create k →
      Advances s {s with workers := s.workers ++ [⟨s.call,k,.empty,.reading .unread⟩],caller := k.after}
  | uncreated : s.caller = .create k →
      Advances s {s with DNS64SERVERNUM := s.DNS64SERVERNUM-1,caller := k.after}
  | found : s.caller = .pollSize → 0 < s.table.size → Advances s {s with freed := true,caller := .returned 0}
  | missed : s.caller = .pollSize → s.table.size ≤ 0 → Advances s {s with caller := .pollFail}
  | failed : s.caller = .pollFail → s.dnsquery_failcount = s.DNS64SERVERNUM →
      Advances s {s with freed := true,caller := .returned (-1)}
  | waits : s.caller = .pollFail → s.dnsquery_failcount ≠ s.DNS64SERVERNUM → Advances s {s with caller := .pollSize}

theorem callerStep_advances (taken : callerStep s created = some t) : Advances s t := by
  unfold callerStep at taken
  cases place : s.caller with
  | idle => simp [place] at taken
  | returned ret => simp [place] at taken
  | initMutex =>
      simp only [place,Option.some.injEq] at taken
      exact taken ▸ .initMutex place
  | initMutex1 =>
      simp only [place,Option.some.injEq] at taken
      exact taken ▸ .initMutex1 place
  | fill =>
      simp only [place,Option.some.injEq] at taken
      exact taken ▸ .fill place
  | assign k =>
      simp only [place,Option.some.injEq] at taken
      exact taken ▸ .assign place
  | create k =>
      simp only [place] at taken
      split at taken
      · exact Option.some.inj taken ▸ .created place
      · exact Option.some.inj taken ▸ .uncreated place
  | pollSize =>
      simp only [place] at taken
      split at taken
      · rename_i some'
        exact Option.some.inj taken ▸ .found place some'
      · rename_i none'
        exact Option.some.inj taken ▸ .missed place (by omega)
  | pollFail =>
      simp only [place] at taken
      split at taken
      · rename_i all
        exact Option.some.inj taken ▸ .failed place all
      · rename_i less
        exact Option.some.inj taken ▸ .waits place less

theorem callStep_worker (taken : callStep s (.worker i event) = some t) :
    ∃ w shared v, s.workers[i]? = some w ∧ Moves s.toShared w event shared v ∧
      t = {s with toShared := shared,workers := s.workers.set i v} := by
  simp only [callStep,Option.bind_eq_bind,Option.bind_eq_some_iff,Option.pure_def,Option.some.injEq] at taken
  obtain ⟨w,found,⟨shared,v⟩,moved,equal⟩ := taken
  exact ⟨w,shared,v,found,workerStep_moves moved,equal.symm⟩

theorem Server.after_running (k : Server) : k.after ≠ .returned ret := by
  unfold Server.after
  split
  · intro returned
    cases returned
  · intro returned
    cases returned

-- Only the two polls return.
theorem callStep_returned (taken : callStep s action = some t) (running : s.caller ≠ .returned ret)
    (returned : t.caller = .returned ret) :
    s.caller = .pollSize ∧ 0 < s.table.size ∧ t = {s with freed := true,caller := .returned 0} ∨
      s.caller = .pollFail ∧ s.dnsquery_failcount = s.DNS64SERVERNUM ∧
        t = {s with freed := true,caller := .returned (-1)} := by
  cases action with
  | worker i event =>
      obtain ⟨w,shared,v,found,moves,rfl⟩ := callStep_worker taken
      exact absurd returned running
  | caller created =>
      cases callerStep_advances taken with
      | found place full => exact .inl ⟨place,full,rfl⟩
      | failed place all => exact .inr ⟨place,all,rfl⟩
      | created place => exact absurd returned (Server.after_running _)
      | uncreated place => exact absurd returned (Server.after_running _)
      | _ => cases returned

theorem Moves.same (moves : Moves s w event t v) :
    v.call = w.call ∧ v.server = w.server ∧ t.call = s.call ∧ t.record = s.record ∧ t.freed = s.freed := by
  cases moves <;> exact ⟨rfl,rfl,rfl,rfl,rfl⟩

theorem ended_still (place : w.pc = .ended ret) : ¬ Moves s w event t v := by
  intro moves
  cases moves <;> simp_all

def EarlierEnded (s : State) : Prop := ∀ w ∈ s.workers, w.call ≠ s.call → ∃ ret, w.pc = .ended ret

theorem EarlierEnded.created (earlier : EarlierEnded s) (k : Server) :
    ∀ w ∈ s.workers ++ [⟨s.call,k,.empty,.reading .unread⟩], w.call ≠ s.call → ∃ ret, w.pc = .ended ret := by
  intro w member other
  rcases List.mem_append.mp member with old | new
  · exact earlier w old other
  · rw [List.mem_singleton] at new
    subst new
    exact absurd rfl other

-- A thread that still takes steps belongs to this call.
theorem EarlierEnded.running (earlier : EarlierEnded s) (member : w ∈ s.workers) (running : ∀ ret, w.pc ≠ .ended ret) :
    w.call = s.call := by
  by_contra other
  obtain ⟨ret,place⟩ := earlier w member other
  exact running ret place

theorem EarlierEnded.live {i : Nat} (earlier : EarlierEnded s) (found : s.workers[i]? = some w)
    (moves : Moves s.toShared w event shared v) : w.call = s.call :=
  earlier.running (List.mem_of_getElem? found) (fun _ place => ended_still place moves)

theorem EarlierEnded.moved {i : Nat} (earlier : EarlierEnded s) (found : s.workers[i]? = some w)
    (moves : Moves s.toShared w event shared v) :
    ∀ u ∈ s.workers.set i v, u.call ≠ shared.call → ∃ ret, u.pc = .ended ret := by
  obtain ⟨call,_,call',_,_⟩ := moves.same
  intro u member other
  rw [call'] at other
  rcases List.mem_or_eq_of_mem_set member with old | rfl
  · exact earlier u old other
  · exact absurd (call.trans (earlier.live found moves)) other

theorem step_cases (taken : step s action = some t) :
    (∃ args, action = .call args ∧ s.caller.outside = true ∧ t = enter s args) ∨
      (∃ ipinfo content, action = .program ipinfo content ∧ s.caller.outside = true ∧
        t = {s with toShared := s.put ipinfo content}) ∨
      ∃ inner, action = .during inner ∧ callStep s inner = some t := by
  cases action with
  | call args =>
      obtain ⟨outside,equal⟩ := Option.ite_none_right_eq_some.mp taken
      exact .inl ⟨args,rfl,outside,(Option.some.inj equal).symm⟩
  | program ipinfo content =>
      obtain ⟨outside,equal⟩ := Option.ite_none_right_eq_some.mp taken
      exact .inr (.inl ⟨ipinfo,content,rfl,outside,(Option.some.inj equal).symm⟩)
  | during inner => exact .inr (.inr ⟨inner,rfl,taken⟩)

def Numbered (s : State) : Prop := ∀ w ∈ s.workers, w.call ≤ s.call

theorem callStep_numbered (numbered : Numbered s) (taken : callStep s action = some t) : Numbered t := by
  cases action with
  | caller created =>
      cases callerStep_advances taken with
      | created place =>
          intro w member
          rcases List.mem_append.mp member with old | new
          · exact numbered w old
          · rw [List.mem_singleton] at new
            subst new
            exact Nat.le_refl _
      | _ => exact numbered
  | worker i event =>
      obtain ⟨w,shared,v,found,moves,rfl⟩ := callStep_worker taken
      obtain ⟨call,_,call',_,_⟩ := moves.same
      intro u member
      rcases List.mem_or_eq_of_mem_set member with old | rfl
      · exact call'.symm ▸ numbered u old
      · have before := numbered w (List.mem_of_getElem? found)
        exact call'.symm ▸ call.symm ▸ before

theorem step_numbered (numbered : Numbered s) (taken : step s action = some t) : Numbered t := by
  rcases step_cases taken with ⟨args,rfl,_,rfl⟩ | ⟨ipinfo,content,rfl,_,rfl⟩ | ⟨inner,rfl,taken⟩
  · intro w member
    exact Nat.le_succ_of_le (numbered w member)
  · exact numbered
  · exact callStep_numbered numbered taken

-- This holds whatever the process has done before.
theorem call_entered (path : Sequence step (initial tables) actions s)
    (gone : ∀ w ∈ s.workers, ∃ ret, w.pc = .ended ret) (args : Args) : Entered (enter s args) := by
  have numbered : Numbered s :=
    path.preserves (I:=Numbered) (fun _ _ _ => step_numbered) (fun w member => by cases member)
  refine ⟨rfl,rfl,by simp [State.table,enter],fun w member => ⟨?_,gone w member⟩⟩
  have before := numbered w member
  simp only [enter]
  omega

-- Pieces of concrete runs: a call up to its first poll, and a thread up to the lock.
def garbage : MultiDns := ⟨0,0,0,none⟩

def advance : CallAction := .caller true

def started : List CallAction := List.replicate 9 advance

def argumentsRead (i : Nat) : List CallAction :=
  [Field.host,.ipinfo,.timeout,.dnsserver].map (fun field => .worker i (.read field garbage)) ++ [.worker i .go]

def answered (i : Nat) (reply : Reply) : List CallAction :=
  argumentsRead i ++ [.worker i (.socket true),.worker i .go,.worker i (.sendto true),.worker i (.receive (some reply)),
    .worker i .go]

def blank : Nat → SocketIpinfo := fun _ => emptyTable

def blankCall : State := enter (initial blank) ⟨0,0,3000⟩

theorem blankCall_entered : Entered blankCall := call_entered (.nil : Sequence step (initial blank) [] _) (by simp [initial]) _

def twoAddresses : Reply := ⟨[some address1,none,some address1],by decide⟩

end PersonalJournal.Resolver
