import PersonalJournal.Lib.Allocation
import PersonalJournal.Lib.Loop
import PersonalJournal.Lib.Transition
import PersonalJournal.Dns.Ipv4Lookup
import PersonalJournal.Dns.SingleLookup

namespace PersonalJournal.DualStack
open Bytes DomainName ResourceRecord Query Nat64 Reply Transition Allocation
open ReadName hiding Allocator
open Answer hiding SocketIpinfo
open SingleServer (bufLen)
open Ipv4Lookup (SocketIpinfo Ended query)
open SingleLookup (Response6)

-- TLocalIPStack
inductive IpStack where
  | none
  | ipv4
  | ipv6
  | dual
  deriving DecidableEq

-- What a descriptor was opened for.
inductive Use where
  | probe
  | query
  deriving DecidableEq

-- The statics of dnsquery.cc, and the descriptors that the file has open, which are kept as the
-- blocks of a heap are.
structure Process where
  ipv4 : Bool
  net_family : IpStack
  files : Heap Use

def Process.start : Process := ⟨true,.none,⟨[],List.nodup_nil⟩⟩

-- close() of a number that is not open fails, and changes nothing.
def close (files : Heap Use) (fd : Nat) : Heap Use := (files.free fd).getD files

inductive Connect where
  | done
  | interrupted
  | failed
  deriving DecidableEq

-- What socket() and the calls of connect() answer in one _test_connect.
structure Probe where
  opens : Bool
  connect : Nat → Connect

-- do … while (ret < 0 && errno == EINTR), from call number i on.
def connectTurn (probe : Probe) (i : Nat) : Loop.Turn Nat Bool := match probe.connect i with
  | .done => .leave true
  | .interrupted => .again (i+1)
  | .failed => .leave false

-- The descriptor is not closed, whatever connect answered. Which number it is given, `numbers` says.
def testConnect (numbers : Allocator Use) (fuel : Nat) (probe : Probe) (s : Process) : Option (Bool × Process) :=
  if probe.opens then
    let s := {s with files := s.files.malloc numbers .probe}
    (Loop.run (connectTurn probe) fuel 0).map (fun success => (success,s))
  else some (false,s)

def stackOf (have_ipv4 have_ipv6 : Bool) : IpStack :=
  let net_family := .none
  let net_family := if have_ipv4 then .ipv4 else net_family
  let net_family := if have_ipv6 then .ipv6 else net_family
  if have_ipv4 && have_ipv6 then .dual else net_family

structure Probes where
  ipv4 : Probe
  ipv6 : Probe

def checknetfamily (numbers : Allocator Use) (fuel : Nat) (probes : Probes) (s : Process) : Option Process := do
  let (have_ipv4,s) ← testConnect numbers fuel probes.ipv4 {s with net_family := .none}
  let (have_ipv6,s) ← testConnect numbers fuel probes.ipv6 s
  some {s with net_family := stackOf have_ipv4 have_ipv6}

-- What a caller passes, and the world of its call.
structure Request where
  env : Env
  pid : Nat
  host : Option (List UInt8)
  ipinfo : Option SocketIpinfo
  timeout : Int
  dnsserver : Option (List UInt8)

-- The body of both lookups behind the store to ipv4. They differ in what they do with _dnsserver
-- before the question is packed.
def lookup (numbers : Allocator Use) (fuel : Nat) (readServer : Option (List UInt8) → Except Stop Unit)
    (r : Request) (s : Process) : Except Stop (Ended × Process) :=
  match r.host,r.ipinfo with
  | some name,some t =>
    if r.env.opens then do
      let sockfd := numbers.place s.files
      let s := {s with files := s.files.malloc numbers .query}
      readServer r.dnsserver
      let (ret,t,sent) ← query s.ipv4 r.env r.pid fuel name t r.timeout
      return (.returned ret (some t) sent,{s with files := close s.files sockfd})
    else return (.exited,s)
  | _,_ => return (.returned (-1) r.ipinfo [],s)

-- inet_pton reads _dnsserver without a test for NULL.
def socketv6Gethostbyname (numbers : Allocator Use) (fuel : Nat) (r : Request) (s : Process) :
    Except Stop (Ended × Process) :=
  lookup numbers fuel (fun dnsserver => (orFault dnsserver).map (fun _ => ())) r {s with ipv4 := false}

-- The packets go to 8.8.8.8.
def socketv4Gethostbyname (numbers : Allocator Use) (fuel : Nat) (r : Request) (s : Process) :
    Except Stop (Ended × Process) :=
  lookup numbers fuel (fun _ => .ok ()) r {s with ipv4 := true}

def socketGethostbyname (numbers : Allocator Use) (fuel : Nat) (probes : Probes) (r : Request) (s : Process) :
    Except Stop (Ended × Process) :=
  match checknetfamily numbers fuel probes s with
  | none => .error .spin
  | some s =>
    if s.net_family = .ipv6 then socketv6Gethostbyname numbers fuel r s else socketv4Gethostbyname numbers fuel r s

inductive Call where
  | v4 (fuel : Nat) (request : Request)
  | v6 (fuel : Nat) (request : Request)
  | either (fuel : Nat) (probes : Probes) (request : Request)

def perform (numbers : Allocator Use) (s : Process) : Call → Except Stop (Ended × Process)
  | .v4 fuel r => socketv4Gethostbyname numbers fuel r s
  | .v6 fuel r => socketv6Gethostbyname numbers fuel r s
  | .either fuel probes r => socketGethostbyname numbers fuel probes r s

-- The process goes on when a call has returned.
def step (numbers : Allocator Use) (s : Process) (c : Call) : Option Process := match perform numbers s c with
  | .ok (.returned _ _ _,next) => some next
  | _ => none

-- The lookup for IPv4 of this file, without the descriptors.
theorem v4_project (numbers : Allocator Use) (fuel : Nat) (r : Request) (s : Process) :
    (socketv4Gethostbyname numbers fuel r s).map Prod.fst =
      Ipv4Lookup.socketv4Gethostbyname r.env r.pid fuel r.host r.ipinfo r.timeout := by
  obtain ⟨env,pid,host,ipinfo,timeout,dnsserver⟩ := r
  unfold socketv4Gethostbyname lookup Ipv4Lookup.socketv4Gethostbyname
  cases host with
  | none => rfl
  | some name =>
      cases ipinfo with
      | none => rfl
      | some t =>
          dsimp only
          generalize query true env pid fuel name t timeout = queried
          cases env.opens with
          | false => rfl
          | true => cases queried <;> rfl

-- Between two moments so many descriptors of probes have been opened for good, and nothing else.
def LeavesOpen (files : Heap Use) (n : Nat) (later : Heap Use) : Prop :=
  ∃ opened : List Nat, opened.length = n ∧ later.Holds (opened.map (·,.probe) ++ files.blocks)

theorem LeavesOpen.refl (files : Heap Use) : LeavesOpen files 0 files := ⟨[],rfl,.self files⟩

theorem LeavesOpen.trans (one : LeavesOpen files m middle) (two : LeavesOpen middle n later) : LeavesOpen files (m+n) later := by
  obtain ⟨first,length,held⟩ := one
  obtain ⟨second,length',held'⟩ := two
  refine ⟨second ++ first,?_,?_⟩
  · rw [List.length_append,length,length',Nat.add_comm]
  · have joined := held'.perm (List.Perm.append_left (second.map (·,Use.probe)) held)
    rwa [← List.append_assoc,← List.map_append] at joined

-- A descriptor that is opened and closed again.
theorem close_opened (numbers : Allocator Use) (files : Heap Use) :
    LeavesOpen files 0 (close (files.malloc numbers .query) (numbers.place files)) := by
  obtain ⟨next,freed,held⟩ := ((Heap.Holds.self files).malloc numbers .query).free
  rw [close,freed]
  exact ⟨[],rfl,held⟩

def Probe.leaks (probe : Probe) : Nat := if probe.opens then 1 else 0

def Call.leaks : Call → Nat
  | .v4 _ _ => 0
  | .v6 _ _ => 0
  | .either _ probes _ => probes.ipv4.leaks+probes.ipv6.leaks

-- The descriptors behind a probe.
def Probe.opened (numbers : Allocator Use) (probe : Probe) (files : Heap Use) : Heap Use :=
  if probe.opens then files.malloc numbers .probe else files

theorem opened_leaves (numbers : Allocator Use) (probe : Probe) (files : Heap Use) :
    LeavesOpen files probe.leaks (probe.opened numbers files) := by
  unfold Probe.opened Probe.leaks
  split
  · exact ⟨[numbers.place files],rfl,(Heap.Holds.self files).malloc numbers .probe⟩
  · exact .refl files

theorem testConnect_opened {s next : Process} (tested : testConnect numbers fuel probe s = some (success,next)) :
    next = {s with files := probe.opened numbers s.files} := by
  unfold testConnect at tested
  unfold Probe.opened
  split at tested
  · rename_i opens
    obtain ⟨came,_,same⟩ := Option.map_eq_some_iff.mp tested
    cases same
    rw [if_pos opens]
  · rename_i closed
    cases tested
    rw [if_neg closed]

theorem checknetfamily_leaves {s next : Process} (checked : checknetfamily numbers fuel probes s = some next) :
    LeavesOpen s.files (probes.ipv4.leaks+probes.ipv6.leaks) next.files := by
  unfold checknetfamily at checked
  obtain ⟨⟨one,middle⟩,first,checked⟩ := Option.bind_eq_some_iff.mp checked
  obtain ⟨⟨two,last⟩,second,checked⟩ := Option.bind_eq_some_iff.mp checked
  cases checked
  have opened := opened_leaves numbers probes.ipv4 s.files
  have opened' := opened_leaves numbers probes.ipv6 middle.files
  rw [testConnect_opened second]
  rw [testConnect_opened first] at opened' ⊢
  exact opened.trans opened'

theorem lookup_closes {s next : Process} (done : lookup numbers fuel readServer r s = .ok (ended,next)) :
    LeavesOpen s.files 0 next.files := by
  unfold lookup at done
  split at done
  · split at done
    · obtain ⟨_,_,done⟩ := bind_ok.mp done
      obtain ⟨_,_,done⟩ := bind_ok.mp done
      cases done
      exact close_opened numbers s.files
    · cases done
      exact .refl s.files
  · cases done
    exact .refl s.files

theorem v4_closes {s next : Process} (done : socketv4Gethostbyname numbers fuel r s = .ok (ended,next)) :
    LeavesOpen s.files 0 next.files := by
  unfold socketv4Gethostbyname at done
  have closed := lookup_closes done
  exact closed

theorem v6_closes {s next : Process} (done : socketv6Gethostbyname numbers fuel r s = .ok (ended,next)) :
    LeavesOpen s.files 0 next.files := by
  unfold socketv6Gethostbyname at done
  have closed := lookup_closes done
  exact closed

theorem perform_leaves {s next : Process} (performed : perform numbers s c = .ok (ended,next)) :
    LeavesOpen s.files c.leaks next.files := by
  cases c with
  | v4 fuel r => exact v4_closes performed
  | v6 fuel r => exact v6_closes performed
  | either fuel probes r =>
      have performed : socketGethostbyname numbers fuel probes r s = .ok (ended,next) := performed
      unfold socketGethostbyname at performed
      split at performed
      · cases performed
      · rename_i middle checked
        have probed := checknetfamily_leaves checked
        split at performed
        · exact probed.trans (v6_closes performed)
        · exact probed.trans (v4_closes performed)

def leaked : List Call → Nat
  | [] => 0
  | call :: rest => call.leaks+leaked rest

-- What a probe finds out. connect may be interrupted any number of times first.
def Answers (probe : Probe) (success : Bool) : Prop :=
  if probe.opens then Loop.Leaves (connectTurn probe) 0 success else success = false

theorem testConnect_settles (numbers : Allocator Use) (answers : Answers probe success) (s : Process) :
    Loop.Settles (fun fuel => testConnect numbers fuel probe s) (success,{s with files := probe.opened numbers s.files}) := by
  unfold Answers at answers
  unfold testConnect Probe.opened
  split at answers
  · rename_i opens
    simp only [if_pos opens]
    exact answers.settles.map (fun success => (success,{s with files := s.files.malloc numbers .probe}))
  · rename_i closed
    simp only [if_neg closed]
    subst answers
    exact .done _

-- The process when the family has been found out.
def family (numbers : Allocator Use) (have4 have6 : Bool) (probes : Probes) (s : Process) : Process :=
  ⟨s.ipv4,stackOf have4 have6,probes.ipv6.opened numbers (probes.ipv4.opened numbers s.files)⟩

theorem checknetfamily_settles (numbers : Allocator Use) (answers4 : Answers probes.ipv4 have4)
    (answers6 : Answers probes.ipv6 have6) (s : Process) :
    Loop.Settles (fun fuel => checknetfamily numbers fuel probes s) (family numbers have4 have6 probes s) := by
  unfold checknetfamily
  refine (testConnect_settles numbers answers4 {s with net_family := .none}).bind ?_
  refine (testConnect_settles numbers answers6 ⟨s.ipv4,.none,probes.ipv4.opened numbers s.files⟩).bind ?_
  exact .done _

def storedV6 (t : SocketIpinfo) : List In6Addr := t.v6_addr.toList.take t.size.toNat

-- The table with both kinds of address is filled as the one with IPv6 addresses only.
theorem addV6_lift (t : SocketIpinfo) (v6 : Answer.SocketIpinfo) (rdata : Block) :
    SocketIpinfo.add false (t.withV6 v6) rdata = (v6.add rdata).map t.withV6 := rfl

-- A lookup for IPv6 that is answered, whatever earlier calls have left in the statics.
theorem v6_settles (numbers : Allocator Use) (granted : ∀ k, r.env.alloc.grants k = true) (host : HostName)
    (asks : r.host = some host.text) (table : r.ipinfo = some t) (server : r.dnsserver = some server')
    (opens : r.env.opens = true) (delivered : Delivers r.env (effective r.timeout) datagram)
    (response : Response6 PlainName host records datagram) (s : Process) :
    ∃ fuel full sent files, storedV6 full = addresses records ∧ full.size = (addresses records).length ∧
      full.v4_addr = t.v4_addr ∧ (∀ p ∈ sent, p = packet r.pid host.labels) ∧
      ∀ more, fuel ≤ more → socketv6Gethostbyname numbers more r s =
        .ok (.returned (if addresses records = [] then -1 else 0) (some full) sent,⟨false,s.net_family,files⟩) := by
  obtain ⟨fuel,answers,full,collected,size,list,read⟩ :=
    reply_collected granted no_alias v6_values response ipinfo_fills r.env.behind ⟨0,t.v6_addr⟩ rfl
  rw [empty_stored (t:=⟨0,t.v6_addr⟩) rfl,List.nil_append] at list
  have lifted := collectWith_lift (addV6_lift t) collected
  have ran := Ipv4Lookup.query_run false host r.pid delivered response
  have empty : full.size ≤ 0 ↔ addresses records = [] := none_reported size
  refine ⟨fuel,t.withV6 full,(attempts r.env (effective r.timeout) (packet r.pid host.labels) 3 0).2,
    close (s.files.malloc numbers .query) (numbers.place s.files),list,size,rfl,attempts_sent _ _ _ 3 0,?_⟩
  intro more enough
  have parse : readAnswers (Ipv4Lookup.wanted false) _ _ _ _ _ _ = .ok answers := read more enough
  have lifted : collectWith (Ipv4Lookup.wanted false) (SocketIpinfo.add false) _ answers _ 0 {t with size := 0} =
    .ok (t.withV6 full) := lifted
  have empty : (t.withV6 full).size ≤ 0 ↔ addresses records = [] := empty
  simp only [socketv6Gethostbyname,lookup,asks,table,if_pos opens,server,orFault_some,Except.map,ran,parse,lifted,ok_bind,
    empty,pure_ok]
  rfl

-- No route for IPv4, and one for IPv6 that a signal interrupts once.
def ipv6Only : Probes := ⟨⟨true,fun _ => .failed⟩,⟨true,fun i => if i = 0 then .interrupted else .done⟩⟩

def dualTable : SocketIpinfo := ⟨7,emptyTable.v6_addr,Vector.replicate 20 0⟩

def aliasRequest : Request := ⟨repliedWith aliasReply,1,some hostA.text,some dualTable,3000,some [58,58,49]⟩

theorem alias_response6 : Response6 PlainName hostA aliasRecords aliasReply := by
  obtain ⟨short,announced,echoed,answers⟩ := alias_response
  exact ⟨Nat.le_trans short (by decide),announced,echoed,answers⟩

theorem alias_delivered6 : Delivers aliasRequest.env (effective aliasRequest.timeout) aliasReply := alias_delivered

def nobody : Request := ⟨repliedWith [],1,none,none,0,none⟩

end PersonalJournal.DualStack
