import Mathlib.Logic.Function.Basic
import PersonalJournal.Lib.Transition
import PersonalJournal.P2p.Framing

namespace PersonalJournal.Server
open Registry Framing Transition

-- A bufferevent in use: the address that is its user data, and its input buffer.
structure Connection where
  client : SockaddrIn
  input : List UInt8

structure State (β : Type) where
  connections : β → Option Connection
  -- s_pall_device_info, and whether an assertion has stopped the server.
  devices : DeviceList β
  stopped : Bool

def State.start : State β := ⟨fun _ => none,[],false⟩

inductive Action (β : Type) where
  -- listener_cb with the answers of calloc and bufferevent_socket_new
  | accept (bev : β) (client : SockaddrIn) (granted created : Bool)
  | read (bev : β) (seg : Segment) (io : Io)
  -- conn_event_cb on EOF or an error
  | event (bev : β)

def State.query (s : State β) (io : Io) (bev : β) (src query : UInt64) : State β × Outcome β :=
  match processQueryDeviceInfoCmd io s.devices bev src query with
  | .aborted => ({s with stopped := true},.aborted)
  | .returned ret writes => (s,.returned ret writes)

def Outcome.writes : Outcome β → List (β × Msg)
  | .aborted => []
  | .returned _ writes => writes

-- The switch of conn_read_cb: the state behind it and what was written.
def State.serve (s : State β) (io : Io) (bev : β) (client : SockaddrIn) (m : Msg) : State β × List (β × Msg) :=
  match m.head.cmd,m.data with
  | .ping,.ping ping => ({s with devices := (processPingCmd io s.devices bev ping client).2},[])
  | .queryDeviceInfoRequest,.deviceInfo info =>
      let (s,outcome) := s.query io bev m.head.src_device_sn info.device_sn
      (s,Outcome.writes outcome)
  | _,_ => (s,[])

variable {β : Type} [DecidableEq β] {s next : State β} {action : Action β}

def State.hold (s : State β) (bev : β) (c : Option Connection) : State β :=
  {s with connections := Function.update s.connections bev c}

def State.connRead (s : State β) (bev : β) (c : Connection) (seg : Segment) (io : Io) : State β × List (β × Msg) :=
  let (m,left) := Framing.connRead seg.request seg.body (c.input ++ seg.octets)
  let s := s.hold bev (some {c with input := left})
  match m with
  | none => (s,[])
  | some m => s.serve io bev c.client m

def State.writes (s : State β) : Action β → List (β × Msg)
  | .read bev seg io => match s.connections bev with
      | none => []
      | some c => (s.connRead bev c seg io).2
  | _ => []

-- A new bufferevent may get the address of a freed one. conn_event_cb frees the
-- bufferevent and its user data; the registry is not looked at.
def step (s : State β) : Action β → Option (State β)
  | .accept bev client granted created =>
      if s.stopped ∨ (s.connections bev).isSome then none
      else some (if granted && created then s.hold bev (some ⟨client,[]⟩) else s)
  | .read bev seg io =>
      if s.stopped then none else (s.connections bev).map (fun c => (s.connRead bev c seg io).1)
  | .event bev =>
      if s.stopped then none else (s.connections bev).map (fun _ => s.hold bev none)

def State.Open (s : State β) (bev : β) : Prop := (s.connections bev).isSome = true

def State.Live (s : State β) : Prop := ∀ e ∈ s.devices, s.Open e.pbev

-- Every entry holds an open connection, and PUNCH_HOLE goes only to such.
structure Guarded (s : State β) (action : Action β) (next : State β) : Prop where
  live : next.Live
  punches : ∀ w ∈ s.writes action, w.2.head.cmd = .punchHole → s.Open w.1

-- The connection that ends is in no entry.
def Unreferenced (s : State β) : Action β → State β → Prop
  | .event bev,_ => ∀ e ∈ s.devices, e.pbev ≠ bev
  | _,_ => True

omit [DecidableEq β] in
theorem run_pdst (scan : Scan β) (all : DeviceList β) (found : (scan.run src query all).pdst = some bev) :
    scan.pdst = some bev ∨ ∃ e ∈ all, e.pbev = bev := by
  induction all generalizing scan with
  | nil => exact .inl found
  | cons e rest ih =>
      have visited : ∀ b, (scan.visit src query e).pdst = some b → scan.pdst = some b ∨ e.pbev = b := by
        intro b here
        by_cases asked : e.device_sn = query
        · right
          simp only [Scan.visit,if_pos asked] at here
          split at here <;> exact Option.some.inj here
        · left
          simp only [Scan.visit,if_neg asked] at here
          split at here <;> exact here
      have now : (scan.visit src query e).pdst = some bev ∨ ∃ f ∈ rest, f.pbev = bev := by
        rw [Scan.run] at found
        split at found
        · exact .inl found
        · exact ih _ found
      rcases now with here | ⟨f,member,same⟩
      · rcases visited bev here with before | same
        · exact .inl before
        · exact .inr ⟨e,List.mem_cons_self,same⟩
      · exact .inr ⟨f,List.mem_cons_of_mem _ member,same⟩

omit [DecidableEq β] in
theorem run_answers (scan : Scan β) (all : DeviceList β) (other : scan.cmd ≠ .punchHole) :
    (scan.run src query all).cmd ≠ .punchHole := by
  induction all generalizing scan with
  | nil => exact other
  | cons e rest ih =>
      have kept : (scan.visit src query e).cmd ≠ .punchHole := by
        by_cases asked : e.device_sn = query
        · have answers : Cmd.queryDeviceInfoResponse ≠ .punchHole := by decide
          simp only [Scan.visit,if_pos asked]
          split <;> exact answers
        · simp only [Scan.visit,if_neg asked]
          split <;> exact other
      rw [Scan.run]
      split
      · exact kept
      · exact ih _ kept

omit [DecidableEq β] in
theorem query_kept (s : State β) (io : Io) (bev : β) (src query : UInt64) :
    (s.query io bev src query).1.connections = s.connections ∧ (s.query io bev src query).1.devices = s.devices := by
  unfold State.query
  split
  · exact ⟨rfl,rfl⟩
  · exact ⟨rfl,rfl⟩

-- A query writes to entries, and to the requester nothing that punches.
omit [DecidableEq β] in
theorem query_writes (s : State β) (io : Io) (bev : β) (src query : UInt64)
    (member : w ∈ Outcome.writes (s.query io bev src query).2) :
    (∃ e ∈ s.devices, e.pbev = w.1) ∨ w.1 = bev ∧ w.2.head.cmd ≠ .punchHole := by
  unfold State.query at member
  split at member
  · cases member
  · rename_i ret writes ran
    have towards : ∀ pdst, (Scan.start.run src query s.devices).pdst = some pdst → ∃ e ∈ s.devices, e.pbev = pdst := by
      intro pdst found
      rcases run_pdst .start s.devices found with none | entry
      · cases none
      · exact entry
    rcases process_writes ran with rfl | ⟨pdst,found,rfl | rfl⟩
    · cases member
    · cases List.mem_singleton.mp member
      exact .inl (towards pdst found)
    · rcases List.mem_cons.mp member with rfl | second
      · exact .inl (towards pdst found)
      · cases List.mem_singleton.mp second
        exact .inr ⟨rfl,run_answers .start s.devices (fun same => by cases same)⟩

omit [DecidableEq β] in
theorem serve_kept (s : State β) (io : Io) (bev : β) (client : SockaddrIn) (m : Msg) :
    (s.serve io bev client m).1.connections = s.connections ∧
      ∀ e ∈ (s.serve io bev client m).1.devices, e ∈ s.devices ∨ e.pbev = bev := by
  unfold State.serve
  split
  · rename_i ping _ _
    refine ⟨rfl,?_⟩
    intro e member
    unfold processPingCmd at member
    split at member
    · rcases List.mem_cons.mp member with rfl | old
      · exact .inr rfl
      · exact .inl old
    · exact .inl member
  · have kept := query_kept s io bev m.head.src_device_sn
    refine ⟨(kept _).1,?_⟩
    intro e member
    rw [(kept _).2] at member
    exact .inl member
  · exact ⟨rfl,fun e member => .inl member⟩

omit [DecidableEq β] in
theorem serve_writes (s : State β) (io : Io) (bev : β) (client : SockaddrIn) (m : Msg)
    (member : w ∈ (s.serve io bev client m).2) :
    (∃ e ∈ s.devices, e.pbev = w.1) ∨ w.1 = bev ∧ w.2.head.cmd ≠ .punchHole := by
  unfold State.serve at member
  split at member
  · cases member
  · exact query_writes s io bev _ _ member
  · cases member

theorem hold_open (s : State β) (c : Connection) (either : s.Open other ∨ other = bev) : (s.hold bev (some c)).Open other := by
  unfold State.Open State.hold
  dsimp only
  by_cases same : other = bev
  · rw [same,Function.update_self]
    rfl
  · rw [Function.update_of_ne same]
    rcases either with was | is
    · exact was
    · exact absurd is same

theorem connRead_kept (s : State β) (bev : β) (c : Connection) (seg : Segment) (io : Io) :
    (∀ other, s.Open other ∨ other = bev → (s.connRead bev c seg io).1.Open other) ∧
      ∀ e ∈ (s.connRead bev c seg io).1.devices, e ∈ s.devices ∨ e.pbev = bev := by
  unfold State.connRead
  dsimp only
  split
  · exact ⟨fun other either => hold_open s _ either,fun e member => .inl member⟩
  · rename_i m _
    have kept := serve_kept (s.hold bev (some {c with
      input := (Framing.connRead seg.request seg.body (c.input ++ seg.octets)).2})) io bev c.client m
    refine ⟨?_,kept.2⟩
    intro other either
    unfold State.Open
    rw [kept.1]
    exact hold_open s _ either

theorem writes_to (s : State β) (action : Action β) (member : w ∈ s.writes action) :
    (∃ e ∈ s.devices, e.pbev = w.1) ∨ s.Open w.1 ∧ w.2.head.cmd ≠ .punchHole := by
  cases action with
  | accept => cases member
  | event => cases member
  | read bev seg io =>
      unfold State.writes at member
      dsimp only at member
      split at member
      · cases member
      · rename_i c here
        unfold State.connRead at member
        dsimp only at member
        split at member
        · cases member
        · rcases serve_writes (s.hold bev _) io bev _ _ member with entry | ⟨own,other⟩
          · exact .inl entry
          · refine .inr ⟨?_,other⟩
            rw [own]
            exact Option.isSome_iff_exists.mpr ⟨c,here⟩

-- What a step can do.
inductive Moves (s : State β) : Action β → State β → Prop where
  | accepted : Moves s (.accept bev client granted created) (s.hold bev (some ⟨client,[]⟩))
  | declined : Moves s (.accept bev client granted created) s
  | read : s.connections bev = some c → Moves s (.read bev seg io) (s.connRead bev c seg io).1
  | closed : s.connections bev = some c → Moves s (.event bev) (s.hold bev none)

theorem step_moves (taken : step s action = some next) : Moves s action next := by
  cases action with
  | accept bev client granted created =>
      simp only [step] at taken
      split at taken
      · cases taken
      · cases Option.some.inj taken
        split
        · exact .accepted
        · exact .declined
  | read bev seg io =>
      simp only [step] at taken
      split at taken
      · cases taken
      · obtain ⟨c,here,rfl⟩ := Option.map_eq_some_iff.mp taken
        exact .read here
  | event bev =>
      simp only [step] at taken
      split at taken
      · cases taken
      · obtain ⟨c,here,rfl⟩ := Option.map_eq_some_iff.mp taken
        exact .closed here

theorem step_live (live : s.Live) (taken : step s action = some next) (kind : Unreferenced s action next) : next.Live := by
  cases step_moves taken with
  | accepted => exact fun e member => hold_open s _ (.inl (live e member))
  | declined => exact live
  | @read bev c seg io here =>
      obtain ⟨stays,entries⟩ := connRead_kept s bev c seg io
      intro e member
      apply stays
      rcases entries e member with old | own
      · exact .inl (live e old)
      · exact .inr own
  | @closed bev c here =>
      intro e member
      have apart : e.pbev ≠ bev := kind e member
      unfold State.Open State.hold
      dsimp only
      rw [Function.update_of_ne apart]
      exact live e member

theorem step_guarded (live : s.Live) (taken : step s action = some next) (kind : Unreferenced s action next) :
    Guarded s action next := by
  refine ⟨step_live live taken kind,?_⟩
  intro w member punch
  rcases writes_to s action member with ⟨e,entry,same⟩ | ⟨_,other⟩
  · rw [← same]
    exact live e entry
  · exact absurd punch other

theorem guarded_unreferenced (taken : step s action = some next) (guarded : Guarded s action next) :
    Unreferenced s action next := by
  cases step_moves taken with
  | accepted => trivial
  | declined => trivial
  | read => trivial
  | @closed bev c here =>
      intro e member same
      have still : (s.hold bev none).Open e.pbev := guarded.live e member
      unfold State.Open State.hold at still
      dsimp only at still
      rw [same,Function.update_self] at still
      cases still

theorem registry_live (actions : List (Action β)) (s : State β) :
    Along step Guarded State.start actions s ↔ Along step Unreferenced State.start actions s := by
  have start : (State.start : State β).Live := by
    intro e member
    cases member
  constructor
  · intro along
    refine along.imp (I:=fun _ => True) (fun _ _ _ _ _ _ => trivial) ?_ trivial
    exact fun _ _ _ _ taken guarded => guarded_unreferenced taken guarded
  · intro along
    refine along.imp (I:=State.Live) ?_ ?_ start
    · exact fun _ _ _ live taken kind => step_live live taken kind
    · exact fun _ _ _ live taken kind => step_guarded live taken kind

-- The callback writes to no bufferevent that has been freed, which is where C leaves the run open.
def State.Writable (s : State β) (action : Action β) : Prop := ∀ w ∈ s.writes action, s.Open w.1

instance (s : State β) (action : Action β) : Decidable (s.Writable action) :=
  inferInstanceAs (Decidable (∀ w ∈ s.writes action, (s.connections w.1).isSome = true))

theorem live_writable (live : s.Live) (action : Action β) : s.Writable action := by
  intro w member
  rcases writes_to s action member with ⟨e,entry,same⟩ | ⟨own,_⟩
  · rw [← same]
    exact live e entry
  · exact own

-- While no connection ends that is in an entry, there is nothing of the kind.
theorem unreferenced_writable {actions : List (Action β)} (along : Along step Unreferenced State.start actions s) :
    Along step (fun s action _ => s.Writable action) State.start actions s := by
  refine along.imp (I:=State.Live) ?_ ?_ (fun e member => by cases member)
  · exact fun _ _ _ live taken kind => step_live live taken kind
  · exact fun _ _ _ live _ _ => live_writable live _

theorem writable_reaches (actions : List (Action β))
    (ran : (run (fun s action => if decide (s.Writable action) then step s action else none) State.start actions).isSome) :
    ∃ t, Along step (fun s action _ => s.Writable action) State.start actions t := by
  obtain ⟨t,path⟩ := run_reaches ran
  exact ⟨t,path.checked (fun s action => decide (s.Writable action)) (fun _ _ _ passed => of_decide_eq_true passed)⟩

def ping2222 : Msg := ⟨⟨p2pTransferMagic,0,2222,0,sizeofMsgPing,.ping⟩,.ping ⟨2222,4⟩⟩

def query1111 : Msg :=
  ⟨⟨p2pTransferMagic,0,2222,0,sizeofMsgDeviceInfo,.queryDeviceInfoRequest⟩,
    .deviceInfo {MsgDeviceInfo.zero with device_sn := 1111}⟩

def writtenBy (bev : Nat) (m : Msg) : Action Nat := .read bev ⟨wire m,true,true⟩ .good

def deviceLeft : List (Action Nat) :=
  [.accept 1 ⟨0x0a000001,5152⟩ true true,writtenBy 1 ping1111,.accept 2 ⟨0x0a000002,5152⟩ true true,
    writtenBy 2 ping2222,.event 1]

-- A device registers and closes its connection; the next query about it writes to
-- the freed bufferevent.
theorem device_left_dangling :
    ∃ s, Sequence step State.start deviceLeft s ∧ ¬ s.Live ∧ ¬ Along step Guarded State.start deviceLeft s ∧
      ∃ w ∈ s.writes (writtenBy 2 query1111), w.2.head.cmd = .punchHole ∧ ¬ s.Open w.1 := by
  have ran : (run step (State.start : State Nat) deviceLeft).isSome = true := by decide
  obtain ⟨s,path⟩ := run_reaches ran
  have entry := path.tested (fun s => s.devices.any (fun e => !(s.connections e.pbev).isSome)) (by decide)
  have punched := path.tested (fun s => (s.writes (writtenBy 2 query1111)).any
    (fun w => w.2.head.cmd = .punchHole && !(s.connections w.1).isSome)) (by decide)
  obtain ⟨e,member,closed⟩ := List.any_eq_true.mp entry
  obtain ⟨w,written,wrong⟩ := List.any_eq_true.mp punched
  have dead : ¬ s.Live := by
    intro live
    have held := live e member
    unfold State.Open at held
    rw [held] at closed
    cases closed
  refine ⟨s,path,dead,?_,w,written,?_⟩
  · intro along
    have last : deviceLeft = deviceLeft.dropLast ++ [.event 1] := rfl
    rw [last] at along
    obtain ⟨_,_,_,guarded⟩ := along.last
    exact dead guarded.live
  · simpa [State.Open] using wrong

-- The registry behind any PINGs, whether or not calloc had memory for their entries.
def registry (history : List (Io × Arrival β)) : DeviceList β :=
  history.foldl (fun all a => (processPingCmd a.1 all a.2.pbev a.2.ping a.2.client).2) []

def Registered (all : DeviceList β) (sn : UInt64) : Prop := ∃ e ∈ all, e.device_sn = sn

-- The server runs on as it was, and the requester alone hears of the query, once.
def Refused (s : State β) (io : Io) (bev : β) (src query : UInt64) : Prop :=
  ∃ response, s.query io bev src query = (s,.returned (-1) [(bev,response)]) ∧ response.head.cmd = .unknownCmd

section Queries
omit [DecidableEq β]

theorem query_returned (ran : s.query io bev src query = (next,.returned ret writes)) :
    processQueryDeviceInfoCmd io s.devices bev src query = .returned ret writes := by
  unfold State.query at ran
  split at ran
  · cases ran
  · rename_i same
    rw [same]
    exact congrArg Prod.snd ran

-- Nothing is ever sent before PUNCH_HOLE is.
theorem punch_first (ran : processQueryDeviceInfoCmd io all bev src query = .returned ret (w :: writes)) :
    w.2.head.cmd = .punchHole ∧ Registered all query := by
  have known : ∀ pdst, (Scan.start.run src query all).pdst = some pdst → Registered all query := by
    intro pdst found
    by_contra missing
    rw [run_unknown .start all (fun e member same => missing ⟨e,member,same⟩)] at found
    cases found
  rcases process_writes ran with none | ⟨pdst,found,one | two⟩
  · cases none
  · cases one
    exact ⟨rfl,known pdst found⟩
  · cases two
    exact ⟨rfl,known pdst found⟩

theorem unregistered_not_refused (connections : β → Option Connection) (history : List (Io × Arrival β)) (io : Io) (bev : β)
    (missing : ¬ Registered (registry history) query ∨ ¬ Registered (registry history) src) :
    ¬ Refused ⟨connections,registry history,false⟩ io bev src query := by
  intro ⟨response,ran,cmd⟩
  obtain ⟨punch,known⟩ := punch_first (query_returned ran)
  rcases missing with unknown | _
  · exact unknown known
  · rw [cmd] at punch
    cases punch

end Queries

theorem unregistered_not_refused_missing :
    ¬ Refused ⟨fun _ => none,registry [(.good,device1111)],false⟩ .good 1 1111 2222 :=
  unregistered_not_refused (fun _ => none) [(.good,device1111)] .good 1 (.inl (by
    intro ⟨e,member,same⟩
    cases List.mem_singleton.mp member
    exact absurd same (by decide)))

-- A device asks for one that is not there, and then an unknown one for it: the
-- assertion fails, or the registered device is told to punch a hole to nowhere.
theorem unregistered_query_fatal :
    (State.query ⟨fun _ => none,registry [(.good,device1111)],false⟩ .good 1 1111 2222).1.stopped = true ∧
      (State.query ⟨fun _ => none,registry [(.good,device1111)],false⟩ .good 2 2222 1111).2 =
        .returned 0 [(1,reply .punchHole .zero),(2,reply .queryDeviceInfoResponse ⟨1111,0x0a000001,5152,4⟩)] ∧
      ¬ Refused ⟨fun _ => none,registry [(.good,device1111)],false⟩ .good 1 1111 2222 ∧
      ¬ Refused ⟨fun _ => none,registry [(.good,device1111)],false⟩ .good 2 2222 1111 := by
  have aborted : (State.query ⟨fun _ => none,registry [(.good,device1111)],false⟩ .good 1 1111 2222).2 = .aborted := rfl
  have punched : (State.query ⟨fun _ => none,registry [(.good,device1111)],false⟩ .good 2 2222 1111).2 =
      .returned 0 [(1,reply .punchHole .zero),(2,reply .queryDeviceInfoResponse ⟨1111,0x0a000001,5152,4⟩)] := by decide
  refine ⟨rfl,punched,?_,?_⟩
  · intro ⟨response,ran,_⟩
    rw [ran] at aborted
    cases aborted
  · intro ⟨response,ran,_⟩
    rw [ran] at punched
    exact absurd punched (by simp)

end PersonalJournal.Server
