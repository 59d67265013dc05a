import PersonalJournal.P2p.Introduction
import PersonalJournal.P2p.Server

namespace PersonalJournal.Streams
open Fifo LittleEndian Registry Framing Transition Network Introduction

-- total_len of user_cb
def responseSize : Nat := headSize+deviceInfoSize

-- One run of a peer's conn_read_cb on its input buffer: what process_punch_hole_cmd gets,
-- and the octets left. request and body are the answers of calloc.
def peerConnRead (request body : Bool) (input : List UInt8) : Option MsgDeviceInfo × List UInt8 :=
  if request then
    let left := input.drop headSize
    if field (fetched headSize input) 36 4 = codeOf .punchHole then
      if body then (some (readDeviceInfo (fetched deviceInfoSize left)),left.drop deviceInfoSize) else (none,left)
    else (none,left)
  else (none,input)

-- What user_cb finds in presponse behind its recv.
def userRecv (octets : List UInt8) : Option MsgDeviceInfo :=
  let presponse := fetched responseSize octets
  if field presponse 36 4 = codeOf .unknownCmd then none else some (readDeviceInfo (presponse.drop headSize))

inductive Phase where
  | fresh
  | pinged
  | asked
  | answered
  deriving DecidableEq

structure State (P : Type) where
  connected : P → Bool
  phase : P → Phase
  server : Server.State P
  -- on the way to the server, and on the way to the peer
  up : P → List UInt8
  down : P → List UInt8
  -- come to the peer and not read by anybody, and in the input buffer of pping_bev
  socket : P → List UInt8
  input : P → List UInt8
  -- What connect_peer was called with.
  connects : P → List MsgDeviceInfo

def State.start (P : Type) : State P :=
  ⟨fun _ => false,fun _ => .fresh,.start,fun _ => [],fun _ => [],fun _ => [],fun _ => [],fun _ => []⟩

inductive Action (P : Type) where
  -- with the answers of listener_cb's calloc and bufferevent_socket_new
  | connect (p : P) (granted created : Bool)
  | ping (p : P)
  | query (p : P)
  -- n octets come to the server, and conn_read_cb runs once
  | arrive (p : P) (n : Nat) (request body : Bool) (io : Io)
  -- n octets come to the peer, and its recv or its conn_read_cb runs once
  | receive (p : P) (n : Nat) (request body : Bool)

variable {P : Type} [DecidableEq P]

def writeAll (down : P → List UInt8) (writes : List (P × Msg)) : P → List UInt8 :=
  writes.foldl (fun down w => Function.update down w.1 (down w.1 ++ wire w.2)) down

def State.connect (s : State P) (p : P) (info : Option MsgDeviceInfo) : State P :=
  {s with connects := Function.update s.connects p (s.connects p ++ info.toList)}

-- user_cb waits in recv, so that the event loop reads nothing.
def State.read (s : State P) (p : P) (octets : List UInt8) (request body : Bool) : State P :=
  if s.phase p = .asked then
    State.connect {s with
      phase := Function.update s.phase p .answered
      socket := Function.update s.socket p (octets.drop responseSize)} p (userRecv octets)
  else
    let (info,left) := peerConnRead request body (s.input p ++ octets)
    State.connect {s with socket := Function.update s.socket p [],input := Function.update s.input p left} p info

def step (peers : Peers P) (s : State P) : Action P → Option (State P)
  | .connect p granted created =>
      if s.connected p then none
      else (Server.step s.server (.accept p (peers.client p) granted created)).map fun server =>
        {s with connected := Function.update s.connected p true,server := server}
  | .ping p =>
      if s.connected p ∧ s.phase p = .fresh then
        some {s with phase := Function.update s.phase p .pinged
                     up := Function.update s.up p (s.up p ++ wire (peers.pingMsg p))}
      else none
  | .query p =>
      if s.phase p = .pinged ∧ peers.sn p ≠ testPeerDeviceSn then
        some {s with phase := Function.update s.phase p .asked
                     up := Function.update s.up p (s.up p ++ wire (peers.queryMsg p))}
      else none
  | .arrive p n request body io =>
      if n = 0 ∨ (s.up p).length < n then none
      else
        let read := Server.Action.read p ⟨(s.up p).take n,request,body⟩ io
        (Server.step s.server read).map fun server =>
          {s with up := Function.update s.up p ((s.up p).drop n)
                  server := server
                  down := writeAll s.down (s.server.writes read)}
  | .receive p n request body =>
      let octets := s.socket p ++ (s.down p).take n
      if octets = [] ∨ (s.down p).length < n then none
      else some (State.read {s with down := Function.update s.down p ((s.down p).drop n)} p octets request body)

-- What comes is one message, and the callback that it causes finds memory for it.
def Whole (s : State P) : Action P → State P → Prop
  | .connect _ granted created,_ => granted = true ∧ created = true
  | .arrive p n request body _,_ => request = true ∧ body = true ∧
      ∃ m rest, WellFormed m ∧ s.up p = wire m ++ rest ∧ n = (wire m).length
  | .receive _ n request body,_ => request = true ∧ body = true ∧ n = responseSize
  | _,_ => True

-- The step of the messages that shows.
def message : Action P → Option (Network.Action P)
  | .connect _ _ _ => none
  | .ping p => some (.ping p)
  | .query p => some (.query p)
  | .arrive p _ _ _ io => some (.serve p io)
  | .receive p _ _ _ => some (.receive p)

def stage : Network.Phase → Phase
  | .fresh => .fresh
  | .pinged => .pinged
  | .asked => .asked
  | .answered _ => .answered

def unread (c : Channel Msg) : List Msg := c.sent.drop c.taken

-- The octets on the way are those of the messages that have not been read.
structure Represents (peers : Peers P) (w : State P) (s : Network.State P) : Prop where
  phase : ∀ p, w.phase p = stage (s.phase p)
  clients : ∀ p c, w.server.connections p = some c → c = ⟨peers.client p,[]⟩
  devices : w.server.devices = s.devices
  stopped : w.server.stopped = s.stopped
  up : ∀ p, w.up p = stream (unread (s.up p))
  down : ∀ p, w.down p = stream (unread (s.down p))
  socket : ∀ p, w.socket p = []
  input : ∀ p, w.input p = []
  connects : w.connects = s.connects

variable {peers : Peers P} {order : List P} {w v : State P} {s : Network.State P} {p : P} {m : Msg} {rest : Channel Msg}
  {c d : Channel Msg} {actions : List (Action P)}

theorem unread_put : unread (c.put m) = unread c ++ [m] := List.drop_append_of_le_length c.bound

theorem unread_take (took : c.take = some (m,d)) : unread c = m :: unread d := by
  obtain ⟨there,sent,count⟩ := take_exact took
  rw [unread,unread,sent,count]
  obtain ⟨inside,same⟩ := List.getElem?_eq_some_iff.mp there
  rw [List.drop_eq_getElem_cons inside,same]

theorem unread_none (none : c.take = none) : unread c = [] := by
  rw [unread,take_none.mp none,List.drop_length]

theorem stream_append (one two : List Msg) : stream (one ++ two) = stream one ++ stream two := List.flatMap_append

theorem stream_one (m : Msg) : stream [m] = wire m := List.flatMap_singleton ..

theorem putAll_unread (channels : P → Channel Msg) (writes : List (P × Msg)) (p : P) :
    unread (putAll channels writes p) = unread (channels p) ++ addressed p writes := by
  obtain ⟨sent,taken⟩ := putAll_exact channels writes p
  rw [unread,sent,taken,List.drop_append_of_le_length (channels p).bound]
  rfl

theorem writeAll_stream (down : P → List UInt8) (writes : List (P × Msg)) (p : P) :
    writeAll down writes p = down p ++ stream (addressed p writes) := by
  induction writes generalizing down with
  | nil => exact (List.append_nil _).symm
  | cons w rest ih =>
      obtain ⟨q,m⟩ := w
      rw [writeAll,List.foldl_cons]
      refine (ih _).trans ?_
      by_cases here : p = q
      · subst here
        simp [addressed,stream]
      · simp [addressed,stream,Function.update_of_ne here,Ne.symm here]

theorem fetched_front (front behind : List UInt8) (size : front.length = n) : fetched n (front ++ behind) = front := by
  subst size
  simp [fetched]

theorem fetched_exact (octets : List UInt8) (size : octets.length = n) : fetched n octets = octets := by
  simpa using fetched_front octets [] size

theorem wire_cmd (m : Msg) : field (wire m) 36 4 = codeOf m.head.cmd := by
  have inside : 36+4 ≤ (wireHead m.head).length := by rw [wireHead_length]; decide
  rw [← field_cmd,field,field,slice,slice,wire,List.drop_append_of_le_length (by omega),
    List.take_append_of_le_length (by rw [List.length_drop]; omega)]

theorem reply_length (cmd : Cmd) (info : MsgDeviceInfo) : (wire (reply cmd info)).length = responseSize := wire_length _

theorem punch_read (info : MsgDeviceInfo) : peerConnRead true true (wire (reply .punchHole info)) = (some info,[]) := by
  have size : (wireData (.deviceInfo info)).length = deviceInfoSize := wireData_length _
  have left : (wire (reply .punchHole info)).drop headSize = wireData (.deviceInfo info) := by
    rw [wire,← wireHead_length (reply .punchHole info).head,List.drop_left]
    rfl
  unfold peerConnRead
  simp only [if_true,left]
  rw [wire,fetched_front _ _ (wireHead_length _),field_cmd,
    if_pos (show codeOf (reply .punchHole info).head.cmd = codeOf .punchHole from rfl),fetched_exact _ size,
    readDeviceInfo_wire,List.drop_of_length_le (Nat.le_of_eq size)]

theorem response_recv (info : MsgDeviceInfo) : userRecv (wire (reply .queryDeviceInfoResponse info)) = some info := by
  have other : codeOf Cmd.queryDeviceInfoResponse ≠ codeOf .unknownCmd := by decide
  unfold userRecv
  simp only [fetched_exact _ (reply_length .queryDeviceInfoResponse info),wire_cmd]
  rw [show (reply .queryDeviceInfoResponse info).head.cmd = .queryDeviceInfoResponse from rfl,if_neg other,wire,
    ← wireHead_length (reply .queryDeviceInfoResponse info).head,List.drop_left]
  exact congrArg some (readDeviceInfo_wire info)

omit [DecidableEq P] in
theorem request_written (p : P) : WellFormed (peers.pingMsg p) ∧ WellFormed (peers.queryMsg p) :=
  ⟨.ping _ _ rfl rfl,.query _ _ rfl rfl⟩

-- The first message of a stream is the only one that it begins with.
theorem wire_first (one : WellFormed m) (two : WellFormed n) (same : wire m ++ left = wire n ++ right) : m = n := by
  have read : ∀ {m : Msg} {left : List UInt8}, WellFormed m → (Framing.connRead true true (wire m ++ left)).1 = some m := by
    intro m left written
    rw [connRead_whole written (fetched_front _ _ rfl)]
  have first : (Framing.connRead true true (wire m ++ left)).1 = some m := read one
  rw [same,read two] at first
  exact (Option.some.inj first).symm

theorem connRead_wire (written : WellFormed m) (server : Server.State P) (p : P) (client : SockaddrIn) (io : Io) :
    server.connRead p ⟨client,[]⟩ ⟨wire m,true,true⟩ io = (server.hold p (some ⟨client,[]⟩)).serve io p client m := by
  unfold Server.State.connRead
  simp only [List.nil_append,connRead_whole written (fetched_exact _ rfl),List.drop_length]

-- The two servers do the same for a message.
structure Serves (peers : Peers P) (server : Server.State P) (s : Network.State P) (io : Io) (p : P) (m : Msg) : Prop where
  devices : (server.serve io p (peers.client p) m).1.devices = (peers.serverRead s io p m).devices
  stopped : (server.serve io p (peers.client p) m).1.stopped = (peers.serverRead s io p m).stopped
  down : (peers.serverRead s io p m).down = putAll s.down (server.serve io p (peers.client p) m).2
  phase : (peers.serverRead s io p m).phase = s.phase
  connects : (peers.serverRead s io p m).connects = s.connects

theorem serve_serves (peers : Peers P) (server : Server.State P) (s : Network.State P) (devices : server.devices = s.devices)
    (stopped : server.stopped = s.stopped) (io : Io) (p : P) (m : Msg) : Serves peers server s io p m := by
  obtain ⟨head,data⟩ := m
  obtain ⟨magic,msgid,src,dst,len,cmd⟩ := head
  cases cmd with
  | queryDeviceInfoRequest =>
      cases data with
      | ping ping => exact ⟨devices,stopped,rfl,rfl,rfl⟩
      | deviceInfo info =>
          cases ran : processQueryDeviceInfoCmd io s.devices p src info.device_sn with
          | aborted =>
              constructor <;> simp [Server.State.serve,Server.State.query,Peers.serverRead,devices,ran,Server.Outcome.writes,putAll]
          | returned ret writes =>
              constructor <;> simp [Server.State.serve,Server.State.query,Peers.serverRead,devices,stopped,ran,Server.Outcome.writes]
  | ping =>
      cases data with
      | ping ping =>
          constructor <;> simp [Server.State.serve,Peers.serverRead,devices,stopped,putAll]
      | deviceInfo info => exact ⟨devices,stopped,rfl,rfl,rfl⟩
  | unknownCmd => cases data <;> exact ⟨devices,stopped,rfl,rfl,rfl⟩
  | queryDeviceInfoResponse => cases data <;> exact ⟨devices,stopped,rfl,rfl,rfl⟩
  | punchHole => cases data <;> exact ⟨devices,stopped,rfl,rfl,rfl⟩
  | close => cases data <;> exact ⟨devices,stopped,rfl,rfl,rfl⟩

omit [DecidableEq P] in
theorem start_represents (peers : Peers P) : Represents peers (.start P) .start where
  phase := fun _ => rfl
  clients := by intro p c none; cases none
  devices := rfl
  stopped := rfl
  up := fun _ => rfl
  down := fun _ => rfl
  socket := fun _ => rfl
  input := fun _ => rfl
  connects := rfl

theorem hold_clients (represents : Represents peers w s) (p q : P) (c : Server.Connection)
    (found : (w.server.hold p (some ⟨peers.client p,[]⟩)).connections q = some c) : c = ⟨peers.client q,[]⟩ := by
  simp only [Server.State.hold] at found
  by_cases same : q = p
  · subst same
    rw [Function.update_self] at found
    exact (Option.some.inj found).symm
  · rw [Function.update_of_ne same] at found
    exact represents.clients q c found

theorem connect_represents (represents : Represents peers w s) (taken : step peers w (.connect p true true) = some v) :
    Represents peers v s := by
  simp only [step,Server.step] at taken
  split at taken
  · cases taken
  · split at taken
    · cases taken
    · cases taken
      exact ⟨represents.phase,fun q c found => hold_clients represents p q c found,represents.devices,represents.stopped,
        represents.up,represents.down,represents.socket,represents.input,represents.connects⟩

theorem both_updated {α β : Type} {r : α → β → Prop} {f : P → α} {g : P → β} {a : α} {b : β} (old : ∀ q, r (f q) (g q))
    (new : r a b) (p q : P) :
    r (Function.update f p a q) (Function.update g p b q) := by
  by_cases same : q = p
  · subst same
    rwa [Function.update_self,Function.update_self]
  · rw [Function.update_of_ne same,Function.update_of_ne same]
    exact old q

theorem sent_represents (represents : Represents peers w s) (p : P) (next : Network.Phase) (m : Msg) :
    Represents peers
      {w with phase := Function.update w.phase p (stage next),up := Function.update w.up p (w.up p ++ wire m)}
      {s with phase := Function.update s.phase p next,up := Function.update s.up p ((s.up p).put m)} where
  phase := both_updated (r:=fun x y => x = stage y) represents.phase rfl p
  clients := represents.clients
  devices := represents.devices
  stopped := represents.stopped
  up := by
    refine both_updated (r:=fun x c => x = stream (unread c)) represents.up ?_ p
    rw [unread_put,stream_append,stream_one,represents.up]
  down := represents.down
  socket := represents.socket
  input := represents.input
  connects := represents.connects

theorem ping_represents (represents : Represents peers w s) (taken : step peers w (.ping p) = some v) :
    ∃ t, peers.step s (.ping p) = some t ∧ Represents peers v t := by
  simp only [step] at taken
  split at taken
  · rename_i allowed
    cases taken
    have fresh : s.phase p = .fresh := by
      have same := represents.phase p
      rw [allowed.2] at same
      cases phase : s.phase p with
      | fresh => rfl
      | _ =>
          rw [phase] at same
          cases same
    exact ⟨_,if_pos fresh,sent_represents represents p .pinged _⟩
  · cases taken

theorem query_represents (represents : Represents peers w s) (taken : step peers w (.query p) = some v) :
    ∃ t, peers.step s (.query p) = some t ∧ Represents peers v t := by
  simp only [step] at taken
  split at taken
  · rename_i allowed
    cases taken
    have pinged : s.phase p = .pinged := by
      have same := represents.phase p
      rw [allowed.1] at same
      cases phase : s.phase p with
      | pinged => rfl
      | _ =>
          rw [phase] at same
          cases same
    exact ⟨_,if_pos ⟨pinged,allowed.2⟩,sent_represents represents p .asked _⟩
  · cases taken

theorem arrive_exact (taken : step peers w (.arrive p n request body io) = some v) :
    ∃ c, w.server.stopped = false ∧ w.server.connections p = some c ∧ v = {w with
      up := Function.update w.up p ((w.up p).drop n)
      server := (w.server.connRead p c ⟨(w.up p).take n,request,body⟩ io).1
      down := writeAll w.down (w.server.connRead p c ⟨(w.up p).take n,request,body⟩ io).2} := by
  simp only [step] at taken
  split at taken
  · cases taken
  · obtain ⟨server,served,rfl⟩ := Option.map_eq_some_iff.mp taken
    simp only [Server.step] at served
    split at served
    · cases served
    · rename_i going
      obtain ⟨c,here,rfl⟩ := Option.map_eq_some_iff.mp served
      refine ⟨c,Bool.eq_false_iff.mpr going,here,?_⟩
      simp only [Server.State.writes,here]

-- A whole message is the first that has not been read.
theorem first_unread (c : Channel Msg) (proper : ∀ n d, c.take = some (n,d) → WellFormed n) (written : WellFormed m)
    (first : stream (unread c) = wire m ++ left) : ∃ d, c.take = some (m,d) ∧ left = stream (unread d) := by
  cases took : c.take with
  | none =>
      have long := wire_longer m
      rw [unread_none took] at first
      have none := congrArg List.length first
      rw [List.length_append] at none
      simp only [stream,List.flatMap_nil,List.length_nil,headSize] at none long
      omega
  | some next =>
      obtain ⟨n,d⟩ := next
      rw [unread_take took,stream_cons] at first
      have same := wire_first (proper n d took) written first
      subst same
      exact ⟨d,rfl,(List.append_cancel_left first).symm⟩

theorem arrive_represents (represents : Represents peers w s) (sound : peers.Sound order s) (written : WellFormed m)
    (first : w.up p = wire m ++ left) (taken : step peers w (.arrive p (wire m).length true true io) = some v) :
    ∃ t, peers.step s (.serve p io) = some t ∧ Represents peers v t := by
  obtain ⟨c,going,here,rfl⟩ := arrive_exact taken
  cases represents.clients p c here
  have proper : ∀ n d, (s.up p).take = some (n,d) → WellFormed n := by
    intro n d took
    rcases request_cases sound took with ⟨_,rfl⟩ | ⟨_,rfl,_⟩
    · exact (request_written p).1
    · exact (request_written p).2
  obtain ⟨rest,took,behind⟩ := first_unread (s.up p) proper written ((represents.up p).symm.trans first)
  have serves := serve_serves peers (w.server.hold p (some ⟨peers.client p,[]⟩))
    {s with up := Function.update s.up p rest} represents.devices represents.stopped io p m
  refine ⟨peers.serverRead {s with up := Function.update s.up p rest} io p m,?_,?_⟩
  · simp only [Peers.step,took,Option.map_some]
    rw [if_neg]
    rw [← represents.stopped,going]
    exact Bool.false_ne_true
  · rw [first,List.take_left,List.drop_left,connRead_wire written]
    constructor
    · intro q
      rw [serves.phase]
      exact represents.phase q
    · intro q c found
      rw [(Server.serve_kept _ io p _ m).1] at found
      exact hold_clients represents p q c found
    · exact serves.devices
    · exact serves.stopped
    · intro q
      rw [serverRead_up]
      exact both_updated (r:=fun x c => x = stream (unread c)) represents.up behind p q
    · intro q
      rw [serves.down]
      dsimp only
      rw [writeAll_stream,putAll_unread,stream_append,represents.down]
    · exact represents.socket
    · exact represents.input
    · rw [serves.connects]
      exact represents.connects

theorem receive_exact (taken : step peers w (.receive p n request body) = some v) :
    w.socket p ++ (w.down p).take n ≠ [] ∧ v = State.read {w with down := Function.update w.down p ((w.down p).drop n)} p
      (w.socket p ++ (w.down p).take n) request body := by
  simp only [step] at taken
  split at taken
  · cases taken
  · rename_i some
    cases taken
    exact ⟨fun none => some (.inl none),rfl⟩

theorem emptied {α : Type} {blocks : P → List α} (none : blocks p = []) : Function.update blocks p [] = blocks := by
  rw [← none]
  exact Function.update_eq_self p blocks

theorem read_punch (waits : w.phase p ≠ .asked) (socket : w.socket p = []) (input : w.input p = []) (info : MsgDeviceInfo) :
    State.read w p (wire (reply .punchHole info)) true true =
      {w with connects := Function.update w.connects p (w.connects p ++ [info])} := by
  unfold State.read
  rw [if_neg waits,input,List.nil_append,punch_read]
  simp only [State.connect,emptied socket,emptied input,Option.toList_some]

theorem read_response (asked : w.phase p = .asked) (socket : w.socket p = []) (info : MsgDeviceInfo) :
    State.read w p (wire (reply .queryDeviceInfoResponse info)) true true = {w with
      phase := Function.update w.phase p .answered
      connects := Function.update w.connects p (w.connects p ++ [info])} := by
  have all : (wire (reply .queryDeviceInfoResponse info)).drop responseSize = [] :=
    List.drop_of_length_le (Nat.le_of_eq (reply_length _ info))
  unfold State.read
  rw [if_pos asked,response_recv,all]
  simp only [State.connect,emptied socket,Option.toList_some]

theorem taken_represents (represents : Represents peers w s) (p : P) (rest : Channel Msg) :
    Represents peers {w with down := Function.update w.down p (stream (unread rest))}
      {s with down := Function.update s.down p rest} where
  phase := represents.phase
  clients := represents.clients
  devices := represents.devices
  stopped := represents.stopped
  up := represents.up
  down := both_updated (r:=fun x c => x = stream (unread c)) represents.down rfl p
  socket := represents.socket
  input := represents.input
  connects := represents.connects

-- The response of user_cb, or nothing but a call of connect_peer.
theorem told_represents (represents : Represents peers w s) (p : P) (info : MsgDeviceInfo) (phase : P → Phase)
    (plays : P → Network.Phase) (same : ∀ q, phase q = stage (plays q)) :
    Represents peers {w with phase := phase,connects := Function.update w.connects p (w.connects p ++ [info])}
      {s with phase := plays,connects := Function.update s.connects p (s.connects p ++ [info])} where
  phase := same
  clients := represents.clients
  devices := represents.devices
  stopped := represents.stopped
  up := represents.up
  down := represents.down
  socket := represents.socket
  input := represents.input
  connects := by
    dsimp only
    rw [represents.connects]

theorem receive_represents (represents : Represents peers w s) (sound : peers.Sound order s) (delivered : Delivered s)
    (taken : step peers w (.receive p responseSize true true) = some v) :
    ∃ t, peers.step s (.receive p) = some t ∧ Represents peers v t := by
  obtain ⟨some,rfl⟩ := receive_exact taken
  rw [represents.socket p,List.nil_append,represents.down p] at some ⊢
  cases took : (s.down p).take with
  | none =>
      rw [unread_none took] at some
      exact absurd rfl some
  | some next =>
      obtain ⟨m,rest⟩ := next
      have between := taken_represents represents p rest
      have stages := represents.phase p
      refine ⟨State.deliver {s with down := Function.update s.down p rest} p m,?_,?_⟩
      · simp only [Peers.step,took,Option.map_some]
      · rw [unread_take took,stream_cons]
        rcases received_cases sound delivered took with ⟨target,info,rfl⟩ | ⟨_,asked,rfl⟩
        · have passive : s.phase p ≠ .asked := fun asked => sound.asks p asked target
          have waits : w.phase p ≠ .asked := by
            rw [stages]
            cases phase : s.phase p <;> simp [stage,phase] at passive ⊢
          rw [← reply_length .punchHole info,List.take_left,List.drop_left,
            deliver_punch (s:={s with down := Function.update s.down p rest}) passive,
            read_punch (w:={w with down := Function.update w.down p (stream (unread rest))}) waits (represents.socket p) (represents.input p)]
          exact told_represents between p info w.phase s.phase represents.phase
        · have waits : w.phase p = .asked := by
            rw [stages,asked]
            rfl
          rw [← reply_length .queryDeviceInfoResponse (peers.endpoint peers.target),List.take_left,List.drop_left,
            deliver_response (s:={s with down := Function.update s.down p rest}) asked,
            read_response (w:={w with down := Function.update w.down p (stream (unread rest))}) waits (represents.socket p)]
          have answered : ∀ q, Function.update w.phase p .answered q =
              stage (Function.update s.phase p (.answered (reply .queryDeviceInfoResponse (peers.endpoint peers.target))) q) :=
            both_updated (r:=fun x y => x = stage y) (a:=.answered) (b:=.answered _) represents.phase rfl p
          exact told_represents between p _ _ _ answered

-- Octets that come a message at a time make one run over messages, with the same registry,
-- the same octets on the way and the same calls of connect_peer.
theorem streams_represent (along : Along (step peers) Whole (.start P) actions w) :
    ∃ s, Sequence peers.step .start (actions.filterMap message) s ∧ Represents peers w s := by
  suffices seen : ∃ s, Sequence peers.step .start (actions.filterMap message) s ∧ Represents peers w s ∧
      ∃ order, peers.Sound order s ∧ Delivered s by
    obtain ⟨s,path,represents,_⟩ := seen
    exact ⟨s,path,represents⟩
  refine along.shows (R:=fun w s => Represents peers w s ∧ ∃ order, peers.Sound order s ∧ Delivered s) message ?_ ?_
    ⟨start_represents peers,[],start_sound peers,start_delivered⟩
  · intro w action v s related taken whole hidden
    cases action with
    | connect p granted created =>
        obtain ⟨rfl,rfl⟩ := whole
        exact ⟨connect_represents related.1 taken,related.2⟩
    | _ => cases hidden
  · intro w action v s seen related taken whole shown
    obtain ⟨represents,order,sound,delivered⟩ := related
    have shows : ∃ t, peers.step s seen = some t ∧ Represents peers v t := by
      cases action with
      | connect p granted created => cases shown
      | ping p =>
          cases shown
          exact ping_represents represents taken
      | query p =>
          cases shown
          exact query_represents represents taken
      | arrive p n request body io =>
          cases shown
          obtain ⟨rfl,rfl,m,rest,written,first,rfl⟩ := whole
          exact arrive_represents represents sound written first taken
      | receive p n request body =>
          cases shown
          obtain ⟨rfl,rfl,rfl⟩ := whole
          exact receive_represents represents sound delivered taken
    obtain ⟨t,step,represents'⟩ := shows
    obtain ⟨later,sound',_⟩ := step_sound sound step
    exact ⟨t,step,represents',later,sound',step_delivered sound delivered step⟩

-- p has nothing left to do, and no octet is on its way.
def Rests (peers : Peers P) (w : State P) (p : P) : Prop :=
  w.phase p ≠ .fresh ∧ (w.phase p = .pinged → peers.sn p = testPeerDeviceSn) ∧ w.up p = [] ∧ w.down p = []

instance (peers : Peers P) (w : State P) (p : P) : Decidable (Rests peers w p) :=
  inferInstanceAs (Decidable (_ ∧ (_ → _) ∧ _ ∧ _))

theorem unread_read (c : Channel Msg) (none : stream (unread c) = []) : c.taken = c.sent.length := by
  cases took : c.take with
  | none => exact take_none.mp took
  | some next =>
      obtain ⟨m,d⟩ := next
      have long := wire_longer m
      rw [unread_take took,stream_cons] at none
      rw [(List.append_eq_nil_iff.mp none).1] at long
      exact absurd long (by decide)

omit [DecidableEq P] in
theorem rests_idle (represents : Represents peers w s) (rests : Rests peers w p) : Idle peers s p := by
  obtain ⟨begun,asked,up,down⟩ := rests
  have stages := represents.phase p
  refine ⟨fun fresh => begun ?_,fun pinged => pinged.2 (asked ?_),.inr (unread_read _ ?_),unread_read _ ?_⟩
  · rw [stages,fresh]
    rfl
  · rw [stages,pinged.1]
    rfl
  · rw [← represents.up,up]
  · rw [← represents.down,down]

omit [DecidableEq P] in
theorem spared_messages (spared : ∀ n request body io, .arrive p n request body io ∈ actions → io = .good) :
    ∀ seen ∈ actions.filterMap message, Spared p seen := by
  intro seen member
  obtain ⟨action,there,shown⟩ := List.mem_filterMap.mp member
  cases action with
  | arrive q n request body io =>
      cases shown
      rintro rfl
      exact spared n request body io there
  | connect q granted created => cases shown
  | ping q =>
      cases shown
      trivial
  | query q =>
      cases shown
      trivial
  | receive q n request body =>
      cases shown
      trivial

-- The octets that come are those of the one or the other message of p.
def checked (peers : Peers P) (w : State P) : Action P → Bool
  | .connect _ granted created => granted && created
  | .arrive p n request body _ => request && body && n ≤ (w.up p).length &&
      ((w.up p).take n = wire (peers.pingMsg p) || (w.up p).take n = wire (peers.queryMsg p))
  | .receive _ n request body => request && body && n = responseSize
  | _ => true

omit [DecidableEq P] in
theorem checked_whole (w : State P) (action : Action P) (next : State P) (passed : checked peers w action = true) :
    Whole w action next := by
  cases action with
  | connect p granted created => simpa [checked,Whole] using passed
  | ping p => trivial
  | query p => trivial
  | arrive p n request body io =>
      simp only [checked,Bool.and_eq_true,Bool.or_eq_true,decide_eq_true_eq] at passed
      obtain ⟨⟨memory,near⟩,either⟩ := passed
      obtain ⟨m,written,front⟩ : ∃ m, WellFormed m ∧ (w.up p).take n = wire m := by
        rcases either with ping | query
        · exact ⟨_,(request_written p).1,ping⟩
        · exact ⟨_,(request_written p).2,query⟩
      refine ⟨memory.1,memory.2,m,(w.up p).drop n,written,?_,?_⟩
      · rw [← front,List.take_append_drop]
      · rw [← front,List.length_take,Nat.min_eq_left near]
  | receive p n request body =>
      simp only [checked,Bool.and_eq_true,decide_eq_true_eq] at passed
      exact ⟨passed.1.1,passed.1.2,passed.2⟩

def meeting : List (Action Bool) :=
  [.connect false true true,.ping false,.connect true true true,.ping true,.arrive true 56 true true .good,
    .query false,.arrive false 56 true true .good,.arrive false 64 true true .good,.receive false 64 true true,
    .receive true 64 true true]

end PersonalJournal.Streams
