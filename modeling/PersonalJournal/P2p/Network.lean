import Mathlib.Data.List.Permutation
import PersonalJournal.Lib.Channel
import PersonalJournal.Lib.Transition
import PersonalJournal.P2p.Registry

namespace PersonalJournal.Network
open Fifo Registry Transition

def testPeerDeviceSn : UInt64 := 2222

def portRestrictedConeNat : Int32 := 4

-- The peers, their device numbers and the addresses under which the server accepts
-- their connections. Each peer has one connection, named by the peer.
structure Peers (P : Type) where
  sn : P → UInt64
  distinct : Function.Injective sn
  client : P → SockaddrIn
  target : P
  target_sn : sn target = testPeerDeviceSn

-- Neither timer has EV_PERSIST: ping_cb runs once, and so does user_cb, which waits
-- in recv until a message arrives.
inductive Phase where
  | fresh
  | pinged
  | asked
  | answered (response : Msg)
  deriving DecidableEq

-- A query the server has answered, and what it wrote for it.
structure Handled (P : Type) where
  pbev : P
  src : UInt64
  query : UInt64
  writes : List (P × Msg)
  deriving DecidableEq

structure State (P : Type) where
  phase : P → Phase
  up : P → Channel Msg
  down : P → Channel Msg
  -- s_pall_device_info of the server, and whether an assertion has stopped it.
  devices : DeviceList P
  stopped : Bool
  handled : List (Handled P)
  -- What connect_peer was called with, in each peer.
  connects : P → List MsgDeviceInfo

def State.start : State P :=
  ⟨fun _ => .fresh,fun _ => .empty,fun _ => .empty,[],false,[],fun _ => []⟩

inductive Action (P : Type) where
  | ping (p : P)
  | query (p : P)
  | serve (p : P) (io : Io)
  | receive (p : P)

variable {P : Type} [DecidableEq P]

def Peers.pingMsg (peers : Peers P) (p : P) : Msg :=
  ⟨⟨p2pTransferMagic,0,peers.sn p,0,sizeofMsgPing,.ping⟩,.ping ⟨peers.sn p,portRestrictedConeNat⟩⟩

def Peers.queryMsg (peers : Peers P) (p : P) : Msg :=
  ⟨⟨p2pTransferMagic,0,peers.sn p,0,sizeofMsgDeviceInfo,.queryDeviceInfoRequest⟩,
    .deviceInfo {MsgDeviceInfo.zero with device_sn := testPeerDeviceSn}⟩

-- conn_read_cb of the server.
def Peers.serverRead (peers : Peers P) (s : State P) (io : Io) (p : P) (m : Msg) : State P :=
  match m.head.cmd,m.data with
  | .ping,.ping ping => {s with devices := (processPingCmd io s.devices p ping (peers.client p)).2}
  | .queryDeviceInfoRequest,.deviceInfo info =>
      match processQueryDeviceInfoCmd io s.devices p m.head.src_device_sn info.device_sn with
      | .aborted => {s with stopped := true}
      | .returned _ writes => {s with
          down := putAll s.down writes
          handled := s.handled ++ [⟨p,m.head.src_device_sn,info.device_sn,writes⟩]}
  | _,_ => s

def State.connect (s : State P) (p : P) (m : Msg) : State P :=
  match m.data with
  | .deviceInfo info => {s with connects := Function.update s.connects p (s.connects p ++ [info])}
  | .ping _ => s

-- conn_read_cb of a peer.
def State.peerRead (s : State P) (p : P) (m : Msg) : State P :=
  if m.head.cmd = .punchHole then s.connect p m else s

-- The rest of user_cb, from its recv on.
def State.userRead (s : State P) (p : P) (m : Msg) : State P :=
  let s := {s with phase := Function.update s.phase p (.answered m)}
  if m.head.cmd = .unknownCmd then s else s.connect p m

-- A message goes to the recv of user_cb while that waits, else to the event loop.
def State.deliver (s : State P) (p : P) (m : Msg) : State P :=
  if s.phase p = .asked then s.userRead p m else s.peerRead p m

def Peers.step (peers : Peers P) (s : State P) : Action P → Option (State P)
  | .ping p =>
      if s.phase p = .fresh then
        some {s with phase := Function.update s.phase p .pinged,
                     up := Function.update s.up p ((s.up p).put (peers.pingMsg p))}
      else none
  | .query p =>
      if s.phase p = .pinged ∧ peers.sn p ≠ testPeerDeviceSn then
        some {s with phase := Function.update s.phase p .asked,
                     up := Function.update s.up p ((s.up p).put (peers.queryMsg p))}
      else none
  | .serve p io =>
      if s.stopped then none
      else (s.up p).take.map (fun (m,rest) => peers.serverRead {s with up := Function.update s.up p rest} io p m)
  | .receive p =>
      (s.down p).take.map (fun (m,rest) => State.deliver {s with down := Function.update s.down p rest} p m)

def Peers.entry (peers : Peers P) (p : P) : ServerDeviceInfo P :=
  ⟨p,peers.sn p,(peers.client p).sin_addr,(peers.client p).sin_port,portRestrictedConeNat⟩

-- Where a peer is to be found, as the others should be told.
def Peers.endpoint (peers : Peers P) (p : P) : MsgDeviceInfo where
  device_sn := peers.sn p
  ip_addr := (peers.client p).sin_addr
  port := (peers.client p).sin_port
  network_type := portRestrictedConeNat

omit [DecidableEq P] in
theorem entry_info (peers : Peers P) (p : P) : (peers.entry p).info = peers.endpoint p := rfl

def Peers.program (peers : Peers P) (p : P) : Phase → List Msg
  | .fresh => []
  | .pinged => [peers.pingMsg p]
  | .asked => [peers.pingMsg p,peers.queryMsg p]
  | .answered _ => [peers.pingMsg p,peers.queryMsg p]

def punches (writes : List (P × Msg)) : List (P × Msg) := writes.filter (·.2.head.cmd = .punchHole)

def Peers.Answers (peers : Peers P) (order : List P) (h : Handled P) : Prop :=
  h.pbev ≠ peers.target ∧ h.src = peers.sn h.pbev ∧ h.query = testPeerDeviceSn ∧
    (h.writes = [] ∨ peers.target ∈ order ∧ ∃ info, (h.pbev ∈ order → info = peers.endpoint h.pbev) ∧
      (h.writes = [(peers.target,reply .punchHole info)] ∨
        h.writes = [(peers.target,reply .punchHole info),
          (h.pbev,reply .queryDeviceInfoResponse (peers.endpoint peers.target))]))

-- order lists the peers of the registry, most recent first.
structure Peers.Sound (peers : Peers P) (order : List P) (s : State P) : Prop where
  devices : s.devices = order.map peers.entry
  once : order.Nodup
  pinged : ∀ p ∈ order, 0 < (s.up p).taken
  sends : ∀ p, (s.up p).sent = peers.program p (s.phase p)
  asks : ∀ p, s.phase p = .asked → p ≠ peers.target
  handledOnce : (s.handled.map (·.pbev)).Nodup
  served : ∀ h ∈ s.handled, (s.up h.pbev).taken = 2
  answers : ∀ h ∈ s.handled, peers.Answers order h
  channels : ∀ x, (s.down x).sent = s.handled.flatMap (fun h => addressed x h.writes)
  received : ∀ p m, s.phase p = .answered m → p ≠ peers.target ∧ m ∈ (s.down p).sent

variable {peers : Peers P} {order : List P} {s t : State P} {p : P} {m : Msg} {rest : Channel Msg}
  {h : Handled P} {action : Action P} {actions : List (Action P)} {io : Io} {ret : Int} {writes : List (P × Msg)}

theorem start_sound (peers : Peers P) : peers.Sound [] .start where
  devices := rfl
  once := List.nodup_nil
  pinged := by intro p member; cases member
  sends := by intro p; rfl
  asks := by intro p asked; cases asked
  handledOnce := List.nodup_nil
  served := by intro h member; cases member
  answers := by intro h member; cases member
  channels := by intro x; rfl
  received := by intro p m answered; cases answered

theorem send_sound (sound : peers.Sound order s) (next : Phase)
    (sends : peers.program p (s.phase p) ++ [m] = peers.program p next)
    (asks : next = .asked → p ≠ peers.target) (silent : ∀ m, next ≠ .answered m) :
    peers.Sound order {s with phase := Function.update s.phase p next,
                              up := Function.update s.up p ((s.up p).put m)} where
  devices := sound.devices
  once := sound.once
  pinged := by
    intro q member
    rw [put_taken_at]
    exact sound.pinged q member
  sends := by
    intro q
    dsimp only
    by_cases same : q = p
    · subst same
      rw [Function.update_self,Function.update_self,put_sent,sound.sends q]
      exact sends
    · rw [Function.update_of_ne same,Function.update_of_ne same]
      exact sound.sends q
  asks := by
    apply (Function.forall_update_iff s.phase (p:=fun q phase => phase = .asked → q ≠ peers.target)).mpr
    exact ⟨asks,fun q _ => sound.asks q⟩
  handledOnce := sound.handledOnce
  served := by
    intro h member
    rw [put_taken_at]
    exact sound.served h member
  answers := sound.answers
  channels := sound.channels
  received := by
    apply (Function.forall_update_iff s.phase (p:=fun q phase => ∀ m, phase = .answered m →
      q ≠ peers.target ∧ m ∈ (s.down q).sent)).mpr
    exact ⟨fun m answered => absurd answered (silent m),fun q _ => sound.received q⟩

theorem connect_sound (sound : peers.Sound order s) : peers.Sound order (s.connect p m) := by
  unfold State.connect
  split
  · exact ⟨sound.devices,sound.once,sound.pinged,sound.sends,sound.asks,sound.handledOnce,sound.served,sound.answers,
      sound.channels,sound.received⟩
  · exact sound

theorem taken_sound (sound : peers.Sound order s) (took : (s.down p).take = some (m,rest)) :
    peers.Sound order {s with down := Function.update s.down p rest} where
  devices := sound.devices
  once := sound.once
  pinged := sound.pinged
  sends := sound.sends
  asks := sound.asks
  handledOnce := sound.handledOnce
  served := sound.served
  answers := sound.answers
  channels := by
    intro x
    rw [take_sent_at took]
    exact sound.channels x
  received := by
    intro q m answered
    rw [take_sent_at took]
    exact sound.received q m answered

theorem answered_sound (sound : peers.Sound order s) (asked : s.phase p = .asked) (held : m ∈ (s.down p).sent) :
    peers.Sound order {s with phase := Function.update s.phase p (.answered m)} where
  devices := sound.devices
  once := sound.once
  pinged := sound.pinged
  sends := by
    apply (Function.forall_update_iff s.phase (p:=fun q phase => (s.up q).sent = peers.program q phase)).mpr
    refine ⟨?_,fun q _ => sound.sends q⟩
    rw [sound.sends p,asked]
    rfl
  asks := by
    apply (Function.forall_update_iff s.phase (p:=fun q phase => phase = .asked → q ≠ peers.target)).mpr
    exact ⟨fun again => (by cases again),fun q _ => sound.asks q⟩
  handledOnce := sound.handledOnce
  served := sound.served
  answers := sound.answers
  channels := sound.channels
  received := by
    apply (Function.forall_update_iff s.phase (p:=fun q phase => ∀ n, phase = .answered n →
      q ≠ peers.target ∧ n ∈ (s.down q).sent)).mpr
    refine ⟨?_,fun q _ => sound.received q⟩
    intro n answered
    cases answered
    exact ⟨sound.asks p asked,held⟩

theorem receive_sound (sound : peers.Sound order s) (took : (s.down p).take = some (m,rest)) :
    peers.Sound order (State.deliver {s with down := Function.update s.down p rest} p m) := by
  have held : m ∈ (Function.update s.down p rest p).sent := by
    rw [take_sent_at took]
    exact take_mem took
  have next := taken_sound sound took
  unfold State.deliver
  by_cases asked : s.phase p = .asked
  · rw [if_pos asked]
    have answered := answered_sound next asked held
    unfold State.userRead
    by_cases unknown : m.head.cmd = .unknownCmd
    · rw [if_pos unknown]
      exact answered
    · rw [if_neg unknown]
      exact connect_sound answered
  · rw [if_neg asked]
    unfold State.peerRead
    split
    · exact connect_sound next
    · exact next

-- A connection carries the PING first and then, from a peer other than 2222, the query.
theorem request_cases (sound : peers.Sound order s) (took : (s.up p).take = some (m,rest)) :
    (s.up p).taken = 0 ∧ m = peers.pingMsg p ∨
      (s.up p).taken = 1 ∧ m = peers.queryMsg p ∧ p ≠ peers.target := by
  have there := (take_exact took).1
  have both : p ≠ peers.target → [peers.pingMsg p,peers.queryMsg p][(s.up p).taken]? = some m →
      (s.up p).taken = 0 ∧ m = peers.pingMsg p ∨ (s.up p).taken = 1 ∧ m = peers.queryMsg p ∧ p ≠ peers.target := by
    intro other there
    match place : (s.up p).taken with
    | 0 =>
        rw [place] at there
        cases there
        exact .inl ⟨rfl,rfl⟩
    | 1 =>
        rw [place] at there
        cases there
        exact .inr ⟨rfl,rfl,other⟩
    | n+2 =>
        rw [place] at there
        cases there
  rw [sound.sends p] at there
  cases phase : s.phase p with
  | fresh =>
      rw [phase] at there
      cases there
  | pinged =>
      rw [phase] at there
      obtain ⟨near,equal⟩ := List.getElem?_eq_some_iff.mp there
      have first : (s.up p).taken = 0 := Nat.lt_one_iff.mp near
      refine .inl ⟨first,?_⟩
      simpa [Peers.program] using equal.symm
  | asked =>
      rw [phase] at there
      exact both (sound.asks p phase) there
  | answered response =>
      rw [phase] at there
      exact both (sound.received p response phase).1 there

omit [DecidableEq P] in
theorem sn_apart (other : p ≠ peers.target) : peers.sn p ≠ testPeerDeviceSn := by
  rw [← peers.target_sn]
  exact peers.distinct.ne other

theorem relevant_entries (peers : Peers P) (order : List P) (p : P) :
    (order.map peers.entry).filter (fun e => about (peers.sn p) testPeerDeviceSn e.device_sn) =
      (order.filter (fun q => q = p ∨ q = peers.target)).map peers.entry := by
  rw [List.filter_map]
  congr 2
  funext q
  have own : (peers.sn q = peers.sn p) = (q = p) := propext peers.distinct.eq_iff
  have asked : (peers.sn q = testPeerDeviceSn) = (q = peers.target) := by
    rw [← peers.target_sn]
    exact propext peers.distinct.eq_iff
  simp [about,Peers.entry,own,asked]

theorem scan_relevant (peers : Peers P) (order : List P) (p : P) :
    Scan.start.run (peers.sn p) testPeerDeviceSn (order.map peers.entry) =
      Scan.start.run (peers.sn p) testPeerDeviceSn
        ((order.filter (fun q => q = p ∨ q = peers.target)).map peers.entry) := by
  rw [run_relevant .start (by simp [Scan.start]),relevant_entries]

theorem scan_both (once : order.Nodup) (other : p ≠ peers.target) (own : p ∈ order) (known : peers.target ∈ order) :
    Scan.start.run (peers.sn p) testPeerDeviceSn (order.map peers.entry) =
      ⟨.queryDeviceInfoResponse,peers.endpoint peers.target,peers.endpoint p,some peers.target,2⟩ := by
  have apart := sn_apart other
  have pair : (order.filter (fun q => q = p ∨ q = peers.target)).Perm [p,peers.target] := by
    apply (List.perm_ext_iff_of_nodup (once.filter _) (by simp [other])).mpr
    intro q
    simp only [List.mem_filter,decide_eq_true_eq,List.mem_cons,List.not_mem_nil,or_false]
    constructor
    · exact And.right
    · intro either
      rcases either with rfl | rfl
      · exact ⟨own,.inl rfl⟩
      · exact ⟨known,.inr rfl⟩
  have ownSn : (peers.entry p).device_sn = peers.sn p := rfl
  have targetSn : (peers.entry peers.target).device_sn = testPeerDeviceSn := peers.target_sn
  rw [scan_relevant]
  rcases List.perm_pair.mp pair with shape | shape
  · rw [shape,List.map_cons,List.map_cons,run_pair _ _ _ apart (.inl ownSn) (.inr targetSn),
      visit_src _ apart ownSn,visit_query _ apart targetSn,entry_info,entry_info]
    rfl
  · rw [shape,List.map_cons,List.map_cons,run_pair _ _ _ apart (.inr targetSn) (.inl ownSn),
      visit_query _ apart targetSn,visit_src _ apart ownSn,entry_info,entry_info]
    rfl

-- A requester whose PING found no memory.
theorem scan_alone (once : order.Nodup) (other : p ≠ peers.target) (lost : p ∉ order) (known : peers.target ∈ order) :
    Scan.start.run (peers.sn p) testPeerDeviceSn (order.map peers.entry) =
      ⟨.queryDeviceInfoResponse,peers.endpoint peers.target,.zero,some peers.target,1⟩ := by
  have single : (order.filter (fun q => q = p ∨ q = peers.target)).Perm [peers.target] := by
    apply (List.perm_ext_iff_of_nodup (once.filter _) (List.nodup_singleton _)).mpr
    intro q
    simp only [List.mem_filter,decide_eq_true_eq,List.mem_singleton]
    constructor
    · intro ⟨member,either⟩
      rcases either with rfl | same
      · exact absurd member lost
      · exact same
    · rintro rfl
      exact ⟨known,.inr rfl⟩
  have targetSn : (peers.entry peers.target).device_sn = testPeerDeviceSn := peers.target_sn
  have apart := sn_apart other
  rw [scan_relevant,List.perm_singleton.mp single,List.map_singleton,Scan.run,visit_query _ apart targetSn,entry_info]
  rfl

theorem query_answers (once : order.Nodup) (other : p ≠ peers.target)
    (ran : processQueryDeviceInfoCmd io (order.map peers.entry) p (peers.sn p) testPeerDeviceSn =
      .returned ret writes) :
    peers.Answers order ⟨p,peers.sn p,testPeerDeviceSn,writes⟩ := by
  refine ⟨other,rfl,rfl,?_⟩
  rcases process_writes ran with none | ⟨pdst,found,written⟩
  · exact .inl none
  · by_cases known : peers.target ∈ order
    · by_cases own : p ∈ order
      · rw [scan_both once other own known] at found written
        cases found
        exact .inr ⟨known,_,fun _ => rfl,written⟩
      · rw [scan_alone once other own known] at found written
        cases found
        exact .inr ⟨known,_,fun here => absurd here own,written⟩
    · have unknown : ∀ e ∈ order.map peers.entry, e.device_sn ≠ testPeerDeviceSn := by
        intro e member same
        obtain ⟨q,listed,rfl⟩ := List.mem_map.mp member
        have target : q = peers.target := peers.distinct (same.trans peers.target_sn.symm)
        exact known (target ▸ listed)
      cases found.symm.trans (run_unknown .start _ unknown)

-- No query of this connection has been handled before its request is read.
theorem request_new (sound : peers.Sound order s) (took : (s.up p).take = some (m,rest)) :
    ∀ h ∈ s.handled, h.pbev ≠ p := by
  intro h member same
  have both := sound.served h member
  rw [same] at both
  rcases request_cases sound took with ⟨first,_⟩ | ⟨second,_⟩
  · rw [first] at both
    cases both
  · rw [second] at both
    cases both

theorem requested_sound (sound : peers.Sound order s) (took : (s.up p).take = some (m,rest)) :
    peers.Sound order {s with up := Function.update s.up p rest} where
  devices := sound.devices
  once := sound.once
  pinged := by
    intro q member
    exact Nat.lt_of_lt_of_le (sound.pinged q member) (take_taken_le took q)
  sends := by
    intro q
    rw [take_sent_at took]
    exact sound.sends q
  asks := sound.asks
  handledOnce := sound.handledOnce
  served := by
    intro h member
    dsimp only
    rw [Function.update_of_ne (request_new sound took h member)]
    exact sound.served h member
  answers := sound.answers
  channels := sound.channels
  received := sound.received

omit [DecidableEq P] in
theorem answers_registered (answers : peers.Answers order h) (new : h.pbev ≠ p) : peers.Answers (p :: order) h := by
  obtain ⟨other,src,query,written⟩ := answers
  refine ⟨other,src,query,?_⟩
  rcases written with none | ⟨known,info,own,written⟩
  · exact .inl none
  · refine .inr ⟨List.mem_cons_of_mem p known,info,?_,written⟩
    intro member
    rcases List.mem_cons.mp member with same | before
    · exact absurd same new
    · exact own before

theorem registered_sound (sound : peers.Sound order s) (first : p ∉ order) (pinged : 0 < (s.up p).taken)
    (new : ∀ h ∈ s.handled, h.pbev ≠ p) :
    peers.Sound (p :: order) {s with devices := peers.entry p :: s.devices} where
  devices := by
    rw [List.map_cons,sound.devices]
  once := List.nodup_cons.mpr ⟨first,sound.once⟩
  pinged := List.forall_mem_cons.mpr ⟨pinged,sound.pinged⟩
  sends := sound.sends
  asks := sound.asks
  handledOnce := sound.handledOnce
  served := sound.served
  answers := by
    intro h member
    exact answers_registered (sound.answers h member) (new h member)
  channels := sound.channels
  received := sound.received

theorem handled_sound (sound : peers.Sound order s) (answers : peers.Answers order h) (served : (s.up h.pbev).taken = 2)
    (new : ∀ g ∈ s.handled, g.pbev ≠ h.pbev) :
    peers.Sound order {s with down := putAll s.down h.writes,handled := s.handled ++ [h]} where
  devices := sound.devices
  once := sound.once
  pinged := sound.pinged
  sends := sound.sends
  asks := sound.asks
  handledOnce := by
    rw [List.map_append]
    apply List.nodup_append.mpr
    refine ⟨sound.handledOnce,List.nodup_singleton _,?_⟩
    intro a before b last same
    obtain ⟨g,member,rfl⟩ := List.mem_map.mp before
    cases List.mem_singleton.mp last
    exact new g member same
  served := by
    intro g member
    rcases List.mem_append.mp member with before | last
    · exact sound.served g before
    · cases List.mem_singleton.mp last
      exact served
  answers := by
    intro g member
    rcases List.mem_append.mp member with before | last
    · exact sound.answers g before
    · cases List.mem_singleton.mp last
      exact answers
  channels := by
    intro x
    rw [(putAll_exact s.down h.writes x).1,sound.channels x,List.flatMap_append,List.flatMap_singleton]
  received := by
    intro q m answered
    obtain ⟨other,held⟩ := sound.received q m answered
    refine ⟨other,?_⟩
    rw [(putAll_exact s.down h.writes q).1]
    exact List.mem_append_left _ held

-- The server has an entry for a peer once it has read the PING, if calloc gave it one.
def Kept (p : P) (order : List P) (s : State P) : Prop := 0 < (s.up p).taken → p ∈ order

def Granted (p : P) : Action P → Prop
  | .serve q io => q = p → io.entry = true
  | _ => True

theorem serverRead_up (s : State P) (m : Msg) : (peers.serverRead s io p m).up = s.up := by
  unfold Peers.serverRead
  split
  · rfl
  · split
    · rfl
    · rfl
  · rfl

theorem serve_sound (sound : peers.Sound order s) (took : (s.up p).take = some (m,rest)) (io : Io) :
    ∃ later, peers.Sound later (peers.serverRead {s with up := Function.update s.up p rest} io p m) ∧
      (∀ q ∈ order, q ∈ later) ∧ (io.entry = true → Kept p order s → p ∈ later) := by
  have next := requested_sound sound took
  have new := request_new sound took
  have count := take_taken took
  rcases request_cases sound took with ⟨first,rfl⟩ | ⟨second,rfl,other⟩
  · rw [first] at count
    have absent : p ∉ order := by
      intro member
      have pinged := sound.pinged p member
      rw [first] at pinged
      cases pinged
    cases room : io.entry with
    | false =>
        simp only [Peers.serverRead,Peers.pingMsg,processPingCmd,room]
        exact ⟨order,next,fun _ => id,fun granted => (by cases granted)⟩
    | true =>
        have registered := registered_sound next absent (by rw [count]; exact Nat.one_pos) new
        simp only [Peers.serverRead,Peers.pingMsg,processPingCmd,room]
        exact ⟨p :: order,registered,fun _ => List.mem_cons_of_mem p,fun _ _ => List.mem_cons_self⟩
  · rw [second] at count
    have held : Kept p order s → p ∈ order := by
      intro kept
      exact kept (by rw [second]; exact Nat.one_pos)
    cases ran : processQueryDeviceInfoCmd io s.devices p (peers.sn p) testPeerDeviceSn with
    | aborted =>
        simp only [Peers.serverRead,Peers.queryMsg,ran]
        refine ⟨order,?_,fun _ => id,fun _ => held⟩
        exact ⟨next.devices,next.once,next.pinged,next.sends,next.asks,next.handledOnce,next.served,next.answers,
          next.channels,next.received⟩
    | returned ret writes =>
        simp only [Peers.serverRead,Peers.queryMsg,ran]
        refine ⟨order,?_,fun _ => id,fun _ => held⟩
        rw [sound.devices] at ran
        exact handled_sound next (query_answers sound.once other ran) count new

theorem connect_up (s : State P) : (s.connect p m).up = s.up := by
  unfold State.connect
  split
  · rfl
  · rfl

theorem deliver_up (s : State P) : (s.deliver p m).up = s.up := by
  unfold State.deliver State.userRead State.peerRead
  split
  · dsimp only
    split
    · rfl
    · exact connect_up _
  · split
    · exact connect_up _
    · rfl

theorem step_sound (sound : peers.Sound order s) (taken : peers.step s action = some t) :
    ∃ later, peers.Sound later t ∧ ∀ q, Granted q action → Kept q order s → Kept q later t := by
  cases action with
  | ping p =>
      simp only [Peers.step] at taken
      split at taken
      · rename_i fresh
        cases taken
        refine ⟨order,send_sound sound .pinged ?_ (fun same => (by cases same)) (fun m same => (by cases same)),?_⟩
        · rw [fresh]
          rfl
        · intro q _ kept read
          apply kept
          rwa [put_taken_at] at read
      · cases taken
  | query p =>
      simp only [Peers.step] at taken
      split at taken
      · rename_i allowed
        obtain ⟨pinged,other⟩ := allowed
        cases taken
        refine ⟨order,send_sound sound .asked ?_ ?_ (fun m same => (by cases same)),?_⟩
        · rw [pinged]
          rfl
        · intro _ same
          exact other (same ▸ peers.target_sn)
        · intro q _ kept read
          apply kept
          rwa [put_taken_at] at read
      · cases taken
  | serve p io =>
      simp only [Peers.step] at taken
      split at taken
      · cases taken
      · obtain ⟨⟨m,rest⟩,took,rfl⟩ := Option.map_eq_some_iff.mp taken
        obtain ⟨later,next,grows,registers⟩ := serve_sound sound took io
        refine ⟨later,next,?_⟩
        intro q granted kept read
        by_cases same : q = p
        · subst same
          exact registers (granted rfl) kept
        · rw [serverRead_up] at read
          dsimp only at read
          rw [Function.update_of_ne same] at read
          exact grows q (kept read)
  | receive p =>
      simp only [Peers.step] at taken
      obtain ⟨⟨m,rest⟩,took,rfl⟩ := Option.map_eq_some_iff.mp taken
      refine ⟨order,receive_sound sound took,?_⟩
      intro q _ kept read
      rw [deliver_up] at read
      exact kept read

theorem reached_sound (path : Sequence peers.step .start actions s) (p : P) :
    ∃ order, peers.Sound order s ∧ ((∀ action ∈ actions, Granted p action) → Kept p order s) := by
  by_cases granted : ∀ action ∈ actions, Granted p action
  · have within := path.preserves_within (I:=fun s => ∃ order, peers.Sound order s ∧ Kept p order s)
      (A:=Granted p) (by
        intro s action next granted ⟨order,sound,kept⟩ taken
        obtain ⟨later,sound',keeps⟩ := step_sound sound taken
        exact ⟨later,sound',keeps p granted kept⟩) granted ⟨[],start_sound peers,fun some => absurd some (Nat.lt_irrefl 0)⟩
    obtain ⟨order,sound,kept⟩ := within
    exact ⟨order,sound,fun _ => kept⟩
  · have always := path.preserves (I:=fun s => ∃ order, peers.Sound order s) (by
      intro s action next ⟨order,sound⟩ taken
      obtain ⟨later,sound',_⟩ := step_sound sound taken
      exact ⟨later,sound'⟩) ⟨[],start_sound peers⟩
    obtain ⟨order,sound⟩ := always
    exact ⟨order,sound,fun all => absurd all granted⟩

theorem filter_once [DecidableEq γ] {f : α → γ} {l : List α} (distinct : (l.map f).Nodup) (member : a ∈ l) :
    l.filter (fun b => f b = f a) = [a] := by
  apply List.perm_singleton.mp
  apply (List.perm_ext_iff_of_nodup ((distinct.of_map f).filter _) (List.nodup_singleton a)).mpr
  intro b
  simp only [List.mem_filter,decide_eq_true_eq,List.mem_singleton]
  constructor
  · intro ⟨there,same⟩
    exact List.inj_on_of_nodup_map distinct there member same
  · rintro rfl
    exact ⟨member,rfl⟩

def Registered (s : State P) (sn : UInt64) (e : ServerDeviceInfo P) : Prop :=
  s.devices.filter (fun f => f.device_sn = sn) = [e]

theorem registered_entry (sound : peers.Sound order s) (member : p ∈ order) :
    Registered s (peers.sn p) (peers.entry p) := by
  have distinct : (s.devices.map (·.device_sn)).Nodup := by
    rw [sound.devices,List.map_map]
    exact sound.once.map peers.distinct
  exact filter_once (f:=(·.device_sn)) distinct (sound.devices ▸ List.mem_map_of_mem member)

theorem punch_agreement (path : Sequence peers.step .start actions s) (got : s.phase p = .answered m) :
    (∀ x, (s.down x).sent = s.handled.flatMap (fun h => addressed x h.writes)) ∧
    m.head.cmd ≠ .punchHole ∧
    ∃ h, s.handled.filter (fun g => g.pbev = p) = [h] ∧ h.src = peers.sn p ∧ h.query = testPeerDeviceSn ∧
      (p,m) ∈ h.writes ∧
      (m.head.cmd = .queryDeviceInfoResponse →
        Registered s testPeerDeviceSn (peers.entry peers.target) ∧
        m.data = .deviceInfo (peers.endpoint peers.target) ∧
        ∃ info, punches h.writes = [(peers.target,reply .punchHole info)] ∧
          ((∀ action ∈ actions, Granted p action) →
            Registered s (peers.sn p) (peers.entry p) ∧ info = peers.endpoint p)) := by
  obtain ⟨order,sound,kept⟩ := reached_sound path p
  obtain ⟨other,held⟩ := sound.received p m got
  rw [sound.channels p] at held
  obtain ⟨h,member,held⟩ := List.mem_flatMap.mp held
  have wrote := mem_addressed.mp held
  obtain ⟨_,src,query,shape⟩ := sound.answers h member
  refine ⟨sound.channels,?_⟩
  -- Every write to a channel other than that of 2222 is the last one for its own query.
  rcases shape with none | ⟨known,info,own,punch | both⟩
  · rw [none] at wrote
    cases wrote
  · rw [punch,List.mem_singleton] at wrote
    cases wrote
    exact absurd rfl other
  · have last : (p,m) = (h.pbev,reply .queryDeviceInfoResponse (peers.endpoint peers.target)) := by
      rw [both] at wrote
      rcases List.mem_cons.mp wrote with first | last
      · cases first
        exact absurd rfl other
      · exact List.mem_singleton.mp last
    cases last
    refine ⟨(by intro punch; cases punch),h,filter_once sound.handledOnce member,src,query,wrote,?_⟩
    intro _
    refine ⟨peers.target_sn ▸ registered_entry sound known,rfl,info,?_,?_⟩
    · rw [both]
      rfl
    · intro granted
      have registered := kept granted (by rw [sound.served h member]; exact Nat.two_pos)
      exact ⟨registered_entry sound registered,own registered⟩

def couple : Peers Bool where
  sn := fun p => if p then 2222 else 1111
  distinct := by
    unfold Function.Injective
    decide
  client := fun p => if p then ⟨0x0a000002,5152⟩ else ⟨0x0a000001,5152⟩
  target := true
  target_sn := rfl

def introduction : List (Action Bool) :=
  [.ping false,.ping true,.serve true .good,.query false,.serve false .good,.serve false .good,.receive false]

theorem introduction_granted : ∀ action ∈ introduction, Granted false action := by
  simp [introduction,Granted,Io.good]

theorem punch_agreement_couple :
    ∃ s m, Sequence couple.step .start introduction s ∧ s.phase false = .answered m ∧
      m.data = .deviceInfo ⟨2222,0x0a000002,5152,4⟩ ∧
      ∃ h ∈ s.handled, punches h.writes = [(true,reply .punchHole ⟨1111,0x0a000001,5152,4⟩)] := by
  obtain ⟨s,path⟩ := run_reaches (show (run couple.step .start introduction).isSome by decide)
  have got := of_decide_eq_true (path.tested (fun s => decide
    (s.phase false = .answered (reply .queryDeviceInfoResponse (couple.endpoint true)))) (by decide))
  obtain ⟨_,_,h,one,_,_,_,told⟩ := punch_agreement path got
  obtain ⟨_,data,info,punch,own⟩ := told rfl
  rw [(own introduction_granted).2] at punch
  exact ⟨s,_,path,got,data,h,List.mem_of_mem_filter (one ▸ List.mem_singleton_self h),punch⟩

end PersonalJournal.Network
