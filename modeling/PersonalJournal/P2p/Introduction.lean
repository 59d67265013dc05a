import Mathlib.Algebra.Order.BigOperators.Group.Finset
import PersonalJournal.P2p.Network

namespace PersonalJournal.Introduction
open Fifo Registry Transition Network

variable {P : Type} [DecidableEq P]

-- What a step of a reachable network is, in the terms of what it hands on.
inductive Takes (peers : Peers P) (s : State P) : Action P → State P → Prop where
  | pinged : s.phase p = .fresh → Takes peers s (.ping p)
      {s with phase := Function.update s.phase p .pinged,up := Function.update s.up p ((s.up p).put (peers.pingMsg p))}
  | asked : s.phase p = .pinged → Takes peers s (.query p)
      {s with phase := Function.update s.phase p .asked,up := Function.update s.up p ((s.up p).put (peers.queryMsg p))}
  | registered (io : Io) : s.stopped = false → (s.up p).take = some (m,rest) → (s.up p).taken = 0 → Takes peers s (.serve p io)
      {s with up := Function.update s.up p rest,devices := if io.entry then peers.entry p :: s.devices else s.devices}
  | stopped (io : Io) : s.stopped = false → (s.up p).take = some (m,rest) → (s.up p).taken = 1 → p ≠ peers.target →
      processQueryDeviceInfoCmd io s.devices p (peers.sn p) testPeerDeviceSn = .aborted →
      Takes peers s (.serve p io) {s with up := Function.update s.up p rest,stopped := true}
  | handled (io : Io) : s.stopped = false → (s.up p).take = some (m,rest) → (s.up p).taken = 1 → p ≠ peers.target →
      processQueryDeviceInfoCmd io s.devices p (peers.sn p) testPeerDeviceSn = .returned ret writes →
      Takes peers s (.serve p io) {s with
        up := Function.update s.up p rest
        down := putAll s.down writes
        handled := s.handled ++ [⟨p,peers.sn p,testPeerDeviceSn,writes⟩]}
  | received : (s.down p).take = some (m,rest) → Takes peers s (.receive p)
      (State.deliver {s with down := Function.update s.down p rest} p m)

variable {peers : Peers P} {order : List P} {s t : State P} {p : P} {m : Msg} {rest : Channel Msg} {h : Handled P}
  {action : Action P} {actions before : List (Action P)} {io : Io} {ret : Int} {writes : List (P × Msg)}

omit [DecidableEq P] in
theorem ping_devices (io : Io) (devices : DeviceList P) :
    (processPingCmd io devices p ⟨peers.sn p,portRestrictedConeNat⟩ (peers.client p)).2 =
      if io.entry then peers.entry p :: devices else devices := by
  unfold processPingCmd
  split
  · rfl
  · rfl

theorem step_takes (sound : peers.Sound order s) (taken : peers.step s action = some t) : Takes peers s action t := by
  cases action with
  | ping p =>
      simp only [Peers.step] at taken
      split at taken
      · rename_i fresh
        cases taken
        exact .pinged fresh
      · cases taken
  | query p =>
      simp only [Peers.step] at taken
      split at taken
      · rename_i allowed
        cases taken
        exact .asked allowed.1
      · cases taken
  | serve p io =>
      simp only [Peers.step] at taken
      split at taken
      · cases taken
      · rename_i going
        obtain ⟨⟨m,rest⟩,took,rfl⟩ := Option.map_eq_some_iff.mp taken
        have going := Bool.eq_false_iff.mpr going
        rcases request_cases sound took with ⟨first,rfl⟩ | ⟨second,rfl,other⟩
        · simp only [Peers.serverRead,Peers.pingMsg,ping_devices]
          exact .registered io going took first
        · cases ran : processQueryDeviceInfoCmd io s.devices p (peers.sn p) testPeerDeviceSn with
          | aborted =>
              simp only [Peers.serverRead,Peers.queryMsg,ran]
              exact .stopped io going took second other ran
          | returned ret writes =>
              simp only [Peers.serverRead,Peers.queryMsg,ran]
              exact .handled io going took second other ran
  | receive p =>
      simp only [Peers.step] at taken
      obtain ⟨⟨m,rest⟩,took,rfl⟩ := Option.map_eq_some_iff.mp taken
      exact .received took

def device (m : Msg) : Option MsgDeviceInfo := match m.data with
  | .deviceInfo info => some info
  | .ping _ => none

-- Every message that has been delivered was connected to, and every query that was read
-- has been handled unless it stopped the server.
structure Delivered (s : State P) : Prop where
  connected : ∀ p, s.connects p = ((s.down p).sent.take (s.down p).taken).filterMap device
  answered : ∀ p m, s.phase p = .answered m → 0 < (s.down p).taken
  handles : ∀ p, (s.up p).taken = 2 → s.stopped = true ∨ ∃ h ∈ s.handled, h.pbev = p

omit [DecidableEq P] in
theorem start_delivered : Delivered (P:=P) .start where
  connected := by intro p; rfl
  answered := by intro p m answered; cases answered
  handles := by intro p read; cases read

theorem answers_target (answers : peers.Answers order h) :
    addressed peers.target h.writes = [] ∨ ∃ info, addressed peers.target h.writes = [reply .punchHole info] := by
  obtain ⟨other,_,_,written⟩ := answers
  rcases written with none | ⟨_,info,_,punch | both⟩
  · exact .inl (by rw [none]; rfl)
  · exact .inr ⟨info,by simp [punch,addressed]⟩
  · exact .inr ⟨info,by simp [both,addressed,other]⟩

theorem answers_other (answers : peers.Answers order h) (other : p ≠ peers.target) :
    addressed p h.writes = [] ∨
      h.pbev = p ∧ addressed p h.writes = [reply .queryDeviceInfoResponse (peers.endpoint peers.target)] := by
  obtain ⟨_,_,_,written⟩ := answers
  rcases written with none | ⟨_,info,_,punch | both⟩
  · exact .inl (by rw [none]; rfl)
  · exact .inl (by simp [punch,addressed,other.symm])
  · by_cases own : h.pbev = p
    · exact .inr ⟨own,by simp [both,addressed,own,other.symm]⟩
    · exact .inl (by simp [both,addressed,own,other.symm])

theorem flatMap_filter (g : α → List β) (kind : α → Bool) (l : List α) (silent : ∀ a ∈ l, kind a = false → g a = []) :
    l.flatMap g = (l.filter kind).flatMap g := by
  induction l with
  | nil => rfl
  | cons a rest ih =>
      obtain ⟨first,later⟩ := List.forall_mem_cons.mp silent
      rw [List.flatMap_cons,ih later,List.filter_cons]
      cases is : kind a with
      | true => simp
      | false => simp [first is]

-- What goes to a peer other than 2222 is what was written for its own query.
theorem own_channel (sound : peers.Sound order s) (other : p ≠ peers.target) (member : h ∈ s.handled) (own : h.pbev = p) :
    (s.down p).sent = addressed p h.writes := by
  rw [sound.channels p,flatMap_filter _ (fun g => g.pbev = p) s.handled]
  · rw [← own,filter_once sound.handledOnce member,List.flatMap_singleton]
  · intro g handled foreign
    rcases answers_other (sound.answers g handled) other with none | ⟨same,_⟩
    · exact none
    · simp [same] at foreign

theorem received_cases (sound : peers.Sound order s) (delivered : Delivered s) (took : (s.down p).take = some (m,rest)) :
    p = peers.target ∧ (∃ info, m = reply .punchHole info) ∨
      p ≠ peers.target ∧ s.phase p = .asked ∧ m = reply .queryDeviceInfoResponse (peers.endpoint peers.target) := by
  have held := take_mem took
  rw [sound.channels p] at held
  obtain ⟨h,member,held⟩ := List.mem_flatMap.mp held
  by_cases same : p = peers.target
  · subst same
    rcases answers_target (sound.answers h member) with none | ⟨info,one⟩
    · rw [none] at held
      cases held
    · rw [one] at held
      exact .inl ⟨rfl,info,List.mem_singleton.mp held⟩
  · rcases answers_other (sound.answers h member) same with none | ⟨own,one⟩
    · rw [none] at held
      cases held
    · rw [one] at held
      refine .inr ⟨same,?_,List.mem_singleton.mp held⟩
      -- Its only message is still there, so that it has asked and not been answered.
      have there := (take_exact took).1
      rw [own_channel sound same member own,one] at there
      have first : (s.down p).taken = 0 := Nat.lt_one_iff.mp (List.getElem?_eq_some_iff.mp there).1
      have read := (s.up p).bound
      rw [← own,sound.served h member,own,sound.sends p] at read
      cases phase : s.phase p with
      | fresh =>
          rw [phase] at read
          exact absurd read (Nat.not_succ_le_zero 1)
      | pinged =>
          rw [phase] at read
          exact absurd read (Nat.not_succ_le_self 1)
      | asked => rfl
      | answered response =>
          have some := delivered.answered p response phase
          rw [first] at some
          cases some

theorem deliver_punch (passive : s.phase p ≠ .asked) (info : MsgDeviceInfo) :
    State.deliver s p (reply .punchHole info) =
      {s with connects := Function.update s.connects p (s.connects p ++ [info])} := by
  simp [State.deliver,passive,State.peerRead,State.connect,reply]

theorem deliver_response (asked : s.phase p = .asked) (info : MsgDeviceInfo) :
    State.deliver s p (reply .queryDeviceInfoResponse info) = {s with
      phase := Function.update s.phase p (.answered (reply .queryDeviceInfoResponse info))
      connects := Function.update s.connects p (s.connects p ++ [info])} := by
  simp [State.deliver,asked,State.userRead,State.connect,reply]

-- A delivered message is connected to, and only 2222 does not wait for it.
theorem deliver_exact (sound : peers.Sound order s) (delivered : Delivered s) (took : (s.down p).take = some (m,rest)) :
    ∃ info phase, device m = some info ∧ (∀ q n, phase q = .answered n → q = p ∨ s.phase q = .answered n) ∧
      State.deliver {s with down := Function.update s.down p rest} p m = {s with
        phase := phase
        down := Function.update s.down p rest
        connects := Function.update s.connects p (s.connects p ++ [info])} := by
  rcases received_cases sound delivered took with ⟨target,info,rfl⟩ | ⟨_,asked,rfl⟩
  · have passive : s.phase p ≠ .asked := fun asked => sound.asks p asked target
    exact ⟨info,s.phase,rfl,fun q n answered => .inr answered,
      deliver_punch (s:={s with down := Function.update s.down p rest}) passive info⟩
  · refine ⟨_,_,rfl,?_,deliver_response (s:={s with down := Function.update s.down p rest}) asked _⟩
    intro q n answered
    by_cases same : q = p
    · exact .inl same
    · rw [Function.update_of_ne same] at answered
      exact .inr answered

theorem sent_delivered (delivered : Delivered s) (p : P) (next : Phase) (m : Msg) (silent : ∀ n, next ≠ .answered n) :
    Delivered {s with phase := Function.update s.phase p next,up := Function.update s.up p ((s.up p).put m)} where
  connected := delivered.connected
  answered := by
    intro q n answered
    dsimp only at answered
    by_cases same : q = p
    · subst same
      rw [Function.update_self] at answered
      exact absurd answered (silent n)
    · rw [Function.update_of_ne same] at answered
      exact delivered.answered q n answered
  handles := by
    intro q read
    rw [put_taken_at] at read
    exact delivered.handles q read

theorem put_connected (delivered : Delivered s) (writes : List (P × Msg)) (p : P) :
    s.connects p = ((putAll s.down writes p).sent.take (putAll s.down writes p).taken).filterMap device := by
  obtain ⟨sent,taken⟩ := putAll_exact s.down writes p
  rw [sent,taken,List.take_append_of_le_length (s.down p).bound]
  exact delivered.connected p

theorem took_last {D : P → Prop} (took : (s.up p).take = some (m,rest)) (old : ∀ q, (s.up q).taken = 2 → D q)
    (last : (s.up p).taken = 1 → D p) (q : P) (read : (Function.update s.up p rest q).taken = 2) : D q := by
  by_cases same : q = p
  · subst same
    rw [take_taken took] at read
    exact last (Nat.succ.inj read)
  · rw [Function.update_of_ne same] at read
    exact old q read

theorem read_connected (connects : List MsgDeviceInfo) (c d : Channel Msg) (took : c.take = some (m,d)) (means : device m = some info)
    (connected : connects = (c.sent.take c.taken).filterMap device) :
    connects ++ [info] = (d.sent.take d.taken).filterMap device := by
  obtain ⟨there,sent,count⟩ := take_exact took
  rw [sent,count,List.take_add_one,there,Option.toList_some,List.filterMap_append,← connected]
  simp [means]

theorem step_delivered (sound : peers.Sound order s) (delivered : Delivered s) (taken : peers.step s action = some t) :
    Delivered t := by
  cases step_takes sound taken with
  | pinged _ => exact sent_delivered delivered _ .pinged _ (fun n same => (by cases same))
  | asked _ => exact sent_delivered delivered _ .asked _ (fun n same => (by cases same))
  | registered io going took first =>
      refine ⟨delivered.connected,delivered.answered,took_last took delivered.handles ?_⟩
      intro second
      exact absurd (first.symm.trans second) Nat.zero_ne_one
  | stopped io going took second other ran => exact ⟨delivered.connected,delivered.answered,fun q read => .inl rfl⟩
  | handled io going took second other ran =>
      refine ⟨put_connected delivered _,?_,took_last took ?_ ?_⟩
      · intro q n answered
        rw [(putAll_exact s.down _ q).2]
        exact delivered.answered q n answered
      · intro q read
        rcases delivered.handles q read with stopped | ⟨h,member,own⟩
        · exact .inl stopped
        · exact .inr ⟨h,List.mem_append_left _ member,own⟩
      · intro _
        exact .inr ⟨_,List.mem_append_right _ (List.mem_singleton_self _),rfl⟩
  | received took =>
      rename_i p m rest
      obtain ⟨info,phase,means,answered,equal⟩ := deliver_exact sound delivered took
      rw [equal]
      refine ⟨fun q => ?_,fun q n found => ?_,delivered.handles⟩
      · by_cases same : q = p
        · subst same
          dsimp only
          rw [Function.update_self,Function.update_self]
          exact read_connected _ _ _ took means (delivered.connected q)
        · dsimp only
          rw [Function.update_of_ne same,Function.update_of_ne same]
          exact delivered.connected q
      · rcases answered q n found with rfl | before
        · rw [take_taken took]
          exact Nat.succ_pos _
        · exact Nat.lt_of_lt_of_le (delivered.answered q n before) (take_taken_le took q)

-- A property of the steps so far that every step keeps.
theorem reached_recorded {I : List (Action P) → State P → Prop}
    (kept : ∀ order before s action next, peers.Sound order s → Delivered s → I before s →
      peers.step s action = some next → I (before ++ [action]) next)
    (path : Sequence peers.step .start actions s) (start : I [] .start) :
    ∃ order, peers.Sound order s ∧ Delivered s ∧ I actions s := by
  refine path.recorded (I:=fun before s => ∃ order, peers.Sound order s ∧ Delivered s ∧ I before s) ?_
    ⟨[],start_sound peers,start_delivered,start⟩
  intro before s action next reached taken
  obtain ⟨order,sound,delivered,holds⟩ := reached
  obtain ⟨later,sound',_⟩ := step_sound sound taken
  exact ⟨later,sound',step_delivered sound delivered taken,kept order before s action next sound delivered holds taken⟩

theorem reached_delivered (path : Sequence peers.step .start actions s) : ∃ order, peers.Sound order s ∧ Delivered s := by
  obtain ⟨order,sound,delivered,_⟩ := reached_recorded (I:=fun _ _ => True) (fun _ _ _ _ _ _ _ _ _ => trivial) path trivial
  exact ⟨order,sound,delivered⟩

-- Nothing failed in what the server did for p.
def Spared (p : P) : Action P → Prop
  | .serve q io => q = p → io = .good
  | _ => True

def bothWays (peers : Peers P) (p : P) : List (P × Msg) :=
  [(peers.target,reply .punchHole (peers.endpoint p)),(p,reply .queryDeviceInfoResponse (peers.endpoint peers.target))]

theorem scan_found (once : order.Nodup) (other : p ≠ peers.target) :
    (Scan.start.run (peers.sn p) testPeerDeviceSn (order.map peers.entry)).pdst =
      if peers.target ∈ order then some peers.target else none := by
  by_cases known : peers.target ∈ order
  · rw [if_pos known]
    by_cases own : p ∈ order
    · rw [scan_both once other own known]
    · rw [scan_alone once other own known]
  · rw [if_neg known]
    refine run_unknown .start _ ?_
    intro e member same
    obtain ⟨q,listed,rfl⟩ := List.mem_map.mp member
    have target : q = peers.target := peers.distinct (same.trans peers.target_sn.symm)
    exact known (target ▸ listed)

theorem query_aborts (once : order.Nodup) (other : p ≠ peers.target) :
    processQueryDeviceInfoCmd io (order.map peers.entry) p (peers.sn p) testPeerDeviceSn = .aborted ↔
      (io.response && io.source) = true ∧ peers.target ∉ order := by
  unfold processQueryDeviceInfoCmd sendPunchHoleCmdToPeer
  simp only [scan_found once other]
  by_cases memory : (io.response && io.source) = true
  · by_cases known : peers.target ∈ order
    · simp only [if_pos memory,if_pos known]
      constructor
      · intro ran
        split at ran
        · rename_i aborted
          split at aborted <;> cases aborted
        · split at ran
          · cases ran
          · split at ran <;> cases ran
      · intro absent
        exact absurd known absent.2
    · simp [memory,known]
  · simp [memory]

theorem query_introduces (once : order.Nodup) (other : p ≠ peers.target) (own : p ∈ order)
    (ran : processQueryDeviceInfoCmd .good (order.map peers.entry) p (peers.sn p) testPeerDeviceSn = .returned ret writes) :
    writes = bothWays peers p := by
  have known : peers.target ∈ order := by
    refine Decidable.not_not.mp (fun absent => ?_)
    rw [(query_aborts once other).mpr ⟨rfl,absent⟩] at ran
    cases ran
  rw [process_answer,scan_both once other own known] at ran
  cases ran
  rfl

theorem step_introduces (sound : peers.Sound order s) (delivered : Delivered s) (kept : Kept p order s)
    (spared : Spared p action) (whole : ∀ h ∈ s.handled, h.pbev = p → h.writes = bothWays peers p) (taken : peers.step s action = some t) :
    ∀ h ∈ t.handled, h.pbev = p → h.writes = bothWays peers p := by
  cases step_takes sound taken with
  | pinged _ => exact whole
  | asked _ => exact whole
  | registered io going took first => exact whole
  | stopped io going took second other ran => exact whole
  | handled io going took second other ran =>
      intro h member own
      rcases List.mem_append.mp member with before | last
      · exact whole h before own
      · cases List.mem_singleton.mp last
        dsimp only at own
        subst own
        cases spared rfl
        rw [sound.devices] at ran
        exact query_introduces sound.once other (kept (by rw [second]; exact Nat.one_pos)) ran
  | received took =>
      obtain ⟨_,_,_,_,equal⟩ := deliver_exact sound delivered took
      rw [equal]
      exact whole

omit [DecidableEq P] in
theorem spared_granted (spared : Spared p action) : Granted p action := by
  cases action with
  | serve q io =>
      intro same
      rw [spared same]
      rfl
  | ping q => trivial
  | query q => trivial
  | receive q => trivial

theorem reached_introduces (path : Sequence peers.step .start actions s) (spared : ∀ action ∈ actions, Spared p action) :
    ∀ h ∈ s.handled, h.pbev = p → h.writes = bothWays peers p := by
  have within := path.preserves_within (A:=Spared p)
    (I:=fun s => ∃ order, peers.Sound order s ∧ Delivered s ∧ Kept p order s ∧
      ∀ h ∈ s.handled, h.pbev = p → h.writes = bothWays peers p)
    (by
      intro s action next spared reached taken
      obtain ⟨order,sound,delivered,kept,whole⟩ := reached
      obtain ⟨later,sound',keeps⟩ := step_sound sound taken
      exact ⟨later,sound',step_delivered sound delivered taken,keeps p (spared_granted spared) kept,
        step_introduces sound delivered kept spared whole taken⟩) spared
    ⟨[],start_sound peers,start_delivered,fun some => absurd some (Nat.lt_irrefl 0),fun h member => (by cases member)⟩
  obtain ⟨_,_,_,_,whole⟩ := within
  exact whole

def Served (p : P) (actions : List (Action P)) : Prop := ∃ io, .serve p io ∈ actions

-- The server has read the PING of 2222 and had memory for the entry.
def Registers (peers : Peers P) (actions : List (Action P)) : Prop :=
  ∃ io, .serve peers.target io ∈ actions ∧ io.entry = true

-- The server comes to the scan for a query, the second message of a peer, before 2222 is registered.
def Hasty (peers : Peers P) (actions : List (Action P)) : Prop :=
  ∃ before p io after, actions = before ++ .serve p io :: after ∧ Served p before ∧ (io.response && io.source) = true ∧
    ¬ Registers peers before

omit [DecidableEq P] in
theorem served_append : Served p (before ++ [action]) ↔ Served p before ∨ ∃ io, action = .serve p io := by
  simp [Served,exists_or,eq_comm]

omit [DecidableEq P] in
theorem registers_append : Registers peers (before ++ [action]) ↔
    Registers peers before ∨ ∃ io, action = .serve peers.target io ∧ io.entry = true := by
  constructor
  · intro ⟨io,member,memory⟩
    rcases List.mem_append.mp member with old | last
    · exact .inl ⟨io,old,memory⟩
    · exact .inr ⟨io,(List.mem_singleton.mp last).symm,memory⟩
  · intro either
    rcases either with ⟨io,old,memory⟩ | ⟨io,rfl,memory⟩
    · exact ⟨io,List.mem_append_left _ old,memory⟩
    · exact ⟨io,List.mem_append_right _ (List.mem_singleton_self _),memory⟩

omit [DecidableEq P] in
theorem hasty_append : Hasty peers (before ++ [action]) ↔ Hasty peers before ∨
    ∃ p io, action = .serve p io ∧ Served p before ∧ (io.response && io.source) = true ∧ ¬ Registers peers before := by
  constructor
  · intro ⟨start,p,io,after,split,served,memory,absent⟩
    rcases List.eq_nil_or_concat after with rfl | ⟨tail,last,rfl⟩
    · obtain ⟨rfl,same⟩ := List.append_inj' split rfl
      cases same
      exact .inr ⟨p,io,rfl,served,memory,absent⟩
    · rw [List.concat_eq_append,← List.cons_append,← List.append_assoc] at split
      obtain ⟨rfl,_⟩ := List.append_inj' split rfl
      exact .inl ⟨start,p,io,tail,rfl,served,memory,absent⟩
  · intro either
    rcases either with ⟨start,p,io,after,rfl,served,memory,absent⟩ | ⟨p,io,rfl,served,memory,absent⟩
    · exact ⟨start,p,io,after ++ [action],by simp,served,memory,absent⟩
    · exact ⟨before,p,io,[],rfl,served,memory,absent⟩

-- What the order of the steps so far says about the server.
structure Recorded (peers : Peers P) (before : List (Action P)) (s : State P) : Prop where
  served : ∀ p, 0 < (s.up p).taken ↔ Served p before
  registered : (∃ e ∈ s.devices, e.device_sn = testPeerDeviceSn) ↔ Registers peers before
  stopped : s.stopped = true ↔ Hasty peers before
  unknown : s.stopped = true → ¬ Registers peers before

theorem known_devices (sound : peers.Sound order s) :
    peers.target ∈ order ↔ ∃ e ∈ s.devices, e.device_sn = testPeerDeviceSn := by
  rw [sound.devices]
  constructor
  · intro known
    exact ⟨peers.entry peers.target,List.mem_map_of_mem known,peers.target_sn⟩
  · rintro ⟨e,member,same⟩
    obtain ⟨p,listed,rfl⟩ := List.mem_map.mp member
    rwa [← peers.distinct (same.trans peers.target_sn.symm)]

omit [DecidableEq P] in
theorem start_recorded (peers : Peers P) : Recorded peers [] .start where
  served := by simp [Served,State.start,Channel.empty]
  registered := by simp [Registers,State.start]
  stopped := by simp [Hasty,State.start]
  unknown := by simp [State.start]

-- A step of a peer.
omit [DecidableEq P] in
theorem idle_recorded (recorded : Recorded peers before s) (idle : ∀ p io, action ≠ .serve p io)
    (up : ∀ p, (t.up p).taken = (s.up p).taken) (devices : t.devices = s.devices) (stopped : t.stopped = s.stopped) :
    Recorded peers (before ++ [action]) t where
  served := by
    intro p
    rw [up,recorded.served p,served_append]
    simp [idle]
  registered := by
    rw [devices,recorded.registered,registers_append]
    simp [idle]
  stopped := by
    rw [stopped,recorded.stopped,hasty_append]
    simp [idle]
  unknown := by
    rw [stopped,registers_append]
    simpa [idle] using recorded.unknown

theorem serve_served (recorded : Recorded peers before s) (took : (s.up p).take = some (m,rest)) (q : P) :
    0 < (Function.update s.up p rest q).taken ↔ Served q (before ++ [.serve p io]) := by
  rw [served_append]
  by_cases same : q = p
  · subst same
    rw [take_taken took]
    simp
  · rw [Function.update_of_ne same,recorded.served q]
    simp [Ne.symm same]

omit [DecidableEq P] in
theorem registers_serve (io : Io) :
    Registers peers (before ++ [.serve p io]) ↔ Registers peers before ∨ p = peers.target ∧ io.entry = true := by
  rw [registers_append]
  simp

omit [DecidableEq P] in
theorem hasty_serve (io : Io) : Hasty peers (before ++ [.serve p io]) ↔
    Hasty peers before ∨ Served p before ∧ (io.response && io.source) = true ∧ ¬ Registers peers before := by
  rw [hasty_append]
  simp

omit [DecidableEq P] in
theorem entry_registered (recorded : Recorded peers before s) (p : P) (io : Io) :
    (∃ e ∈ if io.entry then peers.entry p :: s.devices else s.devices,e.device_sn = testPeerDeviceSn) ↔
      Registers peers (before ++ [.serve p io]) := by
  have own : (peers.entry p).device_sn = testPeerDeviceSn ↔ p = peers.target := by
    rw [← peers.target_sn]
    exact peers.distinct.eq_iff
  rw [registers_serve,← recorded.registered]
  cases room : io.entry with
  | false => simp
  | true => simp [own,or_comm]

theorem step_recorded (sound : peers.Sound order s) (delivered : Delivered s) (recorded : Recorded peers before s)
    (taken : peers.step s action = some t) : Recorded peers (before ++ [action]) t := by
  cases step_takes sound taken with
  | pinged _ => exact idle_recorded recorded (by simp) (fun p => put_taken_at s.up _ p _) rfl rfl
  | asked _ => exact idle_recorded recorded (by simp) (fun p => put_taken_at s.up _ p _) rfl rfl
  | registered io going took first =>
      rename_i p m rest
      have fresh : ¬ Served p before := by
        rw [← recorded.served p,first]
        exact Nat.lt_irrefl 0
      refine ⟨serve_served recorded took,entry_registered recorded p io,?_,?_⟩
      · rw [hasty_serve,← recorded.stopped]
        simp [fresh]
      · intro stopped
        exact absurd stopped (Bool.eq_false_iff.mp going)
  | stopped io going took second other ran =>
      rename_i p m rest
      have again : Served p before := (recorded.served p).mp (by rw [second]; exact Nat.one_pos)
      rw [sound.devices,query_aborts sound.once other,known_devices sound,recorded.registered] at ran
      refine ⟨serve_served recorded took,?_,?_,fun _ => ?_⟩
      · rw [registers_serve]
        simpa [other] using recorded.registered
      · rw [hasty_serve]
        simp [again,ran]
      · rw [registers_serve]
        simpa [other] using ran.2
  | handled io going took second other ran =>
      rename_i p m rest ret writes
      have registers : (io.response && io.source) = true → Registers peers before := by
        intro memory
        rw [← recorded.registered,← known_devices sound]
        refine Decidable.not_not.mp (fun absent => ?_)
        rw [sound.devices,(query_aborts sound.once other).mpr ⟨memory,absent⟩] at ran
        cases ran
      refine ⟨serve_served recorded took,?_,?_,?_⟩
      · rw [registers_serve]
        simpa [other] using recorded.registered
      · rw [hasty_serve,← recorded.stopped]
        constructor
        · exact .inl
        · rintro (stopped | ⟨_,memory,absent⟩)
          · exact stopped
          · exact absurd (registers memory) absent
      · intro stopped
        exact absurd stopped (Bool.eq_false_iff.mp going)
  | received took =>
      rename_i p m rest
      obtain ⟨_,_,_,_,equal⟩ := deliver_exact sound delivered took
      rw [equal]
      exact idle_recorded recorded (by simp) (fun _ => rfl) rfl rfl

theorem reached_history (path : Sequence peers.step .start actions s) :
    ∃ order, peers.Sound order s ∧ Delivered s ∧ Recorded peers actions s :=
  reached_recorded (fun _ _ _ _ _ sound delivered recorded taken => step_recorded sound delivered recorded taken) path
    (start_recorded peers)

-- Nobody has been told of anybody when the server stops.
theorem stop_exact (path : Sequence peers.step .start actions s) :
    (s.stopped = true ↔ Hasty peers actions) ∧
    (s.stopped = true → ∀ p, (s.down p).sent = [] ∧ s.connects p = []) := by
  obtain ⟨order,sound,delivered,recorded⟩ := reached_history path
  refine ⟨recorded.stopped,fun stopped p => ?_⟩
  have absent : peers.target ∉ order := by
    rw [known_devices sound,recorded.registered]
    exact recorded.unknown stopped
  have nothing : (s.down p).sent = [] := by
    rw [sound.channels p]
    refine List.flatMap_eq_nil_iff.mpr (fun h member => ?_)
    obtain ⟨_,_,_,none | ⟨known,_⟩⟩ := sound.answers h member
    · rw [none]
      rfl
    · exact absurd known absent
  refine ⟨nothing,?_⟩
  rw [delivered.connected p,nothing,List.take_nil]
  rfl

def hurry : List (Action Bool) := [.ping false,.query false,.serve false .good,.serve false .good]

theorem stop_exact_hurry : ∃ s, Sequence couple.step .start hurry s ∧ s.stopped = true ∧ ∀ p, s.connects p = [] := by
  obtain ⟨s,path⟩ := run_reaches (show (run couple.step .start hurry).isSome by decide)
  obtain ⟨exact,nobody⟩ := stop_exact path
  have stopped := exact.mpr ⟨[.ping false,.query false,.serve false .good],false,.good,[],rfl,⟨.good,by simp⟩,rfl,
    by simp [Registers,couple]⟩
  exact ⟨s,path,stopped,fun p => (nobody stopped p).2⟩

-- p has nothing left to do, and nothing is on its way.
def Idle (peers : Peers P) (s : State P) (p : P) : Prop :=
  s.phase p ≠ .fresh ∧ ¬ (s.phase p = .pinged ∧ peers.sn p ≠ testPeerDeviceSn) ∧
    (s.stopped = true ∨ (s.up p).taken = (s.up p).sent.length) ∧ (s.down p).taken = (s.down p).sent.length

instance (peers : Peers P) (s : State P) (p : P) : Decidable (Idle peers s p) :=
  inferInstanceAs (Decidable (_ ∧ _ ∧ _ ∧ _))

theorem quiet_idle : Quiet peers.step s ↔ ∀ p, Idle peers s p := by
  constructor
  · intro quiet p
    have ping := quiet (.ping p)
    have query := quiet (.query p)
    have serve := quiet (.serve p .good)
    have receive := quiet (.receive p)
    simp only [Peers.step,Option.map_eq_none_iff,take_none] at ping query serve receive
    refine ⟨fun fresh => ?_,fun allowed => ?_,?_,receive⟩
    · rw [if_pos fresh] at ping
      cases ping
    · rw [if_pos allowed] at query
      cases query
    · cases stopped : s.stopped with
      | true => exact .inl rfl
      | false =>
          rw [stopped] at serve
          exact .inr (take_none.mp (Option.map_eq_none_iff.mp serve))
  · intro idle action
    cases action with
    | ping p => exact if_neg (idle p).1
    | query p => exact if_neg (idle p).2.1
    | serve p io =>
        simp only [Peers.step]
        split
        · rfl
        · rename_i going
          rw [take_none.mpr ((idle p).2.2.1.resolve_left going)]
          rfl
    | receive p =>
        simp only [Peers.step]
        rw [take_none.mpr (idle p).2.2.2]
        rfl

-- Who 2222 was told of, and what.
def told (peers : Peers P) (handled : List (Handled P)) : List (P × MsgDeviceInfo) :=
  handled.flatMap (fun h => ((addressed peers.target h.writes).filterMap device).map (h.pbev,·))

theorem told_once (handled : List (Handled P)) (answers : ∀ h ∈ handled, peers.Answers order h) :
    ((told peers handled).map Prod.fst).Sublist (handled.map (·.pbev)) := by
  induction handled with
  | nil => exact .slnil
  | cons h rest ih =>
      obtain ⟨first,later⟩ := List.forall_mem_cons.mp answers
      rw [told,List.flatMap_cons,List.map_append,List.map_cons,← List.singleton_append]
      refine List.Sublist.append ?_ (ih later)
      rcases answers_target first with none | ⟨info,one⟩
      · rw [none]
        exact List.nil_sublist _
      · rw [one]
        exact List.Sublist.refl _

theorem told_infos (sound : peers.Sound order s) :
    (told peers s.handled).map Prod.snd = (s.down peers.target).sent.filterMap device := by
  rw [sound.channels peers.target,told,List.map_flatMap,List.filterMap_flatMap]
  simp [Function.comp_def]

theorem idle_read (sound : peers.Sound order s) (idle : Idle peers s p) (going : s.stopped = false) (other : p ≠ peers.target) :
    (s.up p).taken = 2 := by
  obtain ⟨begun,asked,read,_⟩ := idle
  rw [read.resolve_left (Bool.eq_false_iff.mp going),sound.sends p]
  cases phase : s.phase p with
  | fresh => exact absurd phase begun
  | pinged => exact absurd ⟨phase,sn_apart other⟩ asked
  | asked => rfl
  | answered response => rfl

theorem bothWays_target (other : p ≠ peers.target) :
    addressed peers.target (bothWays peers p) = [reply .punchHole (peers.endpoint p)] := by
  simp [bothWays,addressed,other]

theorem bothWays_own (other : p ≠ peers.target) :
    addressed p (bothWays peers p) = [reply .queryDeviceInfoResponse (peers.endpoint peers.target)] := by
  simp [bothWays,addressed,other.symm]

-- At rest, both sides of every pair that nothing failed for have been told once.
theorem quiet_introduced (path : Sequence peers.step .start actions s) (quiet : Quiet peers.step s) (going : s.stopped = false) :
    ∃ told : List (P × MsgDeviceInfo), (told.map Prod.fst).Nodup ∧ (∀ e ∈ told, e.1 ≠ peers.target) ∧
      s.connects peers.target = told.map Prod.snd ∧ ∀ p, p ≠ peers.target → (∀ action ∈ actions, Spared p action) →
        (p,peers.endpoint p) ∈ told ∧ s.connects p = [peers.endpoint peers.target] := by
  obtain ⟨order,sound,delivered⟩ := reached_delivered path
  have idle := quiet_idle.mp quiet
  have all : ∀ p, s.connects p = (s.down p).sent.filterMap device := by
    intro p
    rw [delivered.connected p,(idle p).2.2.2,List.take_length]
  refine ⟨told peers s.handled,sound.handledOnce.sublist (told_once _ sound.answers),?_,?_,?_⟩
  · intro e listed
    obtain ⟨h,member,same⟩ := List.mem_map.mp ((told_once _ sound.answers).subset (List.mem_map_of_mem listed))
    rw [← same]
    exact (sound.answers h member).1
  · rw [told_infos sound,all]
  · intro p other spared
    have read := idle_read sound (idle p) going other
    obtain ⟨h,member,own⟩ := (delivered.handles p read).resolve_left (Bool.eq_false_iff.mp going)
    have whole := reached_introduces path spared h member own
    constructor
    · refine List.mem_flatMap.mpr ⟨h,member,?_⟩
      rw [whole,bothWays_target other,own]
      exact List.mem_singleton_self _
    · rw [all,own_channel sound other member own,whole,bothWays_own other]
      rfl

-- The steps that p has had a part in: what it has sent, what of it was read, and what it received.
def work (s : State P) (p : P) : Nat := (s.up p).sent.length+(s.up p).taken+(s.down p).taken

theorem flatMap_short (g : α → List β) (l : List α) (short : ∀ a ∈ l, (g a).length ≤ 1) : (l.flatMap g).length ≤ l.length := by
  induction l with
  | nil => exact Nat.le_refl 0
  | cons a rest ih =>
      obtain ⟨first,later⟩ := List.forall_mem_cons.mp short
      have all := ih later
      rw [List.flatMap_cons,List.length_append,List.length_cons]
      omega

theorem other_work (sound : peers.Sound order s) (other : p ≠ peers.target) : work s p ≤ 5 := by
  have sent : (s.up p).sent.length ≤ 2 := by
    rw [sound.sends p]
    cases s.phase p with
    | fresh => exact Nat.zero_le 2
    | pinged => exact Nat.le_succ 1
    | asked => exact Nat.le_refl 2
    | answered response => exact Nat.le_refl 2
  have own : (s.down p).sent.length ≤ 1 := by
    by_cases asked : ∃ h ∈ s.handled, h.pbev = p
    · obtain ⟨h,member,same⟩ := asked
      rw [own_channel sound other member same]
      rcases answers_other (sound.answers h member) other with none | ⟨_,one⟩
      · simp [none]
      · simp [one]
    · have nothing : (s.down p).sent = [] := by
        rw [sound.channels p]
        refine List.flatMap_eq_nil_iff.mpr (fun h member => ?_)
        rcases answers_other (sound.answers h member) other with none | ⟨same,_⟩
        · exact none
        · exact absurd ⟨h,member,same⟩ asked
      simp [nothing]
  have read := (s.up p).bound
  have received := (s.down p).bound
  unfold work
  omega

theorem target_work (sound : peers.Sound order s) : work s peers.target ≤ s.handled.length+2 := by
  have sent : (s.up peers.target).sent.length ≤ 1 := by
    rw [sound.sends peers.target]
    cases phase : s.phase peers.target with
    | fresh => exact Nat.zero_le 1
    | pinged => exact Nat.le_refl 1
    | asked => exact absurd rfl (sound.asks _ phase)
    | answered response => exact absurd rfl (sound.received _ _ phase).1
  have punched : (s.down peers.target).sent.length ≤ s.handled.length := by
    rw [sound.channels peers.target]
    refine flatMap_short _ _ (fun h member => ?_)
    rcases answers_target (sound.answers h member) with none | ⟨info,one⟩
    · simp [none]
    · simp [one]
  have read := (s.up peers.target).bound
  have received := (s.down peers.target).bound
  unfold work
  omega

section Bound

variable [Fintype P]

theorem sum_bumped {f g : P → Nat} (p : P) (same : ∀ q, q ≠ p → g q = f q) (more : g p = f p+1) :
    ∑ q, g q = ∑ q, f q+1 := by
  rw [← Finset.add_sum_erase Finset.univ g (Finset.mem_univ p),← Finset.add_sum_erase Finset.univ f (Finset.mem_univ p),more,
    Finset.sum_congr rfl (fun q member => same q (Finset.ne_of_mem_erase member))]
  exact Nat.add_right_comm _ _ _

theorem put_work (s : State P) (p : P) (m : Msg) (phase : P → Phase) :
    ∑ q, work {s with phase := phase,up := Function.update s.up p ((s.up p).put m)} q = ∑ q, work s q+1 := by
  refine sum_bumped p (fun q other => ?_) ?_
  · simp [work,Function.update_of_ne other]
  · simp only [work,Function.update_self,put_sent,put_taken,List.length_append,List.length_singleton]
    omega

theorem take_work (took : (s.up p).take = some (m,rest)) (down : ∀ q, (t.down q).taken = (s.down q).taken)
    (up : t.up = Function.update s.up p rest) : ∑ q, work t q = ∑ q, work s q+1 := by
  obtain ⟨_,sent,count⟩ := take_exact took
  refine sum_bumped p (fun q other => ?_) ?_
  · simp [work,up,down,Function.update_of_ne other]
  · simp only [work,up,down,Function.update_self,sent,count]
    omega

theorem step_work (sound : peers.Sound order s) (delivered : Delivered s) (taken : peers.step s action = some t) :
    ∑ p, work t p = ∑ p, work s p+1 := by
  cases step_takes sound taken with
  | pinged _ => exact put_work s _ _ _
  | asked _ => exact put_work s _ _ _
  | registered io going took first => exact take_work took (fun _ => rfl) rfl
  | stopped io going took second other ran => exact take_work took (fun _ => rfl) rfl
  | handled io going took second other ran => exact take_work took (fun q => (putAll_exact s.down _ q).2) rfl
  | received took =>
      rename_i p m rest
      obtain ⟨_,_,_,_,equal⟩ := deliver_exact sound delivered took
      obtain ⟨_,_,count⟩ := take_exact took
      rw [equal]
      refine sum_bumped p (fun q other => ?_) ?_
      · simp [work,Function.update_of_ne other]
      · simp only [work,Function.update_self,count]
        omega

theorem reached_work (path : Sequence peers.step .start actions s) : actions.length = ∑ p, work s p := by
  have fresh : ([] : List (Action P)).length = ∑ p, work (P:=P) .start p := by simp [work,State.start,Channel.empty]
  obtain ⟨_,_,_,length⟩ := reached_recorded (I:=fun before s => before.length = ∑ p, work s p) (by
    intro order before s action next sound delivered length taken
    rw [step_work sound delivered taken,← length]
    exact List.length_append) path fresh
  exact length

theorem handled_few (sound : peers.Sound order s) : s.handled.length+1 ≤ Fintype.card P := by
  have distinct : (peers.target :: s.handled.map (·.pbev)).Nodup := by
    refine List.nodup_cons.mpr ⟨fun member => ?_,sound.handledOnce⟩
    obtain ⟨h,listed,same⟩ := List.mem_map.mp member
    exact (sound.answers h listed).1 same
  simpa using distinct.length_le_card

theorem total_work (sound : peers.Sound order s) : ∑ p, work s p+4 ≤ 6*Fintype.card P := by
  have others : ∑ p ∈ Finset.univ.erase peers.target, work s p ≤ (Fintype.card P-1)*5 := by
    have each := Finset.sum_le_card_nsmul (Finset.univ.erase peers.target) (work s) 5
      (fun p member => other_work sound (Finset.ne_of_mem_erase member))
    rwa [Finset.card_erase_of_mem (Finset.mem_univ _),Finset.card_univ] at each
  have target := target_work sound
  have few := handled_few sound
  rw [← Finset.add_sum_erase Finset.univ (work s) (Finset.mem_univ peers.target)]
  omega

theorem run_bounded (path : Sequence peers.step .start actions s) : actions.length+4 ≤ 6*Fintype.card P := by
  obtain ⟨order,sound,_⟩ := reached_delivered path
  rw [reached_work path]
  exact total_work sound

end Bound

end PersonalJournal.Introduction
