import PersonalJournal.Lib.Allocation
import PersonalJournal.P2p.Server

namespace PersonalJournal.ServerHeap
open Allocation Registry Transition

-- What the server takes a block for.
inductive Use (β : Type) where
  | head
  -- user_data of a connection
  | client (bev : β)
  | device
  | request
  -- pping or pquery_device_info
  | body
  | response
  | source
  | punch
  deriving DecidableEq

structure State (β : Type) where
  server : Server.State β
  heap : Heap (Use β)
  user_data : β → Option Nat

-- s_pall_device_info
def State.start (head : Nat) : State β := ⟨.start,⟨[(head,.head)],List.nodup_singleton head⟩,fun _ => none⟩

def processPingCmd (alloc : Allocator (Use β)) (io : Io) (h : Heap (Use β)) : Option (Heap (Use β)) :=
  let (pdevice_info,h) := h.tryMalloc io.entry alloc .device
  -- in the list from here on; at ERR it is null
  if pdevice_info.isSome then some h else h.release pdevice_info

def sendPunchHoleCmdToPeer (alloc : Allocator (Use β)) (io : Io) (h : Heap (Use β)) : Option (Heap (Use β)) :=
  let (pmsg,h) := h.tryMalloc io.punch alloc .punch
  h.release pmsg

-- A device that is not found is a failed assertion, and nothing is freed any more.
def processQueryDeviceInfoCmd (alloc : Allocator (Use β)) (io : Io) (pdst : Option β) (h : Heap (Use β)) : Option (Heap (Use β)) :=
  let (presponse,h) := h.tryMalloc io.response alloc .response
  if presponse.isNone then h.release presponse
  else
    let (psrc_device_info,h) := h.tryMalloc io.source alloc .source
    match psrc_device_info,pdst with
    | some _,none => some h
    | some _,some _ => do
        let h ← sendPunchHoleCmdToPeer alloc io h
        let h ← h.release psrc_device_info
        h.release presponse
    | none,_ => do
        let h ← h.release psrc_device_info
        h.release presponse

def serve (alloc : Allocator (Use β)) (io : Io) (devices : DeviceList β) (m : Msg) (h : Heap (Use β)) : Option (Heap (Use β)) :=
  match m.head.cmd,m.data with
  | .ping,.ping _ => processPingCmd alloc io h
  | .queryDeviceInfoRequest,.deviceInfo info =>
      processQueryDeviceInfoCmd alloc io (Scan.start.run m.head.src_device_sn info.device_sn devices).pdst h
  | _,_ => some h

variable {β : Type} [DecidableEq β]

-- A message is handed on exactly where there is a block for its body, which no one frees.
def State.connRead (s : State β) (alloc : Allocator (Use β)) (bev : β) (c : Server.Connection) (seg : Framing.Segment) (io : Io) :
    Option (State β) := do
  let server := (s.server.connRead bev c seg io).1
  let (prequest,h) := s.heap.tryMalloc seg.request alloc .request
  match (Framing.connRead seg.request seg.body (c.input ++ seg.octets)).1 with
  | none => some {s with server := server,heap := ← h.release prequest}
  | some m =>
      let (_,h) := h.tryMalloc true alloc .body
      let h ← serve alloc io s.server.devices m h
      if server.stopped then some {s with server := server,heap := h}
      else some {s with server := server,heap := ← h.release prequest}

-- A callback, and where the blocks it takes come to lie.
structure Label (β : Type) where
  action : Server.Action β
  alloc : Allocator (Use β)

def step (s : State β) (l : Label β) : Option (State β) := do
  let server ← Server.step s.server l.action
  match l.action with
  | .accept bev _ granted created =>
      let (pclient_addr,h) := s.heap.tryMalloc granted l.alloc (.client bev)
      if pclient_addr.isSome && created then
        some ⟨server,h,Function.update s.user_data bev pclient_addr⟩
      else some {s with server := server,heap := ← h.release pclient_addr}
  | .read bev seg io => (s.server.connections bev).bind (fun c => s.connRead l.alloc bev c seg io)
  | .event bev => some ⟨server,← s.heap.release (s.user_data bev),Function.update s.user_data bev none⟩

def counted (blocks : List (Nat × Use β)) (u : Use β) : Nat := (blocks.map Prod.snd).count u

omit [DecidableEq β] in
theorem ping_frame {h : Heap (Use β)} (holds : h.Holds owned) (alloc : Allocator (Use β)) (io : Io) :
    ∃ p next, processPingCmd alloc io h = some next ∧ next.Holds (block .device p ++ owned) ∧ p.isSome = io.entry := by
  have taken := holds.tryMalloc io.entry alloc .device
  have some := tryMalloc_some (h:=h) io.entry alloc .device
  unfold processPingCmd
  generalize h.tryMalloc io.entry alloc .device = answer at taken some
  obtain ⟨p,next⟩ := answer
  cases p with
  | none => exact ⟨none,next,rfl,taken,some⟩
  | some a => exact ⟨_,next,rfl,taken,some⟩

omit [DecidableEq β] in
theorem punch_frame {h : Heap (Use β)} (holds : h.Holds owned) (alloc : Allocator (Use β)) (io : Io) :
    ∃ next, sendPunchHoleCmdToPeer alloc io h = some next ∧ next.Holds owned :=
  (holds.tryMalloc io.punch alloc .punch).release _

def Temporary : Use β → Prop
  | .request => True
  | .response => True
  | .source => True
  | .punch => True
  | _ => False

omit [DecidableEq β] in
-- A query leaves the heap as it was, or the blocks of its own when the assertion fails.
theorem query_frame {h : Heap (Use β)} (holds : h.Holds owned) (alloc : Allocator (Use β)) (io : Io) (pdst : Option β) :
    ∃ next left, processQueryDeviceInfoCmd alloc io pdst h = some next ∧ next.Holds (left ++ owned) ∧
      (∀ b ∈ left, Temporary b.2) ∧ ((io.response && io.source && pdst.isNone) = false → left = []) := by
  have one := holds.tryMalloc io.response alloc .response
  have answered := tryMalloc_some (h:=h) io.response alloc .response
  unfold processQueryDeviceInfoCmd
  generalize h.tryMalloc io.response alloc .response = answer at one answered
  obtain ⟨presponse,h⟩ := answer
  cases presponse with
  | none => exact ⟨h,[],rfl,one,(fun _ member => by cases member),fun _ => rfl⟩
  | some response =>
      have two := one.tryMalloc io.source alloc .source
      have answered' := tryMalloc_some (h:=h) io.source alloc .source
      dsimp only at two answered ⊢
      generalize h.tryMalloc io.source alloc .source = answer at two answered'
      obtain ⟨psrc,h⟩ := answer
      rw [if_neg (by simp)]
      cases psrc with
      | none =>
          obtain ⟨next,freed,holds⟩ := two.release (some response)
          exact ⟨next,[],freed,holds,(fun _ member => by cases member),fun _ => rfl⟩
      | some source =>
          cases pdst with
          | none =>
              refine ⟨h,[(source,.source),(response,.response)],rfl,two,?_,?_⟩
              · intro b member
                rcases List.mem_cons.mp member with rfl | last
                · trivial
                · rw [List.mem_singleton.mp last]
                  trivial
              · intro passed
                rw [← answered,← answered'] at passed
                cases passed
          | some bev =>
              obtain ⟨next,sent,holds⟩ := punch_frame two alloc io
              obtain ⟨next',freed,holds⟩ := holds.release (some source)
              obtain ⟨last,freed',holds⟩ := holds.release (some response)
              exact ⟨last,[],by simp only [sent,bind,Option.bind_some,freed,freed'],holds,(fun _ member => by cases member),
                fun _ => rfl⟩

-- The blocks that a callback leaves behind when it goes from one state to another.
structure Gains (s next : Server.State β) (bodies : Nat) (gained : List (Nat × Use β)) : Prop where
  devices : counted gained .device+s.devices.length = next.devices.length
  bodies : counted gained .body = bodies
  kinds : ∀ b ∈ gained, b.2 = .device ∨ b.2 = .body ∨ Temporary b.2
  idle : next.stopped = false → ∀ b ∈ gained, ¬ Temporary b.2

theorem counted_none {gained : List (Nat × Use β)} {u : Use β} (none : ∀ b ∈ gained, b.2 ≠ u) : counted gained u = 0 := by
  refine List.count_eq_zero.mpr (fun member => ?_)
  obtain ⟨b,inside,same⟩ := List.mem_map.mp member
  exact none b inside same

theorem counted_append (one two : List (Nat × Use β)) (u : Use β) : counted (one ++ two) u = counted one u+counted two u := by
  rw [counted,List.map_append,List.count_append]
  rfl

theorem Gains.quiet {s next : Server.State β} {gained : List (Nat × Use β)} (devices : next.devices = s.devices)
    (temporary : ∀ b ∈ gained, Temporary b.2) (idle : next.stopped = false → gained = []) : Gains s next 0 gained := by
  refine ⟨?_,?_,fun b member => .inr (.inr (temporary b member)),?_⟩
  · rw [devices,counted_none (fun b member same => by have held := temporary b member; rw [same] at held; exact held),Nat.zero_add]
  · exact counted_none (fun b member same => by have held := temporary b member; rw [same] at held; exact held)
  · intro running b member
    rw [idle running] at member
    cases member

omit [DecidableEq β] in
theorem query_running (s : Server.State β) (io : Io) (bev : β) (src query : UInt64)
    (running : (s.query io bev src query).1.stopped = false) :
    (io.response && io.source && (Scan.start.run src query s.devices).pdst.isNone) = false := by
  unfold Server.State.query Registry.processQueryDeviceInfoCmd at running
  generalize Scan.start.run src query s.devices = scan at running ⊢
  cases answered : io.response && io.source with
  | false => rfl
  | true =>
      cases pdst : scan.pdst with
      | none => simp [answered,Registry.sendPunchHoleCmdToPeer,pdst] at running
      | some other => rfl

-- What the switch of conn_read_cb leaves behind.
theorem serve_frame {h : Heap (Use β)} (holds : h.Holds owned) (alloc : Allocator (Use β)) (s : Server.State β) (io : Io)
    (bev : β) (client : SockaddrIn) (m : Msg) :
    ∃ next gained, serve alloc io s.devices m h = some next ∧ next.Holds (gained ++ owned) ∧
      Gains s (s.serve io bev client m).1 0 gained := by
  have unmoved : ∃ next gained, some h = some next ∧ next.Holds (gained ++ owned) ∧ Gains s s 0 gained :=
    ⟨h,[],rfl,holds,.quiet rfl (fun _ member => by cases member) (fun _ => rfl)⟩
  obtain ⟨⟨magic,msgid,src,dst,len,cmd⟩,data⟩ := m
  cases cmd with
  | ping =>
      cases data with
      | ping ping =>
          obtain ⟨p,next,taken,held,granted⟩ := ping_frame holds alloc io
          refine ⟨next,_,taken,held,?_⟩
          simp only [Server.State.serve,Registry.processPingCmd,← granted]
          cases p with
          | none => exact .quiet rfl (fun _ member => by cases member) (fun _ => rfl)
          | some a =>
              refine ⟨?_,?_,?_,?_⟩
              · simp [counted,block,Nat.add_comm]
              · simp [counted,block]
              · intro b member
                rw [List.mem_singleton.mp member]
                exact .inl rfl
              · intro _ b member held
                rw [List.mem_singleton.mp member] at held
                exact held
      | deviceInfo => exact unmoved
  | queryDeviceInfoRequest =>
      cases data with
      | ping => exact unmoved
      | deviceInfo info =>
          obtain ⟨next,left,ran,held,temporary,kept⟩ :=
            query_frame holds alloc io (Scan.start.run src info.device_sn s.devices).pdst
          have devices := (Server.query_kept s io bev src info.device_sn).2
          exact ⟨next,left,ran,held,.quiet devices temporary
            (fun running => kept (query_running s io bev src info.device_sn running))⟩
  | unknownCmd => exact unmoved
  | queryDeviceInfoResponse => exact unmoved
  | punchHole => exact unmoved
  | close => exact unmoved

-- And the block of the body in front of that, with whatever the assertion has left.
theorem Gains.body {s next : Server.State β} {gained rest : List (Nat × Use β)} (gains : Gains s next 0 gained)
    (before : Server.State β) (devices : s.devices = before.devices) (a : Nat) (temporary : ∀ b ∈ rest, Temporary b.2)
    (idle : next.stopped = false → rest = []) : Gains before next 1 (gained ++ (a,.body) :: rest) := by
  have other : ∀ u, ¬ Temporary u → counted rest u = 0 :=
    fun u lasting => counted_none (fun b member same => lasting (same ▸ temporary b member))
  have device : counted ((a,.body) :: rest) .device = 0 := by
    rw [counted,List.map_cons,List.count_cons_of_ne (by simp)]
    exact other .device id
  have body : counted ((a,.body) :: rest) .body = 1 := by
    rw [counted,List.map_cons,List.count_cons_self]
    exact congrArg (·+1) (other .body id)
  refine ⟨?_,?_,?_,?_⟩
  · rw [counted_append,device,← devices,Nat.add_zero]
    exact gains.devices
  · rw [counted_append,body,gains.bodies]
  · intro b member
    rcases List.mem_append.mp member with early | late
    · exact gains.kinds b early
    · rcases List.mem_cons.mp late with rfl | last
      · exact .inr (.inl rfl)
      · exact .inr (.inr (temporary b last))
  · intro running b member
    rw [idle running] at member
    rcases List.mem_append.mp member with early | late
    · exact gains.idle running b early
    · rw [List.mem_singleton.mp late]
      exact id

-- Whether conn_read_cb hands a message on.
def hands (c : Server.Connection) (seg : Framing.Segment) : Nat :=
  if (Framing.connRead seg.request seg.body (c.input ++ seg.octets)).1.isSome then 1 else 0

theorem connRead_frame (s : State β) (alloc : Allocator (Use β)) (bev : β) (c : Server.Connection) (seg : Framing.Segment)
    (io : Io) :
    ∃ h gained, s.connRead alloc bev c seg io = some ⟨(s.server.connRead bev c seg io).1,h,s.user_data⟩ ∧
      h.Holds (gained ++ s.heap.blocks) ∧ Gains s.server (s.server.connRead bev c seg io).1 (hands c seg) gained := by
  have one := (Heap.Holds.self s.heap).tryMalloc seg.request alloc .request
  unfold State.connRead Server.State.connRead hands
  generalize s.heap.tryMalloc seg.request alloc .request = answer at one
  obtain ⟨prequest,h⟩ := answer
  generalize Framing.connRead seg.request seg.body (c.input ++ seg.octets) = handed
  obtain ⟨m,left⟩ := handed
  have asked : ∀ b ∈ block (Use.request : Use β) prequest, Temporary b.2 := by
    intro b member
    cases prequest with
    | none => cases member
    | some a => rw [List.mem_singleton.mp member]; trivial
  cases m with
  | none =>
      obtain ⟨last,freed,holds⟩ := one.release prequest
      exact ⟨last,[],by simp only [freed,bind,Option.bind_some],holds,
        .quiet rfl (fun _ member => by cases member) (fun _ => rfl)⟩
  | some m =>
      have two := one.malloc alloc .body
      obtain ⟨next,gained,served,holds,gains⟩ := serve_frame two alloc (s.server.hold bev (some {c with input := left})) io bev
        c.client m
      have served : serve alloc io s.server.devices m (h.malloc alloc .body) = some next := served
      simp only [Heap.tryMalloc,if_true,bind,Option.bind_some,served,Option.isSome_some]
      generalize (s.server.hold bev (some {c with input := left})).serve io bev c.client m = result at gains ⊢
      obtain ⟨⟨connections,devices,stopped⟩,writes⟩ := result
      cases stopped with
      | true =>
          refine ⟨next,gained ++ (alloc.place h,.body) :: block .request prequest,rfl,?_,
            gains.body s.server rfl _ asked (fun running => by cases running)⟩
          rw [List.append_assoc]
          exact holds
      | false =>
          rw [List.append_cons] at holds
          obtain ⟨last,freed,holds⟩ := (holds.perm (List.perm_append_comm_assoc ..)).release prequest
          refine ⟨last,gained ++ [(alloc.place h,.body)],by simp [freed],holds,
            gains.body s.server rfl _ (fun b member => by cases member) (fun _ => rfl)⟩

theorem connRead_connections (s : Server.State β) (bev : β) (c : Server.Connection) (seg : Framing.Segment) (io : Io) :
    ∃ c', (s.connRead bev c seg io).1.connections = Function.update s.connections bev (some c') := by
  unfold Server.State.connRead
  dsimp only
  split
  · exact ⟨_,rfl⟩
  · exact ⟨_,(Server.serve_kept _ io bev c.client _).1⟩

-- The messages that one callback, and all those of a run, hand on.
def bodies (s : Server.State β) : Server.Action β → Nat
  | .accept _ _ _ _ => 0
  | .read bev seg _ => match s.connections bev with
      | none => 0
      | some c => hands c seg
  | .event _ => 0

def handled (s : Server.State β) : List (Server.Action β) → Nat
  | [] => 0
  | action :: rest => bodies s action + match Server.step s action with
      | none => 0
      | some next => handled next rest

-- Every block in use is accounted for: one for the list head, one for each open connection,
-- one for each entry, and one for each message that was ever handed on.
structure Accounted (s : State β) (n : Nat) : Prop where
  head : s.heap.uses .head = 1
  device : s.heap.uses .device = s.server.devices.length
  body : s.heap.uses .body = n
  client : ∀ bev, s.heap.uses (.client bev) = (s.server.connections bev).isSome.toNat
  idle : s.server.stopped = false → ∀ u, Temporary u → s.heap.uses u = 0
  linked : ∀ bev, (s.server.connections bev).isSome = true → ∃ a, s.user_data bev = some a ∧ (a,.client bev) ∈ s.heap.blocks

theorem uses_gained {h next : Heap (Use β)} {gained : List (Nat × Use β)} (holds : next.Holds (gained ++ h.blocks)) (u : Use β) :
    next.uses u = counted gained u+h.uses u := by
  rw [holds.uses u]
  exact counted_append gained h.blocks u

theorem Gains.none {s next : Server.State β} {gained : List (Nat × Use β)} (gains : Gains s next n gained) (u : Use β)
    (device : u ≠ .device) (body : u ≠ .body) (lasting : ¬ Temporary u) : counted gained u = 0 := by
  refine counted_none (fun b member same => ?_)
  rcases gains.kinds b member with is | is | is
  · exact device (same.symm.trans is)
  · exact body (same.symm.trans is)
  · exact lasting (same ▸ is)

theorem read_accounted {s : State β} {h : Heap (Use β)} {gained : List (Nat × Use β)} (accounted : Accounted s n)
    (running : s.server.stopped = false) (here : s.server.connections bev = some c)
    (holds : h.Holds (gained ++ s.heap.blocks))
    (gains : Gains s.server (s.server.connRead bev c seg io).1 k gained) :
    Accounted ⟨(s.server.connRead bev c seg io).1,h,s.user_data⟩ (n+k) := by
  obtain ⟨c',connections⟩ := connRead_connections s.server bev c seg io
  have open' : ∀ b, ((s.server.connRead bev c seg io).1.connections b).isSome = (s.server.connections b).isSome := by
    intro b
    rw [connections,Function.update_apply]
    split
    · rename_i same
      rw [same,here]
      rfl
    · rfl
  refine ⟨?_,?_,?_,?_,?_,?_⟩
  · rw [uses_gained holds,gains.none _ (by simp) (by simp) id,Nat.zero_add]
    exact accounted.head
  · rw [uses_gained holds,accounted.device]
    exact gains.devices
  · rw [uses_gained holds,gains.bodies,accounted.body,Nat.add_comm]
  · intro b
    rw [uses_gained holds,gains.none _ (by simp) (by simp) id,Nat.zero_add,open']
    exact accounted.client b
  · intro stays u temporary
    rw [uses_gained holds,counted_none (fun b member same => gains.idle stays b member (same ▸ temporary)),Nat.zero_add]
    exact accounted.idle running u temporary
  · intro b is
    rw [open'] at is
    obtain ⟨a,pointer,member⟩ := accounted.linked b is
    exact ⟨a,pointer,(List.Perm.mem_iff holds).mpr (List.mem_append_right _ member)⟩

theorem accept_accounted {s : State β} (accounted : Accounted s n) (alloc : Allocator (Use β))
    (free : (s.server.connections bev).isSome = false) (client : SockaddrIn) :
    Accounted ⟨s.server.hold bev (some ⟨client,[]⟩),s.heap.malloc alloc (.client bev),
      Function.update s.user_data bev (some (alloc.place s.heap))⟩ n := by
  have uses : ∀ u, (s.heap.malloc alloc (.client bev)).uses u = s.heap.uses u+if Use.client bev = u then 1 else 0 := by
    intro u
    rw [((Heap.Holds.self s.heap).malloc alloc (.client bev)).uses u,List.map_cons,List.count_cons]
    simp only [beq_iff_eq]
    rfl
  refine ⟨?_,?_,?_,?_,?_,?_⟩
  · rw [uses,if_neg (by simp)]
    exact accounted.head
  · rw [uses,if_neg (by simp)]
    exact accounted.device
  · rw [uses,if_neg (by simp)]
    exact accounted.body
  · intro b
    rw [uses,accounted.client b]
    dsimp only [Server.State.hold]
    by_cases same : b = bev
    · rw [same,if_pos rfl,free,Function.update_self]
      rfl
    · rw [if_neg (fun is => same (Use.client.inj is).symm),Function.update_of_ne same]
      rfl
  · intro running u temporary
    rw [uses,if_neg (fun is => by rw [← is] at temporary; exact temporary)]
    exact accounted.idle running u temporary
  · intro b is
    by_cases same : b = bev
    · exact ⟨alloc.place s.heap,by rw [same]; exact Function.update_self ..,by rw [same]; exact List.mem_cons_self⟩
    · dsimp only [Server.State.hold] at is
      rw [Function.update_of_ne same] at is
      obtain ⟨a,pointer,member⟩ := accounted.linked b is
      exact ⟨a,by dsimp only; rw [Function.update_of_ne same]; exact pointer,List.mem_cons_of_mem _ member⟩

-- conn_event_cb gives back the block that its connection was accepted with.
theorem event_accounted {s : State β} (accounted : Accounted s n) (is : (s.server.connections bev).isSome = true) :
    ∃ h, s.heap.release (s.user_data bev) = some h ∧
      Accounted ⟨s.server.hold bev none,h,Function.update s.user_data bev none⟩ n := by
  obtain ⟨a,pointer,member⟩ := accounted.linked bev is
  obtain ⟨h,freed,holds⟩ := Heap.Holds.free (List.perm_cons_erase member : s.heap.Holds _)
  have uses : ∀ u, h.uses u+(if Use.client bev = u then 1 else 0) = s.heap.uses u := by
    intro u
    rw [Heap.Holds.uses (List.perm_cons_erase member : s.heap.Holds _) u,List.map_cons,List.count_cons,holds.uses u]
    simp only [beq_iff_eq]
  refine ⟨h,by rw [pointer]; exact freed,?_,?_,?_,?_,?_,?_⟩
  · have one := uses .head
    rw [if_neg (by simp)] at one
    exact one.trans accounted.head
  · have one := uses .device
    rw [if_neg (by simp)] at one
    exact one.trans accounted.device
  · have one := uses .body
    rw [if_neg (by simp)] at one
    exact one.trans accounted.body
  · intro b
    have one := uses (.client b)
    rw [accounted.client b] at one
    dsimp only [Server.State.hold]
    by_cases same : b = bev
    · rw [same,if_pos rfl,is] at one
      rw [same,Function.update_self]
      exact Nat.succ.inj one
    · rw [if_neg (fun is => same (Use.client.inj is).symm)] at one
      rw [Function.update_of_ne same]
      exact one
  · intro running u temporary
    have one := uses u
    rw [accounted.idle running u temporary] at one
    exact (Nat.add_eq_zero_iff.mp one).1
  · intro b open'
    have apart : b ≠ bev := by
      rintro rfl
      simp [Server.State.hold] at open'
    dsimp only [Server.State.hold] at open'
    rw [Function.update_of_ne apart] at open'
    obtain ⟨a',pointer',member'⟩ := accounted.linked b open'
    refine ⟨a',by dsimp only; rw [Function.update_of_ne apart]; exact pointer',?_⟩
    have differ : (a',Use.client b) ≠ (a,Use.client bev) := fun same => apart (Use.client.inj (Prod.mk.inj same).2)
    exact (List.Perm.mem_iff holds).mpr ((List.mem_erase_of_ne differ).mpr member')

theorem Accounted.same {s : State β} {h : Heap (Use β)} (accounted : Accounted s n) (holds : h.Holds s.heap.blocks) :
    Accounted ⟨s.server,h,s.user_data⟩ n := by
  refine ⟨?_,?_,?_,?_,?_,?_⟩
  · exact (holds.uses .head).trans accounted.head
  · exact (holds.uses .device).trans accounted.device
  · exact (holds.uses .body).trans accounted.body
  · exact fun bev => (holds.uses (.client bev)).trans (accounted.client bev)
  · exact fun running u temporary => (holds.uses u).trans (accounted.idle running u temporary)
  · intro bev is
    obtain ⟨a,pointer,member⟩ := accounted.linked bev is
    exact ⟨a,pointer,(List.Perm.mem_iff holds).mpr member⟩

-- One callback: what the server does, its heap can do, and all is accounted for again.
theorem step_accounted {s : State β} (accounted : Accounted s n) (l : Label β) (taken : Server.step s.server l.action = some next) :
    ∃ h user_data, step s l = some ⟨next,h,user_data⟩ ∧
      Accounted ⟨next,h,user_data⟩ (n+bodies s.server l.action) := by
  obtain ⟨action,alloc⟩ := l
  have taken : Server.step s.server action = some next := taken
  unfold step
  simp only [taken,bind,Option.bind_some]
  cases action with
  | accept bev client granted created =>
      simp only [Server.step] at taken
      split at taken
      · cases taken
      · rename_i refused
        have free : (s.server.connections bev).isSome = false := Bool.eq_false_iff.mpr (fun is => refused (.inr is))
        cases Option.some.inj taken
        cases granted with
        | true =>
            cases created with
            | true => exact ⟨_,_,rfl,accept_accounted accounted alloc free client⟩
            | false =>
                obtain ⟨h,freed,holds⟩ := ((Heap.Holds.self s.heap).malloc alloc (.client bev)).free
                refine ⟨h,s.user_data,?_,accounted.same holds⟩
                simp only [Heap.tryMalloc,if_true,Bool.and_false,Bool.false_eq_true,if_false,Heap.release,freed,Option.bind_some]
        | false => exact ⟨s.heap,s.user_data,rfl,accounted⟩
  | read bev seg io =>
      simp only [Server.step] at taken
      split at taken
      · cases taken
      · rename_i running
        obtain ⟨c,here,rfl⟩ := Option.map_eq_some_iff.mp taken
        obtain ⟨h,gained,ran,holds,gains⟩ := connRead_frame s alloc bev c seg io
        refine ⟨h,s.user_data,by simp only [here,Option.bind_some,ran],?_⟩
        simp only [bodies,here]
        exact read_accounted accounted (Bool.eq_false_iff.mpr running) here holds gains
  | event bev =>
      simp only [Server.step] at taken
      split at taken
      · cases taken
      · obtain ⟨c,here,rfl⟩ := Option.map_eq_some_iff.mp taken
        have is : (s.server.connections bev).isSome = true := by rw [here]; rfl
        obtain ⟨h,freed,left⟩ := event_accounted accounted is
        exact ⟨h,_,by simp only [freed,Option.bind_some],left⟩

theorem start_accounted (head : Nat) : Accounted (State.start head : State β) 0 := by
  refine ⟨?_,?_,?_,fun bev => ?_,fun _ u temporary => ?_,fun bev is => by cases is⟩
  · simp [State.start,Heap.uses]
  · simp [State.start,Heap.uses,Server.State.start]
  · simp [State.start,Heap.uses]
  · simp [State.start,Heap.uses,Server.State.start]
  · refine List.count_eq_zero.mpr (fun member => ?_)
    rw [List.mem_singleton.mp member] at temporary
    exact temporary

theorem run_accounted {s s' : State β} (path : Sequence step s labels s') (accounted : Accounted s n) :
    Sequence Server.step s.server (labels.map Label.action) s'.server ∧
      Accounted s' (n+handled s.server (labels.map Label.action)) := by
  induction path generalizing n with
  | nil => exact ⟨.nil,accounted⟩
  | cons taken _ ih =>
      rename_i s l middle rest _ _
      have moved : ∃ server, Server.step s.server l.action = some server := by
        unfold step at taken
        obtain ⟨server,moved,_⟩ := Option.bind_eq_some_iff.mp taken
        exact ⟨server,moved⟩
      obtain ⟨next,moved⟩ := moved
      obtain ⟨h,user_data,took,onward⟩ := step_accounted accounted l moved
      cases took.symm.trans taken
      obtain ⟨later,final⟩ := ih onward
      refine ⟨.cons moved later,?_⟩
      rw [List.map_cons,handled,moved,← Nat.add_assoc]
      exact final

theorem run_exists {s : State β} (path : Sequence Server.step s.server (labels.map Label.action) t) (accounted : Accounted s n) :
    ∃ s', Sequence step s labels s' ∧ s'.server = t := by
  induction labels generalizing s n with
  | nil =>
      cases path
      exact ⟨s,.nil,rfl⟩
  | cons l rest ih =>
      cases path with
      | cons moved later =>
          obtain ⟨h,user_data,took,onward⟩ := step_accounted accounted l moved
          obtain ⟨s',path,same⟩ := ih (s:=⟨_,h,user_data⟩) later onward
          exact ⟨s',.cons took path,same⟩

-- A client that registers and leaves, on a heap that grows upwards.
def visit : List (Label Nat) :=
  [⟨.accept 1 ⟨0x0a000001,5152⟩ true true,.above _⟩,⟨Server.writtenBy 1 Server.ping2222,.above _⟩,⟨.event 1,.above _⟩]

end PersonalJournal.ServerHeap
