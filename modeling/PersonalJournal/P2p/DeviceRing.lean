import PersonalJournal.P2p.ListHead
import PersonalJournal.P2p.Server

namespace PersonalJournal.DeviceRing
open CircularList ListHead Registry Transition

-- The blocks behind s_pall_device_info: the pointers in each, and the fields of those
-- that process_ping_cmd took. The list is the first field, so a node and its entry are
-- one address.
structure Memory (A β : Type) where
  links : Links A
  cell : A → Option (ServerDeviceInfo β)

-- p2p_transfer.c
def sNetworkType : List String :=
  ["UNKNOWN","PUBLIC_NETWORK","FULL_CONE_NAT","RESTRICTED_CONE_NAT","PORT_RESTRICTED_CONE_NAT","SYMMETRIC_NAT"]

def getStringNetworkType (network_type : Int32) : Option String :=
  let network_type := if network_type < 0 ∨ network_type > 5 then 0 else network_type
  sNetworkType[network_type.toInt.toNat]?

-- One line of print_all_device_info.
structure Line where
  device_sn : UInt64
  ip : UInt32
  port : UInt16
  network_type : String
  deriving DecidableEq

variable {A β : Type} [DecidableEq A] [DecidableEq β]

-- A pointer to no entry ends the program, as does an index outside the table.
def printBody (m : Memory A β) (pindex : A) (lines : List Line) : Flow (List Line) :=
  match m.cell pindex with
  | none => .fault
  | some e => match getStringNetworkType e.network_type with
    | none => .fault
    | some name => .next (lines ++ [⟨e.device_sn,e.ip_addr,e.port,name⟩])

def scanBody (m : Memory A β) (src query : UInt64) (pindex : A) (s : Scan β) : Flow (Scan β) :=
  match m.cell pindex with
  | none => .fault
  | some e => if (s.visit src query e).num = 2 then .stop (s.visit src query e) else .next (s.visit src query e)

-- list_for_each_entry with a body that leaves the list alone.
def Memory.forEachEntry {σ : Type} (m : Memory A β) (head : A) (body : A → σ → Flow σ) (fuel : Nat) (s : σ) : Option σ :=
  (Loop.run (eachTurn (fun _ => m.links.next) body head) fuel (m.links.next head,s)).bind id

def Memory.printAllDeviceInfo (m : Memory A β) (head : A) (fuel : Nat) : Option (List Line) :=
  m.forEachEntry head (printBody m) fuel []

-- calloc answers with a block that is in no use, and clears it.
def Memory.processPingCmd (m : Memory A β) (head : A) (fuel : Nat) (io : Io) (place : A) (pbev : β) (ping : MsgPing)
    (client : SockaddrIn) : Option (Int × Memory A β) :=
  if io.entry then
    if place = head ∨ (m.cell place).isSome then none
    else do
      let links := initListHead ((m.links.setNext place none).setPrev place none) place
      let cell := Function.update m.cell place
        (some ⟨pbev,ping.device_sn,client.sin_addr,client.sin_port,ping.network_type⟩)
      let links ← listAdd links place head
      let _ ← Memory.printAllDeviceInfo ⟨links,cell⟩ head fuel
      some (0,⟨links,cell⟩)
  else some (-1,m)

def Memory.processQueryDeviceInfoCmd (m : Memory A β) (head : A) (fuel : Nat) (io : Io) (pbev : β)
    (src query : UInt64) : Option (Outcome β) :=
  if io.response && io.source then do
    let s ← m.forEachEntry head (scanBody m src query) fuel .start
    match sendPunchHoleCmdToPeer io s.pdst s.src with
    | .aborted => some .aborted
    | .returned ret writes =>
        if ret = -1 then some (.returned (-1) writes)
        else if io.writeResponse then
          some (.returned (if s.pdst.isNone then -1 else 0) (writes ++ [(pbev,reply s.cmd s.query)]))
        else some (.returned (-1) writes)
  else some (.returned (-1) [])

structure State (A β : Type) where
  connections : β → Option Server.Connection
  memory : Memory A β
  stopped : Bool

-- main: s_pall_device_info from calloc, and INIT_LIST_HEAD.
def State.start (head : A) : State A β :=
  ⟨fun _ => none,⟨initListHead ⟨fun _ => none,fun _ => none⟩ head,fun _ => none⟩,false⟩

def State.serve (s : State A β) (head : A) (fuel : Nat) (io : Io) (place : A) (bev : β) (client : SockaddrIn) (m : Msg) :
    Option (State A β × List (β × Msg)) :=
  match m.head.cmd,m.data with
  | .ping,.ping ping => do
      let (_,memory) ← s.memory.processPingCmd head fuel io place bev ping client
      some ({s with memory := memory},[])
  | .queryDeviceInfoRequest,.deviceInfo info => do
      match ← s.memory.processQueryDeviceInfoCmd head fuel io bev m.head.src_device_sn info.device_sn with
      | .aborted => some ({s with stopped := true},[])
      | .returned _ writes => some (s,writes)
  | _,_ => some (s,[])

def State.hold (s : State A β) (bev : β) (c : Option Server.Connection) : State A β :=
  {s with connections := Function.update s.connections bev c}

def State.connRead (s : State A β) (head : A) (fuel : Nat) (place : A) (bev : β) (c : Server.Connection)
    (seg : Framing.Segment) (io : Io) : Option (State A β × List (β × Msg)) :=
  let (m,left) := Framing.connRead seg.request seg.body (c.input ++ seg.octets)
  let s := s.hold bev (some {c with input := left})
  match m with
  | none => some (s,[])
  | some m => s.serve head fuel io place bev c.client m

-- A callback, the block that calloc would give for an entry, and how many turns loops may take.
structure Label (A β : Type) where
  action : Server.Action β
  place : A
  fuel : Nat

def State.callback (s : State A β) (head : A) (l : Label A β) : Option (State A β × List (β × Msg)) :=
  match l.action with
  | .accept bev client granted created =>
      if s.stopped ∨ (s.connections bev).isSome then none
      else some (if granted && created then s.hold bev (some ⟨client,[]⟩) else s,[])
  | .read bev seg io =>
      if s.stopped then none else (s.connections bev).bind (fun c => s.connRead head l.fuel l.place bev c seg io)
  | .event bev => if s.stopped then none else (s.connections bev).map (fun _ => (s.hold bev none,[]))

def step (head : A) (s : State A β) (l : Label A β) : Option (State A β) := (s.callback head l).map Prod.fst

-- The ring behind the head is the list of the registered devices, and no entry is lost.
structure Registered (m : Memory A β) (head : A) (devices : DeviceList β) (nodes : List A) : Prop where
  ring : Ring m.links head nodes
  cells : nodes.map m.cell = devices.map some
  kept : ∀ a, (m.cell a).isSome = true → a ∈ nodes

structure Represents (head : A) (s : State A β) (t : Server.State β) : Prop where
  connections : s.connections = t.connections
  stopped : s.stopped = t.stopped
  devices : ∃ nodes, Registered s.memory head t.devices nodes

def Fresh (head : A) (s : State A β) (place : A) : Prop := place ≠ head ∧ s.memory.cell place = none

variable {m : Memory A β} {head place : A} {devices : DeviceList β} {nodes : List A} {s : State A β} {t next : Server.State β}
  {io : Io} {pbev bev : β} {src query : UInt64} {ping : MsgPing} {client : SockaddrIn} {action : Server.Action β}

-- A type outside the table is printed as UNKNOWN.
theorem network_type_named (network_type : Int32) : ∃ name ∈ sNetworkType, getStringNetworkType network_type = some name := by
  have inside : ∀ i, i < 6 → ∃ name ∈ sNetworkType, sNetworkType[i]? = some name := by
    intro i small
    have bound : i < sNetworkType.length := small
    exact ⟨sNetworkType[i],List.getElem_mem bound,List.getElem?_eq_getElem bound⟩
  unfold getStringNetworkType
  dsimp only
  split
  · exact inside 0 (by omega)
  · rename_i known
    apply inside
    rw [not_or,Int32.lt_iff_toInt_lt,gt_iff_lt,Int32.lt_iff_toInt_lt] at known
    have five : (5 : Int32).toInt = 5 := rfl
    have zero : (0 : Int32).toInt = 0 := rfl
    omega

def lineOf (e : ServerDeviceInfo β) : Line :=
  ⟨e.device_sn,e.ip_addr,e.port,(getStringNetworkType e.network_type).getD ""⟩

omit [DecidableEq A] [DecidableEq β] in
theorem print_visits (nodes : List A) (devices : DeviceList β) (cells : nodes.map m.cell = devices.map some)
    (lines : List Line) : visit (printBody m) nodes lines = some (lines ++ devices.map lineOf) := by
  induction nodes generalizing devices lines with
  | nil =>
      cases devices with
      | nil => simp [visit]
      | cons e rest => cases cells
  | cons a nodes ih =>
      cases devices with
      | nil => cases cells
      | cons e rest =>
          obtain ⟨here,later⟩ := List.cons.inj cells
          obtain ⟨name,_,named⟩ := network_type_named e.network_type
          have turn : printBody m a lines = .next (lines ++ [lineOf e]) := by
            simp [printBody,here,named,lineOf]
          rw [visit,turn]
          dsimp only
          rw [ih rest later,List.append_assoc,List.map_cons]
          rfl

omit [DecidableEq A] [DecidableEq β] in
-- The loop of the handler is the loop over the registered devices.
theorem scan_visits (nodes : List A) (devices : DeviceList β) (cells : nodes.map m.cell = devices.map some) (scan : Scan β) :
    visit (scanBody m src query) nodes scan = some (scan.run src query devices) := by
  induction nodes generalizing devices scan with
  | nil =>
      cases devices with
      | nil => rfl
      | cons e rest => cases cells
  | cons a nodes ih =>
      cases devices with
      | nil => cases cells
      | cons e rest =>
          obtain ⟨here,later⟩ := List.cons.inj cells
          rw [visit,scanBody,here,Scan.run]
          by_cases both : (scan.visit src query e).num = 2
          · simp only [if_pos both]
          · simp only [if_neg both]
            exact ih rest later _

omit [DecidableEq β] in
theorem forEachEntry_settles {σ : Type} {body : A → σ → Flow σ} {start result : σ} (reg : Registered m head devices nodes)
    (visits : visit body nodes start = some result) :
    Loop.Settles (fun fuel => m.forEachEntry head body fuel start) result := by
  have loop : ListForEach (fun _ => m.links) body head start (visit body nodes start) :=
    each_visits (fun _ _ _ _ ring _ => ring) reg.ring
  rw [visits] at loop
  exact loop.settles.bind (.done result)

omit [DecidableEq β] in
theorem query_settles (reg : Registered m head devices nodes) (io : Io) (pbev : β) (src query : UInt64) :
    Loop.Settles (fun fuel => m.processQueryDeviceInfoCmd head fuel io pbev src query)
      (processQueryDeviceInfoCmd io devices pbev src query) := by
  unfold Memory.processQueryDeviceInfoCmd processQueryDeviceInfoCmd
  split
  · apply (forEachEntry_settles reg (scan_visits nodes devices reg.cells .start)).bind
    generalize Scan.start.run src query devices = scan
    dsimp only
    cases sent : sendPunchHoleCmdToPeer io scan.pdst scan.src with
    | aborted => exact .done _
    | returned ret writes =>
        dsimp only
        by_cases failed : ret = -1
        · simp only [if_pos failed]
          exact .done _
        · by_cases written : io.writeResponse = true
          · simp only [if_neg failed,if_pos written]
            exact .done _
          · simp only [if_neg failed,if_neg written]
            exact .done _
  · exact .done _

omit [DecidableEq A] [DecidableEq β] in
theorem Registered.cell_some (reg : Registered m head devices nodes) (member : a ∈ nodes) : (m.cell a).isSome = true := by
  have listed : m.cell a ∈ devices.map some := reg.cells ▸ List.mem_map_of_mem member
  obtain ⟨e,_,here⟩ := List.mem_map.mp listed
  rw [← here]
  rfl

omit [DecidableEq β] in
-- A fresh block put behind the head.
theorem Registered.insert (reg : Registered m head devices nodes) (fresh : place ≠ head) (free : m.cell place = none)
    (e : ServerDeviceInfo β) :
    ∃ links, listAdd (initListHead ((m.links.setNext place none).setPrev place none) place) place head = some links ∧
      Registered ⟨links,Function.update m.cell place (some e)⟩ head (e :: devices) (place :: nodes) := by
  have unused : place ∉ nodes := by
    intro member
    have held := reg.cell_some member
    rw [free] at held
    cases held
  have outside : place ∉ head :: nodes := List.not_mem_cons_of_ne_of_not_mem fresh unused
  have cleared : Ring (initListHead ((m.links.setNext place none).setPrev place none) place) head nodes := by
    apply reg.ring.frame
    intro z member
    have other : z ≠ place := fun same => outside (same ▸ member)
    simp [initListHead,other]
  obtain ⟨n,after,_⟩ := cleared.next_some
  refine ⟨_,by rw [listAdd,after]; exact add_tie _ place head n,cleared.insert after outside,?_,?_⟩
  · have others : nodes.map (Function.update m.cell place (some e)) = nodes.map m.cell := by
      apply List.map_congr_left
      intro a member
      have other : a ≠ place := fun same => unused (same ▸ member)
      exact Function.update_of_ne other _ _
    show Function.update m.cell place (some e) place :: _ = _
    rw [others,Function.update_self,reg.cells]
    rfl
  · intro a held
    dsimp only at held
    rw [Function.update_apply] at held
    split at held
    · rename_i same
      rw [same]
      exact List.mem_cons_self
    · exact List.mem_cons_of_mem _ (reg.kept a held)

omit [DecidableEq β] in
-- The new entry comes behind the head, and the loop that prints them all ends.
theorem ping_settles (reg : Registered m head devices nodes) (io : Io) (fresh : place ≠ head) (free : m.cell place = none)
    (pbev : β) (ping : MsgPing) (client : SockaddrIn) :
    ∃ m' nodes', Registered m' head (processPingCmd io devices pbev ping client).2 nodes' ∧
      Loop.Settles (fun fuel => m.processPingCmd head fuel io place pbev ping client)
        ((processPingCmd io devices pbev ping client).1,m') := by
  unfold Memory.processPingCmd processPingCmd
  by_cases granted : io.entry = true
  · have unused : ¬ (place = head ∨ (m.cell place).isSome = true) := by simp [fresh,free]
    obtain ⟨links,put,grown⟩ := reg.insert fresh free
      ⟨pbev,ping.device_sn,client.sin_addr,client.sin_port,ping.network_type⟩
    simp only [if_pos granted,if_neg unused]
    refine ⟨_,_,grown,?_⟩
    simp only [put,bind,Option.bind_some]
    exact (forEachEntry_settles grown (print_visits _ _ grown.cells [])).bind (.done _)
  · simp only [if_neg granted]
    exact ⟨m,nodes,reg,.done _⟩

omit [DecidableEq β] in
-- Without a fresh block no PING gets an entry.
theorem serve_settles (rep : Represents head s t) (place : A) (io : Io) (bev : β) (client : SockaddrIn) (m : Msg) :
    (¬ Fresh head s place ∧ ∀ fuel, s.serve head fuel io place bev client m = none) ∨
      ∃ s', Represents head s' (t.serve io bev client m).1 ∧
        Loop.Settles (fun fuel => s.serve head fuel io place bev client m) (s',(t.serve io bev client m).2) := by
  obtain ⟨nodes,reg⟩ := rep.devices
  obtain ⟨⟨magic,msgid,src,dst,len,cmd⟩,data⟩ := m
  cases cmd with
  | ping =>
      cases data with
      | ping ping =>
          by_cases fresh : Fresh head s place
          · obtain ⟨m',nodes',reg',settles⟩ := ping_settles reg io fresh.1 fresh.2 bev ping client
            refine .inr ⟨{s with memory := m'},⟨rep.connections,rep.stopped,nodes',reg'⟩,?_⟩
            exact settles.bind (.done _)
          · by_cases granted : io.entry = true
            · refine .inl ⟨fresh,fun fuel => ?_⟩
              have used : place = head ∨ (s.memory.cell place).isSome = true := by
                by_contra neither
                obtain ⟨apart,empty⟩ := not_or.mp neither
                exact fresh ⟨apart,by simpa using empty⟩
              simp [State.serve,Memory.processPingCmd,granted,used]
            · refine .inr ⟨s,?_,?_⟩
              · simp only [Server.State.serve,processPingCmd,if_neg granted]
                exact rep
              · simp only [State.serve,Memory.processPingCmd,if_neg granted,bind,Option.bind_some]
                exact .done _
      | deviceInfo => exact .inr ⟨s,rep,.done _⟩
  | queryDeviceInfoRequest =>
      cases data with
      | ping => exact .inr ⟨s,rep,.done _⟩
      | deviceInfo info =>
          right
          have settles := query_settles reg io bev src info.device_sn
          cases came : processQueryDeviceInfoCmd io t.devices bev src info.device_sn with
          | aborted =>
              rw [came] at settles
              simp only [Server.State.serve,Server.State.query,came]
              exact ⟨{s with stopped := true},⟨rep.connections,rfl,nodes,reg⟩,settles.bind (.done _)⟩
          | returned ret writes =>
              rw [came] at settles
              simp only [Server.State.serve,Server.State.query,came]
              exact ⟨s,rep,settles.bind (.done _)⟩
  | unknownCmd => exact .inr ⟨s,rep,.done _⟩
  | queryDeviceInfoResponse => exact .inr ⟨s,rep,.done _⟩
  | punchHole => exact .inr ⟨s,rep,.done _⟩
  | close => exact .inr ⟨s,rep,.done _⟩

omit [DecidableEq A] in
theorem represents_hold (rep : Represents head s t) (bev : β) (c : Option Server.Connection) :
    Represents head (s.hold bev c) (t.hold bev c) := by
  refine ⟨?_,rep.stopped,rep.devices⟩
  show Function.update s.connections bev c = Function.update t.connections bev c
  rw [rep.connections]

theorem connRead_settles (rep : Represents head s t) (place : A) (bev : β) (c : Server.Connection)
    (seg : Framing.Segment) (io : Io) :
    (¬ Fresh head s place ∧ ∀ fuel, s.connRead head fuel place bev c seg io = none) ∨
      ∃ s', Represents head s' (t.connRead bev c seg io).1 ∧
        Loop.Settles (fun fuel => s.connRead head fuel place bev c seg io) (s',(t.connRead bev c seg io).2) := by
  unfold State.connRead Server.State.connRead
  generalize Framing.connRead seg.request seg.body (c.input ++ seg.octets) = handed
  obtain ⟨m,left⟩ := handed
  have held := represents_hold rep bev (some {c with input := left})
  cases m with
  | none => exact .inr ⟨_,held,.done _⟩
  | some m => exact serve_settles held place io bev c.client m

-- One callback: allowed on both levels or on neither, and to the same effect.
theorem callback_settles (rep : Represents head s t) (place : A) (action : Server.Action β) :
    (¬ Fresh head s place ∧ ∀ fuel, s.callback head ⟨action,place,fuel⟩ = none) ∨
      (Server.step t action = none ∧ ∀ fuel, s.callback head ⟨action,place,fuel⟩ = none) ∨
      ∃ s' next, Server.step t action = some next ∧ Represents head s' next ∧
        Loop.Settles (fun fuel => s.callback head ⟨action,place,fuel⟩) (s',t.writes action) := by
  unfold State.callback Server.step Server.State.writes
  cases action with
  | accept bev client granted created =>
      right
      dsimp only
      rw [rep.connections,rep.stopped]
      split
      · exact .inl ⟨rfl,fun fuel => rfl⟩
      · right
        split
        · exact ⟨_,_,rfl,represents_hold rep bev _,.done _⟩
        · exact ⟨_,_,rfl,rep,.done _⟩
  | read bev seg io =>
      dsimp only
      rw [rep.connections,rep.stopped]
      split
      · exact .inr (.inl ⟨rfl,fun fuel => rfl⟩)
      · cases t.connections bev with
        | none => exact .inr (.inl ⟨rfl,fun fuel => rfl⟩)
        | some c =>
            rcases connRead_settles rep place bev c seg io with used | ⟨s',held,settles⟩
            · exact .inl used
            · exact .inr (.inr ⟨s',_,rfl,held,settles⟩)
  | event bev =>
      right
      dsimp only
      rw [rep.connections,rep.stopped]
      split
      · exact .inl ⟨rfl,fun fuel => rfl⟩
      · cases t.connections bev with
        | none => exact .inl ⟨rfl,fun fuel => rfl⟩
        | some c => exact .inr ⟨_,_,rfl,represents_hold rep bev none,.done _⟩

omit [DecidableEq β] in
theorem represents_start (head : A) : Represents head (State.start head : State A β) .start := by
  refine ⟨rfl,rfl,[],?_,rfl,?_⟩
  · exact Ring.single ⟨fun _ => none,fun _ => none⟩ head
  · intro a held
    cases held

-- Whatever blocks calloc gives, a run of the program is a run over the list.
theorem run_represents (path : Sequence (step head) s labels s') (rep : Represents head s t) :
    ∃ next, Sequence Server.step t (labels.map Label.action) next ∧ Represents head s' next := by
  induction path generalizing t with
  | nil => exact ⟨t,.nil,rep⟩
  | cons taken _ ih =>
      rename_i l _ _ _ _
      obtain ⟨⟨middle,writes⟩,ran,rfl⟩ := Option.map_eq_some_iff.mp taken
      rcases callback_settles rep l.place l.action with ⟨_,never⟩ | ⟨_,never⟩ | ⟨s',next,moved,held,settles⟩
      · cases (never l.fuel).symm.trans ran
      · cases (never l.fuel).symm.trans ran
      · cases settles.only l.fuel _ ran
        obtain ⟨final,path,reached⟩ := ih held
        exact ⟨final,.cons moved path,reached⟩

-- Two devices register, the second one above the first, and the second asks for the first.
def meetOnHeap : List (Label Nat Nat) :=
  [⟨.accept 1 ⟨0x0a000001,5152⟩ true true,1,0⟩,⟨Server.writtenBy 1 Framing.ping1111,1,3⟩,
    ⟨.accept 2 ⟨0x0a000002,5152⟩ true true,2,0⟩,⟨Server.writtenBy 2 Server.ping2222,2,4⟩,⟨Server.writtenBy 2 Server.query1111,3,4⟩]

end PersonalJournal.DeviceRing
