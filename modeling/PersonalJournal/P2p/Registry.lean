import Mathlib.Data.List.Basic

namespace PersonalJournal.Registry

-- The cmd values of p2p_transfer.h, from 0 on.
inductive Cmd where
  | unknownCmd
  | ping
  | queryDeviceInfoRequest
  | queryDeviceInfoResponse
  | punchHole
  | close
  deriving DecidableEq

def p2pTransferMagic : UInt64 := 0xbeefdead1234

structure MsgPing where
  device_sn : UInt64
  network_type : Int32
  deriving DecidableEq

structure MsgDeviceInfo where
  device_sn : UInt64
  ip_addr : UInt32
  port : UInt16
  network_type : Int32
  deriving DecidableEq

-- calloc leaves every field zero.
def MsgDeviceInfo.zero : MsgDeviceInfo := ⟨0,0,0,0⟩

structure MsgHead where
  magic : UInt64
  msgid : UInt64
  src_device_sn : UInt64
  dst_device_sn : UInt64
  cmd_len : UInt32
  cmd : Cmd
  deriving DecidableEq

-- cmd_data, read as what cmd announces.
inductive CmdData where
  | ping (data : MsgPing)
  | deviceInfo (data : MsgDeviceInfo)
  deriving DecidableEq

structure Msg where
  head : MsgHead
  data : CmdData
  deriving DecidableEq

def sizeofMsgPing : UInt32 := 16
def sizeofMsgDeviceInfo : UInt32 := 24

structure SockaddrIn where
  sin_addr : UInt32
  sin_port : UInt16
  deriving DecidableEq

-- struct p2p_server_device_info_t without its list links. Connections are of any
-- type, one value for each bufferevent.
structure ServerDeviceInfo (β : Type) where
  pbev : β
  device_sn : UInt64
  ip_addr : UInt32
  port : UInt16
  network_type : Int32
  deriving DecidableEq

def ServerDeviceInfo.info (e : ServerDeviceInfo β) : MsgDeviceInfo := ⟨e.device_sn,e.ip_addr,e.port,e.network_type⟩

-- A message that tells of this entry, field by field.
structure Copies (m : MsgDeviceInfo) (e : ServerDeviceInfo β) : Prop where
  device_sn : m.device_sn = e.device_sn
  ip_addr : m.ip_addr = e.ip_addr
  port : m.port = e.port
  network_type : m.network_type = e.network_type

-- What calloc and bufferevent_write answer in one handler.
structure Io where
  entry : Bool
  response : Bool
  source : Bool
  punch : Bool
  writePunch : Bool
  writeResponse : Bool
  deriving DecidableEq

def Io.good : Io := ⟨true,true,true,true,true,true⟩

-- s_pall_device_info, newest entry first, since list_add puts an entry behind the
-- head of the list.
abbrev DeviceList (β : Type) := List (ServerDeviceInfo β)

def processPingCmd (io : Io) (all : DeviceList β) (pbev : β) (ping : MsgPing) (client : SockaddrIn) :
    Int × DeviceList β :=
  if io.entry then (0,⟨pbev,ping.device_sn,client.sin_addr,client.sin_port,ping.network_type⟩ :: all)
  else (-1,all)

-- A handler writes messages and returns, or an assertion stops the server.
inductive Outcome (β : Type) where
  | aborted
  | returned (ret : Int) (writes : List (β × Msg))
  deriving DecidableEq

def reply (cmd : Cmd) (info : MsgDeviceInfo) : Msg :=
  ⟨⟨p2pTransferMagic,0,0,0,sizeofMsgDeviceInfo,cmd⟩,.deviceInfo info⟩

def sendPunchHoleCmdToPeer (io : Io) (pdst : Option β) (src : MsgDeviceInfo) : Outcome β :=
  match pdst with
  | none => .aborted
  | some pbev =>
      if io.punch && io.writePunch then .returned 0 [(pbev,reply .punchHole src)] else .returned (-1) []

structure Scan (β : Type) where
  cmd : Cmd
  query : MsgDeviceInfo
  src : MsgDeviceInfo
  pdst : Option β
  num : Nat

def Scan.start : Scan β := ⟨.unknownCmd,.zero,.zero,none,0⟩

def Scan.visit (src query : UInt64) (s : Scan β) (e : ServerDeviceInfo β) : Scan β :=
  let s := if e.device_sn = query then
    {s with cmd := .queryDeviceInfoResponse,query := e.info,pdst := some e.pbev,num := s.num+1} else s
  if e.device_sn = src then {s with src := e.info,num := s.num+1} else s

def Scan.run (src query : UInt64) : Scan β → DeviceList β → Scan β
  | s,[] => s
  | s,e :: rest => if (s.visit src query e).num = 2 then s.visit src query e else run src query (s.visit src query e) rest

def processQueryDeviceInfoCmd (io : Io) (all : DeviceList β) (pbev : β) (src query : UInt64) : Outcome β :=
  if io.response && io.source then
    let s := Scan.start.run src query all
    match sendPunchHoleCmdToPeer io s.pdst s.src with
    | .aborted => .aborted
    | .returned ret writes =>
        if ret = -1 then .returned (-1) writes
        else if io.writeResponse then
          .returned (if s.pdst.isNone then -1 else 0) (writes ++ [(pbev,reply s.cmd s.query)])
        else .returned (-1) writes
  else .returned (-1) []

-- A PING with its connection and the address under which that was accepted.
structure Arrival (β : Type) where
  pbev : β
  ping : MsgPing
  client : SockaddrIn
  deriving DecidableEq

def Arrival.entry (a : Arrival β) : ServerDeviceInfo β :=
  ⟨a.pbev,a.ping.device_sn,a.client.sin_addr,a.client.sin_port,a.ping.network_type⟩

-- From a history of PINGs, oldest first.
def registered (history : List (Arrival β)) : DeviceList β :=
  history.foldl (fun all a => (processPingCmd .good all a.pbev a.ping a.client).2) []

def latest (sn : UInt64) (history : List (Arrival β)) : Option (Arrival β) :=
  history.reverse.find? (fun a => a.ping.device_sn = sn)

def about (src query sn : UInt64) : Bool := sn = src || sn = query

-- The PINGs of the two devices, most recent first.
def recent (src query : UInt64) (history : List (Arrival β)) : List (Arrival β) :=
  history.reverse.filter (fun a => about src query a.ping.device_sn)

def Carries (m : Msg) (a : Arrival β) : Prop :=
  ∃ info, m.data = .deviceInfo info ∧ info.ip_addr = a.client.sin_addr ∧ info.port = a.client.sin_port ∧
    info.network_type = a.ping.network_type

-- The requester is told where the device is now, and the device where the
-- requester is.
def Current (history : List (Arrival β)) (pbev : β) (src query : UInt64) (outcome : Outcome β) : Prop :=
  ∃ a b punch response, latest query history = some a ∧ latest src history = some b ∧
    outcome = .returned 0 [(a.pbev,punch),(pbev,response)] ∧
    response.head.cmd = .queryDeviceInfoResponse ∧ Carries response a ∧
    punch.head.cmd = .punchHole ∧ Carries punch b

variable {β : Type} {history : List (Arrival β)} {a b : Arrival β} {src query sn : UInt64}
  {io : Io} {e : ServerDeviceInfo β} {all : DeviceList β} {pbev : β} {writes : List (β × Msg)}

theorem info_copies (e : ServerDeviceInfo β) : Copies e.info e := ⟨rfl,rfl,rfl,rfl⟩

@[simp] theorem info_ip_addr (e : ServerDeviceInfo β) : e.info.ip_addr = e.ip_addr := (info_copies e).ip_addr

@[simp] theorem info_port (e : ServerDeviceInfo β) : e.info.port = e.port := (info_copies e).port

@[simp] theorem info_network_type (e : ServerDeviceInfo β) : e.info.network_type = e.network_type := (info_copies e).network_type

theorem foldl_registered (history : List (Arrival β)) (all : DeviceList β) :
    history.foldl (fun all a => (processPingCmd .good all a.pbev a.ping a.client).2) all =
      (history.map Arrival.entry).reverse ++ all := by
  induction history generalizing all with
  | nil => rfl
  | cons a rest ih =>
      rw [List.foldl_cons,ih]
      simp [processPingCmd,Io.good,Arrival.entry]

theorem registered_exact (history : List (Arrival β)) :
    registered history = history.reverse.map Arrival.entry := by
  rw [registered,foldl_registered,List.append_nil,List.map_reverse]

theorem visit_src (s : Scan β) (apart : src ≠ query) (own : e.device_sn = src) :
    s.visit src query e = {s with src := e.info,num := s.num+1} := by
  simp [Scan.visit,own,apart]

theorem visit_query (s : Scan β) (apart : src ≠ query) (asked : e.device_sn = query) :
    s.visit src query e =
      {s with cmd := .queryDeviceInfoResponse,query := e.info,pdst := some e.pbev,num := s.num+1} := by
  simp [Scan.visit,asked,apart.symm]

-- Entries of other devices leave the loop as it is.
theorem run_relevant (s : Scan β) (open' : s.num ≠ 2) (all : DeviceList β) :
    s.run src query all = s.run src query (all.filter (fun e => about src query e.device_sn)) := by
  induction all generalizing s with
  | nil => rfl
  | cons e rest ih =>
      by_cases relevant : about src query e.device_sn = true
      · simp only [List.filter_cons,relevant,if_true,Scan.run]
        by_cases done : (s.visit src query e).num = 2
        · rw [if_pos done,if_pos done]
        · rw [if_neg done,if_neg done]
          exact ih _ done
      · simp only [List.filter_cons,relevant,Scan.run]
        have skipped : s.visit src query e = s := by
          simp only [about,Bool.or_eq_true,decide_eq_true_eq,not_or] at relevant
          simp [Scan.visit,relevant]
        rw [skipped,if_neg open']
        exact ih s open'

theorem run_registered (history : List (Arrival β)) :
    Scan.start.run src query (registered history) =
      Scan.start.run src query ((recent src query history).map Arrival.entry) := by
  rw [run_relevant .start (by simp [Scan.start]),registered_exact,List.filter_map]
  rfl

theorem latest_recent (history : List (Arrival β)) (either : sn = src ∨ sn = query) :
    latest sn history = (recent src query history).find? (fun a => a.ping.device_sn = sn) := by
  unfold latest recent
  rw [List.find?_filter]
  congr 1
  funext a
  rcases either with rfl | rfl
  · by_cases same : a.ping.device_sn = sn <;> simp [about,same]
  · by_cases same : a.ping.device_sn = sn <;> simp [about,same]

def answer (pbev : β) (s : Scan β) : Outcome β := match s.pdst with
  | none => .aborted
  | some pdst => .returned 0 [(pdst,reply .punchHole s.src),(pbev,reply s.cmd s.query)]

theorem process_answer (all : DeviceList β) (pbev : β) (src query : UInt64) :
    processQueryDeviceInfoCmd .good all pbev src query = answer pbev (Scan.start.run src query all) := by
  unfold processQueryDeviceInfoCmd answer sendPunchHoleCmdToPeer
  cases found : (Scan.start.run src query all).pdst with
  | none => simp [Io.good,found]
  | some pdst => simp [Io.good,found]

-- Whatever calloc and bufferevent_write answer, the writes are the loop's, cut short.
theorem process_writes (ran : processQueryDeviceInfoCmd io all pbev src query = .returned ret writes) :
    writes = [] ∨ ∃ pdst, (Scan.start.run src query all).pdst = some pdst ∧
      (writes = [(pdst,reply .punchHole (Scan.start.run src query all).src)] ∨
        writes = [(pdst,reply .punchHole (Scan.start.run src query all).src),
          (pbev,reply (Scan.start.run src query all).cmd (Scan.start.run src query all).query)]) := by
  unfold processQueryDeviceInfoCmd at ran
  split at ran
  · cases found : (Scan.start.run src query all).pdst with
    | none => simp [sendPunchHoleCmdToPeer,found] at ran
    | some pdst =>
        by_cases punched : (io.punch && io.writePunch) = true
        · right
          refine ⟨pdst,rfl,?_⟩
          cases written : io.writeResponse
          · left
            simp [sendPunchHoleCmdToPeer,found,punched,written] at ran
            exact ran.2.symm
          · right
            simp [sendPunchHoleCmdToPeer,found,punched,written] at ran
            exact ran.2.symm
        · left
          simp [sendPunchHoleCmdToPeer,found,punched] at ran
          exact ran.2
  · cases ran
    exact .inl rfl

theorem run_unknown (s : Scan β) (all : DeviceList β) (unknown : ∀ e ∈ all, e.device_sn ≠ query) :
    (s.run src query all).pdst = s.pdst := by
  induction all generalizing s with
  | nil => rfl
  | cons e rest ih =>
      obtain ⟨other,later⟩ := List.forall_mem_cons.mp unknown
      have kept : (s.visit src query e).pdst = s.pdst := by
        simp only [Scan.visit,if_neg other]
        split
        · rfl
        · rfl
      rw [Scan.run]
      split
      · exact kept
      · exact (ih _ later).trans kept

-- A device that asks for itself: the first entry counts twice.
theorem run_self (e : ServerDeviceInfo β) (rest : DeviceList β) (same : e.device_sn = sn) :
    Scan.start.run sn sn (e :: rest) = ⟨.queryDeviceInfoResponse,e.info,e.info,some e.pbev,2⟩ := by
  simp [Scan.run,Scan.visit,Scan.start,same]

theorem run_pair (e f : ServerDeviceInfo β) (rest : DeviceList β) (apart : src ≠ query)
    (first : e.device_sn = src ∨ e.device_sn = query) (second : f.device_sn = src ∨ f.device_sn = query) :
    Scan.start.run src query (e :: f :: rest) = (Scan.start.visit src query e).visit src query f := by
  have count : ∀ (s : Scan β) (g : ServerDeviceInfo β), g.device_sn = src ∨ g.device_sn = query →
      (s.visit src query g).num = s.num+1 := by
    intro s g either
    rcases either with own | asked
    · rw [visit_src s apart own]
    · rw [visit_query s apart asked]
  have one := count .start e first
  have two := count (Scan.start.visit src query e) f second
  rw [Scan.run,if_neg (by rw [one]; simp [Scan.start]),Scan.run,if_pos (by rw [two,one]; rfl)]

theorem recent_about (member : a ∈ recent src query history) :
    a.ping.device_sn = src ∨ a.ping.device_sn = query := by
  have either := (List.mem_filter.mp member).2
  simpa [about] using either

theorem mem_recent (src query : UInt64) (member : a ∈ history)
    (either : a.ping.device_sn = src ∨ a.ping.device_sn = query) :
    a ∈ recent src query history := by
  apply List.mem_filter.mpr
  exact ⟨List.mem_reverse.mpr member,by simpa [about] using either⟩

theorem recent_pair (apart : src ≠ query) (asks : ∃ a ∈ history, a.ping.device_sn = src)
    (known : ∃ a ∈ history, a.ping.device_sn = query) : ∃ a b rest, recent src query history = a :: b :: rest := by
  obtain ⟨a,asked,isSrc⟩ := asks
  obtain ⟨b,held,isQuery⟩ := known
  have one := mem_recent src query asked (.inl isSrc)
  have two := mem_recent src query held (.inr isQuery)
  cases shape : recent src query history with
  | nil => rw [shape] at one; cases one
  | cons c rest =>
      cases rest with
      | nil =>
          rw [shape,List.mem_singleton] at one two
          exact absurd (isSrc.symm.trans ((congrArg (·.ping.device_sn) (one.trans two.symm)).trans isQuery)) apart
      | cons d rest => exact ⟨c,d,rest,rfl⟩

def Alike (a b : Arrival β) : Prop :=
  a.pbev = b.pbev ∧ a.client = b.client ∧ a.ping.network_type = b.ping.network_type

-- An endpoint that looks like memory fresh from calloc.
def Blank (a : Arrival β) : Prop := a.client = ⟨0,0⟩ ∧ a.ping.network_type = 0

-- The two most recent PINGs of the two devices are one of each. Otherwise the
-- answer can only be right by coincidence.
def Alternating (history : List (Arrival β)) (src query : UInt64) : Prop :=
  src = query ∨ ∃ a b rest, recent src query history = a :: b :: rest ∧
    (a.ping.device_sn ≠ b.ping.device_sn ∨
      a.ping.device_sn = query ∧ Alike b a ∧ ∃ c, latest src history = some c ∧ Blank c)

theorem carries_entry (cmd : Cmd) (a b : Arrival β) :
    Carries (reply cmd a.entry.info) b ↔ a.client = b.client ∧ a.ping.network_type = b.ping.network_type := by
  constructor
  · intro ⟨info,data,ip,port,type⟩
    cases data
    exact ⟨by cases hc : a.client; cases hd : b.client; simp_all [Arrival.entry],type⟩
  · intro ⟨client,type⟩
    exact ⟨_,rfl,by rw [← client]; rfl,by rw [← client]; rfl,type⟩

theorem carries_zero (cmd : Cmd) (a : Arrival β) : Carries (reply cmd .zero) a ↔ Blank a := by
  constructor
  · intro ⟨info,data,ip,port,type⟩
    cases data
    refine ⟨?_,type.symm⟩
    cases client : a.client
    rw [client] at ip port
    cases ip
    cases port
    rfl
  · intro ⟨client,type⟩
    exact ⟨_,rfl,by rw [client]; rfl,by rw [client]; rfl,type.symm⟩

theorem latest_first (shape : recent src query history = a :: rest) (same : a.ping.device_sn = sn)
    (either : sn = src ∨ sn = query) : latest sn history = some a := by
  rw [latest_recent history either,shape]
  simp [same]

theorem latest_second (shape : recent src query history = a :: b :: rest) (other : a.ping.device_sn ≠ sn)
    (same : b.ping.device_sn = sn) (either : sn = src ∨ sn = query) : latest sn history = some b := by
  rw [latest_recent history either,shape]
  simp [other,same]

theorem current_alternating (pbev : β) (asked : latest src history = some b) (found : latest query history = some a) :
    Current history pbev src query
      (.returned 0 [(a.pbev,reply .punchHole b.entry.info),(pbev,reply .queryDeviceInfoResponse a.entry.info)]) :=
  ⟨a,b,_,_,found,asked,rfl,rfl,(carries_entry _ _ _).mpr ⟨rfl,rfl⟩,rfl,(carries_entry _ _ _).mpr ⟨rfl,rfl⟩⟩

-- An older entry has overwritten the newest one of the device asked for.
theorem current_overwritten (pbev : β) (found : latest query history = some a) :
    Current history pbev src query
      (.returned 0 [(b.pbev,reply .punchHole .zero),(pbev,reply .queryDeviceInfoResponse b.entry.info)]) ↔
      Alike b a ∧ ∃ c, latest src history = some c ∧ Blank c := by
  constructor
  · intro ⟨a',c,punch,response,found',asked,outcome,_,carried,_,carried'⟩
    cases found.symm.trans found'
    simp only [Outcome.returned.injEq,List.cons.injEq,Prod.mk.injEq] at outcome
    obtain ⟨_,⟨place,rfl⟩,⟨_,rfl⟩,_⟩ := outcome
    obtain ⟨client,type⟩ := (carries_entry _ _ _).mp carried
    exact ⟨⟨place,client,type⟩,c,asked,(carries_zero _ _).mp carried'⟩
  · intro ⟨⟨place,client,type⟩,c,asked,blank⟩
    refine ⟨a,c,_,_,found,asked,by rw [place],rfl,?_,rfl,?_⟩
    · exact (carries_entry _ _ _).mpr ⟨client,type⟩
    · exact (carries_zero _ _).mpr blank

theorem lookup_after_src (pbev : β) (apart : src ≠ query) (shape : recent src query history = a :: b :: rest)
    (isSrc : a.ping.device_sn = src) :
    Current history pbev src query (answer pbev ((Scan.start.visit src query a.entry).visit src query b.entry)) ↔
      a.ping.device_sn ≠ b.ping.device_sn := by
  have second := recent_about (shape ▸ List.mem_cons_of_mem _ List.mem_cons_self : b ∈ recent src query history)
  rcases second with again | other
  -- Nothing of the device asked for was met, and pdst is still NULL.
  · have unset : answer pbev ((Scan.start.visit src query a.entry).visit src query b.entry) = .aborted := by
      rw [visit_src (e:=a.entry) _ apart isSrc,visit_src (e:=b.entry) _ apart again]
      rfl
    rw [unset]
    constructor
    · intro ⟨_,_,_,_,_,_,returned,_⟩
      cases returned
    · intro differ
      exact absurd (isSrc.trans again.symm) differ
  · have both : answer pbev ((Scan.start.visit src query a.entry).visit src query b.entry) =
        .returned 0 [(b.pbev,reply .punchHole a.entry.info),(pbev,reply .queryDeviceInfoResponse b.entry.info)] := by
      rw [visit_src (e:=a.entry) _ apart isSrc,visit_query (e:=b.entry) _ apart other]
      rfl
    have differ : a.ping.device_sn ≠ b.ping.device_sn := by
      rw [isSrc,other]
      exact apart
    have asked := latest_first shape isSrc (.inl rfl)
    have found := latest_second shape (isSrc ▸ apart) other (.inr rfl)
    rw [both]
    exact ⟨fun _ => differ,fun _ => current_alternating pbev asked found⟩

theorem lookup_after_query (pbev : β) (apart : src ≠ query) (shape : recent src query history = a :: b :: rest)
    (isQuery : a.ping.device_sn = query) :
    Current history pbev src query (answer pbev ((Scan.start.visit src query a.entry).visit src query b.entry)) ↔
      a.ping.device_sn ≠ b.ping.device_sn ∨ Alike b a ∧ ∃ c, latest src history = some c ∧ Blank c := by
  have second := recent_about (shape ▸ List.mem_cons_of_mem _ List.mem_cons_self : b ∈ recent src query history)
  have found := latest_first shape isQuery (.inr rfl)
  rcases second with other | again
  · have both : answer pbev ((Scan.start.visit src query a.entry).visit src query b.entry) =
        .returned 0 [(a.pbev,reply .punchHole b.entry.info),(pbev,reply .queryDeviceInfoResponse a.entry.info)] := by
      rw [visit_query (e:=a.entry) _ apart isQuery,visit_src (e:=b.entry) _ apart other]
      rfl
    have differ : a.ping.device_sn ≠ b.ping.device_sn := by
      rw [isQuery,other]
      exact apart.symm
    have asked := latest_second shape (isQuery ▸ apart.symm) other (.inl rfl)
    rw [both]
    exact ⟨fun _ => .inl differ,fun _ => current_alternating pbev asked found⟩
  -- num reaches two before any entry of the requester.
  · have twice : answer pbev ((Scan.start.visit src query a.entry).visit src query b.entry) =
        .returned 0 [(b.pbev,reply .punchHole .zero),(pbev,reply .queryDeviceInfoResponse b.entry.info)] := by
      rw [visit_query (e:=a.entry) _ apart isQuery,visit_query (e:=b.entry) _ apart again]
      rfl
    rw [twice,current_overwritten pbev found]
    constructor
    · exact .inr
    · intro right
      rcases right with differ | same
      · exact absurd (isQuery.trans again.symm) differ
      · exact same

theorem alternating_pair (apart : src ≠ query) (shape : recent src query history = a :: b :: rest) :
    Alternating history src query ↔ a.ping.device_sn ≠ b.ping.device_sn ∨
      a.ping.device_sn = query ∧ Alike b a ∧ ∃ c, latest src history = some c ∧ Blank c := by
  constructor
  · intro alternating
    rcases alternating with same | ⟨a',b',rest',shape',right⟩
    · exact absurd same apart
    · cases shape.symm.trans shape'
      exact right
  · intro right
    exact .inr ⟨a,b,rest,shape,right⟩

theorem lookup_self (pbev : β) (asks : ∃ a ∈ history, a.ping.device_sn = sn) :
    Current history pbev sn sn (answer pbev (Scan.start.run sn sn ((recent sn sn history).map Arrival.entry))) := by
  obtain ⟨a,member,same⟩ := asks
  have held := mem_recent sn sn member (.inl same)
  cases shape : recent sn sn history with
  | nil =>
      rw [shape] at held
      cases held
  | cons a rest =>
      have own := recent_about (shape ▸ List.mem_cons_self : a ∈ recent sn sn history)
      rw [or_self] at own
      have newest := latest_first shape own (.inl rfl)
      rw [List.map_cons,run_self _ _ own]
      exact current_alternating pbev newest newest

theorem lookup_current (asks : ∃ a ∈ history, a.ping.device_sn = src) (known : ∃ a ∈ history, a.ping.device_sn = query)
    (pbev : β) :
    Current history pbev src query (processQueryDeviceInfoCmd .good (registered history) pbev src query) ↔
      Alternating history src query := by
  rw [process_answer,run_registered]
  by_cases self : src = query
  · subst self
    exact ⟨fun _ => .inl rfl,fun _ => lookup_self pbev asks⟩
  · obtain ⟨a,b,rest,shape⟩ := recent_pair self asks known
    have first := recent_about (shape ▸ List.mem_cons_self : a ∈ recent src query history)
    have second := recent_about (shape ▸ List.mem_cons_of_mem _ List.mem_cons_self : b ∈ recent src query history)
    rw [shape,List.map_cons,List.map_cons,run_pair _ _ _ self first second,alternating_pair self shape]
    rcases first with isSrc | isQuery
    · rw [lookup_after_src pbev self shape isSrc]
      constructor
      · exact .inl
      · intro right
        rcases right with differ | ⟨isQuery,_⟩
        · exact differ
        · exact absurd (isSrc.symm.trans isQuery) self
    · rw [lookup_after_query pbev self shape isQuery]
      simp only [isQuery,true_and]

def device1111 : Arrival Nat := ⟨1,⟨1111,4⟩,⟨0x0a000001,5152⟩⟩
def device2222 : Arrival Nat := ⟨2,⟨2222,4⟩,⟨0x0a000002,5152⟩⟩

def restarted2222 : Arrival Nat := ⟨3,⟨2222,4⟩,⟨0x0a000002,6000⟩⟩

theorem lookup_current_once :
    Current [device2222,device1111] 1 1111 2222
      (processQueryDeviceInfoCmd .good (registered [device2222,device1111]) 1 1111 2222) := by
  have asks : device1111 ∈ [device2222,device1111] := List.mem_cons_of_mem _ (List.mem_singleton_self _)
  have known : device2222 ∈ [device2222,device1111] := List.mem_cons_self
  apply (lookup_current ⟨_,asks,rfl⟩ ⟨_,known,rfl⟩ 1).mpr
  exact .inr ⟨device1111,device2222,[],rfl,.inl (by decide)⟩

-- The requester gets the port from before the restart.
theorem restart_stale :
    processQueryDeviceInfoCmd .good (registered [device1111,device2222,restarted2222]) 1 1111 2222 =
        .returned 0 [(2,reply .punchHole .zero),(1,reply .queryDeviceInfoResponse device2222.entry.info)] ∧
      ¬ Current [device1111,device2222,restarted2222] 1 1111 2222
        (processQueryDeviceInfoCmd .good (registered [device1111,device2222,restarted2222]) 1 1111 2222) := by
  have stale : processQueryDeviceInfoCmd .good (registered [device1111,device2222,restarted2222]) 1 1111 2222 =
      .returned 0 [(2,reply .punchHole .zero),(1,reply .queryDeviceInfoResponse device2222.entry.info)] := by decide
  refine ⟨stale,?_⟩
  rw [stale]
  intro current
  have newest : latest 2222 [device1111,device2222,restarted2222] = some restarted2222 := by decide
  obtain ⟨⟨place,_⟩,_⟩ := (current_overwritten (b:=device2222) 1 newest).mp current
  exact absurd place (by decide)

end PersonalJournal.Registry
