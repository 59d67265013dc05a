import PersonalJournal.Lib.LittleEndian
import PersonalJournal.Dns.Reply
import PersonalJournal.Dns.SingleServer

namespace PersonalJournal.Ipv4Lookup
open Bytes DomainName ResourceRecord LittleEndian ReadName NameWalk NameAllocation Query Nat64 AnswerWalk
open Answer hiding SocketIpinfo
open Reply hiding Reports Response addresses
open SingleServer (bufLen)

def A : Nat := 1

-- The flag ipv4 says which type is asked for and copied.
def wanted (ipv4 : Bool) : Nat := if ipv4 then A else AAAA

def asked (ipv4 : Bool) : List UInt8 := be16 (wanted ipv4) ++ be16 classIN

-- _hostname is a copy here: the caller's string gets no dot.
def changetoDnsNameFormat (buffer : List UInt8) (qname : Nat) (hostname : List UInt8) : Option (List UInt8) :=
  (Query.changetoDnsNameFormat buffer qname hostname).map Prod.fst

def prepareDnsQueryPacket (ipv4 : Bool) (pid : Nat) (buffer : List UInt8) (host : List UInt8) : Option (List UInt8) := do
  let buffer ← storeAll buffer 0 (queryHeader pid)
  let buffer ← changetoDnsNameFormat buffer headerSize host
  let length ← strlenAt buffer headerSize
  storeAll buffer (headerSize+(length+1)) (asked ipv4)

def readRecvAnswer (ipv4 : Bool) (alloc : Allocator) (fuel : Nat) (buffer : List UInt8) (left reader calls : Nat) :
    Except Stop (List ResRecord) := readAnswers (wanted ipv4) alloc fuel buffer left reader calls

-- socket_ipinfo_t, with the number s_addr for each struct in_addr.
structure SocketIpinfo where
  size : Int
  v6_addr : Vector In6Addr 20
  v4_addr : Vector UInt32 20

def SocketIpinfo.store (t : SocketIpinfo) (s_addr : UInt32) : Option SocketIpinfo :=
  (storeSlot t.v4_addr t.size s_addr).map (fun slots => {t with v4_addr := slots})

def SocketIpinfo.bump (t : SocketIpinfo) : SocketIpinfo := {t with size := t.size+1}

-- The loop over p. Only what it prints depends on p: each turn assigns `*answers[i].rdata`.
def copyV4 (rdata : Block) : Nat → SocketIpinfo → Option SocketIpinfo
  | 0,t => some t
  | p+1,t => do
    let t ← copyV4 rdata p t
    t.store (rdata 0).toUInt32

def SocketIpinfo.addV4 (t : SocketIpinfo) (rdata : Block) : Option SocketIpinfo := (copyV4 rdata 4 t).map SocketIpinfo.bump

-- The part of this table that the other lookups fill.
def SocketIpinfo.withV6 (t : SocketIpinfo) (v6 : Answer.SocketIpinfo) : SocketIpinfo := {t with size := v6.size,v6_addr := v6.v6_addr}

def SocketIpinfo.addV6 (t : SocketIpinfo) (rdata : Block) : Option SocketIpinfo :=
  (Answer.SocketIpinfo.add ⟨t.size,t.v6_addr⟩ rdata).map t.withV6

def SocketIpinfo.add (ipv4 : Bool) : SocketIpinfo → Block → Option SocketIpinfo :=
  if ipv4 then SocketIpinfo.addV4 else SocketIpinfo.addV6

-- What both lookups of the file do between socket() and close(): what they return, the table and
-- the packets sent.
def query (ipv4 : Bool) (env : Env) (pid fuel : Nat) (host : List UInt8) (t : SocketIpinfo) (timeout : Int) :
    Except Stop (Int × SocketIpinfo × List (List UInt8)) := do
  let sendBuf ← orFault (prepareDnsQueryPacket ipv4 pid (List.replicate bufLen 0) host)
  let packlen ← orFault (sendPacklen sendBuf)
  let (datagram,sent) := attempts env (effective timeout) (sendBuf.take packlen) 3 0
  let recvBuf := buffered bufLen datagram
  let count ← orFault (answerCount recvBuf)
  let answers ← readRecvAnswer ipv4 env.alloc fuel (recvBuf ++ env.behind) count packlen 0
  let t ← collectWith (wanted ipv4) (SocketIpinfo.add ipv4) (recvBuf ++ env.behind) answers count 0 {t with size := 0}
  return (if t.size ≤ 0 then -1 else 0,t,sent)

inductive Ended where
  -- exit(-1), when there is no socket
  | exited
  | returned (ret : Int) (ipinfo : Option SocketIpinfo) (sent : List (List UInt8))

-- _dnsserver only adds to dns_servers, which nothing reads.
def socketv4Gethostbyname (env : Env) (pid fuel : Nat) (host : Option (List UInt8)) (ipinfo : Option SocketIpinfo)
    (timeout : Int) : Except Stop Ended :=
  match host,ipinfo with
  | some name,some t =>
    if env.opens then do
      let (ret,t,sent) ← query true env pid fuel name t timeout
      return .returned ret (some t) sent
    else return .exited
  | _,_ => return .returned (-1) ipinfo []

-- struct in_addr in memory, on a little-endian host.
def memory (s_addr : UInt32) : List UInt8 := put 4 s_addr.toNat

theorem memory_octet (c : UInt8) : memory c.toUInt32 = [c,0,0,0] := by
  have octet := c.toNat_lt
  have high : c.toNat/256 = 0 := Nat.div_eq_of_lt octet
  simp [memory,put,high]

def SocketIpinfo.stored (t : SocketIpinfo) : List UInt32 := t.v4_addr.toList.take t.size.toNat

theorem store_again {t stored : SocketIpinfo} (kept : t.store v = some stored) : stored.store v = some stored := by
  obtain ⟨slots,set,rfl⟩ := Option.map_eq_some_iff.mp kept
  unfold storeSlot at set
  split at set
  · rename_i inside
    cases set
    rw [SocketIpinfo.store,storeSlot_room _ inside.1 inside.2,Vector.setIfInBounds_setIfInBounds]
    rfl
  · cases set

-- Four times the same store.
theorem copyV4_store {t stored : SocketIpinfo} (rdata : Block) (kept : t.store (rdata 0).toUInt32 = some stored) (p : Nat) :
    copyV4 rdata (p+1) t = some stored := by
  induction p with
  | zero => exact kept
  | succ p ih =>
      rw [copyV4,ih]
      exact store_again kept

theorem v4_fills : Fills (SocketIpinfo.add true) SocketIpinfo.size SocketIpinfo.stored (fun rdata => (rdata 0).toUInt32) := by
  refine ⟨fun t rdata low room => ?_⟩
  have set := storeSlot_room t.v4_addr low room (rdata 0).toUInt32
  have kept : t.store (rdata 0).toUInt32 = some {t with v4_addr := t.v4_addr.setIfInBounds t.size.toNat (rdata 0).toUInt32} := by
    rw [SocketIpinfo.store,set]
    rfl
  refine ⟨SocketIpinfo.bump {t with v4_addr := t.v4_addr.setIfInBounds t.size.toNat (rdata 0).toUInt32},?_,rfl,
    storeSlot_kept set⟩
  show t.addV4 rdata = _
  rw [SocketIpinfo.addV4,copyV4_store rdata kept 3]
  rfl

def packet (ipv4 : Bool) (pid : Nat) (labels : List Label) : List UInt8 := queryHeader pid ++ (wire labels ++ asked ipv4)

theorem asked_length (ipv4 : Bool) : (asked ipv4).length = questionSize := rfl

theorem packet_length (ipv4 : Bool) (pid : Nat) (labels : List Label) :
    (packet ipv4 pid labels).length = headerSize+(wire labels).length+questionSize := by
  rw [packet,List.length_append,List.length_append,asked_length,header_length,Nat.add_assoc]

-- The packet for a host, and the point in it that the reader starts from in the reply.
theorem prepared_packet (ipv4 : Bool) (host : HostName) (pid : Nat) :
    ∃ rest, prepareDnsQueryPacket ipv4 pid (List.replicate bufLen 0) host.text = some (packet ipv4 pid host.labels ++ rest) ∧
      sendPacklen (packet ipv4 pid host.labels ++ rest) = some (packet ipv4 pid host.labels).length := by
  have short := host.wire_length
  obtain ⟨headed,packed,header,name,length,stored⟩ := packed_labels pid (n:=bufLen) host.named host.dotFree (List.append_nil _).symm
    host.sized host.nulFree (by simp only [headerSize,questionSize,bufLen]; omega)
  refine ⟨([] ++ List.replicate (bufLen-headerSize-(wire host.labels).length) (0 : UInt8)).drop questionSize,?_,?_⟩
  · rw [HostName.text]
    simp only [prepareDnsQueryPacket,changetoDnsNameFormat,header,name,Option.map_some,length,Option.bind_eq_bind,Option.bind_some]
    exact stored (asked ipv4) rfl
  · have length := strlenAt_packet pid host.sized host.nulFree
    rw [packet_length]
    simp only [packet,List.append_assoc]
    simp only [sendPacklen,length,Option.bind_eq_bind,Option.bind_some,Option.pure_def,Option.some.injEq]
    simp [wire]

-- A call whose question is packed and whose reply is here: what is left is the parse.
theorem query_run (ipv4 : Bool) (host : HostName) (pid : Nat) (delivered : Delivers env (effective timeout) datagram)
    (reply : WellFormed bufLen (asked ipv4) means host records datagram) (fuel : Nat) (t : SocketIpinfo) :
    query ipv4 env pid fuel host.text t timeout = (do
      let answers ← readAnswers (wanted ipv4) env.alloc fuel (buffered bufLen (some datagram) ++ env.behind)
        (records.take socketMaxIpCount).length (answersAt host) 0
      let full ← collectWith (wanted ipv4) (SocketIpinfo.add ipv4) (buffered bufLen (some datagram) ++ env.behind) answers
        (records.take socketMaxIpCount).length 0 {t with size := 0}
      .ok (if full.size ≤ 0 then -1 else 0,full,(attempts env (effective timeout) (packet ipv4 pid host.labels) 3 0).2)) := by
  obtain ⟨rest,prepared,length⟩ := prepared_packet ipv4 host pid
  rw [packet_length] at length
  simp only [query,prepared,orFault_some,ok_bind,length,← packet_length ipv4 pid,List.take_left,delivered.heard,reply.count]
  simp only [packet_length,answersAt]
  rfl

-- A reply to a question about IPv4 addresses.
def Response (ok : List Label → Prop) : HostName → List Record → List UInt8 → Prop :=
  WellFormed bufLen (asked true) (Meaning A 4 [CNAME] ok)

-- RDATA of the A records among the first min(20,n).
def addresses (records : List Record) : List (List UInt8) :=
  ((records.take socketMaxIpCount).filter (fun r => r.type = A)).map (·.rdata)

-- The call ends with this many addresses, and with these octets in memory.
def Reports (env : Env) (pid : Nat) (host : List UInt8) (ipinfo : SocketIpinfo) (timeout : Int) (expected : List (List UInt8)) :
    Prop :=
  ∃ fuel, ∀ more, fuel ≤ more → ∃ ret full sent,
    socketv4Gethostbyname env pid more (some host) (some ipinfo) timeout = .ok (.returned ret (some full) sent) ∧
    full.size = expected.length ∧ ∀ k, k < expected.length → (full.v4_addr[k]?).map memory = expected[k]?

-- What v4_addr[k] holds when it has been given the first octet of RDATA.
def low (block : Block) : List UInt8 := [block 0,0,0,0]

-- No RDATA of TYPE A that the cursor comes by is refused a block, and the first octets of such
-- RDATA, with three zeros each, are what is expected.
def Recovers (alloc : Allocator) (behind : List UInt8) (host : HostName) (count : Nat) (datagram : List UInt8)
    (expected : List (List UInt8)) : Prop :=
  ∃ found, Finds A alloc (buffered bufLen (some datagram) ++ behind) count (answersAt host) 0 found ∧ found.map low = expected

theorem stored_octets {full : SocketIpinfo} (size : full.size = (found : List Block).length)
    (list : full.stored = found.map (fun block => (block 0).toUInt32)) (near : k < found.length) :
    (full.v4_addr[k]?).map memory = (found.map low)[k]? := by
  have slot : full.v4_addr[k]? = full.stored[k]? := by
    rw [SocketIpinfo.stored,size,Int.toNat_natCast,List.getElem?_take_of_lt near,Vector.getElem?_toList]
  rw [slot,list,List.getElem?_map,List.getElem?_map,Option.map_map]
  exact congrArg (Option.map · found[k]?) (funext fun block => memory_octet (block 0))

theorem stored_expected {full : SocketIpinfo} {expected : List (List UInt8)} (size : full.size = (found : List Block).length)
    (list : full.stored = found.map (fun block => (block 0).toUInt32)) :
    (full.size = expected.length ∧ ∀ k, k < expected.length → (full.v4_addr[k]?).map memory = expected[k]?) ↔
      found.map low = expected := by
  constructor
  · intro ⟨length,octets⟩
    have same : found.length = expected.length := by omega
    apply List.ext_getElem?
    intro k
    rcases Nat.lt_or_ge k found.length with near | far
    · rw [← stored_octets size list near]
      exact octets k (same ▸ near)
    · rw [List.getElem?_eq_none (by rw [List.length_map]; exact far),List.getElem?_eq_none (same ▸ far)]
  · rintro rfl
    rw [List.length_map]
    exact ⟨size,fun k near => stored_octets size list near⟩

theorem reports_recovers (host : HostName) (pid : Nat) (opens : env.opens = true)
    (delivered : Delivers env (effective timeout) datagram) (response : Response ok host records datagram)
    (ipinfo : SocketIpinfo) (expected : List (List UInt8)) :
    Reports env pid host.text ipinfo timeout expected ↔
      Recovers env.alloc env.behind host (records.take socketMaxIpCount).length datagram expected := by
  have ran := query_run true host pid delivered response
  have few : (records.take socketMaxIpCount).length ≤ socketMaxIpCount := List.length_take_le _ _
  constructor
  · intro ⟨fuel,reports⟩
    obtain ⟨ret,full,sent,returned,outcome⟩ := reports fuel (Nat.le_refl _)
    simp only [socketv4Gethostbyname,if_pos opens,ran fuel ipinfo] at returned
    obtain ⟨out,queried,returned⟩ := bind_ok.mp returned
    obtain ⟨answers,parsed,queried⟩ := bind_ok.mp queried
    obtain ⟨full',collected,queried⟩ := bind_ok.mp queried
    cases queried
    cases returned
    obtain ⟨found,finds,folded⟩ := (collected_found _ _ full').mp ⟨fuel,answers,parsed,collected⟩
    obtain ⟨again,folded',size,list⟩ := v4_fills.all found {ipinfo with size := 0} (Int.le_refl 0) (finds.room few)
    cases folded.symm.trans folded'
    rw [Int.zero_add] at size
    exact ⟨found,finds,(stored_expected size list).mp outcome⟩
  · intro ⟨found,finds,same⟩
    obtain ⟨full,folded,size,list⟩ := v4_fills.all found {ipinfo with size := 0} (Int.le_refl 0) (finds.room few)
    obtain ⟨fuel,answers,parsed,collected⟩ := (collected_found _ _ full).mpr ⟨found,finds,folded⟩
    rw [Int.zero_add] at size
    refine ⟨fuel,fun more enough => ⟨if full.size ≤ 0 then -1 else 0,full,
      (attempts env (effective timeout) (packet true pid host.labels) 3 0).2,?_,(stored_expected size list).mpr same⟩⟩
    have parsed : readAnswers (wanted true) env.alloc more _ _ _ 0 = .ok answers := readAnswers_mono parsed enough
    have collected : collectWith (wanted true) _ _ _ _ _ _ = .ok full := collected
    simp only [socketv4Gethostbyname,if_pos opens,ran more ipinfo,parsed,ok_bind,collected,pure_ok]

def first (data : List UInt8) : UInt8 := data.headD 0

theorem low_filled (content : Block) (data : List UInt8) : low (filled content data) = [first data,0,0,0] := by cases data <;> rfl

theorem v4_values : Values A 4 low (fun r => if r.type = A then some [first r.rdata,0,0,0] else none) := by
  refine ⟨fun r content type _ => ?_,fun r other => if_neg other⟩
  rw [if_pos type,low_filled]

theorem addresses_shown (records : List Record) :
    (records.take socketMaxIpCount).filterMap (fun r => if r.type = A then some [first r.rdata,0,0,0] else none) =
      (addresses records).map (fun data => [first data,0,0,0]) := by
  rw [addresses,List.map_map,← List.filterMap_eq_map,List.filterMap_filter]
  refine List.filterMap_congr (fun r _ => ?_)
  by_cases type : r.type = A
  · simp [type]
  · simp [type]

theorem plain_recovers (granted : Grants alloc) (response : Response PlainName host records datagram) (behind : List UInt8) :
    Recovers alloc behind host (records.take socketMaxIpCount).length datagram expected ↔
      (addresses records).map (fun data => [first data,0,0,0]) = expected := by
  obtain ⟨found,finds,same⟩ := reply_finds granted (by decide) v4_values response behind
  rw [addresses_shown] at same
  rw [← same]
  constructor
  · intro ⟨found',finds',expects⟩
    rwa [finds.unique finds']
  · exact fun expects => ⟨found,finds,expects⟩

theorem first_fixed (octets : List (List UInt8)) :
    octets.map (fun data => [first data,0,0,0]) = octets ↔ ∀ rdata ∈ octets, ∃ c, rdata = [c,0,0,0] := by
  constructor
  · intro same rdata member
    rw [← same] at member
    obtain ⟨data,_,rfl⟩ := List.mem_map.mp member
    exact ⟨_,rfl⟩
  · intro zeros
    refine (List.map_congr_left fun rdata member => ?_).trans (List.map_id _)
    obtain ⟨c,rfl⟩ := zeros rdata member
    rfl

-- Names may hold zero octets, and malloc and realloc may fail, in the first part only.
theorem v4_addresses_exact (host : HostName) (pid : Nat) (opens : env.opens = true)
    (delivered : Delivers env (effective timeout) datagram) (response : Response AsciiName host records datagram)
    (ipinfo : SocketIpinfo) :
    (Reports env pid host.text ipinfo timeout (addresses records) ↔
      Recovers env.alloc env.behind host (records.take socketMaxIpCount).length datagram (addresses records)) ∧
    (Grants env.alloc → Response PlainName host records datagram →
      (Reports env pid host.text ipinfo timeout (addresses records) ↔ ∀ rdata ∈ addresses records, ∃ c, rdata = [c,0,0,0])) := by
  have exact := reports_recovers host pid opens delivered response ipinfo (addresses records)
  exact ⟨exact,fun granted plain => exact.trans ((plain_recovers granted plain _).trans (first_fixed _))⟩

theorem Response.ascii (response : Response PlainName host records datagram) : Response AsciiName host records datagram :=
  WellFormed.imp (fun _ plain => plain.toAsciiName) response

-- One A record, under the name in the question.
def v4Reply (octets : List UInt8) : List UInt8 :=
  [0,0,129,128,0,1,0,1,0,0,0,0,1,97,0,0,1,0,1] ++ [192,12,0,1,0,1,0,0,0,0,0,4] ++ octets

def v4Record (octets : List UInt8) : Record := ⟨[[97]],A,1,0,octets⟩

def v4Env (octets : List UInt8) : Env := ⟨willing,[],true,fun _ => true,fun _ _ => some (v4Reply octets)⟩

def v4Table : SocketIpinfo := ⟨0,emptyTable.v6_addr,Vector.replicate 20 0⟩

theorem v4Reply_response (a b c d : UInt8) : Response PlainName hostA [v4Record [a,b,c,d]] (v4Reply [a,b,c,d]) := by
  have question : Encodes (v4Reply [a,b,c,d]) 12 [[97]] 3 :=
    .label (⟨by decide,by decide⟩ : Sized [97]) ⟨_,rfl⟩ (.root rfl)
  have plain : PlainName [[97]] := ⟨asciiName_short _ (by decide) rfl (by decide),by unfold NulFree; decide⟩
  have held : At (v4Reply [a,b,c,d]) (answersAt hostA+2) ((v4Record [a,b,c,d]).fixed ++ (v4Record [a,b,c,d]).rdata) := by
    refine ⟨[],?_⟩
    show _ = List.drop 21 _
    simp [v4Record,v4Reply,Record.fixed,be16,A]
  refine ⟨?_,rfl,⟨_,rfl⟩,35,?_⟩
  · rw [bufLen]
    exact (by decide : 35 ≤ 65536)
  · exact .cons (.pointer rfl (by decide) (show (v4Reply [a,b,c,d])[20]? = some 12 from rfl) question) (show 1 < 65536 by decide) (show 4 < 65536 by decide)
      held ⟨plain,.inl ⟨rfl,rfl⟩⟩ .nil

theorem v4Reply_delivered (octets : List UInt8) : Delivers (v4Env octets) (effective 3000) (v4Reply octets) :=
  ⟨0,by decide,fun _ _ => rfl,by simp,rfl⟩

theorem v4_addresses_exact_zeros :
    Reports (v4Env [10,0,0,0]) 1 hostA.text v4Table 3000 [[10,0,0,0]] := by
  have response := v4Reply_response 10 0 0 0
  have exact := v4_addresses_exact hostA 1 rfl (v4Reply_delivered [10,0,0,0]) response.ascii v4Table
  exact (exact.2 (fun _ => rfl) response).mpr (List.forall_mem_cons.mpr ⟨⟨10,rfl⟩,by simp⟩)

-- 1.2.3.4 is stored as 1.0.0.0.
theorem first_octet_only : Response AsciiName hostA [v4Record [1,2,3,4]] (v4Reply [1,2,3,4]) ∧
    addresses [v4Record [1,2,3,4]] = [[1,2,3,4]] ∧
    Reports (v4Env [1,2,3,4]) 1 hostA.text v4Table 3000 [[1,0,0,0]] ∧
    ¬ Reports (v4Env [1,2,3,4]) 1 hostA.text v4Table 3000 [[1,2,3,4]] := by
  have response := v4Reply_response 1 2 3 4
  have exact := reports_recovers hostA 1 rfl (v4Reply_delivered [1,2,3,4]) response v4Table
  have granted : Grants (v4Env [1,2,3,4]).alloc := fun _ => rfl
  refine ⟨response.ascii,rfl,?_,?_⟩
  · exact (exact _).mpr ((plain_recovers granted response _).mpr rfl)
  · intro reports
    have same := (plain_recovers granted response _).mp ((exact _).mp reports)
    exact absurd same (by decide)

end PersonalJournal.Ipv4Lookup
