import PersonalJournal.Dns.Answer

namespace PersonalJournal.Getaddrinfo
open Bytes DomainName ReadName Query Nat64 Answer

-- What the C library answers: inet_pton for AF_INET, and getaddrinfo with the hints of
-- getaddrinfo_api. `none` is an error; a result that is not AF_INET6 has no In6Addr.
structure Platform where
  inet_pton : List UInt8 → Option InAddr
  getaddrinfo : List UInt8 → Option (List (Option In6Addr))

-- The result of th_gethostbyname, and what its workers have left in the table and the host buffer.
structure Resolved where
  ret : Int
  ipinfo : SocketIpinfo
  host : List UInt8

-- `asked` are the names handed to the system's own resolver.
structure Outcome where
  ret : Int
  ipinfo : Option SocketIpinfo
  asked : List (List UInt8)

def hostSize : Nat := 64

-- strncpy with the length of the source into a zeroed array: a string needs its last octet.
def copyHost (name : List UInt8) : Except Stop (List UInt8) :=
  if name.length < hostSize then .ok name else .error .fault

-- memcpy of 12 octets, not 16, to v6_addr[size].
def copyFront (t : SocketIpinfo) (a : In6Addr) : Option SocketIpinfo := do
  let old ← t.v6_addr[t.size.toNat]?
  t.store (memcpy old 0 (a.s6_addr.take 12) (by rw [List.length_take]; omega))

def getaddrinfoApi (platform : Platform) (host : List UInt8) (t : SocketIpinfo) : Except Stop (Int × SocketIpinfo) :=
  match platform.getaddrinfo host with
  | none => .ok (-1,t)
  | some results =>
    match results.findSome? id with
    | none => .ok (-1,t)
    | some a => do
      let t ← orFault (copyFront t a)
      return (0,t.bump)

def getaddrinfoV6 (platform : Platform) (thGethostbyname : List UInt8 → SocketIpinfo → Int → Except Stop Resolved)
    (host : Option (List UInt8)) (ipinfo : Option SocketIpinfo) (timeout : Int) : Except Stop Outcome :=
  match host,ipinfo with
  | none,_ => .ok ⟨-1,ipinfo,[]⟩
  | some _,none => .ok ⟨-1,none,[]⟩
  | some name,some t => do
    let host ← copyHost name
    let t := {t with size := 0}
    match platform.inet_pton host with
    | some v4 => do
      let found ← thGethostbyname ipv4only.text t timeout
      if found.ret ≠ 0 then return ⟨-1,some found.ipinfo,[]⟩
      else
        let t := {found.ipinfo with size := 1}
        if isNat64AddrValid t.v6_addr[0] then
          return ⟨0,some {t with v6_addr := t.v6_addr.set 0 (replaceNat64WithV4IP t.v6_addr[0] v4)},[]⟩
        else return ⟨-1,some t,[]⟩
    | none => do
      let found ← thGethostbyname host t timeout
      if found.ret = -1 then do
        let (ret,t) ← getaddrinfoApi platform found.host found.ipinfo
        return ⟨ret,some t,[found.host]⟩
      else return ⟨found.ret,some found.ipinfo,[]⟩

-- A literal host, and the first answer for ipv4only.arpa no address of the NAT64 service:
-- nothing is returned.
def RejectsUnrelated (a : In6Addr) : Prop :=
  ∀ platform thGethostbyname host t timeout v4 found outcome, platform.inet_pton host = some v4 →
    thGethostbyname ipv4only.text {t with size := 0} timeout = .ok found → found.ret = 0 →
    found.ipinfo.v6_addr[0] = a → ¬ Embedded a →
    getaddrinfoV6 platform thGethostbyname (some host) (some t) timeout = .ok outcome → outcome.ret = -1

-- With a literal host and any first answer at all, the address is synthesised from it.
theorem literal_synthesised (short : host.length < hostSize) (literal : platform.inet_pton host = some v4)
    (ran : thGethostbyname ipv4only.text {t with size := 0} timeout = .ok found) (success : found.ret = 0) :
    getaddrinfoV6 platform thGethostbyname (some host) (some t) timeout =
      .ok ⟨0,some ⟨1,found.ipinfo.v6_addr.set 0 (replaceNat64WithV4IP found.ipinfo.v6_addr[0] v4)⟩,[]⟩ := by
  simp only [getaddrinfoV6,copyHost,if_pos short,ok_bind,literal,ran,success,isNat64AddrValid]
  rfl

-- inet_pton for four decimal octets between dots.
def digitsValue (digits : List UInt8) : Nat := digits.foldl (fun n c => n*10+(c.toNat-48)) 0

def decimalOctet (digits : List UInt8) : Option UInt8 :=
  if digits ≠ [] ∧ digits.all (fun c => 48 ≤ c && c ≤ 57) ∧ (digits.length = 1 ∨ digits.head? ≠ some 48) ∧
      digitsValue digits ≤ 255 then some (UInt8.ofNat (digitsValue digits)) else none

def dottedQuad (text : List UInt8) : Option InAddr :=
  match (text.splitOn dot).map decimalOctet with
  | [some a,some b,some c,some d] => some ⟨[a,b,c,d],rfl⟩
  | _ => none

-- A system without a resolver of its own, and servers that all answer with this address.
def literalsOnly : Platform := ⟨dottedQuad,fun _ => none⟩

def answering (a : In6Addr) (host : List UInt8) (t : SocketIpinfo) (_timeout : Int) : Except Stop Resolved :=
  .ok ⟨0,⟨1,t.v6_addr.set 0 a⟩,host⟩

-- "1.2.3.4"
def literalHost : List UInt8 := [49,46,50,46,51,46,52]

theorem dottedQuad_literal : dottedQuad literalHost = some ⟨[1,2,3,4],rfl⟩ := by decide

theorem rejects_iff (a : In6Addr) : RejectsUnrelated a ↔ Embedded a := by
  constructor
  · intro rejects
    by_contra unrelated
    have returned : getaddrinfoV6 literalsOnly (answering a) (some literalHost) (some emptyTable) 0 = _ :=
      literal_synthesised (by decide) dottedQuad_literal rfl rfl
    have refused := rejects literalsOnly (answering a) literalHost emptyTable 0 _ _ _ dottedQuad_literal rfl rfl
      (Vector.getElem_set_self ..) unrelated returned
    exact absurd refused (show ¬ (0 : Int) = -1 by decide)
  · intro embedded platform thGethostbyname host t timeout v4 found outcome _ _ _ _ unrelated
    exact absurd embedded unrelated

theorem prefix_check_exact (a : In6Addr) :
    ((isNat64AddrValid a = true ↔ Embedded a) ∧ RejectsUnrelated a) ↔ Embedded a := by
  constructor
  · intro checked
    exact checked.1.mp rfl
  · intro embedded
    exact ⟨⟨fun _ => embedded,fun _ => rfl⟩,(rejects_iff a).mpr embedded⟩

theorem unrelated_address1 : ¬ Embedded address1 := by
  rintro ⟨pl,p,w,same⟩
  have valid := isValid_embed p w
  rw [← same] at valid
  exact absurd valid (by decide)

-- 2001:db8::1 holds neither well-known address, is accepted, and 1.2.3.4 is put into it.
theorem unrelated_accepted :
    ¬ Embedded address1 ∧ isNat64AddrValid address1 = true ∧
    (∃ outcome, getaddrinfoV6 literalsOnly (answering address1) (some literalHost) (some emptyTable) 0 = .ok outcome ∧
      outcome.ret = 0 ∧ outcome.ipinfo.map (fun t => t.stored.map In6Addr.s6_addr) =
        some [[32,1,13,184,0,0,0,0,0,0,0,0,1,2,3,4]]) ∧
    ¬ ((isNat64AddrValid address1 = true ↔ Embedded address1) ∧ RejectsUnrelated address1) := by
  refine ⟨unrelated_address1,rfl,?_,fun checked => unrelated_address1 (checked.1.mp rfl)⟩
  exact ⟨_,literal_synthesised (by decide) dottedQuad_literal rfl rfl,rfl,by decide⟩

-- A call of socket_gethostbyname by a worker, all but the host buffer, which they share.
structure Call where
  env : Env
  pid : Nat
  fuel : Nat
  locked : Bool
  ipinfo : SocketIpinfo
  timeout : Int
  dnsserver : Option String

def Call.run (c : Call) (host : List UInt8) : Except Stop Lookup :=
  socketGethostbyname c.env c.pid c.fuel c.locked host c.ipinfo c.timeout c.dnsserver

-- It is past its checks and its socket, and goes on to PrepareDnsQueryPacket.
def Call.encodes (c : Call) : Bool := c.dnsserver.isSome && c.env.opens

-- Calls on one buffer, in the order in which they are completed, and what it holds afterwards.
inductive Completed : List Call → List UInt8 → List UInt8 → Prop where
  | nil : Completed [] host host
  | cons : c.run host = .ok result → Completed calls result.host final → Completed (c :: calls) host final

theorem run_host (returned : Call.run c host = .ok result) :
    result.host = if c.encodes then host ++ [dot] else host := by
  unfold Call.run socketGethostbyname at returned
  unfold Call.encodes
  cases server : c.dnsserver with
  | none =>
      rw [server] at returned
      cases returned
      rfl
  | some name =>
      simp only [server] at returned
      cases opened : c.env.opens with
      | false =>
          rw [opened] at returned
          cases returned
          rfl
      | true =>
          rw [opened,if_pos rfl] at returned
          obtain ⟨⟨packed,host'⟩,prepared,returned⟩ := bind_ok.mp returned
          obtain ⟨length,_,returned⟩ := bind_ok.mp returned
          obtain ⟨count,_,returned⟩ := bind_ok.mp returned
          obtain ⟨answers,_,returned⟩ := bind_ok.mp returned
          have same := prepare_appends (orFault_ok.mp prepared)
          split at returned
          · cases returned
          · obtain ⟨full,_,returned⟩ := bind_ok.mp returned
            split at returned
            · cases returned
              exact same
            · cases returned
              exact same

-- Every call that encodes the name has left a dot behind it.
theorem completed_host (completed : Completed calls host final) :
    final = host ++ List.replicate (calls.countP Call.encodes) dot := by
  induction completed with
  | nil => simp
  | cons returned _ ih =>
      rw [ih,run_host returned,List.countP_cons]
      split
      · rw [List.replicate_succ,List.append_assoc,List.singleton_append]
      · rfl

-- The lookup that these calls make up has failed, and getaddrinfo_v6 goes on to the system.
def HandsOn (host final : List UInt8) : Prop :=
  ∀ platform thGethostbyname t timeout found outcome, platform.inet_pton host = none →
    thGethostbyname host {t with size := 0} timeout = .ok found → found.ret = -1 → found.host = final →
    getaddrinfoV6 platform thGethostbyname (some host) (some t) timeout = .ok outcome → outcome.asked = [host]

theorem host_kept (completed : Completed calls host final) :
    (final = host ∧ HandsOn host final) ↔ ∀ c ∈ calls, c.encodes = false := by
  have counted := completed_host completed
  constructor
  · rintro ⟨same,_⟩ c member
    rw [same] at counted
    have none : calls.countP Call.encodes = 0 := by
      have sizes := congrArg List.length counted
      rw [List.length_append,List.length_replicate] at sizes
      omega
    simpa using List.countP_eq_zero.mp none c member
  · intro stopped
    have none : calls.countP Call.encodes = 0 := List.countP_eq_zero.mpr (fun c member => by simp [stopped c member])
    rw [none,List.replicate_zero,List.append_nil] at counted
    refine ⟨counted,?_⟩
    intro platform thGethostbyname t timeout found outcome domain ran failed same returned
    simp only [getaddrinfoV6] at returned
    obtain ⟨name,copied,later⟩ := bind_ok.mp returned
    have whole : name = host := by
      unfold copyHost at copied
      split at copied
      · cases copied
        rfl
      · cases copied
    subst whole
    simp only [domain,ran,ok_bind,if_pos failed] at later
    obtain ⟨⟨ret,table⟩,_,left⟩ := bind_ok.mp later
    cases left
    rw [same,counted]

-- A server that never answers.
def silentCall : Call :=
  ⟨⟨willing,[],true,fun _ => true,fun _ _ => none⟩,1,64,false,emptyTable,3000,some "2001:67c:27e4:15::64"⟩

-- A worker that gets no socket.
def closedCall : Call :=
  ⟨⟨willing,[],false,fun _ => true,fun _ _ => none⟩,1,64,false,emptyTable,3000,some "2001:67c:27e4:15::64"⟩

theorem silent_completed (returns : (silentCall.run host).toOption.any (fun _ => true) = true)
    (later : Completed calls (host ++ [dot]) final) : Completed (silentCall :: calls) host final := by
  obtain ⟨result,returned,_⟩ := returned_any returns
  refine .cons returned ?_
  rw [run_host returned]
  exact later

-- One of three workers gets as far as the encoding.
theorem host_kept_closed : (hostA.text ++ [dot] = hostA.text ∧ HandsOn hostA.text (hostA.text ++ [dot])) ↔
    ∀ c ∈ [closedCall,silentCall,closedCall], c.encodes = false :=
  host_kept (.cons rfl (silent_completed (by decide +kernel) (.cons rfl .nil)))

-- Three workers have asked for "a" in vain, and the system is asked for "a...".
theorem dots_handed_on :
    Completed [silentCall,silentCall,silentCall] hostA.text [97,46,46,46] ∧
    ((getaddrinfoV6 literalsOnly (fun _ t _ => .ok ⟨-1,t,[97,46,46,46]⟩) (some hostA.text) (some emptyTable) 3000).toOption.map
      Outcome.asked = some [[97,46,46,46]]) ∧
    ¬ ([97,46,46,46] = hostA.text ∧ HandsOn hostA.text [97,46,46,46]) := by
  refine ⟨?_,by decide,fun kept => absurd kept.1 (by decide)⟩
  exact silent_completed (by decide +kernel) (silent_completed (by decide +kernel) (silent_completed (by decide +kernel) .nil))

-- The first AF_INET6 entry of a call that does not fail.
def FirstV6 (platform : Platform) (host : List UInt8) (a : In6Addr) : Prop :=
  ∃ before after, platform.getaddrinfo host = some (before ++ some a :: after) ∧ ∀ entry ∈ before, entry = none

-- That address is in slot `size`, the other slots are as they were, and `size` is one more.
structure Appends (t next : SocketIpinfo) (a : In6Addr) : Prop where
  size : next.size = t.size+1
  slot : next.v6_addr[t.size.toNat]? = some a
  others : ∀ i, i ≠ t.size.toNat → next.v6_addr[i]? = t.v6_addr[i]?

structure StoresWhole (platform : Platform) (host : List UInt8) (t : SocketIpinfo) : Prop where
  found : ∀ a, FirstV6 platform host a → ∃ next, getaddrinfoApi platform host t = .ok (0,next) ∧ Appends t next a
  missed : (∀ a, ¬ FirstV6 platform host a) → getaddrinfoApi platform host t = .ok (-1,t)

theorem getaddrinfoApi_found (first : FirstV6 platform host a) :
    getaddrinfoApi platform host t = (do let t ← orFault (copyFront t a); return (0,t.bump)) := by
  obtain ⟨before,after,answered,others⟩ := first
  have chosen : (before ++ some a :: after).findSome? id = some a :=
    List.findSome?_eq_some_iff.mpr ⟨before,some a,after,rfl,rfl,fun entry member => by rw [others entry member]; rfl⟩
  simp only [getaddrinfoApi,answered,chosen]

theorem getaddrinfoApi_missed (none : ∀ a, ¬ FirstV6 platform host a) : getaddrinfoApi platform host t = .ok (-1,t) := by
  unfold getaddrinfoApi
  split
  · rfl
  · rename_i results answered
    split
    · rfl
    · rename_i a chosen
      obtain ⟨before,entry,after,rfl,same,others⟩ := List.findSome?_eq_some_iff.mp chosen
      have equal : entry = some a := same
      subst equal
      exact absurd ⟨before,after,answered,others⟩ (none a)

-- A slot of the table has its own last four octets behind the copy.
theorem copyFront_store {t : SocketIpinfo} (old : t.v6_addr[t.size.toNat]? = some slot) (counted : 0 ≤ t.size) (room : t.size < socketMaxIpCount) :
    ∃ mixed, mixed.s6_addr = a.s6_addr.take 12 ++ slot.s6_addr.drop 12 ∧
      copyFront t a = some {t with v6_addr := t.v6_addr.setIfInBounds t.size.toNat mixed} := by
  have front : (a.s6_addr.take 12).length = 12 := by rw [List.length_take,a.whole]; rfl
  refine ⟨memcpy slot 0 (a.s6_addr.take 12) (by omega),?_,?_⟩
  · simp only [memcpy,List.take_zero,List.nil_append,front]
  · simp only [copyFront,old,Option.bind_eq_bind,Option.bind_some,store_room t _ counted room]

theorem whole_address {t : SocketIpinfo} (room : t.size < socketMaxIpCount) :
    StoresWhole platform host t ↔ ∀ a, FirstV6 platform host a →
      0 ≤ t.size ∧ ∀ slot, t.v6_addr[t.size.toNat]? = some slot → slot.s6_addr.drop 12 = a.s6_addr.drop 12 := by
  constructor
  · intro stores a first
    obtain ⟨next,ran,appends⟩ := stores.found a first
    rw [getaddrinfoApi_found first] at ran
    obtain ⟨copied,put,done⟩ := bind_ok.mp ran
    cases done
    have counted : 0 ≤ t.size := by
      by_contra negative
      have put := orFault_ok.mp put
      simp only [copyFront,Option.bind_eq_bind,Option.bind_eq_some_iff,SocketIpinfo.store,storeSlot] at put
      obtain ⟨_,_,put⟩ := put
      rw [if_neg (fun inside => negative inside.1)] at put
      cases put
    refine ⟨counted,fun slot old => ?_⟩
    obtain ⟨mixed,octets,copies⟩ := copyFront_store (a:=a) old counted room
    cases (orFault_ok.mp put).symm.trans copies
    have bound : t.size.toNat < 20 := by have : t.size < 20 := room; omega
    have now := appends.slot
    simp only [SocketIpinfo.bump] at now
    rw [Vector.getElem?_setIfInBounds_self_of_lt bound] at now
    cases now
    have tail := congrArg (List.drop 12) octets
    rw [List.drop_left' (by rw [List.length_take,a.whole]; rfl)] at tail
    exact tail.symm
  · intro same
    refine ⟨fun a first => ?_,getaddrinfoApi_missed⟩
    obtain ⟨counted,same⟩ := same a first
    have bound : t.size.toNat < 20 := by have : t.size < 20 := room; omega
    have old : t.v6_addr[t.size.toNat]? = some t.v6_addr[t.size.toNat] := Vector.getElem?_eq_getElem bound
    obtain ⟨mixed,octets,copies⟩ := copyFront_store (a:=a) old counted room
    rw [same _ old,List.take_append_drop] at octets
    cases In6Addr.ext_octets octets
    refine ⟨_,by rw [getaddrinfoApi_found first,copies]; rfl,rfl,?_,fun i other => ?_⟩
    · exact Vector.getElem?_setIfInBounds_self_of_lt bound
    · exact Vector.getElem?_setIfInBounds_ne other.symm

-- A host with an IPv4 address and, behind it, 2001:db8::1.
def dualStack : Platform := ⟨dottedQuad,fun _ => some [none,some address1]⟩

theorem dualStack_first : FirstV6 dualStack host address1 := ⟨[none],[],rfl,by simp⟩

theorem whole_address_empty : StoresWhole dualStack hostA.text emptyTable ↔ ∀ a, FirstV6 dualStack hostA.text a →
    0 ≤ emptyTable.size ∧ ∀ slot, emptyTable.v6_addr[emptyTable.size.toNat]? = some slot → slot.s6_addr.drop 12 = a.s6_addr.drop 12 :=
  whole_address (by decide)

-- The last octet of 2001:db8::1 does not come with it.
theorem tail_lost :
    (getaddrinfoApi dualStack hostA.text emptyTable).toOption.map (fun r => (r.1,r.2.stored.map In6Addr.s6_addr)) =
      some (0,[[32,1,13,184,0,0,0,0,0,0,0,0,0,0,0,0]]) ∧ ¬ StoresWhole dualStack hostA.text emptyTable := by
  refine ⟨by decide,fun stores => ?_⟩
  obtain ⟨next,ran,appends⟩ := stores.found address1 dualStack_first
  have other : (getaddrinfoApi dualStack hostA.text emptyTable).toOption.all (fun r => r.2.v6_addr[0]? ≠ some address1) = true := by
    decide
  rw [ran] at other
  exact absurd appends.slot (of_decide_eq_true other)

end PersonalJournal.Getaddrinfo
