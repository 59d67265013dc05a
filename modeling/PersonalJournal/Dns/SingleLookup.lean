import PersonalJournal.Dns.Reply
import PersonalJournal.Dns.SingleServer
import PersonalJournal.Dns.Getaddrinfo

namespace PersonalJournal.SingleLookup
open Bytes DomainName ResourceRecord ReadName Query Nat64 SingleServer Reply
open Answer hiding socketGethostbyname

theorem first_slot : 0 < 20 := Nat.succ_pos 19

-- getaddrinfo_v6 of the file that asks one server. inet_pton is isValidIpv4Address and the
-- conversion behind it; the well-known name has a buffer of its own.
def getaddrinfoV6 (inet_pton : List UInt8 → Option InAddr) (env : Env) (pid fuel : Nat) (host : List UInt8)
    (ipinfo : Option SocketIpinfo) (timeout : Int) (dnsserver : Option String) : Except Stop Outcome :=
  match inet_pton host with
  | some v4 => do
    let found ← socketGethostbyname env pid fuel (some ipv4only.text) ipinfo timeout dnsserver
    if found.ret ≠ 0 then return ⟨-1,found.ipinfo,some host,found.sent⟩
    else
      let t ← orFault found.ipinfo
      let t := {t with size := 1}
      let first := getElem t.v6_addr 0 first_slot
      if isNat64AddrValid first then
        return ⟨0,some {t with v6_addr := t.v6_addr.set 0 (replaceNat64WithV4IP first v4) first_slot},some host,found.sent⟩
      else return ⟨-1,some t,some host,found.sent⟩
  | none => socketGethostbyname env pid fuel (some host) ipinfo timeout dnsserver

-- A reply that fits the buffers of this file.
def Response6 (ok : List Label → Prop) : HostName → List Record → List UInt8 → Prop :=
  WellFormed bufLen question (AnswerMeaning ok)

-- One call that is answered: what it leaves in the table, and what it has sent.
theorem single_lookup (granted : ∀ k, env.alloc.grants k = true) (host : HostName) (opens : env.opens = true)
    (delivered : Delivers env (effective timeout) datagram) (response : Response6 PlainName host records datagram)
    (pid : Nat) (t : SocketIpinfo) (dnsserver : String) :
    ∃ fuel,∃ full : SocketIpinfo,∃ sent,full.stored = addresses records ∧ full.size = (addresses records).length ∧
      (∀ p ∈ sent, p = packet pid host.labels) ∧
      ∀ more, fuel ≤ more → socketGethostbyname env pid more (some host.text) (some t) timeout (some dnsserver) =
        .ok ⟨if addresses records = [] then -1 else 0,some full,some (host.text ++ [dot]),sent⟩ := by
  obtain ⟨fuel,answers,full,collected,size,list,read⟩ :=
    reply_collected granted no_alias v6_values response ipinfo_fills env.behind ⟨0,t.v6_addr⟩ rfl
  rw [empty_stored (t:=⟨0,t.v6_addr⟩) rfl,List.nil_append] at list
  have short := host.wire_length
  have prepared := prepare_labels pid (n:=bufLen) host.named host.dotFree (List.append_nil _).symm host.sized
    host.nulFree (by simp only [headerSize,questionSize,bufLen]; omega)
  have asked := request_packet prepared host.sized host.nulFree env (effective timeout)
  refine ⟨fuel,full,(attempts env (effective timeout) (packet pid host.labels) 3 0).2,list,size,attempts_sent _ _ _ 3 0,?_⟩
  intro more enough
  have parse := read more enough
  rw [answersAt,← packet_length pid] at parse
  have empty : full.size ≤ 0 ↔ addresses records = [] := none_reported size
  simp only [socketGethostbyname,if_pos opens,HostName.text,asked,ok_bind,delivered.heard,response.count,orFault_some,
    readRecvAnswer,parse,collect,collected,pure_ok,empty]

theorem stored_first {full : SocketIpinfo} (list : full.stored = first :: rest) :
    getElem full.v6_addr 0 first_slot = first := by
  obtain ⟨size,slots⟩ := full
  have head : (slots.toList.take size.toNat)[0]? = some first := by
    rw [show slots.toList.take size.toNat = first :: rest from list]
    rfl
  rw [List.getElem?_take] at head
  split at head
  · simpa using head
  · cases head

theorem set_stored (slots : Vector In6Addr 20) (a : In6Addr) : (⟨1,slots.set 0 a first_slot⟩ : SocketIpinfo).stored = [a] := by
  have bumped := storeSlot_kept (storeSlot_room slots (Int.le_refl 0) (by decide) a)
  simpa [SocketIpinfo.stored,Vector.toList_set] using bumped

-- What a caller gets who asks for a literal: one address, made of the first one that the
-- server has for the well-known name, or nothing where there is none.
structure Synthesised (found : List In6Addr) (v4 : InAddr) (out : Outcome) : Prop where
  none : found = [] → out.ret = -1
  one : ∀ first rest, found = first :: rest → out.ret = 0 ∧ ∃ t, out.ipinfo = some t ∧ t.size = 1 ∧
    t.stored = [replaceNat64WithV4IP first v4] ∧
    ∀ pl (p : Prefix pl) (w : InAddr), first = embed p w → w.octets[3]? ≠ some 0 → t.stored = [embed p v4]

theorem literal_exact (inet_pton : List UInt8 → Option InAddr) (literal : inet_pton host = some v4)
    (granted : ∀ k, env.alloc.grants k = true) (opens : env.opens = true)
    (delivered : Delivers env (effective timeout) datagram) (response : Response6 PlainName ipv4only records datagram)
    (pid : Nat) (t : SocketIpinfo) (dnsserver : String) :
    ∃ fuel out, Synthesised (addresses records) v4 out ∧ out.host = some host ∧
      (∀ p ∈ out.sent, p = packet pid ipv4only.labels) ∧
      ∀ more, fuel ≤ more → getaddrinfoV6 inet_pton env pid more host (some t) timeout (some dnsserver) = .ok out := by
  obtain ⟨fuel,full,sent,list,size,packets,ran⟩ := single_lookup granted ipv4only opens delivered response pid t dnsserver
  cases found : addresses records with
  | nil =>
      rw [found] at ran
      refine ⟨fuel,⟨-1,some full,some host,sent⟩,⟨fun _ => rfl,(fun _ _ same => by cases same)⟩,rfl,packets,?_⟩
      intro more enough
      simp only [getaddrinfoV6,literal,ran more enough,ok_bind]
      rfl
  | cons first rest =>
      rw [found] at ran list
      have head := stored_first list
      refine ⟨fuel,⟨0,some ⟨1,full.v6_addr.set 0 (replaceNat64WithV4IP first v4) first_slot⟩,some host,sent⟩,
        ⟨(fun empty => by cases empty),?_⟩,rfl,packets,?_⟩
      · intro one others same
        cases same
        have stored := set_stored full.v6_addr (replaceNat64WithV4IP first v4)
        refine ⟨rfl,_,rfl,rfl,stored,?_⟩
        rintro pl p w rfl last
        rw [stored,replace_embed p w v4 last]
      · intro more enough
        simp only [getaddrinfoV6,literal,ran more enough,ok_bind,reduceCtorEq,if_false,ne_eq,not_true_eq_false,orFault_some,
          isNat64AddrValid,if_true,head]
        rfl

-- 64:ff9b::/96, and the reply of its DNS64 for the well-known name, two addresses under a
-- compressed owner.
def wellKnownPrefix : Prefix .pl96 := ⟨[0,100,255,155,0,0,0,0,0,0,0,0],rfl⟩

def answerOf (w : InAddr) : List UInt8 := [192,12,0,28,0,1,0,0,0,0,0,16] ++ (embed wellKnownPrefix w).s6_addr

def wellKnownReply : List UInt8 :=
  [0,0,129,128,0,1,0,2,0,0,0,0] ++ wire ipv4only.labels ++ question ++ answerOf kWellKnownV4Addr1 ++ answerOf kWellKnownV4Addr2

def wellKnownRecords : List Record :=
  [⟨ipv4only.labels,AAAA,1,0,(embed wellKnownPrefix kWellKnownV4Addr1).s6_addr⟩,
    ⟨ipv4only.labels,AAAA,1,0,(embed wellKnownPrefix kWellKnownV4Addr2).s6_addr⟩]

theorem wellKnown_response : Response6 PlainName ipv4only wellKnownRecords wellKnownReply := by
  have question : Encodes wellKnownReply 12 ipv4only.labels 15 :=
    .label (⟨by decide,by decide⟩ : Sized [105,112,118,52,111,110,108,121]) (by decide)
      (.label (⟨by decide,by decide⟩ : Sized [97,114,112,97]) (by decide) (.root rfl))
  have owner : ∀ i, wellKnownReply[i]? = some 192 → wellKnownReply[i+1]? = some 12 → Encodes wellKnownReply i ipv4only.labels 2 :=
    fun i high low => .pointer high (by decide) low question
  have plain : PlainName ipv4only.labels :=
    ⟨asciiName_short _ (by decide) rfl (by decide),by unfold NulFree; decide⟩
  refine ⟨by decide,rfl,by decide,87,?_⟩
  refine .cons (owner 31 rfl rfl) (by decide) (by decide) (by decide) ⟨plain,.inl ⟨rfl,rfl⟩⟩ ?_
  exact .cons (owner 59 rfl rfl) (by decide) (by decide) (by decide) ⟨plain,.inl ⟨rfl,rfl⟩⟩ .nil

theorem literal_exact_wellKnown :
    ∃ fuel out t, getaddrinfoV6 Getaddrinfo.dottedQuad (repliedWith wellKnownReply) 1 fuel Getaddrinfo.literalHost
        (some emptyTable) 3000 (some "2001:67c:27e4::60") = .ok out ∧
      out.ret = 0 ∧ out.ipinfo = some t ∧ t.stored = [embed wellKnownPrefix ⟨[1,2,3,4],rfl⟩] := by
  have delivered : Delivers (repliedWith wellKnownReply) (effective 3000) wellKnownReply :=
    ⟨0,by decide,fun _ _ => rfl,by simp,rfl⟩
  obtain ⟨fuel,out,synthesised,_,_,ran⟩ := literal_exact Getaddrinfo.dottedQuad Getaddrinfo.dottedQuad_literal (fun _ => rfl) rfl
    delivered wellKnown_response 1 emptyTable "2001:67c:27e4::60"
  have found : addresses wellKnownRecords =
      [embed wellKnownPrefix kWellKnownV4Addr1,embed wellKnownPrefix kWellKnownV4Addr2] := by decide
  obtain ⟨success,t,table,_,_,embeds⟩ := synthesised.one _ _ found
  exact ⟨fuel,out,t,ran fuel (Nat.le_refl _),success,table,embeds _ wellKnownPrefix _ rfl (by decide)⟩

end PersonalJournal.SingleLookup
