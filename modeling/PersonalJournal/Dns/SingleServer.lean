import PersonalJournal.Dns.Answer

namespace PersonalJournal.SingleServer
open Bytes DomainName ReadName Query Answer

-- The lookup that asks one server and takes no mutex, with its larger buffers.
def bufLen : Nat := 65536

-- What is known when the attempts are over and the answers not yet read.
structure Request where
  host : List UInt8
  packlen : Nat
  datagram : Option (List UInt8)
  sent : List (List UInt8)

def request (env : Env) (pid : Nat) (timeout : Int) (host : List UInt8) : Except Stop Request := do
  let (sendBuf,host) ← orFault (prepareDnsQueryPacket pid (List.replicate bufLen 0) host)
  let packlen ← orFault (sendPacklen sendBuf)
  let (datagram,sent) := attempts env timeout (sendBuf.take packlen) 3 0
  return ⟨host,packlen,datagram,sent⟩

structure Outcome where
  ret : Int
  ipinfo : Option SocketIpinfo
  host : Option (List UInt8)
  sent : List (List UInt8)

def socketGethostbyname (env : Env) (pid fuel : Nat) (host : Option (List UInt8)) (ipinfo : Option SocketIpinfo)
    (timeout : Int) (dnsserver : Option String) : Except Stop Outcome :=
  match host,ipinfo,dnsserver with
  | some name,some t,some _ =>
    if env.opens then do
      let r ← request env pid (effective timeout) name
      let recvBuf := buffered bufLen r.datagram
      let count ← orFault (answerCount recvBuf)
      let answers ← readRecvAnswer env.alloc fuel (recvBuf ++ env.behind) count r.packlen 0
      let t ← collect (recvBuf ++ env.behind) answers count 0 {t with size := 0}
      return ⟨if t.size ≤ 0 then -1 else 0,some t,some r.host,r.sent⟩
    else .ok ⟨-1,ipinfo,host,[]⟩
  | _,_,_ => .ok ⟨-1,ipinfo,host,[]⟩

-- The packets a call has sent before it reads any answer; it may still go wrong then.
def packetsSent (env : Env) (pid : Nat) (host : List UInt8) (ipinfo : Option SocketIpinfo) (timeout : Int)
    (dnsserver : Option String) : Except Stop (List (List UInt8)) :=
  match ipinfo,dnsserver with
  | some _,some _ => if env.opens then (request env pid (effective timeout) host).map Request.sent else .ok []
  | _,_ => .ok []

theorem sent_packets (returned : socketGethostbyname env pid fuel (some host) ipinfo timeout dnsserver = .ok outcome) :
    packetsSent env pid host ipinfo timeout dnsserver = .ok outcome.sent := by
  unfold socketGethostbyname at returned
  unfold packetsSent
  split at returned
  · rename_i name t server same
    cases same
    split at returned
    · rename_i opens
      obtain ⟨r,asked,later⟩ := bind_ok.mp returned
      obtain ⟨count,_,later⟩ := bind_ok.mp later
      obtain ⟨answers,_,later⟩ := bind_ok.mp later
      obtain ⟨full,_,later⟩ := bind_ok.mp later
      cases later
      simp only [if_pos opens,asked]
      rfl
    · rename_i closed
      cases returned
      simp only [if_neg closed]
  · rename_i missing
    cases returned
    split
    · exact absurd rfl (missing _ _ _ rfl rfl)
    · rfl

-- The labels of a host as it is typed, a dot at its end closing the last one.
def labelsOf (host : List UInt8) : List Label := split (if host.getLast? = some dot then host.dropLast else host)

structure Valid (host : List UInt8) : Prop where
  sized : ∀ label ∈ labelsOf host, Sized label
  short : (wire (labelsOf host)).length ≤ 255

-- The question is for a name, and the name is that of the host.
structure Names (packet host : List UInt8) : Prop extends Valid host where
  named : At packet headerSize (wire (labelsOf host))

-- Whatever the socket, the network and malloc do.
def AsksOnly (host : List UInt8) : Prop :=
  ∀ env pid ipinfo timeout dnsserver, ∃ sent, packetsSent env pid host ipinfo timeout dnsserver = .ok sent ∧
    ((sent = [] ∧ ∀ fuel, ∃ outcome,
        socketGethostbyname env pid fuel (some host) ipinfo timeout dnsserver = .ok outcome ∧ outcome.ret = -1) ∨
      (sent ≠ [] ∧ ∀ packet ∈ sent, Names packet host))

theorem request_packet (prepared : prepareDnsQueryPacket pid (List.replicate bufLen 0) host =
    some (packet pid labels ++ rest,host')) (sized : ∀ label ∈ labels, Sized label) (clear : NulFree labels)
    (env : Env) (timeout : Int) :
    request env pid timeout host = .ok ⟨host',(packet pid labels).length,
      (attempts env timeout (packet pid labels) 3 0).1,(attempts env timeout (packet pid labels) 3 0).2⟩ := by
  simp only [request,prepared,orFault_some,ok_bind,packlen_labels pid sized clear,List.take_left,pure_ok]

theorem zero_count : answerCount (buffered bufLen none) = some 0 := by
  rw [buffered]
  generalize large : bufLen = n
  have room : ansCountOffset+1 < n := by rw [← large]; decide
  have high := List.getElem?_replicate_of_lt (a:=(0 : UInt8)) (Nat.lt_of_succ_lt room)
  have low := List.getElem?_replicate_of_lt (a:=(0 : UInt8)) room
  have count : read16 (List.replicate n 0) ansCountOffset = some 0 := by
    rw [read16,high,Option.bind_eq_bind,Option.bind_some,low]
    rfl
  rw [answerCount,count]
  rfl

theorem refused_fails (asked : request env pid (effective timeout) host = .ok r) (silent : r.datagram = none)
    (opens : env.opens = true) (fuel : Nat) (t : SocketIpinfo) (dnsserver : String) :
    ∃ outcome, socketGethostbyname env pid fuel (some host) (some t) timeout (some dnsserver) = .ok outcome ∧
      outcome.ret = -1 := by
  refine ⟨⟨-1,some {t with size := 0},some r.host,r.sent⟩,?_,rfl⟩
  simp only [socketGethostbyname,if_pos opens,asked,ok_bind,silent,zero_count,orFault_some,readRecvAnswer,readAnswers,collect,
    collectWith,Int.le_refl,if_true,pure_ok]

theorem valid_prepared (string : 0 ∉ host) (valid : Valid host) (pid : Nat) :
    ∃ rest, prepareDnsQueryPacket pid (List.replicate bufLen 0) host =
      some (packet pid (labelsOf host) ++ rest,host ++ [dot]) := by
  obtain ⟨sized,short⟩ := valid
  by_cases closed : host.getLast? = some dot
  · have labels : labelsOf host = split host.dropLast := by rw [labelsOf,if_pos closed]
    have whole : text (split host.dropLast ++ [[]]) = host := by
      rw [text_closed (split_named _),text_split]
      exact List.dropLast_append_getLast? dot closed
    have dotFree : ∀ label ∈ split host.dropLast ++ [[]], dot ∉ label := by
      intro label member
      rcases List.mem_append.mp member with piece | last
      · exact split_dotFree _ label piece
      · rw [List.mem_singleton.mp last]
        exact List.not_mem_nil
    rw [labels] at sized short ⊢
    have prepared := prepare_labels pid (n:=bufLen) (by simp) dotFree (wire_closed _) sized
      (split_nulFree (fun member => string (List.dropLast_subset _ member)))
      (by simp only [wire_closed,List.length_append,List.length_singleton,headerSize,questionSize,bufLen]; omega)
    rw [whole] at prepared
    exact ⟨_,prepared⟩
  · have labels : labelsOf host = split host := by rw [labelsOf,if_neg closed]
    rw [labels] at sized short ⊢
    have prepared := prepare_labels pid (n:=bufLen) (split_named host) (split_dotFree host) (List.append_nil _).symm sized
      (split_nulFree string) (by simp only [headerSize,questionSize,bufLen]; omega)
    rw [text_split] at prepared
    exact ⟨_,prepared⟩

theorem labels_nulFree (string : 0 ∉ host) : NulFree (labelsOf host) := by
  unfold labelsOf
  split
  · exact split_nulFree (fun member => string (List.dropLast_subset _ member))
  · exact split_nulFree string

theorem packet_names (valid : Valid host) (pid : Nat) : Names (packet pid (labelsOf host)) host := by
  have held := packet_question pid (labelsOf host) []
  rw [List.append_nil] at held
  exact ⟨valid,(at_append.mp held).1⟩

-- A world in which everything is sent and nothing answered.
def unanswered : Env := ⟨willing,[],true,fun _ => true,fun _ _ => none⟩

theorem unanswered_sends (asked : request unanswered pid timeout host = .ok r) : r.sent ≠ [] := by
  unfold request at asked
  obtain ⟨⟨sendBuf,host'⟩,_,asked⟩ := bind_ok.mp asked
  obtain ⟨packlen,_,asked⟩ := bind_ok.mp asked
  cases asked
  exact List.cons_ne_nil _ _

theorem nothing_sent (t : SocketIpinfo) (closed : env.opens = false) (host : List UInt8) (dnsserver : String) :
    socketGethostbyname env pid fuel (some host) (some t) timeout (some dnsserver) =
      .ok ⟨-1,some t,some host,[]⟩ := by
  simp only [socketGethostbyname,closed]
  rfl

theorem packetsSent_opened (opens : env.opens = true) (t : SocketIpinfo) (dnsserver : String) :
    packetsSent env pid host (some t) timeout (some dnsserver) =
      (request env pid (effective timeout) host).map Request.sent := by
  simp only [packetsSent,if_pos opens]

theorem only_valid (only : AsksOnly host) : Valid host := by
  obtain ⟨sent,ran,outcome⟩ := only unanswered 1 (some emptyTable) 0 (some "2001:67c:27e4::60")
  rw [packetsSent_opened rfl] at ran
  cases asked : request unanswered 1 (effective 0) host with
  | error stop =>
      rw [asked] at ran
      cases ran
  | ok r =>
      rw [asked] at ran
      cases ran
      have some := unanswered_sends asked
      rcases outcome with ⟨none,_⟩ | ⟨_,named⟩
      · exact absurd none some
      · obtain ⟨packet,member⟩ := List.exists_mem_of_ne_nil _ some
        exact (named packet member).toValid

theorem asks_only (string : 0 ∉ host) : AsksOnly host ↔ Valid host := by
  constructor
  · exact only_valid
  · intro valid env pid ipinfo timeout dnsserver
    cases ipinfo with
    | none => exact ⟨[],rfl,.inl ⟨rfl,fun _ => ⟨_,rfl,rfl⟩⟩⟩
    | some t =>
        cases dnsserver with
        | none => exact ⟨[],rfl,.inl ⟨rfl,fun _ => ⟨_,rfl,rfl⟩⟩⟩
        | some server =>
            cases opens : env.opens with
            | false => exact ⟨[],by simp [packetsSent,opens],.inl ⟨rfl,fun _ => ⟨_,nothing_sent t opens host server,rfl⟩⟩⟩
            | true =>
                obtain ⟨rest,prepared⟩ := valid_prepared string valid pid
                have asked := request_packet prepared valid.sized (labels_nulFree string) env (effective timeout)
                refine ⟨_,(packetsSent_opened opens t server).trans (congrArg (Except.map Request.sent) asked),?_⟩
                by_cases none : (attempts env (effective timeout) (packet pid (labelsOf host)) 3 0).2 = []
                · exact .inl ⟨none,fun fuel => refused_fails asked (attempts_unsent none) opens fuel t server⟩
                · right
                  refine ⟨none,?_⟩
                  intro p member
                  rw [attempts_sent _ _ _ _ _ p member]
                  exact packet_names valid pid

theorem asks_only_a : AsksOnly [97] ↔ Valid [97] := asks_only (by decide)

-- "a..b": the empty label in the middle ends the name that is sent.
def emptyMiddle : List UInt8 := [97,46,46,98]

theorem question_for_a : 0 ∉ emptyMiddle ∧ labelsOf emptyMiddle = [[97],[],[98]] ∧
    (∃ sent, packetsSent unanswered 1 emptyMiddle (some emptyTable) 3000 (some "2001:67c:27e4::60") = .ok sent ∧
      sent ≠ [] ∧ ∀ p ∈ sent, At p headerSize (wire [[97]] ++ question)) ∧ ¬ AsksOnly emptyMiddle := by
  have labels : labelsOf emptyMiddle = [[97],[],[98]] := by decide
  refine ⟨by decide,labels,?_,?_⟩
  · have sized : ∀ label ∈ [[97]], Sized label := by simp [Sized]
    have clear : NulFree [[97]] := by simp [NulFree]
    have closed : wire [[97],[],[98]] = wire [[97]] ++ [1,98,0] := rfl
    have whole : text [[97],[],[98]] = emptyMiddle := by decide
    have prepared := prepare_labels 1 (n:=bufLen) (List.cons_ne_nil _ _) (by decide) closed sized clear (by decide)
    rw [whole] at prepared
    have asked := request_packet prepared sized clear unanswered (effective 3000)
    refine ⟨_,(packetsSent_opened rfl _ _).trans (congrArg (Except.map Request.sent) asked),unanswered_sends asked,?_⟩
    intro p member
    rw [attempts_sent unanswered (effective 3000) (packet 1 [[97]]) 3 0 p member]
    simpa using packet_question 1 [[97]] []
  · intro only
    have sized := (only_valid only).sized [] (by rw [labels]; simp)
    exact absurd sized.1 (by decide)

end PersonalJournal.SingleServer
