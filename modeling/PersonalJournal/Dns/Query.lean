import PersonalJournal.Dns.ReadName

namespace PersonalJournal.Query
open Bytes DomainName ReadName

-- Locals of ChangetoDnsNameFormat: the buffer behind _qname, the index it has
-- been advanced to, and `lock`.
structure Encode where
  buffer : List UInt8
  qname : Nat
  lock : Nat

def copyLabel (host : List UInt8) : Nat → Encode → Option Encode
  | 0,s => some s
  | n+1,s => do
    let c ← host[s.lock]?
    let buffer ← store s.buffer s.qname c
    copyLabel host n ⟨buffer,s.qname+1,s.lock+1⟩

def encodeFrom (host : List UInt8) : Nat → Nat → Encode → Option Encode
  | 0,_,s => some s
  | left+1,i,s =>
    if host[i]? = some dot then do
      let buffer ← store s.buffer s.qname (UInt8.ofNat (i-s.lock))
      let s ← copyLabel host (i-s.lock) ⟨buffer,s.qname+1,s.lock⟩
      encodeFrom host left (i+1) {s with lock := s.lock+1}
    else encodeFrom host left (i+1) s

-- `hostname` is the C string at _hostname. strncat appends the dot in place, so
-- the caller's string comes back changed.
def changetoDnsNameFormat (buffer : List UInt8) (qname : Nat) (hostname : List UInt8) :
    Option (List UInt8 × List UInt8) := do
  let host := hostname ++ [dot]
  let s ← encodeFrom host host.length 0 ⟨buffer,qname,0⟩
  let buffer ← store s.buffer s.qname 0
  return (buffer,host)

def AAAA : Nat := 28
def classIN : Nat := 1
def headerSize : Nat := 12
def questionSize : Nat := 4
def sendBufSize : Nat := 2048

-- struct DNS_HEADER in memory on a little-endian host: id is not converted,
-- the first flag octet has rd = 1, the second is zero, q_count is htons(1).
def queryHeader (pid : Nat) : List UInt8 :=
  [UInt8.ofNat pid,UInt8.ofNat (pid / 256),1,0] ++ be16 1 ++ be16 0 ++ be16 0 ++ be16 0

def question : List UInt8 := be16 AAAA ++ be16 classIN

def prepareDnsQueryPacket (pid : Nat) (buffer : List UInt8) (host : List UInt8) :
    Option (List UInt8 × List UInt8) := do
  let buffer ← storeAll buffer 0 (queryHeader pid)
  let (buffer,host) ← changetoDnsNameFormat buffer headerSize host
  let length ← strlenAt buffer headerSize
  let buffer ← storeAll buffer (headerSize+(length+1)) question
  return (buffer,host)

-- send_packlen, which is also where the reader starts in recv_buf.
def sendPacklen (buffer : List UInt8) : Option Nat := do
  let length ← strlenAt buffer headerSize
  return headerSize+(length+1)+questionSize

theorem copyLabel_exact (front label rest : List UInt8) (buffer : List UInt8) (q : Nat) :
    copyLabel (front ++ label ++ rest) label.length ⟨buffer,q,front.length⟩ =
      (storeAll buffer q label).map (⟨·,q+label.length,front.length+label.length⟩) := by
  induction label generalizing front buffer q with
  | nil => rfl
  | cons c more ih =>
      have found : (front ++ c :: more ++ rest)[front.length]? = some c := by simp
      simp only [List.length_cons,copyLabel,found,Option.bind_eq_bind,Option.bind_some,storeAll]
      cases store buffer q c with
      | none => rfl
      | some next =>
          have later := ih (front ++ [c]) next (q+1)
          simp only [List.length_append,List.length_singleton] at later
          simp only [Option.bind_some]
          rw [show front ++ c :: more ++ rest = front ++ [c] ++ more ++ rest by simp,later]
          simp only [Nat.add_assoc,Nat.add_comm 1]

theorem encode_skip (front label rest : List UInt8) (clear : dot ∉ label) (left : Nat) (s : Encode) :
    encodeFrom (front ++ label ++ rest) (label.length+left) front.length s =
      encodeFrom (front ++ label ++ rest) left (front.length+label.length) s := by
  induction label generalizing front with
  | nil => simp
  | cons c more ih =>
      simp only [List.mem_cons,not_or] at clear
      have other : ¬ (front ++ c :: more ++ rest)[front.length]? = some dot := by
        simpa using Ne.symm clear.1
      have later := ih (front ++ [c]) clear.2
      rw [List.length_cons,show more.length+1+left = (more.length+left)+1 by omega,encodeFrom,if_neg other]
      rw [show front ++ c :: more ++ rest = front ++ [c] ++ more ++ rest by simp,
        show front.length+1 = (front ++ [c]).length by simp,later]
      simp only [List.length_append,List.length_singleton,Nat.add_assoc,Nat.add_comm 1]

-- A dot-terminated run of labels, none of them containing a dot, is written out
-- label by label behind its length octet; labels may be empty or too long here.
theorem encode_labels (front : List UInt8) (labels : List Label) (dotFree : ∀ label ∈ labels, dot ∉ label)
    (buffer : List UInt8) (q : Nat) :
    encodeFrom (front ++ dotted labels) (dotted labels).length front.length ⟨buffer,q,front.length⟩ =
      (storeAll buffer q (pack labels)).map
        (⟨·,q+(pack labels).length,front.length+(dotted labels).length⟩) := by
  induction labels generalizing front buffer q with
  | nil => rfl
  | cons label rest ih =>
      have clear := dotFree label (by simp)
      have later := fun next => ih (front ++ label ++ [dot]) (fun l member => dotFree l (by simp [member])) next
        (q+1+label.length)
      have whole : front ++ dotted (label :: rest) = front ++ label ++ dot :: dotted rest := by simp [dotted]
      have size : (dotted (label :: rest)).length = label.length+((dotted rest).length+1) := by simp [dotted]
      have found : (front ++ label ++ dot :: dotted rest)[front.length+label.length]? = some dot := by simp
      rw [whole,size,encode_skip front label _ clear,encodeFrom,if_pos found]
      simp only [Nat.add_sub_cancel_left,pack,storeAll,Option.bind_eq_bind]
      cases store buffer q (UInt8.ofNat label.length) with
      | none => rfl
      | some next =>
          simp only [Option.bind_some,copyLabel_exact,storeAll_append]
          cases storeAll next (q+1) label with
          | none => rfl
          | some copied =>
              have step := later copied
              rw [show front ++ label ++ [dot] ++ dotted rest = front ++ label ++ dot :: dotted rest by simp] at step
              simp only [List.length_append,List.length_singleton] at step
              simp only [Option.map_some,Option.bind_some,step,List.length_append,List.length_cons]
              simp only [Nat.add_assoc,Nat.add_comm,Nat.add_left_comm]

theorem changetoDnsNameFormat_exact (labels : List Label) (named : labels ≠ [])
    (dotFree : ∀ label ∈ labels, dot ∉ label) (buffer : List UInt8) (q : Nat) :
    changetoDnsNameFormat buffer q (text labels) =
      (storeAll buffer q (wire labels)).map (·,text labels ++ [dot]) := by
  have encoded := encode_labels [] labels dotFree buffer q
  simp only [List.nil_append,List.length_nil,Nat.zero_add] at encoded
  simp only [changetoDnsNameFormat,← dotted_text named,encoded,wire,storeAll_append,Option.bind_eq_bind]
  cases storeAll buffer q (pack labels) with
  | none => rfl
  | some packed =>
      simp only [Option.map_some,Option.bind_some,storeAll]
      cases store packed (q+(pack labels).length) 0 <;> rfl

theorem changeto_appends (done : changetoDnsNameFormat buffer qname host = some (packed,host')) : host' = host ++ [dot] := by
  simp only [changetoDnsNameFormat,Option.bind_eq_bind,Option.bind_eq_some_iff,Option.pure_def] at done
  obtain ⟨_,_,_,_,same⟩ := done
  cases same
  rfl

theorem prepare_appends (done : prepareDnsQueryPacket pid buffer host = some (packed,host')) : host' = host ++ [dot] := by
  simp only [prepareDnsQueryPacket,Option.bind_eq_bind,Option.bind_eq_some_iff,Option.pure_def] at done
  obtain ⟨_,_,⟨_,_⟩,encoded,_,_,_,_,same⟩ := done
  cases same
  exact changeto_appends encoded

def packet (pid : Nat) (labels : List Label) : List UInt8 := queryHeader pid ++ (wire labels ++ question)

theorem packet_length (pid : Nat) (labels : List Label) :
    (packet pid labels).length = headerSize+(wire labels).length+questionSize := by
  simp [packet,queryHeader,question,be16,headerSize,questionSize]
  omega

theorem header_length (pid : Nat) : (queryHeader pid).length = headerSize := rfl

theorem question_length : question.length = questionSize := rfl

theorem strlenAt_packet (pid : Nat) (sized : ∀ label ∈ labels, Sized label) (clear : NulFree labels) (rest : List UInt8) :
    strlenAt (queryHeader pid ++ (wire labels ++ rest)) headerSize = some (pack labels).length := by
  have found := strlenAt_text (queryHeader pid) (pack labels) rest (pack_clear sized clear)
  rw [header_length] at found
  simpa [wire] using found

-- A name whose pieces are these labels, perhaps with a dot behind the last one, in a
-- zeroed buffer of n octets. What the closing dot adds lies behind the packet, whatever
-- is asked about the name.
theorem packed_labels (pid : Nat) (named : all ≠ []) (dotFree : ∀ label ∈ all, dot ∉ label)
    (closed : wire all = wire labels ++ extra) (sized : ∀ label ∈ labels, Sized label) (clear : NulFree labels)
    (room : headerSize+(wire all).length+questionSize ≤ n) :
    ∃ headed packed, storeAll (List.replicate n 0) 0 (queryHeader pid) = some headed ∧
      changetoDnsNameFormat headed headerSize (text all) = some (packed,text all ++ [dot]) ∧
      strlenAt packed headerSize = some (pack labels).length ∧
      ∀ asked, asked.length = questionSize → storeAll packed (headerSize+((pack labels).length+1)) asked =
        some (queryHeader pid ++ (wire labels ++ asked) ++
          (extra ++ List.replicate (n-headerSize-(wire all).length) 0).drop questionSize) := by
  have header := storeAll_front [] (queryHeader pid) (List.replicate n 0)
    (by rw [header_length,List.length_replicate]; omega)
  have name := storeAll_front (queryHeader pid) (wire all) (List.replicate (n-headerSize) 0)
    (by rw [List.length_replicate]; omega)
  simp only [List.nil_append,List.length_nil,List.drop_replicate,header_length] at header name
  refine ⟨_,_,header,?_,strlenAt_packet pid sized clear (extra ++ List.replicate (n-headerSize-(wire all).length) 0),?_⟩
  · rw [changetoDnsNameFormat_exact all named dotFree,name,Option.map_some]
    simp only [closed,List.append_assoc]
  · intro asked four
    have stored := storeAll_front (queryHeader pid ++ wire labels) asked
      (extra ++ List.replicate (n-headerSize-(wire all).length) 0)
      (by rw [four,List.length_append,List.length_replicate]; omega)
    have place : (queryHeader pid ++ wire labels).length = headerSize+((pack labels).length+1) := by
      simp [header_length,wire]
    rw [place,four] at stored
    simpa only [List.append_assoc] using stored

theorem prepare_labels (pid : Nat) (named : all ≠ []) (dotFree : ∀ label ∈ all, dot ∉ label)
    (closed : wire all = wire labels ++ extra) (sized : ∀ label ∈ labels, Sized label) (clear : NulFree labels)
    (room : headerSize+(wire all).length+questionSize ≤ n) :
    prepareDnsQueryPacket pid (List.replicate n 0) (text all) =
      some (packet pid labels ++ (extra ++ List.replicate (n-headerSize-(wire all).length) 0).drop questionSize,
        text all ++ [dot]) := by
  obtain ⟨headed,packed,header,name,length,stored⟩ := packed_labels pid named dotFree closed sized clear room
  simp only [prepareDnsQueryPacket,header,name,length,stored question question_length,Option.bind_eq_bind,Option.bind_some]
  rfl

theorem packlen_labels (pid : Nat) (sized : ∀ label ∈ labels, Sized label) (clear : NulFree labels) (rest : List UInt8) :
    sendPacklen (packet pid labels ++ rest) = some (packet pid labels).length := by
  have length := strlenAt_packet pid sized clear (question ++ rest)
  simp only [packet,List.append_assoc] at length ⊢
  simp only [sendPacklen,length,Option.bind_eq_bind,Option.bind_some,Option.pure_def,Option.some.injEq]
  simp [header_length,question_length,wire]
  omega

theorem prepareDnsQueryPacket_exact (host : HostName) (pid : Nat) :
    prepareDnsQueryPacket pid (List.replicate sendBufSize 0) host.text =
      some (packet pid host.labels ++ List.replicate (sendBufSize-(packet pid host.labels).length) 0,
        host.text ++ [dot]) := by
  have short := host.wire_length
  have prepared := prepare_labels pid (n:=sendBufSize) host.named host.dotFree (List.append_nil _).symm host.sized
    host.nulFree (by simp only [headerSize,questionSize,sendBufSize]; omega)
  rw [List.nil_append,List.drop_replicate,Nat.sub_sub,Nat.sub_sub,← Nat.add_assoc,← packet_length pid] at prepared
  exact prepared

theorem sendPacklen_exact (host : HostName) (pid : Nat) (rest : List UInt8) :
    sendPacklen (packet pid host.labels ++ rest) = some (packet pid host.labels).length :=
  packlen_labels pid host.sized host.nulFree rest

theorem packet_question (pid : Nat) (labels : List Label) (rest : List UInt8) :
    At (packet pid labels ++ rest) headerSize (wire labels ++ question) := by
  have held := at_middle (queryHeader pid) (wire labels ++ question) rest
  simpa [packet,header_length] using held

structure Roundtrip (alloc : Allocator) (calls : Nat) (host : HostName) (buffer : List UInt8) (count : Nat) : Prop where
  named : At buffer headerSize (pack host.labels ++ [0] ++ be16 AAAA ++ be16 classIN)
  counted : strlenAt buffer headerSize = some (count-1) ∧ 0 < count
  decoded : ∃ fuel, ∀ more, fuel ≤ more → ∃ block used,
    readName alloc calls more headerSize buffer = .ok ⟨some block,count,used,false⟩ ∧ block.IsString host.text
  packlen : sendPacklen buffer = some (headerSize+count+questionSize)
  sent : ∃ header, header.length = headerSize ∧ buffer.take (headerSize+count+questionSize) =
    header ++ (pack host.labels ++ [0] ++ be16 AAAA ++ be16 classIN)
  untouched : ∀ c ∈ buffer.drop (headerSize+count+questionSize), c = 0

theorem query_roundtrip (host : HostName) (pid : Nat) (granted : alloc.grants calls = true) :
    ∃ buffer count, prepareDnsQueryPacket pid (List.replicate sendBufSize 0) host.text =
        some (buffer,host.text ++ [dot]) ∧ Roundtrip alloc calls host buffer count := by
  let rest := List.replicate (sendBufSize-(packet pid host.labels).length) (0 : UInt8)
  have length := packet_length pid host.labels
  have question := packet_question pid host.labels rest
  have encoded := encodes_wire host.sized (at_append.mp question).1
  obtain ⟨fuel,block,returned,string⟩ :=
    readName_text granted encoded host.named host.ascii host.nulFree host.wire_length
  refine ⟨packet pid host.labels ++ rest,(wire host.labels).length,prepareDnsQueryPacket_exact host pid,?_,⟨?_,?_⟩,
    ⟨fuel,fun more enough => ⟨block,calls+1,readName_mono returned enough,string⟩⟩,?_,
    ⟨queryHeader pid,header_length pid,?_⟩,?_⟩
  · simpa [wire,Query.question] using question
  · have found := strlenAt_packet pid host.sized host.nulFree (Query.question ++ rest)
    simpa [packet,wire] using found
  · simp [wire]
  · rw [← length]; exact sendPacklen_exact host pid rest
  · rw [← length,List.take_left]
    simp [packet,wire,Query.question]
  · rw [← length,List.drop_left]
    intro c member
    exact (List.mem_replicate.mp member).2

def ipv4only : HostName where
  labels := [[105,112,118,52,111,110,108,121],[97,114,112,97]]
  named := by decide
  sized := by unfold Sized; decide
  ascii := ascii_all rfl
  nulFree := by unfold NulFree; decide
  dotFree := by decide
  short := by decide

theorem query_roundtrip_ipv4only :
    ∃ buffer count, prepareDnsQueryPacket 1 (List.replicate sendBufSize 0) ipv4only.text =
        some (buffer,ipv4only.text ++ [dot]) ∧ Roundtrip willing 0 ipv4only buffer count :=
  query_roundtrip ipv4only 1 rfl

end PersonalJournal.Query
