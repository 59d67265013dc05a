import PersonalJournal.Dns.AnswerWalk

namespace PersonalJournal.Reply
open Bytes DomainName ResourceRecord ReadName NameWalk NameAllocation Query Nat64 Answer AnswerWalk

def NS : Nat := 2
def CNAME : Nat := 5
def PTR : Nat := 12

-- A non-root name of ASCII octets within the limit on expanded names.
structure AsciiName (labels : List Label) : Prop where
  named : labels ≠ []
  ascii : Ascii labels
  short : (wire labels).length ≤ 255

structure PlainName (labels : List Label) : Prop extends AsciiName labels where
  nulFree : NulFree labels

-- The records of a reply: data of the type that was asked for, or aliases whose RDATA is just a name.
def Meaning (wanted size : Nat) (aliases : List Nat) (ok : List Label → Prop) (message : List UInt8) (i : Nat) (r : Record) : Prop :=
  ok r.owner ∧ ((r.type = wanted ∧ r.rdata.length = size) ∨
    r.type ∈ aliases ∧ ∃ target, ok target ∧ Encodes message i target r.rdata.length)

def answersAt (host : HostName) : Nat := headerSize+(wire host.labels).length+questionSize

-- A datagram that fits the buffer, and in it the question and as many records as are announced.
structure WellFormed (bufSize : Nat) (asked : List UInt8) (means : List UInt8 → Nat → Record → Prop) (host : HostName)
    (records : List Record) (datagram : List UInt8) : Prop where
  short : datagram.length ≤ bufSize
  announced : read16 datagram ansCountOffset = some records.length
  echoed : At datagram headerSize (wire host.labels ++ asked)
  answers : ∃ final, Section datagram (means datagram) (answersAt host) records final

theorem Meaning.extend (means : Meaning wanted size aliases ok message i r) (more : List UInt8) :
    Meaning wanted size aliases ok (message ++ more) i r := by
  obtain ⟨owner,data | ⟨aliased,target,named,encoded⟩⟩ := means
  · exact ⟨owner,.inl data⟩
  · exact ⟨owner,.inr ⟨aliased,target,named,encoded.extend more⟩⟩

theorem Meaning.imp (weaker : ∀ labels, ok labels → ok' labels) (means : Meaning wanted size aliases ok message i r) :
    Meaning wanted size aliases ok' message i r := by
  obtain ⟨owner,data | ⟨aliased,target,named,encoded⟩⟩ := means
  · exact ⟨weaker _ owner,.inl data⟩
  · exact ⟨weaker _ owner,.inr ⟨aliased,target,weaker _ named,encoded⟩⟩

theorem WellFormed.imp (weaker : ∀ labels, ok labels → ok' labels)
    (reply : WellFormed bufSize asked (Meaning wanted size aliases ok) host records datagram) :
    WellFormed bufSize asked (Meaning wanted size aliases ok') host records datagram := by
  obtain ⟨short,announced,echoed,final,answers⟩ := reply
  refine ⟨short,announced,echoed,final,?_⟩
  have widened : Section (datagram ++ []) (Meaning wanted size aliases ok' datagram) (answersAt host) records final :=
    answers.extend [] (fun j r means => means.imp weaker)
  rwa [List.append_nil] at widened

theorem WellFormed.count (reply : WellFormed bufSize asked means host records datagram) :
    answerCount (buffered bufSize (some datagram)) = some (records.take socketMaxIpCount).length := by
  rw [buffered_short reply.short,answerCount,read16_extend reply.announced,List.length_take]
  rfl

-- What the reader finds in the memory from recv_buf on.
theorem WellFormed.memory (reply : WellFormed bufSize asked (Meaning wanted size aliases ok) host records datagram)
    (behind : List UInt8) :
    ∃ final, Section (buffered bufSize (some datagram) ++ behind)
      (Meaning wanted size aliases ok (buffered bufSize (some datagram) ++ behind)) (answersAt host) records final := by
  obtain ⟨final,answers⟩ := reply.answers
  rw [buffered_short reply.short,List.append_assoc]
  exact ⟨final,answers.extend _ (fun j r means => means.extend _)⟩

theorem plain_reads (granted : Grants alloc) (encoded : Encodes buffer i labels n) (plain : PlainName labels) (c : Nat) :
    ∃ used, Reads alloc.grants buffer i c n used := by
  obtain ⟨fuel,block,read,_⟩ := readName_text (granted c) encoded plain.named plain.ascii plain.nulFree plain.short
  exact ⟨_,(reads_exact ..).mpr ⟨fuel,_,_,read⟩⟩

-- What is made of a block with RDATA of the type that was asked for is shown by its record.
structure Values (wanted size : Nat) (value : Block → α) (shown : Record → Option α) : Prop where
  data : ∀ (r : Record) (content : Block), r.type = wanted → r.rdata.length = size →
    shown r = some (value (filled content r.rdata))
  others : ∀ r : Record, r.type ≠ wanted → shown r = none

-- The cursor comes by each record whose names are plain: it ends up behind its RDATA, by data_len
-- for data and by the count of the decoded target for an alias.
theorem section_finds (granted : Grants alloc) (apart : wanted ∉ aliases) (values : Values wanted size value shown)
    (answers : Section buffer (Meaning wanted size aliases PlainName buffer) i records final) (near : left ≤ records.length) (c : Nat) :
    ∃ found, Finds wanted alloc buffer left i c found ∧ found.map value = (records.take left).filterMap shown := by
  induction answers generalizing left c with
  | nil =>
      obtain rfl : left = 0 := by simpa using near
      exact ⟨[],.nil,rfl⟩
  | @cons i n r rest final owner type length held means _ ih =>
      cases left with
      | zero => exact ⟨[],.nil,rfl⟩
      | succ left =>
          obtain ⟨fixed,data⟩ := at_append.mp held
          rw [r.fixed_length] at data
          have kind := fixed_type type fixed
          have near' : left ≤ rest.length := by simpa using near
          obtain ⟨plain,⟨same,whole⟩ | ⟨aliased,target,plain',encoded⟩⟩ := means
          · obtain ⟨used,reads⟩ := plain_reads granted owner plain c
            obtain ⟨found,finds,list⟩ := ih near' (used+1)
            rw [same] at kind
            refine ⟨_,.cons (.address reads kind (fixed_rdlength length fixed) data (granted used)) finds,?_⟩
            rw [List.take_succ_cons,List.filterMap_cons_some (values.data r (alloc.content used) same whole),← list]
            rfl
          · obtain ⟨used,reads⟩ := plain_reads granted owner plain c
            obtain ⟨used',reads'⟩ := plain_reads granted encoded plain' used
            obtain ⟨found,finds,list⟩ := ih near' used'
            have differ : r.type ≠ wanted := fun same => apart (same ▸ aliased)
            refine ⟨_,.cons (.other reads kind differ reads') finds,?_⟩
            rw [List.take_succ_cons,List.filterMap_cons_none (values.others r differ)]
            exact list

theorem reply_finds (granted : Grants alloc) (apart : wanted ∉ aliases) (values : Values wanted size value shown)
    (reply : WellFormed bufSize asked (Meaning wanted size aliases PlainName) host records datagram) (behind : List UInt8) :
    ∃ found, Finds wanted alloc (buffered bufSize (some datagram) ++ behind) (records.take socketMaxIpCount).length
        (answersAt host) 0 found ∧ found.map value = (records.take socketMaxIpCount).filterMap shown := by
  obtain ⟨final,answers⟩ := reply.memory behind
  have near : (records.take socketMaxIpCount).length ≤ records.length := List.length_take_le' _ _
  obtain ⟨found,finds,list⟩ := section_finds granted apart values answers near 0
  rw [List.length_take,← List.take_take,List.take_length] at list
  exact ⟨found,finds,list⟩

-- Both loops go through, and an empty table holds then what the first min(20,n) records show.
theorem reply_collected {value : Block → α} {add : τ → Block → Option τ} {count : τ → Int} {stored : τ → List α}
    (granted : Grants alloc) (apart : wanted ∉ aliases) (values : Values wanted size value shown)
    (reply : WellFormed bufSize asked (Meaning wanted size aliases PlainName) host records datagram)
    (fills : Fills add count stored value) (behind : List UInt8) (t : τ) (empty : count t = 0) :
    ∃ fuel answers full, collectWith wanted add (buffered bufSize (some datagram) ++ behind) answers
        (records.take socketMaxIpCount).length 0 t = .ok full ∧
      count full = ((records.take socketMaxIpCount).filterMap shown).length ∧
      stored full = stored t ++ (records.take socketMaxIpCount).filterMap shown ∧
      ∀ more, fuel ≤ more → readAnswers wanted alloc more (buffered bufSize (some datagram) ++ behind)
        (records.take socketMaxIpCount).length (answersAt host) 0 = .ok answers := by
  obtain ⟨found,finds,list⟩ := reply_finds granted apart values reply behind
  have length : found.length = ((records.take socketMaxIpCount).filterMap shown).length := by rw [← list,List.length_map]
  have near := List.length_filterMap_le shown (records.take socketMaxIpCount)
  rw [List.length_take] at near
  obtain ⟨full,folded,size,all⟩ := fills.all found t (by omega) (by omega)
  obtain ⟨fuel,answers,read,collected⟩ := (collected_found add t full).mpr ⟨found,finds,folded⟩
  exact ⟨fuel,answers,full,collected,by rw [size,empty,Int.zero_add,length],by rw [all,list],
    fun more enough => readAnswers_mono read enough⟩

def AnswerMeaning (ok : List Label → Prop) : List UInt8 → Nat → Record → Prop := Meaning AAAA 16 [CNAME,NS,PTR] ok

-- A reply to the question for the IPv6 addresses of a host.
def Response (ok : List Label → Prop) : HostName → List Record → List UInt8 → Prop :=
  WellFormed recvBufSize question (AnswerMeaning ok)

def v6 (r : Record) : Option In6Addr :=
  if whole : r.rdata.length = 16 then if r.type = AAAA then some ⟨r.rdata,whole⟩ else none else none

def addresses (records : List Record) : List In6Addr := (records.take socketMaxIpCount).filterMap v6

theorem no_alias : AAAA ∉ [CNAME,NS,PTR] := by decide

theorem octets16_filled (content : Block) (whole : data.length = 16) : octets16 (filled content data) = ⟨data,whole⟩ := by
  refine In6Addr.ext_octets (List.ext_getElem (by rw [whole,octets16,List.length_map,List.length_range]) ?_)
  intro k _ inside
  have here : k < data.length := inside
  simp [octets16,filled,List.getElem?_append_left here,List.getElem?_eq_getElem here]

theorem v6_values : Values AAAA 16 octets16 v6 := by
  refine ⟨fun r content type whole => ?_,fun r other => ?_⟩
  · rw [v6,dif_pos whole,if_pos type,octets16_filled content whole]
  · simp only [v6,if_neg other,dite_eq_ite,ite_self]

-- One call on an empty table leaves exactly these addresses in it, and says so.
def Reports (env : Env) (pid : Nat) (host : List UInt8) (ipinfo : SocketIpinfo) (timeout : Int) (dnsserver : String)
    (expected : List In6Addr) : Prop :=
  ∃ fuel, ∀ more, fuel ≤ more → ∃ result,
    socketGethostbyname env pid more false host ipinfo timeout (some dnsserver) = .ok result ∧
    result.ipinfo.stored = expected ∧ result.ipinfo.size = expected.length ∧
    result.ret = if expected = [] then -1 else 0

theorem empty_stored {t : SocketIpinfo} (empty : t.size = 0) : t.stored = [] := by
  rw [SocketIpinfo.stored,empty]
  rfl

theorem none_reported {full : SocketIpinfo} {expected : List In6Addr} (size : full.size = expected.length) :
    full.size ≤ 0 ↔ expected = [] := by
  rw [size,← List.length_eq_zero_iff]
  omega

theorem whole_reply_decoded (host : HostName) (pid : Nat) (granted : ∀ k, env.alloc.grants k = true)
    (opens : env.opens = true) (delivered : Delivers env (effective timeout) datagram)
    (response : Response PlainName host records datagram) (empty : ipinfo.size = 0) (dnsserver : String) :
    Reports env pid host.text ipinfo timeout dnsserver (addresses records) := by
  have heard := delivered.exchanged (packet pid host.labels)
  obtain ⟨fuel,answers,full,collected,size,list,read⟩ :=
    reply_collected granted no_alias v6_values response ipinfo_fills env.behind ipinfo empty
  rw [empty_stored empty,List.nil_append] at list
  refine ⟨fuel,fun more enough => ?_⟩
  have parse := read more enough
  rw [answersAt,← packet_length pid] at parse
  obtain ⟨sent,ran⟩ := socketGethostbyname_run opens (prepareDnsQueryPacket_exact host pid) (sendPacklen_exact host pid _)
    (by rw [List.take_left]; exact heard) response.count more ipinfo dnsserver
  refine ⟨⟨if full.size ≤ 0 then -1 else 0,full,host.text ++ [dot],sent,!decide (full.size ≤ 0)⟩,ran.trans ?_,list,size,
    if_congr (none_reported size) rfl rfl⟩
  rw [readRecvAnswer,parse,ok_bind,collect,collected,ok_bind]

-- An alias whose target is compressed, and an address under a compressed owner.
def aliasReply : List UInt8 :=
  [0,0,129,128,0,1,0,2,0,0,0,0,1,97,0,0,28,0,1] ++
  [192,12,0,5,0,1,0,0,0,0,0,4,1,98,192,12] ++ [192,12,0,28,0,1,0,0,0,0,0,16] ++ address1.s6_addr

def aliasRecords : List Record := [⟨[[97]],CNAME,1,0,[1,98,192,12]⟩,⟨[[97]],AAAA,1,0,address1.s6_addr⟩]

theorem asciiName_short (labels : List Label) (named : labels ≠ []) (ascii : labels.all (·.all (· < 128)) = true)
    (short : (wire labels).length ≤ 255) : AsciiName labels := ⟨named,ascii_all ascii,short⟩

theorem alias_response : Response PlainName hostA aliasRecords aliasReply := by
  have question : Encodes aliasReply 12 [[97]] 3 := .label (⟨by decide,by decide⟩ : Sized [97]) (by decide) (.root rfl)
  have owner : ∀ i, aliasReply[i]? = some 192 → aliasReply[i+1]? = some 12 → Encodes aliasReply i [[97]] 2 :=
    fun i high low => .pointer high (by decide) low question
  have plainA : PlainName [[97]] := ⟨asciiName_short _ (by decide) rfl (by decide),by unfold NulFree; decide⟩
  have plainB : PlainName [[98],[97]] := ⟨asciiName_short _ (by decide) rfl (by decide),by unfold NulFree; decide⟩
  have target : Encodes aliasReply 31 [[98],[97]] 4 :=
    .label (⟨by decide,by decide⟩ : Sized [98]) (by decide) (owner 33 rfl rfl)
  refine ⟨by decide,rfl,by decide,63,?_⟩
  refine .cons (owner 19 rfl rfl) (by decide) (by decide) (by decide)
    ⟨plainA,.inr ⟨List.mem_cons_self,[[98],[97]],plainB,target⟩⟩ ?_
  exact .cons (owner 35 rfl rfl) (by decide) (by decide) (by decide) ⟨plainA,.inl ⟨rfl,rfl⟩⟩ .nil

theorem alias_delivered : Delivers (repliedWith aliasReply) (effective 3000) aliasReply :=
  ⟨0,by decide,fun _ _ => rfl,by simp,rfl⟩

theorem whole_reply_decoded_alias :
    Reports (repliedWith aliasReply) 1 hostA.text emptyTable 3000 "2001:67c:27e4::60" [address1] :=
  whole_reply_decoded hostA 1 (fun _ => rfl) rfl alias_delivered alias_response rfl _

-- The owner of the only answer is the label of one zero octet.
def nulReply : List UInt8 :=
  [0,0,129,128,0,1,0,1,0,0,0,0,1,97,0,0,28,0,1] ++ [1,0,0,0,28,0,1,0,0,0,0,0,16] ++ address1.s6_addr

def nulRecords : List Record := [⟨[[0]],AAAA,1,0,address1.s6_addr⟩]

-- The name ends early, the fixed part is read one octet early, the address is lost.
theorem nul_owner_lost : Response AsciiName hostA nulRecords nulReply ∧
    Delivers (repliedWith nulReply) (effective 3000) nulReply ∧ addresses nulRecords = [address1] ∧
    (∃ result, socketGethostbyname (repliedWith nulReply) 1 64 false hostA.text emptyTable 3000
      (some "2001:67c:27e4::60") = .ok result ∧ result.ret = -1 ∧ result.ipinfo.size = 0) ∧
    ¬ Reports (repliedWith nulReply) 1 hostA.text emptyTable 3000 "2001:67c:27e4::60" (addresses nulRecords) := by
  have ran : ∃ result, socketGethostbyname (repliedWith nulReply) 1 64 false hostA.text emptyTable 3000
      (some "2001:67c:27e4::60") = .ok result ∧ result.ret = -1 ∧ result.ipinfo.size = 0 := by
    have computed : (socketGethostbyname (repliedWith nulReply) 1 64 false hostA.text emptyTable 3000
        (some "2001:67c:27e4::60")).toOption.any (fun result => decide (result.ret = -1 ∧ result.ipinfo.size = 0)) = true := by
      decide +kernel
    obtain ⟨result,returned,failed⟩ := returned_any computed
    exact ⟨result,returned,of_decide_eq_true failed⟩
  refine ⟨⟨by decide,rfl,by decide,48,?_⟩,⟨0,by decide,fun _ _ => rfl,by simp,rfl⟩,rfl,ran,?_⟩
  · have owner : Encodes nulReply 19 [[0]] 3 := .label (⟨by decide,by decide⟩ : Sized [0]) (by decide) (.root rfl)
    exact .cons owner (by decide) (by decide) (by decide)
      ⟨asciiName_short _ (by decide) rfl (by decide),.inl ⟨rfl,rfl⟩⟩ .nil
  · intro ⟨fuel,reports⟩
    obtain ⟨result,returned,_,size⟩ := ran
    obtain ⟨other,again,_,count,_⟩ := reports (max fuel 64) (Nat.le_max_left _ _)
    have same := (socketGethostbyname_mono returned (Nat.le_max_right fuel 64)).symm.trans again
    cases same
    rw [size] at count
    exact absurd count (by decide)

end PersonalJournal.Reply
