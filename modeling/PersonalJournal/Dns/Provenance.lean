import Mathlib.Data.Fintype.Pigeonhole
import PersonalJournal.Dns.Reply

namespace PersonalJournal.Provenance
open Bytes DomainName ResourceRecord ReadName NameAllocation Query Nat64 Answer AnswerWalk Reply

def questionCount (message : List UInt8) : Option Nat := read16 message 4

-- The records announced for the three sections behind the questions.
def recordCount (message : List UInt8) : Option Nat := do
  let answers ← read16 message 6
  let authorities ← read16 message 8
  let additionals ← read16 message 10
  return answers+authorities+additionals

inductive Questions (message : List UInt8) : Nat → Nat → Nat → Prop where
  | nil : Questions message 0 i i
  | cons : Encodes message i labels n → Questions message left (i+n+questionSize) j →
      Questions message (left+1) i j

def Numbered (message : List UInt8) (k : Nat) (p : Place) : Prop :=
  ∃ questions start total places final, questionCount message = some questions ∧
    Questions message questions headerSize start ∧ recordCount message = some total ∧ places.length ≤ total ∧
    Places message start places final ∧ places[k]? = some p

-- An address in a record of the message, as it was sent.
structure Address (message : List UInt8) (k : Nat) (p : Place) : Prop where
  numbered : Numbered message k p
  type : p.record.type = AAAA
  size : p.record.rdata.length = 16

def Shows (message octets : List UInt8) : Prop := ∃ k p, Address message k p ∧ p.record.rdata = octets

def Genuine (message : List UInt8) (off : Nat) : Prop := ∃ k p, Address message k p ∧ p.fixed = off

-- Something else taken for the RDATA of an address, of which sixteen octets are stored
-- that happen to be those of an address in the message. From fifteen octets and the zero
-- behind them, or from more, they are known; from fewer they end in what malloc left there.
def Repeats (datagram behind : List UInt8) (off : Nat) : Prop :=
  ∃ data, read16 (received datagram ++ behind) (off+dataLenOffset) = some data.length ∧
    At (received datagram ++ behind) (off+fixedSize) data ∧ 15 ≤ data.length ∧
    Shows datagram (data.take 16 ++ List.replicate (16-data.length) 0)

-- Where malloc and realloc answer like this, whatever is in their blocks and whatever follows
-- recv_buf in memory, a lookup that gets this datagram and returns has put only addresses of it
-- in the table.
def OnlyReceived (grants : Nat → Bool) (pid : Nat) (host : List UInt8) (ipinfo : SocketIpinfo) (timeout : Int)
    (dnsserver : String) (datagram : List UInt8) : Prop :=
  ∀ env fuel result, env.alloc.grants = grants → env.opens = true → Delivers env (effective timeout) datagram →
    socketGethostbyname env pid fuel false host ipinfo timeout (some dnsserver) = .ok result →
    ∀ a ∈ result.ipinfo.stored.drop ipinfo.stored.length, Shows datagram a.s6_addr

-- The fixed parts of TYPE AAAA that the next `left` turns of ReadRecvAnswer come by, by their
-- offsets, where all RDATA behind them is granted a block.
inductive Takes (grants : Nat → Bool) (buffer : List UInt8) : Nat → Nat → Nat → List Nat → Prop where
  | nil : Takes grants buffer 0 i c []
  | address : Reads grants buffer i c n used → read16 buffer (i+n) = some AAAA →
      read16 buffer (i+n+dataLenOffset) = some data.length → At buffer (i+n+fixedSize) data → grants used = true →
      Takes grants buffer left (i+n+fixedSize+data.length) (used+1) offs → Takes grants buffer (left+1) i c ((i+n) :: offs)
  | other : Reads grants buffer i c n used → read16 buffer (i+n) = some type → type ≠ AAAA →
      Reads grants buffer (i+n+fixedSize) used m used' → Takes grants buffer left (i+n+fixedSize+m) used' offs →
      Takes grants buffer (left+1) i c offs

-- The question is in send_buf and ends before start, where the answers are looked for.
structure Asked (pid : Nat) (host : List UInt8) (start : Nat) : Prop where
  packed : ∃ sendBuf host', prepareDnsQueryPacket pid (List.replicate sendBufSize 0) host = some (sendBuf,host') ∧
    sendPacklen sendBuf = some start

theorem lookup_heard (asked : Asked pid host start) (opens : env.opens = true)
    (delivered : Delivers env (effective timeout) datagram) (counted : answerCount (received datagram) = some count)
    (fuel : Nat) (ipinfo : SocketIpinfo) (dnsserver : String) :
    ∃ host' sent, socketGethostbyname env pid fuel false host ipinfo timeout (some dnsserver) = (do
      let answers ← readRecvAnswer env.alloc fuel (received datagram ++ env.behind) count start 0
      let full ← collect (received datagram ++ env.behind) answers count 0 ipinfo
      .ok ⟨if full.size ≤ 0 then -1 else 0,full,host',sent,!decide (full.size ≤ 0)⟩) := by
  obtain ⟨sendBuf,host',packed,length⟩ := asked.packed
  exact ⟨host',socketGethostbyname_run opens packed length (delivered.exchanged _) counted fuel ipinfo dnsserver⟩

-- The block that comes of the fixed part at off.
def Taken (alloc : Allocator) (buffer : List UInt8) (off : Nat) (block : Block) : Prop :=
  ∃ data call, read16 buffer (off+dataLenOffset) = some data.length ∧ At buffer (off+fixedSize) data ∧
    block = filled (alloc.content call) data

theorem finds_takes (finds : Finds AAAA alloc buffer left i c found) :
    ∃ offs, Takes alloc.grants buffer left i c offs ∧ List.Forall₂ (Taken alloc buffer) offs found := by
  induction finds with
  | nil => exact ⟨[],.nil,.nil⟩
  | cons turns _ ih =>
      obtain ⟨offs,takes,taken⟩ := ih
      cases turns with
      | @address n before data reads type size held granted =>
          exact ⟨_,.address reads type size held granted takes,.cons ⟨data,before,size,held,rfl⟩ taken⟩
      | other reads type differ target => exact ⟨_,.other reads type differ target takes,taken⟩

theorem takes_finds (takes : Takes alloc.grants buffer left i c offs) :
    ∃ found, Finds AAAA alloc buffer left i c found ∧ List.Forall₂ (Taken alloc buffer) offs found := by
  induction takes with
  | nil => exact ⟨[],.nil,.nil⟩
  | @address i c n before data left offs reads type size held granted _ ih =>
      obtain ⟨found,finds,taken⟩ := ih
      exact ⟨_,.cons (.address reads type size held granted) finds,.cons ⟨data,before,size,held,rfl⟩ taken⟩
  | other reads type differ target _ ih =>
      obtain ⟨found,finds,taken⟩ := ih
      exact ⟨_,.cons (.other reads type differ target) finds,taken⟩

theorem left_partner {r : α → β → Prop} (all : List.Forall₂ r l l') (member : a ∈ l) : ∃ b ∈ l', r a b := by
  induction all with
  | nil => cases member
  | cons here _ ih =>
      rcases List.mem_cons.mp member with rfl | later
      · exact ⟨_,List.mem_cons_self,here⟩
      · obtain ⟨b,inside,related⟩ := ih later
        exact ⟨b,List.mem_cons_of_mem _ inside,related⟩

theorem filled_long (content : Block) (long : 15 ≤ data.length) :
    (octets16 (filled content data)).s6_addr = data.take 16 ++ List.replicate (16-data.length) 0 := by
  refine List.ext_getElem (by simp [octets16]; omega) ?_
  intro k first _
  have near : k < 16 := by simpa [octets16] using first
  rcases Nat.lt_or_ge k data.length with inside | behind
  · simp [octets16,filled,List.getElem?_append_left inside,List.getElem_append_left,inside,near]
  · obtain ⟨rfl,fifteen⟩ : k = 15 ∧ data.length = 15 := by omega
    simp [octets16,filled,fifteen]

theorem filled_short (content : Block) (short : data.length < 15) :
    (octets16 (filled content data)).s6_addr[15]? = some (content 15) := by
  have behind : (data ++ [0])[15]? = none := List.getElem?_eq_none (by
    rw [List.length_append]
    exact short)
  simp [octets16,filled,behind]

theorem Questions.unique (one : Questions message left i j) (two : Questions message left i j') : j = j' := by
  induction one with
  | nil =>
      cases two
      rfl
  | cons name _ ih =>
      cases two with
      | cons name' later =>
          cases name.unique name'
          exact ih later

theorem Questions.far (questions : Questions message left i j) : i+(questionSize+1)*left ≤ j := by
  induction questions with
  | nil => exact Nat.le_refl _
  | cons name _ ih =>
      have occupied := name.occupies
      rw [Nat.mul_succ]
      omega

theorem Numbered.unique (one : Numbered message k p) (two : Numbered message k q) : p.fixed = q.fixed := by
  obtain ⟨_,_,_,_,_,count,questions,_,_,places,here⟩ := one
  obtain ⟨_,_,_,_,_,count',questions',_,_,places',there⟩ := two
  cases count.symm.trans count'
  exact places.unique places' (questions.unique questions') here there

theorem Numbered.stands (numbered : Numbered message k p) : p.Stands message := by
  obtain ⟨_,_,_,_,_,_,_,_,_,places,here⟩ := numbered
  exact places.stands p (List.mem_of_getElem? here)

theorem Address.announced (address : Address message k p) : read16 message (p.fixed+dataLenOffset) = some 16 := by
  have stands := address.numbered.stands
  rw [← address.size]
  exact fixed_rdlength stands.size (at_append.mp stands.held).1

theorem Address.held (address : Address message k p) : At message (p.fixed+fixedSize) p.record.rdata := by
  have held := (at_append.mp address.numbered.stands.held).2
  rwa [p.record.fixed_length] at held

theorem Address.far (address : Address message k p) :
    ∃ questions, questionCount message = some questions ∧
      headerSize+(questionSize+1)*questions+(fixedSize+1)*k+1 ≤ p.fixed ∧ p.fixed+fixedSize+16 ≤ message.length := by
  obtain ⟨questions,start,_,_,_,count,asked,_,_,places,here⟩ := address.numbered
  have first := asked.far
  have later := places.far here
  have last := address.held.get (k:=15) (by rw [address.size]; decide)
  have inside := (List.getElem?_eq_some_iff.mp last).1
  exact ⟨questions,count,by omega,by omega⟩

-- A datagram has fewer records than an octet has values.
theorem unshown (short : datagram.length ≤ recvBufSize) :
    ∃ v, ∀ octets, Shows datagram octets → octets[15]? ≠ some v := by
  by_contra all
  push Not at all
  choose octets shows last using all
  choose k p address rdata using shows
  have near : ∀ v, k v < 255 := by
    intro v
    obtain ⟨_,_,first,behind⟩ := (address v).far
    rw [recvBufSize] at short
    rw [headerSize,fixedSize] at first
    rw [fixedSize] at behind
    omega
  have apart : ∀ v w, k v = k w → v = w := by
    intro v w same
    have place := (address v).numbered.unique (same ▸ (address w).numbered)
    have held := (address v).held
    rw [place] at held
    have equal := at_unique held (address w).held (by rw [(address v).size,(address w).size])
    rw [rdata,rdata] at equal
    exact Option.some.inj ((last v).symm.trans ((congrArg (·[15]?) equal).trans (last w)))
  obtain ⟨x,y,differ,same⟩ := Fintype.exists_ne_map_eq_of_card_lt
    (fun x : Fin 256 => (⟨k (UInt8.ofNat x),near _⟩ : Fin 255)) (by rw [Fintype.card_fin,Fintype.card_fin]; decide)
  have octet := congrArg UInt8.toNat (apart _ _ (Fin.val_eq_of_eq same))
  rw [UInt8.toNat_ofNat_of_lt' x.isLt,UInt8.toNat_ofNat_of_lt' y.isLt] at octet
  exact differ (Fin.ext octet)

-- What a lookup adds to the table is what it takes.
theorem lookup_taken {ipinfo : SocketIpinfo} (asked : Asked pid host start) (opens : env.opens = true)
    (delivered : Delivers env (effective timeout) datagram) (counted : answerCount (received datagram) = some count)
    (low : 0 ≤ ipinfo.size) (room : ipinfo.size+count ≤ socketMaxIpCount)
    (returned : socketGethostbyname env pid fuel false host ipinfo timeout (some dnsserver) = .ok result) :
    ∃ offs found, Takes env.alloc.grants (received datagram ++ env.behind) count start 0 offs ∧
      List.Forall₂ (Taken env.alloc (received datagram ++ env.behind)) offs found ∧
      result.ipinfo.stored.drop ipinfo.stored.length = found.map octets16 := by
  obtain ⟨host',sent,heard⟩ := lookup_heard asked opens delivered counted fuel ipinfo dnsserver
  rw [heard] at returned
  obtain ⟨answers,read,later⟩ := bind_ok.mp returned
  obtain ⟨full,collected,same⟩ := bind_ok.mp later
  obtain ⟨found,finds,folded⟩ := (collected_found SocketIpinfo.add ipinfo full).mp ⟨fuel,answers,read,collected⟩
  obtain ⟨offs,takes,taken⟩ := finds_takes finds
  have few := finds.few
  obtain ⟨full',again,_,stored⟩ := ipinfo_fills.all found ipinfo low (by omega)
  cases folded.symm.trans again
  cases same
  refine ⟨offs,found,takes,taken,?_⟩
  rw [stored,List.drop_left]

theorem takes_lookup {ipinfo : SocketIpinfo} (asked : Asked pid host start) (opens : env.opens = true)
    (delivered : Delivers env (effective timeout) datagram) (counted : answerCount (received datagram) = some count)
    (low : 0 ≤ ipinfo.size) (room : ipinfo.size+count ≤ socketMaxIpCount)
    (takes : Takes env.alloc.grants (received datagram ++ env.behind) count start 0 offs) (dnsserver : String) :
    ∃ fuel result found, socketGethostbyname env pid fuel false host ipinfo timeout (some dnsserver) = .ok result ∧
      List.Forall₂ (Taken env.alloc (received datagram ++ env.behind)) offs found ∧
      result.ipinfo.stored.drop ipinfo.stored.length = found.map octets16 := by
  obtain ⟨found,finds,taken⟩ := takes_finds takes
  have few := finds.few
  obtain ⟨full,folded,_,stored⟩ := ipinfo_fills.all found ipinfo low (by omega)
  obtain ⟨fuel,answers,read,collected⟩ := (collected_found SocketIpinfo.add ipinfo full).mpr ⟨found,finds,folded⟩
  obtain ⟨host',sent,heard⟩ := lookup_heard asked opens delivered counted fuel ipinfo dnsserver
  rw [readRecvAnswer,read,ok_bind,collect,collected,ok_bind] at heard
  refine ⟨fuel,_,found,heard,taken,?_⟩
  rw [stored,List.drop_left]

-- Malloc with the same octet everywhere in its blocks.
def stained (grants : Nat → Bool) (v : UInt8) (behind datagram : List UInt8) : Env :=
  ⟨⟨grants,fun _ _ => v⟩,behind,true,fun _ => true,fun _ _ => some datagram⟩

theorem stained_delivers (grants : Nat → Bool) (v : UInt8) (behind datagram : List UInt8) (timeout : Int) :
    Delivers (stained grants v behind datagram) timeout datagram :=
  ⟨0,by decide,fun _ _ => rfl,fun _ before => absurd before (Nat.not_lt_zero _),rfl⟩

-- What is taken at a genuine address is that address and no other octets.
theorem genuine_taken (short : datagram.length ≤ recvBufSize) (genuine : Genuine datagram off)
    (taken : Taken alloc (received datagram ++ behind) off block) : Shows datagram (octets16 block).s6_addr := by
  obtain ⟨k,p,address,rfl⟩ := genuine
  obtain ⟨data,call,size,held,rfl⟩ := taken
  rw [received,buffered_short short,List.append_assoc] at size held
  have whole := Option.some.inj (size.symm.trans (read16_extend address.announced _))
  have same := at_unique held (address.held.extend _) (whole.trans address.size.symm)
  rw [octets16_filled _ whole]
  exact ⟨k,p,address,same.symm⟩

theorem only_received {ipinfo : SocketIpinfo} (asked : Asked pid host start) (short : datagram.length ≤ recvBufSize)
    (counted : answerCount (received datagram) = some count) (low : 0 ≤ ipinfo.size)
    (room : ipinfo.size+count ≤ socketMaxIpCount) (grants : Nat → Bool) :
    OnlyReceived grants pid host ipinfo timeout dnsserver datagram ↔
      ∀ behind offs, Takes grants (received datagram ++ behind) count start 0 offs →
        ∀ off ∈ offs, Genuine datagram off ∨ Repeats datagram behind off := by
  constructor
  · intro only behind offs takes off member
    right
    obtain ⟨v,absent⟩ := unshown short
    have opens : (stained grants v behind datagram).opens = true := rfl
    have delivered := stained_delivers grants v behind datagram (effective timeout)
    obtain ⟨fuel,result,found,returned,taken,list⟩ := takes_lookup asked opens delivered counted low room takes dnsserver
    obtain ⟨block,kept,data,call,size,held,rfl⟩ := left_partner taken member
    have shown := only _ fuel result rfl opens delivered returned _ (list ▸ List.mem_map_of_mem kept)
    by_cases long : 15 ≤ data.length
    · rw [filled_long _ long] at shown
      exact ⟨data,size,held,long,shown⟩
    · exact absurd (filled_short _ (Nat.not_le.mp long)) (absent _ shown)
  · intro every env fuel result granted opens delivered returned a member
    obtain ⟨offs,found,takes,taken,list⟩ := lookup_taken asked opens delivered counted low room returned
    rw [list] at member
    obtain ⟨block,kept,rfl⟩ := List.mem_map.mp member
    obtain ⟨off,inside,one⟩ := left_partner taken.flip kept
    rcases every env.behind offs (granted ▸ takes) off inside with genuine | ⟨data',size',held',long,shows⟩
    · exact genuine_taken short genuine one
    · obtain ⟨data,call,size,held,rfl⟩ := one
      have same := at_unique held held' (Option.some.inj (size.symm.trans size'))
      rw [← same] at long shows
      rwa [filled_long _ long]

theorem asked_hostA : Asked 1 hostA.text 19 := by
  refine ⟨_,_,prepareDnsQueryPacket_exact hostA 1,?_⟩
  rw [sendPacklen_exact]
  rfl

theorem only_received_alias :
    OnlyReceived (fun _ => true) 1 hostA.text emptyTable 3000 "2001:67c:27e4::60" aliasReply ↔
      ∀ behind offs, Takes (fun _ => true) (received aliasReply ++ behind) 2 19 0 offs →
        ∀ off ∈ offs, Genuine aliasReply off ∨ Repeats aliasReply behind off :=
  only_received asked_hostA (by decide) (by decide +kernel) (by decide) (by decide) (fun _ => true)

-- A reply cut off behind the first four octets of its only address.
def cutReply : List UInt8 :=
  [0,0,129,128,0,1,0,1,0,0,0,0,1,97,0,0,28,0,1] ++ [192,12,0,28,0,1,0,0,0,0,0,16] ++ [32,1,13,184]

-- The other twelve octets are the zeros recv_buf was filled with.
theorem cut_address_completed :
    (∃ result, socketGethostbyname (repliedWith cutReply) 1 64 false hostA.text emptyTable 3000
      (some "2001:67c:27e4::60") = .ok result ∧ result.ret = 0 ∧
      result.ipinfo.stored.map In6Addr.s6_addr = [[32,1,13,184,0,0,0,0,0,0,0,0,0,0,0,0]]) ∧
    ¬ OnlyReceived (fun _ => true) 1 hostA.text emptyTable 3000 "2001:67c:27e4::60" cutReply := by
  have ran : ∃ result, socketGethostbyname (repliedWith cutReply) 1 64 false hostA.text emptyTable 3000
      (some "2001:67c:27e4::60") = .ok result ∧ result.ret = 0 ∧
      result.ipinfo.stored.map In6Addr.s6_addr = [[32,1,13,184,0,0,0,0,0,0,0,0,0,0,0,0]] := by
    have computed : (socketGethostbyname (repliedWith cutReply) 1 64 false hostA.text emptyTable 3000
        (some "2001:67c:27e4::60")).toOption.any (fun result => decide (result.ret = 0 ∧
          result.ipinfo.stored.map In6Addr.s6_addr = [[32,1,13,184,0,0,0,0,0,0,0,0,0,0,0,0]])) = true := by decide +kernel
    obtain ⟨result,returned,failed⟩ := returned_any computed
    exact ⟨result,returned,of_decide_eq_true failed⟩
  refine ⟨ran,?_⟩
  intro only
  obtain ⟨result,returned,_,stored⟩ := ran
  have kept := only (repliedWith cutReply) 64 result rfl rfl
    ⟨0,by decide,fun _ _ => rfl,by simp,rfl⟩ returned
  have some : result.ipinfo.stored ≠ [] := by
    intro none
    rw [none] at stored
    cases stored
  obtain ⟨a,member⟩ := List.exists_mem_of_ne_nil _ some
  obtain ⟨k,p,address,_⟩ := kept a member
  obtain ⟨questions,count,first,last⟩ := address.far
  cases count
  simp only [headerSize,questionSize,fixedSize] at first last
  have length : cutReply.length = 35 := rfl
  omega

end PersonalJournal.Provenance
