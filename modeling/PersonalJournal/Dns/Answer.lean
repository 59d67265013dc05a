import PersonalJournal.Lib.ResourceRecord
import PersonalJournal.Dns.Query
import PersonalJournal.Dns.Nat64

namespace PersonalJournal.Answer
open Bytes DomainName ResourceRecord ReadName Query Nat64

def orFault : Option α → Except Stop α
  | none => .error .fault
  | some a => .ok a

def socketMaxIpCount : Nat := 20
def ansCountOffset : Nat := 6
def dataLenOffset : Nat := 8
def defaultTimeout : Int := 3000
def recvBufSize : Nat := 2048

-- struct RES_RECORD: `none` is NULL, and resource is an offset in recv_buf.
structure ResRecord where
  name : Option Block
  resource : Option Nat
  rdata : Option Block

def ResRecord.zero : ResRecord := ⟨none,none,none⟩

def copyOctets (rdata : Block) (buffer : List UInt8) (reader : Nat) : Nat → Except Stop Block
  | 0 => .ok rdata
  | n+1 => do
    let rdata ← copyOctets rdata buffer reader n
    let c ← orFault buffer[reader+n]?
    return rdata.put n c

def answerCount (buffer : List UInt8) : Option Nat := do
  let count ← read16 buffer ansCountOffset
  return min socketMaxIpCount count

-- One turn of the loop of ReadRecvAnswer, for the type of record that is copied: the entry it
-- fills in and, unless malloc fails for its RDATA, the reader and the number of allocator calls
-- of the next turn.
def recvTurn (wanted : Nat) (alloc : Allocator) (fuel : Nat) (buffer : List UInt8) (reader calls : Nat) :
    Except Stop (ResRecord × Option (Nat × Nat)) := do
  let owner ← readName alloc calls fuel reader buffer
  let resource := reader+owner.count
  let reader := resource+fixedSize
  let type ← orFault (read16 buffer resource)
  if type = wanted then
    let dataLen ← orFault (read16 buffer (resource+dataLenOffset))
    if alloc.grants owner.calls then
      let rdata ← copyOctets (alloc.content owner.calls) buffer reader dataLen
      return (⟨owner.name,some resource,some (rdata.put dataLen 0)⟩,some (reader+dataLen,owner.calls+1))
    else return (⟨owner.name,some resource,none⟩,none)
  else
    let rdata ← readName alloc owner.calls fuel reader buffer
    return (⟨owner.name,some resource,rdata.name⟩,some (reader+rdata.count,rdata.calls))

-- The loop with `left` turns to go; entries it does not reach stay zero.
def readAnswers (wanted : Nat) (alloc : Allocator) (fuel : Nat) (buffer : List UInt8) :
    Nat → Nat → Nat → Except Stop (List ResRecord)
  | 0,_,_ => .ok []
  | left+1,reader,calls => do
    let (answer,onward) ← recvTurn wanted alloc fuel buffer reader calls
    match onward with
    | none => return [answer]
    | some (reader,calls) => do
      let rest ← readAnswers wanted alloc fuel buffer left reader calls
      return answer :: rest

def readRecvAnswer (alloc : Allocator) (fuel : Nat) (buffer : List UInt8) (left reader calls : Nat) :
    Except Stop (List ResRecord) := readAnswers AAAA alloc fuel buffer left reader calls

-- The stores to slot `size` of an array of a table.
def storeSlot (slots : Vector α 20) (size : Int) (a : α) : Option (Vector α 20) :=
  if 0 ≤ size ∧ size < socketMaxIpCount then some (slots.setIfInBounds size.toNat a) else none

structure SocketIpinfo where
  size : Int
  v6_addr : Vector In6Addr 20
  deriving DecidableEq

def SocketIpinfo.stored (t : SocketIpinfo) : List In6Addr := t.v6_addr.toList.take t.size.toNat

-- The sixteen octet stores to v6_addr[size], and the increment behind them.
def SocketIpinfo.store (t : SocketIpinfo) (a : In6Addr) : Option SocketIpinfo :=
  (storeSlot t.v6_addr t.size a).map (fun slots => {t with v6_addr := slots})

def SocketIpinfo.bump (t : SocketIpinfo) : SocketIpinfo := {t with size := t.size+1}

def octets16 (rdata : Block) : In6Addr := ⟨(List.range 16).map rdata,by simp⟩

def SocketIpinfo.add (t : SocketIpinfo) (rdata : Block) : Option SocketIpinfo :=
  (t.store (octets16 rdata)).map SocketIpinfo.bump

-- The loop over the answers, for what it does with RDATA of the type that is copied.
def collectWith (wanted : Nat) (add : τ → Block → Option τ) (buffer : List UInt8) (answers : List ResRecord) :
    Nat → Nat → τ → Except Stop τ
  | 0,_,t => .ok t
  | left+1,i,t => do
    let answer := answers[i]?.getD .zero
    let resource ← orFault answer.resource
    let type ← orFault (read16 buffer resource)
    if type = wanted then
      let rdata ← orFault answer.rdata
      let t ← orFault (add t rdata)
      collectWith wanted add buffer answers left (i+1) t
    else collectWith wanted add buffer answers left (i+1) t

def collect (buffer : List UInt8) (answers : List ResRecord) (left i : Nat) (t : SocketIpinfo) : Except Stop SocketIpinfo :=
  collectWith AAAA SocketIpinfo.add buffer answers left i t

-- The world of one call. `receives` answers RecvWithinTime, `none` standing for -1, and `behind`
-- is the memory that follows recv_buf, as far as it can be read.
structure Env where
  alloc : Allocator
  behind : List UInt8
  opens : Bool
  sends : Nat → Bool
  receives : Nat → Int → Option (List UInt8)

-- recvfrom cuts a datagram at the end of the buffer and leaves the rest of it zero.
def buffered (size : Nat) : Option (List UInt8) → List UInt8
  | none => List.replicate size 0
  | some datagram => datagram.take size ++ List.replicate (size-datagram.length) 0

def received (datagram : List UInt8) : List UInt8 := buffered recvBufSize (some datagram)

-- The attempts from number i on: the datagram that arrives, if any, and the packets sent.
def attempts (env : Env) (timeout : Int) (packet : List UInt8) :
    Nat → Nat → Option (List UInt8) × List (List UInt8)
  | 0,_ => (none,[])
  | left+1,i =>
    if env.sends i then
      match env.receives i timeout with
      | some datagram => (some datagram,[packet])
      | none =>
        let later := attempts env timeout packet left (i+1)
        (later.1,packet :: later.2)
    else (none,[])

-- recv_buf when the attempts are over, and the packets sent.
def exchange (env : Env) (timeout : Int) (packet : List UInt8) (left i : Nat) : List UInt8 × List (List UInt8) :=
  let (datagram,sent) := attempts env timeout packet left i
  (buffered recvBufSize datagram,sent)

structure Lookup where
  ret : Int
  ipinfo : SocketIpinfo
  host : List UInt8
  sent : List (List UInt8)
  locked : Bool

def socketGethostbyname (env : Env) (pid fuel : Nat) (locked : Bool) (host : List UInt8) (ipinfo : SocketIpinfo)
    (timeout : Int) (dnsserver : Option String) : Except Stop Lookup :=
  match dnsserver with
  | none => .ok ⟨-1,ipinfo,host,[],locked⟩
  | some _ =>
    let timeout := if timeout ≤ 0 then defaultTimeout else timeout
    if env.opens then do
      let (sendBuf,host) ← orFault (prepareDnsQueryPacket pid (List.replicate sendBufSize 0) host)
      let packlen ← orFault (sendPacklen sendBuf)
      let (recvBuf,sent) := exchange env timeout (sendBuf.take packlen) 3 0
      let count ← orFault (answerCount recvBuf)
      -- nothing keeps the reader from running on into what follows recv_buf
      let answers ← readRecvAnswer env.alloc fuel (recvBuf ++ env.behind) count packlen 0
      if locked then .error .blocked
      else
        let ipinfo ← collect (recvBuf ++ env.behind) answers count 0 ipinfo
        -- the mutex is given back on the failure path only
        if ipinfo.size ≤ 0 then return ⟨-1,ipinfo,host,sent,false⟩
        else return ⟨0,ipinfo,host,sent,true⟩
    else .ok ⟨-1,ipinfo,host,[],locked⟩

theorem bind_ok {x : Except Stop α} {f : α → Except Stop β} :
    x >>= f = .ok b ↔ ∃ a, x = .ok a ∧ f a = .ok b := by
  cases x with
  | error stop => simp [bind,Except.bind]
  | ok a => simp [bind,Except.bind]

theorem bind_error {x : Except Stop α} {f : α → Except Stop β} :
    x >>= f = .error stop ↔ x = .error stop ∨ ∃ a, x = .ok a ∧ f a = .error stop := by
  cases x with
  | error stop => simp [bind,Except.bind]
  | ok a => simp [bind,Except.bind]

theorem ok_bind (a : α) (f : α → Except Stop β) : (.ok a : Except Stop α) >>= f = f a := rfl

theorem pure_ok (a : α) : (pure a : Except Stop α) = .ok a := rfl

theorem orFault_some (a : α) : orFault (some a) = .ok a := rfl

theorem orFault_ok : orFault x = .ok a ↔ x = some a := by
  cases x <;> simp [orFault]

theorem orFault_error : orFault x = .error stop ↔ x = none ∧ stop = .fault := by
  cases x <;> simp [orFault,eq_comm]

-- What a run on fixed octets returns, from a test of it.
theorem returned_any {x : Except Stop α} (tested : x.toOption.any p = true) : ∃ a, x = .ok a ∧ p a = true := by
  cases x with
  | error stop => cases tested
  | ok a => exact ⟨a,rfl,tested⟩

theorem recvTurn_mono {result : ResRecord × Option (Nat × Nat)}
    (returned : recvTurn wanted alloc fuel buffer i calls = .ok result) (enough : fuel ≤ more) :
    recvTurn wanted alloc more buffer i calls = .ok result := by
  rw [recvTurn] at returned ⊢
  obtain ⟨owner,read,returned⟩ := bind_ok.mp returned
  obtain ⟨type,found,returned⟩ := bind_ok.mp returned
  rw [readName_mono read enough,ok_bind]
  simp only [found,ok_bind]
  split at returned
  · rename_i same
    rw [if_pos same]
    exact returned
  · rename_i other
    rw [if_neg other]
    obtain ⟨rdata,target,returned⟩ := bind_ok.mp returned
    rw [readName_mono target enough,ok_bind]
    exact returned

theorem readAnswers_mono {answers : List ResRecord}
    (returned : readAnswers wanted alloc fuel buffer left reader calls = .ok answers) (enough : fuel ≤ more) :
    readAnswers wanted alloc more buffer left reader calls = .ok answers := by
  induction left generalizing reader calls answers with
  | zero => exact returned
  | succ left ih =>
      unfold readAnswers at returned ⊢
      obtain ⟨⟨answer,onward⟩,turn,returned⟩ := bind_ok.mp returned
      rw [recvTurn_mono turn enough,ok_bind]
      cases onward with
      | none => exact returned
      | some onward =>
          obtain ⟨rest,later,returned⟩ := bind_ok.mp returned
          simp only [ih later,ok_bind]
          exact returned

theorem socketGethostbyname_mono {result : Lookup}
    (returned : socketGethostbyname env pid fuel locked host ipinfo timeout dnsserver = .ok result)
    (enough : fuel ≤ more) :
    socketGethostbyname env pid more locked host ipinfo timeout dnsserver = .ok result := by
  unfold socketGethostbyname at returned ⊢
  cases dnsserver with
  | none => exact returned
  | some server =>
      dsimp only at returned ⊢
      split at returned
      · rename_i opens
        rw [if_pos opens]
        obtain ⟨prepared,sendBuf,returned⟩ := bind_ok.mp returned
        obtain ⟨packlen,size,returned⟩ := bind_ok.mp returned
        obtain ⟨count,announced,returned⟩ := bind_ok.mp returned
        obtain ⟨answers,read,returned⟩ := bind_ok.mp returned
        have read' : readRecvAnswer env.alloc more _ _ _ _ = .ok answers := readAnswers_mono read enough
        simp only [sendBuf,ok_bind,size,announced,read']
        exact returned
      · rename_i closed
        rw [if_neg closed]
        exact returned

-- The datagram arrives within the three attempts, the ones before it timing out.
def Delivers (env : Env) (timeout : Int) (datagram : List UInt8) : Prop :=
  ∃ k < 3, (∀ j ≤ k, env.sends j = true) ∧ (∀ j < k, env.receives j timeout = none) ∧
    env.receives k timeout = some datagram

theorem attempts_delivers (sent : List UInt8) (sends : ∀ j ≤ k, env.sends (i+j) = true)
    (silent : ∀ j < k, env.receives (i+j) timeout = none) (arrives : env.receives (i+k) timeout = some datagram)
    (within : k < left) : (attempts env timeout sent left i).1 = some datagram := by
  induction k generalizing left i with
  | zero =>
      obtain ⟨left,rfl⟩ : ∃ more, left = more+1 := ⟨left-1,by omega⟩
      have now : env.receives i timeout = some datagram := arrives
      have open' : env.sends i = true := sends 0 (Nat.le_refl _)
      simp [attempts,now,open']
  | succ k ih =>
      obtain ⟨left,rfl⟩ : ∃ more, left = more+1 := ⟨left-1,by omega⟩
      have now : env.receives i timeout = none := silent 0 (Nat.succ_pos _)
      have open' : env.sends i = true := sends 0 (Nat.zero_le _)
      have later : (attempts env timeout sent left (i+1)).1 = some datagram := ih (i:=i+1)
        (fun j near => by rw [Nat.add_assoc,Nat.add_comm 1]; exact sends (j+1) (Nat.succ_le_succ near))
        (fun j near => by rw [Nat.add_assoc,Nat.add_comm 1]; exact silent (j+1) (Nat.succ_lt_succ near))
        (by rw [Nat.add_assoc,Nat.add_comm 1]; exact arrives) (by omega)
      simp [attempts,now,open',later]

theorem Delivers.heard (delivered : Delivers env timeout datagram) (sent : List UInt8) :
    (attempts env timeout sent 3 0).1 = some datagram := by
  obtain ⟨k,within,sends,silent,arrives⟩ := delivered
  exact attempts_delivers sent (i:=0) (by simpa using sends) (by simpa using silent) (by simpa using arrives) within

theorem Delivers.exchanged (delivered : Delivers env timeout datagram) (sent : List UInt8) :
    (exchange env timeout sent 3 0).1 = received datagram := by
  show buffered recvBufSize (attempts env timeout sent 3 0).1 = _
  rw [delivered.heard sent]
  rfl

theorem attempts_sent (env : Env) (timeout : Int) (packet : List UInt8) (left i : Nat) :
    ∀ p ∈ (attempts env timeout packet left i).2, p = packet := by
  induction left generalizing i with
  | zero => simp [attempts]
  | succ left ih =>
      unfold attempts
      split
      · split
        · simp
        · exact List.forall_mem_cons.mpr ⟨rfl,ih (i+1)⟩
      · simp

theorem attempts_unsent {packet : List UInt8} (none_sent : (attempts env timeout packet left i).2 = []) :
    (attempts env timeout packet left i).1 = none := by
  cases left with
  | zero => rfl
  | succ left =>
      unfold attempts at none_sent ⊢
      split at none_sent
      · split at none_sent
        · cases none_sent
        · cases none_sent
      · rename_i refused
        rw [if_neg refused]

theorem buffered_short (short : datagram.length ≤ size) :
    buffered size (some datagram) = datagram ++ List.replicate (size-datagram.length) 0 := by
  rw [buffered,List.take_of_length_le short]

theorem copyOctets_holds (rdata : Block) (held : At buffer reader bytes) (near : n ≤ bytes.length) :
    ∃ copied, copyOctets rdata buffer reader n = .ok copied ∧ copied.Holds 0 (bytes.take n) := by
  induction n with
  | zero => exact ⟨rdata,rfl,by simp⟩
  | succ n ih =>
      obtain ⟨copied,before,prior⟩ := ih (by omega)
      refine ⟨copied.put n bytes[n],?_,?_⟩
      · rw [copyOctets,before,ok_bind,held.get near,orFault_some,ok_bind,pure_ok]
      · rw [List.take_succ_eq_append_getElem near]
        have pushed := copied.holds_push bytes[n] prior
        rwa [List.length_take,Nat.min_eq_left (by omega),Nat.zero_add] at pushed

theorem storeSlot_room (slots : Vector α 20) {size : Int} (low : 0 ≤ size) (room : size < socketMaxIpCount) (a : α) :
    storeSlot slots size a = some (slots.setIfInBounds size.toNat a) := if_pos ⟨low,room⟩

-- A slot of a table is set, and then the count of those in use goes up.
theorem storeSlot_kept {slots slots' : Vector α 20} (kept : storeSlot slots size a = some slots') :
    slots'.toList.take (size+1).toNat = slots.toList.take size.toNat ++ [a] := by
  unfold storeSlot at kept
  split at kept
  · rename_i inside
    cases kept
    obtain ⟨n,rfl⟩ := Int.eq_ofNat_of_zero_le inside.1
    have near : n < slots.toList.length := by
      rw [Vector.length_toList]
      exact_mod_cast inside.2
    rw [show ((n : Int)+1).toNat = n+1 by omega,Int.toNat_natCast,Vector.toList_setIfInBounds,
      List.take_succ_eq_append_getElem (by simpa using near),List.take_set_of_le (Nat.le_refl _)]
    simp
  · cases kept

theorem store_stored {t stored : SocketIpinfo} (kept : t.store a = some stored) :
    stored.size = t.size ∧ stored.bump.stored = t.stored ++ [a] := by
  obtain ⟨slots,set,rfl⟩ := Option.map_eq_some_iff.mp kept
  exact ⟨rfl,storeSlot_kept set⟩

theorem store_room (t : SocketIpinfo) (a : In6Addr) (low : 0 ≤ t.size) (room : t.size < socketMaxIpCount) :
    t.store a = some {t with v6_addr := t.v6_addr.setIfInBounds t.size.toNat a} := by
  rw [SocketIpinfo.store,storeSlot_room t.v6_addr low room]
  rfl

-- A larger table whose steps only do this to a part of it.
theorem collectWith_lift {lift : τ → υ} {add : τ → Block → Option τ} {add' : υ → Block → Option υ}
    (adds : ∀ t rdata, add' (lift t) rdata = (add t rdata).map lift)
    (collected : collectWith wanted add buffer answers left i t = .ok full) :
    collectWith wanted add' buffer answers left i (lift t) = .ok (lift full) := by
  induction left generalizing i t with
  | zero =>
      cases collected
      rfl
  | succ left ih =>
      rw [collectWith] at collected ⊢
      obtain ⟨resource,place,collected⟩ := bind_ok.mp collected
      obtain ⟨type,found,collected⟩ := bind_ok.mp collected
      simp only [place,found,ok_bind]
      split at collected
      · rename_i same
        obtain ⟨rdata,copied,collected⟩ := bind_ok.mp collected
        obtain ⟨next,added,collected⟩ := bind_ok.mp collected
        rw [if_pos same,copied,ok_bind,adds,orFault_ok.mp added,Option.map_some,orFault_some,ok_bind]
        exact ih collected
      · rename_i other
        rw [if_neg other]
        exact ih collected

-- What a step does to the count and to the entries in use of a table that has room.
structure Fills (add : τ → Block → Option τ) (size : τ → Int) (stored : τ → List α) (value : Block → α) : Prop where
  room : ∀ t rdata, 0 ≤ size t → size t < socketMaxIpCount → ∃ next, add t rdata = some next ∧ size next = size t+1 ∧
    stored next = stored t ++ [value rdata]

theorem Fills.all {add : τ → Block → Option τ} {size : τ → Int} {stored : τ → List α} {value : Block → α}
    (fills : Fills add size stored value) (found : List Block) (t : τ) (low : 0 ≤ size t)
    (room : size t+found.length ≤ socketMaxIpCount) :
    ∃ full, found.foldlM add t = some full ∧ size full = size t+found.length ∧ stored full = stored t ++ found.map value := by
  induction found generalizing t with
  | nil => exact ⟨t,rfl,by simp,by simp⟩
  | cons rdata rest ih =>
      push_cast [List.length_cons] at room
      obtain ⟨next,added,more,pushed⟩ := fills.room t rdata low (by omega)
      obtain ⟨full,done,count,list⟩ := ih next (by omega) (by omega)
      refine ⟨full,?_,?_,?_⟩
      · rw [List.foldlM_cons,added]
        exact done
      · push_cast [count,more,List.length_cons]
        omega
      · rw [list,pushed,List.map_cons,List.append_assoc,List.singleton_append]

theorem ipinfo_fills : Fills SocketIpinfo.add SocketIpinfo.size SocketIpinfo.stored octets16 := by
  refine ⟨fun t rdata low room => ?_⟩
  have kept := store_room t (octets16 rdata) low room
  exact ⟨_,by rw [SocketIpinfo.add,kept]; rfl,rfl,(store_stored kept).2⟩

def effective (timeout : Int) : Int := if timeout ≤ 0 then defaultTimeout else timeout

-- A call whose question is packed and whose exchange is over: what is left is the parse.
theorem socketGethostbyname_run (opens : env.opens = true)
    (packed : prepareDnsQueryPacket pid (List.replicate sendBufSize 0) host = some (sendBuf,host'))
    (length : sendPacklen sendBuf = some start)
    (heard : (exchange env (effective timeout) (sendBuf.take start) 3 0).1 = recvBuf)
    (counted : answerCount recvBuf = some count) (fuel : Nat) (ipinfo : SocketIpinfo) (dnsserver : String) :
    ∃ sent, socketGethostbyname env pid fuel false host ipinfo timeout (some dnsserver) = (do
      let answers ← readRecvAnswer env.alloc fuel (recvBuf ++ env.behind) count start 0
      let full ← collect (recvBuf ++ env.behind) answers count 0 ipinfo
      .ok ⟨if full.size ≤ 0 then -1 else 0,full,host',sent,!decide (full.size ≤ 0)⟩) := by
  refine ⟨(exchange env (effective timeout) (sendBuf.take start) 3 0).2,?_⟩
  rw [effective] at heard
  simp only [socketGethostbyname,if_pos opens,packed,orFault_some,ok_bind,length,heard,counted,effective,
    Bool.false_eq_true,if_false]
  cases readRecvAnswer env.alloc fuel (recvBuf ++ env.behind) count start 0 with
  | error stop => rfl
  | ok answers =>
      simp only [ok_bind]
      cases collect (recvBuf ++ env.behind) answers count 0 ipinfo with
      | error stop => rfl
      | ok full =>
          simp only [ok_bind]
          by_cases empty : full.size ≤ 0
          · simp only [if_pos empty,pure_ok,decide_eq_true empty,Bool.not_true]
          · simp only [if_neg empty,pure_ok,decide_eq_false empty,Bool.not_false]

def hostA : HostName where
  labels := [[97]]
  named := by decide
  sized := by unfold Sized; decide
  ascii := ascii_all rfl
  nulFree := by unfold NulFree; decide
  dotFree := by decide
  short := by decide

def emptyTable : SocketIpinfo := ⟨0,Vector.replicate 20 ⟨List.replicate 16 0,rfl⟩⟩

-- 2001:db8::1
def address1 : In6Addr := ⟨[32,1,13,184,0,0,0,0,0,0,0,0,0,0,0,1],rfl⟩

def repliedWith (datagram : List UInt8) : Env := ⟨willing,[],true,fun _ => true,fun _ _ => some datagram⟩

end PersonalJournal.Answer
