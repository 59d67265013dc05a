import PersonalJournal.Lib.Allocation
import PersonalJournal.Dns.Answer

namespace PersonalJournal.AnswerHeap
open Bytes DomainName ResourceRecord ReadName Query Answer
open Allocation (Heap block tryMalloc_some)

-- What ReadName and ReadRecvAnswer take a block for.
inductive Use where
  | name
  | rdata (size : Nat)
  deriving DecidableEq

abbrev Places := Allocation.Allocator Use

-- timesForRealloc goes up where realloc has given the block back and a larger one out.
def regrow (places : Places) (s next : Scan) (m : Heap Use × Nat) : Option (Heap Use × Nat) :=
  if s.timesForRealloc < next.timesForRealloc then
    (m.1.free m.2).map (fun h => (h.malloc places .name,places.place h))
  else some m

-- ReadName with the heap and the pointer that it returns.
def readName (alloc : Allocator) (places : Places) (calls fuel reader : Nat) (buffer : List UInt8) (h : Heap Use) :
    Except Stop (NameRead × Option Nat × Heap Use) :=
  if alloc.grants calls then
    let name := (alloc.content calls).put 0 0
    match Loop.run (Loop.carryTurn (scanTurn alloc buffer) (regrow places)) fuel
        (⟨reader,name,0,false,1,0,calls+1⟩,(h.malloc places .name,places.place h)) with
    | none => .error .spin
    | some none => .error .fault
    | some (some (.fault,_)) => .error .fault
    | some (some (.outOfMemory s,(h,name))) => do
        let h ← orFault (h.free name)
        return (⟨none,s.count,s.calls,false⟩,none,h)
    | some (some (.complete s,(h,name))) => do
        let read ← finish s
        return (read,some name,h)
  else .ok (⟨none,1,calls+1,false⟩,none,h)

-- The two pointers of struct RES_RECORD, and what the second was taken for.
structure Pointers where
  name : Option Nat
  rdata : Option Nat
  use : Use

-- How many of these stores go past the end of a block.
def storedOutside (size : Nat) (indices : List Nat) : Nat := (indices.filter (size ≤ ·)).length

-- A turn of ReadRecvAnswer with the heap: besides the entry, its pointers and the stores past the
-- end of a block of data. rdata[data_len] = '\0' comes after the copy.
def recvTurn (wanted : Nat) (alloc : Allocator) (places : Places) (fuel : Nat) (buffer : List UInt8) (reader calls : Nat)
    (h : Heap Use) : Except Stop ((ResRecord × Option (Nat × Nat)) × Pointers × Heap Use × Nat) := do
  let (owner,name,h) ← readName alloc places calls fuel reader buffer h
  let resource := reader+owner.count
  let reader := resource+fixedSize
  let type ← orFault (read16 buffer resource)
  if type = wanted then
    let dataLen ← orFault (read16 buffer (resource+dataLenOffset))
    if alloc.grants owner.calls then
      let rdata ← copyOctets (alloc.content owner.calls) buffer reader dataLen
      return ((⟨owner.name,some resource,some (rdata.put dataLen 0)⟩,some (reader+dataLen,owner.calls+1)),
        ⟨name,some (places.place h),.rdata dataLen⟩,h.malloc places (.rdata dataLen),
        storedOutside dataLen (List.range dataLen ++ [dataLen]))
    else return ((⟨owner.name,some resource,none⟩,none),⟨name,none,.name⟩,h,0)
  else
    let (rdata,pointer,h) ← readName alloc places owner.calls fuel reader buffer h
    return ((⟨owner.name,some resource,rdata.name⟩,some (reader+rdata.count,rdata.calls)),⟨name,pointer,.name⟩,h,0)

def readAnswers (wanted : Nat) (alloc : Allocator) (places : Places) (fuel : Nat) (buffer : List UInt8) :
    Nat → Nat → Nat → Heap Use → Except Stop (List ResRecord × List Pointers × Heap Use × Nat)
  | 0,_,_,h => .ok ([],[],h,0)
  | left+1,reader,calls,h => do
    let ((answer,onward),pointer,h,here) ← recvTurn wanted alloc places fuel buffer reader calls h
    match onward with
    | none => return ([answer],[pointer],h,here)
    | some (reader,calls) => do
      let (rest,pointers,h,outside) ← readAnswers wanted alloc places fuel buffer left reader calls h
      return (answer :: rest,pointer :: pointers,h,here+outside)

def freeAll : List Pointers → Heap Use → Option (Heap Use)
  | [],h => some h
  | p :: rest,h => do
    let h ← h.release p.name
    let h ← h.release p.rdata
    freeAll rest h

-- socket_gethostbyname of the file with the mutex, with the heap and the stores past a block.
def socketGethostbyname (env : Env) (places : Places) (pid fuel : Nat) (locked : Bool) (host : List UInt8)
    (ipinfo : SocketIpinfo) (timeout : Int) (dnsserver : Option String) (h : Heap Use) :
    Except Stop (Lookup × Heap Use × Nat) :=
  match dnsserver with
  | none => .ok (⟨-1,ipinfo,host,[],locked⟩,h,0)
  | some _ =>
    let timeout := if timeout ≤ 0 then defaultTimeout else timeout
    if env.opens then do
      let (sendBuf,host) ← orFault (prepareDnsQueryPacket pid (List.replicate sendBufSize 0) host)
      let packlen ← orFault (sendPacklen sendBuf)
      let (recvBuf,sent) := exchange env timeout (sendBuf.take packlen) 3 0
      let count ← orFault (answerCount recvBuf)
      let (answers,pointers,h,outside) ← readAnswers AAAA env.alloc places fuel (recvBuf ++ env.behind) count packlen 0 h
      if locked then .error .blocked
      else
        let ipinfo ← collect (recvBuf ++ env.behind) answers count 0 ipinfo
        let h ← orFault (freeAll pointers h)
        if ipinfo.size ≤ 0 then return (⟨-1,ipinfo,host,sent,false⟩,h,outside)
        else return (⟨0,ipinfo,host,sent,true⟩,h,outside)
    else .ok (⟨-1,ipinfo,host,[],locked⟩,h,0)

variable {alloc : Allocator} {places : Places} {h : Heap Use} {owned : List (Nat × Use)}

-- The one block of the loop, wherever it has moved to.
def Carries (owned : List (Nat × Use)) (m : Heap Use × Nat) : Prop := m.1.Holds ((m.2,.name) :: owned)

theorem regrow_carries (s next : Scan) (m : Heap Use × Nat) (carries : Carries owned m) :
    ∃ m', regrow places s next m = some m' ∧ Carries owned m' := by
  unfold regrow
  split
  · obtain ⟨h,freed,holds⟩ := carries.free
    exact ⟨(h.malloc places .name,places.place h),by rw [freed]; rfl,holds.malloc places .name⟩
  · exact ⟨m,rfl,carries⟩

-- ReadName with the heap is ReadName, and leaves one block more, or none where it returns NULL.
theorem readName_frame (holds : h.Holds owned) (alloc : Allocator) (places : Places) (calls fuel reader : Nat) (buffer : List UInt8) :
    ∃ pointer next, next.Holds (block .name pointer ++ owned) ∧
      readName alloc places calls fuel reader buffer h =
        (ReadName.readName alloc calls fuel reader buffer).map (fun read => (read,pointer,next)) := by
  unfold readName ReadName.readName
  split
  · dsimp only
    have start : Carries owned (h.malloc places .name,places.place h) := holds.malloc places .name
    have keeps : ∀ s next m, scanTurn alloc buffer s = .again next → Carries owned m →
        ∃ m', regrow places s next m = some m' ∧ Carries owned m' := fun s next m _ carries => regrow_carries s next m carries
    obtain ⟨m,carries,ran⟩ := Loop.run_carry (Carries owned) keeps start fuel
      ⟨reader,(alloc.content calls).put 0 0,0,false,1,0,calls+1⟩
    rw [ran]
    cases Loop.run (scanTurn alloc buffer) fuel ⟨reader,(alloc.content calls).put 0 0,0,false,1,0,calls+1⟩ with
    | none => exact ⟨none,h,holds,rfl⟩
    | some ending =>
        cases ending with
        | fault => exact ⟨none,h,holds,rfl⟩
        | outOfMemory s =>
            obtain ⟨next,freed,left⟩ := carries.free
            refine ⟨none,next,left,?_⟩
            simp only [Option.map_some,freed,orFault_some,ok_bind,pure_ok]
            rfl
        | complete s =>
            refine ⟨some m.2,m.1,carries,?_⟩
            simp only [Option.map_some]
            cases finish s with
            | error stop => rfl
            | ok read => rfl
  · exact ⟨none,h,holds,rfl⟩

def blocksOf : List Pointers → List (Nat × Use)
  | [] => []
  | p :: rest => block .name p.name ++ (block p.use p.rdata ++ blocksOf rest)

-- An answer whose data was copied into a block of its own.
def copied (buffer : List UInt8) (wanted : Nat) (answer : ResRecord) : Bool :=
  answer.rdata.isSome && decide (answer.resource.bind (read16 buffer) = some wanted)

theorem stored_once (n : Nat) : storedOutside n (List.range n ++ [n]) = 1 := by
  have inside : (List.range n).filter (n ≤ ·) = [] := by
    refine List.filter_eq_nil_iff.mpr (fun i member => ?_)
    simpa using List.mem_range.mp member
  rw [storedOutside,List.filter_append,inside]
  simp

theorem arranged (one two rest owned : List (Nat × Use)) :
    (rest ++ (two ++ (one ++ owned))).Perm (one ++ (two ++ rest) ++ owned) := by
  refine List.perm_iff_count.mpr (fun b => ?_)
  simp only [List.count_append]
  omega

-- A turn with the heap is the turn. It leaves the blocks that its entry points to, and stores one
-- octet past the end of the block that it copies data into.
theorem recvTurn_frame (holds : h.Holds owned) (wanted : Nat) (alloc : Allocator) (places : Places) (fuel : Nat)
    (buffer : List UInt8) (reader calls : Nat) :
    ∃ p next outside, next.Holds (block p.use p.rdata ++ (block .name p.name ++ owned)) ∧
      recvTurn wanted alloc places fuel buffer reader calls h =
        (Answer.recvTurn wanted alloc fuel buffer reader calls).map (fun turn => (turn,p,next,outside)) ∧
      ∀ answer onward, Answer.recvTurn wanted alloc fuel buffer reader calls = .ok (answer,onward) →
        outside = if copied buffer wanted answer = true then 1 else 0 := by
  obtain ⟨name,h1,one,named⟩ := readName_frame holds alloc places calls fuel reader buffer
  rw [recvTurn,Answer.recvTurn,named]
  cases ReadName.readName alloc calls fuel reader buffer with
  | error stop => exact ⟨⟨none,none,.name⟩,h,0,holds,rfl,fun _ _ read => by cases read⟩
  | ok owner =>
      simp only [Except.map,ok_bind]
      cases type : read16 buffer (reader+owner.count) with
      | none => exact ⟨⟨none,none,.name⟩,h,0,holds,rfl,fun _ _ read => by cases read⟩
      | some type' =>
          simp only [orFault_some,ok_bind]
          split
          · rename_i is
            cases read16 buffer (reader+owner.count+dataLenOffset) with
            | none => exact ⟨⟨none,none,.name⟩,h,0,holds,rfl,fun _ _ read => by cases read⟩
            | some dataLen =>
                simp only [orFault_some,ok_bind]
                split
                · cases copyOctets (alloc.content owner.calls) buffer (reader+owner.count+fixedSize) dataLen with
                  | error stop => exact ⟨⟨none,none,.name⟩,h,0,holds,rfl,fun _ _ read => by cases read⟩
                  | ok rdata =>
                      refine ⟨⟨name,some (places.place h1),.rdata dataLen⟩,_,_,one.malloc places (.rdata dataLen),rfl,?_⟩
                      intro answer onward read
                      cases read
                      rw [stored_once]
                      simp [copied,type,is]
                · refine ⟨⟨name,none,.name⟩,h1,0,one,rfl,?_⟩
                  intro answer onward read
                  cases read
                  rfl
          · rename_i other
            obtain ⟨pointer,h2,two,renamed⟩ := readName_frame one alloc places owner.calls fuel
              (reader+owner.count+fixedSize) buffer
            rw [renamed]
            cases ReadName.readName alloc owner.calls fuel (reader+owner.count+fixedSize) buffer with
            | error stop => exact ⟨⟨none,none,.name⟩,h,0,holds,rfl,fun _ _ read => by cases read⟩
            | ok rdata =>
                refine ⟨⟨name,pointer,.name⟩,h2,0,two,rfl,?_⟩
                intro answer onward read
                cases read
                simp [copied,type,other]

theorem readAnswers_frame (wanted : Nat) (alloc : Allocator) (places : Places) (fuel : Nat) (buffer : List UInt8)
    (left : Nat) (holds : h.Holds owned) (reader calls : Nat) :
    ∃ pointers next outside, next.Holds (blocksOf pointers ++ owned) ∧
      readAnswers wanted alloc places fuel buffer left reader calls h =
        (Answer.readAnswers wanted alloc fuel buffer left reader calls).map (fun answers => (answers,pointers,next,outside)) ∧
      ∀ answers, Answer.readAnswers wanted alloc fuel buffer left reader calls = .ok answers →
        outside = answers.countP (copied buffer wanted) := by
  induction left generalizing reader calls h owned with
  | zero => exact ⟨[],h,0,holds,rfl,fun answers read => by cases read; rfl⟩
  | succ left ih =>
      obtain ⟨p,h1,here,first,turned,once⟩ := recvTurn_frame holds wanted alloc places fuel buffer reader calls
      rw [readAnswers,Answer.readAnswers,turned]
      cases turn : Answer.recvTurn wanted alloc fuel buffer reader calls with
      | error stop => exact ⟨[],h,0,holds,rfl,fun _ read => by cases read⟩
      | ok result =>
          obtain ⟨answer,onward⟩ := result
          have once := once answer onward turn
          simp only [Except.map,ok_bind]
          cases onward with
          | none =>
              refine ⟨[p],h1,here,first.perm (arranged _ _ [] _),rfl,?_⟩
              intro answers read
              cases read
              rw [once,List.countP_singleton]
          | some onward =>
              obtain ⟨pointers,next,outside,rest,ran,count⟩ := ih first onward.1 onward.2
              simp only [ran]
              cases later : Answer.readAnswers wanted alloc fuel buffer left onward.1 onward.2 with
              | error stop => exact ⟨[],h,0,holds,rfl,fun _ read => by cases read⟩
              | ok answers =>
                  refine ⟨p :: pointers,next,here+outside,rest.perm (arranged _ _ _ _),rfl,?_⟩
                  intro all read
                  cases read
                  rw [once,count answers later,List.countP_cons,Nat.add_comm]

theorem freeAll_frame (pointers : List Pointers) (holds : h.Holds (blocksOf pointers ++ owned)) :
    ∃ next, freeAll pointers h = some next ∧ next.Holds owned := by
  induction pointers generalizing h with
  | nil => exact ⟨h,rfl,holds⟩
  | cons p rest ih =>
      rw [blocksOf,List.append_assoc,List.append_assoc] at holds
      obtain ⟨one,freed,holds⟩ := holds.release p.name
      obtain ⟨two,freed',holds⟩ := holds.release p.rdata
      obtain ⟨next,others,left⟩ := ih holds
      exact ⟨next,by simp only [freeAll,freed,freed',bind,Option.bind_some,others],left⟩

theorem readAnswers_short {answers : List ResRecord} (read : Answer.readAnswers wanted alloc fuel buffer left reader calls = .ok answers) :
    answers.length ≤ left := by
  induction left generalizing reader calls answers with
  | zero =>
      cases read
      exact Nat.le_refl 0
  | succ left ih =>
      rw [Answer.readAnswers] at read
      obtain ⟨⟨answer,onward⟩,_,read⟩ := bind_ok.mp read
      cases onward with
      | none =>
          cases read
          exact Nat.succ_le_succ (Nat.zero_le _)
      | some onward =>
          obtain ⟨rest,later,read⟩ := bind_ok.mp read
          cases read
          exact Nat.succ_le_succ (ih later)

theorem added_more {t next : SocketIpinfo} (added : t.add rdata = some next) : next.size = t.size+1 := by
  obtain ⟨stored,kept,rfl⟩ := Option.map_eq_some_iff.mp added
  exact congrArg (·+1) (store_stored kept).1

-- Where the collection goes through, every copied record has gone into the table.
theorem collect_counted {t full : SocketIpinfo} (tail : all.drop i = answers) (short : answers.length ≤ left)
    (collected : collect buffer all left i t = .ok full) : full.size = t.size+answers.countP (copied buffer AAAA) := by
  induction left generalizing i t answers with
  | zero =>
      cases collected
      rw [List.length_eq_zero_iff.mp (Nat.le_zero.mp short)]
      exact (Int.add_zero _).symm
  | succ left ih =>
      have here : all[i]? = answers.head? := by rw [← tail,List.head?_drop]
      rw [collect,collectWith,here] at collected
      cases answers with
      | nil =>
          obtain ⟨resource,missing,_⟩ := bind_ok.mp collected
          cases missing
      | cons answer rest =>
          have behind : all.drop (i+1) = rest := by rw [← List.drop_drop,tail,List.drop_one,List.tail_cons]
          have near : rest.length ≤ left := Nat.le_of_succ_le_succ short
          obtain ⟨resource,place,collected⟩ := bind_ok.mp collected
          obtain ⟨type,found,collected⟩ := bind_ok.mp collected
          have place : answer.resource = some resource := orFault_ok.mp place
          have found := orFault_ok.mp found
          split at collected
          · rename_i address
            obtain ⟨rdata,data,collected⟩ := bind_ok.mp collected
            obtain ⟨next,added,collected⟩ := bind_ok.mp collected
            have data : answer.rdata = some rdata := orFault_ok.mp data
            have counts : copied buffer AAAA answer = true := by simp [copied,place,found,address,data]
            rw [ih behind near collected,List.countP_cons_of_pos counts,added_more (orFault_ok.mp added)]
            omega
          · rename_i other
            have counts : ¬ copied buffer AAAA answer = true := by simp [copied,place,found,other]
            rw [ih behind near collected,List.countP_cons_of_neg counts]

-- Whatever the servers answer and the allocator grants: the lookup with the heap is the lookup,
-- gives back each block it has taken once, and for each address that it has added to the table
-- it has stored one octet past the end of a block of data.
theorem lookup_heap (env : Env) (places : Places) (pid fuel : Nat) (locked : Bool) (host : List UInt8) (ipinfo : SocketIpinfo)
    (timeout : Int) (dnsserver : Option String) (h : Heap Use) :
    ∃ next outside, next.Holds h.blocks ∧
      socketGethostbyname env places pid fuel locked host ipinfo timeout dnsserver h =
        (Answer.socketGethostbyname env pid fuel locked host ipinfo timeout dnsserver).map (fun found => (found,next,outside)) ∧
      ∀ found, Answer.socketGethostbyname env pid fuel locked host ipinfo timeout dnsserver = .ok found →
        found.ipinfo.size = ipinfo.size+outside := by
  have same := Heap.Holds.self h
  unfold socketGethostbyname Answer.socketGethostbyname
  cases dnsserver with
  | none => exact ⟨h,0,same,rfl,fun _ found => by cases found; exact (Int.add_zero _).symm⟩
  | some server =>
      dsimp only
      split
      · cases prepareDnsQueryPacket pid (List.replicate sendBufSize 0) host with
        | none => exact ⟨h,0,same,rfl,fun _ found => by cases found⟩
        | some prepared =>
            obtain ⟨sendBuf,host'⟩ := prepared
            cases packed : sendPacklen sendBuf with
            | none => exact ⟨h,0,same,by simp only [orFault_some,ok_bind,packed]; rfl,fun _ found => by
                simp only [orFault_some,ok_bind,packed] at found; cases found⟩
            | some packlen =>
                simp only [orFault_some,ok_bind,packed]
                generalize exchange env (if timeout ≤ 0 then defaultTimeout else timeout) (sendBuf.take packlen) 3 0 = heard
                obtain ⟨recvBuf,sent⟩ := heard
                dsimp only
                cases answerCount recvBuf with
                | none => exact ⟨h,0,same,rfl,fun _ found => by cases found⟩
                | some count =>
                    obtain ⟨pointers,h1,outside,holds,ran,counts⟩ :=
                      readAnswers_frame AAAA env.alloc places fuel (recvBuf ++ env.behind) count same packlen 0
                    obtain ⟨next,freed,left⟩ := freeAll_frame pointers holds
                    simp only [orFault_some,ok_bind,ran,readRecvAnswer]
                    cases read : Answer.readAnswers AAAA env.alloc fuel (recvBuf ++ env.behind) count packlen 0 with
                    | error stop => exact ⟨h,0,same,rfl,fun _ found => by cases found⟩
                    | ok answers =>
                        simp only [Except.map,ok_bind]
                        split
                        · exact ⟨h,0,same,rfl,fun _ found => by cases found⟩
                        · cases collected : collect (recvBuf ++ env.behind) answers count 0 ipinfo with
                          | error stop => exact ⟨h,0,same,rfl,fun _ found => by cases found⟩
                          | ok full =>
                              have size := collect_counted (List.drop_zero ..) (readAnswers_short read) collected
                              rw [← counts answers read] at size
                              refine ⟨next,outside,left,?_,?_⟩
                              · simp only [ok_bind,freed,orFault_some]
                                split <;> rfl
                              · intro found returned
                                simp only [ok_bind] at returned
                                split at returned <;> cases returned <;> exact size
      · exact ⟨h,0,same,rfl,fun _ found => by cases found; exact (Int.add_zero _).symm⟩

end PersonalJournal.AnswerHeap
