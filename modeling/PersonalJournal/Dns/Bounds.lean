import PersonalJournal.Dns.Reply

namespace PersonalJournal.Bounds
open Bytes DomainName ResourceRecord Loop ReadName NameWalk NameAllocation Query Answer RecordWalk AnswerWalk Reply

-- The indices of `_buffer` that the scan loop of ReadName reads.
inductive ScanReads (alloc : Allocator) (buffer : List UInt8) : Scan → Nat → Prop where
  | octet : ScanReads alloc buffer s s.reader
  | pointer : buffer[s.reader]? = some c → 192 ≤ c → ScanReads alloc buffer s (s.reader+1)
  | again : scanTurn alloc buffer s = .again t → ScanReads alloc buffer t k → ScanReads alloc buffer s k

def NameReads (alloc : Allocator) (buffer : List UInt8) (i calls k : Nat) : Prop :=
  alloc.grants calls = true ∧ ScanReads alloc buffer (entered alloc i calls) k

-- The indices of `_buf` that ReadRecvAnswer reads, itself or through ReadName, when it
-- has `left` answers to go and stands at reader.
inductive AnswerReads (alloc : Allocator) (buffer : List UInt8) : Nat → Nat → Nat → Nat → Prop where
  | owner : NameReads alloc buffer reader calls k → AnswerReads alloc buffer (left+1) reader calls k
  | type : readName alloc calls fuel reader buffer = .ok owner → j < 2 →
      AnswerReads alloc buffer (left+1) reader calls (reader+owner.count+j)
  | dataLen : readName alloc calls fuel reader buffer = .ok owner → read16 buffer (reader+owner.count) = some AAAA → j < 2 →
      AnswerReads alloc buffer (left+1) reader calls (reader+owner.count+dataLenOffset+j)
  | rdata : readName alloc calls fuel reader buffer = .ok owner → read16 buffer (reader+owner.count) = some AAAA →
      read16 buffer (reader+owner.count+dataLenOffset) = some len → alloc.grants owner.calls = true → j < len →
      AnswerReads alloc buffer (left+1) reader calls (reader+owner.count+fixedSize+j)
  | target : readName alloc calls fuel reader buffer = .ok owner → read16 buffer (reader+owner.count) = some type →
      type ≠ AAAA → NameReads alloc buffer (reader+owner.count+fixedSize) owner.calls k →
      AnswerReads alloc buffer (left+1) reader calls k
  | onward : recvTurn AAAA alloc fuel buffer reader calls = .ok (answer,some (reader',calls')) →
      AnswerReads alloc buffer left reader' calls' k → AnswerReads alloc buffer (left+1) reader calls k

-- The way of the reader from octet i leads over the end of the buffer.
inductive Escapes (buffer : List UInt8) : Nat → Prop where
  | outside : buffer.length ≤ i → Escapes buffer i
  | cut : buffer[i]? = some c → 192 ≤ c → buffer.length ≤ i+1 → Escapes buffer i
  | step : next buffer i = some j → Escapes buffer j → Escapes buffer i

-- ReadName follows that way: malloc gives it name, and no realloc fails in the plain octets ahead.
structure Strays (grants : Nat → Bool) (buffer : List UInt8) (i c : Nat) : Prop where
  escapes : Escapes buffer i
  granted : grants c = true
  grown : ∀ t, Long buffer i t → grants (c+1+t) = true

-- One of the next `left` records from octet i on leads over the end of the buffer, c calls of the
-- allocator being made so far.
inductive Overruns (alloc : Allocator) (buffer : List UInt8) : Nat → Nat → Nat → Prop where
  | owner : Strays alloc.grants buffer i c → Overruns alloc buffer (left+1) i c
  | type : Reads alloc.grants buffer i c n used → buffer.length < i+n+2 → Overruns alloc buffer (left+1) i c
  | dataLen : Reads alloc.grants buffer i c n used → read16 buffer (i+n) = some AAAA → buffer.length < i+n+fixedSize →
      Overruns alloc buffer (left+1) i c
  | rdata : Reads alloc.grants buffer i c n used → read16 buffer (i+n) = some AAAA →
      read16 buffer (i+n+dataLenOffset) = some len → alloc.grants used = true → 0 < len →
      buffer.length < i+n+fixedSize+len → Overruns alloc buffer (left+1) i c
  | target : Reads alloc.grants buffer i c n used → read16 buffer (i+n) = some type → type ≠ AAAA →
      Strays alloc.grants buffer (i+n+fixedSize) used → Overruns alloc buffer (left+1) i c
  | onward : Turns AAAA alloc buffer i c a (some (j,used)) → Overruns alloc buffer left j used →
      Overruns alloc buffer (left+1) i c

theorem get_inside {buffer : List UInt8} (found : buffer[i]? = some c) : i < buffer.length :=
  (List.getElem?_eq_some_iff.mp found).1

-- A turn that does not end the process finds the octets it reads.
theorem turn_inside (returns : scanTurn alloc buffer s ≠ .leave .fault) :
    s.reader < buffer.length ∧ ∀ c, buffer[s.reader]? = some c → 192 ≤ c → s.reader+1 < buffer.length := by
  have small : ∀ {e}, buffer[s.reader]? = some e → ¬ 192 ≤ e →
      ∀ c, buffer[s.reader]? = some c → 192 ≤ c → s.reader+1 < buffer.length :=
    fun here few c found large => absurd (Option.some.inj (here.symm.trans found) ▸ large) few
  have scans := scanTurn_scans alloc buffer s
  generalize scanTurn alloc buffer s = turn at scans returns
  cases scans with
  | fault => exact absurd rfl returns
  | zero here => exact ⟨get_inside here,small here (by decide)⟩
  | pointer here _ second => exact ⟨get_inside here,fun _ _ _ => get_inside second⟩
  | octet here plain => exact ⟨get_inside here,small here (UInt8.not_le.mpr plain.2)⟩

theorem run_turn (left : run (scanTurn alloc buffer) fuel s = some result) (returns : result ≠ .fault) :
    scanTurn alloc buffer s ≠ .leave .fault := by
  intro faults
  cases fuel with
  | zero => cases left
  | succ fuel =>
      rw [run,faults] at left
      exact returns (Option.some.inj left).symm

theorem run_inside (reads : ScanReads alloc buffer s k) (left : run (scanTurn alloc buffer) fuel s = some result)
    (returns : result ≠ .fault) : k < buffer.length := by
  induction reads generalizing fuel with
  | octet => exact (turn_inside (run_turn left returns)).1
  | pointer here large => exact (turn_inside (run_turn left returns)).2 _ here large
  | again turn _ ih =>
      cases fuel with
      | zero => cases left
      | succ fuel =>
          rw [run,turn] at left
          exact ih left

theorem reads_escapes (reads : ScanReads alloc buffer s k) (outside : buffer.length ≤ k) : Escapes buffer s.reader := by
  induction reads with
  | octet => exact .outside outside
  | pointer here large => exact .cut here large outside
  | again turn _ ih => exact .step (scanTurn_next turn) (ih outside)

-- It has not stopped for want of memory before, since then it reads plain octets only.
theorem reads_strays (reads : NameReads alloc buffer i c k) (outside : buffer.length ≤ k) : Strays alloc.grants buffer i c where
  escapes := reads_escapes reads.2 outside
  granted := reads.1
  grown t long := by
    cases grown : alloc.grants (c+1+t) with
    | true => rfl
    | false =>
        obtain ⟨fuel,last,left⟩ := cut_scan (entered_follows reads.1) rfl (Nat.zero_le t) long grown
        exact absurd (run_inside reads.2 left ScanEnd.noConfusion) (Nat.not_lt.mpr outside)

-- Where the way goes on, only want of memory ends the loop.
theorem next_left (step : next buffer s.reader = some j) (turn : scanTurn alloc buffer s = .leave result) :
    ∃ last, result = .outOfMemory last := by
  have scans := scanTurn_scans alloc buffer s
  rw [turn] at scans
  cases scans with
  | fault missing =>
      rcases next_cases step with ⟨_,_,here,_,second,_⟩ | ⟨_,here,plain,_⟩
      · cases (missing _ here).2.symm.trans second
      · exact absurd plain (plain_small (missing _ here).1)
  | zero here =>
      unfold next at step
      simp [here] at step
  | pointer _ _ _ grows =>
      cases grows with
      | refused => exact ⟨_,rfl⟩
  | octet _ _ grows =>
      cases grows with
      | refused => exact ⟨_,rfl⟩

theorem escapes_reads (escapes : Escapes buffer j) (grown : ∀ t, Long buffer i t → alloc.grants (c+1+t) = true)
    (follows : Follows alloc.grants buffer i c s) (start : s.reader = j) :
    ∃ k, ScanReads alloc buffer s k ∧ buffer.length ≤ k := by
  induction escapes generalizing s with
  | outside far =>
      subst start
      exact ⟨_,.octet,far⟩
  | cut here large far =>
      subst start
      exact ⟨_,.pointer here large,far⟩
  | step step _ ih =>
      subst start
      have followed := scan_followed follows
      cases turn : scanTurn alloc buffer s with
      | leave result =>
          obtain ⟨last,rfl⟩ := next_left step turn
          rw [turn] at followed
          cases followed with
          | cut cut => exact Bool.noConfusion ((grown _ cut.long).symm.trans cut.refused)
      | again t =>
          rw [turn] at followed
          cases followed with
          | onward later =>
              obtain ⟨k,reads,far⟩ := ih later (Option.some.inj ((scanTurn_next turn).symm.trans step))
              exact ⟨k,.again turn reads,far⟩

theorem strays_reads (strays : Strays alloc.grants buffer i c) : ∃ k, NameReads alloc buffer i c k ∧ buffer.length ≤ k := by
  obtain ⟨k,reads,far⟩ := escapes_reads strays.escapes strays.grown (entered_follows strays.granted) rfl
  exact ⟨k,⟨strays.granted,reads⟩,far⟩

theorem reads_overruns (reads : AnswerReads alloc buffer left i calls k) (outside : buffer.length ≤ k) :
    Overruns alloc buffer left i calls := by
  have owned : ∀ {fuel i c owner}, readName alloc c fuel i buffer = .ok owner →
      Reads alloc.grants buffer i c owner.count owner.calls :=
    fun read => returns_reads (readName_returns.mp read)
  induction reads with
  | owner name => exact .owner (reads_strays name outside)
  | type read near => exact .type (owned read) (by omega)
  | dataLen read v6 near => exact .dataLen (owned read) v6 (by rw [fixedSize]; rw [dataLenOffset] at outside; omega)
  | rdata read v6 size granted near => exact .rdata (owned read) v6 size granted (by omega) (by omega)
  | target read type differ name => exact .target (owned read) type differ (reads_strays name outside)
  | onward turn _ ih =>
      rcases recvTurn_turns turn with ⟨stopped,_⟩ | ⟨a,j,used,same,turns,_⟩
      · cases stopped
      · cases same
        exact .onward turns (ih outside)

theorem overruns_reads (overruns : Overruns alloc buffer left i calls) :
    ∃ k, AnswerReads alloc buffer left i calls k ∧ buffer.length ≤ k := by
  induction overruns with
  | owner strays =>
      obtain ⟨k,reads,far⟩ := strays_reads strays
      exact ⟨k,.owner reads,far⟩
  | type name far =>
      obtain ⟨fuel,block,underrun,read⟩ := (reads_exact ..).mp name
      exact ⟨_,.type (j:=1) read (by decide),by dsimp only; omega⟩
  | dataLen name v6 far =>
      obtain ⟨fuel,block,underrun,read⟩ := (reads_exact ..).mp name
      rw [fixedSize] at far
      exact ⟨_,.dataLen (j:=1) read v6 (by decide),by dsimp only; rw [dataLenOffset]; omega⟩
  | @rdata i c n used len left name v6 size granted some far =>
      obtain ⟨fuel,block,underrun,read⟩ := (reads_exact ..).mp name
      exact ⟨_,.rdata (j:=len-1) read v6 size granted (by omega),by dsimp only; omega⟩
  | target name found differ strays =>
      obtain ⟨fuel,block,underrun,read⟩ := (reads_exact ..).mp name
      obtain ⟨k,reads,far⟩ := strays_reads strays
      exact ⟨k,.target read found differ reads,far⟩
  | onward turns _ ih =>
      obtain ⟨fuel,answer,turn,_⟩ := turns_recvTurn turns
      obtain ⟨k,reads,far⟩ := ih
      exact ⟨k,.onward turn reads,far⟩

-- Just where an index outside is read, the parse finds an octet missing.
theorem run_missing (left : run (scanTurn alloc buffer) fuel s = some .fault) :
    ∃ k, ScanReads alloc buffer s k ∧ buffer.length ≤ k := by
  induction fuel generalizing s with
  | zero => cases left
  | succ fuel ih =>
      have scans := scanTurn_scans alloc buffer s
      unfold run at left
      cases turn : scanTurn alloc buffer s with
      | again t =>
          rw [turn] at left
          obtain ⟨k,reads,far⟩ := ih left
          exact ⟨k,.again turn reads,far⟩
      | leave result =>
          rw [turn] at left scans
          cases left
          cases scans with
          | pointer _ _ _ grows => cases grows
          | octet _ _ grows => cases grows
          | fault missing =>
              cases here : buffer[s.reader]? with
              | none => exact ⟨_,.octet,List.getElem?_eq_none_iff.mp here⟩
              | some c =>
                  obtain ⟨large,second⟩ := missing c here
                  exact ⟨_,.pointer here large,List.getElem?_eq_none_iff.mp second⟩

theorem missing_run (reads : ScanReads alloc buffer s k) (far : buffer.length ≤ k) :
    ∃ fuel, run (scanTurn alloc buffer) fuel s = some .fault := by
  induction reads with
  | octet =>
      refine ⟨1,?_⟩
      rw [run,turn_fault fun c found => absurd (get_inside found) (Nat.not_lt.mpr far)]
  | pointer here large =>
      refine ⟨1,?_⟩
      rw [run,turn_fault fun c found => ?_]
      cases here.symm.trans found
      exact ⟨large,List.getElem?_eq_none far⟩
  | again turn _ ih =>
      obtain ⟨fuel,left⟩ := ih far
      exact ⟨fuel+1,by rw [run,turn]; exact left⟩

theorem name_missing (faults : readName alloc c fuel i buffer = .error .fault) :
    ∃ k, NameReads alloc buffer i c k ∧ buffer.length ≤ k := by
  unfold readName at faults
  split at faults
  · rename_i granted
    simp only at faults
    split at faults
    · cases faults
    · rename_i left
      obtain ⟨k,reads,far⟩ := run_missing left
      exact ⟨k,⟨granted,reads⟩,far⟩
    · cases faults
    · rename_i s left
      simp only [finish] at faults
      split at faults
      · cases faults
      · split at faults <;> cases faults
  · cases faults

theorem missing_name (reads : NameReads alloc buffer i c k) (far : buffer.length ≤ k) :
    ∃ fuel, ∀ more, fuel ≤ more → readName alloc c more i buffer = .error .fault := by
  obtain ⟨fuel,left⟩ := missing_run reads.2 far
  refine ⟨fuel,fun more enough => ?_⟩
  have ran := run_mono left enough
  rw [entered] at ran
  rw [readName,if_pos reads.1]
  simp only [ran]

theorem read16_missing (far : buffer.length ≤ i+1) : read16 buffer i = none := by
  unfold read16
  cases buffer[i]? with
  | none => rfl
  | some c => simp only [Option.bind_eq_bind,Option.bind_some,List.getElem?_eq_none far,Option.bind_none]

theorem missing_read16 (missing : read16 buffer i = none) : buffer.length ≤ i+1 := by
  by_contra near
  have inside : i+1 < buffer.length := Nat.lt_of_not_le near
  simp [read16,List.getElem?_eq_getElem inside,List.getElem?_eq_getElem (Nat.lt_of_succ_lt inside)] at missing

theorem copyOctets_missing (stopped : copyOctets rdata buffer reader n = .error stop) :
    stop = .fault ∧ ∃ j, j < n ∧ buffer.length ≤ reader+j := by
  induction n with
  | zero => cases stopped
  | succ n ih =>
      rw [copyOctets] at stopped
      rcases bind_error.mp stopped with earlier | ⟨copied,_,stopped⟩
      · obtain ⟨faults,j,near,far⟩ := ih earlier
        exact ⟨faults,j,Nat.lt_succ_of_lt near,far⟩
      · rcases bind_error.mp stopped with missing | ⟨c,_,stopped⟩
        · obtain ⟨none,faults⟩ := orFault_error.mp missing
          exact ⟨faults,n,Nat.lt_succ_self n,List.getElem?_eq_none_iff.mp none⟩
        · cases stopped

theorem missing_copyOctets (rdata : Block) (near : j < n) (far : buffer.length ≤ reader+j) :
    copyOctets rdata buffer reader n = .error .fault := by
  cases copied : copyOctets rdata buffer reader n with
  | error stop => rw [(copyOctets_missing copied).1]
  | ok block =>
      obtain ⟨data,rfl,held,_⟩ := copyOctets_at copied
      exact absurd (get_inside (held.get near)) (Nat.not_lt.mpr far)

theorem turn_missing (faults : recvTurn AAAA alloc fuel buffer i c = .error .fault) (left : Nat) :
    ∃ k, AnswerReads alloc buffer (left+1) i c k ∧ buffer.length ≤ k := by
  unfold recvTurn at faults
  rcases bind_error.mp faults with missing | ⟨owner,read,faults⟩
  · obtain ⟨k,reads,far⟩ := name_missing missing
    exact ⟨k,.owner reads,far⟩
  · rcases bind_error.mp faults with missing | ⟨type,found,faults⟩
    · exact ⟨_,.type (j:=1) read (by decide),missing_read16 (orFault_error.mp missing).1⟩
    · have type' := orFault_ok.mp found
      split at faults
      · rename_i v6
        rw [v6] at type'
        rcases bind_error.mp faults with missing | ⟨len,size,faults⟩
        · exact ⟨_,.dataLen (j:=1) read type' (by decide),missing_read16 (orFault_error.mp missing).1⟩
        · split at faults
          · rename_i granted
            rcases bind_error.mp faults with missing | ⟨block,_,faults⟩
            · obtain ⟨_,j,near,far⟩ := copyOctets_missing missing
              exact ⟨_,.rdata read type' (orFault_ok.mp size) granted near,far⟩
            · cases faults
          · cases faults
      · rename_i differ
        rcases bind_error.mp faults with missing | ⟨rdata,_,faults⟩
        · obtain ⟨k,reads,far⟩ := name_missing missing
          exact ⟨k,.target read type' differ reads,far⟩
        · cases faults

theorem parse_missing (faults : readAnswers AAAA alloc fuel buffer left i c = .error .fault) :
    ∃ k, AnswerReads alloc buffer left i c k ∧ buffer.length ≤ k := by
  induction left generalizing i c with
  | zero => cases faults
  | succ left ih =>
      rw [readAnswers] at faults
      rcases bind_error.mp faults with missing | ⟨⟨answer,onward⟩,turn,faults⟩
      · exact turn_missing missing left
      · cases onward with
        | none => cases faults
        | some onward =>
            rcases bind_error.mp faults with later | ⟨rest,_,faults⟩
            · obtain ⟨k,reads,far⟩ := ih later
              exact ⟨k,.onward turn reads,far⟩
            · cases faults

theorem missing_turn (faults : recvTurn AAAA alloc fuel buffer i c = .error .fault) (left : Nat) :
    readAnswers AAAA alloc fuel buffer (left+1) i c = .error .fault := by
  rw [readAnswers]
  exact bind_error.mpr (.inl faults)

theorem missing_parse (reads : AnswerReads alloc buffer left i c k) (far : buffer.length ≤ k) :
    ∃ fuel, ∀ more, fuel ≤ more → readAnswers AAAA alloc more buffer left i c = .error .fault := by
  induction reads with
  | owner name =>
      obtain ⟨fuel,faults⟩ := missing_name name far
      refine ⟨fuel,fun more enough => missing_turn ?_ _⟩
      exact bind_error.mpr (.inl (faults more enough))
  | @type c fuel i owner _ _ read near =>
      have missing : read16 buffer (i+owner.count) = none := read16_missing (by omega)
      refine ⟨fuel,fun more enough => missing_turn ?_ _⟩
      rw [recvTurn,readName_mono read enough,ok_bind]
      simp only [missing]
      rfl
  | @dataLen c fuel i owner _ _ read v6 near =>
      have missing : read16 buffer (i+owner.count+dataLenOffset) = none := read16_missing (by omega)
      refine ⟨fuel,fun more enough => missing_turn ?_ _⟩
      rw [recvTurn,readName_mono read enough,ok_bind]
      simp only [v6,orFault_some,ok_bind,if_true,missing]
      rfl
  | @rdata _ fuel _ _ _ _ _ read v6 size granted near =>
      refine ⟨fuel,fun more enough => missing_turn ?_ _⟩
      rw [recvTurn,readName_mono read enough,ok_bind]
      simp only [v6,orFault_some,ok_bind,if_true,size,granted]
      exact bind_error.mpr (.inl (missing_copyOctets _ near far))
  | @target _ fuel _ _ _ _ _ read found differ name =>
      obtain ⟨fuel',faults⟩ := missing_name name far
      refine ⟨max fuel fuel',fun more enough => missing_turn ?_ _⟩
      rw [recvTurn,readName_mono read (Nat.le_trans (Nat.le_max_left fuel fuel') enough),ok_bind]
      simp only [found,orFault_some,ok_bind,if_neg differ]
      exact bind_error.mpr (.inl (faults more (Nat.le_trans (Nat.le_max_right fuel fuel') enough)))
  | @onward fuel _ _ _ _ _ _ _ turn _ ih =>
      obtain ⟨fuel',faults⟩ := ih far
      refine ⟨max fuel fuel',fun more enough => ?_⟩
      rw [readAnswers,recvTurn_mono turn (Nat.le_trans (Nat.le_max_left fuel fuel') enough),ok_bind]
      exact bind_error.mpr (.inl (faults more (Nat.le_trans (Nat.le_max_right fuel fuel') enough)))

theorem reads_inside (alloc : Allocator) (buffer : List UInt8) (left start calls : Nat) :
    ((∀ k, AnswerReads alloc buffer left start calls k → k < buffer.length) ↔ ¬ Overruns alloc buffer left start calls) ∧
    ((∀ fuel, readRecvAnswer alloc fuel buffer left start calls ≠ .error .fault) ↔ ¬ Overruns alloc buffer left start calls) := by
  refine ⟨⟨?_,?_⟩,?_,?_⟩
  · intro inside overruns
    obtain ⟨k,reads,far⟩ := overruns_reads overruns
    exact absurd (inside k reads) (Nat.not_lt.mpr far)
  · intro contained k reads
    by_contra far
    exact contained (reads_overruns reads (Nat.le_of_not_lt far))
  · intro found overruns
    obtain ⟨k,reads,far⟩ := overruns_reads overruns
    obtain ⟨fuel,missing⟩ := missing_parse reads far
    exact found fuel (missing fuel (Nat.le_refl _))
  · intro contained fuel missing
    obtain ⟨k,reads,far⟩ := parse_missing missing
    exact contained (reads_overruns reads far)

-- A parse that comes back has not overrun.
theorem returned_contained {answers : List ResRecord}
    (returned : readAnswers AAAA alloc fuel buffer left i calls = .ok answers) : ¬ Overruns alloc buffer left i calls := by
  intro overruns
  obtain ⟨k,reads,far⟩ := overruns_reads overruns
  obtain ⟨fuel',missing⟩ := missing_parse reads far
  have faults := missing (max fuel fuel') (Nat.le_max_right fuel fuel')
  rw [readAnswers_mono returned (Nat.le_max_left fuel fuel')] at faults
  cases faults

-- Two records are read, through pointers, the octets of an alias and sixteen of RDATA.
example : ¬ Overruns always (received aliasReply) 2 19 0 := by
  have ran : (readAnswers AAAA always 64 (received aliasReply) 2 19 0).toOption.any (fun _ => true) = true := by decide +kernel
  obtain ⟨answers,returned,_⟩ := returned_any ran
  exact returned_contained returned

-- An answer whose owner is a pointer to the last octet of recv_buf, where a pointer starts.
def lastOctetFront : List UInt8 :=
  [0,0,129,128,0,1,0,1,0,0,0,0,1,97,0,0,28,0,1] ++ [199,255] ++ List.replicate 2026 0

def lastOctetReply : List UInt8 := lastOctetFront ++ [192]

theorem last_octet_overrun :
    lastOctetReply.length = 2048 ∧ answerCount lastOctetReply = some 1 ∧
      At lastOctetReply headerSize (wire hostA.labels ++ question) ∧
      ∃ k, AnswerReads always lastOctetReply 1 (packet 1 hostA.labels).length 0 k ∧ lastOctetReply[k]? = none := by
  have front : lastOctetFront.length = 2047 := by
    simp only [lastOctetFront,List.length_append,List.length_replicate,List.length_cons,List.length_nil]
  have size : lastOctetReply.length = 2048 := by rw [lastOctetReply,List.length_append,front]; rfl
  have jump : next lastOctetReply 19 = some 2047 := rfl
  have last : lastOctetReply[2047]? = some 192 := by
    rw [lastOctetReply,List.getElem?_append_right (Nat.le_of_eq front),front]
    rfl
  obtain ⟨t,turn,reader⟩ := scanTurn_granted (s:=⟨19,(always.content 0).put 0 0,0,false,1,0,0+1⟩) always_grants jump
  have second : ScanReads always lastOctetReply t (t.reader+1) := .pointer (by rw [reader]; exact last) (by decide)
  rw [reader] at second
  exact ⟨size,by decide +kernel,by decide +kernel,2048,.owner ⟨rfl,.again turn second⟩,List.getElem?_eq_none (Nat.le_of_eq size)⟩

end PersonalJournal.Bounds
