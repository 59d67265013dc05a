import PersonalJournal.Lib.Walk
import PersonalJournal.Dns.ReadName

namespace PersonalJournal.NameWalk
open Bytes DomainName Loop ReadName Walk

-- Where the reader of the scan loop goes from octet i.
def next (buffer : List UInt8) (i : Nat) : Option Nat :=
  match buffer[i]? with
  | none => none
  | some c =>
    if c = 0 then none
    else if 192 ≤ c then (buffer[i+1]?).map (fun d => c.toNat*256+d.toNat-49152)
    else some (i+1)

def Grants (alloc : Allocator) : Prop := ∀ k, alloc.grants k = true

theorem grow_granted (granted : Grants alloc) (s : Scan) :
    ∃ t, grow alloc s = .again t ∧ t.reader = s.reader ∧ t.name = s.name ∧ t.p = s.p ∧ t.jumped = s.jumped ∧
      t.count = counted s.jumped s.count 1 := by
  by_cases jumped : s.jumped = true
  · simp only [grow,jumped,if_true,granted s.calls,counted]
    split
    · exact ⟨_,rfl,rfl,rfl,rfl,rfl,rfl⟩
    · exact ⟨s,rfl,rfl,rfl,rfl,jumped,rfl⟩
  · have straight : s.jumped = false := by simpa using jumped
    simp only [grow,straight,Bool.false_eq_true,if_false,granted s.calls,if_true,counted]
    split
    · exact ⟨_,rfl,rfl,rfl,rfl,rfl,rfl⟩
    · exact ⟨_,rfl,rfl,rfl,rfl,rfl,rfl⟩

theorem grow_reader (turn : grow alloc s = .again t) : t.reader = s.reader := by
  simp only [grow] at turn
  split at turn
  · split at turn
    · split at turn
      · cases turn; rfl
      · cases turn
    · cases turn; rfl
  · split at turn
    · split at turn
      · cases turn; rfl
      · cases turn
    · cases turn; rfl

theorem scanTurn_next (turn : scanTurn alloc buffer s = .again t) : next buffer s.reader = some t.reader := by
  unfold scanTurn at turn
  unfold next
  cases here : buffer[s.reader]? with
  | none => simp [here] at turn
  | some c =>
      simp only [here] at turn ⊢
      split at turn
      · cases turn
      · rename_i nonzero
        rw [if_neg nonzero]
        split at turn
        · rename_i large
          rw [if_pos large]
          cases behind : buffer[s.reader+1]? with
          | none => simp [behind] at turn
          | some d =>
              simp only [behind] at turn
              rw [grow_reader turn]
              rfl
        · rename_i small
          rw [if_neg small,grow_reader turn]

theorem large_nonzero {c : UInt8} (large : 192 ≤ c) : c ≠ 0 := by
  intro zero
  rw [zero] at large
  exact absurd large (by decide)

theorem turn_zero (here : buffer[s.reader]? = some 0) : scanTurn alloc buffer s = .leave (.complete s) := by
  unfold scanTurn
  rw [here]
  simp

theorem turn_fault (missing : ∀ c, buffer[s.reader]? = some c → 192 ≤ c ∧ buffer[s.reader+1]? = none) :
    scanTurn alloc buffer s = .leave .fault := by
  unfold scanTurn
  cases here : buffer[s.reader]? with
  | none => rfl
  | some c =>
      obtain ⟨large,behind⟩ := missing c here
      simp only [if_neg (large_nonzero large),if_pos large,behind]

-- What one turn does to the scan when memory is granted.
theorem turn_pointer (granted : Grants alloc) (here : buffer[s.reader]? = some c) (large : 192 ≤ c)
    (behind : buffer[s.reader+1]? = some d) :
    ∃ t, scanTurn alloc buffer s = .again t ∧ t.reader = c.toNat*256+d.toNat-49152 ∧ t.name = s.name ∧ t.p = s.p ∧
      t.jumped = true ∧ t.count = s.count := by
  obtain ⟨t,turn,reader,name,p,jumped,count⟩ := grow_granted granted
    {s with reader := c.toNat*256+d.toNat-49152,jumped := true}
  refine ⟨t,?_,reader,name,p,jumped,count⟩
  unfold scanTurn
  simp only [here,if_neg (large_nonzero large),if_pos large,behind]
  exact turn

theorem turn_octet (granted : Grants alloc) (here : buffer[s.reader]? = some c) (plain : c ≠ 0 ∧ c < 192) :
    ∃ t, scanTurn alloc buffer s = .again t ∧ t.reader = s.reader+1 ∧ t.name = s.name.put s.p c ∧ t.p = s.p+1 ∧
      t.jumped = s.jumped ∧ t.count = counted s.jumped s.count 1 := by
  obtain ⟨t,turn,reader,name,p,jumped,count⟩ := grow_granted granted
    {s with name := s.name.put s.p c,p := s.p+1,reader := s.reader+1}
  refine ⟨t,?_,reader,name,p,jumped,count⟩
  unfold scanTurn
  simp only [here,if_neg plain.1,if_neg (UInt8.not_le.mpr plain.2)]
  exact turn

theorem next_cases (step : next buffer i = some j) :
    (∃ c d, buffer[i]? = some c ∧ 192 ≤ c ∧ buffer[i+1]? = some d ∧ c.toNat*256+d.toNat-49152 = j) ∨
      ∃ c, buffer[i]? = some c ∧ (c ≠ 0 ∧ c < 192) ∧ i+1 = j := by
  unfold next at step
  cases here : buffer[i]? with
  | none => simp [here] at step
  | some c =>
      simp only [here] at step
      by_cases zero : c = 0
      · simp [zero] at step
      · rw [if_neg zero] at step
        by_cases large : 192 ≤ c
        · rw [if_pos large] at step
          obtain ⟨d,behind,target⟩ := Option.map_eq_some_iff.mp step
          exact .inl ⟨c,d,rfl,large,behind,target⟩
        · rw [if_neg large] at step
          exact .inr ⟨c,rfl,⟨zero,UInt8.not_le.mp large⟩,Option.some.inj step⟩

-- The walk ends at a zero octet, or where an octet that is needed is missing.
theorem next_none (step : next buffer i = none) :
    buffer[i]? = some 0 ∨ ∀ c, buffer[i]? = some c → 192 ≤ c ∧ buffer[i+1]? = none := by
  unfold next at step
  cases here : buffer[i]? with
  | none =>
      right
      intro c found
      cases found
  | some c =>
      simp only [here] at step
      by_cases zero : c = 0
      · exact .inl (congrArg some zero)
      · rw [if_neg zero] at step
        by_cases large : 192 ≤ c
        · rw [if_pos large,Option.map_eq_none_iff] at step
          right
          intro d found
          cases found
          exact ⟨large,step⟩
        · rw [if_neg large] at step
          cases step

theorem scanTurn_granted (granted : Grants alloc) (step : next buffer s.reader = some j) :
    ∃ t, scanTurn alloc buffer s = .again t ∧ t.reader = j := by
  rcases next_cases step with ⟨c,d,here,large,behind,target⟩ | ⟨c,here,plain,target⟩
  · obtain ⟨t,turn,reader,_⟩ := turn_pointer granted here large behind
    exact ⟨t,turn,reader.trans target⟩
  · obtain ⟨t,turn,reader,_⟩ := turn_octet granted here plain
    exact ⟨t,turn,reader.trans target⟩

theorem ends_leaves (alloc : Allocator) (ends : Ends (next buffer) i) (s : Scan) (start : s.reader = i) :
    ∃ result, Leaves (scanTurn alloc buffer) s result := by
  induction ends generalizing s with
  | stop last =>
      cases turn : scanTurn alloc buffer s with
      | again t =>
          have onward := scanTurn_next turn
          rw [start,last] at onward
          cases onward
      | leave result => exact ⟨result,.leave turn⟩
  | step step _ ih =>
      cases turn : scanTurn alloc buffer s with
      | again t =>
          have onward := scanTurn_next turn
          rw [start,step] at onward
          obtain ⟨result,leaves⟩ := ih t (Option.some.inj onward).symm
          exact ⟨result,.again turn leaves⟩
      | leave result => exact ⟨result,.leave turn⟩

theorem leaves_ends (granted : Grants alloc) (leaves : Leaves (scanTurn alloc buffer) s result) :
    Ends (next buffer) s.reader := by
  induction leaves with
  | @leave s result turn =>
      cases step : next buffer s.reader with
      | none => exact .stop step
      | some j =>
          obtain ⟨t,again,_⟩ := scanTurn_granted granted step
          rw [turn] at again
          cases again
  | again turn _ ih => exact .step (scanTurn_next turn) ih

theorem next_finite (buffer : List UInt8) : {i | (next buffer i).isSome = true}.Finite := by
  apply (Set.finite_lt_nat buffer.length).subset
  intro i moves
  by_contra outside
  have none : buffer[i]? = none := List.getElem?_eq_none (Nat.le_of_not_lt outside)
  simp [next,none] at moves

def always : Allocator := ⟨fun _ => true,fun _ _ => 0⟩

theorem always_grants : Grants always := fun _ => rfl

-- The loop is not told where recv_buf ends: its reader goes on into the memory behind it, and a
-- read where nothing is mapped ends the process. Whatever malloc and realloc answer, it comes to
-- an end just when no pointer, in recv_buf or behind it, leads the reader around a circle.
theorem scan_terminates (buffer behind : List UInt8) (s : Scan) :
    (∀ alloc, ∃ fuel result, run (scanTurn alloc (buffer ++ behind)) fuel s = some result) ↔
      ¬ Circles (next (buffer ++ behind)) s.reader := by
  rw [← ends_acyclic (next_finite (buffer ++ behind))]
  constructor
  · intro returns
    obtain ⟨fuel,result,left⟩ := returns always
    exact leaves_ends always_grants (run_leaves left)
  · intro ends alloc
    obtain ⟨result,leaves⟩ := ends_leaves alloc ends s rfl
    obtain ⟨fuel,left⟩ := leaves_run leaves
    exact ⟨fuel,result,left⟩

theorem circles_spins (granted : Grants alloc) (circles : Circles (next buffer) s.reader) (fuel : Nat) :
    run (scanTurn alloc buffer) fuel s = none := by
  cases left : run (scanTurn alloc buffer) fuel s with
  | none => rfl
  | some result => exact absurd circles (leaves_ends granted (run_leaves left)).acyclic

theorem next_extend (step : next buffer i = some j) (behind : List UInt8) : next (buffer ++ behind) i = some j := by
  rcases next_cases step with ⟨c,d,here,large,second,target⟩ | ⟨c,here,plain,target⟩
  · simp only [next,get_extend here behind,if_neg (large_nonzero large),if_pos large,get_extend second behind,Option.map_some,
      target]
  · simp only [next,get_extend here behind,if_neg plain.1,if_neg (UInt8.not_le.mpr plain.2),target]

-- A circle inside the buffer is one whatever lies behind it.
theorem circles_extend (circles : Circles (next buffer) i) (behind : List UInt8) : Circles (next (buffer ++ behind)) i :=
  circles.mono (fun _ _ step => next_extend step behind)

-- An answer to a question about a name of one letter: its owner is a pointer to itself.
def selfPointing : List UInt8 := List.replicate 19 0 ++ [192,19] ++ List.replicate 2027 0

theorem self_pointer_spins :
    selfPointing.length = 2048 ∧ next selfPointing 19 = some 19 ∧
      ∀ behind fuel, run (scanTurn always (selfPointing ++ behind)) fuel ⟨19,fun _ => 0,0,false,1,0,1⟩ = none ∧
        readName always 0 fuel 19 (selfPointing ++ behind) = .error .spin := by
  have itself : next selfPointing 19 = some 19 := rfl
  have circles : Circles (next selfPointing) 19 := ⟨19,.refl,.single itself⟩
  have size : selfPointing.length = 2048 := by
    simp only [selfPointing,List.length_append,List.length_replicate,List.length_cons,List.length_nil]
  refine ⟨size,itself,fun behind fuel => ⟨circles_spins always_grants (circles_extend circles behind) fuel,?_⟩⟩
  have spins := circles_spins (s:=⟨19,(always.content 0).put 0 0,0,false,1,0,0+1⟩) always_grants
    (circles_extend circles behind) fuel
  rw [readName,if_pos (always_grants 0)]
  simp only [spins]

-- What `*_count` becomes: the octets up to and with the zero octet or the first
-- pointer, which has two.
inductive Spans (buffer : List UInt8) : Nat → Nat → Prop where
  | zero : buffer[i]? = some 0 → Spans buffer i 1
  | pointer : buffer[i]? = some c → 192 ≤ c → Spans buffer i 2
  | octet : buffer[i]? = some c → c ≠ 0 ∧ c < 192 → Spans buffer (i+1) n → Spans buffer i (n+1)

-- The octets that are stored in name up to the zero octet, which is found.
inductive Closes (buffer : List UInt8) : Nat → List UInt8 → Prop where
  | zero : buffer[i]? = some 0 → Closes buffer i []
  | pointer : buffer[i]? = some c → 192 ≤ c → buffer[i+1]? = some d →
      Closes buffer (c.toNat*256+d.toNat-49152) stored → Closes buffer i stored
  | octet : buffer[i]? = some c → c ≠ 0 ∧ c < 192 → Closes buffer (i+1) stored → Closes buffer i (c :: stored)

-- ReadName comes to the end of the name at i and moves the cursor by n.
def Named (buffer : List UInt8) (i n : Nat) : Prop := Spans buffer i n ∧ ∃ stored, Closes buffer i stored

theorem plain_small {c : UInt8} (large : 192 ≤ c) : ¬ (c ≠ 0 ∧ c < 192) := fun plain => UInt8.not_lt.mpr large plain.2

theorem Spans.unique (one : Spans buffer i n) (two : Spans buffer i m) : n = m := by
  induction one generalizing m with
  | zero here =>
      cases two with
      | zero => rfl
      | pointer there large =>
          cases here.symm.trans there
          exact absurd large (by decide)
      | octet there plain =>
          cases here.symm.trans there
          exact absurd rfl plain.1
  | pointer here large =>
      cases two with
      | zero there =>
          cases here.symm.trans there
          exact absurd large (by decide)
      | pointer => rfl
      | octet there plain =>
          cases here.symm.trans there
          exact absurd plain (plain_small large)
  | octet here plain _ ih =>
      cases two with
      | zero there =>
          cases here.symm.trans there
          exact absurd rfl plain.1
      | pointer there large =>
          cases here.symm.trans there
          exact absurd plain (plain_small large)
      | octet _ _ rest => rw [ih rest]

theorem Named.unique (one : Named buffer i n) (two : Named buffer i m) : n = m := Spans.unique one.1 two.1

theorem Closes.spans (closes : Closes buffer i stored) : ∃ n, Spans buffer i n := by
  induction closes with
  | zero here => exact ⟨1,.zero here⟩
  | pointer here large => exact ⟨2,.pointer here large⟩
  | octet here plain _ ih =>
      obtain ⟨n,rest⟩ := ih
      exact ⟨n+1,.octet here plain rest⟩

-- A way that comes to its zero octet inside the buffer does so whatever lies behind it.
theorem Closes.extend (closes : Closes buffer i stored) (behind : List UInt8) : Closes (buffer ++ behind) i stored := by
  induction closes with
  | zero here => exact .zero (get_extend here behind)
  | pointer here large second _ ih => exact .pointer (get_extend here behind) large (get_extend second behind) ih
  | octet here plain _ ih => exact .octet (get_extend here behind) plain ih

theorem Closes.nonzero (closes : Closes buffer i stored) : ∀ c ∈ stored, c ≠ 0 := by
  induction closes with
  | zero => simp
  | pointer _ _ _ _ ih => exact ih
  | octet _ plain _ ih => exact List.forall_mem_cons.mpr ⟨plain.1,ih⟩

-- The loop has left name[0..p] and `*_count` like this, `*_count` being told apart by
-- whether the reader had jumped before.
structure ScannedTo (buffer : List UInt8) (i : Nat) (s : Scan) (stored : List UInt8) (last : Scan) : Prop where
  held : ∀ front, s.name.Holds 0 front → front.length = s.p → last.name.Holds 0 (front ++ stored)
  p : last.p = s.p+stored.length
  frozen : s.jumped = true → last.jumped = true ∧ last.count = s.count
  moved : s.jumped = false → ∀ n, Spans buffer i n →
    (if last.jumped then last.count+1 else last.count)+1 = s.count+n

theorem scan_closes (granted : Grants alloc) (closes : Closes buffer i stored) (s : Scan) (start : s.reader = i) :
    ∃ last, Leaves (scanTurn alloc buffer) s (.complete last) ∧ ScannedTo buffer i s stored last := by
  induction closes generalizing s with
  | zero here =>
      subst start
      refine ⟨s,.leave (turn_zero here),?_,rfl,fun jumped => ⟨jumped,rfl⟩,?_⟩
      · intro front held _
        rwa [List.append_nil]
      · intro straight n spans
        rw [spans.unique (.zero here),straight]
        rfl
  | pointer here large behind _ ih =>
      subst start
      obtain ⟨t,turn,reader,name,p,jumped,count⟩ := turn_pointer granted here large behind
      obtain ⟨last,leaves,scanned⟩ := ih t reader
      obtain ⟨jumped',count'⟩ := scanned.frozen jumped
      refine ⟨last,.again turn leaves,?_,?_,?_,?_⟩
      · rw [← name,← p]
        exact scanned.held
      · rw [scanned.p,p]
      · exact fun _ => ⟨jumped',count'.trans count⟩
      · intro straight n spans
        rw [spans.unique (.pointer here large),jumped',if_pos rfl,count',count]
  | @octet i c stored here plain rest ih =>
      subst start
      obtain ⟨t,turn,reader,name,p,jumped,count⟩ := turn_octet granted here plain
      obtain ⟨last,leaves,scanned⟩ := ih t reader
      refine ⟨last,.again turn leaves,?_,?_,?_,?_⟩
      · intro front held size
        have pushed := s.name.holds_push c held
        rw [Nat.zero_add,size,← name] at pushed
        have whole := scanned.held _ pushed (by rw [List.length_append,size,p]; rfl)
        rwa [List.append_assoc] at whole
      · rw [scanned.p,p,List.length_cons]
        omega
      · intro before
        rw [before] at jumped
        obtain ⟨jumped',count'⟩ := scanned.frozen jumped
        exact ⟨jumped',by rw [count',count,before]; rfl⟩
      · intro straight n spans
        obtain ⟨m,later⟩ := rest.spans
        rw [spans.unique (.octet here plain later)]
        rw [straight] at jumped count
        have moved := scanned.moved jumped m later
        rw [count] at moved
        simp only [counted,Bool.false_eq_true,if_false] at moved
        omega

theorem Closes.unique (one : Closes buffer i a) (two : Closes buffer i b) : a = b := by
  let start : Scan := ⟨i,fun _ => 0,0,false,1,0,0⟩
  obtain ⟨last,leaves,scanned⟩ := scan_closes always_grants one start rfl
  obtain ⟨last',leaves',scanned'⟩ := scan_closes always_grants two start rfl
  cases leaves_unique leaves leaves'
  have size : a.length = b.length := Nat.add_left_cancel (scanned.p.symm.trans scanned'.p)
  have first := last.name.holds_map (scanned.held [] trivial rfl)
  have second := last.name.holds_map (scanned'.held [] trivial rfl)
  rw [List.nil_append] at first second
  rw [← first,← second,size]

theorem leaves_closes (granted : Grants alloc) (leaves : Leaves (scanTurn alloc buffer) s result) :
    result = .fault ∨ ∃ stored, Closes buffer s.reader stored := by
  induction leaves with
  | @leave s result turn =>
      cases step : next buffer s.reader with
      | some j =>
          obtain ⟨t,again,_⟩ := scanTurn_granted granted step
          cases turn.symm.trans again
      | none =>
          rcases next_none step with zero | missing
          · exact .inr ⟨[],.zero zero⟩
          · cases turn.symm.trans (turn_fault missing)
            exact .inl rfl
  | again turn _ ih =>
      rcases ih with fault | ⟨stored,rest⟩
      · exact .inl fault
      · right
        rcases next_cases (scanTurn_next turn) with ⟨c,d,here,large,behind,target⟩ | ⟨c,here,plain,target⟩
        · exact ⟨stored,.pointer here large behind (target ▸ rest)⟩
        · exact ⟨c :: stored,.octet here plain (target ▸ rest)⟩

theorem convert_index (leaves : Leaves (convertTurn last) s result) : s.2 ≤ result.2 := by
  induction leaves with
  | leave turn =>
      unfold convertTurn at turn
      split at turn
      · cases turn
      · cases turn
        exact Nat.le_refl _
  | again turn _ ih =>
      unfold convertTurn at turn
      split at turn
      · cases turn
        simp only [shift_index] at ih
        omega
      · cases turn

theorem finish_some (some : s.p ≠ 0) (first : s.name 0 ≠ 0) :
    ∃ block, finish s = .ok ⟨.some block,if s.jumped then s.count+1 else s.count,s.calls,false⟩ := by
  obtain ⟨⟨name,i⟩,total⟩ := convert_total (s.name.put s.p 0) s.p
  have kept : (s.name.put s.p 0) 0 ≠ 0 := by rwa [Block.put_other _ _ (Ne.symm some)]
  have long : 0 < (s.name.put s.p 0).strlen s.p := by
    apply Block.le_strlenFrom _ _ (Nat.pos_of_ne_zero some)
    intro m first
    rwa [Nat.lt_one_iff.mp first]
  have positive : i ≠ 0 := by
    have leaves := run_leaves total
    cases leaves with
    | leave turn =>
        unfold convertTurn at turn
        rw [if_pos long] at turn
        cases turn
    | again turn later =>
        have onward := convert_index later
        unfold convertTurn at turn
        rw [if_pos long] at turn
        cases turn
        simp only [shift_index] at onward
        omega
  refine ⟨name.put (i-1) 0,?_⟩
  simp only [finish,total,if_neg positive]

theorem finish_none (none : s.p = 0) :
    ∃ block, finish s = .ok ⟨some block,if s.jumped then s.count+1 else s.count,s.calls,true⟩ := by
  have short : ¬ 0 < (s.name.put s.p 0).strlen s.p := by rw [none]; exact Nat.not_lt_zero 0
  have turn : convertTurn s.p (s.name.put s.p 0,0) = .leave (s.name.put s.p 0,0) := by
    unfold convertTurn
    rw [if_neg short]
  refine ⟨s.name.put s.p 0,?_⟩
  simp only [finish,run,turn,if_true]

-- A name that ends is read, and the octet before its block is stored to just when it is empty.
theorem closes_read (granted : Grants alloc) (closes : Closes buffer i stored) (spans : Spans buffer i n) (calls : Nat) :
    ∃ fuel block used, readName alloc calls fuel i buffer = .ok ⟨some block,n,used,stored.isEmpty⟩ := by
  obtain ⟨last,leaves,scanned⟩ := scan_closes granted closes
    ⟨i,(alloc.content calls).put 0 0,0,false,1,0,calls+1⟩ rfl
  have held := scanned.held [] trivial rfl
  have size := scanned.p
  have count : (if last.jumped then last.count+1 else last.count)+1 = 1+n := scanned.moved rfl n spans
  have finished : ∃ block, finish last =
      .ok ⟨some block,if last.jumped then last.count+1 else last.count,last.calls,stored.isEmpty⟩ := by
    cases stored with
    | nil => exact finish_none (by rw [size]; rfl)
    | cons c rest =>
        have front : last.name 0 = c := held.1
        have long : last.p ≠ 0 := by
          rw [size,List.length_cons]
          omega
        exact finish_some long (by rw [front]; exact closes.nonzero c List.mem_cons_self)
  obtain ⟨block,finished⟩ := finished
  obtain ⟨fuel,left⟩ := leaves_run leaves
  refine ⟨fuel,block,last.calls,?_⟩
  rw [readName,if_pos (granted calls)]
  simp only [left,finished,Except.ok.injEq,NameRead.mk.injEq,true_and,and_true]
  omega

theorem named_read (granted : Grants alloc) (named : Named buffer i n) (calls : Nat) :
    ∃ fuel block used underrun, readName alloc calls fuel i buffer = .ok ⟨some block,n,used,underrun⟩ := by
  obtain ⟨spans,stored,closes⟩ := named
  obtain ⟨fuel,block,used,read⟩ := closes_read granted closes spans calls
  exact ⟨fuel,block,used,_,read⟩

theorem read_named (granted : Grants alloc) {read : NameRead}
    (returned : readName alloc calls fuel i buffer = .ok read) : Named buffer i read.count := by
  have again := returned
  rw [readName,if_pos (granted calls)] at again
  simp only at again
  cases left : run (scanTurn alloc buffer) fuel ⟨i,(alloc.content calls).put 0 0,0,false,1,0,calls+1⟩ with
  | none => simp [left] at again
  | some result =>
      rcases leaves_closes granted (run_leaves left) with rfl | ⟨stored,closes⟩
      · simp [left] at again
      · obtain ⟨n,spans⟩ := closes.spans
        have named : Named buffer i n := ⟨spans,stored,closes⟩
        obtain ⟨fuel',block,used,underrun,other⟩ := named_read granted named calls
        have one := readName_mono returned (Nat.le_max_left fuel fuel')
        have two := readName_mono other (Nat.le_max_right fuel fuel')
        cases one.symm.trans two
        exact named

end PersonalJournal.NameWalk
