import PersonalJournal.Dns.NameWalk

namespace PersonalJournal.NameAllocation
open Bytes Loop ReadName NameWalk

-- What `grow` does, by whether `*_count` has come to the capacity of name.
inductive Grows (alloc : Allocator) (s : Scan) : Turn Scan ScanEnd → Prop where
  | fits : counted s.jumped s.count 1 < initSize+increment*s.timesForRealloc →
      Grows alloc s (.again {s with count := counted s.jumped s.count 1})
  | granted : initSize+increment*s.timesForRealloc ≤ counted s.jumped s.count 1 → alloc.grants s.calls = true →
      Grows alloc s (.again {s with
        count := counted s.jumped s.count 1,timesForRealloc := s.timesForRealloc+1,calls := s.calls+1})
  | refused : initSize+increment*s.timesForRealloc ≤ counted s.jumped s.count 1 → alloc.grants s.calls = false →
      Grows alloc s (.leave (.outOfMemory {s with
        count := counted s.jumped s.count 1,timesForRealloc := s.timesForRealloc+1,calls := s.calls+1}))

theorem grow_grows (alloc : Allocator) (s : Scan) : Grows alloc s (grow alloc s) := by
  have count : (if s.jumped then s else {s with count := s.count+1}) = {s with count := counted s.jumped s.count 1} := by
    obtain ⟨reader,name,p,jumped,count,times,calls⟩ := s
    cases jumped <;> rfl
  unfold grow
  simp only [count]
  split
  · rename_i full
    cases granted : alloc.grants s.calls with
    | true => exact .granted full granted
    | false => exact .refused full granted
  · rename_i room
    exact .fits (Nat.lt_of_not_le room)

theorem Grows.unique (one : Grows alloc s a) (two : Grows alloc s b) : a = b := by
  cases one <;> cases two <;> first | rfl | omega | simp_all

-- One turn of the scan loop, by the octet that is read.
inductive Scans (alloc : Allocator) (buffer : List UInt8) (s : Scan) : Turn Scan ScanEnd → Prop where
  | fault : (∀ c, buffer[s.reader]? = some c → 192 ≤ c ∧ buffer[s.reader+1]? = none) → Scans alloc buffer s (.leave .fault)
  | zero : buffer[s.reader]? = some 0 → Scans alloc buffer s (.leave (.complete s))
  | pointer : buffer[s.reader]? = some c → 192 ≤ c → buffer[s.reader+1]? = some d →
      Grows alloc {s with reader := c.toNat*256+d.toNat-49152,jumped := true} turn → Scans alloc buffer s turn
  | octet : buffer[s.reader]? = some c → c ≠ 0 ∧ c < 192 →
      Grows alloc {s with name := s.name.put s.p c,p := s.p+1,reader := s.reader+1} turn → Scans alloc buffer s turn

theorem scanTurn_scans (alloc : Allocator) (buffer : List UInt8) (s : Scan) : Scans alloc buffer s (scanTurn alloc buffer s) := by
  unfold scanTurn
  cases here : buffer[s.reader]? with
  | none => exact .fault (fun c found => by rw [here] at found; cases found)
  | some c =>
      simp only
      by_cases zero : c = 0
      · rw [if_pos zero]
        exact .zero (zero ▸ here)
      · rw [if_neg zero]
        by_cases large : 192 ≤ c
        · rw [if_pos large]
          cases behind : buffer[s.reader+1]? with
          | none => exact .fault (fun e found => by cases here.symm.trans found; exact ⟨large,behind⟩)
          | some d => exact .pointer here large behind (grow_grows ..)
        · rw [if_neg large]
          exact .octet here ⟨zero,UInt8.not_le.mp large⟩ (grow_grows ..)

theorem Grows.exact (grows : Grows alloc s turn) : grow alloc s = turn := (grow_grows alloc s).unique grows

theorem Scans.exact (scans : Scans alloc buffer s turn) : scanTurn alloc buffer s = turn := by
  cases scans with
  | fault missing => exact turn_fault missing
  | zero here => exact turn_zero here
  | pointer here large behind grows =>
      unfold scanTurn
      simp only [here,if_neg (large_nonzero large),if_pos large,behind]
      exact grows.exact
  | octet here plain grows =>
      unfold scanTurn
      simp only [here,if_neg plain.1,if_neg (UInt8.not_le.mpr plain.2)]
      exact grows.exact

-- How many calls of the allocator are over behind the loop, and behind a turn of it.
def endCalls : ScanEnd → Nat
  | .complete s => s.calls
  | .outOfMemory s => s.calls
  | .fault => 0

def turnCalls : Turn Scan ScanEnd → Nat
  | .again s => s.calls
  | .leave result => endCalls result

-- The answers to the calls from number a to number b - 1 are the same.
def Agree (alloc alloc' : Allocator) (a b : Nat) : Prop := ∀ k, a ≤ k → k < b → alloc'.grants k = alloc.grants k

theorem Grows.calls (grows : Grows alloc s turn) : s.calls ≤ turnCalls turn := by
  cases grows with
  | fits => exact Nat.le_refl _
  | granted => exact Nat.le_succ _
  | refused => exact Nat.le_succ _

theorem Grows.regrant (grows : Grows alloc s turn) (agree : Agree alloc alloc' s.calls (turnCalls turn)) :
    Grows alloc' s turn := by
  cases grows with
  | fits room => exact .fits room
  | granted full granted => exact .granted full ((agree s.calls (Nat.le_refl _) (Nat.lt_succ_self _)).trans granted)
  | refused full refused => exact .refused full ((agree s.calls (Nat.le_refl _) (Nat.lt_succ_self _)).trans refused)

theorem Scans.regrant (scans : Scans alloc buffer s turn) (agree : Agree alloc alloc' s.calls (turnCalls turn)) :
    Scans alloc' buffer s turn := by
  cases scans with
  | fault none => exact .fault none
  | zero here => exact .zero here
  | pointer here large behind grows => exact .pointer here large behind (grows.regrant agree)
  | octet here plain grows => exact .octet here plain (grows.regrant agree)

theorem run_calls (left : run (scanTurn alloc buffer) fuel s = some result) (returns : result ≠ .fault) :
    s.calls ≤ endCalls result := by
  induction fuel generalizing s with
  | zero => cases left
  | succ fuel ih =>
      have scans := scanTurn_scans alloc buffer s
      unfold run at left
      cases turn : scanTurn alloc buffer s with
      | leave out =>
          rw [turn] at left scans
          cases left
          cases scans with
          | fault => exact absurd rfl returns
          | zero => exact Nat.le_refl _
          | pointer _ _ _ grows => exact grows.calls
          | octet _ _ grows => exact grows.calls
      | again t =>
          rw [turn] at left scans
          have later := ih left
          cases scans with
          | pointer _ _ _ grows => exact Nat.le_trans grows.calls later
          | octet _ _ grows => exact Nat.le_trans grows.calls later

-- What the loop does rests on the answers to the calls that it makes.
theorem run_regrant (left : run (scanTurn alloc buffer) fuel s = some result) (returns : result ≠ .fault)
    (agree : Agree alloc alloc' s.calls (endCalls result)) : run (scanTurn alloc' buffer) fuel s = some result := by
  induction fuel generalizing s with
  | zero => cases left
  | succ fuel ih =>
      have scans := scanTurn_scans alloc buffer s
      unfold run at left ⊢
      cases turn : scanTurn alloc buffer s with
      | leave out =>
          rw [turn] at left scans
          cases left
          rw [(scans.regrant agree).exact]
      | again t =>
          rw [turn] at left scans
          have later := run_calls left returns
          have calls : s.calls ≤ t.calls := by
            cases scans with
            | pointer _ _ _ grows => exact grows.calls
            | octet _ _ grows => exact grows.calls
          rw [(scans.regrant (fun k low high => agree k low (Nat.lt_of_lt_of_le high later))).exact]
          exact ih left (fun k low high => agree k (Nat.le_trans calls low) high)

theorem finish_calls {read : NameRead} (finished : finish s = .ok read) : read.calls = s.calls := by
  simp only [finish] at finished
  split at finished
  · cases finished
  · split at finished
    · cases finished
      rfl
    · cases finished
      rfl

def entered (alloc : Allocator) (i c : Nat) : Scan := ⟨i,(alloc.content c).put 0 0,0,false,1,0,c+1⟩

-- The ways in which ReadName returns.
inductive Returns (alloc : Allocator) (buffer : List UInt8) (i c fuel : Nat) : NameRead → Prop where
  | refused : alloc.grants c = false → Returns alloc buffer i c fuel ⟨none,1,c+1,false⟩
  | complete {read : NameRead} : alloc.grants c = true → run (scanTurn alloc buffer) fuel (entered alloc i c) = some (.complete s) →
      finish s = .ok read → Returns alloc buffer i c fuel read
  | outOfMemory : alloc.grants c = true → run (scanTurn alloc buffer) fuel (entered alloc i c) = some (.outOfMemory s) →
      Returns alloc buffer i c fuel ⟨none,s.count,s.calls,false⟩

theorem readName_returns {read : NameRead} : readName alloc c fuel i buffer = .ok read ↔ Returns alloc buffer i c fuel read := by
  unfold readName
  constructor
  · intro returned
    split at returned
    · rename_i granted
      simp only at returned
      split at returned
      · cases returned
      · cases returned
      · rename_i s left
        cases returned
        exact .outOfMemory granted left
      · rename_i s left
        exact .complete granted left returned
    · rename_i refused
      cases returned
      exact .refused (by simpa using refused)
  · intro returns
    cases returns with
    | refused refused => rw [if_neg (by rw [refused]; exact Bool.false_ne_true)]
    | complete granted left finished =>
        rw [entered] at left
        simp only [if_pos granted,left]
        exact finished
    | outOfMemory granted left =>
        rw [entered] at left
        simp only [if_pos granted,left]

theorem Returns.calls {read : NameRead} (returns : Returns alloc buffer i c fuel read) : c < read.calls := by
  cases returns with
  | refused => exact Nat.lt_succ_self c
  | complete _ left finished =>
      rw [finish_calls finished]
      exact run_calls left ScanEnd.noConfusion
  | outOfMemory _ left => exact run_calls left ScanEnd.noConfusion

theorem Returns.regrant {read : NameRead} (returns : Returns alloc buffer i c fuel read) (content : alloc'.content = alloc.content)
    (agree : Agree alloc alloc' c read.calls) : Returns alloc' buffer i c fuel read := by
  have first := agree c (Nat.le_refl c) returns.calls
  have same : entered alloc' i c = entered alloc i c := by rw [entered,entered,content]
  cases returns with
  | refused refused => exact .refused (first.trans refused)
  | complete granted left finished =>
      rw [finish_calls finished] at agree
      refine .complete (first.trans granted) ?_ finished
      rw [same]
      exact run_regrant left ScanEnd.noConfusion (fun k low high => agree k (Nat.le_of_succ_le low) high)
  | outOfMemory granted left =>
      refine .outOfMemory (first.trans granted) ?_
      rw [same]
      exact run_regrant left ScanEnd.noConfusion (fun k low high => agree k (Nat.le_of_succ_le low) high)

def Plain (buffer : List UInt8) (j : Nat) : Prop := ∃ c, buffer[j]? = some c ∧ c ≠ 0 ∧ c < 192

-- So many plain octets stand at i that name is to grow once more, having grown t times.
def Long (buffer : List UInt8) (i t : Nat) : Prop := ∀ k, k+1 < initSize+increment*t → Plain buffer (i+k)

-- How far ReadName moves the cursor from i, and the number of the next call of the allocator:
-- one octet when malloc fails, behind the name when it is read, and where name is to grow when
-- realloc fails.
inductive Reads (grants : Nat → Bool) (buffer : List UInt8) (i c : Nat) : Nat → Nat → Prop where
  | refused : grants c = false → Reads grants buffer i c 1 (c+1)
  | whole : Named buffer i n → ¬ Long buffer i t → (∀ m, m < t → Long buffer i m) → (∀ m, m ≤ t → grants (c+m) = true) →
      Reads grants buffer i c n (c+1+t)
  | cut : Long buffer i t → (∀ m, m ≤ t → grants (c+m) = true) → grants (c+1+t) = false →
      Reads grants buffer i c (initSize+increment*t) (c+2+t)

-- The scan loop as long as it goes on: what it has been granted, and the plain octets behind it.
structure Follows (grants : Nat → Bool) (buffer : List UInt8) (i c : Nat) (s : Scan) : Prop where
  calls : s.calls = c+1+s.timesForRealloc
  counts : 0 < s.count
  room : s.count < initSize+increment*s.timesForRealloc
  granted : ∀ m, m ≤ s.timesForRealloc → grants (c+m) = true
  long : ∀ m, m < s.timesForRealloc → Long buffer i m
  plain : ∀ k, k+1 < s.count → Plain buffer (i+k)
  straight : s.jumped = false → s.reader+1 = i+s.count
  jumped : s.jumped = true → ∀ k, k+1 = s.count → ¬ Plain buffer (i+k)

theorem entered_follows (granted : alloc.grants c = true) : Follows alloc.grants buffer i c (entered alloc i c) where
  calls := rfl
  counts := Nat.one_pos
  room := by simp only [entered,initSize]; omega
  granted m none := by rw [Nat.le_zero.mp none]; exact granted
  long m none := absurd none (Nat.not_lt_zero m)
  plain k none := absurd none (by simp only [entered]; omega)
  straight _ := rfl
  jumped jumped := Bool.noConfusion jumped

-- Behind a jump `*_count` stands still, below the capacity of name.
theorem Grows.still (grows : Grows alloc s turn) (jumped : s.jumped = true) (room : s.count < initSize+increment*s.timesForRealloc) :
    turn = .again s := by
  have same : counted s.jumped s.count 1 = s.count := by rw [jumped]; rfl
  cases grows with
  | fits => rw [same]
  | granted full => exact absurd (same ▸ full) (Nat.not_le.mpr room)
  | refused full => exact absurd (same ▸ full) (Nat.not_le.mpr room)

-- realloc has failed.
structure Cut (grants : Nat → Bool) (buffer : List UInt8) (i c : Nat) (last : Scan) : Prop where
  long : Long buffer i (last.timesForRealloc-1)
  granted : ∀ m, m ≤ last.timesForRealloc-1 → grants (c+m) = true
  refused : grants (c+1+(last.timesForRealloc-1)) = false
  count : last.count = initSize+increment*(last.timesForRealloc-1)
  calls : last.calls = c+2+(last.timesForRealloc-1)

inductive Followed (grants : Nat → Bool) (buffer : List UInt8) (i c : Nat) : Turn Scan ScanEnd → Prop where
  | onward : Follows grants buffer i c t → Followed grants buffer i c (.again t)
  | fault : Followed grants buffer i c (.leave .fault)
  | complete : Follows grants buffer i c last → buffer[last.reader]? = some 0 → Followed grants buffer i c (.leave (.complete last))
  | cut : Cut grants buffer i c last → Followed grants buffer i c (.leave (.outOfMemory last))

theorem plain_onward (plain : ∀ k, k+1 < count → Plain buffer (i+k)) (here : Plain buffer reader) (straight : reader+1 = i+count) :
    ∀ k, k < count → Plain buffer (i+k) := by
  intro k near
  rcases Nat.lt_or_ge (k+1) count with before | last
  · exact plain k before
  · obtain rfl : reader = i+k := by omega
    exact here

theorem octet_followed (follows : Follows alloc.grants buffer i c s) (here : Plain buffer s.reader) (straight : s.jumped = false)
    (grows : Grows alloc {s with name := name,p := p,reader := s.reader+1} turn) : Followed alloc.grants buffer i c turn := by
  have place := follows.straight straight
  have plain := plain_onward follows.plain here place
  have more : counted s.jumped s.count 1 = s.count+1 := by rw [straight]; rfl
  have room := follows.room
  rw [increment] at room
  cases grows with
  | fits fits =>
      simp only [more] at fits ⊢
      exact .onward ⟨follows.calls,Nat.succ_pos _,fits,follows.granted,follows.long,
        fun k near => plain k (Nat.lt_of_succ_lt_succ near),fun _ => congrArg Nat.succ place,
        fun jumped => Bool.noConfusion (straight.symm.trans jumped)⟩
  | granted full granted =>
      simp only [more,increment] at full ⊢
      simp only [follows.calls] at granted ⊢
      refine .onward ⟨by simp only; omega,Nat.succ_pos _,by simp only [increment]; omega,?_,?_,
        fun k near => plain k (Nat.lt_of_succ_lt_succ near),fun _ => congrArg Nat.succ place,
        fun jumped => Bool.noConfusion (straight.symm.trans jumped)⟩
      · intro m before
        rcases Nat.lt_or_ge m (s.timesForRealloc+1) with old | new
        · exact follows.granted m (Nat.le_of_lt_succ old)
        · obtain rfl : m = s.timesForRealloc+1 := Nat.le_antisymm before new
          rwa [Nat.add_assoc,Nat.add_comm 1] at granted
      · intro m before
        rcases Nat.lt_or_ge m s.timesForRealloc with old | new
        · exact follows.long m old
        · obtain rfl : m = s.timesForRealloc := by simp only at before; omega
          exact fun k near => plain k (by rw [increment] at near; omega)
  | refused full refused =>
      simp only [more,increment] at full ⊢
      simp only [follows.calls] at refused ⊢
      refine .cut ⟨?_,follows.granted,refused,?_,?_⟩
      · exact fun k near => plain k (by simp only [increment,Nat.add_sub_cancel] at near; omega)
      · simp only [increment,Nat.add_sub_cancel]
        omega
      · simp only [Nat.add_sub_cancel]
        omega

theorem scan_followed (follows : Follows alloc.grants buffer i c s) : Followed alloc.grants buffer i c (scanTurn alloc buffer s) := by
  have scans := scanTurn_scans alloc buffer s
  generalize scanTurn alloc buffer s = turn at scans ⊢
  cases scans with
  | fault => exact .fault
  | zero here => exact .complete follows here
  | @pointer high low _ here large behind grows =>
      generalize high.toNat*256+low.toNat-49152 = target at grows
      rw [grows.still rfl follows.room]
      refine .onward {follows with straight := fun straight => Bool.noConfusion straight,jumped := fun _ k last => ?_}
      cases jumped : s.jumped with
      | true => exact follows.jumped jumped k last
      | false =>
          have place := follows.straight jumped
          have same : s.reader = i+k := by simp only at last; omega
          rintro ⟨e,there,plain⟩
          cases here.symm.trans (same ▸ there)
          exact plain_small large plain
  | octet here plain grows =>
      cases jumped : s.jumped with
      | false => exact octet_followed follows ⟨_,here,plain⟩ jumped grows
      | true =>
          rw [grows.still jumped follows.room]
          exact .onward {follows with straight := fun straight => Bool.noConfusion (jumped.symm.trans straight)}

theorem run_followed (follows : Follows alloc.grants buffer i c s) (left : run (scanTurn alloc buffer) fuel s = some result) :
    Followed alloc.grants buffer i c (.leave result) := by
  induction fuel generalizing s with
  | zero => cases left
  | succ fuel ih =>
      have followed := scan_followed follows
      unfold run at left
      cases turn : scanTurn alloc buffer s with
      | leave out =>
          rw [turn] at left followed
          cases left
          exact followed
      | again t =>
          rw [turn] at left followed
          cases followed with
          | onward later => exact ih later left

theorem Follows.short (follows : Follows grants buffer i c last) (zero : buffer[last.reader]? = some 0) :
    ¬ Long buffer i last.timesForRealloc := by
  intro long
  obtain ⟨k,size⟩ := Nat.exists_eq_succ_of_ne_zero (Nat.pos_iff_ne_zero.mp follows.counts)
  have plain := long k (by have := follows.room; omega)
  cases jumped : last.jumped with
  | true => exact follows.jumped jumped k size.symm plain
  | false =>
      have place := follows.straight jumped
      have here : last.reader = i+k := by omega
      obtain ⟨e,there,nonzero,_⟩ := plain
      rw [here] at zero
      exact nonzero (Option.some.inj (there.symm.trans zero))

theorem returns_reads {read : NameRead} (returns : Returns alloc buffer i c fuel read) :
    Reads alloc.grants buffer i c read.count read.calls := by
  cases returns with
  | refused refused => exact .refused refused
  | @complete s read granted left finished =>
      cases run_followed (entered_follows granted) left with
      | complete follows zero =>
          have whole : Returns ⟨fun _ => true,alloc.content⟩ buffer i c fuel read := by
            refine (Returns.complete granted left finished).regrant rfl (fun k low high => ?_)
            rw [finish_calls finished,follows.calls] at high
            obtain ⟨m,rfl⟩ := Nat.exists_eq_add_of_le low
            exact (follows.granted m (by omega)).symm
          rw [finish_calls finished,follows.calls]
          exact .whole (read_named (fun _ => rfl) (readName_returns.mpr whole)) (follows.short zero) follows.long follows.granted
  | @outOfMemory s granted left =>
      cases run_followed (entered_follows granted) left with
      | cut cut =>
          rw [cut.count,cut.calls]
          exact .cut cut.long cut.granted cut.refused

theorem cut_scan (follows : Follows alloc.grants buffer i c s) (straight : s.jumped = false) (within : s.timesForRealloc ≤ t)
    (long : Long buffer i t) (refused : alloc.grants (c+1+t) = false) :
    ∃ fuel last, run (scanTurn alloc buffer) fuel s = some (.outOfMemory last) := by
  induction left : initSize+increment*t-s.count using Nat.strong_induction_on generalizing s with
  | h left ih =>
      have room := follows.room
      have place := follows.straight straight
      have counts := follows.counts
      have near : s.count < initSize+increment*t := Nat.lt_of_lt_of_le room (by simp only [increment]; omega)
      obtain ⟨k,size⟩ := Nat.exists_eq_succ_of_ne_zero (Nat.pos_iff_ne_zero.mp counts)
      obtain ⟨e,here,plain⟩ := long k (by omega)
      rw [show i+k = s.reader by omega] at here
      have grows := grow_grows alloc {s with name := s.name.put s.p e,p := s.p+1,reader := s.reader+1}
      have turn := (Scans.octet here plain grows).exact
      have followed := octet_followed follows ⟨e,here,plain⟩ straight grows
      have more : counted s.jumped s.count 1 = s.count+1 := by rw [straight]; rfl
      generalize grow alloc {s with name := s.name.put s.p e,p := s.p+1,reader := s.reader+1} = out at grows turn followed
      cases grows with
      | fits =>
          cases followed with
          | onward later =>
              obtain ⟨fuel,last,ran⟩ := ih _ (by simp only [more]; omega) later straight within rfl
              exact ⟨fuel+1,last,by rw [run,turn]; exact ran⟩
      | granted _ granted =>
          cases followed with
          | onward later =>
              simp only [follows.calls] at granted
              have below : s.timesForRealloc ≠ t := by
                rintro rfl
                exact Bool.noConfusion (granted.symm.trans refused)
              obtain ⟨fuel,last,ran⟩ := ih _ (by simp only [more]; omega) later straight (by simp only; omega) rfl
              exact ⟨fuel+1,last,by rw [run,turn]; exact ran⟩
      | refused => exact ⟨1,_,by rw [run,turn]⟩

-- Where ReadName moves the cursor, and how often it has called the allocator then.
theorem reads_exact (alloc : Allocator) (buffer : List UInt8) (i c n used : Nat) :
    Reads alloc.grants buffer i c n used ↔ ∃ fuel name underrun, readName alloc c fuel i buffer = .ok ⟨name,n,used,underrun⟩ := by
  constructor
  · intro reads
    cases reads with
    | refused refused => exact ⟨0,none,false,readName_returns.mpr (.refused refused)⟩
    | @whole n t named short long granted =>
        have all : Grants ⟨fun _ => true,alloc.content⟩ := fun _ => rfl
        obtain ⟨fuel,block,used,underrun,read⟩ := named_read all named c
        have returns := readName_returns.mp read
        have calls : used = c+1+t := by
          cases returns_reads returns with
          | refused refused => cases refused
          | whole _ short' long' =>
              congr 1
              exact Nat.le_antisymm (Nat.le_of_not_lt fun less => short (long' t less)) (Nat.le_of_not_lt fun less => short' (long _ less))
          | cut _ _ refused => cases refused
        rw [calls] at returns
        refine ⟨fuel,some block,underrun,readName_returns.mpr (returns.regrant rfl (fun k low high => ?_))⟩
        obtain ⟨m,rfl⟩ := Nat.exists_eq_add_of_le low
        exact granted m (by simp only at high; omega)
    | @cut t long granted refused =>
        have first := granted 0 (Nat.zero_le t)
        obtain ⟨fuel,last,left⟩ := cut_scan (entered_follows first) rfl (Nat.zero_le t) long refused
        have returns : Returns alloc buffer i c fuel ⟨none,last.count,last.calls,false⟩ := .outOfMemory first left
        cases run_followed (entered_follows first) left with
        | cut cut =>
            have same : last.timesForRealloc-1 = t := by
              refine Nat.le_antisymm (Nat.le_of_not_lt fun less => ?_) (Nat.le_of_not_lt fun less => ?_)
              · have again := cut.granted (t+1) less
                rw [show c+0+(t+1) = c+1+t by omega,refused] at again
                cases again
              · have again := granted (last.timesForRealloc-1+1) less
                have failed := cut.refused
                rw [show c+0+1+(last.timesForRealloc-1) = c+(last.timesForRealloc-1+1) by omega,again] at failed
                cases failed
            rw [cut.count,cut.calls,same] at returns
            exact ⟨fuel,none,false,readName_returns.mpr returns⟩
  · intro ⟨fuel,name,underrun,read⟩
    exact returns_reads (readName_returns.mp read)

theorem Reads.unique (one : Reads grants buffer i c n used) (two : Reads grants buffer i c n' used') : n = n' ∧ used = used' := by
  obtain ⟨fuel,name,underrun,read⟩ := (reads_exact ⟨grants,fun _ _ => 0⟩ buffer i c n used).mp one
  obtain ⟨fuel',name',underrun',read'⟩ := (reads_exact ⟨grants,fun _ _ => 0⟩ buffer i c n' used').mp two
  cases (readName_mono read (Nat.le_max_left fuel fuel')).symm.trans (readName_mono read' (Nat.le_max_right fuel fuel'))
  exact ⟨rfl,rfl⟩

theorem Reads.calls (reads : Reads grants buffer i c n used) : c < used := by
  cases reads <;> omega

theorem Reads.regrant (reads : Reads grants buffer i c n used) (agree : ∀ k, c ≤ k → k < used → grants' k = grants k) :
    Reads grants' buffer i c n used := by
  cases reads with
  | refused refused => exact .refused ((agree c (Nat.le_refl c) (Nat.lt_succ_self c)).trans refused)
  | whole named short long granted =>
      exact .whole named short long (fun m within => (agree (c+m) (by omega) (by omega)).trans (granted m within))
  | cut long granted refused =>
      exact .cut long (fun m within => (agree (c+m) (by omega) (by omega)).trans (granted m within))
        ((agree _ (by omega) (by omega)).trans refused)

end PersonalJournal.NameAllocation
