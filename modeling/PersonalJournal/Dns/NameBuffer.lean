import PersonalJournal.Dns.NameAllocation

namespace PersonalJournal.NameBuffer
open Bytes DomainName Loop ReadName NameWalk NameAllocation

def capacity (s : Scan) : Nat := initSize+increment*s.timesForRealloc

-- The indices of name that ReadName reads or stores to, each with the capacity name has then.
inductive Touches (alloc : Allocator) (buffer : List UInt8) (i calls : Nat) : Int → Nat → Prop where
  -- name[0] = '\0'
  | opens : Touches alloc buffer i calls 0 initSize
  -- name[p++] = *_reader
  | stores : Reaches (scanTurn alloc buffer) (entered alloc i calls) s → buffer[s.reader]? = some c → c ≠ 0 ∧ c < 192 →
      Touches alloc buffer i calls s.p (capacity s)
  -- name[p] = '\0'
  | closes : Leaves (scanTurn alloc buffer) (entered alloc i calls) (.complete s) → Touches alloc buffer i calls s.p (capacity s)
  -- strlen reads up to the first NUL, at each test of the outer loop.
  | measures : Leaves (scanTurn alloc buffer) (entered alloc i calls) (.complete s) →
      Reaches (convertTurn s.p) (s.name.put s.p 0,0) (name,j) → (∀ m, m < k → name m ≠ 0) →
      Touches alloc buffer i calls k (capacity s)
  -- name[i], read as p; name[i] = name[i + 1], p times; name[i] = '.' behind them.
  | converts : Leaves (scanTurn alloc buffer) (entered alloc i calls) (.complete s) →
      Reaches (convertTurn s.p) (s.name.put s.p 0,0) (name,j) → j < name.strlen s.p → k ≤ (name j).toNat →
      Touches alloc buffer i calls ((j+k : Nat) : Int) (capacity s)
  -- name[i - 1] = '\0'
  | cuts : Leaves (scanTurn alloc buffer) (entered alloc i calls) (.complete s) →
      Leaves (convertTurn s.p) (s.name.put s.p 0,0) (name,j) → Touches alloc buffer i calls ((j : Int)-1) (capacity s)

-- How many octets stand at i before the first pointer or zero octet.
def straight (buffer : List UInt8) (i : Nat) : Nat :=
  ((buffer.drop i).takeWhile (fun c => c ≠ 0 && c < 192)).length

-- The capacity of name when the reader has passed so many octets without a jump.
def room (k : Nat) : Nat := initSize+increment*((k+1+increment-initSize)/increment)

-- Where labels of these octets end: each has as many octets as the first one says, the last one
-- whether they are there or not. `skip` of them are still to come.
def labelsEnd : Nat → List UInt8 → Nat
  | skip,[] => skip
  | 0,c :: rest => labelsEnd c.toNat rest+1
  | skip+1,_ :: rest => labelsEnd skip rest+1

-- The octets of the name, and the labels they make up, fit in what the octets before the first
-- pointer make of name.
def Roomy (buffer : List UInt8) (i : Nat) : Prop :=
  ∃ stored, Closes buffer i stored ∧ stored.length < room (straight buffer i) ∧
    labelsEnd 0 stored ≤ room (straight buffer i)

theorem straight_plain : n ≤ straight buffer i ↔ ∀ k, k < n → Plain buffer (i+k) := by
  rw [straight,takeWhile_reaches]
  simp only [Plain,List.getElem?_drop,Bool.and_eq_true,decide_eq_true_eq]

theorem long_straight (t : Nat) : Long buffer i t ↔ initSize+increment*t ≤ straight buffer i+1 := by
  constructor
  · intro long
    have all : initSize+increment*t-1 ≤ straight buffer i := by
      apply straight_plain.mpr
      intro k near
      exact long k (by omega)
    omega
  · intro near k inside
    exact straight_plain.mp (Nat.le_refl _) k (by omega)

-- What the scan loop has made of name behind its end.
theorem follows_room (follows : Follows grants buffer i c last) (zero : buffer[last.reader]? = some 0) :
    capacity last = room (straight buffer i) := by
  have short := follows.short zero
  have long := follows.long
  simp only [long_straight,initSize,increment] at short long
  have times : last.timesForRealloc = (straight buffer i+1+64-256)/64 := by
    rcases Nat.eq_zero_or_pos last.timesForRealloc with none | some
    · rw [none] at short ⊢
      omega
    · have before := long (last.timesForRealloc-1) (by omega)
      omega
  rw [capacity,room,times,initSize,increment]

-- The scan loop before the first pointer: *_count is one more than p, and below the capacity.
structure Ahead (s : Scan) : Prop where
  room : s.count < capacity s
  straight : s.jumped = false → s.p+1 = s.count

theorem entered_ahead (alloc : Allocator) (i calls : Nat) : Ahead (entered alloc i calls) where
  room := by simp only [capacity,entered,initSize]; omega
  straight _ := rfl

-- Behind a jump name grows no more, however many octets are stored.
structure Onward (s t : Scan) : Prop where
  ahead : Ahead t
  stored : s.p ≤ t.p
  frozen : s.jumped = true → t.jumped = true ∧ capacity t = capacity s

theorem octet_onward (ahead : Ahead s) (straight : s.jumped = false)
    (grows : Grows alloc {s with name := name,p := s.p+1,reader := reader} (.again t)) : Onward s t := by
  have place := ahead.straight straight
  have room := ahead.room
  have more : counted s.jumped s.count 1 = s.count+1 := by rw [straight]; rfl
  rw [capacity] at room
  cases grows with
  | fits fits =>
      simp only [more] at fits ⊢
      refine ⟨⟨fits,fun _ => congrArg Nat.succ place⟩,Nat.le_succ _,?_⟩
      intro jumped
      cases straight.symm.trans jumped
  | granted full granted =>
      simp only [more] at full ⊢
      refine ⟨⟨?_,fun _ => congrArg Nat.succ place⟩,Nat.le_succ _,?_⟩
      · simp only [capacity,increment] at room ⊢
        omega
      · intro jumped
        cases straight.symm.trans jumped

theorem pointer_onward (ahead : Ahead s) (grows : Grows alloc {s with reader := reader,jumped := true} (.again t)) :
    Onward s t := by
  cases grows.still rfl ahead.room
  refine ⟨⟨ahead.room,?_⟩,Nat.le_refl _,fun _ => ⟨rfl,rfl⟩⟩
  intro straight
  cases straight

theorem turn_onward (ahead : Ahead s) (turn : scanTurn alloc buffer s = .again t) : Onward s t := by
  have scans := scanTurn_scans alloc buffer s
  rw [turn] at scans
  cases scans with
  | pointer _ _ _ grows => exact pointer_onward ahead grows
  | octet here plain grows =>
      cases jumped : s.jumped with
      | true =>
          cases grows.still jumped ahead.room
          refine ⟨⟨ahead.room,?_⟩,Nat.le_succ _,fun _ => ⟨jumped,rfl⟩⟩
          intro before
          cases jumped.symm.trans before
      | false => exact octet_onward ahead jumped grows

theorem reached_ahead (reached : Reaches (scanTurn alloc buffer) s t) (ahead : Ahead s) : Ahead t := by
  induction reached with
  | refl => exact ahead
  | tail _ turn ih => exact (turn_onward ih turn).ahead

theorem leaves_onward (leaves : Leaves (scanTurn alloc buffer) s result) (complete : result = .complete last)
    (ahead : Ahead s) : Onward s last := by
  induction leaves with
  | @leave s result turn =>
      have scans := scanTurn_scans alloc buffer s
      rw [turn,complete] at scans
      cases scans with
      | zero => exact ⟨ahead,Nat.le_refl _,fun jumped => ⟨jumped,rfl⟩⟩
      | pointer _ _ _ grows => cases grows
      | octet _ _ grows => cases grows
  | again turn _ ih =>
      have first := turn_onward ahead turn
      have later := ih complete first.ahead
      refine ⟨later.ahead,Nat.le_trans first.stored later.stored,?_⟩
      intro jumped
      obtain ⟨jumped',same⟩ := first.frozen jumped
      obtain ⟨jumped'',same'⟩ := later.frozen jumped'
      exact ⟨jumped'',same'.trans same⟩

-- An octet is stored inside name, unless the whole name does not fit.
theorem stores_inside (reached : Reaches (scanTurn alloc buffer) s t) (ahead : Ahead s)
    (leaves : Leaves (scanTurn alloc buffer) s (.complete last)) (fits : last.p < capacity last) : t.p < capacity t := by
  have before := reached_ahead reached ahead
  cases jumped : t.jumped with
  | false =>
      have place := before.straight jumped
      have room := before.room
      omega
  | true =>
      have rest := leaves_onward (leaves.rest reached) rfl before
      obtain ⟨_,same⟩ := rest.frozen jumped
      rw [← same]
      exact Nat.lt_of_le_of_lt rest.stored fits

-- The string in name has n octets.
structure Whole (name : Block) (n : Nat) : Prop where
  plain : ∀ m, m < n → name m ≠ 0
  zero : name n = 0

theorem Whole.strlen (whole : Whole name n) (near : n ≤ limit) : name.strlen limit = n := by
  apply Nat.le_antisymm
  · apply name.strlenFrom_zero
    rw [Nat.zero_add]
    exact whole.zero
  · apply name.le_strlenFrom _ near
    intro m inside
    rw [Nat.zero_add]
    exact whole.plain m inside

-- One turn of the outer loop: the octets of the label move down by one, and a dot comes behind.
def converted (name : Block) (j : Nat) : Block := (shift name j (name j).toNat).1.put (j+(name j).toNat) dot

theorem shift_value (name : Block) (i p m : Nat) :
    (shift name i p).1 m = if i ≤ m ∧ m < i+p then name (m+1) else name m := by
  induction p generalizing name i with
  | zero =>
      rw [if_neg (by omega)]
      rfl
  | succ p ih =>
      rw [shift,ih]
      rcases Nat.lt_trichotomy m i with below | rfl | above
      · rw [if_neg (by omega),if_neg (by omega),Block.put_other _ _ (by omega)]
      · rw [if_neg (by omega),if_pos (by omega),Block.put_same]
      · rw [Block.put_other _ _ (by omega),Block.put_other _ _ (by omega)]
        by_cases inside : m < i+(p+1)
        · rw [if_pos (by omega),if_pos (by omega)]
        · rw [if_neg (by omega),if_neg (by omega)]

theorem converted_moved (low : j ≤ m) (high : m < j+(name j).toNat) : converted name j m = name (m+1) := by
  rw [converted,Block.put_other _ _ (Nat.ne_of_lt high),shift_value,if_pos ⟨low,high⟩]

theorem converted_dot (name : Block) (j : Nat) : converted name j (j+(name j).toNat) = dot := Block.put_same _ _ _

theorem converted_other (outside : m < j ∨ j+(name j).toNat < m) : converted name j m = name m := by
  rw [converted,Block.put_other _ _ (by omega),shift_value,if_neg (by omega)]

theorem convertTurn_again (inside : j < name.strlen last) :
    convertTurn last (name,j) = .again (converted name j,j+(name j).toNat+1) := by
  unfold convertTurn
  rw [if_pos inside]
  simp only [shift_index]
  rfl

theorem convertTurn_leave (outside : name.strlen last ≤ j) : convertTurn last (name,j) = .leave (name,j) := by
  unfold convertTurn
  rw [if_neg (Nat.not_lt.mpr outside)]

-- A label that ends before the NUL leaves the string as long as it was.
theorem Whole.inside (whole : Whole name n) (fits : j+(name j).toNat < n) : Whole (converted name j) n where
  plain m before := by
    rcases Nat.lt_trichotomy m (j+(name j).toNat) with near | rfl | past
    · by_cases low : j ≤ m
      · rw [converted_moved low near]
        apply whole.plain
        omega
      · rw [converted_other (.inl (Nat.lt_of_not_le low))]
        exact whole.plain m before
    · rw [converted_dot]
      decide
    · rw [converted_other (.inr past)]
      exact whole.plain m before
  zero := by
    rw [converted_other (.inr fits)]
    exact whole.zero

-- A label that goes on behind the NUL takes the NUL down with it.
theorem Whole.outside (whole : Whole name n) (here : j < n) (past : n ≤ j+(name j).toNat) : converted name j (n-1) = 0 := by
  rw [converted_moved (by omega) (by omega),Nat.sub_add_cancel (Nat.lt_of_le_of_lt (Nat.zero_le j) here)]
  exact whole.zero

-- In every turn there is a NUL in the n octets and the one behind them, and once a label has gone
-- on behind it the loop ends.
theorem reached_closed (reached : Reaches (convertTurn n) (start,0) s) (whole : Whole start n) :
    Whole s.1 n ∨ ∃ z, z < n ∧ n < s.2 ∧ s.1 z = 0 := by
  induction reached with
  | refl => exact .inl whole
  | @tail middle next _ turn ih =>
      obtain ⟨name,j⟩ := middle
      have size := name.strlenFrom_le 0 n
      by_cases inside : j < name.strlen n
      · rw [convertTurn_again inside] at turn
        cases turn
        rcases ih with whole | ⟨z,near,past,zero⟩
        · rw [whole.strlen (Nat.le_refl n)] at inside
          by_cases fits : j+(name j).toNat < n
          · exact .inl (whole.inside fits)
          · right
            refine ⟨n-1,?_,?_,?_⟩
            · omega
            · simp only
              omega
            · exact whole.outside inside (Nat.le_of_not_lt fits)
        · rw [Block.strlen] at inside
          simp only at past
          omega
      · rw [convertTurn_leave (Nat.le_of_not_lt inside)] at turn
        cases turn

theorem labelsEnd_skip (skip : Nat) (rest : List UInt8) (fits : skip ≤ rest.length) :
    labelsEnd skip rest = skip+labelsEnd 0 (rest.drop skip) := by
  induction skip generalizing rest with
  | zero => rw [List.drop_zero,Nat.zero_add]
  | succ skip ih =>
      cases rest with
      | nil => cases fits
      | cons c rest =>
          rw [labelsEnd,ih rest (Nat.le_of_succ_le_succ fits),List.drop_succ_cons]
          omega

theorem labelsEnd_short (skip : Nat) (rest : List UInt8) (short : rest.length ≤ skip) : labelsEnd skip rest = skip := by
  induction rest generalizing skip with
  | nil => cases skip <;> rfl
  | cons c rest ih =>
      cases skip with
      | zero => cases short
      | succ skip => rw [labelsEnd,ih skip (Nat.le_of_succ_le_succ short)]

-- Induction over the labels: the loop stops where the last of them ends.
theorem convert_ends (whole : Whole name n) (held : name.Holds j rest) (place : j+rest.length = n) :
    ∃ final, Leaves (convertTurn n) (name,j) (final,j+labelsEnd 0 rest) := by
  induction size : rest.length using Nat.strong_induction_on generalizing name j rest with
  | h size ih =>
      cases rest with
      | nil =>
          refine ⟨name,.leave ?_⟩
          apply convertTurn_leave
          rw [whole.strlen (Nat.le_refl n)]
          exact Nat.le_of_eq place.symm
      | cons c tail =>
          obtain ⟨rfl,behind⟩ := held
          rw [List.length_cons] at place size
          have inside : j < name.strlen n := by
            rw [whole.strlen (Nat.le_refl n)]
            omega
          have turn := convertTurn_again inside
          by_cases fits : (name j).toNat ≤ tail.length
          · have held' : (converted name j).Holds (j+(name j).toNat+1) (tail.drop (name j).toNat) := by
              have later := name.holds_drop behind fits
              rw [Nat.add_right_comm] at later
              apply Block.holds_congr _ later
              intro m past
              exact converted_other (.inr past)
            obtain ⟨final,leaves⟩ := ih _ (by rw [List.length_drop]; omega) (whole.inside (by omega)) held'
              (by rw [List.length_drop]; omega) rfl
            refine ⟨final,.again turn ?_⟩
            rw [labelsEnd,labelsEnd_skip _ tail fits]
            rwa [show j+((name j).toNat+labelsEnd 0 (tail.drop (name j).toNat)+1) =
              j+(name j).toNat+1+labelsEnd 0 (tail.drop (name j).toNat) by omega]
          · refine ⟨converted name j,.again turn ?_⟩
            rw [labelsEnd,labelsEnd_short _ tail (Nat.le_of_not_le fits)]
            apply Leaves.leave
            apply convertTurn_leave
            have zero := whole.outside (j:=j) (by omega) (by omega)
            rw [← Nat.zero_add (n-1)] at zero
            have near := (converted name j).strlenFrom_zero n zero
            rw [Block.strlen]
            omega

-- What the scan loop leaves to the outer loop.
structure Left (buffer : List UInt8) (i : Nat) (s : Scan) (stored : List UInt8) : Prop where
  closes : Closes buffer i stored
  p : s.p = stored.length
  held : (s.name.put s.p 0).Holds 0 stored
  whole : Whole (s.name.put s.p 0) s.p
  capacity : capacity s = room (straight buffer i)

theorem ended_left (granted : Grants alloc)
    (ended : Leaves (scanTurn alloc buffer) (entered alloc i calls) (.complete s)) : ∃ stored, Left buffer i s stored := by
  rcases leaves_closes granted ended with fault | ⟨stored,closes⟩
  · cases fault
  · obtain ⟨last,leaves,scanned⟩ := scan_closes granted closes (entered alloc i calls) rfl
    cases leaves_unique ended leaves
    have p : s.p = stored.length := by
      rw [scanned.p]
      exact Nat.zero_add _
    have held := scanned.held [] trivial rfl
    rw [List.nil_append] at held
    refine ⟨stored,closes,p,?_,⟨?_,Block.put_same _ _ _⟩,?_⟩
    · exact (s.name.holds_put 0 (.inr (by rw [Nat.zero_add,p]))).mpr held
    · intro m inside
      rw [Block.put_other _ _ (Nat.ne_of_lt inside),← Nat.zero_add m]
      apply s.name.holds_all held closes.nonzero
      rwa [← p]
    · obtain ⟨fuel,left⟩ := leaves_run ended
      cases run_followed (entered_follows (granted calls)) left with
      | complete follows zero => exact follows_room follows zero

theorem Left.ends (left : Left buffer i s stored) :
    ∃ final, Leaves (convertTurn s.p) (s.name.put s.p 0,0) (final,labelsEnd 0 stored) := by
  have ends := convert_ends left.whole left.held (by rw [left.p,Nat.zero_add])
  rwa [Nat.zero_add] at ends

theorem labelsEnd_pos {stored : List UInt8} (size : p = stored.length) (some : 0 < p) : 0 < labelsEnd 0 stored := by
  cases stored with
  | nil =>
      rw [size] at some
      cases some
  | cons c rest => exact Nat.succ_pos _

-- Every access, when the name and its labels fit.
theorem touched_inside (left : Left buffer i s stored)
    (ended : Leaves (scanTurn alloc buffer) (entered alloc i calls) (.complete s)) (some : 0 < s.p)
    (fits : s.p < capacity s) (labels : labelsEnd 0 stored ≤ capacity s) (touches : Touches alloc buffer i calls k cap) :
    0 ≤ k ∧ k < cap := by
  obtain ⟨final,ends⟩ := left.ends
  cases touches with
  | opens => decide
  | stores reached here plain =>
      have inside := stores_inside reached (entered_ahead alloc i calls) ended fits
      omega
  | closes other =>
      cases leaves_unique ended other
      omega
  | @measures _ name j k other reached plain =>
      cases leaves_unique ended other
      have near : k ≤ s.p := by
        apply Nat.le_of_not_lt
        intro past
        rcases reached_closed reached left.whole with whole | ⟨z,below,_,zero⟩
        · exact plain s.p past whole.zero
        · exact plain z (Nat.lt_trans below past) zero
      omega
  | @converts _ name j k other reached inside near =>
      cases leaves_unique ended other
      cases ends.rest reached with
      | leave turn =>
          rw [convertTurn_again inside] at turn
          cases turn
      | again turn later =>
          rw [convertTurn_again inside] at turn
          cases turn
          have onward := convert_index later
          simp only at onward
          omega
  | cuts other leaves =>
      cases leaves_unique ended other
      cases leaves_unique ends leaves
      have labelled := labelsEnd_pos left.p some
      omega

-- The last of the scan loop's accesses and the last of the outer loop's.
theorem inside_fits (left : Left buffer i s stored)
    (ended : Leaves (scanTurn alloc buffer) (entered alloc i calls) (.complete s))
    (inside : ∀ k cap, Touches alloc buffer i calls k cap → 0 ≤ k ∧ k < cap) :
    stored.length < room (straight buffer i) ∧ labelsEnd 0 stored ≤ room (straight buffer i) := by
  obtain ⟨final,ends⟩ := left.ends
  have size := left.p
  have room := left.capacity
  have closed := (inside _ _ (.closes ended)).2
  have cut := (inside _ _ (.cuts ended ends)).2
  omega

theorem touches_inside (granted : Grants alloc)
    (ended : Leaves (scanTurn alloc buffer) (entered alloc i calls) (.complete s)) (some : 0 < s.p) :
    (∀ k cap, Touches alloc buffer i calls k cap → 0 ≤ k ∧ k < cap) ↔ Roomy buffer i := by
  obtain ⟨stored,left⟩ := ended_left granted ended
  constructor
  · intro inside
    exact ⟨stored,left.closes,inside_fits left ended inside⟩
  · intro ⟨other,closes,short,labels⟩ k cap touches
    cases left.closes.unique closes
    rw [← left.capacity] at short labels
    rw [← left.p] at short
    exact touched_inside left ended some short labels touches

theorem octets_close (octets : List UInt8) (plain : ∀ c ∈ octets, c ≠ 0 ∧ c < 192) (held : At buffer i octets)
    (rest : Closes buffer (i+octets.length) stored) : Closes buffer i (octets ++ stored) := by
  induction octets generalizing i with
  | nil => exact rest
  | cons c octets ih =>
      obtain ⟨here,later⟩ := at_cons.mp held
      obtain ⟨first,others⟩ := List.forall_mem_cons.mp plain
      apply Closes.octet here first
      apply ih others later
      rwa [Nat.add_assoc,Nat.add_comm 1]

theorem encoded_packed (encoded : Encodes buffer i labels n) (ascii : Ascii labels) (clear : NulFree labels) :
    Closes buffer i (pack labels) := by
  induction encoded with
  | root here => exact .zero here
  | @pointer i high low labels n here large behind _ ih =>
      have large' : 192 ≤ high.toNat := UInt8.le_iff_toNat_le.mp large
      have target : (high.toNat-192)*256+low.toNat = high.toNat*256+low.toNat-49152 := by omega
      have onward := ih ascii clear
      rw [target] at onward
      exact .pointer here large behind onward
  | @label label i rest n sized held _ ih =>
      have later := ih (fun l member => ascii l (List.mem_cons_of_mem _ member))
        (fun l member => clear l (List.mem_cons_of_mem _ member))
      obtain ⟨first,octets⟩ := at_cons.mp held
      apply Closes.octet first (lengthOctet_plain sized)
      apply octets_close label _ octets later
      exact ascii_plain ascii clear List.mem_cons_self

theorem labelsEnd_packed (sized : ∀ label ∈ labels, Sized label) : labelsEnd 0 (pack labels) = (pack labels).length := by
  induction labels with
  | nil => rfl
  | cons label rest ih =>
      obtain ⟨here,others⟩ := List.forall_mem_cons.mp sized
      have later := ih others
      simp only [pack,labelsEnd,lengthOctet here,List.length_cons,List.length_append]
      rw [labelsEnd_skip _ _ (by rw [List.length_append]; omega),List.drop_left,later]

-- A name that DNS admits fits, wherever its pointers lead.
theorem encoded_roomy (encoded : Encodes buffer i labels n) (ascii : Ascii labels) (clear : NulFree labels)
    (short : (wire labels).length ≤ 255) : Roomy buffer i := by
  refine ⟨pack labels,encoded_packed encoded ascii clear,?_⟩
  rw [labelsEnd_packed encoded.sized,room,initSize]
  simp only [wire,List.length_append,List.length_singleton] at short
  omega

-- "b" and a pointer to "a".
theorem touches_inside_pointer : ∃ s, Leaves (scanTurn willing [1,97,0,1,98,192,0]) (entered willing 3 0) (.complete s) ∧
    0 < s.p ∧ ∀ k cap, Touches willing [1,97,0,1,98,192,0] 3 0 k cap → 0 ≤ k ∧ k < cap := by
  have encoded : Encodes [1,97,0,1,98,192,0] 3 [[98],[97]] 4 :=
    .label (⟨by decide,by decide⟩ : Sized [98]) (by decide)
      (.pointer (rfl : _ = some (192 : UInt8)) (by decide) (rfl : _ = some (0 : UInt8))
        (.label (⟨by decide,by decide⟩ : Sized [97]) (by decide) (.root rfl)))
  have roomy := encoded_roomy encoded (ascii_all rfl) (by unfold NulFree; decide) (by decide)
  have closes := encoded_packed encoded (ascii_all rfl) (by unfold NulFree; decide)
  have granted : Grants willing := fun _ => rfl
  obtain ⟨s,ended,scanned⟩ := scan_closes granted closes (entered willing 3 0) rfl
  have some : 0 < s.p := by
    rw [scanned.p]
    decide
  exact ⟨s,ended,some,(touches_inside granted ended some).mpr roomy⟩

theorem closes_overruns (granted : Grants alloc) (closes : Closes buffer i stored) (named : stored ≠ [])
    (past : room (straight buffer i) ≤ stored.length ∨ room (straight buffer i) < labelsEnd 0 stored) (calls : Nat) :
    ∃ s, Leaves (scanTurn alloc buffer) (entered alloc i calls) (.complete s) ∧ 0 < s.p ∧
      ¬ ∀ k cap, Touches alloc buffer i calls k cap → 0 ≤ k ∧ k < cap := by
  obtain ⟨s,ended,scanned⟩ := scan_closes granted closes (entered alloc i calls) rfl
  refine ⟨s,ended,?_,?_⟩
  · rw [scanned.p]
    exact Nat.lt_of_lt_of_le (List.length_pos_iff.mpr named) (Nat.le_add_left _ _)
  · intro inside
    obtain ⟨other,left⟩ := ended_left granted ended
    cases closes.unique left.closes
    have fits := inside_fits left ended inside
    omega

-- A pointer to 300 octets without a zero: *_count stands still at 1, and name is not grown.
def jumpedName : List UInt8 := List.replicate 19 0 ++ [192,21] ++ List.replicate 300 97 ++ List.replicate 1727 0

-- Three labels of 63 octets, and a length octet with nothing behind it.
def longLabel : List UInt8 := List.replicate 19 0 ++ (List.replicate 192 63 ++ [191]) ++ List.replicate 1836 0

theorem replicate_plain (k : Nat) {d : UInt8} (plain : d ≠ 0 ∧ d < 192) : ∀ c ∈ List.replicate k d, c ≠ 0 ∧ c < 192 := by
  intro c member
  rw [List.eq_of_mem_replicate member]
  exact plain

theorem jumped_closes : Closes jumpedName 19 (List.replicate 300 97) := by
  have held : At jumpedName 21 (List.replicate 300 97) :=
    at_middle (List.replicate 19 0 ++ [192,21]) (List.replicate 300 97) (List.replicate 1727 0)
  have zero : jumpedName[21+(List.replicate 300 (97 : UInt8)).length]? = some 0 := by decide +kernel
  have octets := octets_close _ (replicate_plain 300 (by decide)) held (.zero zero)
  rw [List.append_nil] at octets
  exact .pointer (rfl : _ = some (192 : UInt8)) (by decide) (rfl : _ = some (21 : UInt8)) octets

theorem long_closes : Closes longLabel 19 (List.replicate 192 63 ++ [191]) := by
  have held : At longLabel 19 (List.replicate 192 63 ++ [191]) :=
    at_middle (List.replicate 19 0) (List.replicate 192 63 ++ [191]) (List.replicate 1836 0)
  have zero : longLabel[19+(List.replicate 192 (63 : UInt8) ++ [191]).length]? = some 0 := by decide +kernel
  have plain : ∀ c ∈ List.replicate 192 (63 : UInt8) ++ [191], c ≠ 0 ∧ c < 192 := by
    intro c member
    rcases List.mem_append.mp member with label | last
    · exact replicate_plain 192 (by decide) c label
    · rw [List.mem_singleton.mp last]
      decide
  have octets := octets_close _ plain held (.zero zero)
  rwa [List.append_nil] at octets

-- Octets are stored behind the end of name in the one, moved down from there in the other.
theorem names_overrun :
    (∃ s, Leaves (scanTurn always jumpedName) (entered always 19 0) (.complete s) ∧ 0 < s.p ∧
      ¬ ∀ k cap, Touches always jumpedName 19 0 k cap → 0 ≤ k ∧ k < cap) ∧
    ∃ s, Leaves (scanTurn always longLabel) (entered always 19 0) (.complete s) ∧ 0 < s.p ∧
      ¬ ∀ k cap, Touches always longLabel 19 0 k cap → 0 ≤ k ∧ k < cap := by
  constructor
  · apply closes_overruns always_grants jumped_closes (List.cons_ne_nil _ _)
    left
    decide +kernel
  · apply closes_overruns always_grants long_closes (List.cons_ne_nil _ _)
    right
    decide +kernel

end PersonalJournal.NameBuffer
