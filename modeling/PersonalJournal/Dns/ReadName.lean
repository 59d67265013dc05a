import PersonalJournal.Lib.Loop
import PersonalJournal.Lib.DomainName

namespace PersonalJournal.ReadName
open Bytes DomainName Loop

inductive Stop where
  -- an access to memory that the process does not have, NULL among it, or a store outside its array
  | fault
  -- still in a loop when the fuel ran out
  | spin
  -- waiting for a mutex that is held
  | blocked
  deriving DecidableEq

-- malloc and realloc by the number of the call: whether it succeeds, and what
-- a fresh block holds. A resized block keeps its bytes.
structure Allocator where
  grants : Nat → Bool
  content : Nat → Block

def initSize : Nat := 256
def increment : Nat := 64

-- The locals of ReadName in its scan loop. `reader` is the index of `*_reader` in the memory from
-- `_buffer` on, which the loop reads however far that is from the end of the array; name is
-- idealised as unbounded, its capacity being initSize + increment * timesForRealloc.
structure Scan where
  reader : Nat
  name : Block
  p : Nat
  jumped : Bool
  count : Nat
  timesForRealloc : Nat
  calls : Nat

inductive ScanEnd where
  | complete (s : Scan)
  | outOfMemory (s : Scan)
  | fault

-- The tail of a turn: `*_count` follows the reader until the first jump, and
-- name grows when `*_count`, not p, reaches its capacity.
def grow (alloc : Allocator) (s : Scan) : Turn Scan ScanEnd :=
  let s := if s.jumped then s else {s with count := s.count+1}
  if initSize + increment*s.timesForRealloc ≤ s.count then
    let grown := {s with timesForRealloc := s.timesForRealloc+1,calls := s.calls+1}
    if alloc.grants s.calls then .again grown else .leave (.outOfMemory grown)
  else .again s

def scanTurn (alloc : Allocator) (buffer : List UInt8) (s : Scan) : Turn Scan ScanEnd :=
  match buffer[s.reader]? with
  -- no memory is mapped there
  | none => .leave .fault
  | some c =>
    if c = 0 then .leave (.complete s)
    else if 192 ≤ c then
      match buffer[s.reader+1]? with
      | none => .leave .fault
      | some d =>
        -- the source sets _reader to _buffer + offset - 1 and then adds one
        let offset := c.toNat*256 + d.toNat - 49152
        grow alloc {s with reader := offset,jumped := true}
    else grow alloc {s with name := s.name.put s.p c,p := s.p+1,reader := s.reader+1}

def shift (name : Block) (i : Nat) : Nat → Block × Nat
  | 0 => (name,i)
  | p+1 => shift (name.put i (name (i+1))) (i+1) p

-- 3www6google3com to www.google.com., the outer loop. The first NUL of name
-- never lies beyond `last`, where the scan loop wrote one.
def convertTurn (last : Nat) (s : Block × Nat) : Turn (Block × Nat) (Block × Nat) :=
  if s.2 < s.1.strlen last then
    let moved := shift s.1 s.2 (s.1 s.2).toNat
    .again (moved.1.put moved.2 dot,moved.2+1)
  else .leave s

-- `none` is NULL; `calls` numbers the calls of the allocator made so far. `underrun` says that
-- name[i - 1] was name[-1], the octet before the block, which is stored to all the same.
structure NameRead where
  name : Option Block
  count : Nat
  calls : Nat
  underrun : Bool

def finish (s : Scan) : Except Stop NameRead :=
  let name := s.name.put s.p 0
  let count := if s.jumped then s.count+1 else s.count
  match run (convertTurn s.p) (s.p+1) (name,0) with
  | none => .error .spin
  | some (name,i) =>
    if i = 0 then .ok ⟨some name,count,s.calls,true⟩ else .ok ⟨some (name.put (i-1) 0),count,s.calls,false⟩

def readName (alloc : Allocator) (calls fuel reader : Nat) (buffer : List UInt8) : Except Stop NameRead :=
  if alloc.grants calls then
    let name := (alloc.content calls).put 0 0
    match run (scanTurn alloc buffer) fuel ⟨reader,name,0,false,1,0,calls+1⟩ with
    | none => .error .spin
    | some .fault => .error .fault
    | some (.outOfMemory s) => .ok ⟨none,s.count,s.calls,false⟩
    | some (.complete s) => finish s
  else .ok ⟨none,1,calls+1,false⟩

theorem readName_mono {read : NameRead} (returned : readName alloc calls fuel reader buffer = .ok read)
    (enough : fuel ≤ more) : readName alloc calls more reader buffer = .ok read := by
  unfold readName at returned ⊢
  split at returned
  · rename_i granted
    rw [if_pos granted]
    simp only at returned ⊢
    split at returned
    · cases returned
    · cases returned
    · rename_i s left; rw [run_mono left enough]; exact returned
    · rename_i s left; rw [run_mono left enough]; exact returned
  · rename_i refused
    rw [if_neg refused]
    exact returned

-- The scan loop keeps the stored octets in name, and does not grow it while
-- *_count stays below the initial capacity.
structure Scanned (s : Scan) (reader : Nat) (stored : List UInt8) (jumped : Bool) (count calls : Nat) : Prop where
  reader : s.reader = reader
  held : s.name.Holds 0 stored
  p : s.p = stored.length
  jumped : s.jumped = jumped
  count : s.count = count
  fresh : s.timesForRealloc = 0
  calls : s.calls = calls

def counted (jumped : Bool) (count k : Nat) : Nat := if jumped then count else count+k

theorem grow_again (alloc : Allocator) (s : Scan) (fresh : s.timesForRealloc = 0)
    (small : counted s.jumped s.count 1 < initSize) :
    grow alloc s = .again {s with count := counted s.jumped s.count 1} := by
  have fits : ¬ initSize + increment*s.timesForRealloc ≤ counted s.jumped s.count 1 := by rw [fresh]; omega
  by_cases jumped : s.jumped
  · rw [counted,if_pos jumped] at fits ⊢
    simp only [grow,if_pos jumped,if_neg fits]
  · rw [counted,if_neg jumped] at fits ⊢
    simp only [grow,if_neg jumped,if_neg fits]

theorem scan_octet (alloc : Allocator) (scanned : Scanned s reader stored jumped count calls)
    (found : buffer[reader]? = some c) (plain : c ≠ 0 ∧ c < 192)
    (small : counted jumped count 1 < initSize) :
    ∃ next, scanTurn alloc buffer s = .again next ∧
      Scanned next (reader+1) (stored ++ [c]) jumped (counted jumped count 1) calls := by
  obtain ⟨rfl,held,p,rfl,rfl,fresh,rfl⟩ := scanned
  refine ⟨{s with name := s.name.put s.p c,p := s.p+1,reader := s.reader+1,count := counted s.jumped s.count 1},?_,?_⟩
  · unfold scanTurn
    rw [found]
    simp only [if_neg plain.1,if_neg (UInt8.not_le.mpr plain.2)]
    exact grow_again alloc _ fresh small
  · refine ⟨rfl,?_,by simp [p],rfl,rfl,fresh,rfl⟩
    have pushed := s.name.holds_push c held
    simpa [p] using pushed

theorem scan_octets (alloc : Allocator) (scanned : Scanned s reader stored jumped count calls)
    (held : At buffer reader octets) (plain : ∀ c ∈ octets, c ≠ 0 ∧ c < 192)
    (small : counted jumped count octets.length < initSize) :
    ∃ next, Reaches (scanTurn alloc buffer) s next ∧
      Scanned next (reader+octets.length) (stored ++ octets) jumped (counted jumped count octets.length) calls := by
  induction octets generalizing s reader stored count with
  | nil => exact ⟨s,.refl s,by simpa [counted] using scanned⟩
  | cons c rest ih =>
      obtain ⟨here,later⟩ := at_cons.mp held
      have step : counted jumped count (rest.length+1) = counted jumped (counted jumped count 1) rest.length := by
        unfold counted; split <;> omega
      have first : counted jumped count 1 < initSize := by
        have : counted jumped count 1 ≤ counted jumped count (c :: rest).length := by
          unfold counted; split <;> simp
        omega
      obtain ⟨middle,turn,scanned⟩ := scan_octet alloc scanned here (plain c (by simp)) first
      obtain ⟨next,path,scanned⟩ := ih scanned later (fun d member => plain d (by simp [member]))
        (by rw [← step]; exact small)
      refine ⟨next,.step turn path,?_⟩
      simpa [step,Nat.add_assoc,Nat.add_comm 1] using scanned

theorem scan_pointer (alloc : Allocator) (scanned : Scanned s reader stored jumped count calls)
    (found : buffer[reader]? = some high) (large : 192 ≤ high) (next : buffer[reader+1]? = some low)
    (small : count < initSize) :
    ∃ t, scanTurn alloc buffer s = .again t ∧
      Scanned t ((high.toNat-192)*256+low.toNat) stored true count calls := by
  obtain ⟨rfl,held,p,rfl,rfl,fresh,rfl⟩ := scanned
  have nonzero : high ≠ 0 := by rintro rfl; exact absurd large (by decide)
  have large' : 192 ≤ high.toNat := UInt8.le_iff_toNat_le.mp large
  refine ⟨{s with reader := high.toNat*256+low.toNat-49152,jumped := true},?_,
    ⟨by simp only; omega,held,p,rfl,rfl,fresh,rfl⟩⟩
  unfold scanTurn
  simp only [found,next,if_neg nonzero,if_pos large]
  have kept := grow_again alloc {s with reader := high.toNat*256+low.toNat-49152,jumped := true} fresh
    (by simpa only [counted,if_pos] using small)
  rw [kept]
  simp only [counted,if_pos]

-- Induction over the encoded name: labels are copied with their length octets,
-- a pointer only moves the reader, and from the first pointer on *_count is frozen.
theorem scan_name (alloc : Allocator) (encoded : Encodes buffer reader labels n) (ascii : Ascii labels) (clear : NulFree labels)
    (scanned : Scanned s reader stored jumped count calls)
    (small : counted jumped count (pack labels).length < initSize) :
    ∃ last, Leaves (scanTurn alloc buffer) s (.complete last) ∧
      last.name.Holds 0 (stored ++ pack labels) ∧ last.p = (stored ++ pack labels).length ∧
      last.calls = calls ∧
      (if last.jumped then last.count+1 else last.count) = (if jumped then count+1 else count+n-1) := by
  induction encoded generalizing s stored jumped count with
  | root found =>
      refine ⟨s,.leave ?_,by simpa [pack] using scanned.held,by simpa [pack] using scanned.p,scanned.calls,?_⟩
      · unfold scanTurn
        rw [scanned.reader,found]
        simp
      · rw [scanned.jumped,scanned.count]
        simp
  | pointer found large next _ ih =>
      have below : count < initSize := by unfold counted at small; split at small <;> omega
      obtain ⟨t,turn,scanned⟩ := scan_pointer alloc scanned found large next below
      obtain ⟨last,leaves,held,p,used,total⟩ := ih ascii clear scanned (by simpa [counted] using below)
      refine ⟨last,.again turn leaves,held,p,used,total.trans ?_⟩
      cases jumped <;> simp
  | @label label i rest n sized held encoded ih =>
      have octets : ∀ c ∈ UInt8.ofNat label.length :: label, c ≠ 0 ∧ c < 192 := by
        intro c member
        rcases List.mem_cons.mp member with rfl | inside
        · exact lengthOctet_plain sized
        · exact ascii_plain ascii clear (by simp) c inside
      have step : counted jumped count (pack (label :: rest)).length =
          counted jumped (counted jumped count (label.length+1)) (pack rest).length := by
        unfold counted; split <;> simp [pack]; omega
      have first : counted jumped count (label.length+1) < initSize := by
        rw [step] at small
        refine Nat.lt_of_le_of_lt ?_ small
        unfold counted; split <;> omega
      obtain ⟨middle,path,scanned⟩ := scan_octets alloc scanned held octets first
      have scanned' : Scanned middle (i+1+label.length) (stored ++ UInt8.ofNat label.length :: label) jumped
          (counted jumped count (label.length+1)) calls := by
        simpa [Nat.add_assoc,Nat.add_comm 1] using scanned
      obtain ⟨last,leaves,held,p,used,total⟩ := ih (fun l member => ascii l (by simp [member]))
        (fun l member => clear l (by simp [member])) scanned' (step ▸ small)
      refine ⟨last,path.leaves leaves,by simpa [pack] using held,by simpa [pack] using p,used,total.trans ?_⟩
      cases jumped
      · simp [counted]; omega
      · simp [counted]

-- The octet at i is lost: a label moves one place down onto its length octet.
theorem shift_label (held : name.Holds 0 (done ++ x :: (label ++ tail))) :
    ∃ moved y, shift name done.length label.length = (moved,done.length+label.length) ∧
      moved.Holds 0 (done ++ label ++ y :: tail) := by
  induction label generalizing name done x with
  | nil => exact ⟨name,x,rfl,by simpa using held⟩
  | cons c rest ih =>
      have next : name (done.length+1) = c := by
        have split : name.Holds 0 ((done ++ [x]) ++ c :: (rest ++ tail)) := by simpa using held
        simpa using name.holds_get split
      have copied := name.holds_replace c held
      rw [Nat.zero_add] at copied
      have copied' : (name.put done.length c).Holds 0 ((done ++ [c]) ++ c :: (rest ++ tail)) := by simpa using copied
      obtain ⟨moved,y,shifted,held⟩ := ih copied'
      refine ⟨moved,y,?_,by simpa using held⟩
      simp only [List.length_append,List.length_singleton] at shifted
      rw [List.length_cons,shift,next,shifted]
      simp [Nat.add_assoc,Nat.add_comm 1]

theorem convert_labels (done : List UInt8) (sized : ∀ label ∈ labels, Sized label) (clear : NulFree labels)
    (held : name.Holds 0 (done ++ (pack labels ++ [0]))) (prior : 0 ∉ done)
    (near : done.length + (pack labels).length ≤ last) :
    ∃ final, Leaves (convertTurn last) (name,done.length) (final,(done ++ dotted labels).length) ∧
      final.Holds 0 (done ++ dotted labels ++ [0]) := by
  induction labels generalizing name done with
  | nil =>
      have length := name.strlen_holds (by simpa [pack] using held) prior (Nat.le_trans (Nat.le_add_right _ _) near)
      refine ⟨name,.leave ?_,by simpa [pack,dotted] using held⟩
      simp [convertTurn,length,dotted]
  | cons label rest ih =>
      have here := sized label (by simp)
      have octet := lengthOctet here
      have all : 0 ∉ done ++ pack (label :: rest) := by
        simpa [prior] using pack_clear sized clear
      have length : name.strlen last = (done ++ pack (label :: rest)).length :=
        name.strlen_holds (by simpa using held) all (by simpa using near)
      have start : name.Holds 0 (done ++ UInt8.ofNat label.length :: (label ++ (pack rest ++ [0]))) := by
        simpa [pack] using held
      have first : name done.length = UInt8.ofNat label.length := by simpa using name.holds_get start
      obtain ⟨moved,y,shifted,kept⟩ := shift_label start
      have dots := moved.holds_replace dot kept
      have dots' : (moved.put (done.length+label.length) dot).Holds 0
          ((done ++ label ++ [dot]) ++ (pack rest ++ [0])) := by simpa using dots
      have turn : convertTurn last (name,done.length) =
          .again (moved.put (done.length+label.length) dot,(done ++ label ++ [dot]).length) := by
        have more : done.length < name.strlen last := by rw [length]; simp [pack]
        simp [convertTurn,more,first,octet,shifted,Nat.add_assoc]
      obtain ⟨final,leaves,whole⟩ := ih _ (fun l member => sized l (by simp [member]))
        (fun l member => clear l (by simp [member])) dots'
        (by simp [prior,dot]; exact clear label (by simp)) (by simp [pack] at near ⊢; omega)
      refine ⟨final,.again turn ?_,by simpa [dotted] using whole⟩
      simpa [dotted] using leaves

theorem shift_index (name : Block) (i p : Nat) : (shift name i p).2 = i+p := by
  induction p generalizing name i with
  | zero => rfl
  | succ p ih => rw [shift,ih]; omega

theorem convert_total (name : Block) (last : Nat) :
    ∃ result, run (convertTurn last) (last+1) (name,0) = some result := by
  refine run_total (fun s => last-s.2) ?_ (by simp)
  intro s next turn
  unfold convertTurn at turn
  split at turn
  · rename_i inside
    have near := s.1.strlenFrom_le 0 last
    cases turn
    simp only [shift_index]
    unfold Block.strlen at inside
    omega
  · cases turn

theorem finish_text (sized : ∀ label ∈ labels, Sized label) (clear : NulFree labels) (named : labels ≠ [])
    (held : s.name.Holds 0 (pack labels)) (p : s.p = (pack labels).length) :
    ∃ block, finish s = .ok ⟨some block,if s.jumped then s.count+1 else s.count,s.calls,false⟩ ∧
      block.IsString (text labels) := by
  have closed := s.name.holds_push 0 held
  rw [Nat.zero_add,← p] at closed
  obtain ⟨final,leaves,whole⟩ := convert_labels [] sized clear (by simpa using closed) (by simp)
    (show [].length + (pack labels).length ≤ s.p by simp [p])
  obtain ⟨result,total⟩ := convert_total (s.name.put s.p 0) s.p
  have same := leaves_unique (run_leaves total) leaves
  rw [List.nil_append] at same whole
  rw [dotted_text named] at same whole
  refine ⟨final.put (text labels).length 0,?_,?_,text_clear named clear⟩
  · simp [finish,total,same]
  · have whole' : final.Holds 0 (text labels ++ dot :: [0]) := by simpa using whole
    have cut := final.holds_replace 0 whole'
    rw [Nat.zero_add] at cut
    exact ((Block.holds_append _).mp (show Block.Holds _ 0 ((text labels ++ [0]) ++ [0]) by simpa using cut)).1

theorem readName_text (granted : alloc.grants calls = true) (encoded : Encodes buffer i labels n)
    (named : labels ≠ []) (ascii : Ascii labels) (clear : NulFree labels) (short : (wire labels).length ≤ 255) :
    ∃ fuel block, readName alloc calls fuel i buffer = .ok ⟨some block,n,calls+1,false⟩ ∧
      block.IsString (text labels) := by
  have small : counted false 1 (pack labels).length < initSize := by
    simp only [wire,List.length_append,List.length_singleton] at short
    simp only [counted,initSize,Bool.false_eq_true,if_false]
    omega
  have start : Scanned ⟨i,(alloc.content calls).put 0 0,0,false,1,0,calls+1⟩ i [] false 1 (calls+1) :=
    ⟨rfl,trivial,rfl,rfl,rfl,rfl,rfl⟩
  obtain ⟨last,leaves,held,p,used,total⟩ := scan_name alloc encoded ascii clear start small
  obtain ⟨fuel,left⟩ := leaves_run leaves
  obtain ⟨block,finished,string⟩ := finish_text encoded.sized clear named (by simpa using held) (by simpa using p)
  refine ⟨fuel,block,?_,string⟩
  have positive := encoded.occupies
  rw [readName,if_pos granted]
  simp only [left,finished,used,total]
  simp

def Decodes (alloc : Allocator) (calls : Nat) (buffer : List UInt8) (i : Nat) (labels : List Label) (n : Nat) : Prop :=
  ∃ fuel, ∀ more, fuel ≤ more → ∃ block used,
    readName alloc calls more i buffer = .ok ⟨some block,n,used,false⟩ ∧ block.IsString (text labels)

theorem compressed_name_decodes (granted : alloc.grants calls = true) (encoded : Encodes buffer i labels n)
    (named : labels ≠ []) (ascii : Ascii labels) (clear : NulFree labels) (short : (wire labels).length ≤ 255) :
    Decodes alloc calls buffer i labels n := by
  obtain ⟨fuel,block,returned,string⟩ := readName_text granted encoded named ascii clear short
  exact ⟨fuel,fun more enough => ⟨block,calls+1,readName_mono returned enough,string⟩⟩

def willing : Allocator := ⟨fun _ => true,fun _ _ => 0xAA⟩

-- "b" followed by a pointer to a pointer to "a".
theorem compressed_name_decodes_chain :
    Decodes willing 0 [1,97,0,192,0,1,98,192,3] 5 [[98],[97]] 4 :=
  compressed_name_decodes rfl
    (.label (⟨by decide,by decide⟩ : Sized [98]) (by decide)
      (.pointer (rfl : _ = some (192 : UInt8)) (by decide) (rfl : _ = some (3 : UInt8))
        (.pointer (rfl : _ = some (192 : UInt8)) (by decide) (rfl : _ = some (0 : UInt8))
          (.label (⟨by decide,by decide⟩ : Sized [97]) (by decide) (.root rfl)))))
    (by decide) (ascii_all rfl) (by unfold NulFree; decide) (by decide)

-- A zero octet inside a label ends the scan: *_count is 2, the name has 3 octets.
theorem nul_label_cut : Encodes [1,0,0] 0 [[0]] 3 ∧ Ascii [[0]] ∧ (wire [[0]]).length ≤ 255 ∧
    (readName willing 0 3 0 [1,0,0]).map (·.count) = .ok 2 ∧ ¬ Decodes willing 0 [1,0,0] 0 [[0]] 3 := by
  refine ⟨.label (⟨by decide,by decide⟩ : Sized [0]) (by decide) (.root rfl),ascii_all rfl,by decide,rfl,?_⟩
  intro ⟨fuel,returns⟩
  obtain ⟨block,used,returned,_,clear⟩ := returns fuel (Nat.le_refl _)
  exact clear (by decide)

end PersonalJournal.ReadName
