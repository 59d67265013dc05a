import PersonalJournal.Dns.NameAllocation
import PersonalJournal.Dns.RecordWalk

namespace PersonalJournal.AnswerWalk
open Bytes ResourceRecord ReadName NameWalk NameAllocation Query Answer RecordWalk

-- A block with this RDATA in it: behind it a zero octet, and then what malloc found in the block.
def filled (content : Block) (data : List UInt8) : Block := fun k => (data ++ [0])[k]?.getD (content k)

theorem filled_put {block : Block} (held : block.Holds 0 data) (rest : ∀ k, data.length ≤ k → block k = content k) :
    block.put data.length 0 = filled content data := by
  funext k
  rcases Nat.lt_trichotomy k data.length with inside | rfl | behind
  · have found := congrArg (·[k]?) (block.holds_map held)
    simp only [Nat.zero_add,List.getElem?_map,List.getElem?_range inside,Option.map_some] at found
    rw [Block.put_other _ _ (Nat.ne_of_lt inside),filled,List.getElem?_append_left inside,← found,Option.getD_some]
  · rw [Block.put_same,filled,List.getElem?_concat_length,Option.getD_some]
  · rw [Block.put_other _ _ (Nat.ne_of_gt behind),rest k (Nat.le_of_lt behind),filled,
      List.getElem?_eq_none (by simp; omega),Option.getD_none]

theorem copied_filled {block : Block} (copied : copyOctets content buffer reader n = .ok block) :
    ∃ data, data.length = n ∧ At buffer reader data ∧ block.put n 0 = filled content data := by
  obtain ⟨data,rfl,held,holds,rest⟩ := copyOctets_at copied
  exact ⟨data,rfl,held,filled_put holds rest⟩

theorem filled_copied (content : Block) (held : At buffer reader data) :
    ∃ block, copyOctets content buffer reader data.length = .ok block ∧ block.put data.length 0 = filled content data := by
  obtain ⟨block,copied,_⟩ := copyOctets_holds content held (Nat.le_refl _)
  obtain ⟨data',same,held',put⟩ := copied_filled copied
  cases at_unique held held' same.symm
  exact ⟨block,copied,put⟩

-- A turn of the loop of ReadRecvAnswer from octet i and call number c: the block with RDATA of
-- the wanted type, if it comes by any, and where the next turn starts unless there is no block.
inductive Turns (wanted : Nat) (alloc : Allocator) (buffer : List UInt8) (i c : Nat) :
    Option Block → Option (Nat × Nat) → Prop where
  | refused : Reads alloc.grants buffer i c n used → read16 buffer (i+n) = some wanted →
      read16 buffer (i+n+dataLenOffset) = some size → alloc.grants used = false → Turns wanted alloc buffer i c none none
  | address : Reads alloc.grants buffer i c n used → read16 buffer (i+n) = some wanted →
      read16 buffer (i+n+dataLenOffset) = some data.length → At buffer (i+n+fixedSize) data → alloc.grants used = true →
      Turns wanted alloc buffer i c (some (filled (alloc.content used) data)) (some (i+n+fixedSize+data.length,used+1))
  | other : Reads alloc.grants buffer i c n used → read16 buffer (i+n) = some type → type ≠ wanted →
      Reads alloc.grants buffer (i+n+fixedSize) used m used' →
      Turns wanted alloc buffer i c none (some (i+n+fixedSize+m,used'))

-- The entry that such a turn leaves for the collection loop to read.
inductive Keeps (wanted : Nat) (buffer : List UInt8) (answer : ResRecord) : Option Block → Prop where
  | address : answer.resource = some off → read16 buffer off = some wanted → answer.rdata = some block →
      Keeps wanted buffer answer (some block)
  | other : answer.resource = some off → read16 buffer off = some type → type ≠ wanted → Keeps wanted buffer answer none

-- An entry of the wanted type whose RDATA is NULL.
structure Bare (wanted : Nat) (buffer : List UInt8) (answer : ResRecord) : Prop where
  resource : ∃ off, answer.resource = some off ∧ read16 buffer off = some wanted
  rdata : answer.rdata = none

theorem recvTurn_turns (returned : recvTurn wanted alloc fuel buffer i c = .ok (answer,onward)) :
    (onward = none ∧ Turns wanted alloc buffer i c none none ∧ Bare wanted buffer answer) ∨
    ∃ a j used, onward = some (j,used) ∧ Turns wanted alloc buffer i c a (some (j,used)) ∧ Keeps wanted buffer answer a := by
  unfold recvTurn at returned
  obtain ⟨⟨name,n,used,underrun⟩,read,returned⟩ := bind_ok.mp returned
  obtain ⟨type,found,returned⟩ := bind_ok.mp returned
  have reads := (reads_exact ..).mpr ⟨_,_,_,read⟩
  have type' := orFault_ok.mp found
  split at returned
  · rename_i same
    rw [same] at type'
    obtain ⟨dataLen,size,returned⟩ := bind_ok.mp returned
    have size' := orFault_ok.mp size
    split at returned
    · rename_i granted
      obtain ⟨block,copied,returned⟩ := bind_ok.mp returned
      obtain ⟨data,rfl,held,put⟩ := copied_filled copied
      cases returned
      refine .inr ⟨_,_,_,rfl,.address reads type' size' held granted,?_⟩
      rw [← put]
      exact .address rfl type' rfl
    · rename_i refused
      cases returned
      exact .inl ⟨rfl,.refused reads type' size' (by simpa using refused),⟨_,rfl,type'⟩,rfl⟩
  · rename_i differ
    obtain ⟨⟨rdata,m,used',underrun'⟩,target,returned⟩ := bind_ok.mp returned
    cases returned
    exact .inr ⟨_,_,_,rfl,.other reads type' differ ((reads_exact ..).mpr ⟨_,_,_,target⟩),.other rfl type' differ⟩

theorem refused_recvTurn (turns : Turns wanted alloc buffer i c a none) :
    ∃ fuel answer, recvTurn wanted alloc fuel buffer i c = .ok (answer,none) ∧ Bare wanted buffer answer := by
  cases turns with
  | @refused n _ _ reads type size refused =>
      obtain ⟨fuel,name,underrun,read⟩ := (reads_exact ..).mp reads
      refine ⟨fuel,⟨name,some (i+n),none⟩,?_,⟨_,rfl,type⟩,rfl⟩
      rw [recvTurn,read,ok_bind]
      simp only [type,orFault_some,ok_bind,if_true,size,refused,Bool.false_eq_true,if_false,pure_ok]

theorem turns_recvTurn (turns : Turns wanted alloc buffer i c a (some (j,used))) :
    ∃ fuel answer, recvTurn wanted alloc fuel buffer i c = .ok (answer,some (j,used)) ∧ Keeps wanted buffer answer a := by
  cases turns with
  | @address n before data reads type size held granted =>
      obtain ⟨fuel,name,underrun,read⟩ := (reads_exact ..).mp reads
      obtain ⟨block,copied,put⟩ := filled_copied (alloc.content before) held
      refine ⟨fuel,⟨name,some (i+n),some (block.put data.length 0)⟩,?_,?_⟩
      · rw [recvTurn,read,ok_bind]
        simp only [type,orFault_some,ok_bind,if_true,size,granted,copied,pure_ok]
      · rw [← put]
        exact .address rfl type rfl
  | @other n before type m _ reads type' differ target =>
      obtain ⟨fuel,name,underrun,read⟩ := (reads_exact ..).mp reads
      obtain ⟨fuel',rdata,underrun',read'⟩ := (reads_exact ..).mp target
      refine ⟨max fuel fuel',⟨name,some (i+n),rdata⟩,?_,.other rfl type' differ⟩
      rw [recvTurn,readName_mono read (Nat.le_max_left fuel fuel'),ok_bind]
      simp only [type',orFault_some,ok_bind,if_neg differ,readName_mono read' (Nat.le_max_right fuel fuel'),pure_ok]

-- The RDATA that the loop comes by in `left` turns, none being refused a block.
inductive Finds (wanted : Nat) (alloc : Allocator) (buffer : List UInt8) : Nat → Nat → Nat → List Block → Prop where
  | nil : Finds wanted alloc buffer 0 i c []
  | cons : Turns wanted alloc buffer i c a (some (j,used)) → Finds wanted alloc buffer left j used found →
      Finds wanted alloc buffer (left+1) i c (a.toList ++ found)

-- It comes by RDATA that is refused a block.
inductive Starves (wanted : Nat) (alloc : Allocator) (buffer : List UInt8) : Nat → Nat → Nat → Prop where
  | here : Turns wanted alloc buffer i c a none → Starves wanted alloc buffer (left+1) i c
  | later : Turns wanted alloc buffer i c a (some (j,used)) → Starves wanted alloc buffer left j used →
      Starves wanted alloc buffer (left+1) i c

inductive Entries (wanted : Nat) (buffer : List UInt8) : List ResRecord → List Block → Prop where
  | nil : Entries wanted buffer [] []
  | cons : Keeps wanted buffer answer a → Entries wanted buffer rest found →
      Entries wanted buffer (answer :: rest) (a.toList ++ found)

-- The loop has returned behind the last of these entries.
inductive Stopped (wanted : Nat) (buffer : List UInt8) : List ResRecord → Prop where
  | here : Bare wanted buffer answer → Stopped wanted buffer [answer]
  | later : Keeps wanted buffer answer a → Stopped wanted buffer rest → Stopped wanted buffer (answer :: rest)

theorem Entries.length (entries : Entries wanted buffer answers found) : found.length ≤ answers.length := by
  induction entries with
  | nil => exact Nat.le_refl 0
  | @cons _ a _ _ _ _ ih =>
      cases a with
      | none => exact Nat.le_succ_of_le ih
      | some block => exact Nat.succ_le_succ ih

theorem parse_finds {answers : List ResRecord} (returned : readAnswers wanted alloc fuel buffer left i c = .ok answers) :
    (∃ found, Finds wanted alloc buffer left i c found ∧ Entries wanted buffer answers found ∧ answers.length = left) ∨
      Starves wanted alloc buffer left i c ∧ Stopped wanted buffer answers ∧ answers.length ≤ left := by
  induction left generalizing i c answers with
  | zero =>
      cases returned
      exact .inl ⟨[],.nil,.nil,rfl⟩
  | succ left ih =>
      rw [readAnswers] at returned
      obtain ⟨⟨answer,onward⟩,turn,returned⟩ := bind_ok.mp returned
      rcases recvTurn_turns turn with ⟨rfl,turns,bare⟩ | ⟨a,j,used,rfl,turns,keeps⟩
      · cases returned
        exact .inr ⟨.here turns,.here bare,by simp⟩
      · obtain ⟨rest,later,returned⟩ := bind_ok.mp returned
        cases returned
        rcases ih later with ⟨found,finds,entries,length⟩ | ⟨starves,stopped,short⟩
        · exact .inl ⟨_,.cons turns finds,.cons keeps entries,congrArg Nat.succ length⟩
        · exact .inr ⟨.later turns starves,.later keeps stopped,Nat.succ_le_succ short⟩

theorem finds_parse (finds : Finds wanted alloc buffer left i c found) :
    ∃ fuel answers, readAnswers wanted alloc fuel buffer left i c = .ok answers ∧ Entries wanted buffer answers found ∧
      answers.length = left := by
  induction finds with
  | nil => exact ⟨0,[],rfl,.nil,rfl⟩
  | cons turns _ ih =>
      obtain ⟨fuel,answer,turn,keeps⟩ := turns_recvTurn turns
      obtain ⟨fuel',rest,later,entries,length⟩ := ih
      refine ⟨max fuel fuel',answer :: rest,?_,.cons keeps entries,congrArg Nat.succ length⟩
      rw [readAnswers,recvTurn_mono turn (Nat.le_max_left fuel fuel'),ok_bind]
      simp only [readAnswers_mono later (Nat.le_max_right fuel fuel'),ok_bind,pure_ok]

theorem starves_parse (starves : Starves wanted alloc buffer left i c) :
    ∃ fuel answers, readAnswers wanted alloc fuel buffer left i c = .ok answers ∧ Stopped wanted buffer answers ∧
      answers.length ≤ left := by
  induction starves with
  | here turns =>
      obtain ⟨fuel,answer,turn,bare⟩ := refused_recvTurn turns
      refine ⟨fuel,[answer],?_,.here bare,by simp⟩
      rw [readAnswers,turn,ok_bind]
      rfl
  | later turns _ ih =>
      obtain ⟨fuel,answer,turn,keeps⟩ := turns_recvTurn turns
      obtain ⟨fuel',rest,later,stopped,short⟩ := ih
      refine ⟨max fuel fuel',answer :: rest,?_,.later keeps stopped,Nat.succ_le_succ short⟩
      rw [readAnswers,recvTurn_mono turn (Nat.le_max_left fuel fuel'),ok_bind]
      simp only [readAnswers_mono later (Nat.le_max_right fuel fuel'),ok_bind,pure_ok]

theorem nth_answer {all : List ResRecord} (tail : all.drop i = answer :: rest) :
    all[i]?.getD .zero = answer ∧ all.drop (i+1) = rest := by
  constructor
  · rw [← List.head?_drop,tail]
    rfl
  · rw [← List.tail_drop,tail]
    rfl

-- The collection loop comes to the end of such entries and hands on each block in turn.
theorem collectWith_entries (add : τ → Block → Option τ) (all : List ResRecord) (entries : Entries wanted buffer answers found)
    (tail : all.drop i = answers) (t : τ) :
    collectWith wanted add buffer all answers.length i t = orFault (found.foldlM add t) := by
  induction entries generalizing i t with
  | nil => rfl
  | @cons answer a rest found keeps _ ih =>
      obtain ⟨here,later⟩ := nth_answer tail
      rw [List.length_cons,collectWith]
      cases keeps with
      | @address _ block resource type rdata =>
          simp only [here,resource,orFault_some,ok_bind,type,if_true,rdata,Option.toList_some,List.singleton_append,
            List.foldlM_cons]
          cases add t block with
          | none => rfl
          | some next => exact ih later next
      | other resource type differ =>
          simp only [here,resource,orFault_some,ok_bind,type,if_neg differ]
          exact ih later t

-- Each block becomes an address of a table that has room for them.
theorem entries_collected (entries : Entries AAAA buffer answers found) (t : SocketIpinfo) (low : 0 ≤ t.size)
    (room : t.size+answers.length ≤ socketMaxIpCount) :
    ∃ full, collect buffer answers answers.length 0 t = .ok full ∧ full.stored = t.stored ++ found.map octets16 := by
  have fewer := entries.length
  obtain ⟨full,folded,_,stored⟩ := ipinfo_fills.all found t low (by omega)
  refine ⟨full,?_,stored⟩
  rw [collect,collectWith_entries SocketIpinfo.add answers entries (List.drop_zero ..),folded,orFault_some]

-- It comes to the entry without RDATA and reads through NULL, if it does not store outside the table before.
theorem collectWith_stopped (add : τ → Block → Option τ) (all : List ResRecord) (stopped : Stopped wanted buffer answers)
    (tail : all.drop i = answers) (long : answers.length ≤ left) (t : τ) :
    collectWith wanted add buffer all left i t = .error .fault := by
  induction stopped generalizing i t left with
  | @here answer bare =>
      obtain ⟨left,rfl⟩ := Nat.exists_eq_succ_of_ne_zero (show left ≠ 0 from Nat.ne_of_gt long)
      obtain ⟨first,_⟩ := nth_answer tail
      obtain ⟨⟨off,resource,type⟩,rdata⟩ := bare
      rw [collectWith]
      simp only [first,resource,orFault_some,ok_bind,type,if_true,rdata]
      rfl
  | @later answer a rest keeps _ ih =>
      rw [List.length_cons] at long
      obtain ⟨left,rfl⟩ := Nat.exists_eq_succ_of_ne_zero (show left ≠ 0 by omega)
      obtain ⟨first,behind⟩ := nth_answer tail
      rw [collectWith]
      cases keeps with
      | @address _ block resource type rdata =>
          simp only [first,resource,orFault_some,ok_bind,type,if_true,rdata]
          cases add t block with
          | none => rfl
          | some next => exact ih behind (Nat.le_of_succ_le_succ long) next
      | other resource type differ =>
          simp only [first,resource,orFault_some,ok_bind,type,if_neg differ]
          exact ih behind (Nat.le_of_succ_le_succ long) t

theorem Finds.few (finds : Finds wanted alloc buffer count i c found) : found.length ≤ count := by
  obtain ⟨fuel,answers,_,entries,rfl⟩ := finds_parse finds
  exact entries.length

theorem Finds.room (finds : Finds wanted alloc buffer count i c found) (few : count ≤ socketMaxIpCount) :
    (0 : Int)+found.length ≤ socketMaxIpCount := by
  have fewer := finds.few
  omega

-- What comes of both loops: just what is found is handed on.
theorem collected_found (add : τ → Block → Option τ) (t full : τ) :
    (∃ fuel answers, readAnswers wanted alloc fuel buffer count i 0 = .ok answers ∧
        collectWith wanted add buffer answers count 0 t = .ok full) ↔
      ∃ found, Finds wanted alloc buffer count i 0 found ∧ found.foldlM add t = some full := by
  constructor
  · intro ⟨fuel,answers,read,collected⟩
    rcases parse_finds read with ⟨found,finds,entries,rfl⟩ | ⟨_,stopped,short⟩
    · rw [collectWith_entries add answers entries (List.drop_zero ..)] at collected
      exact ⟨found,finds,orFault_ok.mp collected⟩
    · rw [collectWith_stopped add answers stopped (List.drop_zero ..) short] at collected
      cases collected
  · intro ⟨found,finds,folded⟩
    obtain ⟨fuel,answers,read,entries,rfl⟩ := finds_parse finds
    refine ⟨fuel,answers,read,?_⟩
    rw [collectWith_entries add answers entries (List.drop_zero ..),folded,orFault_some]

theorem granted_fed (granted : Grants alloc) : ¬ Starves wanted alloc buffer left i c := by
  intro starves
  induction starves with
  | here turns =>
      cases turns with
      | refused _ _ _ refused => exact Bool.noConfusion ((granted _).symm.trans refused)
  | later _ _ ih => exact ih

theorem Turns.unique (one : Turns wanted alloc buffer i c a (some onward)) (two : Turns wanted alloc buffer i c a' (some onward')) :
    a = a' ∧ onward = onward' := by
  cases one with
  | address reads type size held =>
      cases two with
      | address reads' _ size' held' =>
          obtain ⟨rfl,rfl⟩ := reads.unique reads'
          cases at_unique held held' (Option.some.inj (size.symm.trans size'))
          exact ⟨rfl,rfl⟩
      | other reads' type' differ =>
          obtain ⟨rfl,rfl⟩ := reads.unique reads'
          exact absurd (Option.some.inj (type'.symm.trans type)) differ
  | other reads type differ target =>
      cases two with
      | address reads' type' =>
          obtain ⟨rfl,rfl⟩ := reads.unique reads'
          exact absurd (Option.some.inj (type.symm.trans type')) differ
      | other reads' _ _ target' =>
          obtain ⟨rfl,rfl⟩ := reads.unique reads'
          obtain ⟨rfl,rfl⟩ := target.unique target'
          exact ⟨rfl,rfl⟩

theorem Finds.unique (one : Finds wanted alloc buffer left i c found) (two : Finds wanted alloc buffer left i c found') :
    found = found' := by
  induction one generalizing found' with
  | nil =>
      cases two
      rfl
  | cons turns _ ih =>
      cases two with
      | cons turns' later =>
          obtain ⟨rfl,same⟩ := turns.unique turns'
          cases same
          rw [ih later]

theorem Turns.regrant (turns : Turns wanted alloc buffer i c a (some (j,used))) (same : alloc'.content = alloc.content)
    (agree : ∀ k, k < used → alloc'.grants k = alloc.grants k) :
    c < used ∧ Turns wanted alloc' buffer i c a (some (j,used)) := by
  cases turns with
  | @address n before data reads type size held granted =>
      have calls := reads.calls
      rw [← same]
      exact ⟨by omega,.address (reads.regrant fun k _ high => agree k (by omega)) type size held
        ((agree before (by omega)).trans granted)⟩
  | other reads type differ target =>
      have calls := reads.calls
      have calls' := target.calls
      exact ⟨by omega,.other (reads.regrant fun k _ high => agree k (by omega)) type differ
        (target.regrant fun k _ high => agree k high)⟩

-- Everything is granted as before but one call.
def without (alloc : Allocator) (call : Nat) : Allocator := ⟨fun k => decide (k ≠ call) && alloc.grants k,alloc.content⟩

theorem without_other (differ : k ≠ call) : (without alloc call).grants k = alloc.grants k := by simp [without,differ]

-- Wherever RDATA is found, it may be refused its block.
theorem Finds.starved (finds : Finds wanted alloc buffer left i c found) (some : found ≠ []) :
    ∃ call, c ≤ call ∧ Starves wanted (without alloc call) buffer left i c := by
  induction finds with
  | nil => exact absurd rfl some
  | cons turns _ ih =>
      cases turns with
      | @address n before data reads type size held granted =>
          have calls := reads.calls
          refine ⟨before,by omega,.here (.refused (reads.regrant fun k _ high => without_other (by omega)) type size ?_)⟩
          simp [without]
      | other reads type differ target =>
          have turns := Turns.other reads type differ target
          obtain ⟨call,after,starves⟩ := ih some
          obtain ⟨calls,again⟩ := turns.regrant (show (without alloc call).content = _ from rfl)
            (fun k before => without_other (by omega))
          exact ⟨call,by omega,.later again starves⟩

end PersonalJournal.AnswerWalk
