import PersonalJournal.Dns.NameWalk
import PersonalJournal.Dns.Answer

namespace PersonalJournal.RecordWalk
open Bytes DomainName ResourceRecord ReadName NameWalk Query Answer

-- What ReadRecvAnswer takes for one record: it starts at i, its fixed part at off, and
-- the next one is looked for at final.
inductive Iterates (buffer : List UInt8) (i : Nat) : Nat → Nat → Prop where
  | address : Named buffer i n → read16 buffer (i+n) = some AAAA →
      read16 buffer (i+n+dataLenOffset) = some rdata.length → At buffer (i+n+fixedSize) rdata →
      Iterates buffer i (i+n) (i+n+fixedSize+rdata.length)
  | other : Named buffer i n → read16 buffer (i+n) = some type → type ≠ AAAA →
      Named buffer (i+n+fixedSize) m → Iterates buffer i (i+n) (i+n+fixedSize+m)

theorem iterates_iff : Iterates buffer i off j ↔ ∃ n, off = i+n ∧ Named buffer i n ∧
    ((read16 buffer off = some AAAA ∧ ∃ data, read16 buffer (off+dataLenOffset) = some data.length ∧
        At buffer (off+fixedSize) data ∧ j = off+fixedSize+data.length) ∨
      ∃ type m, read16 buffer off = some type ∧ type ≠ AAAA ∧ Named buffer (off+fixedSize) m ∧ j = off+fixedSize+m) := by
  constructor
  · intro turn
    cases turn with
    | address name type size held => exact ⟨_,rfl,name,.inl ⟨type,_,size,held,rfl⟩⟩
    | other name type differ target => exact ⟨_,rfl,name,.inr ⟨_,_,type,differ,target,rfl⟩⟩
  · rintro ⟨n,rfl,name,⟨type,data,size,held,rfl⟩ | ⟨type,m,found,differ,target,rfl⟩⟩
    · exact .address name type size held
    · exact .other name found differ target

theorem Iterates.unique (one : Iterates buffer i off j) (two : Iterates buffer i off' j') : off = off' ∧ j = j' := by
  cases one with
  | address name type size =>
      cases two with
      | address name' _ size' =>
          cases name.unique name'
          have same := Option.some.inj (size.symm.trans size')
          rw [same]
          exact ⟨rfl,rfl⟩
      | other name' type' differ =>
          cases name.unique name'
          exact absurd (Option.some.inj (type'.symm.trans type)) differ
  | other name type differ target =>
      cases two with
      | address name' type' =>
          cases name.unique name'
          exact absurd (Option.some.inj (type.symm.trans type')) differ
      | other name' _ _ target' =>
          cases name.unique name'
          cases target.unique target'
          exact ⟨rfl,rfl⟩

-- The entry points to the fixed part at off and has the RDATA of an address behind it.
structure Entry (buffer : List UInt8) (off : Nat) (answer : ResRecord) : Prop where
  resource : answer.resource = some off
  rdata : read16 buffer off = some AAAA → ∃ data block, read16 buffer (off+dataLenOffset) = some data.length ∧
    At buffer (off+fixedSize) data ∧ answer.rdata = some block ∧ block.Holds 0 data

theorem copyOctets_at {copied : Block} (done : copyOctets rdata buffer reader n = .ok copied) :
    ∃ data, data.length = n ∧ At buffer reader data ∧ copied.Holds 0 data ∧ ∀ k, n ≤ k → copied k = rdata k := by
  induction n generalizing copied with
  | zero =>
      cases done
      exact ⟨[],rfl,at_nil _ _,trivial,fun _ _ => rfl⟩
  | succ n ih =>
      rw [copyOctets] at done
      obtain ⟨before,first,done⟩ := bind_ok.mp done
      obtain ⟨c,here,done⟩ := bind_ok.mp done
      obtain ⟨data,size,held,holds,kept⟩ := ih first
      cases done
      have found : buffer[reader+n]? = some c := by
        cases inside : buffer[reader+n]? with
        | none => simp [orFault,inside] at here
        | some d =>
            rw [inside] at here
            cases here
            rfl
      refine ⟨data ++ [c],by rw [List.length_append,size]; rfl,?_,?_,?_⟩
      · rw [at_append,size,at_cons]
        exact ⟨held,found,at_nil _ _⟩
      · have pushed := before.holds_push c holds
        rwa [Nat.zero_add,size] at pushed
      · intro k far
        rw [Block.put_other _ _ (by omega)]
        exact kept k (by omega)

theorem recvTurn_iterates (granted : Grants alloc) (returned : recvTurn AAAA alloc fuel buffer i calls = .ok (answer,onward)) :
    ∃ off j used, onward = some (j,used) ∧ Iterates buffer i off j ∧ Entry buffer off answer := by
  rw [recvTurn] at returned
  obtain ⟨owner,read,returned⟩ := bind_ok.mp returned
  obtain ⟨type,found,returned⟩ := bind_ok.mp returned
  have name := read_named granted read
  have type' := orFault_ok.mp found
  split at returned
  · rename_i v6
    rw [v6] at type'
    obtain ⟨dataLen,size,returned⟩ := bind_ok.mp returned
    have size' := orFault_ok.mp size
    rw [if_pos (granted owner.calls)] at returned
    obtain ⟨block,copy,returned⟩ := bind_ok.mp returned
    obtain ⟨data,rfl,held,holds,_⟩ := copyOctets_at copy
    cases returned
    exact ⟨_,_,_,rfl,.address name type' size' held,rfl,
      fun _ => ⟨data,_,size',held,rfl,(block.holds_put 0 (.inr (by omega))).mpr holds⟩⟩
  · rename_i differ
    obtain ⟨rdata,target,returned⟩ := bind_ok.mp returned
    cases returned
    exact ⟨_,_,_,rfl,.other name type' differ (read_named granted target),rfl,
      fun v6 => absurd (Option.some.inj (type'.symm.trans v6)) differ⟩

theorem iterates_recvTurn (granted : Grants alloc) (turn : Iterates buffer i off j) (calls : Nat) :
    ∃ fuel answer used, recvTurn AAAA alloc fuel buffer i calls = .ok (answer,some (j,used)) := by
  cases turn with
  | @address n data name type size held =>
      obtain ⟨fuel,block,used,underrun,read⟩ := named_read granted name calls
      obtain ⟨copied,copy,_⟩ := copyOctets_holds (alloc.content used) held (Nat.le_refl _)
      refine ⟨fuel,⟨some block,some (i+n),some (copied.put data.length 0)⟩,used+1,?_⟩
      rw [recvTurn,read,ok_bind]
      simp only [type,orFault_some,ok_bind,if_true,size,granted used,copy,pure_ok]
  | @other n _ m name type differ target =>
      obtain ⟨fuel,block,used,underrun,read⟩ := named_read granted name calls
      obtain ⟨fuel',block',used',underrun',read'⟩ := named_read granted target used
      refine ⟨max fuel fuel',⟨some block,some (i+n),some block'⟩,used',?_⟩
      rw [recvTurn,readName_mono read (Nat.le_max_left _ _),ok_bind]
      simp only [type,orFault_some,ok_bind,if_neg differ,readName_mono read' (Nat.le_max_right _ _),pure_ok]

end PersonalJournal.RecordWalk
