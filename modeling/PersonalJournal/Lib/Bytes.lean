import Mathlib.Data.List.Infix

namespace PersonalJournal.Bytes

-- A heap block as the bytes at its indices. The size of the allocation is not
-- part of it: whether an index lies inside is stated apart from what it holds.
abbrev Block := Nat → UInt8

def Block.put (b : Block) (i : Nat) (v : UInt8) : Block := fun j => if j = i then v else b j

@[simp] theorem Block.put_same (b : Block) (i : Nat) (v : UInt8) : b.put i v i = v := by simp [Block.put]

theorem Block.put_other (b : Block) (v : UInt8) (different : j ≠ i) : b.put i v j = b j := by
  simp [Block.put,different]

def Block.Holds (b : Block) : Nat → List UInt8 → Prop
  | _,[] => True
  | i,c :: rest => b i = c ∧ b.Holds (i+1) rest

@[simp] theorem Block.holds_nil (b : Block) (i : Nat) : b.Holds i [] := trivial

@[simp] theorem Block.holds_cons (b : Block) : b.Holds i (c :: rest) ↔ b i = c ∧ b.Holds (i+1) rest := Iff.rfl

theorem Block.holds_append (b : Block) :
    b.Holds i (left ++ right) ↔ b.Holds i left ∧ b.Holds (i+left.length) right := by
  induction left generalizing i with
  | nil => simp
  | cons c rest ih =>
      simp only [List.cons_append,Block.holds_cons,ih,List.length_cons,and_assoc]
      rw [show i+1+rest.length = i+(rest.length+1) by omega]

theorem Block.holds_put (b : Block) (v : UInt8) (outside : j < i ∨ i+bytes.length ≤ j) :
    (b.put j v).Holds i bytes ↔ b.Holds i bytes := by
  induction bytes generalizing i with
  | nil => simp
  | cons c rest ih =>
      simp only [List.length_cons] at outside
      rw [Block.holds_cons,Block.holds_cons,Block.put_other b v (by omega),ih (by omega)]

theorem Block.holds_push (b : Block) (v : UInt8) (held : b.Holds i bytes) :
    (b.put (i+bytes.length) v).Holds i (bytes ++ [v]) := by
  rw [Block.holds_append]
  exact ⟨(b.holds_put v (.inr (Nat.le_refl _))).mpr held,by simp⟩

theorem Block.holds_get (b : Block) (held : b.Holds i (left ++ c :: right)) : b (i+left.length) = c :=
  ((b.holds_append).mp held).2.1

theorem Block.holds_replace (b : Block) (v : UInt8) (held : b.Holds i (left ++ c :: right)) :
    (b.put (i+left.length) v).Holds i (left ++ v :: right) := by
  obtain ⟨before,_,after⟩ := (b.holds_append).mp held
  rw [Block.holds_append,Block.holds_cons]
  exact ⟨(b.holds_put v (.inr (Nat.le_refl _))).mpr before,b.put_same _ v,
    (b.holds_put v (.inl (Nat.lt_succ_self _))).mpr after⟩

theorem Block.holds_drop (b : Block) (held : b.Holds i bytes) (near : k ≤ bytes.length) : b.Holds (i+k) (bytes.drop k) := by
  rw [← List.take_append_drop k bytes,Block.holds_append,List.length_take,Nat.min_eq_left near] at held
  exact held.2

theorem Block.holds_all {P : UInt8 → Prop} (b : Block) (held : b.Holds i bytes) (all : ∀ c ∈ bytes, P c) (inside : m < bytes.length) :
    P (b (i+m)) := by
  induction bytes generalizing i m with
  | nil => cases inside
  | cons c rest ih =>
      obtain ⟨first,later⟩ := List.forall_mem_cons.mp all
      cases m with
      | zero => rw [Nat.add_zero,held.1]; exact first
      | succ m =>
          rw [← Nat.add_assoc,Nat.add_right_comm]
          exact ih held.2 later (Nat.lt_of_succ_lt_succ inside)

theorem Block.holds_congr (same : ∀ m, i ≤ m → b' m = b m) (held : Block.Holds b i bytes) : Block.Holds b' i bytes := by
  induction bytes generalizing i with
  | nil => trivial
  | cons c rest ih =>
      refine ⟨(same i (Nat.le_refl i)).trans held.1,?_⟩
      exact ih (fun m past => same m (Nat.le_of_succ_le past)) held.2

theorem Block.holds_map (b : Block) (held : b.Holds i bytes) :
    (List.range bytes.length).map (fun k => b (i+k)) = bytes := by
  induction bytes generalizing i with
  | nil => rfl
  | cons c rest ih =>
      have later := ih held.2
      simp only [List.length_cons,List.range_succ_eq_map,List.map_cons,List.map_map,Nat.add_zero,held.1,
        List.cons.injEq,true_and]
      rw [← later]
      simp only [List.length_map,List.length_range]
      exact List.map_congr_left (fun k _ => by simp only [Function.comp_apply]; rw [Nat.add_right_comm,Nat.add_assoc])

def Block.IsString (b : Block) (text : List UInt8) : Prop :=
  b.Holds 0 (text ++ [0]) ∧ 0 ∉ text

-- `strlen`, searching no further than `limit` octets.
def Block.strlenFrom (b : Block) : Nat → Nat → Nat
  | _,0 => 0
  | i,limit+1 => if b i = 0 then 0 else b.strlenFrom (i+1) limit + 1

def Block.strlen (b : Block) (limit : Nat) : Nat := b.strlenFrom 0 limit

theorem Block.strlenFrom_holds (b : Block) (held : b.Holds i (text ++ [0])) (clear : 0 ∉ text)
    (near : text.length ≤ limit) : b.strlenFrom i limit = text.length := by
  induction text generalizing i limit with
  | nil => cases limit <;> simp_all [Block.strlenFrom]
  | cons c rest ih =>
      obtain ⟨limit,rfl⟩ : ∃ more, limit = more+1 := ⟨limit-1,by simp at near; omega⟩
      simp only [List.cons_append,Block.holds_cons] at held
      simp only [List.mem_cons,not_or] at clear
      simp only [List.length_cons,Nat.add_le_add_iff_right] at near
      simp only [Block.strlenFrom,held.1,if_neg (Ne.symm clear.1),ih held.2 clear.2 near,List.length_cons]

theorem Block.strlen_holds (b : Block) (held : b.Holds 0 (text ++ [0])) (clear : 0 ∉ text)
    (near : text.length ≤ limit) : b.strlen limit = text.length := b.strlenFrom_holds held clear near

theorem Block.strlenFrom_le (b : Block) (i limit : Nat) : b.strlenFrom i limit ≤ limit := by
  induction limit generalizing i with
  | zero => simp [Block.strlenFrom]
  | succ limit ih =>
      unfold Block.strlenFrom
      have := ih (i+1)
      split <;> omega

theorem Block.strlenFrom_zero (b : Block) (limit : Nat) (zero : b (i+z) = 0) : b.strlenFrom i limit ≤ z := by
  induction limit generalizing i z with
  | zero => exact Nat.zero_le z
  | succ limit ih =>
      unfold Block.strlenFrom
      split
      · exact Nat.zero_le z
      · rename_i here
        cases z with
        | zero => exact absurd zero here
        | succ z =>
            apply Nat.succ_le_succ
            apply ih
            rwa [Nat.add_right_comm,Nat.add_assoc]

theorem Block.le_strlenFrom (b : Block) (plain : ∀ m, m < z → b (i+m) ≠ 0) (near : z ≤ limit) :
    z ≤ b.strlenFrom i limit := by
  induction z generalizing i limit with
  | zero => exact Nat.zero_le _
  | succ z ih =>
      obtain ⟨limit,rfl⟩ := Nat.exists_eq_add_of_le' (Nat.le_trans (Nat.succ_pos z) near)
      have here : b i ≠ 0 := plain 0 (Nat.succ_pos z)
      unfold Block.strlenFrom
      rw [if_neg here]
      apply Nat.succ_le_succ
      apply ih
      · intro m inside
        rw [Nat.add_right_comm,Nat.add_assoc]
        exact plain (m+1) (Nat.succ_lt_succ inside)
      · exact Nat.le_of_succ_le_succ near

-- Arrays of fixed size are lists: a read or a store outside them is `none`.
def store (buffer : List UInt8) (i : Nat) (v : UInt8) : Option (List UInt8) :=
  if i < buffer.length then some (buffer.set i v) else none

def storeAll : List UInt8 → Nat → List UInt8 → Option (List UInt8)
  | buffer,_,[] => some buffer
  | buffer,i,c :: rest => do
    let buffer ← store buffer i c
    storeAll buffer (i+1) rest

theorem storeAll_append (buffer : List UInt8) (i : Nat) (left right : List UInt8) :
    storeAll buffer i (left ++ right) = (storeAll buffer i left).bind (storeAll · (i+left.length) right) := by
  induction left generalizing buffer i with
  | nil => rfl
  | cons c rest ih =>
      simp only [List.cons_append,storeAll,Option.bind_eq_bind,List.length_cons]
      cases store buffer i c with
      | none => rfl
      | some next =>
          simp only [Option.bind_some,ih]
          rw [show i+1+rest.length = i+(rest.length+1) by omega]

theorem store_length (stored : store buffer i c = some buffer') : i < buffer.length ∧ buffer'.length = buffer.length := by
  unfold store at stored
  split at stored
  · rename_i inside
    cases stored
    exact ⟨inside,List.length_set⟩
  · cases stored

theorem storeAll_length (stored : storeAll buffer i bytes = some buffer') : buffer'.length = buffer.length := by
  induction bytes generalizing buffer i with
  | nil =>
      cases stored
      rfl
  | cons c rest ih =>
      obtain ⟨next,put,later⟩ := Option.bind_eq_some_iff.mp stored
      exact (ih later).trans (store_length put).2

theorem storeAll_inside (stored : storeAll buffer i bytes = some buffer') : bytes = [] ∨ i+bytes.length ≤ buffer.length := by
  induction bytes generalizing buffer i with
  | nil => exact .inl rfl
  | cons c rest ih =>
      right
      obtain ⟨next,put,later⟩ := Option.bind_eq_some_iff.mp stored
      obtain ⟨inside,same⟩ := store_length put
      rw [List.length_cons]
      rcases ih later with none | further
      · rw [none,List.length_nil]
        exact inside
      · rw [same] at further
        omega

theorem store_front (front : List UInt8) (old v : UInt8) (rest : List UInt8) :
    store (front ++ old :: rest) front.length v = some (front ++ v :: rest) := by
  simp [store]

theorem storeAll_front (front bytes rest : List UInt8) (fits : bytes.length ≤ rest.length) :
    storeAll (front ++ rest) front.length bytes = some (front ++ bytes ++ rest.drop bytes.length) := by
  induction bytes generalizing front rest with
  | nil => simp [storeAll]
  | cons c more ih =>
      cases rest with
      | nil => simp at fits
      | cons old rest =>
          have next := ih (front ++ [c]) rest (by simpa using fits)
          simp only [storeAll,store_front,Option.bind_eq_bind,Option.bind_some]
          simpa using next

theorem takeWhile_reaches {l : List α} {p : α → Bool} :
    n ≤ (l.takeWhile p).length ↔ ∀ k, k < n → ∃ c, l[k]? = some c ∧ p c = true := by
  induction l generalizing n with
  | nil =>
      constructor
      · intro none k near
        exact absurd (Nat.lt_of_lt_of_le near none) (Nat.not_lt_zero k)
      · intro all
        rw [List.takeWhile_nil]
        apply Nat.le_of_not_lt
        intro some
        obtain ⟨c,found,_⟩ := all 0 some
        cases found
  | cons d rest ih =>
      cases n with
      | zero => exact ⟨fun _ k none => absurd none (Nat.not_lt_zero k),fun _ => Nat.zero_le _⟩
      | succ n =>
          by_cases first : p d = true
          · rw [List.takeWhile_cons_of_pos first,List.length_cons,Nat.succ_le_succ_iff,ih]
            constructor
            · intro later k near
              cases k with
              | zero => exact ⟨d,rfl,first⟩
              | succ k => exact later k (Nat.lt_of_succ_lt_succ near)
            · intro all k near
              exact all (k+1) (Nat.succ_lt_succ near)
          · rw [List.takeWhile_cons_of_neg first]
            constructor
            · intro some
              cases some
            · intro all
              obtain ⟨c,found,plain⟩ := all 0 (Nat.succ_pos n)
              cases found
              exact absurd plain first

-- `strlen` of what starts at octet i, when there is a NUL to find.
def strlenAt (buffer : List UInt8) (i : Nat) : Option Nat :=
  if 0 ∈ buffer.drop i then some ((buffer.drop i).takeWhile (· ≠ 0)).length else none

theorem strlenAt_text (front text rest : List UInt8) (clear : 0 ∉ text) :
    strlenAt (front ++ (text ++ 0 :: rest)) front.length = some text.length := by
  have plain : ∀ c ∈ text, decide (c ≠ 0) = true := by
    intro c member
    simp only [ne_eq,decide_not,Bool.not_eq_eq_eq_not,Bool.not_true,decide_eq_false_iff_not]
    rintro rfl
    exact clear member
  simp only [strlenAt,List.drop_left]
  rw [if_pos (by simp),List.takeWhile_append_of_pos plain]
  simp

def At (buffer : List UInt8) (i : Nat) (bytes : List UInt8) : Prop := bytes <+: buffer.drop i

instance : Decidable (At buffer i bytes) := inferInstanceAs (Decidable (bytes <+: buffer.drop i))

@[simp] theorem at_nil (buffer : List UInt8) (i : Nat) : At buffer i [] := List.nil_prefix

theorem at_cons : At buffer i (c :: rest) ↔ buffer[i]? = some c ∧ At buffer (i+1) rest := by
  unfold At
  rw [← List.head?_drop,← List.tail_drop]
  cases buffer.drop i <;> simp [List.cons_prefix_cons,eq_comm]

theorem at_append : At buffer i (left ++ right) ↔ At buffer i left ∧ At buffer (i+left.length) right := by
  induction left generalizing i with
  | nil => simp
  | cons c rest ih =>
      simp only [List.cons_append,at_cons,ih,List.length_cons,and_assoc]
      rw [show i+1+rest.length = i+(rest.length+1) by omega]

theorem get_extend {buffer : List UInt8} {i : Nat} (found : buffer[i]? = some c) (more : List UInt8) : (buffer ++ more)[i]? = some c := by
  rw [List.getElem?_append_left (List.getElem?_eq_some_iff.mp found).1]
  exact found

theorem At.extend (held : At buffer i bytes) (more : List UInt8) : At (buffer ++ more) i bytes := by
  induction bytes generalizing i with
  | nil => simp
  | cons c rest ih =>
      obtain ⟨here,later⟩ := at_cons.mp held
      exact at_cons.mpr ⟨get_extend here more,ih later⟩

theorem at_middle (left bytes right : List UInt8) : At (left ++ bytes ++ right) left.length bytes := by
  unfold At
  rw [List.append_assoc,List.drop_left]
  exact List.prefix_append _ _

theorem At.get (held : At buffer i bytes) (inside : k < bytes.length) : buffer[i+k]? = some bytes[k] := by
  induction bytes generalizing i k with
  | nil => simp at inside
  | cons c rest ih =>
      obtain ⟨here,later⟩ := at_cons.mp held
      cases k with
      | zero => simpa using here
      | succ k =>
          have := ih later (k:=k) (by simpa using inside)
          simpa [Nat.add_assoc,Nat.add_comm 1 k] using this

theorem at_unique (one : At buffer i a) (two : At buffer i b) (same : a.length = b.length) : a = b := by
  unfold At at one two
  exact (List.prefix_of_prefix_length_le one two (Nat.le_of_eq same)).eq_of_length same

def be16 (n : Nat) : List UInt8 := [UInt8.ofNat (n / 256),UInt8.ofNat n]

def read16 (buffer : List UInt8) (i : Nat) : Option Nat := do
  let high ← buffer[i]?
  let low ← buffer[i+1]?
  return high.toNat*256+low.toNat

theorem read16_extend (found : read16 buffer i = some n) (more : List UInt8) : read16 (buffer ++ more) i = some n := by
  unfold read16 at found ⊢
  simp only [Option.bind_eq_bind,Option.bind_eq_some_iff] at found
  obtain ⟨high,first,low,second,value⟩ := found
  rw [get_extend first more,Option.bind_eq_bind,Option.bind_some,get_extend second more,Option.bind_some]
  exact value

theorem read16_be16 (small : n < 65536) (held : At buffer i (be16 n)) : read16 buffer i = some n := by
  obtain ⟨high,rest⟩ := at_cons.mp held
  obtain ⟨low,_⟩ := at_cons.mp rest
  simp only [read16,high,low,Option.bind_eq_bind,Option.bind_some,Option.pure_def,Option.some.injEq,
    UInt8.toNat_ofNat']
  omega

end PersonalJournal.Bytes
