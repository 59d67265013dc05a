import Mathlib.Algebra.Group.Nat.Defs
import Mathlib.Data.List.Basic

namespace PersonalJournal.LittleEndian

-- The low `width` octets of a number, least significant first.
def put : Nat → Nat → List UInt8
  | 0,_ => []
  | width+1,n => UInt8.ofNat n :: put width (n/256)

def value : List UInt8 → Nat
  | [] => 0
  | c :: rest => c.toNat+256*value rest

@[simp] theorem put_length (width n : Nat) : (put width n).length = width := by
  induction width generalizing n with
  | zero => rfl
  | succ width ih => rw [put,List.length_cons,ih]

theorem value_put (small : n < 256^width) : value (put width n) = n := by
  induction width generalizing n with
  | zero =>
      have : n = 0 := by simpa using small
      rw [this]
      rfl
  | succ width ih =>
      have high : n/256 < 256^width := by
        apply Nat.div_lt_of_lt_mul
        rwa [Nat.pow_succ,Nat.mul_comm] at small
      simp only [put,value,ih high,UInt8.toNat_ofNat']
      omega

theorem put_value (octets : List UInt8) : put octets.length (value octets) = octets := by
  induction octets with
  | nil => rfl
  | cons c rest ih =>
      have octet := c.toNat_lt
      have low : UInt8.ofNat (c.toNat+256*value rest) = c := by
        apply UInt8.toNat_inj.mp
        rw [UInt8.toNat_ofNat']
        omega
      have high : (c.toNat+256*value rest)/256 = value rest := by omega
      rw [List.length_cons,value,put,low,high,ih]

theorem value_lt (octets : List UInt8) : value octets < 256^octets.length := by
  induction octets with
  | nil => exact Nat.one_pos
  | cons c rest ih =>
      have octet := c.toNat_lt
      rw [value,List.length_cons,Nat.pow_succ]
      omega

-- A fixed-width field of a struct.
def slice (octets : List UInt8) (i width : Nat) : List UInt8 := (octets.drop i).take width

def field (octets : List UInt8) (i width : Nat) : Nat := value (slice octets i width)

theorem slice_length (inside : i+width ≤ octets.length) : (slice octets i width).length = width := by
  simp only [slice,List.length_take,List.length_drop]
  omega

theorem slice_append (octets : List UInt8) (i one two : Nat) :
    slice octets i one ++ slice octets (i+one) two = slice octets i (one+two) := by
  simp only [slice,List.take_add,List.drop_drop]

theorem slice_all (size : octets.length = width) : slice octets 0 width = octets := by
  rw [slice,List.drop_zero,List.take_of_length_le (Nat.le_of_eq size)]

theorem field_first (rest : List UInt8) (small : n < 256^width) : field (put width n ++ rest) 0 width = n := by
  have front : slice (put width n ++ rest) 0 width = put width n := by
    rw [slice,List.drop_zero,List.take_left' (put_length width n)]
  rw [field,front,value_put small]

theorem field_skip (n k : Nat) (rest : List UInt8) (behind : width ≤ i) :
    field (put width n ++ rest) i k = field rest (i-width) k := by
  obtain ⟨j,rfl⟩ := Nat.exists_eq_add_of_le behind
  rw [field,field,slice,slice,← List.drop_drop,List.drop_left' (put_length width n),Nat.add_sub_cancel_left]

theorem field_zeros (n k : Nat) (rest : List UInt8) (behind : n ≤ i) :
    field (List.replicate n 0 ++ rest) i k = field rest (i-n) k := by
  obtain ⟨j,rfl⟩ := Nat.exists_eq_add_of_le behind
  rw [field,field,slice,slice,← List.drop_drop,List.drop_left' List.length_replicate,Nat.add_sub_cancel_left]

theorem put_field (inside : i+width ≤ octets.length) : put width (field octets i width) = slice octets i width := by
  have exact := put_value (slice octets i width)
  rwa [slice_length inside] at exact

theorem field_lt (inside : i+width ≤ octets.length) : field octets i width < 256^width := by
  have small := value_lt (slice octets i width)
  rwa [slice_length inside] at small

end PersonalJournal.LittleEndian
