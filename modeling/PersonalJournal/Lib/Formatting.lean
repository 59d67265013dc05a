import Mathlib.Algebra.Group.Nat.Defs
import Mathlib.Algebra.Ring.Int.Defs
import Mathlib.Data.List.TakeWhile
import PersonalJournal.Lib.Bytes

namespace PersonalJournal.Formatting
open Bytes

-- The octets of ASCII characters.
def ascii (text : List Char) : List UInt8 := text.map (fun c => UInt8.ofNat c.toNat)

-- A string literal.
def literal (text : String) : List UInt8 := ascii text.toList

-- %d
def decimal (n : Int) : List UInt8 :=
  (if n < 0 then literal "-" else []) ++ ascii (Nat.toDigits 10 n.natAbs)

-- %02d, for a number below 100
def twoDigits (n : Nat) : List UInt8 := ascii [Nat.digitChar (n/10),Nat.digitChar (n%10)]

-- %6s and the like
def padded (width : Nat) (text : List UInt8) : List UInt8 := List.replicate (width-text.length) 32 ++ text

-- An int where a size_t is expected.
def sizeT (n : Int) : Nat := (n % 2^64).toNat

-- snprintf and vsnprintf write n - 1 octets of the text at most and a NUL, nothing where n is 0.
-- They return the length of the whole text.
def snprintf (buffer : List UInt8) (i n : Nat) (text : List UInt8) : Option (List UInt8 × Nat) :=
  (storeAll buffer i (if n = 0 then [] else text.take (n-1) ++ [0])).map (·,text.length)

-- strftime writes the whole text and a NUL and returns its length, or returns 0 where they are
-- more than n octets.
def strftime (buffer : List UInt8) (i n : Nat) (text : List UInt8) : Option (List UInt8 × Nat) :=
  if text.length < n then (storeAll buffer i (text ++ [0])).map (·,text.length) else some (buffer,0)

-- The string at the start of an array, as fputs takes it.
def string (buffer : List UInt8) : Option (List UInt8) := (strlenAt buffer 0).map buffer.take

theorem sizeT_small (low : 0 ≤ n) (high : n < 2^64) : sizeT n = n.toNat := by
  rw [sizeT,Int.emod_eq_of_lt low high]

theorem decimal_length (n : Int) (k : Nat) (some : 0 < k) (small : n.natAbs < 10^k) : (decimal n).length ≤ k+1 := by
  have digits := (Nat.length_toDigits_le_iff (b:=10) (by decide) some).mpr small
  rw [decimal,List.length_append,ascii,List.length_map]
  split
  · rw [show (literal "-").length = 1 from rfl]
    omega
  · rw [List.length_nil]
    omega

theorem twoDigits_length (n : Nat) : (twoDigits n).length = 2 := rfl

theorem padded_length (fits : text.length ≤ width) : (padded width text).length = width := by
  rw [padded,List.length_append,List.length_replicate]
  omega

theorem snprintf_returns (printed : snprintf buffer i n text = some (buffer',size)) :
    buffer'.length = buffer.length ∧ size = text.length := by
  obtain ⟨after,stored,same⟩ := Option.map_eq_some_iff.mp printed
  cases same
  exact ⟨storeAll_length stored,rfl⟩

theorem strftime_returns (printed : strftime buffer i n text = some (buffer',size)) (fits : text.length < n) :
    buffer'.length = buffer.length ∧ size = text.length := by
  rw [strftime,if_pos fits] at printed
  obtain ⟨after,stored,same⟩ := Option.map_eq_some_iff.mp printed
  cases same
  exact ⟨storeAll_length stored,rfl⟩

-- A text that is shorter than what is left of the array is written whole.
theorem print_whole (front rest text : List UInt8) (fits : text.length < rest.length) :
    ∃ after, storeAll (front ++ rest) front.length (text ++ [0]) = some (front ++ text ++ after) ∧
      text.length+after.length = rest.length := by
  have stored := storeAll_front front (text ++ [0]) rest (by rw [List.length_append]; exact fits)
  refine ⟨0 :: rest.drop (text.length+1),?_,?_⟩
  · rw [stored,List.length_append,List.length_singleton]
    simp only [List.append_assoc,List.singleton_append]
  · rw [List.length_cons,List.length_drop]
    omega

theorem snprintf_whole (front rest text : List UInt8) (fits : text.length < rest.length) (size : n = rest.length) :
    ∃ after, snprintf (front ++ rest) front.length n text = some (front ++ text ++ after,text.length) ∧
      text.length+after.length = rest.length := by
  subst size
  obtain ⟨after,stored,left⟩ := print_whole front rest text fits
  have whole : text.take (rest.length-1) = text := List.take_of_length_le (by omega)
  refine ⟨after,?_,left⟩
  rw [snprintf,if_neg (by omega),whole,stored]
  rfl

theorem strftime_whole (front rest text : List UInt8) (fits : text.length < rest.length) (size : n = rest.length) :
    ∃ after, strftime (front ++ rest) front.length n text = some (front ++ text ++ after,text.length) ∧
      text.length+after.length = rest.length := by
  subst size
  obtain ⟨after,stored,left⟩ := print_whole front rest text fits
  refine ⟨after,?_,left⟩
  rw [strftime,if_pos fits,stored]
  rfl

-- What a store into the part behind `front` leaves there.
theorem store_behind (front rest : List UInt8) (c : UInt8) (room : 0 < rest.length) :
    store (front ++ rest) front.length c = some (front ++ c :: rest.tail) := by
  cases rest with
  | nil => cases room
  | cons old rest => exact store_front front old c rest

theorem string_takeWhile (closed : 0 ∈ buffer) : string buffer = some (buffer.takeWhile (· ≠ 0)) := by
  have front := List.prefix_iff_eq_take.mp (List.takeWhile_prefix (l:=buffer) (fun c => decide (c ≠ 0)))
  rw [string,strlenAt,List.drop_zero,if_pos closed,Option.map_some,← front]

-- What lies behind the NUL is no part of the string.
theorem string_front (closed : 0 ∈ front) (rest : List UInt8) : string (front ++ rest) = string front := by
  rw [string_takeWhile closed,string_takeWhile (List.mem_append_left rest closed),List.takeWhile_append,if_neg]
  intro whole
  rw [← (List.takeWhile_prefix _).eq_of_length whole] at closed
  have plain := List.mem_takeWhile_imp closed
  exact absurd rfl (of_decide_eq_true plain)

theorem string_clear (clear : 0 ∉ text) : string (text ++ [0]) = some text := by
  have length := strlenAt_text [] text [] clear
  rw [List.nil_append,List.length_nil] at length
  rw [string,length,Option.map_some,List.take_left]

end PersonalJournal.Formatting
