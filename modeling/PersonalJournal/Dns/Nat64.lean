import Mathlib.Data.List.TakeWhile
import PersonalJournal.Lib.Bytes

namespace PersonalJournal.Nat64

-- struct in6_addr and struct in_addr as the octets they hold in memory.
structure In6Addr where
  s6_addr : List UInt8
  whole : s6_addr.length = 16
  deriving DecidableEq

structure InAddr where
  octets : List UInt8
  whole : octets.length = 4
  deriving DecidableEq

theorem In6Addr.ext_octets {a b : In6Addr} (same : a.s6_addr = b.s6_addr) : a = b := by
  cases a; cases b; cases same; rfl

def memcpy (dst : In6Addr) (i : Nat) (src : List UInt8) (fits : i+src.length ≤ 16) : In6Addr :=
  ⟨dst.s6_addr.take i ++ src ++ dst.s6_addr.drop (i+src.length),by
    have whole := dst.whole
    simp only [List.length_append,List.length_take,List.length_drop]
    omega⟩

theorem memcpy_middle (dst : In6Addr) (front old back src : List UInt8)
    (held : dst.s6_addr = front ++ old ++ back) (start : front.length = i) (same : old.length = src.length)
    (fits : i+src.length ≤ 16) : (memcpy dst i src fits).s6_addr = front ++ src ++ back := by
  subst start
  have before : (front ++ old ++ back).take front.length = front := by simp
  have after : (front ++ old ++ back).drop (front.length+src.length) = back := by simp [← same]
  simp only [memcpy,held,before,after]

def kWellKnownV4Addr1 : InAddr := ⟨[192,0,0,170],rfl⟩
def kWellKnownV4Addr2 : InAddr := ⟨[192,0,0,171],rfl⟩

def countZeros (buf : List UInt8) : Nat → Nat → Nat → Nat
  | 0,_,count => count
  | left+1,i,count => if buf[buf.length-1-i]? = some 0 then countZeros buf left (i+1) (count+1) else count

def getSuffixZeroCount (buf : List UInt8) : Nat := countZeros buf buf.length 0 0

def InAddr.slice (v4 : InAddr) (i n : Nat) : List UInt8 := (v4.octets.drop i).take n

theorem InAddr.slice_length (v4 : InAddr) (inside : i+n ≤ 4) : (v4.slice i n).length = n := by
  have whole := v4.whole
  simp only [InAddr.slice,List.length_take,List.length_drop]
  omega

-- memcpy of n octets of the IPv4 address, from its octet i on.
def copyV4 (addr : In6Addr) (off : Nat) (v4 : InAddr) (i n : Nat) (fits : i+n ≤ 4 ∧ off+n ≤ 16) : In6Addr :=
  memcpy addr off (v4.slice i n) (by rw [v4.slice_length fits.1]; exact fits.2)

def clearOctet8 (addr : In6Addr) : In6Addr := memcpy addr 8 [0] (by decide)

def replaceNat64WithV4IP (addr : In6Addr) (v4 : InAddr) : In6Addr :=
  match getSuffixZeroCount addr.s6_addr with
  | 3 => copyV4 addr 9 v4 0 4 (by decide)
  | 4 => copyV4 (clearOctet8 (copyV4 addr 7 v4 0 1 (by decide))) 9 v4 1 3 (by decide)
  | 5 => copyV4 (clearOctet8 (copyV4 addr 6 v4 0 2 (by decide))) 9 v4 2 2 (by decide)
  | 6 => copyV4 (clearOctet8 (copyV4 addr 5 v4 0 3 (by decide))) 9 v4 3 1 (by decide)
  | 8 => copyV4 addr 4 v4 0 4 (by decide)
  | 0 => copyV4 addr 12 v4 0 4 (by decide)
  | _ => copyV4 addr 12 v4 0 4 (by decide)

def kWellKnownV4Addr1_index1 : List UInt8 := [192,0,0,0,170]
def kWellKnownV4Addr2_index1 : List UInt8 := [192,0,0,0,171]
def kWellKnownV4Addr1_index2 : List UInt8 := [192,0,0,0,170]
def kWellKnownV4Addr2_index2 : List UInt8 := [192,0,0,0,171]
def kWellKnownV4Addr1_index3 : List UInt8 := [192,0,0,0,170]
def kWellKnownV4Addr2_index3 : List UInt8 := [192,0,0,0,171]

-- memcmp with as many octets as are known finds no difference.
def memcmpZero (addr : In6Addr) (off : Nat) (known : List UInt8) : Bool :=
  (addr.s6_addr.drop off).take known.length == known

-- is_valid as the switch leaves it.
def isValid (addr : In6Addr) : Bool :=
  match getSuffixZeroCount addr.s6_addr with
  | 3 => memcmpZero addr 9 kWellKnownV4Addr1.octets || memcmpZero addr 9 kWellKnownV4Addr2.octets
  | 4 => memcmpZero addr 7 kWellKnownV4Addr1_index1 || memcmpZero addr 7 kWellKnownV4Addr2_index1
  | 5 => memcmpZero addr 6 kWellKnownV4Addr1_index2 || memcmpZero addr 6 kWellKnownV4Addr2_index2
  | 6 => memcmpZero addr 5 kWellKnownV4Addr1_index3 || memcmpZero addr 5 kWellKnownV4Addr2_index3
  | 8 => memcmpZero addr 4 kWellKnownV4Addr1.octets || memcmpZero addr 4 kWellKnownV4Addr2.octets
  | 0 => memcmpZero addr 12 kWellKnownV4Addr1.octets || memcmpZero addr 12 kWellKnownV4Addr2.octets
  | _ => false

-- The source ends in `return true`, not in `return is_valid`.
def isNat64AddrValid (addr : In6Addr) : Bool :=
  let _is_valid := isValid addr
  true

-- The prefix length the source's comments give for a case of the switch.
def guessedPrefixLength : Nat → Option Nat
  | 3 => some 64
  | 4 => some 56
  | 5 => some 48
  | 6 => some 40
  | 8 => some 32
  | 0 => some 96
  | _ => none

-- The layout in its own terms: a prefix of one of six lengths, the IPv4 octets
-- behind it stepping over octet 8, and zero octets up to 16.
inductive PrefixLength where
  | pl32
  | pl40
  | pl48
  | pl56
  | pl64
  | pl96
  deriving DecidableEq

def PrefixLength.octets : PrefixLength → Nat
  | .pl32 => 4
  | .pl40 => 5
  | .pl48 => 6
  | .pl56 => 7
  | .pl64 => 8
  | .pl96 => 12

def PrefixLength.bits (pl : PrefixLength) : Nat := 8*pl.octets

structure Prefix (pl : PrefixLength) where
  octets : List UInt8
  whole : octets.length = pl.octets

def layout (p v : List UInt8) : List UInt8 :=
  if p.length ≤ 8 then
    p ++ (v.take (8-p.length) ++ [0] ++ v.drop (8-p.length)) ++ List.replicate (11-p.length) 0
  else p ++ v ++ List.replicate (12-p.length) 0

theorem layout_length (known : p.length ≤ 12) (four : v.length = 4) (room : 4 ≤ p.length) :
    (layout p v).length = 16 := by
  unfold layout
  split <;> simp <;> omega

def embed (p : Prefix pl) (v : InAddr) : In6Addr :=
  ⟨layout p.octets v.octets,by
    have whole := p.whole
    apply layout_length _ v.whole <;> cases pl <;> simp_all [PrefixLength.octets]⟩

theorem countZeros_exact (buf : List UInt8) (total : left+i = buf.length) :
    countZeros buf left i count = count+((buf.reverse.drop i).takeWhile (· = 0)).length := by
  induction left generalizing i count with
  | zero => simp [countZeros,List.drop_eq_nil_of_le (show buf.reverse.length ≤ i by simp; omega)]
  | succ left ih =>
      have inside : i < buf.reverse.length := by simp; omega
      have mirror : buf[buf.length-1-i]? = buf.reverse[i]? := (List.getElem?_reverse (by simpa using inside)).symm
      rw [countZeros,mirror,List.getElem?_eq_getElem inside,List.drop_eq_getElem_cons inside]
      by_cases zero : buf.reverse[i] = 0
      · rw [if_pos (by rw [zero]),ih (by omega),List.takeWhile_cons_of_pos (by simpa using zero)]
        simp only [List.length_cons]
        omega
      · rw [if_neg (by simpa using zero),List.takeWhile_cons_of_neg (by simpa using zero)]
        simp

theorem getSuffixZeroCount_exact (front : List UInt8) (nonzero : c ≠ 0) (k : Nat) :
    getSuffixZeroCount (front ++ c :: List.replicate k 0) = k := by
  have zeros : ∀ x ∈ List.replicate k (0 : UInt8), decide (x = 0) = true := by
    intro x member
    simpa using (List.mem_replicate.mp member).2
  rw [getSuffixZeroCount,countZeros_exact _ (by omega)]
  simp only [List.drop_zero,List.reverse_append,List.reverse_cons,List.reverse_replicate,List.append_assoc]
  rw [List.takeWhile_append_of_pos zeros,List.singleton_append,List.takeWhile_cons_of_neg (by simpa using nonzero)]
  simp

-- The zero octets behind an embedded address whose last octet is not zero.
def PrefixLength.suffix : PrefixLength → Nat
  | .pl32 => 8
  | .pl40 => 6
  | .pl48 => 5
  | .pl56 => 4
  | .pl64 => 3
  | .pl96 => 0

theorem suffix_guesses (pl : PrefixLength) : guessedPrefixLength pl.suffix = some pl.bits := by
  cases pl <;> rfl

theorem getSuffixZeroCount_embed (p : Prefix pl) (v : InAddr) (held : v.octets = [v0,v1,v2,v3])
    (nonzero : v3 ≠ 0) : getSuffixZeroCount (embed p v).s6_addr = pl.suffix := by
  have whole := p.whole
  have count := fun front => getSuffixZeroCount_exact front nonzero pl.suffix
  cases pl with
  | pl32 => simpa [embed,layout,held,whole,PrefixLength.octets,PrefixLength.suffix] using count (p.octets ++ [v0,v1,v2])
  | pl40 => simpa [embed,layout,held,whole,PrefixLength.octets,PrefixLength.suffix] using count (p.octets ++ [v0,v1,v2,0])
  | pl48 => simpa [embed,layout,held,whole,PrefixLength.octets,PrefixLength.suffix] using count (p.octets ++ [v0,v1,0,v2])
  | pl56 => simpa [embed,layout,held,whole,PrefixLength.octets,PrefixLength.suffix] using count (p.octets ++ [v0,0,v1,v2])
  | pl64 => simpa [embed,layout,held,whole,PrefixLength.octets,PrefixLength.suffix] using count (p.octets ++ [0,v0,v1,v2])
  | pl96 => simpa [embed,layout,held,whole,PrefixLength.octets,PrefixLength.suffix] using count (p.octets ++ [v0,v1,v2])

theorem InAddr.four (v : InAddr) : ∃ a b c d, v.octets = [a,b,c,d] := by
  obtain ⟨octets,whole⟩ := v
  match octets,whole with
  | [a,b,c,d],_ => exact ⟨a,b,c,d,rfl⟩

theorem copyV4_middle (dst : In6Addr) (v4 : InAddr) (front old back : List UInt8) (fits : k+n ≤ 4 ∧ off+n ≤ 16)
    (held : dst.s6_addr = front ++ old ++ back) (start : front.length = off) (same : old.length = n) :
    (copyV4 dst off v4 k n fits).s6_addr = front ++ v4.slice k n ++ back :=
  memcpy_middle dst front old back _ held start (by rw [v4.slice_length fits.1,same]) _

theorem clearOctet8_middle (dst : In6Addr) (front back : List UInt8) (c : UInt8)
    (held : dst.s6_addr = front ++ [c] ++ back) (start : front.length = 8) :
    (clearOctet8 dst).s6_addr = front ++ [0] ++ back :=
  memcpy_middle dst front [c] back [0] held start rfl _

theorem InAddr.slice_front (v : InAddr) (k : Nat) : v.slice 0 k = v.octets.take k := rfl

theorem InAddr.slice_back (v : InAddr) (k : Nat) : v.slice k (4-k) = v.octets.drop k :=
  List.take_of_length_le (by rw [List.length_drop,v.whole])

theorem embed_split (p : Prefix pl) (v : InAddr) (around : pl.octets+k = 8) :
    (embed p v).s6_addr =
      p.octets ++ v.octets.take k ++ ([0] ++ (v.octets.drop k ++ List.replicate (3+k) 0)) := by
  have whole := p.whole
  have before : 8-p.octets.length = k := by omega
  have behind : 11-p.octets.length = 3+k := by omega
  simp only [embed,layout,if_pos (show p.octets.length ≤ 8 by omega),before,behind]
  simp

theorem embed_long (p : Prefix .pl96) (v : InAddr) : (embed p v).s6_addr = p.octets ++ v.octets ++ [] := by
  simp [embed,layout,p.whole,PrefixLength.octets]

-- The arms that step over octet 8 after the first k octets of the address.
theorem replace_split (p : Prefix pl) (w v : InAddr) (around : pl.octets+k = 8) (front : 0+k ≤ 4 ∧ pl.octets+k ≤ 16)
    (back : k+(4-k) ≤ 4 ∧ 9+(4-k) ≤ 16) :
    copyV4 (clearOctet8 (copyV4 (embed p w) pl.octets v 0 k front)) 9 v k (4-k) back = embed p v := by
  have first := copyV4_middle (embed p w) v p.octets (w.octets.take k) _ front (embed_split p w around) p.whole
    (by rw [List.length_take,w.whole]; omega)
  have placed : (p.octets ++ v.octets.take k).length = 8 := by
    rw [List.length_append,p.whole,List.length_take,v.whole]
    omega
  have second := clearOctet8_middle _ (p.octets ++ v.octets.take k) (w.octets.drop k ++ List.replicate (3+k) 0) 0
    (by rw [first,InAddr.slice_front,List.append_assoc _ [0]]) placed
  apply In6Addr.ext_octets
  refine (copyV4_middle _ v (p.octets ++ v.octets.take k ++ [0]) (w.octets.drop k) (List.replicate (3+k) 0) back
    (second.trans (by simp)) (by rw [List.length_append,placed]; rfl) (by rw [List.length_drop,w.whole])).trans ?_
  rw [v.slice_back,embed_split p v around]
  simp

theorem replace_whole (p : Prefix pl) (w v : InAddr) (front back : List UInt8) (fits : 0+4 ≤ 4 ∧ off+4 ≤ 16)
    (before : (embed p w).s6_addr = front ++ w.octets ++ back) (after : (embed p v).s6_addr = front ++ v.octets ++ back)
    (start : front.length = off) : copyV4 (embed p w) off v 0 4 fits = embed p v := by
  apply In6Addr.ext_octets
  refine (copyV4_middle _ v front w.octets back fits before start w.whole).trans ?_
  rw [after,InAddr.slice_front,List.take_of_length_le (by rw [v.whole])]

theorem replace_embed (p : Prefix pl) (w v : InAddr) (last : w.octets[3]? ≠ some 0) :
    replaceNat64WithV4IP (embed p w) v = embed p v := by
  obtain ⟨w0,w1,w2,w3,hw⟩ := w.four
  have count := getSuffixZeroCount_embed p w hw (by simpa [hw] using last)
  unfold replaceNat64WithV4IP
  rw [count]
  cases pl with
  | pl32 =>
      have split := fun v => embed_split p v (k:=4) rfl
      have front := fun v : InAddr => List.take_of_length_le (Nat.le_of_eq v.whole)
      have none := fun v : InAddr => List.drop_eq_nil_of_le (Nat.le_of_eq v.whole)
      exact replace_whole p w v _ _ _ (by rw [split,front,none]) (by rw [split,front,none]) p.whole
  | pl40 => exact replace_split p w v (k:=3) rfl _ _
  | pl48 => exact replace_split p w v (k:=2) rfl _ _
  | pl56 => exact replace_split p w v (k:=1) rfl _ _
  | pl64 =>
      have split := fun v => embed_split p v (k:=0) rfl
      exact replace_whole p w v (p.octets ++ [0]) (List.replicate 3 0) _ (by rw [split]; simp)
        (by rw [split]; simp) (by simp [p.whole,PrefixLength.octets])
  | pl96 => exact replace_whole p w v _ _ _ (embed_long p w) (embed_long p v) p.whole

inductive WellKnown where
  | addr1
  | addr2

def WellKnown.v4 : WellKnown → InAddr
  | .addr1 => kWellKnownV4Addr1
  | .addr2 => kWellKnownV4Addr2

-- No prefix hides its own length: the address behind it never ends in a zero octet.
theorem synthesis_reembeds (pl : PrefixLength) (p : Prefix pl) (w : WellKnown) (v : InAddr) :
    replaceNat64WithV4IP (embed p w.v4) v = embed p v ∧
      guessedPrefixLength (getSuffixZeroCount (embed p w.v4).s6_addr) = some pl.bits := by
  have last : w.v4.octets[3]? ≠ some 0 := by cases w <;> decide
  obtain ⟨w0,w1,w2,w3,hw⟩ := w.v4.four
  have count := getSuffixZeroCount_embed p w.v4 hw (by simpa [hw] using last)
  exact ⟨replace_embed p w.v4 v last,by rw [count,suffix_guesses]⟩

-- An address of the NAT64 service: one of the two well-known IPv4 addresses embedded.
def Embedded (a : In6Addr) : Prop := ∃ pl, ∃ p : Prefix pl, ∃ w : WellKnown, a = embed p w.v4

theorem memcmpZero_middle (held : a.s6_addr = front ++ known ++ back) (start : front.length = off) :
    memcmpZero a off known = true := by
  subst start
  rw [memcmpZero,held,List.append_assoc,List.drop_left,List.take_left,beq_self_eq_true]

theorem memcmpZero_held {a : In6Addr} (same : memcmpZero a off known = true)
    (behind : a.s6_addr.drop (off+known.length) = back) : a.s6_addr = a.s6_addr.take off ++ known ++ back := by
  have window : (a.s6_addr.drop off).take known.length = known := by simpa [memcmpZero] using same
  rw [← List.drop_drop] at behind
  have rest := List.take_append_drop known.length (a.s6_addr.drop off)
  rw [window,behind] at rest
  rw [List.append_assoc,rest,List.take_append_drop]

theorem suffix_zeros {a : In6Addr} (count : getSuffixZeroCount a.s6_addr = k) :
    a.s6_addr.drop (16-k) = List.replicate k 0 := by
  rw [getSuffixZeroCount,countZeros_exact _ (by omega),Nat.zero_add,List.drop_zero] at count
  have zeros : a.s6_addr.reverse.takeWhile (· = 0) = List.replicate k 0 := by
    refine List.eq_replicate_iff.mpr ⟨count,fun c member => ?_⟩
    simpa using List.mem_takeWhile_imp member
  have split := congrArg List.reverse (List.takeWhile_append_dropWhile (p:=(· = 0)) (l:=a.s6_addr.reverse))
  rw [zeros,List.reverse_append,List.reverse_replicate,List.reverse_reverse] at split
  have whole := a.whole
  rw [← split,List.length_append,List.length_replicate] at whole
  rw [← split,List.drop_left' (by omega)]

-- The octets of an IPv4 address with octet 8 behind the first k of them.
def around (k : Nat) (v : InAddr) : List UInt8 := v.octets.take k ++ [0] ++ v.octets.drop k

theorem embed_around (p : Prefix pl) (v : InAddr) (split : pl.octets+k = 8) :
    (embed p v).s6_addr = p.octets ++ around k v ++ List.replicate (3+k) 0 := by
  rw [embed_split p v split,around]
  simp only [List.append_assoc]

theorem around_embedded {a : In6Addr} (pl : PrefixLength) (v : InAddr) (split : pl.octets+k = 8)
    (held : a.s6_addr = a.s6_addr.take pl.octets ++ around k v ++ List.replicate (3+k) 0) :
    ∃ p : Prefix pl, a = embed p v := by
  have whole := a.whole
  refine ⟨⟨a.s6_addr.take pl.octets,by rw [List.length_take]; omega⟩,In6Addr.ext_octets ?_⟩
  rw [embed_around _ v split]
  exact held

theorem window_either (spread : InAddr → List UInt8) :
    (memcmpZero a off (spread kWellKnownV4Addr1) || memcmpZero a off (spread kWellKnownV4Addr2)) = true ↔
      ∃ w : WellKnown, memcmpZero a off (spread w.v4) = true := by
  rw [Bool.or_eq_true]
  constructor
  · rintro (one | two)
    · exact ⟨.addr1,one⟩
    · exact ⟨.addr2,two⟩
  · rintro ⟨w,found⟩
    cases w with
    | addr1 => exact .inl found
    | addr2 => exact .inr found

-- A window of the switch over octet 8 that shows one of the addresses.
theorem around_valid {a : In6Addr} (pl : PrefixLength) (split : pl.octets+k = 8)
    (valid : (memcmpZero a pl.octets (around k kWellKnownV4Addr1) || memcmpZero a pl.octets (around k kWellKnownV4Addr2)) = true)
    (count : getSuffixZeroCount a.s6_addr = 3+k) : Embedded a := by
  obtain ⟨w,same⟩ := (window_either (around k)).mp valid
  have size : (around k w.v4).length = 5 := by
    have whole := w.v4.whole
    simp only [around,List.length_append,List.length_take,List.length_drop,List.length_singleton]
    omega
  have behind : a.s6_addr.drop (pl.octets+(around k w.v4).length) = List.replicate (3+k) 0 := by
    rw [size,show pl.octets+5 = 16-(3+k) by omega]
    exact suffix_zeros count
  have held := memcmpZero_held same behind
  obtain ⟨p,embedded⟩ := around_embedded pl w.v4 split held
  exact ⟨pl,p,w,embedded⟩

-- And one in which the four octets stand together.
theorem whole_valid {a : In6Addr}
    (valid : (memcmpZero a off kWellKnownV4Addr1.octets || memcmpZero a off kWellKnownV4Addr2.octets) = true)
    (count : getSuffixZeroCount a.s6_addr = k) (total : off+4+k = 16) :
    ∃ w : WellKnown, a.s6_addr = a.s6_addr.take off ++ w.v4.octets ++ List.replicate k 0 := by
  obtain ⟨w,same⟩ := (window_either InAddr.octets).mp valid
  refine ⟨w,memcmpZero_held same ?_⟩
  rw [w.v4.whole,show off+4 = 16-k by omega]
  exact suffix_zeros count

theorem isValid_embed (p : Prefix pl) (w : WellKnown) : isValid (embed p w.v4) = true := by
  have last : w.v4.octets[3]? ≠ some 0 := by cases w <;> decide
  obtain ⟨w0,w1,w2,w3,hw⟩ := w.v4.four
  have count := getSuffixZeroCount_embed p w.v4 hw (by simpa [hw] using last)
  have split := fun k fits => memcmpZero_middle (embed_around p w.v4 (k:=k) fits) p.whole
  unfold isValid
  rw [count]
  cases pl with
  | pl32 =>
      have held := embed_around p w.v4 (k:=4) rfl
      rw [around,List.take_of_length_le (Nat.le_of_eq w.v4.whole),List.append_assoc w.v4.octets,← List.append_assoc p.octets,
        List.append_assoc] at held
      exact (window_either InAddr.octets).mpr ⟨w,memcmpZero_middle held p.whole⟩
  | pl40 => exact (window_either (around 3)).mpr ⟨w,split 3 rfl⟩
  | pl48 => exact (window_either (around 2)).mpr ⟨w,split 2 rfl⟩
  | pl56 => exact (window_either (around 1)).mpr ⟨w,split 1 rfl⟩
  | pl64 =>
      have held : (embed p w.v4).s6_addr = p.octets ++ [0] ++ w.v4.octets ++ List.replicate 3 0 := by
        rw [embed_around p w.v4 (k:=0) rfl,around]
        simp
      exact (window_either InAddr.octets).mpr ⟨w,memcmpZero_middle held (by simp [p.whole,PrefixLength.octets])⟩
  | pl96 => exact (window_either InAddr.octets).mpr ⟨w,memcmpZero_middle (embed_long p w.v4) p.whole⟩

-- What the switch decides: the /64 window starts behind octet 8 and leaves it unseen.
theorem isValid_iff (a : In6Addr) : isValid a = true ↔ Embedded a ∨ ∃ front c, ∃ w : WellKnown,
    c ≠ 0 ∧ front.length = 8 ∧ a.s6_addr = front ++ [c] ++ w.v4.octets ++ List.replicate 3 0 := by
  constructor
  · intro valid
    unfold isValid at valid
    split at valid
    · rename_i count
      obtain ⟨w,held⟩ := whole_valid valid count rfl
      have inside : 8 < a.s6_addr.length := by rw [a.whole]; decide
      rw [List.take_succ_eq_append_getElem inside] at held
      by_cases zero : a.s6_addr[8] = 0
      · left
        rw [zero] at held
        obtain ⟨p,same⟩ := around_embedded .pl64 w.v4 (k:=0) rfl (held.trans (by simp [around,PrefixLength.octets]))
        exact ⟨.pl64,p,w,same⟩
      · exact .inr ⟨a.s6_addr.take 8,a.s6_addr[8],w,zero,by rw [List.length_take,a.whole]; rfl,held⟩
    · rename_i count
      exact .inl (around_valid .pl56 (k:=1) rfl valid count)
    · rename_i count
      exact .inl (around_valid .pl48 (k:=2) rfl valid count)
    · rename_i count
      exact .inl (around_valid .pl40 (k:=3) rfl valid count)
    · rename_i count
      obtain ⟨w,held⟩ := whole_valid valid count rfl
      have all : around 4 w.v4 = w.v4.octets ++ [0] := by
        rw [around,List.take_of_length_le (Nat.le_of_eq w.v4.whole),List.drop_eq_nil_of_le (Nat.le_of_eq w.v4.whole),
          List.append_nil]
      obtain ⟨p,same⟩ := around_embedded .pl32 w.v4 (k:=4) rfl (held.trans (by
        rw [all]
        simp [PrefixLength.octets,List.replicate_succ]))
      exact .inl ⟨.pl32,p,w,same⟩
    · rename_i count
      obtain ⟨w,held⟩ := whole_valid valid count rfl
      have long := embed_long ⟨a.s6_addr.take 12,by rw [List.length_take,a.whole]; rfl⟩ w.v4
      exact .inl ⟨.pl96,_,w,In6Addr.ext_octets (held.trans long.symm)⟩
    · cases valid
  · rintro (⟨pl,p,w,rfl⟩ | ⟨front,c,w,nonzero,length,held⟩)
    · exact isValid_embed p w
    · obtain ⟨w0,w1,w2,w3,hw⟩ := w.v4.four
      have last : w3 ≠ 0 := by cases w <;> cases hw <;> decide
      have count : getSuffixZeroCount a.s6_addr = 3 := by
        rw [held,hw]
        simpa using getSuffixZeroCount_exact (front ++ [c,w0,w1,w2]) last 3
      unfold isValid
      rw [count]
      exact (window_either InAddr.octets).mpr ⟨w,memcmpZero_middle held (by simp [length])⟩

end PersonalJournal.Nat64
