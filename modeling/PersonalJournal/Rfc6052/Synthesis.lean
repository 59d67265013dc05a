import PersonalJournal.Lib.LittleEndian
import PersonalJournal.Dns.Nat64

namespace PersonalJournal.Synthesis
open Nat64 LittleEndian

-- s_addr as a little-endian host reads it, and the octets that are shifted out of it again.
def s_addr (v : InAddr) : Nat := value v.octets

def shifted (addr k : Nat) : UInt8 := UInt8.ofNat (addr >>> (8*k) &&& 0xff)

def put (a : In6Addr) (i : Nat) (c : UInt8) : In6Addr := ⟨a.s6_addr.set i c,by rw [List.length_set]; exact a.whole⟩

def assign (a : In6Addr) : List (Nat × UInt8) → In6Addr
  | [] => a
  | (i,c) :: rest => assign (put a i c) rest

-- for (i = start; i<=15; i++) checkedipv6.s6_addr[i]=0x0;
def clearFrom (start : Nat) (a : In6Addr) : In6Addr := assign a ((List.range (16-start)).map (fun k => (start+k,0)))

-- memcpy of the first n octets to pointer.
def copyFront (pointer checkedipv6 : In6Addr) (n : Nat) : In6Addr :=
  memcpy pointer 0 (checkedipv6.s6_addr.take n) (by rw [List.length_take,checkedipv6.whole]; omega)

-- `pointer` is not initialised, `ipv6_addr` is the address that inet_pton reads from the
-- constant. Another ipv6_prefix ends the program.
def ipv4toipv6 (pointer ipv6_addr : In6Addr) (ipv6Prefix : Int) (ipv4ptr : InAddr) : Option In6Addr :=
  let octet := shifted (s_addr ipv4ptr)
  if ipv6Prefix = 96 then
    some (assign (copyFront pointer (clearFrom 12 ipv6_addr) 12) [(12,octet 0),(13,octet 1),(14,octet 2),(15,octet 3)])
  else if ipv6Prefix = 64 then
    some (assign (copyFront pointer (clearFrom 8 ipv6_addr) 16) [(8,0),(9,octet 0),(10,octet 1),(11,octet 2),(12,octet 3)])
  else if ipv6Prefix = 56 then
    some (assign (copyFront pointer (clearFrom 7 ipv6_addr) 16) [(7,octet 0),(8,0),(9,octet 1),(10,octet 2),(11,octet 3)])
  else if ipv6Prefix = 48 then
    some (assign (copyFront pointer (clearFrom 6 ipv6_addr) 16) [(6,octet 0),(7,octet 1),(8,0),(9,octet 2),(10,octet 3)])
  else if ipv6Prefix = 40 then
    some (assign (copyFront pointer (clearFrom 5 ipv6_addr) 16) [(5,octet 0),(6,octet 1),(7,octet 2),(8,0),(9,octet 3)])
  else if ipv6Prefix = 32 then
    some (assign (copyFront pointer (clearFrom 4 ipv6_addr) 16) [(4,octet 0),(5,octet 1),(6,octet 2),(7,octet 3),(8,0)])
  else none

theorem shifted_mod (addr k : Nat) : shifted addr k = UInt8.ofNat (addr/256^k) := by
  have mask : addr >>> (8*k) &&& 0xff = addr/256^k % 2^8 := by
    rw [Nat.shiftRight_eq_div_pow,Nat.pow_mul]
    exact Nat.and_two_pow_sub_one_eq_mod _ 8
  apply UInt8.toNat_inj.mp
  rw [shifted,mask,UInt8.toNat_ofNat',UInt8.toNat_ofNat',Nat.mod_mod]

-- Shifting gives back the octets in memory order.
theorem shifted_value (front back : List UInt8) (c : UInt8) : shifted (value (front ++ c :: back)) front.length = c := by
  rw [shifted_mod]
  induction front with
  | nil =>
      apply UInt8.toNat_inj.mp
      have octet := c.toNat_lt
      simp only [List.nil_append,List.length_nil,Nat.pow_zero,Nat.div_one,value,UInt8.toNat_ofNat']
      omega
  | cons d front ih =>
      have octet := d.toNat_lt
      have low : (d.toNat+256*value (front ++ c :: back))/256 = value (front ++ c :: back) := by omega
      rw [List.cons_append,value,List.length_cons,Nat.pow_succ',← Nat.div_div_eq_div_mul,low]
      exact ih

def front (a : In6Addr) (pl : PrefixLength) : Prefix pl :=
  ⟨a.s6_addr.take pl.octets,by rw [List.length_take,a.whole]; cases pl <;> rfl⟩

theorem In6Addr.sixteen (a : In6Addr) :
    ∃ a0 a1 a2 a3 a4 a5 a6 a7 a8 a9 a10 a11 a12 a13 a14 a15,
      a.s6_addr = [a0,a1,a2,a3,a4,a5,a6,a7,a8,a9,a10,a11,a12,a13,a14,a15] := by
  obtain ⟨octets,whole⟩ := a
  match octets,whole with
  | [a0,a1,a2,a3,a4,a5,a6,a7,a8,a9,a10,a11,a12,a13,a14,a15],_ =>
      exact ⟨a0,a1,a2,a3,a4,a5,a6,a7,a8,a9,a10,a11,a12,a13,a14,a15,rfl⟩

theorem ipv4toipv6_embed (pointer s : In6Addr) (pl : PrefixLength) (v : InAddr) :
    ipv4toipv6 pointer s pl.bits v = some (embed (front s pl) v) := by
  obtain ⟨v0,v1,v2,v3,hv⟩ := v.four
  have first : shifted (s_addr v) 0 = v0 := by rw [s_addr,hv]; exact shifted_value [] [v1,v2,v3] v0
  have second : shifted (s_addr v) 1 = v1 := by rw [s_addr,hv]; exact shifted_value [v0] [v2,v3] v1
  have third : shifted (s_addr v) 2 = v2 := by rw [s_addr,hv]; exact shifted_value [v0,v1] [v3] v2
  have last : shifted (s_addr v) 3 = v3 := by rw [s_addr,hv]; exact shifted_value [v0,v1,v2] [] v3
  obtain ⟨a0,a1,a2,a3,a4,a5,a6,a7,a8,a9,a10,a11,a12,a13,a14,a15,hs⟩ := In6Addr.sixteen s
  obtain ⟨p0,p1,p2,p3,p4,p5,p6,p7,p8,p9,p10,p11,p12,p13,p14,p15,hp⟩ := In6Addr.sixteen pointer
  unfold ipv4toipv6
  dsimp only
  rw [first,second,third,last]
  -- with the octets named, both sides are lists of sixteen of them
  cases pl <;>
    simp [PrefixLength.bits,assign,put,copyFront,clearFrom,memcpy,hs,hp,hv,embed,layout,front,PrefixLength.octets,List.range_succ]

-- Both programs put the address where the prefix length says, one told the length and one
-- finding it in the zeros behind the well-known address.
theorem syntheses_agree (pointer pointer' s : In6Addr) (pl : PrefixLength) (v : InAddr) :
    ∃ found, ipv4toipv6 pointer s pl.bits kWellKnownV4Addr1 = some found ∧
      ipv4toipv6 pointer' s pl.bits v = some (replaceNat64WithV4IP found v) := by
  refine ⟨_,ipv4toipv6_embed pointer s pl kWellKnownV4Addr1,?_⟩
  rw [replace_embed (front s pl) kWellKnownV4Addr1 v (by decide)]
  exact ipv4toipv6_embed pointer' s pl v

end PersonalJournal.Synthesis
