import PersonalJournal.Lib.DomainName

namespace PersonalJournal.ResourceRecord
open Bytes DomainName

structure Record where
  owner : List Label
  type : Nat
  cls : Nat
  ttl : Nat
  rdata : List UInt8

def fixedSize : Nat := 10

-- TYPE, CLASS, TTL and RDLENGTH, which stand between the owner name and RDATA.
def Record.fixed (r : Record) : List UInt8 :=
  be16 r.type ++ be16 r.cls ++ be16 (r.ttl / 65536) ++ be16 r.ttl ++ be16 r.rdata.length

theorem Record.fixed_length (r : Record) : r.fixed.length = fixedSize := rfl

-- Records one after the other from octet i to octet final. What their RDATA
-- means is a parameter: it is told where the RDATA starts.
inductive Section (message : List UInt8) (meaning : Nat → Record → Prop) : Nat → List Record → Nat → Prop where
  | nil : Section message meaning i [] i
  | cons : Encodes message i r.owner n → r.type < 65536 → r.rdata.length < 65536 →
      At message (i+n) (r.fixed ++ r.rdata) → meaning (i+n+fixedSize) r →
      Section message meaning (i+n+fixedSize+r.rdata.length) rest final →
      Section message meaning i (r :: rest) final

theorem Section.extend (answers : Section message meaning i records final) (more : List UInt8)
    (kept : ∀ j r, meaning j r → further j r) : Section (message ++ more) further i records final := by
  induction answers with
  | nil => exact .nil
  | cons owner type size held means _ ih =>
      exact .cons (owner.extend more) type size (held.extend more) (kept _ _ means) ih

-- A record with the octets at which it and its fixed part start.
structure Place where
  start : Nat
  fixed : Nat
  record : Record

def Place.rdata (p : Place) : Nat := p.fixed+fixedSize

def Place.final (p : Place) : Nat := p.rdata+p.record.rdata.length

structure Place.Stands (message : List UInt8) (p : Place) : Prop where
  owner : ∃ n, Encodes message p.start p.record.owner n ∧ p.fixed = p.start+n
  type : p.record.type < 65536
  size : p.record.rdata.length < 65536
  held : At message p.fixed (p.record.fixed ++ p.record.rdata)

inductive Places (message : List UInt8) : Nat → List Place → Nat → Prop where
  | nil : Places message i [] i
  | cons : p.Stands message → Places message p.final rest final → Places message p.start (p :: rest) final

theorem Places.stands (places : Places message i all final) : ∀ p ∈ all, p.Stands message := by
  induction places with
  | nil => simp
  | cons here _ ih => exact List.forall_mem_cons.mpr ⟨here,ih⟩

theorem Places.take (places : Places message i all final) (n : Nat) : ∃ middle, Places message i (all.take n) middle := by
  induction places generalizing n with
  | @nil i => exact ⟨i,by rw [List.take_nil]; exact .nil⟩
  | cons here _ ih =>
      cases n with
      | zero => exact ⟨_,.nil⟩
      | succ n =>
          obtain ⟨middle,later⟩ := ih n
          exact ⟨middle,.cons here later⟩

theorem fixed_type (small : r.type < 65536) (held : At message i (Record.fixed r)) :
    read16 message i = some r.type := by
  simp only [Record.fixed,List.append_assoc] at held
  exact read16_be16 small (at_append.mp held).1

theorem fixed_rdlength (small : r.rdata.length < 65536) (held : At message i (Record.fixed r)) :
    read16 message (i+8) = some r.rdata.length := by
  simp only [Record.fixed] at held
  exact read16_be16 small (at_append.mp held).2

theorem Place.Stands.unique (one : Place.Stands message p) (two : Place.Stands message q) (same : p.start = q.start) :
    p.fixed = q.fixed ∧ p.final = q.final := by
  obtain ⟨n,owner,start⟩ := one.owner
  obtain ⟨m,owner',start'⟩ := two.owner
  rw [← same] at owner' start'
  have place : p.fixed = q.fixed := by rw [start,start',owner.unique owner']
  have size := fixed_rdlength one.size (at_append.mp one.held).1
  rw [place] at size
  refine ⟨place,?_⟩
  rw [Place.final,Place.final,Place.rdata,Place.rdata,place,
    Option.some.inj (size.symm.trans (fixed_rdlength two.size (at_append.mp two.held).1))]

theorem Places.unique (one : Places message i ps f) (two : Places message j qs g) (same : i = j) {k : Nat} {p q : Place}
    (here : ps[k]? = some p) (there : qs[k]? = some q) : p.fixed = q.fixed := by
  induction one generalizing j qs g k with
  | nil => cases here
  | cons stands _ ih =>
      cases two with
      | nil => cases there
      | cons stands' later =>
          obtain ⟨fixed,final⟩ := stands.unique stands' same
          cases k with
          | zero =>
              cases here
              cases there
              exact fixed
          | succ k => exact ih later final here there

-- A record takes an octet of its owner and its fixed part at least.
theorem Places.far (places : Places message i all final) {k : Nat} {p : Place} (here : all[k]? = some p) :
    i+(fixedSize+1)*k+1 ≤ p.fixed := by
  induction places generalizing k with
  | nil => cases here
  | @cons first _ _ stands _ ih =>
      obtain ⟨n,owner,start⟩ := stands.owner
      have occupied := owner.occupies
      cases k with
      | zero =>
          cases here
          omega
      | succ k =>
          have later := ih here
          rw [Place.final,Place.rdata] at later
          rw [Nat.mul_succ]
          omega

end PersonalJournal.ResourceRecord
