import PersonalJournal.Lib.Bytes

namespace PersonalJournal.DomainName
open Bytes

abbrev Label := List UInt8

def Sized (label : Label) : Prop := 1 ≤ label.length ∧ label.length ≤ 63

-- Labels behind their length octets, without the octet that closes the name.
def pack : List Label → List UInt8
  | [] => []
  | label :: rest => UInt8.ofNat label.length :: (label ++ pack rest)

def wire (labels : List Label) : List UInt8 := pack labels ++ [0]

def dot : UInt8 := 46

-- Every label followed by a dot; `text` has dots only between labels.
def dotted : List Label → List UInt8
  | [] => []
  | label :: rest => label ++ dot :: dotted rest

def text (labels : List Label) : List UInt8 := [dot].intercalate labels

def Ascii (labels : List Label) : Prop := ∀ label ∈ labels, ∀ c ∈ label, c < 128

theorem ascii_all (checked : labels.all (·.all (· < 128)) = true) : Ascii labels := by
  intro label member c inside
  simpa using List.all_eq_true.mp (List.all_eq_true.mp checked label member) c inside

def NulFree (labels : List Label) : Prop := ∀ label ∈ labels, 0 ∉ label

-- A host name as it is typed: its text determines its labels.
structure HostName where
  labels : List Label
  named : labels ≠ []
  sized : ∀ label ∈ labels, Sized label
  ascii : Ascii labels
  nulFree : NulFree labels
  dotFree : ∀ label ∈ labels, dot ∉ label
  short : (text labels).length ≤ 253

def HostName.text (host : HostName) : List UInt8 := DomainName.text host.labels

-- `Encodes message i labels n`: a name with these labels starts at octet i of
-- the message and occupies n octets there. A name ends with the zero octet or
-- with a pointer; being inductive, a chain of pointers is finite.
inductive Encodes (message : List UInt8) : Nat → List Label → Nat → Prop where
  | root : message[i]? = some 0 → Encodes message i [] 1
  | pointer : message[i]? = some high → 192 ≤ high → message[i+1]? = some low →
      Encodes message ((high.toNat-192)*256+low.toNat) labels n → Encodes message i labels 2
  | label : Sized label → At message i (UInt8.ofNat label.length :: label) →
      Encodes message (i+1+label.length) rest n → Encodes message i (label :: rest) (1+label.length+n)

theorem text_cons_cons (label next : Label) (rest : List Label) :
    text (label :: next :: rest) = label ++ dot :: text (next :: rest) := by
  simp [text]

theorem dotted_text (named : labels ≠ []) : dotted labels = text labels ++ [dot] := by
  induction labels with
  | nil => contradiction
  | cons label rest ih =>
      cases rest with
      | nil => simp [dotted,text]
      | cons next rest => rw [text_cons_cons,dotted,ih (by simp)]; simp

theorem dotted_length (labels : List Label) : (dotted labels).length = (pack labels).length := by
  induction labels with
  | nil => rfl
  | cons label rest ih => simp [dotted,pack,ih]; omega

theorem text_length (named : labels ≠ []) : (text labels).length + 1 = (pack labels).length := by
  rw [← dotted_length,dotted_text named]
  simp

theorem dotted_clear (clear : NulFree labels) : 0 ∉ dotted labels := by
  induction labels with
  | nil => simp [dotted]
  | cons label rest ih =>
      have here := clear label (by simp)
      have later := ih (fun l member => clear l (by simp [member]))
      simp [dotted,here,later,dot]

theorem text_clear (named : labels ≠ []) (clear : NulFree labels) : 0 ∉ text labels := by
  have all := dotted_clear clear
  rw [dotted_text named] at all
  exact fun member => all (List.mem_append_left _ member)

theorem lengthOctet (sized : Sized label) : (UInt8.ofNat label.length).toNat = label.length := by
  obtain ⟨_,top⟩ := sized
  rw [UInt8.toNat_ofNat']
  omega

theorem lengthOctet_plain (sized : Sized label) :
    UInt8.ofNat label.length ≠ 0 ∧ UInt8.ofNat label.length < 192 := by
  have octet := lengthOctet sized
  obtain ⟨low,high⟩ := sized
  refine ⟨?_,?_⟩
  · intro zero
    rw [zero] at octet
    simp at octet
    omega
  · rw [UInt8.lt_iff_toNat_lt,octet]
    exact Nat.lt_of_le_of_lt high (by decide)

theorem ascii_plain (ascii : Ascii labels) (clear : NulFree labels) (member : label ∈ labels) :
    ∀ c ∈ label, c ≠ 0 ∧ c < 192 := by
  intro c inside
  refine ⟨?_,?_⟩
  · rintro rfl
    exact clear label member inside
  · exact UInt8.lt_trans (ascii label member c inside) (by decide)

theorem pack_clear (sized : ∀ label ∈ labels, Sized label) (clear : NulFree labels) : 0 ∉ pack labels := by
  induction labels with
  | nil => simp [pack]
  | cons label rest ih =>
      have octet := (lengthOctet_plain (sized label (by simp))).1
      have here := clear label (by simp)
      have later := ih (fun l member => sized l (by simp [member])) (fun l member => clear l (by simp [member]))
      simp only [pack,List.mem_cons,List.mem_append,not_or]
      exact ⟨octet.symm,here,later⟩

theorem encodes_wire (sized : ∀ label ∈ labels, Sized label) (held : At message i (wire labels)) :
    Encodes message i labels (wire labels).length := by
  induction labels generalizing i with
  | nil => exact .root (at_cons.mp held).1
  | cons label rest ih =>
      have split : wire (label :: rest) = (UInt8.ofNat label.length :: label) ++ wire rest := by simp [wire,pack]
      obtain ⟨here,later⟩ := at_append.mp (split ▸ held)
      have tail : At message (i+1+label.length) (wire rest) := by
        simpa [Nat.add_assoc,Nat.add_comm 1] using later
      have encoded := Encodes.label (sized label (by simp)) here (ih (fun l member => sized l (by simp [member])) tail)
      rw [split,List.length_append,List.length_cons]
      rwa [show label.length+1+(wire rest).length = 1+label.length+(wire rest).length by omega]

theorem HostName.wire_length (host : HostName) : (wire host.labels).length ≤ 255 := by
  have packed := text_length host.named
  have short := host.short
  simp only [wire,List.length_append,List.length_singleton]
  omega

theorem Encodes.sized (encoded : Encodes message i labels n) : ∀ label ∈ labels, Sized label := by
  induction encoded with
  | root => simp
  | pointer _ _ _ _ ih => exact ih
  | label here _ _ ih =>
      intro label member
      rcases List.mem_cons.mp member with rfl | later
      · exact here
      · exact ih label later

theorem Encodes.occupies (encoded : Encodes message i labels n) : 1 ≤ n := by
  cases encoded <;> omega

-- The pieces of a string between its dots. Read back, they are the string.
def split (name : List UInt8) : List Label := name.splitOn dot

theorem split_named (name : List UInt8) : split name ≠ [] := List.splitOn_ne_nil dot name

theorem text_split (name : List UInt8) : text (split name) = name := List.intercalate_splitOn dot

theorem split_dotFree (name : List UInt8) : ∀ label ∈ split name, dot ∉ label := by
  unfold split
  induction name with
  | nil => simp
  | cons c rest ih =>
      rw [List.splitOn_cons_eq_if_modifyHead]
      split
      · simpa using ih
      · rename_i other
        obtain ⟨first,more,pieces⟩ := List.exists_cons_of_ne_nil (List.splitOn_ne_nil dot rest)
        rw [pieces] at ih ⊢
        obtain ⟨here,later⟩ := List.forall_mem_cons.mp ih
        refine List.forall_mem_cons.mpr ⟨?_,later⟩
        simp only [List.mem_cons,not_or]
        exact ⟨fun same => other (by simp [same]),here⟩

theorem dotted_nulFree (clear : 0 ∉ dotted labels) : NulFree labels := by
  induction labels with
  | nil => simp [NulFree]
  | cons label rest ih =>
      simp only [dotted,List.mem_append,List.mem_cons,not_or] at clear
      exact List.forall_mem_cons.mpr ⟨clear.1,ih clear.2.2⟩

theorem split_nulFree (clear : 0 ∉ name) : NulFree (split name) := by
  apply dotted_nulFree
  rw [dotted_text (split_named name),text_split,List.mem_append,not_or]
  exact ⟨clear,by decide⟩

-- A dot behind the last label.
theorem text_closed (named : labels ≠ []) : text (labels ++ [[]]) = text labels ++ [dot] := by
  rw [← dotted_text named]
  induction labels with
  | nil => contradiction
  | cons label rest ih =>
      cases rest with
      | nil => simp [text,dotted]
      | cons next rest =>
          rw [dotted,← ih (by simp)]
          exact text_cons_cons label next (rest ++ [[]])

theorem pack_append (left right : List Label) : pack (left ++ right) = pack left ++ pack right := by
  induction left with
  | nil => rfl
  | cons label rest ih => simp only [List.cons_append,pack,ih,List.append_assoc]

theorem wire_closed (labels : List Label) : wire (labels ++ [[]]) = wire labels ++ [0] := by
  rw [wire,pack_append]
  rfl

theorem length_octet_found (sized : Sized label) (held : At message i (UInt8.ofNat label.length :: label))
    (found : message[i]? = some c) : c ≠ 0 ∧ c < 192 := by
  cases (at_cons.mp held).1.symm.trans found
  exact lengthOctet_plain sized

theorem Encodes.unique (one : Encodes message i labels n) (two : Encodes message i others m) : n = m := by
  induction one generalizing others m with
  | root found =>
      cases two with
      | root => rfl
      | pointer high large => cases found.symm.trans high; exact absurd large (by decide)
      | label sized held => exact absurd rfl (length_octet_found sized held found).1
  | pointer high large =>
      cases two with
      | root found => cases found.symm.trans high; exact absurd large (by decide)
      | pointer => rfl
      | label sized held => exact absurd large (UInt8.not_le.mpr (length_octet_found sized held high).2)
  | label sized held _ ih =>
      cases two with
      | root found => exact absurd rfl (length_octet_found sized held found).1
      | pointer high large => exact absurd large (UInt8.not_le.mpr (length_octet_found sized held high).2)
      | label sized' held' rest' =>
          have octets := Option.some.inj ((at_cons.mp held).1.symm.trans (at_cons.mp held').1)
          have same := congrArg UInt8.toNat octets
          rw [lengthOctet sized,lengthOctet sized'] at same
          rw [← same] at rest'
          rw [same,ih rest']

theorem Encodes.extend (encoded : Encodes message i labels n) (more : List UInt8) :
    Encodes (message ++ more) i labels n := by
  induction encoded with
  | root found => exact .root (get_extend found more)
  | pointer high large low _ ih => exact .pointer (get_extend high more) large (get_extend low more) ih
  | label sized held _ ih => exact .label sized (held.extend more) ih

end PersonalJournal.DomainName
