import Mathlib.Data.List.Count
import PersonalJournal.Dns.Getaddrinfo
import PersonalJournal.Lib.Transition

namespace PersonalJournal.HostBuffer
open Bytes DomainName Query Getaddrinfo Transition

-- One turn of the loop of ChangetoDnsNameFormat, for the octet i of the string.
def encodeTurn (host : List UInt8) (i : Nat) (s : Encode) : Option Encode :=
  if host[i]? = some dot then do
    let buffer ← store s.buffer s.qname (UInt8.ofNat (i-s.lock))
    let s ← copyLabel host (i-s.lock) ⟨buffer,s.qname+1,s.lock⟩
    return {s with lock := s.lock+1}
  else some s

-- The zeroed send_buf with the header, where the name is to be put.
def headed (pid : Nat) : Encode := ⟨queryHeader pid ++ List.replicate (sendBufSize-headerSize) 0,headerSize,0⟩

-- What PrepareDnsQueryPacket does behind the loop.
def closed (s : Encode) : Option (List UInt8) := do
  let buffer ← store s.buffer s.qname 0
  let length ← strlenAt buffer headerSize
  storeAll buffer (headerSize+(length+1)) question

-- A worker inside PrepareDnsQueryPacket. strncat looks for the NUL, puts the dot over it,
-- and a NUL behind the dot.
inductive Worker where
  | entered
  | found (n : Nat)
  | dotted (n : Nat)
  | encoding (i : Nat) (s : Encode)
  | prepared (buffer : List UInt8)
  | crashed

-- The array `host` of getaddrinfo_v6, and whether something has been written behind its end.
structure State where
  array : List UInt8
  outside : Bool
  workers : List Worker

def State.set (s : State) (i : Nat) (w : Worker) : State := {s with workers := s.workers.set i w}

def State.crash (s : State) (i : Nat) : State := s.set i .crashed

def step (pid : Nat) (s : State) (i : Nat) : Option State := do
  match ← s.workers[i]? with
  | .entered => match strlenAt s.array 0 with
      | some n => some (s.set i (.found n))
      | none => some {s.crash i with outside := true}
  | .found n => match store s.array n dot with
      | some array => some {s.set i (.dotted n) with array := array}
      | none => some {s.crash i with outside := true}
  | .dotted n => match store s.array (n+1) 0 with
      | some array => some {s.set i (.encoding 0 (headed pid)) with array := array}
      | none => some {s.crash i with outside := true}
  | .encoding j e => match strlenAt s.array 0 with
      | none => some (s.crash i)
      | some n =>
          if j < n then some (s.set i (((encodeTurn s.array j e).map (.encoding (j+1))).getD .crashed))
          else some (s.set i (((closed e).map .prepared).getD .crashed))
  | .prepared _ => none
  | .crashed => none

-- memset and strncpy with the length of the source: no NUL is copied.
def start (size : Nat) (name : List UInt8) (k : Nat) : State :=
  match storeAll (List.replicate size 0) 0 name with
  | some array => ⟨array,false,List.replicate k .entered⟩
  | none => ⟨List.replicate size 0,true,List.replicate k .entered⟩

-- Nothing has been written outside the array, and the string in it has an end.
structure Contained (s : State) : Prop where
  inside : s.outside = false
  terminated : 0 ∈ s.array

inductive Moves (pid : Nat) (s : State) (i : Nat) : State → Prop where
  | finds : s.workers[i]? = some .entered → strlenAt s.array 0 = some n → Moves pid s i (s.set i (.found n))
  | runsOff : s.workers[i]? = some .entered → strlenAt s.array 0 = none → Moves pid s i {s.crash i with outside := true}
  | dots : s.workers[i]? = some (.found n) → store s.array n dot = some array →
      Moves pid s i {s.set i (.dotted n) with array := array}
  | overdots : s.workers[i]? = some (.found n) → store s.array n dot = none → Moves pid s i {s.crash i with outside := true}
  | ends : s.workers[i]? = some (.dotted n) → store s.array (n+1) 0 = some array →
      Moves pid s i {s.set i (.encoding 0 (headed pid)) with array := array}
  | overends : s.workers[i]? = some (.dotted n) → store s.array (n+1) 0 = none → Moves pid s i {s.crash i with outside := true}
  | turns : s.workers[i]? = some (.encoding j e) → strlenAt s.array 0 = some n → j < n → encodeTurn s.array j e = some e' →
      Moves pid s i (s.set i (.encoding (j+1) e'))
  | closes : s.workers[i]? = some (.encoding j e) → strlenAt s.array 0 = some n → ¬ j < n → closed e = some buffer →
      Moves pid s i (s.set i (.prepared buffer))
  | crashes : s.workers[i]? = some (.encoding j e) → (∀ n, strlenAt s.array 0 = some n →
      j < n ∧ encodeTurn s.array j e = none ∨ ¬ j < n ∧ closed e = none) → Moves pid s i (s.crash i)

theorem step_moves (taken : step pid s i = some t) : Moves pid s i t := by
  obtain ⟨w,place,taken⟩ := Option.bind_eq_some_iff.mp taken
  cases w with
  | entered =>
      simp only at taken
      split at taken
      · cases taken
        exact .finds place (by assumption)
      · cases taken
        exact .runsOff place (by assumption)
  | found n =>
      simp only at taken
      split at taken
      · cases taken
        exact .dots place (by assumption)
      · cases taken
        exact .overdots place (by assumption)
  | dotted n =>
      simp only at taken
      split at taken
      · cases taken
        exact .ends place (by assumption)
      · cases taken
        exact .overends place (by assumption)
  | encoding j e =>
      simp only at taken
      split at taken
      · rename_i none
        cases taken
        exact .crashes place (fun n some => by rw [none] at some; cases some)
      · rename_i n some
        have only : ∀ m, strlenAt s.array 0 = Option.some m → m = n := fun m same => Option.some.inj (same.symm.trans some)
        split at taken
        · rename_i inside
          cases taken
          cases turned : encodeTurn s.array j e with
          | none => exact .crashes place (fun m same => by rw [only m same]; exact .inl ⟨inside,turned⟩)
          | some e' => exact .turns place some inside turned
        · rename_i outside
          cases taken
          cases done : closed e with
          | none => exact .crashes place (fun m same => by rw [only m same]; exact .inr ⟨outside,done⟩)
          | some buffer => exact .closes place some outside done
  | prepared buffer => cases taken
  | crashed => cases taken

-- It has put its dot.
def Worker.past : Worker → Bool
  | .entered => false
  | .found _ => false
  | _ => true

def dots (s : State) : Nat := s.workers.countP Worker.past

-- The name and what the workers have made of the zeros behind it: no more than `dots` of
-- them are dots, and they are the first ones.
structure Filled (name : List UInt8) (size k : Nat) (s : State) (tail : List UInt8) : Prop where
  inside : s.outside = false
  workers : s.workers.length = k
  array : s.array = name ++ tail
  whole : name.length+tail.length = size
  marks : ∀ c ∈ tail, c = dot ∨ c = 0
  zeros : ∀ j, dots s ≤ j → j < tail.length → tail[j]? = some 0
  begun : 0 < dots s → tail[0]? = some dot
  found : ∀ (i : Nat) n, s.workers[i]? = some (Worker.found n) → ∃ p, n = name.length+p ∧ p ≤ dots s ∧ (p = 0 ∨ 0 < dots s)
  dotted : ∀ (i : Nat) n, s.workers[i]? = some (Worker.dotted n) → ∃ p, n = name.length+p ∧ p < dots s

theorem set_dots {s : State} (place : s.workers[i]? = some v) (w : Worker) :
    dots (s.set i w) = dots s - (if v.past then 1 else 0) + (if w.past then 1 else 0) := by
  obtain ⟨near,same⟩ := List.getElem?_eq_some_iff.mp place
  rw [dots,State.set,List.countP_set near,same]
  rfl

theorem dots_room {s : State} {v : Worker} {i : Nat} (place : s.workers[i]? = some v) (before : v.past = false) : dots s < s.workers.length :=
  List.countP_lt_length_iff.mpr ⟨v,List.mem_of_getElem? place,by simp [before]⟩

theorem dots_some {s : State} {v : Worker} {i : Nat} (place : s.workers[i]? = some v) (past : v.past = true) : 0 < dots s :=
  List.countP_pos_iff.mpr ⟨v,List.mem_of_getElem? place,past⟩

theorem dots_le (s : State) : dots s ≤ s.workers.length := List.countP_le_length

theorem plain_clear (clear : 0 ∉ name) (j : Nat) : 0 ∉ name ++ List.replicate j dot := by
  rw [List.mem_append,not_or]
  exact ⟨clear,fun member => absurd (List.mem_replicate.mp member).2 (by decide)⟩

theorem first_zero {tail : List UInt8} (marks : ∀ c ∈ tail, c = dot ∨ c = 0) (zero : tail[d]? = some 0) :
    ∃ m rest, tail = List.replicate m dot ++ 0 :: rest ∧ m ≤ d := by
  induction tail generalizing d with
  | nil => cases zero
  | cons c more ih =>
      obtain ⟨here,later⟩ := List.forall_mem_cons.mp marks
      rcases here with rfl | rfl
      · cases d with
        | zero => cases zero
        | succ d =>
            obtain ⟨m,rest,rfl,less⟩ := ih later (by simpa using zero)
            exact ⟨m+1,rest,rfl,by omega⟩
      · exact ⟨0,more,rfl,Nat.zero_le d⟩

-- strlen counts the name and the dots behind it.
theorem Filled.strlen (filled : Filled name size k s tail) (clear : 0 ∉ name) (room : name.length+k < size) :
    ∃ m rest, tail = List.replicate m dot ++ 0 :: rest ∧ strlenAt s.array 0 = some (name.length+m) ∧ m ≤ dots s ∧
      (0 < dots s → 0 < m) := by
  have count := dots_le s
  have all := filled.workers
  have whole := filled.whole
  obtain ⟨m,rest,shape,less⟩ := first_zero filled.marks (filled.zeros (dots s) (Nat.le_refl _) (by omega))
  refine ⟨m,rest,shape,?_,less,fun some => ?_⟩
  · have length := strlenAt_text [] (name ++ List.replicate m dot) rest (plain_clear clear m)
    rw [filled.array,shape,← List.append_assoc]
    simpa using length
  · rcases Nat.eq_zero_or_pos m with zero | positive
    · have first := filled.begun some
      rw [shape,zero] at first
      cases first
    · exact positive

theorem set_cases {s : State} {i j : Nat} (here : (s.set i w).workers[j]? = some x) :
    x = w ∨ s.workers[j]? = some x := by
  by_cases equal : i = j
  · subst equal
    obtain ⟨near,_⟩ := List.getElem?_eq_some_iff.mp here
    rw [State.set,List.getElem?_set_self (by simpa [State.set] using near)] at here
    exact .inl (Option.some.inj here).symm
  · rw [State.set,List.getElem?_set_ne equal] at here
    exact .inr here

-- One worker is elsewhere; the array is the same, and so is the number of dots.
theorem Filled.move (filled : Filled name size k s tail) (place : s.workers[i]? = some v) (same : w.past = v.past)
    (found : ∀ n, w = .found n → ∃ p, n = name.length+p ∧ p ≤ dots s ∧ (p = 0 ∨ 0 < dots s))
    (dotted : ∀ n, w ≠ .dotted n) : Filled name size k (s.set i w) tail := by
  have count : dots (s.set i w) = dots s := by
    rw [set_dots place,same]
    split
    · rename_i past
      have := dots_some place past
      omega
    · rfl
  refine ⟨filled.inside,by simpa [State.set] using filled.workers,filled.array,filled.whole,filled.marks,?_,?_,?_,?_⟩
  · rw [count]
    exact filled.zeros
  · rw [count]
    exact filled.begun
  · intro j n here
    rw [count]
    rcases set_cases here with now | before
    · exact found n now.symm
    · exact filled.found j n before
  · intro j n here
    rw [count]
    rcases set_cases here with now | before
    · exact absurd now.symm (dotted n)
    · exact filled.dotted j n before

theorem marks_set {tail : List UInt8} (marks : ∀ c ∈ tail, c = dot ∨ c = 0) (mark : d = dot ∨ d = 0) (p : Nat) :
    ∀ c ∈ tail.set p d, c = dot ∨ c = 0 := by
  intro c member
  rcases List.mem_or_eq_of_mem_set member with before | rfl
  · exact marks c before
  · exact mark

-- The dot is put where its worker has found the NUL, which may be a dot by now.
theorem Filled.mark (filled : Filled name size k s tail) (place : s.workers[i]? = some (.found (name.length+p)))
    (near : p ≤ dots s) (first : p = 0 ∨ 0 < dots s) (inside : p < tail.length) :
    Filled name size k {s.set i (.dotted (name.length+p)) with array := name ++ tail.set p dot} (tail.set p dot) := by
  have count : dots {s.set i (.dotted (name.length+p)) with array := name ++ tail.set p dot} = dots s+1 := set_dots place _
  refine ⟨filled.inside,by simpa [State.set] using filled.workers,rfl,by rw [List.length_set]; exact filled.whole,
    marks_set filled.marks (.inl rfl) _,?_,?_,?_,?_⟩
  · intro j far short
    rw [count] at far
    rw [List.length_set] at short
    rw [List.getElem?_set_ne (by omega)]
    exact filled.zeros j (by omega) short
  · intro _
    rcases Nat.eq_zero_or_pos p with zero | positive
    · subst zero
      exact List.getElem?_set_self inside
    · rw [List.getElem?_set_ne (by omega)]
      exact filled.begun (by omega)
  · intro j n here
    rw [count]
    rcases set_cases here with now | before
    · cases now
    · obtain ⟨q,same,less,_⟩ := filled.found j n before
      exact ⟨q,same,by omega,.inr (Nat.succ_pos _)⟩
  · intro j n here
    rw [count]
    rcases set_cases here with now | before
    · cases now
      exact ⟨p,rfl,by omega⟩
    · obtain ⟨q,same,less⟩ := filled.dotted j n before
      exact ⟨q,same,by omega⟩

theorem Filled.finish (filled : Filled name size k s tail) (place : s.workers[i]? = some (.dotted n)) (e : Encode) :
    Filled name size k {s.set i (.encoding 0 e) with array := name ++ tail.set (p+1) 0} (tail.set (p+1) 0) := by
  have count : dots {s.set i (.encoding 0 e) with array := name ++ tail.set (p+1) 0} = dots s := by
    have := dots_some place rfl
    have counted : dots (s.set i (.encoding 0 e)) = dots s - 1 + 1 := set_dots place _
    exact counted.trans (by omega)
  refine ⟨filled.inside,by simpa [State.set] using filled.workers,rfl,by rw [List.length_set]; exact filled.whole,
    marks_set filled.marks (.inr rfl) _,?_,?_,?_,?_⟩
  · intro j far short
    rw [count] at far
    rw [List.length_set] at short
    by_cases equal : p+1 = j
    · subst equal
      exact List.getElem?_set_self short
    · rw [List.getElem?_set_ne equal]
      exact filled.zeros j far short
  · intro _
    rw [List.getElem?_set_ne (Nat.succ_ne_zero p)]
    exact filled.begun (by omega)
  · intro j n here
    rw [count]
    rcases set_cases here with now | before
    · cases now
    · exact filled.found j n before
  · intro j n here
    rw [count]
    rcases set_cases here with now | before
    · cases now
    · exact filled.dotted j n before

theorem store_tail (name tail : List UInt8) (p : Nat) (c : UInt8) :
    store (name ++ tail) (name.length+p) c = if p < tail.length then some (name ++ tail.set p c) else none := by
  simp only [store,List.length_append,Nat.add_lt_add_iff_left]
  split
  · rw [List.set_append_right _ _ (Nat.le_add_right _ _),Nat.add_sub_cancel_left]
  · rfl

theorem step_filled (filled : Filled name size k s tail) (clear : 0 ∉ name) (room : name.length+k < size)
    (moves : Moves pid s i t) : ∃ tail, Filled name size k t tail := by
  obtain ⟨m,rest,shape,length,less,some⟩ := filled.strlen clear room
  have counted := dots_le s
  have all := filled.workers
  have whole := filled.whole
  cases moves with
  | finds place measured =>
      cases length.symm.trans measured
      refine ⟨tail,filled.move place rfl (fun n same => ?_) (fun n => Worker.noConfusion)⟩
      cases same
      exact ⟨m,rfl,less,by omega⟩
  | runsOff place measured => cases length.symm.trans measured
  | dots place stored =>
      obtain ⟨p,rfl,near,first⟩ := filled.found _ _ place
      have more := dots_room place rfl
      rw [filled.array,store_tail,if_pos (by omega)] at stored
      cases stored
      exact ⟨_,filled.mark place near first (by omega)⟩
  | overdots place stored =>
      obtain ⟨p,rfl,near,_⟩ := filled.found _ _ place
      have more := dots_room place rfl
      rw [filled.array,store_tail,if_pos (by omega)] at stored
      cases stored
  | ends place stored =>
      obtain ⟨p,rfl,near⟩ := filled.dotted _ _ place
      rw [filled.array,Nat.add_assoc,store_tail,if_pos (by omega)] at stored
      cases stored
      exact ⟨_,filled.finish place (headed pid)⟩
  | overends place stored =>
      obtain ⟨p,rfl,near⟩ := filled.dotted _ _ place
      rw [filled.array,Nat.add_assoc,store_tail,if_pos (by omega)] at stored
      cases stored
  | turns place => exact ⟨tail,filled.move place rfl (fun n => Worker.noConfusion) (fun n => Worker.noConfusion)⟩
  | closes place => exact ⟨tail,filled.move place rfl (fun n => Worker.noConfusion) (fun n => Worker.noConfusion)⟩
  | crashes place => exact ⟨tail,filled.move place rfl (fun n => Worker.noConfusion) (fun n => Worker.noConfusion)⟩

theorem start_fits (fits : name.length ≤ size) (k : Nat) :
    start size name k = ⟨name ++ List.replicate (size-name.length) 0,false,List.replicate k .entered⟩ := by
  have copied := storeAll_front [] name (List.replicate size 0) (by rw [List.length_replicate]; exact fits)
  simp only [List.nil_append,List.length_nil,List.drop_replicate] at copied
  simp only [start,copied]

theorem start_filled (fits : name.length ≤ size) (k : Nat) :
    Filled name size k (start size name k) (List.replicate (size-name.length) 0) := by
  rw [start_fits fits]
  have none : dots ⟨name ++ List.replicate (size-name.length) 0,false,List.replicate k .entered⟩ = 0 :=
    List.countP_eq_zero.mpr (fun w member => by rw [(List.mem_replicate.mp member).2]; decide)
  have entered : ∀ (i : Nat) w, (List.replicate k Worker.entered)[i]? = some w → w = .entered :=
    fun i w here => (List.mem_replicate.mp (List.mem_of_getElem? here)).2
  refine ⟨rfl,List.length_replicate ..,rfl,by rw [List.length_replicate]; omega,?_,?_,?_,?_,?_⟩
  · intro c member
    exact .inr (List.mem_replicate.mp member).2
  · intro j _ short
    rw [List.length_replicate] at short
    exact List.getElem?_replicate_of_lt short
  · intro some
    omega
  · intro i n here
    cases entered i _ here
  · intro i n here
    cases entered i _ here

theorem run_filled (clear : 0 ∉ name) (room : name.length+k < size)
    (path : Sequence (step pid) (start size name k) actions s) : ∃ tail, Filled name size k s tail :=
  path.preserves (I:=fun s => ∃ tail, Filled name size k s tail)
    (fun _ _ _ ⟨_,filled⟩ taken => step_filled filled clear room (step_moves taken)) ⟨_,start_filled (by omega) k⟩

theorem Filled.contained (filled : Filled name size k s tail) (clear : 0 ∉ name) (room : name.length+k < size) : Contained s := by
  obtain ⟨m,rest,shape,_⟩ := filled.strlen clear room
  refine ⟨filled.inside,?_⟩
  rw [filled.array,shape]
  simp

theorem set_self {s : State} {i : Nat} (place : s.workers[i]? = some v) (w : Worker) : (s.set i w).workers[i]? = some w :=
  List.getElem?_set_self (List.getElem?_eq_some_iff.mp place).1

theorem set_other {s : State} {i j : Nat} (other : j ≠ i) (w : Worker) : (s.set i w).workers[j]? = s.workers[j]? :=
  List.getElem?_set_ne other.symm

-- A worker that is alone with the array, up to the NUL behind its dot.
theorem append_begins (pid : Nat) {s : State} (clear : 0 ∉ name) (array : s.array = name ++ List.replicate (z+1) 0)
    (place : s.workers[i]? = some .entered) :
    ∃ t, Sequence (step pid) s [i,i] t ∧ t.workers[i]? = some (.dotted name.length) ∧ t.outside = s.outside ∧
      t.array = name ++ dot :: List.replicate z 0 ∧ ∀ j, j ≠ i → t.workers[j]? = s.workers[j]? := by
  have length := strlenAt_text [] name (List.replicate z 0) clear
  have put := store_front name 0 dot (List.replicate z 0)
  simp only [List.nil_append,List.length_nil] at length
  rw [List.replicate_succ] at array
  have one : step pid s i = some (s.set i (.found name.length)) := by simp [step,place,array,length]
  have there := set_self place (.found name.length)
  have two : step pid (s.set i (.found name.length)) i =
      some {(s.set i (.found name.length)).set i (.dotted name.length) with array := name ++ dot :: List.replicate z 0} := by
    have same : (s.set i (.found name.length)).array = s.array := rfl
    simp [step,there,same,array,put]
  refine ⟨_,.cons one (.single two),set_self there _,rfl,rfl,fun j other => ?_⟩
  exact (set_other other _).trans (set_other other _)

theorem append_ends (pid : Nat) {s : State} (clear : 0 ∉ name) (array : s.array = name ++ List.replicate (z+2) 0)
    (place : s.workers[i]? = some .entered) :
    ∃ t, Sequence (step pid) s [i,i,i] t ∧ t.outside = s.outside ∧ t.array = name ++ [dot] ++ List.replicate (z+1) 0 ∧
      ∀ j, j ≠ i → t.workers[j]? = s.workers[j]? := by
  obtain ⟨m,path,there,outside,now,others⟩ := append_begins pid clear array place
  have put := store_front (name ++ [dot]) 0 0 (List.replicate z 0)
  have three : step pid m i =
      some {m.set i (.encoding 0 (headed pid)) with array := name ++ [dot] ++ List.replicate (z+1) 0} := by
    rw [List.replicate_succ] at now
    simp only [List.length_append,List.length_singleton,List.append_assoc,List.singleton_append] at put
    simp [step,there,now,put,List.replicate_succ]
  exact ⟨_,path.append (.single three),outside,rfl,fun j other => (set_other other _).trans (others j other)⟩

theorem append_overruns (pid : Nat) {s : State} (clear : 0 ∉ name) (array : s.array = name ++ [0]) (place : s.workers[i]? = some .entered) :
    ∃ t, Sequence (step pid) s [i,i,i] t ∧ t.outside = true := by
  obtain ⟨m,path,there,_,now,_⟩ := append_begins (z:=0) pid clear array place
  have three : step pid m i = some {m.crash i with outside := true} := by
    simp [step,there,now,store]
  exact ⟨_,path.append (.single three),rfl⟩

-- Workers one behind the other, as long as there is room.
theorem appended (pid size : Nat) (clear : 0 ∉ name) (room : name.length+j < size) (more : j ≤ k) :
    ∃ actions s, Sequence (step pid) (start size name k) actions s ∧
      s.array = name ++ List.replicate j dot ++ List.replicate (size-name.length-j) 0 ∧
      ∀ i, j ≤ i → i < k → s.workers[i]? = some .entered := by
  induction j with
  | zero =>
      refine ⟨[],_,.nil,?_,?_⟩
      · rw [start_fits (by omega)]
        simp
      · intro i _ short
        rw [start_fits (by omega)]
        exact List.getElem?_replicate_of_lt short
  | succ j ih =>
      obtain ⟨actions,s,path,array,entered⟩ := ih (by omega) (by omega)
      obtain ⟨z,left⟩ : ∃ z, size-name.length-j = z+2 := ⟨size-name.length-j-2,by omega⟩
      rw [left] at array
      obtain ⟨t,later,_,now,others⟩ := append_ends pid (plain_clear clear j) array (entered j (Nat.le_refl j) (by omega))
      refine ⟨_,t,path.append later,?_,fun i far short => ?_⟩
      · rw [now,List.append_assoc name,← List.replicate_succ',show size-name.length-(j+1) = z+1 by omega]
      · rw [others i (by omega)]
        exact entered i (by omega) short

theorem start_contained (clear : 0 ∉ name) (size k : Nat) : Contained (start size name k) ↔ name.length < size := by
  constructor
  · intro contained
    by_contra past
    rcases Nat.lt_or_ge size name.length with long | same
    · have none : storeAll (List.replicate size 0) 0 name = none := by
        by_contra some
        obtain ⟨array,copied⟩ := Option.ne_none_iff_exists'.mp some
        have inside := storeAll_inside copied
        rw [List.length_replicate] at inside
        rcases inside with none | inside
        · simp [none] at long
        · omega
      have inside := contained.inside
      rw [start,none] at inside
      cases inside
    · have ends := contained.terminated
      rw [start_fits same] at ends
      simp only [show size-name.length = 0 by omega,List.replicate_zero,List.append_nil] at ends
      exact clear ends
  · intro room
    rw [start_fits (Nat.le_of_lt room)]
    refine ⟨rfl,List.mem_append_right _ (List.mem_replicate.mpr ⟨?_,rfl⟩)⟩
    omega

theorem contained_exact (clear : 0 ∉ name) (pid size k : Nat) :
    (∀ actions s, Sequence (step pid) (start size name k) actions s → Contained s) ↔ name.length+k < size := by
  constructor
  · intro contained
    by_contra full
    have fits := (start_contained clear size k).mp (contained [] _ .nil)
    obtain ⟨actions,s,path,array,entered⟩ := appended pid size (j:=size-name.length-1) (k:=k) clear (by omega) (by omega)
    rw [show size-name.length-(size-name.length-1) = 1 by omega] at array
    obtain ⟨t,later,outside⟩ :=
      append_overruns pid (plain_clear clear _) array (entered (size-name.length-1) (Nat.le_refl _) (by omega))
    have inside := (contained _ t (path.append later)).inside
    rw [outside] at inside
    cases inside
  · intro room actions s path
    obtain ⟨tail,filled⟩ := run_filled clear room path
    exact filled.contained clear room

-- The copy that getaddrinfo_v6 makes is the array before any worker has come to it.
theorem copyHost_exact (clear : 0 ∉ name) : copyHost name = .ok name ↔ Contained (start hostSize name 0) := by
  rw [start_contained clear]
  unfold copyHost
  constructor
  · intro copied
    split at copied
    · assumption
    · cases copied
  · intro room
    rw [if_pos room]

theorem host_contained (host : HostName) (pid k : Nat) :
    (∀ actions s, Sequence (step pid) (start hostSize host.text k) actions s → Contained s) ↔
      host.text.length+k < hostSize :=
  contained_exact (text_clear host.named host.nulFree) pid hostSize k

-- Forty times "a", a dot, and forty times "b".
def longHost : HostName where
  labels := [List.replicate 40 97,List.replicate 40 98]
  named := by decide
  sized := by unfold Sized; decide
  ascii := ascii_all (by decide)
  nulFree := by unfold NulFree; decide
  dotFree := by decide
  short := by decide

-- strncpy runs over the end of the array before there is any worker.
theorem long_host_overruns :
    ¬ ∀ actions s, Sequence (step 1) (start hostSize longHost.text 0) actions s → Contained s := by
  intro contained
  exact absurd (contained [] _ .nil).inside (by decide)

end PersonalJournal.HostBuffer
