import PersonalJournal.Dns.HostBuffer

namespace PersonalJournal.TrailingDots
open Bytes DomainName Query Answer Getaddrinfo HostBuffer Transition

-- A dot more is an empty label more, and a zero octet more behind the name.
theorem text_dots (named : labels ≠ []) (k : Nat) : text (labels ++ List.replicate k []) = text labels ++ List.replicate k dot := by
  induction k with
  | zero => simp
  | succ k ih =>
      have some : labels ++ List.replicate k [] ≠ [] := List.append_ne_nil_of_left_ne_nil named _
      rw [List.replicate_succ',List.replicate_succ',← List.append_assoc,text_closed some,ih,List.append_assoc]

theorem wire_dots (labels : List Label) (k : Nat) : wire (labels ++ List.replicate k []) = wire labels ++ List.replicate k 0 := by
  induction labels with
  | nil =>
      induction k with
      | zero => rfl
      | succ k ih =>
          simp only [List.nil_append] at ih ⊢
          rw [List.replicate_succ,List.replicate_succ]
          simpa [wire,pack] using ih
  | cons label rest ih => simpa [wire,pack] using ih

theorem dots_free (dotFree : ∀ label ∈ labels, dot ∉ label) (k : Nat) :
    ∀ label ∈ labels ++ List.replicate k [], dot ∉ label := by
  intro label member
  rcases List.mem_append.mp member with before | empty
  · exact dotFree label before
  · rw [(List.mem_replicate.mp empty).2]
    exact List.not_mem_nil

theorem prepare_dots (host : HostName) (pid : Nat) (room : host.text.length+k+headerSize+questionSize+2 ≤ sendBufSize) :
    ∃ rest, prepareDnsQueryPacket pid (List.replicate sendBufSize 0) (host.text ++ List.replicate k dot) =
      some (packet pid host.labels ++ rest,host.text ++ List.replicate k dot ++ [dot]) := by
  have length : (wire (host.labels ++ List.replicate k [])).length = host.text.length+k+2 := by
    have packed := text_length host.named
    have same : host.text.length+1 = (pack host.labels).length := packed
    rw [wire_dots]
    simp only [wire,List.length_append,List.length_replicate,List.length_singleton]
    omega
  have prepared := prepare_labels pid (n:=sendBufSize) (List.append_ne_nil_of_left_ne_nil host.named (List.replicate k []))
    (dots_free host.dotFree k) (wire_dots host.labels k) host.sized host.nulFree (by omega)
  rw [text_dots host.named] at prepared
  exact ⟨_,prepared⟩

-- The packet in send_buf is the one that the name alone gives.
def Same (pid : Nat) (host : HostName) (buffer : List UInt8) : Prop :=
  ∃ alone host' n, prepareDnsQueryPacket pid (List.replicate sendBufSize 0) host.text = some (alone,host') ∧
    sendPacklen alone = some n ∧ sendPacklen buffer = some n ∧ buffer.take n = alone.take n

theorem prepared_same (host : HostName)
    (prepared : prepareDnsQueryPacket pid (List.replicate sendBufSize 0) (host.text ++ List.replicate k dot) = some (buffer,host'))
    (room : host.text.length+k+headerSize+questionSize+2 ≤ sendBufSize) : Same pid host buffer := by
  obtain ⟨rest,dotted⟩ := prepare_dots host pid room
  cases prepared.symm.trans dotted
  refine ⟨_,_,_,prepareDnsQueryPacket_exact host pid,sendPacklen_exact host pid _,sendPacklen_exact host pid rest,?_⟩
  rw [List.take_left,List.take_left]

-- The loop reads no further than the octet it is at.
theorem copyLabel_congr (same : ∀ l < s.lock+n, h[l]? = g[l]?) : copyLabel h n s = copyLabel g n s := by
  induction n generalizing s with
  | zero => rfl
  | succ n ih =>
      simp only [copyLabel,same s.lock (by omega)]
      refine congrArg _ (funext fun c => congrArg _ (funext fun buffer => ih ?_))
      intro l less
      exact same l (by simp only at less; omega)

theorem encodeTurn_congr (same : ∀ l ≤ i, h[l]? = g[l]?) (s : Encode) : encodeTurn h i s = encodeTurn g i s := by
  simp only [encodeTurn,same i (Nat.le_refl i)]
  split
  · refine congrArg _ (funext fun buffer => ?_)
    rcases Nat.lt_or_ge s.lock i with before | behind
    · rw [copyLabel_congr (fun l less => same l (by simp only at less; omega))]
    · rw [Nat.sub_eq_zero_of_le behind]
      rfl
  · rfl

theorem encodeFrom_turn (host : List UInt8) (left i : Nat) (s : Encode) :
    encodeFrom host (left+1) i s = (encodeTurn host i s).bind (encodeFrom host left (i+1)) := by
  rw [encodeFrom,encodeTurn]
  split
  · simp only [Option.bind_eq_bind,Option.bind_assoc,Option.pure_def,Option.bind_some]
  · rfl

theorem encodeFrom_add (host : List UInt8) (a b i : Nat) (s : Encode) :
    encodeFrom host (a+b) i s = (encodeFrom host a i s).bind (encodeFrom host b (i+a)) := by
  induction a generalizing i s with
  | zero => simp [encodeFrom]
  | succ a ih =>
      rw [show a+1+b = (a+b)+1 by omega,encodeFrom_turn,encodeFrom_turn,Option.bind_assoc]
      refine congrArg _ (funext fun t => ?_)
      rw [ih,show i+1+a = i+(a+1) by omega]

theorem encodeFrom_last (host : List UInt8) (n i : Nat) (s : Encode) :
    encodeFrom host (n+1) i s = (encodeFrom host n i s).bind (encodeTurn host (i+n)) := by
  rw [encodeFrom_add]
  refine congrArg _ (funext fun t => ?_)
  rw [encodeFrom_turn]
  cases encodeTurn host (i+n) t <;> rfl

theorem encodeFrom_congr (same : ∀ l < i+n, h[l]? = g[l]?) (s : Encode) : encodeFrom h n i s = encodeFrom g n i s := by
  induction n generalizing i s with
  | zero => rfl
  | succ n ih =>
      rw [encodeFrom_turn,encodeFrom_turn,encodeTurn_congr (fun l near => same l (by omega))]
      exact congrArg _ (funext fun t => ih (fun l less => same l (by omega)) t)

-- PrepareDnsQueryPacket is what a worker does that finds the string as it has left it.
theorem prepare_turns (pid : Nat) (host : List UInt8) :
    prepareDnsQueryPacket pid (List.replicate sendBufSize 0) host =
      ((encodeFrom (host ++ [dot]) (host ++ [dot]).length 0 (headed pid)).bind closed).map (·,host ++ [dot]) := by
  have header := storeAll_front [] (queryHeader pid) (List.replicate sendBufSize 0)
    (by rw [header_length,List.length_replicate]; decide)
  simp only [List.nil_append,List.length_nil,List.drop_replicate,header_length] at header
  simp only [prepareDnsQueryPacket,header,changetoDnsNameFormat,Option.bind_eq_bind,Option.bind_some,headed]
  cases encodeFrom (host ++ [dot]) (host ++ [dot]).length 0
      ⟨queryHeader pid ++ List.replicate (sendBufSize-headerSize) 0,headerSize,0⟩ with
  | none => rfl
  | some e =>
      simp only [Option.bind_some,closed,Option.bind_eq_bind]
      cases store e.buffer e.qname 0 with
      | none => rfl
      | some buffer =>
          simp only [Option.bind_some,Option.pure_def]
          cases strlenAt buffer headerSize with
          | none => rfl
          | some length =>
              simp only [Option.bind_some]
              cases storeAll buffer (headerSize+(length+1)) question <;> rfl

-- Every number of dots below k leaves room in send_buf.
def Encodable (name : List UInt8) (pid k : Nat) : Prop :=
  ∀ m, m < k → ∃ buffer host',
    prepareDnsQueryPacket pid (List.replicate sendBufSize 0) (name ++ List.replicate m dot) = some (buffer,host')

-- Workers on one array, each of them with what it has made of the dots it has seen.
structure Encoders (name : List UInt8) (pid size k : Nat) (s : State) : Prop where
  filled : ∃ tail, Filled name size k s tail
  running : ∀ (i j : Nat) e, s.workers[i]? = some (Worker.encoding j e) →
    j ≤ name.length+dots s ∧ encodeFrom (name ++ List.replicate k dot) j 0 (headed pid) = some e
  prepared : ∀ (i : Nat) buffer, s.workers[i]? = some (Worker.prepared buffer) → ∃ m host', m < k ∧
    prepareDnsQueryPacket pid (List.replicate sendBufSize 0) (name ++ List.replicate m dot) = some (buffer,host')
  running_on : ∀ i : Nat, s.workers[i]? ≠ some Worker.crashed

theorem dots_get (name rest : List UInt8) (less : l < name.length+a) (less' : l < name.length+b) :
    (name ++ (List.replicate a dot ++ rest))[l]? = (name ++ List.replicate b dot)[l]? := by
  rcases Nat.lt_or_ge l name.length with inside | behind
  · rw [List.getElem?_append_left inside,List.getElem?_append_left inside]
  · rw [List.getElem?_append_right behind,List.getElem?_append_right behind,
      List.getElem?_append_left (by rw [List.length_replicate]; omega),List.getElem?_replicate_of_lt (by omega),
      List.getElem?_replicate_of_lt (by omega)]

-- What the loop and the stores behind it give, when the worker stops behind m+1 dots.
theorem encodable_closes (encodable : Encodable name pid k) (less : m < k)
    (encoded : encodeFrom (name ++ List.replicate k dot) (name.length+(m+1)) 0 (headed pid) = some e) :
    ∃ buffer host', closed e = some buffer ∧
      prepareDnsQueryPacket pid (List.replicate sendBufSize 0) (name ++ List.replicate m dot) = some (buffer,host') := by
  obtain ⟨buffer,host',prepared⟩ := encodable m less
  have turns := prepared
  have shape : name ++ List.replicate m dot ++ [dot] = name ++ List.replicate (m+1) dot := by
    rw [List.append_assoc,← List.replicate_succ']
  have length : (name ++ List.replicate (m+1) dot).length = name.length+(m+1) := by simp
  have same : encodeFrom (name ++ List.replicate k dot) (name.length+(m+1)) 0 (headed pid) =
      encodeFrom (name ++ List.replicate (m+1) dot) (name.length+(m+1)) 0 (headed pid) := by
    refine encodeFrom_congr (fun l near => ?_) _
    have equal := dots_get name [] (a:=k) (b:=m+1) (l:=l) (by omega) (by omega)
    rwa [List.append_nil] at equal
  rw [prepare_turns,shape,length,← same,encoded,Option.bind_some] at turns
  obtain ⟨buffer',done,equal⟩ := Option.map_eq_some_iff.mp turns
  cases equal
  exact ⟨buffer,_,done,prepared⟩

theorem encodable_turns (encodable : Encodable name pid k) (less : j < name.length+k) (positive : 0 < k) :
    ∃ e, encodeFrom (name ++ List.replicate k dot) (j+1) 0 (headed pid) = some e := by
  obtain ⟨m,rfl⟩ : ∃ m, k = m+1 := ⟨k-1,by omega⟩
  obtain ⟨buffer,host',prepared⟩ := encodable m (Nat.lt_succ_self m)
  have shape : name ++ List.replicate m dot ++ [dot] = name ++ List.replicate (m+1) dot := by
    rw [List.append_assoc,← List.replicate_succ']
  have length : (name ++ List.replicate (m+1) dot).length = (j+1)+(name.length+m-j) := by
    rw [List.length_append,List.length_replicate]
    omega
  rw [prepare_turns,shape,length,encodeFrom_add,Option.bind_assoc] at prepared
  cases turned : encodeFrom (name ++ List.replicate (m+1) dot) (j+1) 0 (headed pid) with
  | none =>
      rw [turned] at prepared
      cases prepared
  | some e => exact ⟨e,rfl⟩

theorem dots_grow {s : State} {i : Nat} {v w : Worker} (place : s.workers[i]? = some v) (more : v.past = true → w.past = true) :
    dots s ≤ dots (s.set i w) := by
  rw [set_dots place]
  cases before : v.past with
  | false => exact Nat.le_add_right _ _
  | true =>
      have := dots_some place before
      simp only [if_true,more before]
      omega

-- One worker is at w now, the others are where they were.
theorem Encoders.set (encoders : Encoders name pid size k s) {i : Nat} {v w : Worker} (place : s.workers[i]? = some v)
    (more : v.past = true → w.past = true) (filled : ∃ tail, Filled name size k {s.set i w with array := array} tail)
    (running : ∀ j e, w = .encoding j e → j ≤ name.length+dots s ∧
      encodeFrom (name ++ List.replicate k dot) j 0 (headed pid) = some e)
    (prepared : ∀ buffer, w = .prepared buffer → ∃ m host', m < k ∧
      prepareDnsQueryPacket pid (List.replicate sendBufSize 0) (name ++ List.replicate m dot) = some (buffer,host'))
    (whole : w ≠ .crashed) : Encoders name pid size k {s.set i w with array := array} := by
  have grow : dots s ≤ dots {s.set i w with array := array} := dots_grow place more
  refine ⟨filled,fun l j e here => ?_,fun l buffer here => ?_,fun l here => ?_⟩
  · rcases set_cases here with now | before
    · obtain ⟨near,encoded⟩ := running j e now.symm
      exact ⟨by omega,encoded⟩
    · obtain ⟨near,encoded⟩ := encoders.running l j e before
      exact ⟨by omega,encoded⟩
  · rcases set_cases here with now | before
    · exact prepared buffer now.symm
    · exact encoders.prepared l buffer before
  · rcases set_cases here with now | before
    · exact whole now.symm
    · exact encoders.running_on l before

theorem step_encoders (encoders : Encoders name pid size k s) (clear : 0 ∉ name) (room : name.length+k < size)
    (encodable : Encodable name pid k) (taken : step pid s i = some t) : Encoders name pid size k t := by
  obtain ⟨tail,filled⟩ := encoders.filled
  have moves := step_moves taken
  have later := step_filled filled clear room moves
  obtain ⟨m,rest,shape,length,less,begun⟩ := filled.strlen clear room
  have counted := dots_le s
  rw [filled.workers] at counted
  have seen : ∀ l, l < name.length+m → s.array[l]? = (name ++ List.replicate k dot)[l]? := by
    intro l near
    rw [filled.array,shape]
    exact dots_get name _ near (by omega)
  cases moves with
  | finds place _ => exact encoders.set place id later (fun j e => Worker.noConfusion) (fun b => Worker.noConfusion) Worker.noConfusion
  | runsOff place none => cases length.symm.trans none
  | dots place _ =>
      exact encoders.set place (fun _ => rfl) later (fun j e => Worker.noConfusion) (fun b => Worker.noConfusion) Worker.noConfusion
  | overdots place _ =>
      obtain ⟨_,after⟩ := later
      cases after.inside
  | ends place _ =>
      refine encoders.set place id later (fun j e same => ?_) (fun b => Worker.noConfusion) Worker.noConfusion
      cases same
      exact ⟨Nat.zero_le _,rfl⟩
  | overends place _ =>
      obtain ⟨_,after⟩ := later
      cases after.inside
  | @turns j e n e' place measured inside turned =>
      cases length.symm.trans measured
      obtain ⟨_,encoded⟩ := encoders.running i j e place
      refine encoders.set place id later (fun j' e'' same => ?_) (fun b => Worker.noConfusion) Worker.noConfusion
      cases same
      refine ⟨by omega,?_⟩
      rw [encodeFrom_last,encoded,Option.bind_some,Nat.zero_add,← turned]
      exact encodeTurn_congr (fun l near => (seen l (by omega)).symm) e
  | @closes j e n buffer place measured outside done =>
      cases length.symm.trans measured
      obtain ⟨near,encoded⟩ := encoders.running i j e place
      have positive := begun (dots_some place rfl)
      obtain ⟨x,rfl⟩ : ∃ x, j = name.length+(x+1) := ⟨j-name.length-1,by omega⟩
      obtain ⟨buffer',host',done',prepared⟩ := encodable_closes encodable (by omega) encoded
      cases done.symm.trans done'
      refine encoders.set place id later (fun j e => Worker.noConfusion) (fun b same => ?_) Worker.noConfusion
      cases same
      exact ⟨x,host',by omega,prepared⟩
  | @crashes j e place fails =>
      obtain ⟨near,encoded⟩ := encoders.running i j e place
      have positive := begun (dots_some place rfl)
      rcases fails _ length with ⟨inside,stuck⟩ | ⟨outside,stuck⟩
      · obtain ⟨e',turned⟩ := encodable_turns (j:=j) encodable (by omega) (by omega)
        rw [encodeFrom_last,encoded,Option.bind_some,Nat.zero_add,
          ← encodeTurn_congr (fun l near => seen l (by omega)) e,stuck] at turned
        cases turned
      · obtain ⟨x,rfl⟩ : ∃ x, j = name.length+(x+1) := ⟨j-name.length-1,by omega⟩
        obtain ⟨buffer,_,done,_⟩ := encodable_closes encodable (by omega) encoded
        cases stuck.symm.trans done

-- Steps that a worker has still to make at most.
def Worker.left (bound : Nat) : Worker → Nat
  | .entered => bound+4
  | .found _ => bound+3
  | .dotted _ => bound+2
  | .encoding j _ => bound+1-j
  | .prepared _ => 0
  | .crashed => 0

theorem step_some (pid : Nat) {s : State} {i : Nat} {w : Worker} (place : s.workers[i]? = some w) (more : 0 < Worker.left bound w) :
    ∃ t, step pid s i = some t := by
  cases w <;> simp only [step,place,Option.bind_eq_bind,Option.bind_some]
  case entered => split <;> exact ⟨_,rfl⟩
  case found => split <;> exact ⟨_,rfl⟩
  case dotted => split <;> exact ⟨_,rfl⟩
  case encoding j e =>
      split
      · exact ⟨_,rfl⟩
      · split <;> exact ⟨_,rfl⟩
  case prepared => cases more
  case crashed => cases more

theorem step_left (encoders : Encoders name pid size k s) (clear : 0 ∉ name) (room : name.length+k < size)
    (encodable : Encodable name pid k) {i : Nat} {w : Worker} (place : s.workers[i]? = some w)
    (taken : step pid s i = some t) :
    ∃ v, t.workers[i]? = some v ∧ Worker.left (name.length+k) v < Worker.left (name.length+k) w := by
  have after := step_encoders encoders clear room encodable taken
  have moves := step_moves taken
  obtain ⟨tail,filled⟩ := encoders.filled
  obtain ⟨m,rest,shape,length,less,begun⟩ := filled.strlen clear room
  have counted := dots_le s
  rw [filled.workers] at counted
  have crashed : t.workers[i]? ≠ some .crashed := after.running_on i
  cases moves with
  | finds place' _ =>
      cases place.symm.trans place'
      exact ⟨_,set_self place _,by simp [Worker.left]⟩
  | runsOff place' _ => exact absurd (set_self place' .crashed) crashed
  | dots place' _ =>
      cases place.symm.trans place'
      exact ⟨_,set_self place _,by simp [Worker.left]⟩
  | overdots place' _ => exact absurd (set_self place' .crashed) crashed
  | ends place' _ =>
      cases place.symm.trans place'
      exact ⟨_,set_self place _,by simp [Worker.left]⟩
  | overends place' _ => exact absurd (set_self place' .crashed) crashed
  | turns place' measured inside _ =>
      cases place.symm.trans place'
      cases length.symm.trans measured
      exact ⟨_,set_self place _,by simp only [Worker.left]; omega⟩
  | closes place' _ _ _ =>
      cases place.symm.trans place'
      have near := (encoders.running i _ _ place).1
      exact ⟨_,set_self place _,by simp only [Worker.left]; omega⟩
  | crashes place' _ => exact absurd (set_self place' .crashed) crashed

-- Left alone, every worker gets its packet.
theorem worker_finishes (clear : 0 ∉ name) (room : name.length+k < size) (encodable : Encodable name pid k) (left : Nat)
    (encoders : Encoders name pid size k s) {i : Nat} {w : Worker} (place : s.workers[i]? = some w)
    (bounded : Worker.left (name.length+k) w ≤ left) :
    ∃ n t buffer, Sequence (step pid) s (List.replicate n i) t ∧ t.workers[i]? = some (.prepared buffer) := by
  induction left generalizing s w with
  | zero =>
      cases w with
      | prepared buffer => exact ⟨0,s,buffer,.nil,place⟩
      | crashed => exact absurd place (encoders.running_on i)
      | encoding j e =>
          obtain ⟨tail,filled⟩ := encoders.filled
          have counted := dots_le s
          rw [filled.workers] at counted
          have near := (encoders.running i j e place).1
          simp only [Worker.left] at bounded
          omega
      | _ => cases bounded
  | succ left ih =>
      rcases Nat.eq_zero_or_pos (Worker.left (name.length+k) w) with zero | positive
      · exact ih encoders place (by omega)
      · obtain ⟨t,taken⟩ := step_some pid place positive
        obtain ⟨v,there,less⟩ := step_left encoders clear room encodable place taken
        obtain ⟨n,u,buffer,path,done⟩ := ih (step_encoders encoders clear room encodable taken) there (by omega)
        exact ⟨n+1,u,buffer,.cons taken path,done⟩

theorem start_encoders (fits : name.length ≤ size) (pid k : Nat) : Encoders name pid size k (start size name k) := by
  have filled := start_filled fits k
  have entered : ∀ (i : Nat) w, (start size name k).workers[i]? = some w → w = .entered := by
    intro i w here
    rw [start_fits fits] at here
    exact (List.mem_replicate.mp (List.mem_of_getElem? here)).2
  exact ⟨⟨_,filled⟩,fun i j e here => Worker.noConfusion (entered i _ here),
    fun i buffer here => Worker.noConfusion (entered i _ here),fun i here => Worker.noConfusion (entered i _ here)⟩

theorem trailing_dots (host : HostName) (pid k : Nat) (fits : host.text.length+k < size)
    (small : size+headerSize+questionSize < sendBufSize) :
    (∃ buffer host', prepareDnsQueryPacket pid (List.replicate sendBufSize 0) (host.text ++ List.replicate k dot) =
      some (buffer,host') ∧ Same pid host buffer) ∧
    ∀ actions s, Sequence (step pid) (start size host.text k) actions s →
      (∀ (i : Nat) buffer, s.workers[i]? = some (Worker.prepared buffer) → Same pid host buffer) ∧
      ∀ i, i < k → ∃ n t buffer, Sequence (step pid) s (List.replicate n i) t ∧ t.workers[i]? = some (.prepared buffer) := by
  have clear : 0 ∉ host.text := text_clear host.named host.nulFree
  have encodable : Encodable host.text pid k := by
    intro m less
    obtain ⟨rest,prepared⟩ := prepare_dots (k:=m) host pid (by omega)
    exact ⟨_,_,prepared⟩
  refine ⟨?_,fun actions s path => ?_⟩
  · obtain ⟨rest,prepared⟩ := prepare_dots (k:=k) host pid (by omega)
    exact ⟨_,_,prepared,prepared_same host prepared (by omega)⟩
  · have encoders : Encoders host.text pid size k s :=
      path.preserves (fun _ _ _ kept taken => step_encoders kept clear fits encodable taken)
        (start_encoders (by omega) pid k)
    refine ⟨fun i buffer here => ?_,fun i short => ?_⟩
    · obtain ⟨m,host',less,prepared⟩ := encoders.prepared i buffer here
      exact prepared_same host prepared (by omega)
    · obtain ⟨tail,filled⟩ := encoders.filled
      have near : i < s.workers.length := by rw [filled.workers]; exact short
      exact worker_finishes clear fits encodable _ encoders (List.getElem?_eq_getElem near) (Nat.le_refl _)

-- The three workers of a lookup of "a".
theorem trailing_dots_three :
    (∃ buffer host', prepareDnsQueryPacket 1 (List.replicate sendBufSize 0) (hostA.text ++ List.replicate 3 dot) =
      some (buffer,host') ∧ Same 1 hostA buffer) ∧
    ∀ actions s, Sequence (step 1) (start hostSize hostA.text 3) actions s →
      (∀ (i : Nat) buffer, s.workers[i]? = some (Worker.prepared buffer) → Same 1 hostA buffer) ∧
      ∀ i, i < 3 → ∃ n t buffer, Sequence (step 1) s (List.replicate n i) t ∧ t.workers[i]? = some (.prepared buffer) :=
  trailing_dots hostA 1 3 (by decide) (by decide)

end PersonalJournal.TrailingDots
