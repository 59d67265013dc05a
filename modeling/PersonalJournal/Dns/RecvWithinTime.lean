import PersonalJournal.Lib.Deadline
import PersonalJournal.Dns.Answer

namespace PersonalJournal.RecvWithinTime
open Loop Deadline Answer

-- What comes to a socket: a datagram, an error that recvfrom reports, or what select reports in exceptfds.
inductive Item where
  | datagram (octets : List UInt8)
  | error
  | exception

-- A socket at one time, in microseconds, with what comes to it and when.
structure Socket where
  now : Nat
  queue : List (Nat × Item)
  inOrder : queue.Pairwise (·.1 ≤ ·.1)

-- Some systems write the time that is left back to tv, others leave tv alone.
structure Kernel where
  writesBack : Bool
  signal : Nat → Bool
  refuses : Nat → Bool

def Socket.later (s : Socket) (now : Nat) : Socket := {s with now}

def Socket.taken (s : Socket) : Socket := {s with queue := s.queue.tail,inOrder := s.inOrder.tail}

def Socket.ready (s : Socket) (t : Nat) : Bool := s.queue.head?.any (·.1 ≤ t)

def Socket.exceptional (s : Socket) : Bool :=
  match s.queue.head? with
  | some (_,.exception) => true
  | _ => false

def Socket.clock (s : Socket) (k : Kernel) : Clock := ⟨s.ready,k.signal,k.refuses⟩

-- `none` stands for -1.
def Socket.recvfrom (s : Socket) : Option (List UInt8) × Socket :=
  match s.queue.head? with
  | some (_,.datagram octets) => (some octets,s.taken)
  | some (_,.error) => (none,s.taken)
  | _ => (none,s)

-- What select returns, whether errno is EINTR then, whether _fd is in the two sets, and tv.
structure Selected where
  ret : Int
  eintr : Bool
  readfds : Bool
  exceptfds : Bool
  socket : Socket
  tv : Nat

-- An error leaves the sets as they were passed.
def select (k : Kernel) (s : Socket) (tv : Nat) : Selected :=
  let (wake,left) := (s.clock k).sleep tv s.now
  let socket := s.later (s.now+(tv-left))
  let tv := if k.writesBack then left else tv
  match wake with
  | .ready => ⟨1,false,!s.exceptional,s.exceptional,socket,tv⟩
  | .interrupted => ⟨-1,true,true,true,socket,tv⟩
  | .expired => ⟨0,false,false,false,socket,tv⟩
  | .refused => ⟨-1,false,true,true,socket,tv⟩

-- From `label` on.
def turn (k : Kernel) (st : Socket × Nat) : Turn (Socket × Nat) (Option (List UInt8) × Socket) :=
  let r := select k st.1 st.2
  if r.ret = -1 ∧ r.eintr = true then .again (r.socket,r.tv)
  else if r.exceptfds then .leave (none,r.socket)
  else if r.readfds then .leave r.socket.recvfrom
  else .leave (none,r.socket)

def recvWithinTime (k : Kernel) (fuel : Nat) (s : Socket) (sec usec : Nat) : Option (Option (List UInt8) × Socket) :=
  run (turn k) fuel (s,sec*1000000+usec)

structure Attempts where
  datagram : Option (List UInt8)
  sent : List (List UInt8)
  socket : Socket

-- The attempts of socket_gethostbyname from number i on.
def attempts (k : Kernel) (sends : Nat → Bool) (timeout : Int) (packet : List UInt8) (fuel : Nat) :
    Nat → Nat → Socket → Option Attempts
  | 0,_,s => some ⟨none,[],s⟩
  | left+1,i,s =>
    if sends i then
      (recvWithinTime k fuel s (timeout/1000).toNat ((timeout%1000)*1000).toNat).bind fun r =>
        match r.1 with
        | some datagram => some ⟨some datagram,[packet],r.2⟩
        | none => (attempts k sends timeout packet fuel left (i+1) r.2).map fun rest => {rest with sent := packet :: rest.sent}
    else some ⟨none,[],s⟩

def micros (timeout : Int) : Nat := (timeout/1000).toNat*1000000+((timeout%1000)*1000).toNat

-- The timeout is cut into seconds and microseconds without loss.
theorem micros_exact (positive : 0 < timeout) : micros timeout = timeout.toNat*1000 := by
  unfold micros
  omega

@[simp] theorem later_now (s : Socket) (t : Nat) : (s.later t).now = t := rfl
@[simp] theorem later_queue (s : Socket) (t : Nat) : (s.later t).queue = s.queue := rfl
@[simp] theorem later_later (s : Socket) (t u : Nat) : (s.later t).later u = s.later u := rfl
@[simp] theorem later_self (s : Socket) : s.later s.now = s := rfl

theorem recvfrom_now (s : Socket) : s.recvfrom.2.now = s.now := by
  unfold Socket.recvfrom
  split <;> rfl

-- What RecvWithinTime does when select is through.
def conclude (s : Socket) (r : Wake × Nat) : Option (List UInt8) × Socket :=
  match r.1 with
  | .ready => if s.exceptional then (none,s.later r.2) else (s.later r.2).recvfrom
  | _ => (none,s.later r.2)

theorem conclude_now (s : Socket) (r : Wake × Nat) : (conclude s r).2.now = r.2 := by
  unfold conclude
  split
  · split
    · rfl
    · exact recvfrom_now _
  · rfl

theorem turn_wait (k : Kernel) (s : Socket) (r : Nat × Nat) :
    turn k (s.later r.1,r.2) =
      (waitTurn (s.clock k) k.writesBack r).map (fun r => (s.later r.1,r.2)) (conclude s) := by
  obtain ⟨now,tv⟩ := r
  have same : (s.later now).clock k = s.clock k := rfl
  unfold turn select waitTurn
  simp only [same,later_now]
  generalize (s.clock k).sleep tv now = slept
  obtain ⟨wake,left⟩ := slept
  cases wake with
  | ready =>
      have front : (s.later now).exceptional = s.exceptional := rfl
      simp only [front,Turn.map,conclude,later_later]
      cases s.exceptional <;> simp
  | interrupted => simp [Turn.map]
  | expired => simp [Turn.map,conclude]
  | refused => simp [Turn.map,conclude]

theorem recv_wait (k : Kernel) (s : Socket) (fuel sec usec : Nat) :
    recvWithinTime k fuel s sec usec =
      (run (waitTurn (s.clock k) k.writesBack) fuel (s.now,sec*1000000+usec)).map (conclude s) := by
  have ran := run_map (turn_wait k s) fuel (s.now,sec*1000000+usec)
  rwa [later_self] at ran

-- A call that no signal interrupts: what is first in the queue, if it is there in time.
def quietly (s : Socket) (tv : Nat) : Option (List UInt8) × Socket :=
  match s.queue.head? with
  | some (arrival,_) =>
    if arrival ≤ s.now+tv then conclude s (.ready,max s.now arrival) else (none,s.later (s.now+tv))
  | none => (none,s.later (s.now+tv))

theorem ready_first {s : Socket} (there : s.ready t = true) : ∃ arrival item, s.queue.head? = some (arrival,item) ∧ arrival ≤ t := by
  unfold Socket.ready at there
  cases first : s.queue.head? with
  | none => simp [first] at there
  | some front => exact ⟨front.1,front.2,rfl,by simpa [first] using there⟩

theorem first_ready {s : Socket} (first : s.queue.head? = some (arrival,item)) (t : Nat) :
    s.ready t = true ↔ arrival ≤ t := by simp [Socket.ready,first]

theorem comes_quietly {s : Socket} (works : ∀ t, k.refuses t = false)
    (comes : Comes (s.clock k) s.now (s.now+tv) wake t) : conclude s (wake,t) = quietly s tv := by
  cases comes with
  | ready after within there still =>
      obtain ⟨arrival,item,first,come⟩ := ready_first there
      have instant : t = max s.now arrival := by
        refine Nat.le_antisymm (Nat.le_of_not_lt (fun late => ?_)) (Nat.max_le.mpr ⟨after,come⟩)
        have absent := still _ (Nat.le_max_left s.now arrival) late
        cases absent.symm.trans ((first_ready first _).mpr (Nat.le_max_right s.now arrival))
      simp only [quietly,first,if_pos (Nat.le_trans come within),instant]
  | expired still =>
      unfold quietly
      cases first : s.queue.head? with
      | none => rfl
      | some front =>
          obtain ⟨arrival,item⟩ := front
          have late : ¬ arrival ≤ s.now+tv := by
            intro come
            have absent := still (s.now+tv) (Nat.le_add_right _ _) (Nat.lt_succ_self _)
            cases absent.symm.trans ((first_ready first _).mpr come)
          simp only [if_neg late]
          rfl
  | refused after within refuses still => cases (works t).symm.trans refuses

theorem recv_comes (written : k.writesBack = true) (s : Socket) (sec usec : Nat) :
    ∃ wake t, Settles (fun fuel => recvWithinTime k fuel s sec usec) (conclude s (wake,t)) ∧
      Comes (s.clock k) s.now (s.now+(sec*1000000+usec)) wake t := by
  obtain ⟨wake,t,leaves,comes⟩ := resumed_comes (s.clock k) (sec*1000000+usec) s.now
  refine ⟨wake,t,?_,comes⟩
  have settles := leaves.settles.map (conclude s)
  have same : (fun fuel => recvWithinTime k fuel s sec usec) =
      fun fuel => (run (waitTurn (s.clock k) true) fuel (s.now,sec*1000000+usec)).map (conclude s) := by
    funext fuel
    rw [recv_wait,written]
  rwa [same]

-- Interrupted or not, it comes to the same.
theorem recv_quietly (written : k.writesBack = true) (works : ∀ t, k.refuses t = false) (s : Socket) (sec usec : Nat) :
    Settles (fun fuel => recvWithinTime k fuel s sec usec) (quietly s (sec*1000000+usec)) := by
  obtain ⟨wake,t,settles,comes⟩ := recv_comes written s sec usec
  rwa [comes_quietly works comes] at settles

theorem comes_within (comes : Comes c now deadline wake t) : now ≤ t ∧ t ≤ deadline ∨ t = deadline := by
  cases comes with
  | ready after within there still => exact .inl ⟨after,within⟩
  | expired still => exact .inr rfl
  | refused after within refuses still => exact .inl ⟨after,within⟩

-- One attempt in front of the others.
theorem attempt_settles (granted : sends i = true)
    (one : Settles (fun fuel => recvWithinTime k fuel s (timeout/1000).toNat ((timeout%1000)*1000).toNat) (heard,next))
    (others : heard = none → Settles (fun fuel => attempts k sends timeout packet fuel left (i+1) next) rest) :
    Settles (fun fuel => attempts k sends timeout packet fuel (left+1) i s)
      (match heard with
        | some datagram => ⟨some datagram,[packet],next⟩
        | none => {rest with sent := packet :: rest.sent}) := by
  simp only [attempts,if_pos granted]
  cases heard with
  | some datagram => exact one.bind (Settles.done (⟨some datagram,[packet],next⟩ : Attempts))
  | none => exact one.bind ((others rfl).map (fun rest : Attempts => {rest with sent := packet :: rest.sent}))

theorem attempt_refused (refused : ¬ sends i = true) :
    Settles (fun fuel => attempts k sends timeout packet fuel (left+1) i s) ⟨none,[],s⟩ := by
  simp only [attempts,if_neg refused]
  exact .done _

-- Every exchange ends, and in time.
theorem attempts_over (written : k.writesBack = true) (sends : Nat → Bool) (timeout : Int) (packet : List UInt8)
    (left i : Nat) (s : Socket) :
    ∃ r, Settles (fun fuel => attempts k sends timeout packet fuel left i s) r ∧
      s.now ≤ r.socket.now ∧ r.socket.now ≤ s.now+left*micros timeout := by
  induction left generalizing i s with
  | zero => exact ⟨⟨none,[],s⟩,.done _,Nat.le_refl _,Nat.le_add_right _ _⟩
  | succ left ih =>
      by_cases granted : sends i = true
      · obtain ⟨wake,t,settles,comes⟩ := recv_comes written s (timeout/1000).toNat ((timeout%1000)*1000).toNat
        have within := comes_within comes
        change s.now ≤ t ∧ t ≤ s.now+micros timeout ∨ t = s.now+micros timeout at within
        have clock := conclude_now s (wake,t)
        generalize conclude s (wake,t) = came at settles clock
        obtain ⟨heard,next⟩ := came
        obtain ⟨rest,others,after,before⟩ := ih (i+1) next
        have sum : (left+1)*micros timeout = left*micros timeout+micros timeout := Nat.succ_mul _ _
        refine ⟨_,attempt_settles granted settles (fun _ => others),?_⟩
        dsimp only at clock
        cases heard with
        | some datagram => dsimp only; omega
        | none => dsimp only; omega
      · exact ⟨_,attempt_refused granted,Nat.le_refl _,Nat.le_add_right _ _⟩

-- How many attempts there are until sendto fails.
def allowed (sends : Nat → Bool) : Nat → Nat → Nat
  | 0,_ => 0
  | left+1,i => if sends i then allowed sends left (i+1)+1 else 0

-- What n attempts of so many microseconds come to that a datagram is the first to reach: it is taken if it comes in their
-- time, behind one packet for every attempt begun before.
def expected (s : Socket) (tv n : Nat) (packet : List UInt8) : Attempts :=
  match s.queue.head? with
  | some (arrival,.datagram octets) =>
    if 0 < n ∧ arrival ≤ s.now+n*tv then
      ⟨some octets,List.replicate (max 1 ((arrival-s.now+tv-1)/tv)) packet,s.taken.later (max s.now arrival)⟩
    else ⟨none,List.replicate n packet,s.later (s.now+n*tv)⟩
  | _ => ⟨none,List.replicate n packet,s.later (s.now+n*tv)⟩

theorem quietly_late {s : Socket} (late : s.ready (s.now+tv) = false) : quietly s tv = (none,s.later (s.now+tv)) := by
  unfold quietly
  cases first : s.queue.head? with
  | none => rfl
  | some front =>
      obtain ⟨arrival,item⟩ := front
      have missed : ¬ arrival ≤ s.now+tv := fun come => by
        cases late.symm.trans ((first_ready first _).mpr come)
      simp only [if_neg missed]

theorem quietly_datagram {s : Socket} (first : s.queue.head? = some (arrival,.datagram octets))
    (come : arrival ≤ s.now+tv) : quietly s tv = (some octets,s.taken.later (max s.now arrival)) := by
  simp [quietly,first,come,conclude,Socket.exceptional,Socket.recvfrom,Socket.later,Socket.taken]

theorem expected_late {s : Socket} (late : s.ready (s.now+n*tv) = false) :
    expected s tv n packet = ⟨none,List.replicate n packet,s.later (s.now+n*tv)⟩ := by
  unfold expected
  split
  · rename_i arrival octets first
    have missed : ¬ arrival ≤ s.now+n*tv := fun come => by
      cases late.symm.trans ((first_ready first _).mpr come)
    exact if_neg (fun both => missed both.2)
  · rfl

theorem expected_datagram {s : Socket} (first : s.queue.head? = some (arrival,.datagram octets)) (more : 0 < n)
    (come : arrival ≤ s.now+n*tv) :
    expected s tv n packet =
      ⟨some octets,List.replicate (max 1 ((arrival-s.now+tv-1)/tv)) packet,s.taken.later (max s.now arrival)⟩ := by
  simp only [expected,first,if_pos (And.intro more come)]

-- An attempt that hears nothing, and the others behind it.
theorem expected_silent {s : Socket} (positive : 0 < tv) (late : s.ready (s.now+tv) = false)
    (datagram : ∀ arrival item, s.queue.head? = some (arrival,item) → ∃ octets, item = .datagram octets) (n : Nat) (packet : List UInt8) :
    expected s tv (n+1) packet =
      {expected (s.later (s.now+tv)) tv n packet with sent := packet :: (expected (s.later (s.now+tv)) tv n packet).sent} := by
  have sum : s.now+(n+1)*tv = s.now+tv+n*tv := by rw [Nat.succ_mul]; omega
  cases there : s.ready (s.now+(n+1)*tv) with
  | false =>
      have still : (s.later (s.now+tv)).ready ((s.later (s.now+tv)).now+n*tv) = false := by
        rw [later_now,← sum]
        exact there
      rw [expected_late there,expected_late still]
      simp [List.replicate_succ,sum]
  | true =>
      obtain ⟨arrival,item,first,come⟩ := ready_first there
      obtain ⟨octets,rfl⟩ := datagram arrival item first
      have missed : ¬ arrival ≤ s.now+tv := fun early => by
        cases late.symm.trans ((first_ready first _).mpr early)
      have more : 0 < n := by
        rcases Nat.eq_zero_or_pos n with rfl | more
        · omega
        · exact more
      have first' : (s.later (s.now+tv)).queue.head? = some (arrival,.datagram octets) := first
      rw [expected_datagram first (Nat.succ_pos n) come,
        expected_datagram first' more (by rw [later_now]; omega)]
      -- The timeouts begun before the arrival are one more than those behind the first.
      have begun : max 1 ((arrival-s.now+tv-1)/tv) = max 1 ((arrival-(s.now+tv)+tv-1)/tv)+1 := by
        have split : arrival-s.now+tv-1 = arrival-(s.now+tv)+tv-1+tv := by omega
        have one : 1 ≤ (arrival-(s.now+tv)+tv-1)/tv := (Nat.le_div_iff_mul_le positive).mpr (by omega)
        rw [split,Nat.add_div_right _ positive]
        omega
      simp only [later_now,begun,List.replicate_succ]
      have instant : max (s.now+tv) arrival = max s.now arrival := by omega
      rw [instant]
      rfl

theorem attempts_expected (written : k.writesBack = true) (works : ∀ t, k.refuses t = false) (positive : 0 < micros timeout)
    (left i : Nat) (s : Socket)
    (datagram : ∀ arrival item, s.queue.head? = some (arrival,item) → ∃ octets, item = .datagram octets) :
    Settles (fun fuel => attempts k sends timeout packet fuel left i s)
      (expected s (micros timeout) (allowed sends left i) packet) := by
  have nothing : ∀ s : Socket, expected s (micros timeout) 0 packet = ⟨none,[],s⟩ := by
    intro s
    unfold expected
    split
    · simp
    · simp
  induction left generalizing i s with
  | zero =>
      rw [allowed,nothing]
      exact .done _
  | succ left ih =>
      unfold allowed
      by_cases granted : sends i = true
      · rw [if_pos granted]
        have one := recv_quietly written works s (timeout/1000).toNat ((timeout%1000)*1000).toNat
        change Settles _ (quietly s (micros timeout)) at one
        cases there : s.ready (s.now+micros timeout) with
        | true =>
            obtain ⟨arrival,item,first,come⟩ := ready_first there
            obtain ⟨octets,rfl⟩ := datagram arrival item first
            rw [quietly_datagram first come] at one
            have others : some octets = none → Settles (fun fuel => attempts k sends timeout packet fuel left (i+1)
                (s.taken.later (max s.now arrival))) ⟨none,[],s⟩ := fun none => by cases none
            have all := attempt_settles granted one others
            have within : arrival ≤ s.now+(allowed sends left (i+1)+1)*micros timeout := by rw [Nat.succ_mul]; omega
            have once : max 1 ((arrival-s.now+micros timeout-1)/micros timeout) = 1 := by
              have few : (arrival-s.now+micros timeout-1)/micros timeout < 2 := (Nat.div_lt_iff_lt_mul positive).mpr (by omega)
              omega
            rw [expected_datagram first (Nat.succ_pos _) within,once]
            exact all
        | false =>
            rw [quietly_late there] at one
            have others := ih (i+1) (s.later (s.now+micros timeout)) (by rw [later_queue]; exact datagram)
            rw [expected_silent positive there datagram]
            exact attempt_settles granted one (fun _ => others)
      · rw [if_neg granted,nothing]
        exact attempt_refused granted

def onward (s : Socket) (tv : Nat) : Nat → Socket
  | 0 => s
  | i+1 => (quietly (onward s tv i) tv).2

-- The lookup's world with this socket in it.
def Socket.env (s : Socket) (alloc : ReadName.Allocator) (behind : List UInt8) (opens : Bool) (sends : Nat → Bool) : Env :=
  ⟨alloc,behind,opens,sends,fun i timeout => (quietly (onward s (micros timeout) i) (micros timeout)).1⟩

theorem attempts_env (written : k.writesBack = true) (works : ∀ t, k.refuses t = false) (s : Socket)
    (alloc : ReadName.Allocator) (behind : List UInt8) (opens : Bool) (sends : Nat → Bool) (timeout : Int) (packet : List UInt8)
    (left i : Nat) :
    ∃ r, Settles (fun fuel => attempts k sends timeout packet fuel left i (onward s (micros timeout) i)) r ∧
      Answer.attempts (s.env alloc behind opens sends) timeout packet left i = (r.datagram,r.sent) := by
  induction left generalizing i with
  | zero => exact ⟨⟨none,[],_⟩,.done _,rfl⟩
  | succ left ih =>
      by_cases granted : sends i = true
      · have one := recv_quietly written works (onward s (micros timeout) i) (timeout/1000).toNat ((timeout%1000)*1000).toNat
        change Settles _ (quietly (onward s (micros timeout) i) (micros timeout)) at one
        obtain ⟨rest,others,same⟩ := ih (i+1)
        have heard : (s.env alloc behind opens sends).receives i timeout =
            (quietly (onward s (micros timeout) i) (micros timeout)).1 := rfl
        have next : onward s (micros timeout) (i+1) = (quietly (onward s (micros timeout) i) (micros timeout)).2 := rfl
        rw [next] at others
        generalize quietly (onward s (micros timeout) i) (micros timeout) = came at one heard others
        obtain ⟨datagram,later⟩ := came
        refine ⟨_,attempt_settles granted one (fun _ => others),?_⟩
        unfold Answer.attempts
        rw [if_pos (show (s.env alloc behind opens sends).sends i = true from granted),heard]
        cases datagram with
        | some octets => rfl
        | none =>
            dsimp only
            rw [same]
      · refine ⟨⟨none,[],_⟩,attempt_refused granted,?_⟩
        unfold Answer.attempts
        rw [if_neg (show ¬ (s.env alloc behind opens sends).sends i = true from granted)]

-- Where select writes the time back, an exchange is over within its three timeouts, however often it is interrupted and
-- whatever comes to the socket; and it is what the lookups make of it.
theorem exchange_in_time (k : Kernel) (written : k.writesBack = true) (s : Socket) (timeout : Int) (positive : 0 < timeout)
    (sends : Nat → Bool) (packet : List UInt8) :
    ∃ r, Settles (fun fuel => attempts k sends timeout packet fuel 3 0 s) r ∧
      s.now ≤ r.socket.now ∧ r.socket.now ≤ s.now+3*(timeout.toNat*1000) ∧
      ((∀ t, k.refuses t = false) →
        (∀ alloc behind opens, Answer.attempts (s.env alloc behind opens sends) timeout packet 3 0 = (r.datagram,r.sent) ∧
          exchange (s.env alloc behind opens sends) timeout packet 3 0 =
            (buffered recvBufSize r.datagram,r.sent)) ∧
        ((∀ arrival item, s.queue.head? = some (arrival,item) → ∃ octets, item = .datagram octets) →
          r = expected s (timeout.toNat*1000) (allowed sends 3 0) packet)) := by
  obtain ⟨r,settles,after,before⟩ := attempts_over written sends timeout packet 3 0 s
  have tv := micros_exact positive
  refine ⟨r,settles,after,by rwa [tv] at before,fun works => ⟨?_,?_⟩⟩
  · intro alloc behind opens
    obtain ⟨r',settles',same⟩ := attempts_env written works s alloc behind opens sends timeout packet 3 0
    have equal : r' = r := settles'.unique settles
    rw [equal] at same
    refine ⟨same,?_⟩
    rw [exchange,same]
  · intro datagram
    have settles' : Settles (fun fuel => attempts k sends timeout packet fuel 3 0 s) (expected s (micros timeout) (allowed sends 3 0) packet) :=
      attempts_expected written works (by omega) 3 0 s datagram
    rw [tv] at settles'
    exact settles.unique settles'

-- Every other microsecond a signal.
def noisy (writesBack : Bool) : Kernel := ⟨writesBack,fun t => t%2 = 0,fun _ => false⟩

def tardy : Socket := ⟨0,[(1500,.datagram [1])],by simp⟩

-- The reply is late for the first timeout of a millisecond and in time for the second.
theorem exchange_in_time_second :
    ∃ r, Settles (fun fuel => attempts (noisy true) (fun _ => true) 1 [7] fuel 3 0 tardy) r ∧
      r.datagram = some [1] ∧ r.sent = [[7],[7]] ∧ r.socket.now = 1500 := by
  obtain ⟨r,settles,_,_,working⟩ := exchange_in_time (noisy true) rfl tardy 1 (by decide) (fun _ => true) [7]
  have came := (working (fun _ => rfl)).2 (fun arrival item first => by
    cases first
    exact ⟨[1],rfl⟩)
  refine ⟨r,settles,?_⟩
  rw [came]
  decide

-- Where select leaves tv alone, signals can keep a call from ever returning.
theorem never_returns (k : Kernel) (afresh : k.writesBack = false) (works : ∀ t, k.refuses t = false) (s : Socket) (sec usec : Nat) :
    (∀ fuel, recvWithinTime k fuel s sec usec = none) ↔
      s.queue = [] ∧ ∀ t, s.now ≤ t → ∃ u, t < u ∧ u ≤ t+(sec*1000000+usec) ∧ k.signal u = true := by
  have returns : (∃ fuel, recvWithinTime k fuel s sec usec ≠ none) ↔
      (∃ t, s.now ≤ t ∧ s.ready t = true) ∨ ∃ t, s.now ≤ t ∧ Quiet k.signal t (t+(sec*1000000+usec)) := by
    refine Iff.trans ?_ (restarted_leaves (s.clock k) works (sec*1000000+usec) s.now)
    constructor
    · rintro ⟨fuel,left⟩
      rw [recv_wait,afresh] at left
      cases ran : run (waitTurn (s.clock k) false) fuel (s.now,sec*1000000+usec) with
      | none => simp [ran] at left
      | some result => exact ⟨result,run_leaves ran⟩
    · rintro ⟨result,leaves⟩
      obtain ⟨fuel,ran⟩ := leaves_run leaves
      exact ⟨fuel,by rw [recv_wait,afresh,ran]; simp⟩
  have empty : (∃ t, s.now ≤ t ∧ s.ready t = true) ↔ s.queue ≠ [] := by
    constructor
    · rintro ⟨t,_,there⟩ none
      simp [Socket.ready,none] at there
    · intro some
      obtain ⟨⟨arrival,item⟩,rest,first⟩ := List.exists_cons_of_ne_nil some
      have head : s.queue.head? = .some (arrival,item) := by rw [first]; rfl
      exact ⟨max s.now arrival,Nat.le_max_left _ _,(first_ready head _).mpr (Nat.le_max_right _ _)⟩
  rw [empty] at returns
  constructor
  · intro never
    have stays : ¬ ∃ fuel, recvWithinTime k fuel s sec usec ≠ none := fun ⟨fuel,left⟩ => left (never fuel)
    rw [returns,not_or] at stays
    obtain ⟨none,noisy⟩ := stays
    refine ⟨Decidable.not_not.mp none,fun t after => ?_⟩
    refine Classical.byContradiction (fun quiet => noisy ⟨t,after,fun u later within => ?_⟩)
    exact Bool.eq_false_iff.mpr (fun signalled => quiet ⟨u,later,within,signalled⟩)
  · rintro ⟨none,noisy⟩ fuel
    refine Decidable.byContradiction (fun left => ?_)
    rcases returns.mp ⟨fuel,left⟩ with some | ⟨t,after,quiet⟩
    · exact some none
    · obtain ⟨u,later,within,signalled⟩ := noisy t after
      cases (quiet u later within).symm.trans signalled

def deaf : Socket := ⟨0,[],List.Pairwise.nil⟩

theorem never_returns_noisy : deaf.queue = [] ∧ ∀ fuel, recvWithinTime (noisy false) fuel deaf 3 0 = none := by
  have noise : ∀ t, deaf.now ≤ t → ∃ u, t < u ∧ u ≤ t+(3*1000000+0) ∧ (noisy false).signal u = true := by
    intro t _
    rcases Nat.mod_two_eq_zero_or_one t with even | odd
    · exact ⟨t+2,by omega,by omega,decide_eq_true (by omega)⟩
    · exact ⟨t+1,by omega,by omega,decide_eq_true (by omega)⟩
  exact ⟨rfl,(never_returns (noisy false) rfl (fun _ => rfl) deaf 3 0).mpr ⟨rfl,noise⟩⟩

end PersonalJournal.RecvWithinTime
