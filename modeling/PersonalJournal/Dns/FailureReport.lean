import PersonalJournal.Dns.Resolver

namespace PersonalJournal.FailureReport
open Nat64 Answer Transition Resolver

def failed : Pc → Bool
  | .failLocking => true
  | .failCounting => true
  | .failUnlocking => true
  | .ended ret => ret = -1
  | _ => false

def counted : Pc → Bool
  | .failUnlocking => true
  | .ended ret => ret = -1
  | _ => false

def current (s : State) : List Worker := s.workers.filter (fun w => w.call = s.call)

def earlier (s : State) : List Worker := s.workers.filter (fun w => !decide (w.call = s.call))

-- Failures of this call that its threads have not counted yet.
def pending (s : State) : Nat := (current s).countP (fun w => failed w.pc && !counted w.pc)

-- Failures that threads of earlier calls have counted.
def staleFailures (s : State) : Nat := (earlier s).countP (counted ·.pc)

-- Threads that earlier calls could not create, three being due to each of them.
def missingThreads (s : State) : Int := 3*(s.call-1 : Int)-(earlier s).length

def Reports (s next : State) : Prop := s.caller = .pollFail ∧ next.caller = .returned (-1)

def AllFailed (s : State) : Prop := ∀ w ∈ s.workers, w.call = s.call → failed w.pc = true

def Justified (s : State) (_ : Action) (next : State) : Prop := Reports s next → AllFailed next

def Accounted (s : State) (_ : Action) (next : State) : Prop :=
  Reports s next → (pending s : Int) = staleFailures s+missingThreads s

def serverRemaining : Server → Nat
  | .first => 3
  | .second => 2
  | .third => 1

def remaining : Caller → Nat
  | .initMutex => 3
  | .initMutex1 => 3
  | .fill => 3
  | .assign k => serverRemaining k
  | .create k => serverRemaining k
  | _ => 0

-- What the two counters count over all calls of the process.
structure Ledger (s : State) : Prop where
  failures : s.dnsquery_failcount = s.workers.countP (counted ·.pc)
  threads : s.DNS64SERVERNUM = 3-3*s.call+remaining s.caller+s.workers.length

theorem remaining_after (k : Server) : remaining k.after+1 = serverRemaining k := by cases k <;> rfl

theorem remaining_outside (outside : Caller.outside c = true) : remaining c = 0 := by
  cases c <;> first | rfl | cases outside

theorem countP_replace (p : Worker → Bool) {l : List Worker} (found : l[i]? = some w) (v : Worker) :
    (l.set i v).countP p+(if p w then 1 else 0) = l.countP p+(if p v then 1 else 0) := by
  obtain ⟨near,here⟩ := List.getElem?_eq_some_iff.mp found
  have least := List.boole_getElem_le_countP (p:=p) near
  rw [List.countP_set near]
  rw [here] at least ⊢
  omega

-- Only the step that raises dnsquery_failcount makes a thread a counted one.
theorem moves_counted (moves : Moves s w event t v) :
    t.dnsquery_failcount+((if counted w.pc then 1 else 0 : Nat) : Int) =
      s.dnsquery_failcount+((if counted v.pc then 1 else 0 : Nat) : Int) := by
  cases moves <;> simp [counted,Shared.put, *]

theorem initial_ledger (tables : Nat → SocketIpinfo) : Ledger (initial tables) := by
  constructor <;> simp [initial,remaining]

theorem caller_ledger (ledger : Ledger s) (advances : Advances s t) : Ledger t := by
  obtain ⟨failures,threads⟩ := ledger
  cases advances with
  | initMutex place => exact ⟨failures,by simpa [place,remaining] using threads⟩
  | initMutex1 place => exact ⟨failures,by simpa [place,remaining] using threads⟩
  | fill place => exact ⟨failures,by simpa [place,remaining,serverRemaining] using threads⟩
  | assign place => exact ⟨failures,by simpa [place,remaining] using threads⟩
  | @created k place =>
      have after := remaining_after k
      have due : remaining s.caller = serverRemaining k := by rw [place]; rfl
      refine ⟨by simpa [counted] using failures,?_⟩
      simp only [List.length_append,List.length_singleton]
      omega
  | @uncreated k place =>
      have after := remaining_after k
      have due : remaining s.caller = serverRemaining k := by rw [place]; rfl
      refine ⟨failures,?_⟩
      simp only
      omega
  | found place => exact ⟨failures,by simpa [place,remaining] using threads⟩
  | missed place => exact ⟨failures,by simpa [place,remaining] using threads⟩
  | failed place => exact ⟨failures,by simpa [place,remaining] using threads⟩
  | waits place => exact ⟨failures,by simpa [place,remaining] using threads⟩

theorem worker_ledger (ledger : Ledger s) (found : s.workers[i]? = some w) (moves : Moves s.toShared w event shared v) :
    Ledger {s with toShared := shared,workers := s.workers.set i v} := by
  obtain ⟨failures,threads⟩ := ledger
  obtain ⟨_,_,call,_,_⟩ := moves.same
  have raised := moves_counted moves
  have replaced := countP_replace (counted ·.pc) found v
  refine ⟨?_,by simpa [call] using threads⟩
  simp only
  omega

theorem callStep_ledger (ledger : Ledger s) (taken : callStep s action = some t) : Ledger t := by
  cases action with
  | caller created => exact caller_ledger ledger (callerStep_advances taken)
  | worker i event =>
      obtain ⟨w,shared,v,found,moves,rfl⟩ := callStep_worker taken
      exact worker_ledger ledger found moves

theorem step_ledger (ledger : Ledger s) (taken : step s action = some t) : Ledger t := by
  rcases step_cases taken with ⟨args,rfl,outside,rfl⟩ | ⟨ipinfo,content,rfl,_,rfl⟩ | ⟨inner,rfl,taken⟩
  · obtain ⟨failures,threads⟩ := ledger
    rw [remaining_outside outside] at threads
    refine ⟨failures,?_⟩
    simp only [enter,remaining]
    push_cast
    omega
  · exact ⟨ledger.failures,ledger.threads⟩
  · exact callStep_ledger ledger taken

theorem current_earlier (s : State) (p : Worker → Bool) :
    s.workers.countP p = (current s).countP p+(earlier s).countP p :=
  List.countP_eq_countP_filter_add s.workers p _

theorem current_length (s : State) : s.workers.length = (current s).length+(earlier s).length := by
  simpa using current_earlier s (fun _ => true)

theorem failed_split (workers : List Worker) :
    workers.countP (failed ·.pc) =
      workers.countP (counted ·.pc)+workers.countP (fun w => failed w.pc && !counted w.pc) := by
  induction workers with
  | nil => rfl
  | cons w rest ih =>
      simp only [List.countP_cons,ih]
      cases place : w.pc <;> simp [failed,counted] <;> omega

theorem allFailed_count : AllFailed s ↔ (current s).countP (failed ·.pc) = (current s).length := by
  rw [List.countP_eq_length]
  simp [AllFailed,current]

-- At the exit both counters are known, so -1 is right exactly when the failures
-- and the refusals left over from earlier calls stand for failures still uncounted.
theorem exit_exact (ledger : Ledger s) (place : s.caller = .pollFail)
    (exit : s.dnsquery_failcount = s.DNS64SERVERNUM) :
    AllFailed s ↔ (pending s : Int) = staleFailures s+missingThreads s := by
  obtain ⟨failures,threads⟩ := ledger
  have all := current_earlier s (counted ·.pc)
  have size := current_length s
  have split := failed_split (current s)
  have none' : remaining s.caller = 0 := by rw [place]; rfl
  rw [allFailed_count]
  unfold missingThreads pending staleFailures
  omega

theorem reports_failed (taken : step s action = some t) (reports : Reports s t) :
    s.dnsquery_failcount = s.DNS64SERVERNUM ∧ (AllFailed t ↔ AllFailed s) := by
  obtain ⟨place,returned⟩ := reports
  rcases step_cases taken with ⟨args,rfl,outside,rfl⟩ | ⟨ipinfo,content,rfl,outside,rfl⟩ | ⟨inner,rfl,taken⟩
  · rw [place] at outside
    cases outside
  · rw [place] at outside
    cases outside
  · have running : s.caller ≠ .returned (-1) := by
      intro gone
      cases place.symm.trans gone
    rcases callStep_returned taken running returned with ⟨place',_⟩ | ⟨_,all,rfl⟩
    · cases place.symm.trans place'
    · exact ⟨all,Iff.rfl⟩

theorem justified_exact (ledger : Ledger s) (taken : step s action = some t) :
    Justified s action t ↔ Accounted s action t := by
  constructor
  · intro justified reports
    obtain ⟨exit,same⟩ := reports_failed taken reports
    exact (exit_exact ledger reports.1 exit).mp (same.mp (justified reports))
  · intro accounted reports
    obtain ⟨exit,same⟩ := reports_failed taken reports
    exact same.mpr ((exit_exact ledger reports.1 exit).mpr (accounted reports))

theorem failure_reported (tables : Nat → SocketIpinfo) (actions : List Action) (s : State) :
    Along step Justified (initial tables) actions s ↔ Along step Accounted (initial tables) actions s := by
  constructor
  · intro along
    exact along.imp (fun _ _ _ ledger taken _ => step_ledger ledger taken)
      (fun _ _ _ ledger taken => (justified_exact ledger taken).mp) (initial_ledger tables)
  · intro along
    exact along.imp (fun _ _ _ ledger taken _ => step_ledger ledger taken)
      (fun _ _ _ ledger taken => (justified_exact ledger taken).mpr) (initial_ledger tables)

def refused (i : Nat) : List CallAction :=
  argumentsRead i ++ [.worker i (.socket false),.worker i .go,.worker i .go,.worker i .go]

def firstCall : List CallAction := started ++ refused 0 ++ refused 1 ++ refused 2

-- The first call fails; the second one creates its threads and polls twice.
def twoCalls : List Action :=
  (.call ⟨0,0,3000⟩ :: (firstCall ++ [advance,advance]).map .during) ++
    (.call ⟨1,1,3000⟩ :: (started ++ [advance]).map .during) ++ [.during advance]

-- It returns -1 although none of its threads has read its arguments.
theorem stale_failures_reported : ∃ s, Sequence step (initial blank) twoCalls s ∧ s.caller = .returned (-1) ∧
    (∃ w ∈ s.workers, w.call = s.call) ∧ (∀ w ∈ s.workers, w.call = s.call → w.pc = .reading .unread) ∧
    ¬ Along step Justified (initial blank) twoCalls s := by
  obtain ⟨s,path⟩ := run_reaches (show (run step (initial blank) twoCalls).isSome by decide)
  have returned := path.tested (fun s => decide (s.caller = .returned (-1))) (by decide)
  have own := path.tested (fun s => decide (∃ w ∈ s.workers, w.call = s.call)) (by decide)
  have reading := path.tested
    (fun s => decide (∀ w ∈ s.workers, w.call = s.call → w.pc = .reading .unread)) (by decide)
  simp only [decide_eq_true_eq] at returned own reading
  refine ⟨s,path,returned,own,reading,?_⟩
  intro along
  obtain ⟨m,before,_,justified⟩ := along.last
  have place := before.tested (fun m => decide (m.caller = .pollFail)) (by decide)
  obtain ⟨w,member,same⟩ := own
  have lost := justified ⟨of_decide_eq_true place,returned⟩ w member same
  rw [reading w member same] at lost
  cases lost

end PersonalJournal.FailureReport
