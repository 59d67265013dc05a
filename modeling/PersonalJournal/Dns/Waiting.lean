import PersonalJournal.Dns.FailureReport

namespace PersonalJournal.Waiting
open Answer Transition Resolver FailureReport

-- In the loop of th_gethostbyname, before one of its two polls.
def InLoop (s : State) : Prop := s.caller = .pollSize ∨ s.caller = .pollFail

def AllEnded (s : State) : Prop := ∀ w ∈ s.workers, w.call = s.call → w.pc = .ended (-1)

def ExitTest (s : State) : Prop := 0 < s.table.size ∨ s.dnsquery_failcount = s.DNS64SERVERNUM

-- Left alone, the caller gets out of the loop.
def Leaves (s : State) : Prop := ∃ n t ret, Sequence callStep s (List.replicate n advance) t ∧ t.caller = .returned ret

def LoopEnds (_ : State) (_ : Action) (s : State) : Prop := InLoop s → AllEnded s → ExitTest s ∧ Leaves s

-- Earlier calls have left no failure behind and had all their threads, unless there is an address anyhow.
def Unspoilt (_ : State) (_ : Action) (s : State) : Prop :=
  InLoop s → AllEnded s → 0 < s.table.size ∨ staleFailures s = 0 ∧ missingThreads s = 0

-- No call has more than the three threads that are due to it.
def AtMostThree (s : State) : Prop :=
  s.call = 0 ∧ s.caller.outside = true ∧ s.workers = [] ∨
    1 ≤ s.call ∧ (current s).length+remaining s.caller ≤ 3 ∧ (earlier s).length ≤ 3*(s.call-1)

theorem current_count (s : State) : (current s).length = s.workers.countP (fun w => w.call = s.call) :=
  List.countP_eq_length_filter.symm

theorem earlier_count (s : State) : (earlier s).length = s.workers.countP (fun w => !decide (w.call = s.call)) :=
  List.countP_eq_length_filter.symm

theorem replaced_count {l : List Worker} (found : l[i]? = some w) (same : v.call = w.call) (p : Nat → Bool) :
    (l.set i v).countP (p ·.call) = l.countP (p ·.call) := by
  have replaced := countP_replace (p ·.call) found v
  rw [same] at replaced
  omega

-- The caller goes on with the same threads, and has no more to create than before.
theorem three_onward {s t : State} (call : t.call = s.call) (workers : t.workers = s.workers)
    (less : remaining t.caller ≤ remaining s.caller)
    (three : 1 ≤ s.call ∧ (current s).length+remaining s.caller ≤ 3 ∧ (earlier s).length ≤ 3*(s.call-1)) :
    1 ≤ t.call ∧ (current t).length+remaining t.caller ≤ 3 ∧ (earlier t).length ≤ 3*(t.call-1) := by
  rw [current_count,earlier_count,call,workers,← current_count,← earlier_count]
  omega

theorem caller_three (advances : Advances s t)
    (three : 1 ≤ s.call ∧ (current s).length+remaining s.caller ≤ 3 ∧ (earlier s).length ≤ 3*(s.call-1)) :
    1 ≤ t.call ∧ (current t).length+remaining t.caller ≤ 3 ∧ (earlier t).length ≤ 3*(t.call-1) := by
  cases advances with
  | @created k place =>
      obtain ⟨begun,now,before⟩ := three
      have after := remaining_after k
      have due : remaining s.caller = serverRemaining k := by rw [place]; rfl
      have one : (current {s with workers := s.workers ++ [⟨s.call,k,.empty,.reading .unread⟩],caller := k.after}).length =
          (current s).length+1 := by simp [current]
      have same : (earlier {s with workers := s.workers ++ [⟨s.call,k,.empty,.reading .unread⟩],caller := k.after}).length =
          (earlier s).length := by simp [earlier]
      rw [one,same]
      exact ⟨begun,by simp only; omega,before⟩
  | @uncreated k place =>
      have after := remaining_after k
      have due : remaining s.caller = serverRemaining k := by rw [place]; rfl
      exact three_onward (s:=s) rfl rfl (by simp only; omega) three
  | initMutex place => exact three_onward (s:=s) rfl rfl (by rw [place]; exact Nat.le_refl 3) three
  | initMutex1 place => exact three_onward (s:=s) rfl rfl (by rw [place]; exact Nat.le_refl 3) three
  | fill place => exact three_onward (s:=s) rfl rfl (by rw [place]; exact Nat.le_refl 3) three
  | assign place => exact three_onward (s:=s) rfl rfl (by rw [place]; exact Nat.le_refl _) three
  | found => exact three_onward (s:=s) rfl rfl (Nat.zero_le _) three
  | missed => exact three_onward (s:=s) rfl rfl (Nat.zero_le _) three
  | failed => exact three_onward (s:=s) rfl rfl (Nat.zero_le _) three
  | waits => exact three_onward (s:=s) rfl rfl (Nat.zero_le _) three

theorem outside_waits (outside : s.caller.outside = true) : ¬ Advances s t := by
  intro advances
  cases advances <;> rename_i place <;> simp_all [Caller.outside]

theorem callStep_three (three : AtMostThree s) (taken : callStep s action = some t) : AtMostThree t := by
  cases action with
  | worker i event =>
      obtain ⟨w,shared,v,found,moves,rfl⟩ := callStep_worker taken
      obtain ⟨call,_,call',_,_⟩ := moves.same
      rcases three with ⟨_,_,none⟩ | ⟨begun,now,before⟩
      · rw [none] at found
        cases found
      · right
        rw [current_count] at now
        rw [earlier_count] at before
        rw [current_count,earlier_count]
        simp only [call']
        rw [replaced_count found call (fun n => decide (n = s.call)),replaced_count found call (fun n => !decide (n = s.call))]
        exact ⟨begun,now,before⟩
  | caller created =>
      have advances := callerStep_advances taken
      rcases three with ⟨_,outside,_⟩ | begun
      · exact absurd advances (outside_waits outside)
      · exact .inr (caller_three advances begun)

theorem step_three (three : AtMostThree s) (numbered : Numbered s) (taken : step s action = some t) : AtMostThree t := by
  rcases step_cases taken with ⟨args,rfl,outside,rfl⟩ | ⟨ipinfo,content,rfl,_,rfl⟩ | ⟨inner,rfl,taken⟩
  · right
    have older : ∀ w ∈ s.workers, w.call ≠ s.call+1 := fun w member same => by
      have := numbered w member
      omega
    have none : current (enter s args) = [] := List.filter_eq_nil_iff.mpr (fun w member => by simp [enter,older w member])
    have all : earlier (enter s args) = s.workers :=
      List.filter_eq_self.mpr (fun w member => by simp [enter,older w member])
    have total := current_length s
    rw [none,all]
    refine ⟨Nat.succ_pos _,by simp [enter,remaining],?_⟩
    simp only [enter]
    rcases three with ⟨_,_,empty⟩ | ⟨begun,now,before⟩
    · simp [empty]
    · omega
  · exact three
  · exact callStep_three three taken

structure Kept (s : State) : Prop where
  ledger : Ledger s
  numbered : Numbered s
  three : AtMostThree s

theorem initial_kept (tables : Nat → SocketIpinfo) : Kept (initial tables) :=
  ⟨initial_ledger tables,fun _ member => absurd member List.not_mem_nil,.inl ⟨rfl,rfl,rfl⟩⟩

theorem step_kept (kept : Kept s) (taken : step s action = some t) : Kept t :=
  ⟨step_ledger kept.ledger taken,step_numbered kept.numbered taken,step_three kept.three kept.numbered taken⟩

-- Both counters are known once the threads of the call have all failed.
theorem test_exact (kept : Kept s) (waiting : InLoop s) (ended : AllEnded s) :
    ExitTest s ↔ 0 < s.table.size ∨ staleFailures s = 0 ∧ missingThreads s = 0 := by
  obtain ⟨⟨failures,threads⟩,_,three⟩ := kept
  have all := current_earlier s (counted ·.pc)
  have size := current_length s
  have whole : (current s).countP (counted ·.pc) = (current s).length := by
    refine List.countP_eq_length.mpr (fun w member => ?_)
    obtain ⟨inside,own⟩ := List.mem_filter.mp member
    simp [ended w inside (of_decide_eq_true own),counted]
  have none : remaining s.caller = 0 := by rcases waiting with place | place <;> rw [place] <;> rfl
  rcases three with ⟨_,outside,_⟩ | ⟨begun,_,before⟩
  · rcases waiting with place | place <;> rw [place] at outside <;> cases outside
  · unfold ExitTest missingThreads staleFailures
    omega

theorem test_leaves (waiting : InLoop s) (test : ExitTest s) : Leaves s := by
  have found : ∀ {u : State}, u.caller = .pollSize → 0 < u.table.size →
      callStep u advance = some {u with freed := true,caller := .returned 0} := by
    intro u place full
    simp only [advance,callStep,callerStep,place,if_pos full]
  have failed : ∀ {u : State}, u.caller = .pollFail → u.dnsquery_failcount = u.DNS64SERVERNUM →
      callStep u advance = some {u with freed := true,caller := .returned (-1)} := by
    intro u place equal
    simp only [advance,callStep,callerStep,place,if_pos equal]
  rcases waiting with place | place
  · by_cases full : 0 < s.table.size
    · exact ⟨1,_,0,.single (found place full),rfl⟩
    · have equal := test.resolve_left full
      have first : callStep s advance = some {s with caller := .pollFail} := by
        simp only [advance,callStep,callerStep,place,if_neg full]
      exact ⟨2,_,-1,.cons first (.single (failed rfl equal)),rfl⟩
  · by_cases equal : s.dnsquery_failcount = s.DNS64SERVERNUM
    · exact ⟨1,_,-1,.single (failed place equal),rfl⟩
    · have full := test.resolve_right equal
      have first : callStep s advance = some {s with caller := .pollSize} := by
        simp only [advance,callStep,callerStep,place,if_neg equal]
      exact ⟨2,_,0,.cons first (.single (found rfl full)),rfl⟩

theorem loop_exact (kept : Kept t) : LoopEnds s action t ↔ Unspoilt s action t := by
  constructor
  · intro ends waiting ended
    exact (test_exact kept waiting ended).mp (ends waiting ended).1
  · intro unspoilt waiting ended
    have test := (test_exact kept waiting ended).mpr (unspoilt waiting ended)
    exact ⟨test,test_leaves waiting test⟩

theorem loop_ends (tables : Nat → SocketIpinfo) (actions : List Action) (s : State) :
    Along step LoopEnds (initial tables) actions s ↔ Along step Unspoilt (initial tables) actions s := by
  constructor
  · intro along
    exact along.imp (fun _ _ _ kept taken _ => step_kept kept taken)
      (fun _ _ _ kept taken => (loop_exact (step_kept kept taken)).mp) (initial_kept tables)
  · intro along
    exact along.imp (fun _ _ _ kept taken _ => step_kept kept taken)
      (fun _ _ _ kept taken => (loop_exact (step_kept kept taken)).mpr) (initial_kept tables)

-- The first call fails and returns. The threads of the second one fail before its first poll.
def spinningCalls : List Action :=
  (.call ⟨0,0,3000⟩ :: (firstCall ++ [advance,advance]).map .during) ++
    (.call ⟨1,1,3000⟩ :: (started ++ refused 3 ++ refused 4).map .during) ++ (refused 5).map .during

-- Six failures are never three.
theorem overshot_failcount : ∃ s, Sequence step (initial blank) spinningCalls s ∧ s.caller = .pollSize ∧
    s.dnsquery_failcount = 6 ∧ s.DNS64SERVERNUM = 3 ∧ s.table.size = 0 ∧ (∃ w ∈ s.workers, w.call = s.call) ∧
    AllEnded s ∧ ¬ Along step LoopEnds (initial blank) spinningCalls s := by
  obtain ⟨s,path⟩ := run_reaches (show (run step (initial blank) spinningCalls).isSome by decide)
  have place := path.tested (fun s => decide (s.caller = .pollSize)) (by decide)
  have counters := path.tested (fun s => decide (s.dnsquery_failcount = 6 ∧ s.DNS64SERVERNUM = 3 ∧ s.table.size = 0)) (by decide)
  have own := path.tested (fun s => decide (∃ w ∈ s.workers, w.call = s.call)) (by decide)
  have ended := path.tested (fun s => decide (∀ w ∈ s.workers, w.call = s.call → w.pc = .ended (-1))) (by decide)
  simp only [decide_eq_true_eq] at place counters own ended
  obtain ⟨failures,threads,empty⟩ := counters
  refine ⟨s,path,place,failures,threads,empty,own,ended,?_⟩
  intro along
  have split : spinningCalls = spinningCalls.dropLast ++ [.during (.worker 5 .go)] := rfl
  rw [split] at along
  obtain ⟨m,_,_,ends⟩ := along.last
  obtain ⟨test,_⟩ := ends (.inl place) ended
  unfold ExitTest at test
  omega

end PersonalJournal.Waiting
