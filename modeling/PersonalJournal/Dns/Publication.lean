import PersonalJournal.Lib.Ownership
import PersonalJournal.Dns.Resolver

namespace PersonalJournal.Publication
open Bytes Query Nat64 Answer Transition Resolver Ownership

variable {i k : Nat} {w v : Worker}

-- Behind pthread_mutex_lock(&dnsquery_mutex). A thread that succeeds ends there.
def inside : Pc → Bool
  | .collecting _ _ => true
  | .stored _ _ => true
  | .unlocking => true
  | .ended ret => ret = 0
  | _ => false

def Holds (call : Nat) (w : Worker) : Prop := w.call = call ∧ inside w.pc = true

theorem outside_holds (out : inside w.pc = false) : ¬ Holds call w := by
  intro held
  have within := held.2
  rw [out] at within
  cases within

def Filled (t : SocketIpinfo) (l : List In6Addr) : Prop := t.size = l.length ∧ t.stored = l

-- What the table holds while the thread is behind the lock. Its own pointer may
-- have come from a freed record and name another table, which stays empty then.
def Progress (t : SocketIpinfo) (ipinfo : Nat) (w : Worker) : Prop :=
  match w.pc with
  | .collecting i rest =>
      if i = ipinfo then ∃ done, done ++ rest = w.reply.answers ∧ Filled t (done.filterMap id) else t.size = 0
  | .stored i rest =>
      if i = ipinfo then
        ∃ done a, done ++ some a :: rest = w.reply.answers ∧ Filled t.bump (done.filterMap id ++ [a])
      else t.size = 0
  | .ended _ => t.size = 0 ∨ Filled t w.reply.addresses
  | _ => t.size = 0

-- The lock discipline of one call. The mutex is set up again only before the
-- call has threads of its own.
structure Guarded (s : State) (owner : Option Nat) : Prop where
  earlier : ∀ w ∈ s.workers, w.call ≠ s.call → ∃ ret, w.pc = .ended ret
  owns : Owner (Holds s.call) s.workers owner
  unstarted : s.caller = .initMutex → ∀ w ∈ s.workers, w.call ≠ s.call
  locked : ∀ i, owner = some i → s.dnsquery_mutex = true
  free : owner = none → s.table.size = 0
  busy : ∀ i w, owner = some i → s.workers[i]? = some w → Progress s.table s.args.ipinfo w

theorem entered_guarded (entered : Entered s) : Guarded s none where
  earlier := fun w member _ => (entered.earlier w member).2
  owns := ⟨fun i w found => iff_of_false (fun held => (entered.earlier w (List.mem_of_getElem? found)).1 held.1)
    (fun is => by cases is),fun i is => by cases is⟩
  unstarted := fun _ w member => (entered.earlier w member).1
  locked := fun i is => by cases is
  free := fun _ => entered.empty
  busy := fun i w is => by cases is

theorem Filled.start (empty : t.size = 0) : Filled t [] := ⟨by simpa using empty,by simp [SocketIpinfo.stored,empty]⟩

theorem Filled.store (filled : Filled t l) (kept : t.store a = some stored) : Filled stored.bump (l ++ [a]) := by
  obtain ⟨size,list⟩ := filled
  obtain ⟨same,pushed⟩ := store_stored kept
  refine ⟨?_,by rw [pushed,list]⟩
  simp only [SocketIpinfo.bump,same,size,List.length_append,List.length_singleton]
  push_cast
  rfl

-- Before the size is raised, the table still holds the addresses before the last.
theorem Filled.unbump (filled : Filled t.bump (l ++ [a])) : Filled t l := by
  obtain ⟨size,list⟩ := filled
  have size' : t.size = l.length := by
    simp only [SocketIpinfo.bump,List.length_append,List.length_singleton] at size
    push_cast at size
    omega
  refine ⟨size',?_⟩
  have front := congrArg (List.take l.length) list
  have enough : min l.length ((l.length : Int)+1).toNat = l.length := by omega
  simp only [SocketIpinfo.bump,SocketIpinfo.stored,size',List.take_left,List.take_take,enough] at front
  rw [SocketIpinfo.stored,size',Int.toNat_natCast]
  exact front

theorem Filled.bounds (filled : Filled t l) (short : l.length ≤ socketMaxIpCount) :
    0 ≤ t.size ∧ t.size ≤ socketMaxIpCount := by
  rw [filled.1]
  omega

-- The table is always filled with addresses that the thread's reply starts with.
theorem progress_filled (progress : Progress t ipinfo w) :
    ∃ l, Filled t l ∧ l <+: w.reply.addresses := by
  unfold Progress at progress
  split at progress
  · split at progress
    · obtain ⟨done,answers,filled⟩ := progress
      refine ⟨_,filled,?_⟩
      rw [Reply.addresses,← answers,List.filterMap_append]
      exact List.prefix_append _ _
    · exact ⟨[],.start progress,List.nil_prefix⟩
  · split at progress
    · obtain ⟨done,a,answers,filled⟩ := progress
      refine ⟨_,filled.unbump,?_⟩
      rw [Reply.addresses,← answers,List.filterMap_append]
      exact List.prefix_append _ _
    · exact ⟨[],.start progress,List.nil_prefix⟩
  · rcases progress with empty | filled
    · exact ⟨[],.start empty,List.nil_prefix⟩
    · exact ⟨_,filled,List.prefix_refl _⟩
  · exact ⟨[],.start progress,List.nil_prefix⟩

theorem addresses_short (r : Reply) : r.addresses.length ≤ socketMaxIpCount :=
  Nat.le_trans (List.length_filterMap_le _ _) r.short

theorem moves_lock (moves : Moves s w event t v) :
    (inside w.pc = false ∧ inside v.pc = false ∧ t.tables = s.tables ∧ t.dnsquery_mutex = s.dnsquery_mutex) ∨
    (s.dnsquery_mutex = false ∧ t = {s with dnsquery_mutex := true} ∧
      ∃ ipinfo, v = {w with pc := .collecting ipinfo w.reply.answers}) ∨
    (inside w.pc = true ∧ inside v.pc = true ∧ t.dnsquery_mutex = s.dnsquery_mutex) ∨
    (w.pc = .unlocking ∧ inside v.pc = false ∧ t.tables = s.tables) := by
  cases moves with
  | locked place free => exact .inr (.inl ⟨free,rfl,_,rfl⟩)
  | store place => exact .inr (.inr (.inl ⟨by simp [place,inside],rfl,rfl⟩))
  | bump place => exact .inr (.inr (.inl ⟨by simp [place,inside],rfl,rfl⟩))
  | skip place => exact .inr (.inr (.inl ⟨by simp [place,inside],rfl,rfl⟩))
  | empty place => exact .inr (.inr (.inl ⟨by simp [place,inside],rfl,rfl⟩))
  | found place => exact .inr (.inr (.inl ⟨by simp [place,inside],rfl,rfl⟩))
  | unlocked place => exact .inr (.inr (.inr ⟨place,rfl,rfl⟩))
  | _ => exact .inl (by simp [inside, *])

theorem progress_step (moves : Moves s w event t v) (before : inside w.pc = true)
    (after : inside v.pc = true)
    (progress : Progress (s.tables ipinfo) ipinfo w) : Progress (t.tables ipinfo) ipinfo v := by
  unfold Progress at progress ⊢
  cases moves with
  | @store i a rest table place kept =>
      simp only [place] at progress ⊢
      by_cases mine : i = ipinfo
      · subst mine
        rw [if_pos rfl] at progress ⊢
        obtain ⟨done,answers,filled⟩ := progress
        exact ⟨done,a,answers,by simpa [Shared.put] using filled.store kept⟩
      · rw [if_neg mine] at progress ⊢
        simpa [Shared.put,Function.update_of_ne (Ne.symm mine)] using progress
  | @bump i rest place =>
      simp only [place] at progress ⊢
      by_cases mine : i = ipinfo
      · subst mine
        rw [if_pos rfl] at progress ⊢
        obtain ⟨done,a,answers,filled⟩ := progress
        exact ⟨done ++ [some a],by simpa using answers,by simpa [Shared.put] using filled⟩
      · rw [if_neg mine] at progress ⊢
        simpa [Shared.put,Function.update_of_ne (Ne.symm mine)] using progress
  | @skip i rest place =>
      simp only [place] at progress ⊢
      by_cases mine : i = ipinfo
      · rw [if_pos mine] at progress ⊢
        obtain ⟨done,answers,filled⟩ := progress
        exact ⟨done ++ [none],by simpa using answers,by simpa using filled⟩
      · rw [if_neg mine] at progress ⊢
        exact progress
  | @empty i place none' =>
      simp only [place] at progress ⊢
      by_cases mine : i = ipinfo
      · subst mine
        rw [if_pos rfl] at progress
        obtain ⟨done,_,filled⟩ := progress
        have size := filled.1
        omega
      · rw [if_neg mine] at progress
        exact progress
  | @found i place some' =>
      simp only [place] at progress ⊢
      by_cases mine : i = ipinfo
      · rw [if_pos mine] at progress
        obtain ⟨done,answers,filled⟩ := progress
        rw [List.append_nil] at answers
        exact .inr (by rwa [Reply.addresses,← answers])
      · rw [if_neg mine] at progress
        exact .inl progress
  | locked place => simp [place,inside] at before
  | unlocked place => simp [inside] at after
  | _ => simp [inside, *] at before

theorem Guarded.absent (guarded : Guarded s owner) (place : s.caller = .initMutex) (i : Nat) : owner ≠ some i := by
  intro is
  have found := List.getElem?_eq_getElem (guarded.owns.inside i is)
  have held := (guarded.owns.only i _ found).mpr is
  exact guarded.unstarted place _ (List.getElem_mem _) held.1

theorem caller_guarded (guarded : Guarded s owner) (advances : Advances s t) : Guarded t owner := by
  have absent := guarded.absent
  obtain ⟨earlier,owns,unstarted,locked,free,busy⟩ := guarded
  cases advances with
  | initMutex place =>
      exact ⟨earlier,owns,fun next => by simp at next,fun i is => absurd is (absent place i),free,busy⟩
  | @created k place =>
      refine ⟨EarlierEnded.created earlier k,owns.join (fun held => by cases held.2),fun next => ?_,locked,free,?_⟩
      · cases k <;> cases next
      · intro i w is found
        rw [List.getElem?_append_left (owns.inside i is)] at found
        exact busy i w is found
  | @uncreated k place => exact ⟨earlier,owns,fun next => (by cases k <;> cases next),locked,free,busy⟩
  | initMutex1 place | fill place | assign place | found place | missed place | failed place | waits place =>
      exact ⟨earlier,owns,fun next => by simp at next,locked,free,busy⟩

theorem worker_guarded (guarded : Guarded s owner) (found : s.workers[i]? = some w)
    (moves : Moves s.toShared w event shared v) :
    ∃ owner, Guarded {s with toShared := shared,workers := s.workers.set i v} owner := by
  obtain ⟨call,_,call',_,_⟩ := moves.same
  have member := List.mem_of_getElem? found
  have live := EarlierEnded.live guarded.earlier found moves
  have unstarted : s.caller ≠ .initMutex := fun start => guarded.unstarted start w member live
  have near := (List.getElem?_eq_some_iff.mp found).1
  obtain ⟨earlier,owns,_,locked,free,busy⟩ := guarded
  have earlier' := EarlierEnded.moved earlier found moves
  have unstarted' : s.caller = .initMutex → ∀ u ∈ s.workers.set i v, u.call ≠ shared.call :=
    fun start => absurd start unstarted
  have self : ∀ {u}, (s.workers.set i v)[i]? = some u → u = v := by
    intro u there
    rw [List.getElem?_set_self near] at there
    exact (Option.some.inj there).symm
  rcases moves_lock moves with ⟨out,still,tables,mutex⟩ | ⟨unlocked,rfl,ipinfo,rfl⟩ | ⟨before,after,mutex⟩ |
      ⟨place,after,tables⟩
  · have other : ∀ j, owner = some j → i ≠ j := by
      rintro j is rfl
      exact outside_holds out ((owns.only i w found).mpr is)
    refine ⟨owner,earlier',?_,unstarted',fun j is => mutex.trans (locked j is),?_,?_⟩
    · rw [call']
      exact owns.keep found (iff_of_false (outside_holds still) (outside_holds out))
    · intro is
      simpa only [State.table,tables] using free is
    · intro j u is there
      rw [List.getElem?_set_ne (other j is)] at there
      simpa only [State.table,tables] using busy j u is there
  · have none' : owner = none := by
      cases owner with
      | none => rfl
      | some j =>
          have taken := locked j rfl
          rw [unlocked] at taken
          cases taken
    subst none'
    refine ⟨some i,earlier',owns.acquire found ⟨live,rfl⟩,unstarted',fun _ _ => rfl,fun is => (by cases is),?_⟩
    intro j u is there
    cases is
    rw [self there]
    simp only [Progress]
    split
    · exact ⟨[],rfl,.start (free rfl)⟩
    · exact free rfl
  · have is := (owns.only i w found).mp ⟨live,before⟩
    refine ⟨owner,earlier',?_,unstarted',fun j is => mutex.trans (locked j is),fun none' => ?_,?_⟩
    · rw [call']
      exact owns.keep found (iff_of_true ⟨call.trans live,after⟩ ⟨live,before⟩)
    · cases is.symm.trans none'
    · intro j u is' there
      cases is.symm.trans is'
      rw [self there]
      exact progress_step moves before after (busy i w is found)
  · have is := (owns.only i w found).mp ⟨live,by rw [place]; rfl⟩
    subst is
    refine ⟨none,earlier',?_,unstarted',fun j is => (by cases is),fun _ => ?_,fun j u is => (by cases is)⟩
    · rw [call']
      exact owns.release (outside_holds after)
    · have progress := busy i w rfl found
      simp only [Progress,place] at progress
      simpa only [State.table,tables] using progress

theorem callStep_guarded (guarded : ∃ owner, Guarded s owner) (taken : callStep s action = some t) :
    ∃ owner, Guarded t owner := by
  obtain ⟨owner,guarded⟩ := guarded
  cases action with
  | caller created => exact ⟨owner,caller_guarded guarded (callerStep_advances taken)⟩
  | worker i event =>
      obtain ⟨w,shared,v,found,moves,rfl⟩ := callStep_worker taken
      exact worker_guarded guarded found moves

theorem reached_guarded (entered : Entered start) (path : Sequence callStep start actions s) :
    ∃ owner, Guarded s owner :=
  path.preserves (I:=fun s => ∃ owner, Guarded s owner) (fun _ _ _ => callStep_guarded) ⟨none,entered_guarded entered⟩

def appends (ipinfo : Nat) : Pc → Bool
  | .collecting i (some _ :: _) => i = ipinfo
  | .stored i _ => i = ipinfo
  | _ => false

def AppendsOnly (k : Nat) (s : State) (action : CallAction) (_ : State) : Prop :=
  ∀ i event w, action = .worker i event → s.workers[i]? = some w → appends s.args.ipinfo w.pc = true → i = k

structure Safe (s : State) : Prop where
  bounds : 0 ≤ s.table.size ∧ s.table.size ≤ socketMaxIpCount
  unmixed : s.table.stored = [] ∨ ∃ w ∈ s.workers, w.call = s.call ∧ s.table.stored <+: w.reply.addresses
  room : ∀ w ∈ s.workers, ∀ a rest, w.pc = .collecting s.args.ipinfo (some a :: rest) → (s.table.store a).isSome

theorem appends_inside (append : appends ipinfo pc = true) : inside pc = true := by
  unfold appends at append
  split at append
  · rfl
  · rfl
  · cases append

theorem Guarded.filled (guarded : Guarded s owner) : Filled s.table [] ∨ ∃ i w, owner = some i ∧
    s.workers[i]? = some w ∧ w.call = s.call ∧ ∃ l, Filled s.table l ∧ l <+: w.reply.addresses := by
  cases owner with
  | none => exact .inl (.start (guarded.free rfl))
  | some i =>
      have found := List.getElem?_eq_getElem (guarded.owns.inside i rfl)
      exact .inr ⟨i,_,rfl,found,((guarded.owns.only i _ found).mpr rfl).1,progress_filled (guarded.busy i _ rfl found)⟩

theorem guarded_safe (guarded : Guarded s owner) : Safe s := by
  refine ⟨?_,?_,?_⟩
  · rcases guarded.filled with filled | ⟨i,w,_,_,_,l,filled,front⟩
    · exact filled.bounds (Nat.zero_le _)
    · exact filled.bounds (Nat.le_trans front.length_le (addresses_short w.reply))
  · rcases guarded.filled with filled | ⟨i,w,_,found,same,l,filled,front⟩
    · exact .inl filled.2
    · exact .inr ⟨w,List.mem_of_getElem? found,same,by rwa [filled.2]⟩
  · intro w member a rest place
    obtain ⟨i,found⟩ := List.getElem?_of_mem member
    have live := EarlierEnded.running guarded.earlier member (by simp [place])
    have is := (guarded.owns.only i w found).mp ⟨live,by rw [place]; rfl⟩
    have progress := guarded.busy i w is found
    simp only [Progress,place,if_true] at progress
    obtain ⟨done,answers,size,_⟩ := progress
    have before := List.length_filterMap_le id done
    have whole := congrArg List.length answers
    have short := w.reply.short
    simp only [List.length_append,List.length_cons] at whole
    have kept := store_room s.table a (by omega) (by omega)
    rw [kept]
    rfl

-- Thread k has begun to fill the table: nobody else ever will.
def Claimed (k : Nat) (s : State) : Prop :=
  ∃ w, s.workers[k]? = some w ∧ Holds s.call w ∧ (0 < s.table.size ∨ ∃ rest, w.pc = .stored s.args.ipinfo rest)

theorem append_claims (guarded : Guarded s owner) (found : s.workers[i]? = some w)
    (moves : Moves s.toShared w event shared v) (append : appends s.args.ipinfo w.pc = true) :
    Claimed i {s with toShared := shared,workers := s.workers.set i v} := by
  obtain ⟨call,_,call',_,_⟩ := moves.same
  have near := (List.getElem?_eq_some_iff.mp found).1
  have live := EarlierEnded.live guarded.earlier found moves
  have low := (guarded_safe guarded).bounds.1
  refine ⟨v,List.getElem?_set_self near,⟨call.trans (live.trans call'.symm),?_⟩,?_⟩
  · cases moves <;> simp_all [appends,inside]
  · cases moves with
    | @store j a rest t place kept =>
        obtain rfl : j = s.args.ipinfo := by simpa [appends,place] using append
        exact .inr ⟨rest,rfl⟩
    | @bump j rest place =>
        obtain rfl : j = s.args.ipinfo := by simpa [appends,place] using append
        refine .inl ?_
        simp only [State.table] at low
        simp only [State.table,Shared.put,Function.update_self,SocketIpinfo.bump]
        omega
    | _ => simp_all [appends]

-- A thread that has raised the size stays behind the lock, and the steps it takes
-- between two appends leave the table as it is.
theorem claimed_quiet (moves : Moves s w event t v) (before : inside w.pc = true)
    (quiet : ¬ appends ipinfo w.pc = true) (progress : Progress (s.tables ipinfo) ipinfo w)
    (size : 0 < (s.tables ipinfo).size) : inside v.pc = true ∧ t.tables ipinfo = s.tables ipinfo := by
  unfold Progress at progress
  cases moves with
  | @store j a rest table place kept =>
      have other : j ≠ ipinfo := by simpa [place,appends] using quiet
      exact ⟨rfl,by simp [Shared.put,Function.update_of_ne (Ne.symm other)]⟩
  | @bump j rest place =>
      have other : j ≠ ipinfo := by simpa [place,appends] using quiet
      exact ⟨rfl,by simp [Shared.put,Function.update_of_ne (Ne.symm other)]⟩
  | skip place => exact ⟨rfl,rfl⟩
  | empty place none' => exact ⟨rfl,rfl⟩
  | found place some' => exact ⟨rfl,rfl⟩
  | unlocked place =>
      simp only [place] at progress
      omega
  | _ => simp [inside, *] at before

theorem moves_outside (guarded : Guarded s owner) (found : s.workers[i]? = some w)
    (moves : Moves s.toShared w event shared v) (other : owner ≠ some i) : shared.tables = s.tables := by
  rcases moves_lock moves with ⟨_,_,tables,_⟩ | ⟨_,rfl,_⟩ | ⟨before,_,_⟩ | ⟨place,_,tables⟩
  · exact tables
  · rfl
  · have live := EarlierEnded.live guarded.earlier found moves
    exact absurd ((guarded.owns.only i w found).mp ⟨live,before⟩) other
  · exact tables

theorem claimed_step (guarded : Guarded s owner) (claimed : Claimed k s) (taken : callStep s action = some t) :
    Claimed k t := by
  obtain ⟨u,there,held,begun⟩ := claimed
  have is := (guarded.owns.only k u there).mp held
  cases action with
  | caller created =>
      cases callerStep_advances taken with
      | created place =>
          refine ⟨u,?_,held,begun⟩
          rw [List.getElem?_append_left (guarded.owns.inside k is)]
          exact there
      | _ => exact ⟨u,there,held,begun⟩
  | worker i event =>
      obtain ⟨w,shared,v,found,moves,rfl⟩ := callStep_worker taken
      obtain ⟨call,_,call',_,_⟩ := moves.same
      by_cases mine : i = k
      · subst mine
        cases found.symm.trans there
        by_cases append : appends s.args.ipinfo u.pc = true
        · exact append_claims guarded found moves append
        · have near := (List.getElem?_eq_some_iff.mp found).1
          have size : 0 < s.table.size := by
            rcases begun with size | ⟨rest,place⟩
            · exact size
            · simp [place,appends] at append
          obtain ⟨after,same⟩ := claimed_quiet moves held.2 append (guarded.busy i u is found) size
          exact ⟨v,List.getElem?_set_self near,⟨call.trans (held.1.trans call'.symm),after⟩,
            .inl (by rw [State.table,same]; exact size)⟩
      · refine ⟨u,by rw [List.getElem?_set_ne mine]; exact there,call' ▸ held,?_⟩
        have same := moves_outside guarded found moves (fun here => mine (Option.some.inj (here.symm.trans is)))
        simp only [State.table,same]
        exact begun

def GuardedClaimed (k : Nat) (s : State) : Prop := (∃ owner, Guarded s owner) ∧ Claimed k s

theorem guardedClaimed_step (claimed : GuardedClaimed k s) (taken : callStep s action = some t) : GuardedClaimed k t := by
  obtain ⟨⟨owner,guarded⟩,claimed⟩ := claimed
  exact ⟨callStep_guarded ⟨owner,guarded⟩ taken,claimed_step guarded claimed taken⟩

theorem claimed_appends (claimed : GuardedClaimed k s) (taken : callStep s action = some t) :
    AppendsOnly k s action t := by
  obtain ⟨⟨owner,guarded⟩,u,there,held,_⟩ := claimed
  rintro i event w rfl found append
  obtain ⟨w',shared,v,found',moves,rfl⟩ := callStep_worker taken
  cases found.symm.trans found'
  have live := EarlierEnded.live guarded.earlier found moves
  exact guarded.owns.unique found there ⟨live,appends_inside append⟩ held

-- Up to the first append nobody is named; from then on it is the thread that took it.
theorem one_appender (guarded : ∃ owner, Guarded s owner) (path : Sequence callStep s actions t) :
    ∃ k, Along callStep (AppendsOnly k) s actions t := by
  induction path with
  | nil => exact ⟨0,.nil⟩
  | @cons s action middle rest next taken path ih =>
      have guarded' := callStep_guarded guarded taken
      by_cases append : ∃ i event w, action = .worker i event ∧ s.workers[i]? = some w ∧
          appends s.args.ipinfo w.pc = true
      · obtain ⟨i,event,w,rfl,found,append⟩ := append
        obtain ⟨w',shared,v,found',moves,rfl⟩ := callStep_worker taken
        cases found.symm.trans found'
        obtain ⟨owner,guarded⟩ := guarded
        refine ⟨i,.cons taken ?_ (path.along (fun _ _ _ => guardedClaimed_step) (fun _ _ _ => claimed_appends)
          ⟨guarded',append_claims guarded found moves append⟩)⟩
        intro j event' u equal there _
        cases equal
        rfl
      · obtain ⟨k,along⟩ := ih guarded'
        exact ⟨k,.cons taken (fun i event w is found by' => absurd ⟨i,event,w,is,found,by'⟩ append) along⟩

theorem table_safe (entered : Entered start) (path : Sequence callStep start actions s) :
    Safe s ∧ ∃ k, Along callStep (AppendsOnly k) start actions s := by
  obtain ⟨owner,guarded⟩ := reached_guarded entered path
  exact ⟨guarded_safe guarded,one_appender ⟨none,entered_guarded entered⟩ path⟩

def published : List CallAction := started ++ answered 0 twoAddresses ++ List.replicate 3 (.worker 0 .go)

theorem table_safe_published : ∃ s, Sequence callStep blankCall published s ∧ s.table.stored = [address1] ∧
    Safe s ∧ ∃ k, Along callStep (AppendsOnly k) blankCall published s := by
  obtain ⟨s,path⟩ := run_reaches (show (run callStep blankCall published).isSome by decide)
  have stored := path.tested (fun s => decide (s.table.stored = [address1])) (by decide)
  exact ⟨s,path,of_decide_eq_true stored,table_safe blankCall_entered path⟩

-- The answers that a thread collects, read off the buffer they were parsed from.
def parsedAnswers (buffer : List UInt8) (answers : List ResRecord) : Nat → Nat → Option (List (Option In6Addr))
  | 0,_ => some []
  | left+1,i => do
    let answer := answers[i]?.getD .zero
    let resource ← answer.resource
    let type ← read16 buffer resource
    let entry ← if type = AAAA then answer.rdata.map (some ∘ octets16) else some none
    return entry :: (← parsedAnswers buffer answers left (i+1))

-- A thread that nobody interrupts.
def alone (p : Shared × Worker) (event : Event) : Option (Shared × Worker) := workerStep p.1 p.2 event

theorem put_put (s : Shared) (ipinfo : Nat) (t u : SocketIpinfo) : (s.put ipinfo t).put ipinfo u = s.put ipinfo u := by
  simp [Shared.put]

-- Behind the lock it does to the table what the loop of the sequential function does.
theorem collect_alone (collected : collect buffer answers left i (s.tables ipinfo) = .ok full) :
    ∃ list, parsedAnswers buffer answers left i = some list ∧ list.length = left ∧
      ∀ w, w.pc = .collecting ipinfo list → ∃ events,
        Sequence alone (s,w) events (s.put ipinfo full,{w with pc := .collecting ipinfo []}) := by
  induction left generalizing i s with
  | zero =>
      cases collected
      refine ⟨[],rfl,rfl,fun w place => ⟨[],?_⟩⟩
      have same : s.put ipinfo (s.tables ipinfo) = s := by simp [Shared.put]
      have still : {w with pc := .collecting ipinfo []} = w := by rw [← place]
      rw [same,still]
      exact .nil
  | succ left ih =>
      rw [collect,collectWith] at collected
      obtain ⟨resource,there,collected⟩ := bind_ok.mp collected
      obtain ⟨type,kind,collected⟩ := bind_ok.mp collected
      rw [orFault_ok] at there kind
      split at collected
      · rename_i v6
        obtain ⟨rdata,data,collected⟩ := bind_ok.mp collected
        obtain ⟨next,added,collected⟩ := bind_ok.mp collected
        rw [orFault_ok] at data added
        obtain ⟨t,kept,rfl⟩ := Option.map_eq_some_iff.mp added
        have later : collect buffer answers left (i+1) (((s.put ipinfo t).put ipinfo t.bump).tables ipinfo) = .ok full := by
          simpa [Shared.put,collect] using collected
        obtain ⟨list,parsed,size,path⟩ := ih later
        refine ⟨some (octets16 rdata) :: list,?_,by rw [List.length_cons,size],fun w place => ?_⟩
        · simp [parsedAnswers,there,kind,v6,data,parsed]
        · obtain ⟨events,path⟩ := path {w with pc := .collecting ipinfo list} rfl
          have stores : alone (s,w) .go = some (s.put ipinfo t,{w with pc := .stored ipinfo list}) := by
            simp [alone,workerStep,place,kept]
          have bumps : alone (s.put ipinfo t,{w with pc := .stored ipinfo list}) .go =
              some ((s.put ipinfo t).put ipinfo t.bump,{w with pc := .collecting ipinfo list}) := by
            simp [alone,workerStep,Shared.put]
          rw [put_put] at bumps
          rw [put_put,put_put] at path
          exact ⟨.go :: .go :: events,.cons stores (.cons bumps path)⟩
      · rename_i other
        obtain ⟨list,parsed,size,path⟩ := ih collected
        refine ⟨none :: list,?_,by rw [List.length_cons,size],fun w place => ?_⟩
        · simp [parsedAnswers,there,kind,other,parsed]
        · obtain ⟨events,path⟩ := path {w with pc := .collecting ipinfo list} rfl
          exact ⟨.go :: events,.cons (by simp [alone,workerStep,place]) path⟩

theorem thread_sequential (collected : collect buffer answers count 0 (s.tables ipinfo) = .ok full)
    (free : s.dnsquery_mutex = false) (place : w.pc = .locking ipinfo)
    (reply : parsedAnswers buffer answers count 0 = some w.reply.answers) :
    ∃ events t v, Sequence alone (s,w) events (t,v) ∧ t.tables ipinfo = full ∧
      if full.size ≤ 0 then v.pc = .failLocking ∧ t.dnsquery_mutex = false
      else v.pc = .ended 0 ∧ t.dnsquery_mutex = true := by
  obtain ⟨list,parsed,_,path⟩ := collect_alone (s:={s with dnsquery_mutex := true}) collected
  cases reply.symm.trans parsed
  obtain ⟨events,path⟩ := path {w with pc := .collecting ipinfo w.reply.answers} rfl
  have locks : alone (s,w) .go =
      some ({s with dnsquery_mutex := true},{w with pc := .collecting ipinfo w.reply.answers}) := by
    simp [alone,workerStep,place,free]
  have whole := Sequence.cons locks path
  by_cases empty : full.size ≤ 0
  · have looks : alone (Shared.put {s with dnsquery_mutex := true} ipinfo full,{w with pc := .collecting ipinfo []}) .go =
        some (Shared.put {s with dnsquery_mutex := true} ipinfo full,{w with pc := .unlocking}) := by
      simp [alone,workerStep,Shared.put,empty]
    have unlocks : alone (Shared.put {s with dnsquery_mutex := true} ipinfo full,{w with pc := .unlocking}) .go =
        some ({Shared.put {s with dnsquery_mutex := true} ipinfo full with dnsquery_mutex := false},
          {w with pc := .failLocking}) := rfl
    refine ⟨_,_,_,whole.append (.cons looks (.single unlocks)),by simp [Shared.put],?_⟩
    rw [if_pos empty]
    exact ⟨rfl,rfl⟩
  · have looks : alone (Shared.put {s with dnsquery_mutex := true} ipinfo full,{w with pc := .collecting ipinfo []}) .go =
        some (Shared.put {s with dnsquery_mutex := true} ipinfo full,{w with pc := .ended 0}) := by
      simp [alone,workerStep,Shared.put,empty]
    refine ⟨_,_,_,whole.append (.single looks),by simp [Shared.put],?_⟩
    rw [if_neg empty]
    exact ⟨rfl,rfl⟩

end PersonalJournal.Publication
