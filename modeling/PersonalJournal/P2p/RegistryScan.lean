import PersonalJournal.P2p.Registry

namespace PersonalJournal.RegistryScan
open Registry

variable {β : Type} {src query sn : UInt64} {s : Scan β} {e : ServerDeviceInfo β} {all seen : DeviceList β}
  {io : Io} {pbev : β} {writes : List (β × Msg)}

-- The entries that the loop comes to before it ends.
def visited (src query : UInt64) : Scan β → DeviceList β → DeviceList β
  | _,[] => []
  | s,e :: rest =>
      e :: if (s.visit src query e).num = 2 then [] else visited src query (s.visit src query e) rest

-- Of these, the one that was taken for a device: the last, each match overwriting the one before.
def taken (sn : UInt64) (seen : DeviceList β) : Option (ServerDeviceInfo β) :=
  seen.reverse.find? (fun e => e.device_sn = sn)

def count (sn : UInt64) (seen : DeviceList β) : Nat := seen.countP (fun e => e.device_sn = sn)

-- The variables of the loop as what one entry for each of the two devices, or none, leaves in them.
def holding (src query : UInt64) (seen : DeviceList β) : Scan β where
  cmd := if (taken query seen).isSome then .queryDeviceInfoResponse else .unknownCmd
  query := ((taken query seen).map ServerDeviceInfo.info).getD .zero
  src := ((taken src seen).map ServerDeviceInfo.info).getD .zero
  pdst := (taken query seen).map ServerDeviceInfo.pbev
  num := count query seen+count src seen

theorem taken_mem (found : taken sn seen = some e) : e ∈ seen ∧ e.device_sn = sn := by
  refine ⟨?_,?_⟩
  · exact List.mem_reverse.mp (List.mem_of_find?_eq_some found)
  · simpa using List.find?_some found

theorem taken_none (missed : taken sn seen = none) : ∀ e ∈ seen, e.device_sn ≠ sn := by
  intro e member same
  have differ := List.find?_eq_none.mp missed e (List.mem_reverse.mpr member)
  exact differ (by simpa using same)

theorem taken_match (seen : DeviceList β) (same : e.device_sn = sn) : taken sn (seen ++ [e]) = some e := by
  rw [taken,List.reverse_append,List.reverse_singleton,List.singleton_append]
  exact List.find?_cons_of_pos (by simpa using same)

theorem taken_other (seen : DeviceList β) (differ : e.device_sn ≠ sn) : taken sn (seen ++ [e]) = taken sn seen := by
  rw [taken,List.reverse_append,List.reverse_singleton,List.singleton_append]
  exact List.find?_cons_of_neg (by simpa using differ)

theorem count_match (seen : DeviceList β) (same : e.device_sn = sn) : count sn (seen ++ [e]) = count sn seen+1 := by
  rw [count,List.countP_append,List.countP_singleton,if_pos (by simpa using same)]
  rfl

theorem count_other (seen : DeviceList β) (differ : e.device_sn ≠ sn) : count sn (seen ++ [e]) = count sn seen := by
  rw [count,List.countP_append,List.countP_singleton,if_neg (by simpa using differ)]
  rfl

theorem holding_nil : (holding src query [] : Scan β) = .start := rfl

-- One turn of the loop: an entry may count for either device, or for both.
theorem visit_holding (seen : DeviceList β) (e : ServerDeviceInfo β) :
    (holding src query seen).visit src query e = holding src query (seen ++ [e]) := by
  unfold Scan.visit holding
  by_cases asked : e.device_sn = query
  · rw [taken_match seen asked,count_match seen asked,if_pos asked]
    by_cases own : e.device_sn = src
    · rw [taken_match seen own,count_match seen own,if_pos own]
      simp only [Option.isSome_some,Option.map_some,Option.getD_some,if_true]
      rw [← Nat.add_assoc (count query seen+1),Nat.add_right_comm (count query seen) 1]
    · rw [taken_other seen own,count_other seen own,if_neg own]
      simp only [Option.isSome_some,Option.map_some,Option.getD_some,if_true]
      rw [Nat.add_right_comm]
  · rw [taken_other seen asked,count_other seen asked,if_neg asked]
    by_cases own : e.device_sn = src
    · rw [taken_match seen own,count_match seen own,if_pos own]
      rfl
    · rw [taken_other seen own,count_other seen own,if_neg own]

-- Induction over the list; what the loop has seen carries the invariant.
theorem run_holding (seen all : DeviceList β) :
    (holding src query seen).run src query all =
      holding src query (seen ++ visited src query (holding src query seen) all) := by
  induction all generalizing seen with
  | nil => rw [visited,List.append_nil]; rfl
  | cons e rest ih =>
      rw [Scan.run,visited]
      rw [visit_holding]
      split
      · rfl
      · rw [ih,List.append_assoc,List.singleton_append]

theorem visited_front (s : Scan β) (all : DeviceList β) : visited src query s all <+: all := by
  induction all generalizing s with
  | nil => exact List.nil_prefix
  | cons e rest ih =>
      rw [visited]
      apply List.cons_prefix_cons.mpr
      refine ⟨rfl,?_⟩
      split
      · exact List.nil_prefix
      · exact ih _

theorem visited_ends (s : Scan β) (all : DeviceList β) : visited src query s all = all ∨ (s.run src query all).num = 2 := by
  induction all generalizing s with
  | nil => exact .inl rfl
  | cons e rest ih =>
      rw [visited,Scan.run]
      split
      · rename_i two
        exact .inr two
      · rcases ih (s.visit src query e) with whole | two
        · rw [whole]
          exact .inl rfl
        · exact .inr two

-- Nothing was taken for the device asked for, and the reply says so; or the reply and the
-- connection are those of one entry of it. The source record is zero or one entry's copy.
structure Unmixed (src query : UInt64) (seen : DeviceList β) (s : Scan β) : Prop where
  query : (∀ e ∈ seen, e.device_sn ≠ query) ∧ s.cmd = .unknownCmd ∧ s.pdst = none ∨
    ∃ e ∈ seen, e.device_sn = query ∧ s.cmd = .queryDeviceInfoResponse ∧ Copies s.query e ∧ s.pdst = some e.pbev
  src : s.src = .zero ∨ ∃ e ∈ seen, e.device_sn = src ∧ Copies s.src e

theorem holding_unmixed (src query : UInt64) (seen : DeviceList β) : Unmixed src query seen (holding src query seen) where
  query := by
    cases found : taken query seen with
    | none =>
        left
        refine ⟨taken_none found,?_,?_⟩
        · simp [holding,found]
        · simp [holding,found]
    | some e =>
        obtain ⟨member,same⟩ := taken_mem found
        have copied : (holding src query seen).query = e.info := by simp [holding,found]
        right
        refine ⟨e,member,same,?_,?_,?_⟩
        · simp [holding,found]
        · rw [copied]
          exact info_copies e
        · simp [holding,found]
  src := by
    cases found : taken src seen with
    | none =>
        left
        simp [holding,found]
    | some e =>
        obtain ⟨member,same⟩ := taken_mem found
        have copied : (holding src query seen).src = e.info := by simp [holding,found]
        right
        refine ⟨e,member,same,?_⟩
        rw [copied]
        exact info_copies e

theorem start_run (src query : UInt64) (all : DeviceList β) :
    Scan.start.run src query all = holding src query (visited src query .start all) := by
  have ran : (holding src query []).run src query all = _ := run_holding [] all
  rwa [holding_nil,List.nil_append] at ran

theorem scan_unmixed (src query : UInt64) (all : DeviceList β) :
    visited src query .start all <+: all ∧
      (visited src query .start all = all ∨ (Scan.start.run src query all).num = 2) ∧
      Unmixed src query (visited src query .start all) (Scan.start.run src query all) := by
  refine ⟨visited_front _ all,visited_ends _ all,?_⟩
  rw [start_run]
  exact holding_unmixed src query _

-- Whatever is written: the punch hole goes to the device that the reply tells of.
theorem writes_paired (ran : processQueryDeviceInfoCmd io all pbev src query = .returned ret writes) :
    writes = [] ∨ ∃ e ∈ all, e.device_sn = query ∧ ∃ source answer, Copies answer e ∧
      (source = .zero ∨ ∃ f ∈ all, f.device_sn = src ∧ Copies source f) ∧
      (writes = [(e.pbev,reply .punchHole source)] ∨
        writes = [(e.pbev,reply .punchHole source),(pbev,reply .queryDeviceInfoResponse answer)]) := by
  have front : visited src query .start all <+: all := visited_front _ all
  have unmixed := holding_unmixed src query (visited src query .start all)
  rw [← start_run] at unmixed
  rcases process_writes ran with none | ⟨pdst,found,written⟩
  · exact .inl none
  · right
    rcases unmixed.query with ⟨_,_,lost⟩ | ⟨e,member,same,cmd,copied,pbev⟩
    · cases lost.symm.trans found
    · cases pbev.symm.trans found
      rw [cmd] at written
      refine ⟨e,front.subset member,same,_,_,copied,?_,written⟩
      rcases unmixed.src with zero | ⟨f,member',own,copied'⟩
      · exact .inl zero
      · exact .inr ⟨f,front.subset member',own,copied'⟩

end PersonalJournal.RegistryScan
