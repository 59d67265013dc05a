import PersonalJournal.Rfc6052.Confload
import PersonalJournal.Rfc6052.Synthesis

namespace PersonalJournal.Translator
open Lines Nat64 Confload Synthesis

-- How a run ends: with an address, by exit(-1), or in fclose of a null pointer.
inductive Ended where
  | printed (ipv6 : In6Addr)
  | exited
  | crashed
  deriving DecidableEq

-- What the C library finds in a text, and what the stack holds where nothing is stored.
structure Host where
  inet_pton : List UInt8 → Option InAddr
  ipv4ptr : InAddr
  pointer : In6Addr

-- ipv6_prefix is a global and starts as 0. An illegal text leaves ipv4ptr as it is.
def main (host : Host) (ipv6_addr : In6Addr) (setting_conf : Option (List UInt8)) (ipv4_addr : List UInt8) : Ended :=
  match load_config setting_conf 0 with
  | none => .crashed
  | some prefix_length =>
    match ipv4toipv6 host.pointer ipv6_addr prefix_length ((host.inet_pton ipv4_addr).getD host.ipv4ptr) with
    | none => .exited
    | some ipv6 => .printed ipv6

theorem lengths_bits (known : (n,digits) ∈ lengths) : ∃ pl : PrefixLength, n = pl.bits := by
  simp only [lengths,List.mem_cons,Prod.mk.injEq,List.not_mem_nil,or_false] at known
  rcases known with ⟨rfl,_⟩ | ⟨rfl,_⟩ | ⟨rfl,_⟩ | ⟨rfl,_⟩ | ⟨rfl,_⟩ | ⟨rfl,_⟩
  · exact ⟨.pl32,rfl⟩
  · exact ⟨.pl40,rfl⟩
  · exact ⟨.pl48,rfl⟩
  · exact ⟨.pl56,rfl⟩
  · exact ⟨.pl64,rfl⟩
  · exact ⟨.pl96,rfl⟩

theorem governs_bits (governs : Governs all n) : ∃ pl : PrefixLength, n = pl.bits := by
  obtain ⟨_,_,_,_,⟨_,_,_,_,_,_,_,_,known⟩,_⟩ := governs
  exact lengths_bits known

-- Where every line is shorter than the buffer, all of them are heard.
theorem heard_short (short : ∀ l ∈ lines newline file, l.length < lineSize-1) : heard file = lines newline file := by
  have plain : ∀ l ∈ lines newline file, fills l = false := by
    intro l member
    have positive := List.length_pos_iff.mpr (lines_named member)
    simp only [fills,Nat.mod_eq_of_lt (short l member),decide_eq_false_iff_not]
    omega
  have whole : ∀ all : List (List UInt8), (∀ l ∈ all, fills l = false) → seen false all = all := by
    intro all plain
    induction all with
    | nil => rfl
    | cons line rest ih =>
        obtain ⟨here,later⟩ := List.forall_mem_cons.mp plain
        simp only [seen,List.all_cons,here,Bool.false_and,Bool.or_self,Bool.false_eq_true,if_false,ih later]
  rw [heard,whole _ plain]
  refine (List.map_congr_left fun l member => ?_).trans (List.map_id' _)
  exact List.take_of_length_le (Nat.le_of_lt (short l member))

-- What ipv6_prefix is when the file has been read, and with it the end of the run.
theorem loaded_cases (clear : 0 ∉ file) :
    (∃ pl : PrefixLength, Governs (heard file) pl.bits ∧ load_config (some file) 0 = some (pl.bits : Int)) ∨
      (∀ l ∈ heard file, ∀ w, ¬ Sets l w) ∧ load_config (some file) 0 = some 0 := by
  have loaded : load_config (some file) 0 = some (applied (heard file) 0) := congrArg some (loadLines_heard clear 0)
  have clear' := heard_clear clear
  rcases governed (heard file) with ⟨n,governs⟩ | silent
  · obtain ⟨pl,rfl⟩ := governs_bits governs
    exact .inl ⟨pl,governs,loaded.trans (congrArg some (applied_governs clear' governs 0))⟩
  · exact .inr ⟨silent,loaded.trans (congrArg some
      (applied_silent (fun l member => setting_none (clear' l member) (silent l member)) 0))⟩

theorem governs_unique (clear : 0 ∉ file) (one : Governs (heard file) n) (two : Governs (heard file) m) : n = m :=
  (applied_governs (heard_clear clear) one 0).symm.trans (applied_governs (heard_clear clear) two 0)

theorem governs_sets (governs : Governs all n) : ∃ l ∈ all, Sets l n := by
  obtain ⟨before,line,after,rfl,sets,_⟩ := governs
  exact ⟨line,by simp,sets⟩

theorem bits_inj {pl pl' : PrefixLength} (same : (pl.bits : Int) = pl'.bits) : pl = pl' := by
  revert same
  cases pl <;> cases pl' <;> decide

-- From the configuration and a legal text to the address: that of the prefix length which the
-- last line heard sets, and no address at all where none of them sets one.
theorem main_exact (host : Host) (ipv6_addr : In6Addr) (clear : 0 ∉ file) (legal : host.inet_pton ipv4_addr = some v) :
    (∀ a, main host ipv6_addr (some file) ipv4_addr = .printed a ↔
      ∃ pl, Governs (heard file) (PrefixLength.bits pl) ∧ a = embed (front ipv6_addr pl) v) ∧
    (main host ipv6_addr (some file) ipv4_addr = .exited ↔ ∀ l ∈ heard file, ∀ n, ¬ Sets l n) ∧
    ((∀ l ∈ lines newline file, l.length < lineSize-1) → heard file = lines newline file) := by
  refine ⟨?_,?_,heard_short⟩
  · intro a
    rcases loaded_cases clear with ⟨pl,governs,loaded⟩ | ⟨silent,loaded⟩
    · simp only [main,loaded,legal,Option.getD_some,ipv4toipv6_embed]
      constructor
      · intro printed
        cases printed
        exact ⟨pl,governs,rfl⟩
      · rintro ⟨pl',governs',rfl⟩
        rw [bits_inj (governs_unique clear governs governs')]
    · have refused : main host ipv6_addr (some file) ipv4_addr = .exited := by simp only [main,loaded]; rfl
      rw [refused]
      refine ⟨fun printed => (by cases printed),?_⟩
      rintro ⟨pl,governs,_⟩
      obtain ⟨l,member,sets⟩ := governs_sets governs
      exact absurd sets (silent l member _)
  · rcases loaded_cases clear with ⟨pl,governs,loaded⟩ | ⟨silent,loaded⟩
    · simp only [main,loaded,legal,Option.getD_some,ipv4toipv6_embed]
      refine ⟨fun exited => (by cases exited),fun silent => ?_⟩
      obtain ⟨l,member,sets⟩ := governs_sets governs
      exact absurd sets (silent l member _)
    · have refused : main host ipv6_addr (some file) ipv4_addr = .exited := by simp only [main,loaded]; rfl
      exact iff_of_true refused silent

-- setting.conf as it stands in the repository.
def settingConf : List UInt8 :=
  [35] ++ word ++ [32,115,101,116,116,105,110,103,91,51,50,44,52,48,44,52,56,44,53,54,44,54,52,44,57,54,93,10] ++
  word ++ [32,32,57,54,10,10]

-- The address of the constant 2001:67c:27e4:15::, and 1.2.3.4 as the only legal text.
def constant : In6Addr := ⟨[32,1,6,124,39,228,0,21,0,0,0,0,0,0,0,0],rfl⟩

def quadHost : Host := ⟨fun text => if text = [49,46,50,46,51,46,52] then some ⟨[1,2,3,4],rfl⟩ else none,⟨[0,0,0,0],rfl⟩,constant⟩

theorem main_exact_setting :
    ∃ a, main quadHost constant (some settingConf) [49,46,50,46,51,46,52] = .printed a ∧
      a.s6_addr = [32,1,6,124,39,228,0,21,0,0,0,0,1,2,3,4] := by
  have clear : 0 ∉ settingConf := by decide +kernel
  have legal : quadHost.inet_pton [49,46,50,46,51,46,52] = some ⟨[1,2,3,4],rfl⟩ := rfl
  obtain ⟨prints,_,_⟩ := main_exact quadHost constant clear legal
  have shown : heard settingConf = [[35] ++ word ++
      [32,115,101,116,116,105,110,103,91,51,50,44,52,48,44,52,56,44,53,54,44,54,52,44,57,54,93,10],
      word ++ [32,32,57,54,10],[10]] := by decide +kernel
  have governs : Governs (heard settingConf) (PrefixLength.bits .pl96) := by
    rw [shown]
    refine ⟨[_],_,[[10]],rfl,(setting_exact (by decide)).mp (by decide),?_⟩
    intro l member n sets
    rw [List.mem_singleton.mp member] at sets
    have none : setting [10] = none := by decide
    cases none.symm.trans ((setting_exact (by decide)).mpr sets)
  exact ⟨_,(prints _).mpr ⟨.pl96,governs,rfl⟩,rfl⟩

end PersonalJournal.Translator
