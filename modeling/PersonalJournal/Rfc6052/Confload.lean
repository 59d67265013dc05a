import Mathlib.Data.List.TakeWhile
import PersonalJournal.Lib.Lines

namespace PersonalJournal.Confload
open Lines

def newline : UInt8 := 10

-- sizeof line, and what fgets puts into it in front of the NUL.
def lineSize : Nat := 255

def fgets (file : List UInt8) : Option (List UInt8 × List UInt8) :=
  if file = [] then none else some (chunk newline (lineSize-1) file)

-- What strlen, strcpy and strncmp see of it.
def string (line : List UInt8) : List UInt8 := line.takeWhile (· ≠ 0)

-- strlen(line) == 254 && line[254] != 10. At that length line[254] is the NUL.
def unfinished (line : List UInt8) : Bool := (string line).length = 254 && (string line ++ [0])[254]? ≠ some newline

theorem fgets_splits (read : fgets file = some (line,rest)) : file = line ++ rest ∧ line ≠ [] := by
  unfold fgets at read
  split at read
  · cases read
  · rename_i some
    obtain ⟨l,more,rfl,heads⟩ := heads_exist newline some
    rw [heads.chunk] at read
    cases read
    refine ⟨by rw [← List.append_assoc,List.take_append_drop],?_⟩
    have long := List.length_pos_iff.mpr heads.named
    exact List.ne_nil_of_length_pos (by rw [List.length_take,lineSize]; omega)

theorem fgets_shorter (read : fgets file = some (line,rest)) : rest.length < file.length := by
  obtain ⟨rfl,some⟩ := fgets_splits read
  have long := List.length_pos_iff.mpr some
  rw [List.length_append]
  omega

-- The inner loops: `none` is their return from load_config at the end of the file.
def skipRest (line file : List UInt8) : Option (List UInt8) :=
  if unfinished line then
    match _read : fgets file with
    | none => none
    | some (line,rest) => skipRest line rest
  else some file
termination_by file.length
decreasing_by exact fgets_shorter _read

theorem skipRest_last (full : unfinished line = true) (last : fgets file = none) : skipRest line file = none := by
  rw [skipRest,if_pos full]
  split
  · rfl
  · rename_i more
    cases last.symm.trans more

theorem skipRest_next (full : unfinished line = true) (read : fgets file = some (next,rest)) :
    skipRest line file = skipRest next rest := by
  rw [skipRest,if_pos full]
  split
  · rename_i last
    cases read.symm.trans last
  · rename_i read'
    cases read.symm.trans read'
    rfl

theorem skipRest_done (done : unfinished line ≠ true) (file : List UInt8) : skipRest line file = some file := by
  rw [skipRest,if_neg done]

theorem skipRest_suffix (skipped : skipRest line file = some rest) : rest <:+ file := by
  induction line, file using skipRest.induct with
  | case1 line file full last =>
      rw [skipRest_last full last] at skipped
      cases skipped
  | case2 line file full next more read ih =>
      rw [skipRest_next full read] at skipped
      rw [(fgets_splits read).1]
      exact (ih skipped).trans (List.suffix_append _ _)
  | case3 line file done =>
      rw [skipRest_done done] at skipped
      cases skipped
      exact List.suffix_refl _

theorem skipRest_shorter (skipped : skipRest line file = some rest) : rest.length ≤ file.length :=
  (skipRest_suffix skipped).length_le

def comment (line : List UInt8) : Bool :=
  (string line).length < 3 || (string line)[0]? = some 35 || ((string line)[0]? = some 47 && (string line)[1]? = some 47)

def blank (c : UInt8) : Bool := c = 32 || c = 9

-- "ipv6_prefix"
def word : List UInt8 := [105,112,118,54,95,112,114,101,102,105,120]

def twoDigits : List UInt8 → Option Int
  | 51 :: 50 :: _ => some 32
  | 52 :: 48 :: _ => some 40
  | 52 :: 56 :: _ => some 48
  | 53 :: 54 :: _ => some 56
  | 54 :: 52 :: _ => some 64
  | 57 :: 54 :: _ => some 96
  | _ => none

-- The value that a line sets; with `none` ipv6_prefix stays as it is.
def setting (line : List UInt8) : Option Int :=
  let rest := (string line).dropWhile blank
  if word <+: rest then twoDigits ((rest.drop word.length).dropWhile blank) else none

def loadLines (file : List UInt8) (ipv6Prefix : Int) : Int :=
  match _read : fgets file with
  | none => ipv6Prefix
  | some (line,file) =>
    if comment line then
      match _skipped : skipRest line file with
      | none => ipv6Prefix
      | some file => loadLines file ipv6Prefix
    else if unfinished line then
      match _skipped : skipRest line file with
      | none => ipv6Prefix
      | some file => loadLines file ((setting line).getD ipv6Prefix)
    else loadLines file ((setting line).getD ipv6Prefix)
termination_by file.length
decreasing_by
  · exact Nat.lt_of_le_of_lt (skipRest_shorter _skipped) (fgets_shorter _read)
  · exact Nat.lt_of_le_of_lt (skipRest_shorter _skipped) (fgets_shorter _read)
  · exact fgets_shorter _read

-- `setting_conf` is what the file holds. Without a file fclose gets a null pointer.
def load_config (setting_conf : Option (List UInt8)) (ipv6Prefix : Int) : Option Int :=
  setting_conf.map (fun file => loadLines file ipv6Prefix)

-- The prefix lengths with their digits.
def lengths : List (Int × List UInt8) :=
  [(32,[51,50]),(40,[52,48]),(48,[52,56]),(56,[53,54]),(64,[54,52]),(96,[57,54])]

def Commented (line : List UInt8) : Prop := [35] <+: line ∨ [47,47] <+: line

-- What a setting line is, whatever its length.
def Sets (line : List UInt8) (v : Int) : Prop :=
  ¬ Commented line ∧ ∃ front gap digits rest, line = front ++ (word ++ (gap ++ (digits ++ rest))) ∧
    (∀ c ∈ front, blank c = true) ∧ (∀ c ∈ gap, blank c = true) ∧ (v,digits) ∈ lengths

-- The last line that sets ipv6_prefix sets it to v.
def Governs (all : List (List UInt8)) (v : Int) : Prop :=
  ∃ before line after, all = before ++ line :: after ∧ Sets line v ∧ ∀ l ∈ after, ∀ w, ¬ Sets l w

-- The file means what its lines say, one by one.
structure Interprets (file : List UInt8) : Prop where
  last : ∀ v, Governs (lines newline file) v → ∀ ipv6Prefix, load_config (some file) ipv6Prefix = some v
  silent : (∀ l ∈ lines newline file, ∀ v, ¬ Sets l v) → ∀ ipv6Prefix, load_config (some file) ipv6Prefix = some ipv6Prefix

-- A line fills its last buffer: its length is a multiple of 254, its newline counted.
def fills (line : List UInt8) : Bool := line.length % (lineSize-1) = 0

-- The lines that are looked at. Hidden are those behind a line that fills its last buffer,
-- and those from which on every line to the end of the file does.
def seen : Bool → List (List UInt8) → List (List UInt8)
  | _,[] => []
  | hidden,line :: rest =>
    if hidden || (line :: rest).all fills then seen (fills line) rest else line :: seen (fills line) rest

theorem string_clear (clear : 0 ∉ line) : string line = line := by
  refine List.takeWhile_eq_self_iff.mpr (fun c member => ?_)
  simp only [ne_eq,decide_not,Bool.not_eq_true',decide_eq_false_iff_not]
  rintro rfl
  exact clear member

theorem twoDigits_exact : twoDigits l = some v ↔ ∃ digits rest, l = digits ++ rest ∧ (v,digits) ∈ lengths := by
  constructor
  · intro found
    unfold twoDigits at found
    split at found <;> cases found <;> exact ⟨[_,_],_,rfl,by decide⟩
  · rintro ⟨digits,rest,rfl,known⟩
    simp only [lengths,List.mem_cons,Prod.mk.injEq,List.not_mem_nil,or_false] at known
    rcases known with ⟨rfl,rfl⟩ | ⟨rfl,rfl⟩ | ⟨rfl,rfl⟩ | ⟨rfl,rfl⟩ | ⟨rfl,rfl⟩ | ⟨rfl,rfl⟩ <;> rfl

-- Blanks are skipped up to a symbol that is none.
theorem dropBlank (blanks : ∀ c ∈ front, blank c = true) (plain : blank c = false) (rest : List UInt8) :
    (front ++ c :: rest).dropWhile blank = c :: rest := by
  rw [List.dropWhile_append_of_pos blanks,List.dropWhile_cons_of_neg (by simp [plain])]

theorem blanks_before (l : List UInt8) : ∃ front, l = front ++ l.dropWhile blank ∧ ∀ c ∈ front, blank c = true :=
  ⟨l.takeWhile blank,List.takeWhile_append_dropWhile.symm,fun _ member => List.mem_takeWhile_imp member⟩

theorem word_uncommented (front : List UInt8) (blanks : ∀ c ∈ front, blank c = true) (rest : List UInt8) :
    ¬ Commented (front ++ (word ++ rest)) := by
  intro commented
  cases front with
  | nil =>
      rcases commented with hash | slashes
      · exact absurd (List.cons_prefix_cons.mp hash).1 (by decide)
      · exact absurd (List.cons_prefix_cons.mp slashes).1 (by decide)
  | cons c front =>
      have here := blanks c List.mem_cons_self
      rcases commented with hash | slashes
      · rw [← (List.cons_prefix_cons.mp hash).1] at here
        exact absurd here (by decide)
      · rw [← (List.cons_prefix_cons.mp slashes).1] at here
        exact absurd here (by decide)

theorem digits_plain (known : (v,digits) ∈ lengths) : ∃ c more, digits = c :: more ∧ blank c = false := by
  simp only [lengths,List.mem_cons,Prod.mk.injEq,List.not_mem_nil,or_false] at known
  rcases known with ⟨_,rfl⟩ | ⟨_,rfl⟩ | ⟨_,rfl⟩ | ⟨_,rfl⟩ | ⟨_,rfl⟩ | ⟨_,rfl⟩ <;> exact ⟨_,_,rfl,by decide⟩

theorem setting_exact (clear : 0 ∉ line) : setting line = some v ↔ Sets line v := by
  rw [setting,string_clear clear]
  constructor
  · intro found
    split at found
    · rename_i named
      obtain ⟨front,split,blanks⟩ := blanks_before line
      obtain ⟨more,whole⟩ := named
      obtain ⟨gap,split',blanks'⟩ := blanks_before more
      rw [← whole,List.drop_left] at found
      obtain ⟨digits,rest,tail,known⟩ := twoDigits_exact.mp found
      have text : line = front ++ (word ++ (gap ++ (digits ++ rest))) := by rw [← tail,← split',whole,← split]
      refine ⟨?_,front,gap,digits,rest,text,blanks,blanks',known⟩
      rw [text]
      exact word_uncommented front blanks _
    · cases found
  · rintro ⟨_,front,gap,digits,rest,rfl,blanks,blanks',known⟩
    have start : (front ++ (word ++ (gap ++ (digits ++ rest)))).dropWhile blank = word ++ (gap ++ (digits ++ rest)) :=
      dropBlank blanks rfl _
    obtain ⟨c,more,rfl,plain⟩ := digits_plain known
    rw [start,if_pos (List.prefix_append _ _),List.drop_left,List.cons_append,dropBlank blanks' plain]
    exact twoDigits_exact.mpr ⟨_,rest,rfl,known⟩

theorem comment_silent (clear : 0 ∉ line) (commented : comment line = true) : setting line = none := by
  cases found : setting line with
  | none => rfl
  | some v =>
      obtain ⟨uncommented,front,gap,digits,rest,text,_,_,known⟩ := (setting_exact clear).mp found
      obtain ⟨c,more,rfl,_⟩ := digits_plain known
      exfalso
      rw [comment,string_clear clear] at commented
      simp only [Bool.or_eq_true,Bool.and_eq_true,decide_eq_true_eq] at commented
      rcases commented with (short | hash) | ⟨slash,slash'⟩
      · have long := congrArg List.length text
        simp only [List.length_append,List.length_cons,word] at long
        simp at long
        omega
      · refine uncommented (.inl ?_)
        cases line with
        | nil => cases hash
        | cons d rest => cases hash; exact List.prefix_append [35] rest
      · refine uncommented (.inr ?_)
        match line,slash,slash' with
        | _ :: _ :: rest,rfl,rfl => exact List.prefix_append [47,47] rest

theorem unfinished_exact (clear : 0 ∉ line) : unfinished line = true ↔ line.length = lineSize-1 := by
  rw [unfinished,string_clear clear]
  simp only [Bool.and_eq_true,decide_eq_true_eq]
  constructor
  · exact And.left
  · intro size
    refine ⟨size,?_⟩
    rw [List.getElem?_append_right (by rw [size]; decide),size]
    decide

-- What the inner loops leave of the lines, when the present one comes first.
def passOver : List (List UInt8) → Option (List (List UInt8))
  | [] => none
  | line :: rest => if fills line then passOver rest else some rest

theorem fills_shorter (long : lineSize-1 < line.length) : fills (line.drop (lineSize-1)) = fills line := by
  unfold fills
  rw [List.length_drop]
  have same : (line.length-(lineSize-1)) % (lineSize-1) = line.length % (lineSize-1) := by
    unfold lineSize at long ⊢
    omega
  rw [same]

theorem fgets_heads (heads : Heads newline line rest) :
    fgets (line ++ rest) = some (line.take (lineSize-1),line.drop (lineSize-1) ++ rest) := by
  have some : line ++ rest ≠ [] := List.append_ne_nil_of_left_ne_nil heads.named rest
  rw [fgets,if_neg some,heads.chunk]

theorem take_unfinished {line : List UInt8} (clear : 0 ∉ line) (long : lineSize-1 ≤ line.length) : unfinished (line.take (lineSize-1)) = true := by
  rw [unfinished_exact (fun member => clear (List.mem_of_mem_take member)),List.length_take]
  omega

-- Induction on what is left of the file: a long line loses a chunk, a line of just one
-- chunk takes the next line with it.
theorem skipRest_lines (heads : Heads newline line rest) (clear : 0 ∉ line ++ rest) :
    (skipRest (line.take (lineSize-1)) (line.drop (lineSize-1) ++ rest)).map (lines newline) =
      passOver (line :: lines newline rest) := by
  induction size : (line ++ rest).length using Nat.strong_induction_on generalizing line rest with
  | _ n ih =>
      simp only [List.mem_append,not_or] at clear
      have positive := List.length_pos_iff.mpr heads.named
      rw [List.length_append] at size
      rcases Nat.lt_trichotomy line.length (lineSize-1) with short | equal | long
      · have whole : line.take (lineSize-1) = line := List.take_of_length_le (Nat.le_of_lt short)
        have none : line.drop (lineSize-1) = [] := List.drop_eq_nil_of_le (Nat.le_of_lt short)
        have open' : unfinished line ≠ true := by
          rw [ne_eq,unfinished_exact clear.1]
          omega
        have plain : ¬ fills line = true := by
          simp only [fills,decide_eq_true_eq,Nat.mod_eq_of_lt short]
          omega
        rw [whole,none,skipRest_done open',passOver,if_neg plain]
        rfl
      · have full := take_unfinished clear.1 (Nat.le_of_eq equal.symm)
        have none : line.drop (lineSize-1) = [] := List.drop_eq_nil_of_le (Nat.le_of_eq equal)
        have filled : fills line = true := by simp [fills,equal]
        rw [none,List.nil_append,passOver,if_pos filled]
        by_cases some : rest = []
        · subst some
          rw [skipRest_last full rfl]
          rfl
        · obtain ⟨next,more,rfl,heads'⟩ := heads_exist newline some
          rw [skipRest_next full (fgets_heads heads'),heads'.lines]
          exact ih _ (by rw [← size]; omega) heads' (by simpa using clear.2) rfl
      · have full := take_unfinished clear.1 (Nat.le_of_lt long)
        have heads' := heads.drop long
        have same : passOver (line :: lines newline rest) = passOver (line.drop (lineSize-1) :: lines newline rest) := by
          rw [passOver,passOver,fills_shorter long]
        rw [skipRest_next full (fgets_heads heads'),same]
        refine ih _ ?_ heads' ?_ rfl
        · rw [← size,List.length_append,List.length_drop,lineSize]
          omega
        · simp only [List.mem_append,not_or]
          exact ⟨fun member => clear.1 (List.mem_of_mem_drop member),clear.2⟩

theorem all_fill : passOver all = none ↔ all.all fills = true := by
  induction all with
  | nil => simp [passOver]
  | cons line rest ih =>
      rw [passOver,List.all_cons]
      by_cases filled : fills line = true
      · simp [filled,ih]
      · simp [filled]

theorem seen_none (hidden : Bool) (filled : all.all fills = true) : seen hidden all = [] := by
  induction all generalizing hidden with
  | nil => rfl
  | cons line rest ih =>
      have later := filled
      rw [List.all_cons,Bool.and_eq_true] at later
      rw [seen,if_pos (by simp [filled]),ih _ later.2]

theorem seen_hidden (passed : passOver all = some more) : seen true all = seen false more := by
  induction all with
  | nil => cases passed
  | cons line rest ih =>
      rw [passOver] at passed
      rw [seen,if_pos (by rfl)]
      by_cases filled : fills line = true
      · rw [if_pos filled] at passed
        rw [filled]
        exact ih passed
      · rw [if_neg filled] at passed
        cases passed
        rw [Bool.not_eq_true] at filled
        rw [filled]

theorem seen_first (passed : passOver (line :: rest) = some more) : seen false (line :: rest) = line :: seen false more := by
  have some : ¬ ((line :: rest).all fills = true) := by
    rw [← all_fill,passed]
    exact Option.some_ne_none more
  rw [seen,if_neg (by simpa using some)]
  rw [passOver] at passed
  by_cases filled : fills line = true
  · rw [if_pos filled] at passed
    rw [filled,seen_hidden passed]
  · rw [if_neg filled] at passed
    cases passed
    rw [Bool.not_eq_true] at filled
    rw [filled]

theorem seen_subset (hidden : Bool) (all : List (List UInt8)) : ∀ l ∈ seen hidden all, l ∈ all := by
  induction all generalizing hidden with
  | nil => simp [seen]
  | cons line rest ih =>
      intro l member
      rw [seen] at member
      split at member
      · exact List.mem_cons_of_mem _ (ih _ l member)
      · rcases List.mem_cons.mp member with rfl | later
        · exact List.mem_cons_self
        · exact List.mem_cons_of_mem _ (ih _ l later)

theorem loadLines_last (last : fgets file = none) (ipv6Prefix : Int) : loadLines file ipv6Prefix = ipv6Prefix := by
  rw [loadLines]
  split
  · rfl
  · rename_i read
    cases last.symm.trans read

theorem loadLines_line (read : fgets file = some (line,rest)) (clear : 0 ∉ line) (skipped : skipRest line rest = some left)
    (ipv6Prefix : Int) : loadLines file ipv6Prefix = loadLines left ((setting line).getD ipv6Prefix) := by
  rw [loadLines]
  split
  · rename_i last
    cases read.symm.trans last
  · rename_i read'
    cases read.symm.trans read'
    split
    · rename_i commented
      rw [comment_silent clear commented]
      split
      · rename_i none
        cases skipped.symm.trans none
      · rename_i some
        cases skipped.symm.trans some
        rfl
    · split
      · split
        · rename_i none
          cases skipped.symm.trans none
        · rename_i some
          cases skipped.symm.trans some
          rfl
      · rename_i done
        cases (skipRest_done done rest).symm.trans skipped
        rfl

theorem loadLines_return (read : fgets file = some (line,rest)) (skipped : skipRest line rest = none) (ipv6Prefix : Int) :
    loadLines file ipv6Prefix = ipv6Prefix := by
  rw [loadLines]
  split
  · rfl
  · rename_i read'
    cases read.symm.trans read'
    split
    · split
      · rfl
      · rename_i some
        cases skipped.symm.trans some
    · split
      · split
        · rfl
        · rename_i some
          cases skipped.symm.trans some
      · rename_i done
        cases (skipRest_done done rest).symm.trans skipped

-- The values that these lines set, one after the other.
def applied (all : List (List UInt8)) (ipv6Prefix : Int) : Int :=
  all.foldl (fun value line => (setting line).getD value) ipv6Prefix

-- Of each line that is seen the first buffer counts.
def heard (file : List UInt8) : List (List UInt8) := (seen false (lines newline file)).map (·.take (lineSize-1))

theorem loadLines_heard (clear : 0 ∉ file) (ipv6Prefix : Int) : loadLines file ipv6Prefix = applied (heard file) ipv6Prefix := by
  induction size : file.length using Nat.strong_induction_on generalizing file ipv6Prefix with
  | _ n ih =>
      by_cases some : file = []
      · subst some
        exact loadLines_last rfl ipv6Prefix
      · obtain ⟨line,rest,rfl,heads⟩ := heads_exist newline some
        have read := fgets_heads heads
        have passed := skipRest_lines heads clear
        have clear' : 0 ∉ line.take (lineSize-1) := fun member => clear (List.mem_append_left _ (List.mem_of_mem_take member))
        rw [heard,heads.lines]
        cases skipped : skipRest (line.take (lineSize-1)) (line.drop (lineSize-1) ++ rest) with
        | none =>
            rw [skipped] at passed
            rw [loadLines_return read skipped,seen_none false (all_fill.mp passed.symm)]
            rfl
        | some left =>
            rw [skipped] at passed
            have suffix := skipRest_suffix skipped
            have shorter := Nat.lt_of_le_of_lt suffix.length_le (fgets_shorter read)
            have onward : 0 ∉ left := by
              intro member
              have behind := suffix.subset member
              rcases List.mem_append.mp behind with early | late
              · exact clear (List.mem_append_left _ (List.mem_of_mem_drop early))
              · exact clear (List.mem_append_right _ late)
            rw [loadLines_line read clear' skipped,seen_first passed.symm,ih _ (by rw [← size]; exact shorter) onward _ rfl]
            rfl

theorem applied_silent (silent : ∀ l ∈ all, setting l = none) (ipv6Prefix : Int) : applied all ipv6Prefix = ipv6Prefix := by
  induction all with
  | nil => rfl
  | cons line rest ih =>
      obtain ⟨here,later⟩ := List.forall_mem_cons.mp silent
      rw [applied,List.foldl_cons,here]
      exact ih later

theorem setting_none (clear : 0 ∉ l) (never : ∀ v, ¬ Sets l v) : setting l = none := by
  cases found : setting l with
  | none => rfl
  | some v => exact absurd ((setting_exact clear).mp found) (never v)

theorem applied_governs (clear : ∀ l ∈ all, 0 ∉ l) (governs : Governs all v) (ipv6Prefix : Int) : applied all ipv6Prefix = v := by
  obtain ⟨before,line,after,rfl,sets,silent⟩ := governs
  have clear' := fun l member => clear l (List.mem_append_right _ (List.mem_cons_of_mem _ member))
  have here := (setting_exact (clear line (by simp))).mpr sets
  rw [applied,List.foldl_append,List.foldl_cons,here]
  exact applied_silent (fun l member => setting_none (clear' l member) (silent l member)) v

-- Either some line is the last to set a value, or none does.
theorem governed (all : List (List UInt8)) : (∃ v, Governs all v) ∨ ∀ l ∈ all, ∀ v, ¬ Sets l v := by
  induction all with
  | nil => exact .inr (by simp)
  | cons line rest ih =>
      rcases ih with ⟨v,before,l,after,rfl,sets,silent⟩ | silent
      · exact .inl ⟨v,line :: before,l,after,rfl,sets,silent⟩
      · by_cases here : ∃ v, Sets line v
        · obtain ⟨v,sets⟩ := here
          exact .inl ⟨v,[],line,rest,rfl,sets,silent⟩
        · push Not at here
          exact .inr (List.forall_mem_cons.mpr ⟨here,silent⟩)

-- A cut line never sets anything that the whole line does not.
theorem sets_whole (n : Nat) (sets : Sets (l.take n) v) : Sets l v := by
  obtain ⟨_,front,gap,digits,rest,text,blanks,blanks',known⟩ := sets
  have whole : l = front ++ (word ++ (gap ++ (digits ++ (rest ++ l.drop n)))) := by
    have parts := (List.take_append_drop n l).symm
    rw [text] at parts
    simpa only [List.append_assoc] using parts
  refine ⟨?_,front,gap,digits,rest ++ l.drop n,whole,blanks,blanks',known⟩
  rw [whole]
  exact word_uncommented front blanks _

theorem heard_clear (clear : 0 ∉ file) : ∀ l ∈ heard file, 0 ∉ l := by
  intro l member inside
  obtain ⟨line,seen',rfl⟩ := List.mem_map.mp member
  have whole := List.mem_flatten.mpr ⟨line,seen_subset _ _ line seen',List.mem_of_mem_take inside⟩
  rw [lines_flatten] at whole
  exact clear whole

theorem heard_silent (silent : ∀ l ∈ lines newline file, ∀ v, ¬ Sets l v) : ∀ l ∈ heard file, ∀ v, ¬ Sets l v := by
  intro l member v sets
  obtain ⟨line,seen',rfl⟩ := List.mem_map.mp member
  exact silent line (seen_subset _ _ line seen') v (sets_whole _ sets)

theorem lines_independent (clear : 0 ∉ file) :
    Interprets file ↔ ∀ v, Governs (lines newline file) v → Governs (heard file) v := by
  have loaded : ∀ ipv6Prefix, load_config (some file) ipv6Prefix = some (applied (heard file) ipv6Prefix) :=
    fun ipv6Prefix => congrArg some (loadLines_heard clear ipv6Prefix)
  have clear' := heard_clear clear
  constructor
  · intro means v governs
    have value : ∀ ipv6Prefix, applied (heard file) ipv6Prefix = v :=
      fun ipv6Prefix => Option.some.inj ((loaded ipv6Prefix).symm.trans (means.last v governs ipv6Prefix))
    rcases governed (heard file) with ⟨w,governs'⟩ | silent
    · have same := applied_governs clear' governs' 0
      rw [value 0] at same
      rwa [same]
    · have kept := applied_silent (fun l member => setting_none (clear' l member) (silent l member)) (v+1)
      rw [value (v+1)] at kept
      omega
  · intro kept
    refine ⟨fun v governs ipv6Prefix => ?_,fun silent ipv6Prefix => ?_⟩
    · rw [loaded,applied_governs clear' (kept v governs)]
    · have none := heard_silent silent
      rw [loaded,applied_silent (fun l member => setting_none (clear' l member) (none l member))]

-- "ipv6_prefix 32" in a file of its own.
def settingLine : List UInt8 := word ++ [32,51,50,10]

theorem settingLine_sets : Sets settingLine 32 := (setting_exact (by decide)).mp (by decide)

-- A comment, a setting, something else, and a last setting without a newline.
def severalLines : List UInt8 := [35,32,120,10] ++ (word ++ [32,54,52,10]) ++ [120,10] ++ (word ++ [32,51,50])

theorem lines_independent_several : Interprets severalLines ↔
    ∀ v, Governs (lines newline severalLines) v → Governs (heard severalLines) v := lines_independent (by decide)

-- A comment of 254 octets, its newline counted, in front of it.
def hidingFile : List UInt8 := [35] ++ List.replicate 252 120 ++ [10] ++ settingLine

theorem comment_hides_setting : 0 ∉ hidingFile ∧ Governs (lines newline hidingFile) 32 ∧
    load_config (some hidingFile) 64 = some 64 ∧ ¬ Interprets hidingFile := by
  have clear : 0 ∉ hidingFile := by decide +kernel
  have two : lines newline hidingFile = [[35] ++ List.replicate 252 120 ++ [10],settingLine] := by decide +kernel
  have governs : Governs (lines newline hidingFile) 32 := by
    rw [two]
    exact ⟨[_],settingLine,[],rfl,settingLine_sets,by simp⟩
  have one : heard hidingFile = [[35] ++ List.replicate 252 120 ++ [10]] := by decide +kernel
  have loaded : load_config (some hidingFile) 64 = some 64 := by
    refine congrArg some ((loadLines_heard clear 64).trans ?_)
    rw [one]
    decide +kernel
  refine ⟨clear,governs,loaded,fun means => ?_⟩
  have meant := means.last 32 governs 64
  rw [loaded] at meant
  exact absurd meant (by decide)

end PersonalJournal.Confload
