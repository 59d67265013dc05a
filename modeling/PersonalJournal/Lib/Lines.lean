import Mathlib.Data.List.Basic

namespace PersonalJournal.Lines

variable {α : Type}

-- `l` is one line, and what follows it begins the next.
inductive Heads (mark : α) : List α → List α → Prop where
  | closed : mark ∉ body → Heads mark (body ++ [mark]) rest
  | last : l ≠ [] → mark ∉ l → Heads mark l []

variable {mark : α} {l rest text : List α}

theorem Heads.named (heads : Heads mark l rest) : l ≠ [] := by
  cases heads with
  | closed => simp
  | last some => exact some

-- What a chunk leaves of a line is a line again.
theorem Heads.drop (heads : Heads mark l rest) (more : n < l.length) : Heads mark (l.drop n) rest := by
  cases heads with
  | @closed body _ plain =>
      have inside : n ≤ body.length := by
        rw [List.length_append,List.length_singleton] at more
        omega
      rw [List.drop_append_of_le_length inside]
      exact .closed (fun member => plain (List.mem_of_mem_drop member))
  | last some plain =>
      exact .last (List.ne_nil_of_length_pos (by rw [List.length_drop]; omega)) (fun member => plain (List.mem_of_mem_drop member))

variable [DecidableEq α]

-- The lines of a text, each with the end mark that closes it; the last may have none.
def lines (mark : α) : List α → List (List α)
  | [] => []
  | c :: rest =>
    if c = mark then [c] :: lines mark rest
    else match lines mark rest with
      | [] => [[c]]
      | l :: more => (c :: l) :: more

-- At most n symbols, and none behind an end mark; what is left of the text.
def chunk (mark : α) : Nat → List α → List α × List α
  | 0,text => ([],text)
  | _+1,[] => ([],[])
  | n+1,c :: rest => if c = mark then ([c],rest) else (c :: (chunk mark n rest).1,(chunk mark n rest).2)

theorem lines_flatten (mark : α) (text : List α) : (lines mark text).flatten = text := by
  induction text with
  | nil => rfl
  | cons c rest ih =>
      rw [lines]
      split
      · rw [List.flatten_cons,ih]
        rfl
      · split
        · rename_i none
          rw [none] at ih
          rw [← ih]
          rfl
        · rename_i l more found
          rw [found,List.flatten_cons] at ih
          rw [List.flatten_cons,List.cons_append,ih]

theorem lines_named (member : l ∈ lines mark text) : l ≠ [] := by
  induction text generalizing l with
  | nil => cases member
  | cons c rest ih =>
      rw [lines] at member
      split at member
      · rcases List.mem_cons.mp member with rfl | later
        · exact List.cons_ne_nil _ _
        · exact ih later
      · split at member
        · rw [List.mem_singleton.mp member]
          exact List.cons_ne_nil _ _
        · rename_i found
          rcases List.mem_cons.mp member with rfl | later
          · exact List.cons_ne_nil _ _
          · exact ih (by rw [found]; exact List.mem_cons_of_mem _ later)

theorem lines_plain (some : l ≠ []) (plain : mark ∉ l) : lines mark l = [l] := by
  induction l with
  | nil => contradiction
  | cons c more ih =>
      simp only [List.mem_cons,not_or] at plain
      rw [lines,if_neg (Ne.symm plain.1)]
      cases more with
      | nil => rfl
      | cons d more => rw [ih (by simp) plain.2]

theorem lines_closed (plain : mark ∉ body) (rest : List α) : lines mark (body ++ mark :: rest) = (body ++ [mark]) :: lines mark rest := by
  induction body with
  | nil => simp [lines]
  | cons c more ih =>
      simp only [List.mem_cons,not_or] at plain
      rw [List.cons_append,lines,if_neg (Ne.symm plain.1),ih plain.2]
      rfl

theorem Heads.lines (heads : Heads mark l rest) : lines mark (l ++ rest) = l :: Lines.lines mark rest := by
  cases heads with
  | closed plain =>
      rw [List.append_assoc]
      exact lines_closed plain rest
  | last some plain =>
      rw [List.append_nil,lines_plain some plain]
      rfl

theorem heads_exist (mark : α) (some : text ≠ []) : ∃ l rest, text = l ++ rest ∧ Heads mark l rest := by
  by_cases inside : mark ∈ text
  · obtain ⟨body,rest,rfl,plain⟩ := List.eq_append_cons_of_mem inside
    exact ⟨body ++ [mark],rest,by simp,.closed plain⟩
  · exact ⟨text,[],by simp,.last some inside⟩

theorem chunk_plain (plain : mark ∉ l) (n : Nat) : chunk mark n l = (l.take n,l.drop n) := by
  induction l generalizing n with
  | nil => cases n <;> rfl
  | cons c more ih =>
      simp only [List.mem_cons,not_or] at plain
      cases n with
      | zero => rfl
      | succ n => rw [chunk,if_neg (Ne.symm plain.1),ih plain.2]; rfl

theorem chunk_closed (plain : mark ∉ body) (n : Nat) (rest : List α) :
    chunk mark n (body ++ mark :: rest) = ((body ++ [mark]).take n,(body ++ [mark]).drop n ++ rest) := by
  induction body generalizing n with
  | nil => cases n <;> simp [chunk]
  | cons c more ih =>
      simp only [List.mem_cons,not_or] at plain
      cases n with
      | zero => simp [chunk]
      | succ n => rw [List.cons_append,chunk,if_neg (Ne.symm plain.1),ih plain.2]; rfl

-- A chunk never goes beyond the line it starts in.
theorem Heads.chunk (heads : Heads mark l rest) (n : Nat) : chunk mark n (l ++ rest) = (l.take n,l.drop n ++ rest) := by
  cases heads with
  | closed plain =>
      rw [List.append_assoc]
      exact chunk_closed plain n rest
  | last some plain => rw [List.append_nil,List.append_nil,chunk_plain plain]

end PersonalJournal.Lines
