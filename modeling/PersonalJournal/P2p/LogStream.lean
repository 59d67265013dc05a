import Mathlib.Logic.Function.Basic
import PersonalJournal.Lib.Allocation
import PersonalJournal.Lib.Transition
import PersonalJournal.P2p.Log

namespace PersonalJournal.LogStream
open Bytes Formatting Allocation Transition Log

-- The static variables of log.c, the streams that are open, each with its file, and what has been written.
-- log_stream is an address, and stays one when the stream is closed.
structure State (F : Type) where
  enable_console : Bool
  log_level : Int
  log_stream : Option Nat
  streams : Heap F
  files : F → List UInt8
  console : List (Stream × List UInt8)

inductive Action (F : Type) where
  | configure (content : Block) (tm : Tm) (source : List UInt8) (lvl : Int) (file : Option (F × Opening)) (console : Bool)
  | logging (content : Block) (tm : Tm) (c : Call)
  | destroy

section Streams
variable {F : Type} [DecidableEq F]

omit [DecidableEq F] in
def State.settings (s : State F) : Settings := ⟨s.enable_console,s.log_stream.isSome,s.log_level⟩

def State.start (files : F → List UInt8) : State F :=
  ⟨Settings.start.enable_console,Settings.start.log_level,none,⟨[],List.nodup_nil⟩,files,[]⟩

-- fputs, and for the log the fflush behind it. `none` where the stream is not open.
def State.fputs (s : State F) : Stream × List UInt8 → Option (State F)
  | (.log,text) => do
    let a ← s.log_stream
    let f ← s.streams.what a
    some {s with files := Function.update s.files f (s.files f ++ text)}
  | line => some {s with console := s.console ++ [line]}

def State.print (s : State F) : List (Stream × List UInt8) → Option (State F)
  | [] => some s
  | line :: rest => do
    let s ← s.fputs line
    s.print rest

-- fopen for appending makes a stream where it likes.
def step (alloc : Allocator F) (s : State F) : Action F → Option (State F)
  | .configure content tm source lvl file console => do
    let (_,after,emitted) ← configureLog s.settings content tm source lvl (file.map Prod.snd) console
    let s := {s with enable_console := after.enable_console,log_level := after.log_level}
    let s := match file with
      | some (f,.opened) => {s with log_stream := some (alloc.place s.streams),streams := s.streams.malloc alloc f}
      | _ => s
    s.print emitted
  | .logging content tm c => do
    let emitted ← Log.logging s.settings content tm c
    s.print emitted
  | .destroy => match s.log_stream with
    | none => some s
    | some a => (s.streams.free a).map (fun streams => {s with streams})

-- The log as its callers mean it: one file at a time, which destroy_log closes.
structure Journal (F : Type) where
  log_level : Int
  current : Option F
  closed : Bool
  streams : Nat
  files : F → List UInt8

def line (tm : Tm) (c : Call) : List UInt8 := (string (composed tm c ++ [10,0])).getD []

-- What configure_log logs itself where the file cannot be opened.
def failure (source err : List UInt8) : Call :=
  ⟨.error,source,literal "configure_log",28,literal "error opening log file, err: " ++ err⟩

def clamp (lvl : Int) : Int :=
  if lvl > Level.error.value then Level.error.value else if lvl < Level.debug.value then Level.debug.value else lvl

def Journal.start (files : F → List UInt8) : Journal F := ⟨Level.info.value,none,false,0,files⟩

def Journal.log (j : Journal F) (tm : Tm) (c : Call) : Journal F :=
  if c.lvl.value < j.log_level then j
  else match j.current with
    | none => j
    | some f => {j with files := Function.update j.files f (j.files f ++ line tm c)}

def Journal.step (j : Journal F) : Action F → Journal F
  | .configure _ tm source lvl file _ => match file with
    | none => {j with log_level := clamp lvl}
    | some (f,.opened) => {j with log_level := clamp lvl,current := some f,closed := false,streams := j.streams+1}
    | some (_,.failed err) => Journal.log {j with log_level := clamp lvl} tm (failure source err)
  | .logging _ tm c => j.log tm c
  | .destroy => if j.current.isSome then {j with closed := true,streams := j.streams-1} else j

def journal (j : Journal F) (actions : List (Action F)) : Journal F := actions.foldl Journal.step j

-- A line that is not suppressed must fit, and where there is a log its stream must not be closed.
def Journal.Prints (j : Journal F) (tm : Tm) (c : Call) : Prop :=
  c.lvl.value < j.log_level ∨ Fits tm c ∧ (j.current.isSome → j.closed = false)

def Journal.Proper (j : Journal F) : Action F → Prop
  | .configure _ tm source lvl (some (_,.failed err)) _ => Journal.Prints {j with log_level := clamp lvl} tm (failure source err)
  | .configure .. => True
  | .logging _ tm c => j.Prints tm c
  | .destroy => j.current.isSome → j.closed = false

structure Represents (s : State F) (j : Journal F) : Prop where
  level : s.log_level = j.log_level
  severe : j.log_level ≤ Level.error.value
  files : s.files = j.files
  count : s.streams.blocks.length = j.streams
  none : j.current = none → s.log_stream = none
  some : ∀ f, j.current = some f → ∃ a, s.log_stream = some a ∧
    (j.closed = false → (a,f) ∈ s.streams.blocks) ∧ (j.closed = true → ¬ s.streams.Live a)

omit [DecidableEq F] in
theorem start_represents (files : F → List UInt8) : Represents (.start files) (.start files) where
  level := rfl
  severe := show Level.info.value ≤ Level.error.value by decide
  files := rfl
  count := rfl
  none := fun _ => rfl
  some := fun f none => by cases none

variable {s t : State F} {j : Journal F}

theorem print_append (s : State F) (one two : List (Stream × List UInt8)) :
    s.print (one ++ two) = (s.print one).bind (·.print two) := by
  induction one generalizing s with
  | nil => rfl
  | cons line rest ih =>
      simp only [List.cons_append,State.print,Option.bind_eq_bind,Option.bind_assoc]
      congr 1
      funext s
      exact ih s

-- What goes to the console goes through, and changes nothing else.
theorem emit_console (s : State F) (lvl : Level) (text : List UInt8) :
    ∃ console, s.print (emit s.settings lvl text) =
      State.print {s with console} (if s.log_stream.isSome then [(Stream.log,text)] else []) := by
  obtain ⟨enabled,log_level,log_stream,streams,files,console⟩ := s
  unfold emit
  rw [print_append]
  cases enabled with
  | false => exact ⟨console,rfl⟩
  | true =>
      by_cases warns : Level.warn.value ≤ lvl.value
      · refine ⟨console ++ [(.stderr,text)],?_⟩
        rw [if_pos warns]
        rfl
      · refine ⟨console ++ [(.stdout,text)],?_⟩
        rw [if_neg warns]
        rfl

-- A line that is not suppressed.
theorem emit_represents (represents : Represents s j) (loud : ¬ c.lvl.value < j.log_level) (tm : Tm) :
    ((j.current.isSome → j.closed = false) →
      ∃ t, s.print (emit s.settings c.lvl (line tm c)) = some t ∧ Represents t (j.log tm c)) ∧
    (¬ (j.current.isSome → j.closed = false) → s.print (emit s.settings c.lvl (line tm c)) = none) := by
  obtain ⟨console,printed⟩ := emit_console s c.lvl (line tm c)
  obtain ⟨level,severe,files,count,without,within⟩ := represents
  rw [printed]
  unfold Journal.log
  rw [if_neg loud]
  cases current : j.current with
  | none =>
      rw [without current]
      refine ⟨fun _ => ⟨_,rfl,⟨level,severe,files,count,fun _ => rfl,fun f same => ?_⟩⟩,fun wrong => ?_⟩
      · cases current.symm.trans same
      · exact absurd (fun none => by cases none) wrong
  | some f =>
      obtain ⟨a,stream,opened,dead⟩ := within f current
      simp only [stream,Option.isSome_some,if_true,State.print,State.fputs,Option.bind_eq_bind,Option.bind_some]
      cases closed : j.closed with
      | false =>
          have here := opened closed
          rw [Heap.what_member here]
          refine ⟨fun _ => ⟨_,rfl,⟨level,severe,?_,count,fun none => ?_,fun g same => ?_⟩⟩,fun wrong => absurd (fun _ => rfl) wrong⟩
          · simp only [files]
          · cases none
          · cases same
            exact ⟨a,rfl,fun _ => here,(fun wrong => by cases wrong)⟩
      | true =>
          rw [Heap.what_dead (dead closed)]
          exact ⟨fun clear => absurd (clear trivial) (by simp),fun _ => rfl⟩

theorem logging_overruns (s : Settings) (content : Block) (tm : Tm) (loud : ¬ c.lvl.value < s.log_level) (long : ¬ Fits tm c) :
    Log.logging s content tm c = none := by
  rw [Log.logging,if_neg loud]
  cases built : compose content tm c with
  | none => rfl
  | some buffer => exact absurd (compose_inside built) long

theorem logging_represents (represents : Represents s j) (content : Block) (tm : Tm) (c : Call) :
    (j.Prints tm c → ∃ t, (Log.logging s.settings content tm c).bind s.print = some t ∧ Represents t (j.log tm c)) ∧
    (¬ j.Prints tm c → (Log.logging s.settings content tm c).bind s.print = none) := by
  have level : s.settings.log_level = j.log_level := represents.level
  by_cases below : c.lvl.value < j.log_level
  · have quiet : Log.logging s.settings content tm c = some [] := logging_suppressed content tm (by rwa [level])
    have same : j.log tm c = j := if_pos below
    rw [quiet,same]
    exact ⟨fun _ => ⟨s,rfl,represents⟩,fun wrong => absurd (.inl below) wrong⟩
  · have loud : ¬ c.lvl.value < s.settings.log_level := by rwa [level]
    by_cases fits : Fits tm c
    · obtain ⟨text,plain,logged⟩ := logging_whole s.settings content loud fits
      have same : text = line tm c := by rw [line,plain]; rfl
      rw [logged,same]
      obtain ⟨prints,fails⟩ := emit_represents represents below tm
      refine ⟨fun proper => prints (fun current => ?_),fun wrong => fails (fun clear => wrong (.inr ⟨fits,clear⟩))⟩
      rcases proper with suppressed | ⟨_,clear⟩
      · exact absurd suppressed below
      · exact clear current
    · rw [logging_overruns s.settings content tm loud fits]
      refine ⟨fun proper => ?_,fun _ => rfl⟩
      rcases proper with suppressed | ⟨fits',_⟩
      · exact absurd suppressed below
      · exact absurd fits' fits

theorem clamp_severe (lvl : Int) : clamp lvl ≤ Level.error.value := by
  unfold clamp
  have order : Level.debug.value ≤ Level.error.value := by decide
  split
  · exact Int.le_refl _
  · split <;> omega

omit [DecidableEq F] in
theorem configure_represents (represents : Represents s j) (lvl : Int) (console : Bool) :
    Represents {s with enable_console := console,log_level := clamp lvl} {j with log_level := clamp lvl} where
  level := rfl
  severe := clamp_severe lvl
  files := represents.files
  count := represents.count
  none := represents.none
  some := represents.some

omit [DecidableEq F] in
theorem opened_represents (represents : Represents s j) (alloc : Allocator F) (lvl : Int) (console : Bool) (f : F) :
    Represents ⟨console,clamp lvl,some (alloc.place s.streams),s.streams.malloc alloc f,s.files,s.console⟩
      {j with log_level := clamp lvl,current := some f,closed := false,streams := j.streams+1} where
  level := rfl
  severe := clamp_severe lvl
  files := represents.files
  count := by rw [← represents.count]; rfl
  none := fun none => by cases none
  some := fun g same => by
    cases same
    exact ⟨_,rfl,fun _ => List.mem_cons_self,fun closed => by cases closed⟩

theorem closed_represents (represents : Represents s j) (current : j.current = some f) (here : j.closed = false) :
    ∃ a streams, s.log_stream = some a ∧ s.streams.free a = some streams ∧
      Represents {s with streams} {j with closed := true,streams := j.streams-1} := by
  obtain ⟨a,stream,opened,_⟩ := represents.some f current
  have holds : s.streams.Holds ((a,f) :: s.streams.blocks.erase (a,f)) := List.perm_cons_erase (opened here)
  obtain ⟨streams,freed,left⟩ := holds.free
  refine ⟨a,streams,stream,freed,represents.level,represents.severe,represents.files,?_,fun none => ?_,fun g same => ?_⟩
  · have before := List.Perm.length_eq holds
    have after := List.Perm.length_eq left
    have count := represents.count
    rw [List.length_cons] at before
    dsimp only
    omega
  · cases current.symm.trans none
  · exact ⟨a,stream,(fun wrong => by cases wrong),fun _ => Heap.free_dead freed⟩

theorem step_represents (alloc : Allocator F) (represents : Represents s j) (a : Action F) :
    (j.Proper a → ∃ t, step alloc s a = some t ∧ Represents t (j.step a)) ∧ (¬ j.Proper a → step alloc s a = none) := by
  cases a with
  | configure content tm source lvl file console =>
      cases file with
      | none => exact ⟨fun _ => ⟨_,rfl,configure_represents represents lvl console⟩,fun wrong => absurd trivial wrong⟩
      | some file =>
          obtain ⟨f,opening⟩ := file
          cases opening with
          | opened => exact ⟨fun _ => ⟨_,rfl,opened_represents represents alloc lvl console f⟩,fun wrong => absurd trivial wrong⟩
          | failed err =>
              have same : step alloc s (.configure content tm source lvl (some (f,.failed err)) console) =
                  (Log.logging (State.settings {s with enable_console := console,log_level := clamp lvl}) content tm
                    (failure source err)).bind (State.print {s with enable_console := console,log_level := clamp lvl}) := by
                simp only [step,configureLog,Option.map_some,Option.bind_eq_bind]
                exact Option.bind_map ..
              rw [same]
              exact logging_represents (configure_represents represents lvl console) content tm (failure source err)
  | logging content tm c => exact logging_represents represents content tm c
  | destroy =>
      cases current : j.current with
      | none =>
          have taken : step alloc s .destroy = some s := by simp only [step,represents.none current]
          have same : j.step .destroy = j := by simp [Journal.step,current]
          rw [taken,same]
          refine ⟨fun _ => ⟨s,rfl,represents⟩,fun wrong => absurd (fun there => ?_) wrong⟩
          rw [current] at there
          cases there
      | some f =>
          cases closed : j.closed with
          | false =>
              obtain ⟨a,streams,stream,freed,after⟩ := closed_represents represents current closed
              have taken : step alloc s .destroy = some {s with streams} := by simp only [step,stream,freed,Option.map_some]
              have same : j.step .destroy = {j with closed := true,streams := j.streams-1} := by simp [Journal.step,current]
              rw [taken,same]
              exact ⟨fun _ => ⟨_,rfl,after⟩,fun wrong => absurd (fun _ => closed) wrong⟩
          | true =>
              obtain ⟨a,stream,_,dead⟩ := represents.some f current
              have refused : s.streams.free a = none := if_neg (dead closed)
              have stuck : step alloc s .destroy = none := by simp only [step,stream,refused,Option.map_none]
              rw [stuck]
              refine ⟨fun proper => ?_,fun _ => rfl⟩
              have clear := proper (by rw [current]; rfl)
              cases closed.symm.trans clear

-- Over any calls in any order.
theorem run_represents (alloc : Allocator F) (represents : Represents s j) (actions : List (Action F)) :
    ((∃ t, Sequence (step alloc) s actions t) ↔
      ∀ before a after, actions = before ++ a :: after → (journal j before).Proper a) ∧
    ∀ t, Sequence (step alloc) s actions t → Represents t (journal j actions) := by
  induction actions generalizing s j with
  | nil =>
      refine ⟨⟨fun _ before a after same => ?_,fun _ => ⟨s,.nil⟩⟩,fun t path => ?_⟩
      · cases before <;> cases same
      · cases path
        exact represents
  | cons first rest ih =>
      obtain ⟨goes,fails⟩ := step_represents alloc represents first
      by_cases proper : j.Proper first
      · obtain ⟨middle,taken,onward⟩ := goes proper
        obtain ⟨whole,later⟩ := ih onward
        refine ⟨⟨fun ⟨t,path⟩ before a after same => ?_,fun each => ?_⟩,fun t path => ?_⟩
        · cases before with
          | nil =>
              cases same
              exact proper
          | cons b before =>
              cases same
              cases path with
              | cons taken' path =>
                  cases taken.symm.trans taken'
                  exact whole.mp ⟨t,path⟩ before a after rfl
        · obtain ⟨t,path⟩ := whole.mpr (fun before a after same => each (first :: before) a after (by rw [same]; rfl))
          exact ⟨t,.cons taken path⟩
        · cases path with
          | cons taken' path =>
              cases taken.symm.trans taken'
              exact later t path
      · have stuck := fails proper
        refine ⟨⟨fun ⟨t,path⟩ => ?_,fun each => absurd (each [] first rest rfl) proper⟩,fun t path => ?_⟩
        · cases path with
          | cons taken _ => cases stuck.symm.trans taken
        · cases path with
          | cons taken _ => cases stuck.symm.trans taken

theorem log_exact (alloc : Allocator F) (files : F → List UInt8) (actions : List (Action F)) :
    ((∃ t, Sequence (step alloc) (.start files) actions t) ↔
      ∀ before a after, actions = before ++ a :: after → (journal (.start files) before).Proper a) ∧
    ∀ t, Sequence (step alloc) (.start files) actions t →
      t.files = (journal (.start files) actions).files ∧
      t.streams.blocks.length = (journal (.start files) actions).streams := by
  obtain ⟨runs,ends⟩ := run_represents alloc (start_represents files) actions
  exact ⟨runs,fun t path => ⟨(ends t path).files,(ends t path).count⟩⟩

end Streams

end PersonalJournal.LogStream
