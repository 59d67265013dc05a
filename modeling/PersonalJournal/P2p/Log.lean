import PersonalJournal.Lib.Formatting

namespace PersonalJournal.Log
open Bytes Formatting

-- enum _log_level
inductive Level where
  | debug
  | info
  | notice
  | warn
  | error
  | fatal
  deriving DecidableEq

def Level.value : Level → Int
  | .debug => 0
  | .info => 1
  | .notice => 2
  | .warn => 3
  | .error => 4
  | .fatal => 5

-- LEVEL_NAMES
def Level.name : Level → List UInt8
  | .debug => literal "DEBUG"
  | .info => literal "INFO"
  | .notice => literal "NOTICE"
  | .warn => literal "WARN"
  | .error => literal "ERROR"
  | .fatal => literal "FATAL"

-- struct tm, as localtime fills it.
structure Tm where
  tm_year : Int32
  tm_mon : Fin 12
  tm_mday : Fin 32
  tm_hour : Fin 24
  tm_min : Fin 60
  tm_sec : Fin 61

inductive Stream where
  | stdout
  | stderr
  | log
  deriving DecidableEq

-- The static variables of log.c; `log_stream` tells whether it is not NULL.
structure Settings where
  enable_console : Bool
  log_stream : Bool
  log_level : Int

-- One call of logging, its format applied to its arguments already.
structure Call where
  lvl : Level
  file : List UInt8
  func : List UInt8
  line : Int32
  message : List UInt8

def bufferSize : Nat := 512

-- %Y
def year (tm : Tm) : List UInt8 := decimal (1900+tm.tm_year.toInt)

-- "[%Y-%m-%d %H:%M:%S]"
def timestamp (tm : Tm) : List UInt8 :=
  literal "[" ++ year tm ++ literal "-" ++ twoDigits (tm.tm_mon+1) ++ literal "-" ++ twoDigits tm.tm_mday ++ literal " " ++
    twoDigits tm.tm_hour ++ literal ":" ++ twoDigits tm.tm_min ++ literal ":" ++ twoDigits tm.tm_sec ++ literal "]"

-- "[%6s][%s:%d][%s] "
def header (c : Call) : List UInt8 :=
  literal "[" ++ padded 6 c.lvl.name ++ literal "][" ++ c.file ++ literal ":" ++ decimal c.line.toInt ++ literal "][" ++
    c.func ++ literal "] "

-- `buffer`, which holds anything at first, when the line has been put together; `none` where
-- something is written outside it.
def compose (content : Block) (tm : Tm) (c : Call) : Option (List UInt8) := do
  let buffer := (List.range bufferSize).map content
  let cap : Int := bufferSize
  let (buffer,size) ← strftime buffer 0 (sizeT cap) (timestamp tm)
  let ptr := size
  let cap := cap-size
  let (buffer,size) ← snprintf buffer ptr (sizeT cap) (header c)
  let ptr := ptr+size
  let cap := cap-size
  let (buffer,size) ← snprintf buffer ptr (sizeT cap) c.message
  let buffer ← store buffer (ptr+size) 10
  store buffer (ptr+size+1) 0

-- The calls of fputs, in order.
def emit (s : Settings) (lvl : Level) (text : List UInt8) : List (Stream × List UInt8) :=
  (if s.enable_console then [(if Level.warn.value ≤ lvl.value then Stream.stderr else Stream.stdout,text)] else []) ++
    if s.log_stream then [(Stream.log,text)] else []

def logging (s : Settings) (content : Block) (tm : Tm) (c : Call) : Option (List (Stream × List UInt8)) :=
  if c.lvl.value < s.log_level then some []
  else do
    let buffer ← compose content tm c
    let text ← string buffer
    return emit s c.lvl text

def composed (tm : Tm) (c : Call) : List UInt8 := timestamp tm ++ header c ++ c.message

-- Nothing is written outside `buffer`, and what the streams get is the string that starts with a
-- part of timestamp, header and message, a newline and a NUL.
def Contained (s : Settings) (content : Block) (tm : Tm) (c : Call) : Prop :=
  ∃ emitted, logging s content tm c = some emitted ∧
    ∀ stream text, (stream,text) ∈ emitted →
      ∃ front, front <+: composed tm c ∧ string (front ++ [10,0]) = some text

-- The static variables as they start.
def Settings.start : Settings := ⟨true,false,Level.info.value⟩

-- What fopen answers, with the text of strerror(errno) when it fails.
inductive Opening where
  | opened
  | failed (err : List UInt8)

-- `source` is __FILE__; `file` is none for NULL.
def configureLog (s : Settings) (content : Block) (tm : Tm) (source : List UInt8) (lvl : Int) (file : Option Opening)
    (use_console : Bool) : Option (Int × Settings × List (Stream × List UInt8)) :=
  let lvl := if lvl > Level.error.value then Level.error.value
    else if lvl < Level.debug.value then Level.debug.value else lvl
  let s := {s with log_level := lvl,enable_console := use_console}
  match file with
  | none => some (0,s,[])
  | some .opened => some (0,{s with log_stream := true},[])
  | some (.failed err) =>
      (logging s content tm ⟨.error,source,literal "configure_log",28,literal "error opening log file, err: " ++ err⟩).map
        (1,s,·)

-- The settings that calls of configure_log lead to.
inductive Reached : Settings → Prop where
  | start : Reached .start
  | configured : Reached s → configureLog s content tm source lvl file console = some (res,after,emitted) → Reached after

theorem name_short (lvl : Level) : lvl.name.length ≤ 6 := by cases lvl <;> decide

theorem header_length (c : Call) :
    (header c).length = 14+c.file.length+(decimal c.line.toInt).length+c.func.length := by
  have level := padded_length (name_short c.lvl)
  simp only [header,List.length_append,level,show (literal "[").length = 1 from rfl,show (literal "][").length = 2 from rfl,
    show (literal ":").length = 1 from rfl,show (literal "] ").length = 2 from rfl]
  omega

example : header ⟨.info,literal "log.c",literal "main",12,[]⟩ = literal "[  INFO][log.c:12][main] " := rfl

theorem timestamp_length (tm : Tm) : (timestamp tm).length = 17+(year tm).length := by
  simp only [timestamp,List.length_append,twoDigits_length,show (literal "[").length = 1 from rfl,
    show (literal "-").length = 1 from rfl,show (literal " ").length = 1 from rfl,show (literal ":").length = 1 from rfl,
    show (literal "]").length = 1 from rfl]
  omega

theorem year_short (tm : Tm) : (year tm).length ≤ 11 := by
  apply decimal_length _ 10 (by decide)
  have low := Int32.le_toInt tm.tm_year
  have high := Int32.toInt_lt tm.tm_year
  omega

theorem timestamp_fits (tm : Tm) : (timestamp tm).length < bufferSize := by
  have short := year_short tm
  rw [timestamp_length,bufferSize]
  omega

def Fits (tm : Tm) (c : Call) : Prop := (composed tm c).length+2 ≤ bufferSize

-- The last two octets are stored behind the whole line, whatever part of it was written.
theorem compose_inside (built : compose content tm c = some buffer) : Fits tm c := by
  simp only [compose,Option.bind_eq_bind,Option.bind_eq_some_iff] at built
  obtain ⟨⟨stamped,size⟩,first,⟨headed,size'⟩,second,⟨full,size''⟩,third,ended,fourth,last⟩ := built
  have whole : (timestamp tm).length < sizeT bufferSize := timestamp_fits tm
  obtain ⟨one,rfl⟩ := strftime_returns first whole
  obtain ⟨two,rfl⟩ := snprintf_returns second
  obtain ⟨three,rfl⟩ := snprintf_returns third
  obtain ⟨_,four⟩ := store_length fourth
  obtain ⟨inside,_⟩ := store_length last
  rw [four,three,two,one,List.length_map,List.length_range] at inside
  rw [Fits,composed,List.length_append,List.length_append]
  omega

-- The line stands at the start of `buffer` when it fits.
theorem compose_whole (content : Block) (fits : Fits tm c) :
    ∃ rest, compose content tm c = some (composed tm c ++ [10,0] ++ rest) := by
  rw [Fits,composed,List.length_append,List.length_append,bufferSize] at fits
  have size : ((List.range bufferSize).map content).length = 512 := by rw [List.length_map,List.length_range,bufferSize]
  obtain ⟨rest,stamped,left⟩ := strftime_whole [] ((List.range bufferSize).map content) (timestamp tm)
    (n:=sizeT bufferSize) (by omega) size.symm
  obtain ⟨rest',headed,left'⟩ := snprintf_whole (timestamp tm) rest (header c)
    (n:=sizeT (bufferSize-(timestamp tm).length)) (by omega)
    (by rw [bufferSize,sizeT_small (by omega) (by omega)]; omega)
  obtain ⟨rest'',full,left''⟩ := snprintf_whole (timestamp tm ++ header c) rest' c.message
    (n:=sizeT (bufferSize-(timestamp tm).length-(header c).length)) (by omega)
    (by rw [bufferSize,sizeT_small (by omega) (by omega)]; omega)
  have place : (composed tm c).length = (timestamp tm).length+(header c).length+c.message.length := by
    rw [composed,List.length_append,List.length_append]
  have ended := store_behind (composed tm c) rest'' 10 (by omega)
  have closed := store_behind (composed tm c ++ [10]) rest''.tail 0 (by rw [List.length_tail]; omega)
  rw [List.length_append,List.length_singleton,place,List.append_assoc,List.singleton_append] at closed
  rw [place] at ended
  rw [List.length_append] at full
  rw [← composed] at full
  refine ⟨rest''.tail.tail,?_⟩
  simp only [List.nil_append,List.length_nil] at stamped
  simp only [compose,Option.bind_eq_bind,stamped,Option.bind_some,headed,full,ended,closed]
  simp only [List.append_assoc,List.cons_append,List.nil_append]

theorem logging_suppressed (content : Block) (tm : Tm) (below : c.lvl.value < s.log_level) :
    logging s content tm c = some [] := if_pos below

theorem emit_text (member : (stream,text) ∈ emit s lvl line) : text = line := by
  rcases List.mem_append.mp member with console | file
  · split at console
    · cases List.mem_singleton.mp console
      rfl
    · cases console
  · split at file
    · cases List.mem_singleton.mp file
      rfl
    · cases file

theorem logging_whole (s : Settings) (content : Block) (loud : ¬ c.lvl.value < s.log_level) (fits : Fits tm c) :
    ∃ line, string (composed tm c ++ [10,0]) = some line ∧ logging s content tm c = some (emit s c.lvl line) := by
  obtain ⟨rest,built⟩ := compose_whole content fits
  have closed : 0 ∈ composed tm c ++ [10,0] := List.mem_append_right _ (by decide)
  have same := string_front closed rest
  rw [string_takeWhile closed] at same
  refine ⟨_,string_takeWhile closed,?_⟩
  rw [logging,if_neg loud,built]
  simp only [Option.bind_eq_bind,Option.bind_some,same]
  rfl

theorem contained_exact (s : Settings) (content : Block) (tm : Tm) (c : Call) :
    Contained s content tm c ↔ c.lvl.value < s.log_level ∨ Fits tm c := by
  constructor
  · intro ⟨emitted,logged,_⟩
    by_cases below : c.lvl.value < s.log_level
    · exact .inl below
    · right
      rw [logging,if_neg below] at logged
      obtain ⟨buffer,built,_⟩ := Option.bind_eq_some_iff.mp logged
      exact compose_inside built
  · intro either
    by_cases below : c.lvl.value < s.log_level
    · refine ⟨[],logging_suppressed content tm below,?_⟩
      intro _ _ member
      cases member
    · rcases either with suppressed | fits
      · exact absurd suppressed below
      · obtain ⟨line,text,logged⟩ := logging_whole s content below fits
        refine ⟨_,logged,?_⟩
        intro stream other member
        rw [emit_text member]
        exact ⟨composed tm c,List.prefix_refl _,text⟩

-- What is left of the array for the parts of the line that vary.
theorem fits_exact (tm : Tm) (c : Call) : Fits tm c ↔
    (year tm).length+c.file.length+(decimal c.line.toInt).length+c.func.length+c.message.length ≤ 479 := by
  rw [Fits,composed,List.length_append,List.length_append,timestamp_length,header_length,bufferSize]
  omega

theorem line_contained (s : Settings) (content : Block) (tm : Tm) (c : Call) :
    Contained s content tm c ↔ c.lvl.value < s.log_level ∨
      (year tm).length+c.file.length+(decimal c.line.toInt).length+c.func.length+c.message.length ≤ 479 := by
  rw [← fits_exact]
  exact contained_exact s content tm c

-- A line without a NUL comes out whole.
theorem logging_plain (s : Settings) (content : Block) (loud : ¬ c.lvl.value < s.log_level) (fits : Fits tm c)
    (clear : 0 ∉ composed tm c) : logging s content tm c = some (emit s c.lvl (composed tm c ++ [10])) := by
  obtain ⟨line,text,logged⟩ := logging_whole s content loud fits
  have clear' : 0 ∉ composed tm c ++ [10] := by
    intro member
    rcases List.mem_append.mp member with inside | newline
    · exact clear inside
    · cases List.mem_singleton.mp newline
  have plain := string_clear clear'
  rw [List.append_assoc,List.singleton_append] at plain
  cases text.symm.trans plain
  exact logged

theorem configured_level (configured : configureLog s content tm source lvl file console = some (res,after,emitted)) :
    Level.debug.value ≤ after.log_level ∧ after.log_level ≤ Level.error.value := by
  have level : after.log_level = if lvl > Level.error.value then Level.error.value
      else if lvl < Level.debug.value then Level.debug.value else lvl := by
    cases file with
    | none =>
        cases configured
        rfl
    | some opening =>
        cases opening with
        | opened =>
            cases configured
            rfl
        | failed err =>
            obtain ⟨lines,_,same⟩ := Option.map_eq_some_iff.mp configured
            cases same
            rfl
  rw [level]
  by_cases high : lvl > Level.error.value
  · rw [if_pos high]
    decide
  · rw [if_neg high]
    by_cases low : lvl < Level.debug.value
    · rw [if_pos low]
      decide
    · rw [if_neg low]
      omega

theorem reached_level (reached : Reached s) : Level.debug.value ≤ s.log_level ∧ s.log_level ≤ Level.error.value := by
  cases reached with
  | start => decide
  | configured _ configured => exact configured_level configured

-- No configuration suppresses an error, so that a long one always runs over the end of `buffer`.
theorem errors_contained (reached : Reached s) (content : Block) (tm : Tm) (severe : Level.error.value ≤ c.lvl.value) :
    Contained s content tm c ↔ Fits tm c := by
  have level := (reached_level reached).2
  rw [contained_exact]
  constructor
  · intro either
    rcases either with below | fits
    · omega
    · exact fits
  · exact .inr

def noon : Tm := ⟨114,0,1,12,0,0⟩

-- A message of 512 octets.
def longMessage : Call :=
  ⟨.error,literal "p2p_transfer_server.c",literal "main",345,List.replicate 512 97⟩

theorem long_message_overruns : ¬ Contained .start (fun _ => 0) noon longMessage := by
  rw [errors_contained .start _ _ (by decide),fits_exact]
  decide +kernel

end PersonalJournal.Log
