import LiveFormula.Number.Text
import LiveFormula.Text.Quoted

/-!
# Log events

Model of the calls of the loggers in all modules of `livexpr`.

What happens during the work is logged as events. An event has a level, a channel and a message, and
is shown if its level is at least that of the verbosity.
-/

set_option autoImplicit false

namespace LiveFormula

inductive Level
  | debug
  | info
  | warning
  | error
  deriving DecidableEq, Repr

namespace Level

def name : Level → String
  | debug => "DEBUG"
  | info => "INFO"
  | warning => "WARNING"
  | error => "ERROR"

/-- The name in five characters. -/
def label : Level → String
  | debug => "DEBUG"
  | info => "INFO "
  | warning => "WARNI"
  | error => "ERROR"

def rank : Level → Nat
  | debug => 0
  | info => 1
  | warning => 2
  | error => 3

/-- The least level that is shown. -/
def ofVerbosity : Nat → Level
  | 0 => warning
  | 1 => info
  | _ => debug

end Level

/-- The parts of the program that log. -/
inductive Channel
  | main
  | reading
  | encoding
  | handOff
  | running
  deriving DecidableEq, Repr

def Channel.name : Channel → String
  | main => "livexpr"
  | reading => "livexpr.parser"
  | encoding => "livexpr.codegen"
  | handOff => "livexpr.bridge"
  | running => "livexpr.runtime"

inductive Event
  /-- Reading stopped in the middle of a formula. -/
  | noMatch (offset : Nat) (text : String)
  /-- Reading stopped after a complete formula. -/
  | trailing (offset : Nat) (text : String)
  /-- A tree was encoded. -/
  | encoded (words : Nat)
  /-- A program replaced another one that was still waiting. -/
  | discarded
  /-- The program of a line is waiting. -/
  | staged (words : Nat) (text : String)
  /-- A line has no program. -/
  | rejectedLine (text message code : String)
  /-- All lines were read. -/
  | inputClosed (accepted failed : Nat)
  /-- A program that was waiting was not accepted. -/
  | rejectedProgram (message : String)
  /-- A program was installed. -/
  | installed (generation words : Nat)
  /-- The frames began. -/
  | loopStarted (interval : Double)
  /-- The frames ended. -/
  | loopStopped (frames : Nat)
  /-- A frame failed. -/
  | frameFailed (frame : Nat)
  /-- A failure was reported to the user. -/
  | reported (code message : String)
  /-- A formula was printed. -/
  | parsed (nodes : Nat)
  /-- A program was written. -/
  | compiled (words : Nat)
  /-- There is nowhere to write to. -/
  | outputRefused (path reason : String)
  /-- There is nothing to read from. -/
  | inputRefused (path reason : String)
  /-- A live session cannot run with its settings. -/
  | badSetting (problem : String)
  /-- A live session ended. -/
  | sessionFinished (programs frames : Nat)
  /-- Something failed that nothing takes care of. -/
  | unhandled (reason : String)
  deriving DecidableEq, Repr

namespace Event

def level : Event → Level
  | noMatch .. => .debug
  | trailing .. => .debug
  | encoded _ => .debug
  | discarded => .debug
  | staged .. => .debug
  | rejectedLine .. => .warning
  | inputClosed .. => .info
  | rejectedProgram _ => .error
  | installed .. => .info
  | loopStarted _ => .debug
  | loopStopped _ => .debug
  | frameFailed _ => .error
  | reported .. => .debug
  | parsed _ => .info
  | compiled _ => .info
  | outputRefused .. => .error
  | inputRefused .. => .error
  | badSetting _ => .warning
  | sessionFinished .. => .info
  | unhandled _ => .error

def channel : Event → Channel
  | noMatch .. => .reading
  | trailing .. => .reading
  | encoded _ => .encoding
  | discarded => .handOff
  | staged .. => .handOff
  | rejectedLine .. => .handOff
  | inputClosed .. => .handOff
  | rejectedProgram _ => .handOff
  | installed .. => .running
  | loopStarted _ => .running
  | loopStopped _ => .running
  | frameFailed _ => .running
  | _ => .main

def message : Event → String
  | noMatch offset text => "No match at offset " ++ toString offset ++ " in " ++ Text.quote text
  | trailing offset text =>
    "Trailing input at offset " ++ toString offset ++ " in " ++ Text.quote text
  | encoded words => "Encoded " ++ toString words ++ " word(s)"
  | discarded => "Discarded a staged program that was never installed"
  | staged words text => "Staged " ++ toString words ++ " word(s) for " ++ Text.quote text
  | rejectedLine text message code =>
    "Rejected " ++ Text.quote text ++ ": " ++ message ++ " [" ++ code ++ "]"
  | inputClosed accepted failed =>
    "Input closed: " ++ toString accepted ++ " program(s) staged, " ++ toString failed ++ " rejected"
  | rejectedProgram message => "Evaluator rejected program: " ++ message
  | installed generation words =>
    "Installed program #" ++ toString generation ++ " (" ++ toString words ++ " word(s))"
  | loopStarted interval => "Render loop started (interval " ++ interval.fixed 4 ++ "s)"
  | loopStopped frames => "Render loop stopped after " ++ toString frames ++ " frame(s)"
  | frameFailed frame => "Render iteration " ++ toString frame ++ " failed"
  | reported code message => code ++ ": " ++ message
  | parsed nodes => "Parsed " ++ toString nodes ++ " node(s)"
  | compiled words => "Compiled " ++ toString words ++ " word(s)"
  | outputRefused path reason => "Cannot open output " ++ path ++ ": " ++ reason
  | inputRefused path reason => "Cannot open input " ++ path ++ ": " ++ reason
  | badSetting problem => "RuntimeConfig: " ++ problem
  | sessionFinished programs frames =>
    "Session finished: " ++ toString programs ++ " program(s) installed over " ++
      toString frames ++ " frame(s)"
  | unhandled reason => "Unhandled exception: " ++ reason

/-- Level, channel and message in one record. -/
def record (e : Event) : String := e.level.name ++ " " ++ e.channel.name ++ ": " ++ e.message

/-- The line that is shown. -/
def line (e : Event) : String :=
  "[" ++ e.level.label ++ "] " ++ e.channel.name ++ ": " ++ e.message ++ "\n"

/-- Whether the event is shown. -/
def isShown (verbosity : Nat) (e : Event) : Bool :=
  (Level.ofVerbosity verbosity).rank ≤ e.level.rank

end Event

/-- What the work does to the world: it logs, it writes diagnostics, and it writes output. -/
inductive Effect
  | log (event : Event)
  | diagnostic (text : String)
  | output (text : String)
  | bytes (content : List UInt8)
  deriving DecidableEq, Repr

namespace Effect

def event? : Effect → Option Event
  | log e => some e
  | _ => none

/-- What goes to the standard output. -/
def outputBytes : Effect → List UInt8
  | output text => text.toUTF8.toList
  | bytes content => content
  | _ => []

/-- What goes to the standard error. -/
def errorText (verbosity : Nat) : Effect → String
  | log e => if e.isShown verbosity then e.line else ""
  | diagnostic text => text
  | _ => ""

/-- The events in order. -/
def events (effects : List Effect) : List Event := effects.filterMap event?

/-- The text of a diagnostic. -/
@[simp] def diagnosticText : Effect → String
  | diagnostic text => text
  | log _ | output _ | bytes _ => ""

/-- The text of an output. -/
@[simp] def outputText : Effect → String
  | output text => text
  | log _ | diagnostic _ | bytes _ => ""

/-- The texts of all effects in order. -/
def joined (text : Effect → String) (effects : List Effect) : String :=
  String.join (effects.map text)

/-- The diagnostics in order. -/
abbrev diagnostics (effects : List Effect) : String := joined diagnosticText effects

/-- The text of the output in order. -/
abbrev outputs (effects : List Effect) : String := joined outputText effects

section Joined

variable {text : Effect → String}

@[simp] theorem joined_nil : joined text [] = "" := rfl

@[simp] theorem joined_cons (effect : Effect) (effects : List Effect) :
    joined text (effect :: effects) = text effect ++ joined text effects := by
  simp only [joined, List.map_cons, String.join_cons]

@[simp] theorem joined_append (effects more : List Effect) :
    joined text (effects ++ more) = joined text effects ++ joined text more := by
  simp only [joined, List.map_append, String.join_append]

/-- Events alone leave a text empty that is not of events. -/
theorem joined_logs (hlog : ∀ event, text (log event) = "") (events : List Event) :
    joined text (events.map log) = "" := by
  induction events with
  | nil => rfl
  | cons e events ih => rw [List.map_cons, joined_cons, hlog, ih, String.empty_append]

end Joined

@[simp] theorem diagnostics_logs (events : List Event) : diagnostics (events.map log) = "" :=
  joined_logs (fun _ => rfl) events

@[simp] theorem outputs_logs (events : List Event) : outputs (events.map log) = "" :=
  joined_logs (fun _ => rfl) events

@[simp] theorem outputBytes_logs (events : List Event) :
    (events.map log).flatMap outputBytes = [] := by
  induction events with
  | nil => rfl
  | cons e events ih => exact ih

end Effect

end LiveFormula
