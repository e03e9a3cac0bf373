import LiveFormula.Log
import LiveFormula.Program.Report
import LiveFormula.Text.Lines

/-!
# Sessions

Model of `livexpr.bridge`: `ProgramSlot`, `ProgramProducer` and `ProgramConsumer`.

A session connects the reader of formulas with the evaluator through a slot. The reader compiles each
line and stages its program, or reports the failure and goes on. The evaluator's side polls: it takes
the program that waits, if there is one, and installs it. A program that is staged while another one
waits in the slot replaces it; taking empties the slot.

Every operation gives the session after it, its own result and its effects in order.
-/

set_option autoImplicit false

namespace LiveFormula

/-- Holds at most one program that waits to be installed. -/
structure Slot where
  waiting : Option Program
  deriving DecidableEq, Repr

namespace Slot

def empty : Slot := ⟨none⟩

/-- Whether a program waits. -/
def pending (s : Slot) : Bool := s.waiting.isSome

/-- Stages a program, and says whether it replaced another one. -/
def stage (s : Slot) (p : Program) : Slot × Bool := (⟨some p⟩, s.pending)

/-- Takes the program that waits. -/
def take (s : Slot) : Slot × Option Program := (⟨none⟩, s.waiting)

end Slot

structure Session where
  slot : Slot
  evaluator : Evaluator
  /-- The lines whose programs were staged. -/
  staged : Nat
  /-- The lines that were rejected. -/
  failed : Nat
  /-- The programs that were installed by polling. -/
  polled : Nat
  deriving DecidableEq, Repr

/-- What an operation on a session gives. -/
structure Session.Step (α : Type) where
  session : Session
  result : α
  effects : List Effect

/-- What is logged while a text is compiled. -/
def compileEvents (text : String) : Except CompileError Program → List Event
  | .ok p => [.encoded p.length]
  | .error (.parse (.unexpected offset)) => [.noMatch offset text]
  | .error (.parse (.trailing offset)) => [.trailing offset text]
  | .error _ => []

namespace Session

def empty : Session := ⟨.empty, .empty, 0, 0, 0⟩

/-- Stages a program; the result says whether it replaced another one. -/
def stage (s : Session) (p : Program) : Step Bool :=
  let (slot, replaced) := s.slot.stage p
  { session := { s with slot }
    result := replaced
    effects := if replaced then [.log .discarded] else [] }

/-- Takes the program that waits. -/
def take (s : Session) : Step (Option Program) :=
  let (slot, program) := s.slot.take
  { session := { s with slot }, result := program, effects := [] }

/-- Installs a program. -/
def install (s : Session) (p : Program) : Step (Except ProgramError Unit) :=
  match s.evaluator.install p with
  | .ok evaluator =>
    { session := { s with evaluator }
      result := .ok ()
      effects := [.log (.installed evaluator.generation p.length)] }
  | .error e => { session := s, result := .error e, effects := [] }

/-- Installs a program that was taken, and counts it if it was accepted. -/
def deliver (s : Session) (p : Program) : Step (Option Program) :=
  let next := s.install p
  match next.result with
  | .ok _ =>
    { session := { next.session with polled := next.session.polled + 1 }
      result := some p
      effects := next.effects }
  | .error e =>
    { session := next.session, result := none, effects := [.log (.rejectedProgram e.message)] }

/-- Installs the program that waits; the result is the program, if it was accepted. -/
def poll (s : Session) : Step (Option Program) :=
  let taken := s.take
  match taken.result with
  | none => taken
  | some p => taken.session.deliver p

/-- Compiles a line and stages its program, or reports why there is none; the result says which. -/
def feed (s : Session) (line : List Char) : Step Bool :=
  let text := String.ofList (Text.dropLineEnds line)
  let compiled := compile text
  let events := (compileEvents text compiled).map Effect.log
  match compiled with
  | .error e =>
    let report := e.report text
    { session := { s with failed := s.failed + 1 }
      result := false
      effects := events ++ [.log (.rejectedLine text report.message report.code.text),
        .diagnostic (report.render ++ "\n")] }
  | .ok p =>
    let next := s.stage p
    { session := { next.session with staged := next.session.staged + 1 }
      result := true
      effects := events ++ next.effects ++ [.log (.staged p.length text)] }

/-- Asks for a line, unless the prompt is empty. -/
def promptEffects (prompt : String) : List Effect := if prompt.isEmpty then [] else [.output prompt]

/-- Feeds lines one after the other, with a prompt after each. -/
def feedAll (prompt : String) (s : Session) : List (List Char) → Session × List Effect
  | [] => (s, [])
  | line :: lines =>
    let fed := s.feed line
    let (last, effects) := feedAll prompt fed.session lines
    (last, fed.effects ++ promptEffects prompt ++ effects)

/-- What follows the last line. -/
def closeEffects (prompt : String) (s : Session) : List Effect :=
  (if prompt.isEmpty then [] else [.output "\n"]) ++ [.log (.inputClosed s.staged s.failed)]

/-- Feeds all lines of a text; the result is the number of lines staged so far. -/
def run (prompt : String) (s : Session) (text : List Char) : Step Nat :=
  let (last, effects) := feedAll prompt s (Text.lines text)
  { session := last
    result := last.staged
    effects := promptEffects prompt ++ effects ++ closeEffects prompt last }

variable (P : Primitives)

/-- The value of the current program at a point. -/
def evaluate (s : Session) (point : Point) : Step (Except EvalError Double) :=
  { session := s, result := s.evaluator.evaluate P point, effects := [] }

/-- A grid of values of the current program. -/
def sample (s : Session) (t : Double) (width height : Int) :
    Step (Except EvalError (List (List Double))) :=
  { session := s, result := s.evaluator.sample P t width height, effects := [] }

/-- The operations on a session. -/
inductive Operation
  | feed (line : List Char)
  | run (text : List Char)
  | stage (program : Program)
  | take
  | poll
  | install (program : Program)
  | evaluate (point : Point)
  | sample (t : Double) (width height : Int)

/-- The results of the operations. -/
inductive Reply
  | fed (accepted : Bool)
  | ran (staged : Nat)
  | staged (replaced : Bool)
  | taken (program : Option Program)
  | polled (program : Option Program)
  | installed (result : Except ProgramError Unit)
  | evaluated (result : Except EvalError Double)
  | sampled (result : Except EvalError (List (List Double)))

def Step.map {α β : Type} (f : α → β) (s : Step α) : Step β :=
  { session := s.session, result := f s.result, effects := s.effects }

/-- Performs an operation. -/
def perform (prompt : String) (s : Session) : Operation → Step Reply
  | .feed line => (s.feed line).map .fed
  | .run text => (s.run prompt text).map .ran
  | .stage program => (s.stage program).map .staged
  | .take => s.take.map .taken
  | .poll => s.poll.map .polled
  | .install program => (s.install program).map .installed
  | .evaluate point => (s.evaluate P point).map .evaluated
  | .sample t width height => (s.sample P t width height).map .sampled

end Session

end LiveFormula
