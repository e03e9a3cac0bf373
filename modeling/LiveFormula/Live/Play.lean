import LiveFormula.Live.Config
import LiveFormula.Live.Session

/-!
# Live sessions

Model of `livexpr.main.cmd_live`.

A live session installs an opening formula and then takes turns in any order: a line is fed, or a
frame polls and, if a program was installed, prints a preview of it. When all lines are read, one more
frame follows, so that no program is left waiting. `Live.play` is a whole session; one that is carried
out turn by turn goes through `Live.start`, `Live.turns` and `Live.finish`.
-/

set_option autoImplicit false

namespace LiveFormula.Live

/-- A turn of a live session. -/
inductive Turn
  | line (text : List Char)
  | frame (number : Nat) (elapsed : Double)
  deriving DecidableEq, Repr

/-- Compiles, stages and installs the opening formula. -/
def opening (config : Config) : Except CompileError (Session × List Effect) :=
  let compiled := compile config.opening
  match compiled with
  | .error e => .error e
  | .ok p =>
    let staged := Session.empty.stage p
    let polled := staged.session.poll
    .ok (polled.session,
      (compileEvents config.opening compiled).map Effect.log ++ staged.effects ++ polled.effects)

variable (P : Primitives) (config : Config)

/-- A preview of the current program, and the prompt again. -/
def preview (s : Session) (number : Nat) (elapsed : Double) : List Effect :=
  match s.evaluator.sample P elapsed config.width config.height with
  | .ok grid => [.output ("\n" ++ Shade.draw grid ++ "\n" ++ config.prompt)]
  | .error _ => [.log (.frameFailed number)]

/-- A frame: polls, and prints a preview of what was installed. -/
def frame (s : Session) (number : Nat) (elapsed : Double) : Session × List Effect :=
  let polled := s.poll
  match polled.result with
  | some _ =>
    (polled.session,
      polled.effects ++ (if config.preview then preview P config polled.session number elapsed else []))
  | none => (polled.session, polled.effects)

/-- Takes a turn. -/
def turn (s : Session) : Turn → Session × List Effect
  | .line text =>
    let fed := s.feed text
    (fed.session, fed.effects ++ Session.promptEffects config.prompt)
  | .frame number elapsed => frame P config s number elapsed

/-- Takes turns in order. -/
def turns (s : Session) : List Turn → Session × List Effect
  | [] => (s, [])
  | t :: ts =>
    let (next, effects) := turn P config s t
    let (last, more) := turns next ts
    (last, effects ++ more)

/-- What comes before the first turn. -/
def start : List Effect := Session.promptEffects config.prompt

/-- The end of the input, and the frame after it. -/
def finish (read : Session) (frames : Nat) (elapsed : Double) : Session × List Effect :=
  let (last, effects) := frame P config read frames elapsed
  (last,
    Session.closeEffects config.prompt read ++ [.log (.loopStopped frames)] ++ effects ++
      [.log (.sessionFinished last.polled frames)])

/-- All that follows the opening. -/
def play (s : Session) (ts : List Turn) (frames : Nat) (elapsed : Double) :
    Session × List Effect :=
  let (read, effects) := turns P config s ts
  let (last, more) := finish P config read frames elapsed
  (last, start config ++ effects ++ more)

end LiveFormula.Live
