import LiveFormula.Machine.Run
import LiveFormula.Program.Check

/-!
# The evaluator

Model of `livexpr.runtime.StackEvaluator` and `render_ascii`.

An evaluator holds the program that was installed last, together with its instructions, and counts
the installations. A program that is not accepted leaves it as it was.

A grid of its values is drawn with one character for each value, from dark to bright over the values
from zero to one. Values outside that range take the end shades, and a question mark stands for what
is not a number.
-/

set_option autoImplicit false

namespace LiveFormula

/-- A program that was accepted, with its instructions. -/
structure Installation where
  program : Program
  instructions : List Instr
  deriving DecidableEq, Repr

structure Evaluator where
  current : Option Installation
  generation : Nat
  deriving DecidableEq, Repr

/-- Why there is no value. -/
inductive EvalError
  | notInstalled
  | fault (fault : Fault)
  deriving DecidableEq, Repr

namespace Evaluator

/-- An evaluator without a program. -/
def empty : Evaluator := ⟨none, 0⟩

def installed (e : Evaluator) : Option Program := e.current.map Installation.program

/-- Checks a program and makes it the current one. -/
def install (e : Evaluator) (p : Program) : Except ProgramError Evaluator :=
  match p.check with
  | .ok is => .ok ⟨some ⟨p, is⟩, e.generation + 1⟩
  | .error err => .error err

variable (P : Primitives)

/-- The value of the current program at a point. -/
def evaluate (e : Evaluator) (point : Point) : Except EvalError Double :=
  match e.current with
  | none => .error .notInstalled
  | some installation =>
    match Machine.evaluate P installation.instructions point with
    | .ok x => .ok x
    | .error f => .error (.fault f)

/-- A part of a whole; there is no part of zero. -/
def part (n : Nat) (whole : Int) : Except EvalError Double :=
  if whole = 0 then .error (.fault .zeroDivisor)
  else .ok (Binary.ofRatio (whole < 0) n whole.natAbs)

/-- The value in a column and row of a grid: `u` and `v` are the column as a part of the width and the
row as a part of the height. -/
def valueAt (e : Evaluator) (t : Double) (width height : Int) (x y : Nat) :
    Except EvalError Double :=
  match part x width with
  | .error err => .error err
  | .ok u =>
    match part y height with
    | .error err => .error err
    | .ok v => e.evaluate P ⟨t, u, v⟩

/-- A grid of `height` rows of `width` values; a side that is not positive makes it empty. -/
def sample (e : Evaluator) (t : Double) (width height : Int) :
    Except EvalError (List (List Double)) :=
  collect (fun y => collect (fun x => e.valueAt P t width height x y) (List.range width.toNat))
    (List.range height.toNat)

end Evaluator

/-! ## Shades -/

namespace Shade

/-- The shades from dark to bright. -/
def ramp : List Char := [' ', '.', ':', '-', '=', '+', '*', '#', '%', '@']

/-- The value clamped to the range from zero to one. -/
def clamp (x : Double) : Double := (x.max (Binary.zero false)).min (Binary.ofNat 1)

/-- The place of a value in the ramp, a half going to the even place. -/
def index (x : Double) : Nat := ((clamp x).mul (Binary.ofNat 9)).roundMagnitude

/-- The shade of a value. -/
def shade (x : Double) : Char := if x.isNaN then '?' else ramp.getD (index x) '?'

/-- A line for each row, with line feeds between them. -/
def draw (grid : List (List Double)) : String :=
  "\n".intercalate (grid.map fun row => String.ofList (row.map shade))

end Shade

end LiveFormula
