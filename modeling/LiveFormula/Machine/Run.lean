import LiveFormula.Machine.Primitive
import LiveFormula.Program.Word

/-!
# The stack machine

Model of the loop of `livexpr.runtime.StackEvaluator.evaluate`.

Instructions run from left to right on a stack of doubles. A binary operator takes its right operand
off the stack first.
-/

set_option autoImplicit false

namespace LiveFormula

/-- The values of the variables. -/
structure Point where
  t : Double
  u : Double
  v : Double
  deriving DecidableEq, Repr

/-- The value in a slot. -/
def Point.read? (p : Point) (slot : Int) : Option Double :=
  if slot = 0 then some p.t else if slot = 1 then some p.u else if slot = 2 then some p.v else none

namespace Machine

variable (P : Primitives)

/-- A binary operator on its operands. -/
def binary : BinOp → Double → Double → Except Fault Double
  | .add, x, y => .ok (P.add x y)
  | .sub, x, y => .ok (P.sub x y)
  | .mul, x, y => .ok (P.mul x y)
  | .div, x, y => P.divide x y

/-- A function on its argument. -/
def call : Func → Double → Except Fault Double
  | .sin, x => Primitives.guard P.sin x
  | .cos, x => Primitives.guard P.cos x

/-- Puts a result on the stack. -/
def push (stack : List Double) : Except Fault Double → Except Fault (List Double)
  | .ok x => .ok (x :: stack)
  | .error f => .error f

/-- Runs one instruction. -/
def step (point : Point) : Instr → List Double → Except Fault (List Double)
  | .load slot, stack =>
    match point.read? slot with
    | some x => .ok (x :: stack)
    | none => .error .unknownSlot
  | .push x, stack => .ok (x.convert .double :: stack)
  | .apply (.binary op), y :: x :: stack => push stack (binary P op x y)
  | .apply (.call f), x :: stack => push stack (call P f x)
  | .apply _, _ => .error .emptyStack

/-- Runs instructions in order. -/
def run (point : Point) : List Instr → List Double → Except Fault (List Double)
  | [], stack => .ok stack
  | i :: is, stack =>
    match step P point i stack with
    | .ok stack' => run point is stack'
    | .error f => .error f

/-- The value that a program leaves on top of the stack. -/
def evaluate (instructions : List Instr) (point : Point) : Except Fault Double :=
  match run P point instructions [] with
  | .ok (x :: _) => .ok x
  | .ok [] => .error .emptyStack
  | .error f => .error f

end Machine

end LiveFormula
