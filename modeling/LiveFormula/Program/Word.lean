import LiveFormula.Expr.Basic
import LiveFormula.Text.Quoted

/-!
# Instruction words

Model of `livexpr.codegen.Opcode`, `variable_word`, `literal_word` and `decode_word`.

An instruction is a word of two halves of 32 bits.

    load a variable   slot          | 1
    push a literal    32-bit float  | 0
    apply an operator 0             | number, 4 to 9

Words are integers of any size and sign here, because that is what a program may be made of; the low
half is the remainder and the high half the floored quotient.
-/

set_option autoImplicit false

namespace LiveFormula

/-- An operator as the machine knows it. -/
inductive Opcode
  | binary (op : BinOp)
  | call (func : Func)
  deriving DecidableEq, Repr

namespace Opcode

def number : Opcode → Nat
  | .binary .add => 4
  | .binary .sub => 5
  | .binary .mul => 6
  | .binary .div => 7
  | .call .cos => 8
  | .call .sin => 9

def ofNumber? : Nat → Option Opcode
  | 4 => some (.binary .add)
  | 5 => some (.binary .sub)
  | 6 => some (.binary .mul)
  | 7 => some (.binary .div)
  | 8 => some (.call .cos)
  | 9 => some (.call .sin)
  | _ => none

/-- The number of operands. -/
def arity : Opcode → Nat
  | .binary _ => 2
  | .call _ => 1

def mnemonic : Opcode → String
  | .binary .add => "add"
  | .binary .sub => "sub"
  | .binary .mul => "mul"
  | .binary .div => "div"
  | .call .cos => "cos"
  | .call .sin => "sin"

end Opcode

/-- An instruction. -/
inductive Instr
  | load (slot : Int)
  | push (value : Single)
  | apply (op : Opcode)
  deriving DecidableEq, Repr

namespace Word

/-- The number of values of half a word. -/
def half : Int := 4294967296

def ofSlot (slot : Int) : Int := slot * half + 1

def ofSingle (x : Single) : Int := (x.toBits : Int) * half

def ofOpcode (op : Opcode) : Int := op.number

/-- The word of a double rounded to 32 bits; none if a finite number rounds to infinity. -/
def ofDouble? (x : Double) : Option Int :=
  let y := x.convert .single
  if y.isInfinite && !x.isInfinite then none else some (ofSingle y)

def ofInstr : Instr → Int
  | .load slot => ofSlot slot
  | .push x => ofSingle x
  | .apply op => ofOpcode op

/-- The instruction of a word. Only the low 32 bits of the high half of a literal count. -/
def decode? (word : Int) : Option Instr :=
  let high := word / half
  let low := (word % half).toNat
  if low = 1 then some (.load high)
  else if low = 0 then some (.push (Binary.ofBits (high % half).toNat))
  else if high = 0 then (Opcode.ofNumber? low).map .apply
  else none

/-- The word in hexadecimal, eighteen characters wide with sign and mark. -/
def hex (word : Int) : String :=
  if word < 0 then "-0x" ++ String.ofList (Text.hexDigits 15 word.natAbs)
  else "0x" ++ String.ofList (Text.hexDigits 16 word.natAbs)

end Word

end LiveFormula
