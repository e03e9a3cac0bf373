import LiveFormula.Program.Basic

/-!
# Checking a program

Model of `livexpr.runtime.StackEvaluator.check`.

A program is accepted if every word is an instruction on a known slot, every operator finds its
operands on the stack, and one value remains. Only the depth of the stack is followed; the first word
at fault is reported.
-/

set_option autoImplicit false

namespace LiveFormula

namespace Program

/-- The instruction of the word at a position, and the depth of the stack after it. -/
def checkWord (position depth : Nat) (word : Int) : Except ProgramError (Instr × Nat) :=
  match Word.decode? word with
  | none => .error (.unknownWord (some position) word)
  | some (.load slot) =>
    if slot = 0 ∨ slot = 1 ∨ slot = 2 then .ok (.load slot, depth + 1)
    else .error (.slotOutOfRange position slot)
  | some (.push x) => .ok (.push x, depth + 1)
  | some (.apply op) =>
    if depth < op.arity then .error (.missingOperands position op depth)
    else .ok (.apply op, depth - op.arity + 1)

/-- The instructions of the words from a position on, and the depth of the stack after them. -/
def checkFrom : Nat → Nat → List Int → Except ProgramError (List Instr × Nat)
  | _, depth, [] => .ok ([], depth)
  | position, depth, w :: ws =>
    match checkWord position depth w with
    | .error e => .error e
    | .ok (i, depth') =>
      match checkFrom (position + 1) depth' ws with
      | .error e => .error e
      | .ok (is, final) => .ok (i :: is, final)

/-- The instructions of a program, if it is accepted. -/
def check (p : Program) : Except ProgramError (List Instr) :=
  match checkFrom 0 0 p.words with
  | .error e => .error e
  | .ok (is, depth) => if depth = 1 then .ok is else .error (.unbalanced depth)

end Program

end LiveFormula
