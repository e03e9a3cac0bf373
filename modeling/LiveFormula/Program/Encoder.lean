import LiveFormula.Expr.Postorder
import LiveFormula.Formula.Rule
import LiveFormula.Program.Basic

/-!
# Encoding a tree

Model of `livexpr.codegen.Encoder`, `encode` and `compile_expression`.

A tree becomes a program of one word for each node, in postorder. An encoder emits the words into a
buffer, which it empties before and after each tree, so that what a tree becomes does not depend on
the trees before it. The first leaf in postorder that has no word is reported. `compile` reads a
formula and encodes its tree in one step.
-/

set_option autoImplicit false

namespace LiveFormula

/-- Why a leaf has no word. -/
inductive EncodeError
  | unknownVariable (name : String) (offset : Int)
  | literalRange (value : Double) (offset : Int)
  deriving DecidableEq, Repr

/-- The slots of the variables. -/
def variableSlot? (name : String) : Option Int :=
  if name = "t" then some 0 else if name = "u" then some 1 else if name = "v" then some 2 else none

/-- The names of the variables. -/
def variableNames : List String := ["t", "u", "v"]

/-- The word of a node. -/
def Expr.word : Expr → Except EncodeError Int
  | .var name offset =>
    match variableSlot? name with
    | some slot => .ok (Word.ofSlot slot)
    | none => .error (.unknownVariable name offset)
  | .literal x offset =>
    if x.isInfinite then .error (.literalRange x offset)
    else
      match Word.ofDouble? x with
      | some w => .ok w
      | none => .error (.literalRange x offset)
  | .binary op _ _ _ => .ok (Word.ofOpcode (.binary op))
  | .call func _ _ => .ok (Word.ofOpcode (.call func))

/-- An encoder with the words it has emitted, the last one first. -/
structure Encoder where
  buffer : List Int
  deriving DecidableEq, Repr

namespace Encoder

def empty : Encoder := ⟨[]⟩

/-- Emits the word of a node. -/
def emit (encoder : Encoder) (node : Expr) : Except EncodeError Encoder :=
  match node.word with
  | .ok w => .ok ⟨w :: encoder.buffer⟩
  | .error e => .error e

/-- Emits the words of nodes in order. -/
def emitAll (encoder : Encoder) : List Expr → Except EncodeError Encoder
  | [] => .ok encoder
  | node :: nodes =>
    match encoder.emit node with
    | .ok next => next.emitAll nodes
    | .error e => .error e

/-- Encodes a tree and leaves the buffer empty. -/
def encode (encoder : Encoder) (e : Expr) : Except EncodeError Program × Encoder :=
  let start := { encoder with buffer := [] }
  match start.emitAll e.postorder with
  | .ok done => (.ok ⟨done.buffer.reverse⟩, { done with buffer := [] })
  | .error err => (.error err, { start with buffer := [] })

/-- Encodes trees one after the other. -/
def encodeAll : Encoder → List Expr → List (Except EncodeError Program)
  | _, [] => []
  | encoder, e :: es =>
    let (result, next) := encoder.encode e
    result :: next.encodeAll es

end Encoder

/-- The program of a tree. -/
def encode (e : Expr) : Except EncodeError Program := (Encoder.empty.encode e).1

/-- Why a text has no program. -/
inductive CompileError
  | parse (error : ParseError)
  | encode (error : EncodeError)
  deriving DecidableEq, Repr

/-- The program of a formula. -/
def compile (text : String) : Except CompileError Program :=
  match parse text with
  | .error e => .error (.parse e)
  | .ok tree =>
    match encode tree with
    | .error e => .error (.encode e)
    | .ok program => .ok program

end LiveFormula
