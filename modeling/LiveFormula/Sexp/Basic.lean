import LiveFormula.Number.Text
import LiveFormula.Text.Quoted

/-!
# S-expressions

The values of S-expressions: lists in round and in square brackets, quoted values, and atoms. How
they are written and read does not matter to trees, so a package for it is a parameter,
`Sexp.Codec`; the one of `livexpr.sexp` is `sexpdata`. What is asked of it in the end is
`Sexp.Codec.Lawful`.
-/

set_option autoImplicit false

namespace LiveFormula

/-- An S-expression. -/
inductive Sexp
  | list (items : List Sexp)
  | brackets (items : List Sexp)
  | quoted (item : Sexp)
  | symbol (name : String)
  | string (text : String)
  | integer (n : Int)
  | float (x : Double)

namespace Sexp

mutual

/-- The number of values in a value, itself included. -/
def size : Sexp → Nat
  | .list items => sizeAll items + 1
  | .brackets items => sizeAll items + 1
  | .quoted item => item.size + 1
  | .symbol _ => 1
  | .string _ => 1
  | .integer _ => 1
  | .float _ => 1

/-- The number of values in the members of a list. -/
def sizeAll : List Sexp → Nat
  | [] => 0
  | item :: items => item.size + sizeAll items

end

/-- Why a text is not one S-expression. -/
inductive ReadError
  | tooDeep
  | malformed (reason : String)
  deriving DecidableEq, Repr

/-- A package that writes and reads S-expressions. -/
structure Codec where
  /-- A string, `sexpdata.dumps` of it. -/
  string : String → String
  /-- A number, `sexpdata.dumps` of it. -/
  number : Double → String
  /-- The one value of a text, `sexpdata.loads` without words for nil, true and false. -/
  read : String → Except ReadError Sexp
  /-- How a symbol is shown in messages. -/
  showSymbol : String → String
  /-- How a list in square brackets is shown, given how its items are shown. -/
  showBrackets : List String → String
  /-- How a quoted value is shown, given how the value is shown. -/
  showQuoted : String → String

mutual

/-- A value as it is shown in messages. -/
def text (K : Codec) : Sexp → String
  | .list items => "[" ++ ", ".intercalate (textAll K items) ++ "]"
  | .brackets items => K.showBrackets (textAll K items)
  | .quoted item => K.showQuoted (item.text K)
  | .symbol name => K.showSymbol name
  | .string s => Text.quote s
  | .integer n => toString n
  | .float x => x.text

/-- The members of a list as they are shown in messages. -/
def textAll (K : Codec) : List Sexp → List String
  | [] => []
  | item :: items => item.text K :: textAll K items

end

end Sexp

end LiveFormula
