import LiveFormula.Expr.Basic
import LiveFormula.Formula.Cursor

/-!
# Grammar rules

Model of `livexpr.parser.Parser`, one definition for each of its methods.

A rule reads a node at a cursor. It matches and says where it ended, or it does not and says where it
stopped; nesting beyond the limit is a third outcome. Rules are tried in order, and a rule that stops
after it has moved is final: the alternatives after it are not tried.

    atom       = digits | ("sin" | "cos") "(" expression ")" | letters | "(" expression ")"
    term       = atom (("*" | "/") atom)*
    expression = term (("+" | "-") term)*

Blanks may follow any token. Both chains fold to the left.

`parse` reads a formula from the first character to the last. A failure names the offset at which
reading stopped: in the middle of an expression, after a complete one, or at parentheses nested
beyond `maxNesting`.
-/

set_option autoImplicit false

namespace LiveFormula

/-- What a rule made of the text at a cursor. -/
inductive Outcome
  | matched (node : Expr) (next : Cursor)
  | stopped (stop : Cursor)
  | tooDeep (stop : Cursor)

/-- A rule of the grammar. -/
abbrev Rule := Cursor → Outcome

namespace Rule

/-- The letters of names. -/
def isLetter (c : Char) : Bool := c.isAlpha

/-- A run of digits, rounded once to a double. -/
def literal : Rule := fun c =>
  let digits := c.run Char.isDigit
  if digits.isEmpty then .stopped c
  else
    .matched (.literal (Binary.ofNat (Nat.ofDigitChars 10 digits 0)) c.pos)
      (c.skip Char.isDigit).skipBlanks

/-- A run of letters. -/
def name : Rule := fun c =>
  let letters := c.run isLetter
  if letters.isEmpty then .stopped c
  else .matched (.var (String.ofList letters) c.pos) (c.skip isLetter).skipBlanks

/-- An expression in parentheses, which leave no node. -/
def parenthesized (inner : Rule) : Rule := fun c =>
  if c.peek = some '(' then
    match inner (c.advance 1).skipBlanks with
    | .matched node d =>
      if d.peek = some ')' then .matched node (d.advance 1).skipBlanks else .stopped d
    | other => other
  else .stopped c

/-- The names of the functions. -/
def keywords : List (List Char × Func) := [(['s', 'i', 'n'], .sin), (['c', 'o', 's'], .cos)]

/-- The function whose name begins at the cursor, and the cursor behind it. -/
def keyword? (c : Cursor) : Option (Func × Cursor) :=
  (keywords.find? fun k => c.startsWith k.1).map fun k => (k.2, c.advance k.1.length)

/-- A function name and its argument in parentheses. -/
def call (inner : Rule) : Rule := fun c =>
  match keyword? c with
  | none => .stopped c
  | some (func, d) =>
    match parenthesized inner d.skipBlanks with
    | .matched argument next => .matched (.call func argument c.pos) next
    | other => other

/-- Ordered choice: the second rule is tried only if the first one stopped without moving. -/
def orElse (first second : Rule) : Rule := fun c =>
  match first c with
  | .stopped d => if d.pos = c.pos then second c else .stopped d
  | other => other

def atom (inner : Rule) : Rule :=
  orElse literal (orElse (call inner) (orElse name (parenthesized inner)))

/-- Reads on after the left operand `lhs`, folding to the left. Every round reads an operator, so the
characters that are left bound the rounds. -/
def chainFrom (operand : Rule) (operator? : Char → Option BinOp) : Nat → Expr → Rule
  | 0, lhs, c => .matched lhs c
  | fuel + 1, lhs, c =>
    match c.peek.bind operator? with
    | none => .matched lhs c
    | some op =>
      match operand (c.advance 1).skipBlanks with
      | .matched rhs d => chainFrom operand operator? fuel (.binary op lhs rhs lhs.offset) d
      | other => other

/-- A chain of operands with operators between them. -/
def chain (operand : Rule) (operator? : Char → Option BinOp) : Rule := fun c =>
  match operand c with
  | .matched lhs d =>
    let next := d.skipBlanks
    chainFrom operand operator? (next.size - next.pos) lhs next
  | other => other

/-- The operator among some that a character stands for. -/
def operatorIn? (ops : List BinOp) (ch : Char) : Option BinOp :=
  ops.find? fun op => op.symbol.toList == [ch]

def termOperator? : Char → Option BinOp := operatorIn? [.mul, .div]

def expressionOperator? : Char → Option BinOp := operatorIn? [.add, .sub]

def term (inner : Rule) : Rule := chain (atom inner) termOperator?

/-- An expression with room for as many levels of parentheses inside it as the number says; without
room even for itself it is too deep. -/
def expression : Nat → Rule
  | 0 => .tooDeep
  | depth + 1 => chain (term (expression depth)) expressionOperator?

end Rule

/-! ## Complete formulas -/

/-- Why a text is not a formula. -/
inductive ParseError
  | unexpected (offset : Nat)
  | trailing (offset : Nat)
  | tooDeep (offset : Nat)
  deriving DecidableEq, Repr

/-- The most levels of parentheses, those of calls included. -/
def maxNesting : Nat := 150

/-- The tree of a formula given by its characters. -/
def parseChars (text : List Char) : Except ParseError Expr :=
  match Rule.expression (maxNesting + 1) (Cursor.start text).skipBlanks with
  | .matched node c => if c.atEnd then .ok node else .error (.trailing c.pos)
  | .stopped c => .error (.unexpected c.pos)
  | .tooDeep c => .error (.tooDeep c.pos)

/-- The tree of a formula. -/
def parse (text : String) : Except ParseError Expr := parseChars text.toList

end LiveFormula
