import LiveFormula.Expr.Fold
import LiveFormula.Number.Text
import LiveFormula.Text.Quoted

/-!
# Trees as text

Model of `livexpr.visitor.to_infix` and `livexpr.ast_nodes.node_repr`.

Two printed forms of a tree: `Expr.parenthesized` is a formula with a pair of parentheses around every
operation and six places for every literal, and `Expr.record` spells out every field of every node.
-/

set_option autoImplicit false

namespace LiveFormula

namespace Expr

/-- A fully parenthesised formula, literals with six places. -/
def parenthesizedAlgebra : Algebra String where
  var n _ := n
  literal x _ := x.fixed 6
  binary op _ _ _ x y := "(" ++ x ++ op.symbol ++ y ++ ")"
  call f _ _ x := f.name ++ "(" ++ x ++ ")"

def parenthesized (e : Expr) : String := parenthesizedAlgebra.fold e

/-- The name of an operator in the record form. -/
def opRecord : BinOp → String
  | .add => "<BinOp.ADD: '+'>"
  | .sub => "<BinOp.SUB: '-'>"
  | .mul => "<BinOp.MUL: '*'>"
  | .div => "<BinOp.DIV: '/'>"

/-- The name of a function in the record form. -/
def funcRecord : Func → String
  | .sin => "<Func.SIN: 'sin'>"
  | .cos => "<Func.COS: 'cos'>"

/-- Every field of every node, offsets included. -/
def recordAlgebra : Algebra String where
  var n o := "Variable(name=" ++ Text.quote n ++ ", offset=" ++ toString o ++ ")"
  literal x o := "Literal(value=" ++ x.text ++ ", offset=" ++ toString o ++ ")"
  binary op _ _ o x y :=
    "BinaryOp(op=" ++ opRecord op ++ ", left=" ++ x ++ ", right=" ++ y ++ ", offset=" ++
      toString o ++ ")"
  call f _ o x :=
    "FunctionCall(func=" ++ funcRecord f ++ ", argument=" ++ x ++ ", offset=" ++ toString o ++ ")"

def record (e : Expr) : String := recordAlgebra.fold e

end Expr

end LiveFormula
