import LiveFormula.Number.Binary

/-!
# Expression trees

Model of the nodes of `livexpr.ast_nodes`.

The tree of a formula. Every node records the offset at which it began in the source text. Offsets
serve diagnostics only: they take no part in equality or in the program of a tree.
-/

set_option autoImplicit false

namespace LiveFormula

/-- The four binary operators. -/
inductive BinOp
  | add
  | sub
  | mul
  | div
  deriving DecidableEq, Repr

def BinOp.symbol : BinOp → String
  | .add => "+"
  | .sub => "-"
  | .mul => "*"
  | .div => "/"

/-- The two functions. -/
inductive Func
  | sin
  | cos
  deriving DecidableEq, Repr

def Func.name : Func → String
  | .sin => "sin"
  | .cos => "cos"

/-- An expression. -/
inductive Expr
  | var (name : String) (offset : Int)
  | literal (value : Double) (offset : Int)
  | binary (op : BinOp) (left right : Expr) (offset : Int)
  | call (func : Func) (argument : Expr) (offset : Int)
  deriving DecidableEq, Repr

namespace Expr

def offset : Expr → Int
  | var _ o => o
  | literal _ o => o
  | binary _ _ _ o => o
  | call _ _ o => o

/-- The direct operands, from left to right. -/
def children : Expr → List Expr
  | var _ _ => []
  | literal _ _ => []
  | binary _ l r _ => [l, r]
  | call _ a _ => [a]

/-- The number of nodes. -/
def size : Expr → Nat
  | var _ _ => 1
  | literal _ _ => 1
  | binary _ l r _ => l.size + r.size + 1
  | call _ a _ => a.size + 1

end Expr

end LiveFormula
