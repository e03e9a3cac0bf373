import LiveFormula.Diagnostic.Report
import LiveFormula.Expr.Fold
import LiveFormula.Sexp.Basic

/-!
# Trees as S-expressions

Model of `livexpr.sexp`: `to_sexp` is `Expr.dump`, `_load` is `Sexp.load` and `from_sexp` is
`Expr.load`.

A dump of a tree has one form for each node.

    (add (lit 1.0) (mul (var "u") (lit 2.0)))
    (sin (var "t"))

Names are written as strings. `Expr.dump` writes a tree, and `Expr.load` reads one back: every form is
checked, and the first malformed one in the order of reading is reported. Loading keeps its work on a
stack of its own, beside a stack of the trees that are done.
-/

set_option autoImplicit false

namespace LiveFormula

namespace Sexp

/-- The forms that have operands. -/
inductive Branch
  | binary (op : BinOp)
  | call (func : Func)
  deriving DecidableEq, Repr

namespace Branch

def tag : Branch → String
  | .binary .add => "add"
  | .binary .sub => "sub"
  | .binary .mul => "mul"
  | .binary .div => "div"
  | .call .sin => "sin"
  | .call .cos => "cos"

def all : List Branch :=
  [.binary .add, .binary .sub, .binary .mul, .binary .div, .call .sin, .call .cos]

def ofTag? (tag : String) : Option Branch := all.find? fun b => b.tag == tag

/-- The number of operands. -/
def arity : Branch → Nat
  | .binary _ => 2
  | .call _ => 1

end Branch

/-- Why a form is malformed. -/
inductive FormError
  | notForm (value : Sexp)
  | headNotSymbol (value : Sexp)
  | arity (tag : String) (expected found : Nat)
  | nameNotString (value : Sexp)
  | nameNotAlphabetic (name : String)
  | notNumber (value : Sexp)
  | negative (value : Sexp)
  | unknownTag (tag : String)

def FormError.message (K : Codec) : FormError → String
  | .notForm value => "Expected a (tag ...) form, got " ++ value.text K
  | .headNotSymbol value => "Expected a symbol at the head of " ++ value.text K
  | .arity tag expected found =>
    "(" ++ tag ++ " ...) takes " ++ toString expected ++ " argument(s), got " ++ toString found
  | .nameNotString value => "Variable name must be a string, got " ++ value.text K
  | .nameNotAlphabetic name => "Variable name must be alphabetic, got " ++ Text.quote name
  | .notNumber value => "Literal value must be a number, got " ++ value.text K
  | .negative value => "Literal value must be non-negative, got " ++ value.text K
  | .unknownTag tag => "Unknown form (" ++ tag ++ " ...)"

/-- Why a value is not a tree. -/
inductive LoadError
  | form (error : FormError)
  | integerTooLarge
  | operands

/-- The tree of a `var` form with the given operands. -/
def loadVar : List Sexp → Except LoadError Expr
  | [.string name] =>
    if !name.isEmpty && name.toList.all Char.isAlpha then .ok (.var name 0)
    else .error (.form (.nameNotAlphabetic name))
  | [value] => .error (.form (.nameNotString value))
  | operands => .error (.form (.arity "var" 1 operands.length))

/-- The tree of a `lit` form with the given operands. -/
def loadLiteral : List Sexp → Except LoadError Expr
  | [.integer n] =>
    if n < 0 then .error (.form (.negative (.integer n)))
    else
      match Binary.ofInt? n with
      | some x => .ok (.literal x 0)
      | none => .error .integerTooLarge
  | [.float x] =>
    if x.below (Binary.zero false) then .error (.form (.negative (.float x)))
    else .ok (.literal x 0)
  | [value] => .error (.form (.notNumber value))
  | operands => .error (.form (.arity "lit" 1 operands.length))

/-- What a form is: a leaf, or a branch with operands to load. -/
inductive Form
  | leaf (e : Expr)
  | branch (b : Branch) (operands : List Sexp)

/-- The form with a tag. -/
def formOf (tag : String) (operands : List Sexp) : Except LoadError Form :=
  if tag = "var" then (loadVar operands).map .leaf
  else if tag = "lit" then (loadLiteral operands).map .leaf
  else
    match Branch.ofTag? tag with
    | none => .error (.form (.unknownTag tag))
    | some b =>
      if operands.length = b.arity then .ok (.branch b operands)
      else .error (.form (.arity tag b.arity operands.length))

/-- The form of a value. -/
def toForm : Sexp → Except LoadError Form
  | .list (.symbol tag :: operands) => formOf tag operands
  | .list [] => .error (.form (.notForm (.list [])))
  | .list (head :: operands) => .error (.form (.headNotSymbol (.list (head :: operands))))
  | value => .error (.form (.notForm value))

/-- Work of the loader: to load a value, or to build a branch whose operands are done. -/
inductive Task
  | load (value : Sexp)
  | build (b : Branch)

/-- A bound for the steps that a piece of work takes. -/
def Task.weight : Task → Nat
  | .load value => 2 * value.size
  | .build _ => 1

/-- The bound for all the work on a stack. -/
def Task.total : List Task → Nat
  | [] => 0
  | t :: tasks => t.weight + total tasks

theorem formOf_branch {tag : String} {operands rest : List Sexp} {b : Branch}
    (h : formOf tag operands = .ok (.branch b rest)) : rest = operands := by
  unfold formOf at h
  split at h
  · cases hv : loadVar operands <;> rw [hv] at h <;> cases h
  · split at h
    · cases hv : loadLiteral operands <;> rw [hv] at h <;> cases h
    · split at h
      · cases h
      · split at h
        · cases h; rfl
        · cases h

theorem toForm_branch {value : Sexp} {b : Branch} {operands : List Sexp}
    (h : value.toForm = .ok (.branch b operands)) :
    ∃ tag, value = .list (.symbol tag :: operands) := by
  unfold toForm at h
  split at h
  · rename_i tag rest
    exact ⟨tag, by rw [formOf_branch h]⟩
  · cases h
  · cases h
  · cases h

theorem total_operands (operands : List Sexp) (tasks : List Task) :
    Task.total (operands.map .load ++ tasks) = 2 * sizeAll operands + Task.total tasks := by
  induction operands with
  | nil => simp [sizeAll]
  | cons value values ih =>
      simp only [List.map_cons, List.cons_append, Task.total, ih, Task.weight, sizeAll]
      omega

/-- Does all the work on the stack; the trees that are done come last one first. -/
def loadAll : List Task → List Expr → Except LoadError Expr
  | [], [e] => .ok e
  | [], _ => .error .operands
  | .build (.binary op) :: tasks, y :: x :: done => loadAll tasks (.binary op x y 0 :: done)
  | .build (.call f) :: tasks, x :: done => loadAll tasks (.call f x 0 :: done)
  | .build _ :: _, _ => .error .operands
  | .load value :: tasks, done =>
    match h : value.toForm with
    | .error e => .error e
    | .ok (.leaf e) => loadAll tasks (e :: done)
    | .ok (.branch b operands) => loadAll (operands.map .load ++ .build b :: tasks) done
termination_by tasks => Task.total tasks
decreasing_by
  · simp [Task.total, Task.weight]
  · simp [Task.total, Task.weight]
  · have : 0 < value.size := by cases value <;> simp [size]
    simp [Task.total, Task.weight]
    omega
  · obtain ⟨tag, rfl⟩ := toForm_branch h
    rw [total_operands]
    simp only [Task.total, Task.weight, size, sizeAll]
    omega

/-- The tree of a value. -/
def load (value : Sexp) : Except LoadError Expr := loadAll [.load value] []

end Sexp

/-- Why a text is not the dump of a tree. -/
inductive DumpError
  | read (error : Sexp.ReadError)
  | form (error : Sexp.LoadError)

namespace Expr

variable (K : Sexp.Codec)

def dumpAlgebra : Algebra String where
  var n _ := "(var " ++ K.string n ++ ")"
  literal x _ := "(lit " ++ K.number x ++ ")"
  binary op _ _ _ x y := "(" ++ (Sexp.Branch.binary op).tag ++ " " ++ x ++ " " ++ y ++ ")"
  call f _ _ x := "(" ++ (Sexp.Branch.call f).tag ++ " " ++ x ++ ")"

/-- The dump of a tree. -/
def dump (e : Expr) : String := (dumpAlgebra K).fold e

/-- The tree of a dump. -/
def load (text : String) : Except DumpError Expr :=
  match K.read text with
  | .error e => .error (.read e)
  | .ok value =>
    match value.load with
    | .error e => .error (.form e)
    | .ok e => .ok e

end Expr

end LiveFormula
