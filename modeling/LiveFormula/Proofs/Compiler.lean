import LiveFormula.Machine.Evaluator
import LiveFormula.Program.Encoder
import LiveFormula.Proofs.ProgramTree
import LiveFormula.Proofs.Word

/-!
# The value of a compiled expression

The meaning of an expression is given by recursion on the tree (`Expr.value`). Between it and the
machine stands the tree of the program: `Expr.lower` gives every leaf its slot or its 32-bit
literal, or the error of the first leaf that has none.

* `encode_eq_lower` — encoding a tree is lowering it and listing the words of the result.
* `ProgramTree.check_program` — the words of any tree of a program are accepted.
* `ProgramTree.run_instructions` — running the listing of a tree adds its value to any stack.
* `Evaluator.evaluate_install_encode` — an encoded expression can be installed, and its value on the
  machine is its meaning.

Nothing is assumed of the primitive operations.
-/

set_option autoImplicit false

namespace LiveFormula

/-! ## Meaning -/

namespace Expr

/-- The value of an expression at a point. A literal is rounded to 32 bits, a quotient does not fail
on zero, and a function is applied to finite numbers only. -/
def value (P : Primitives) (point : Point) : Expr → Except Fault Double
  | var name _ =>
    if name = "t" then .ok point.t
    else if name = "u" then .ok point.u
    else if name = "v" then .ok point.v
    else .error .unknownSlot
  | literal x _ => .ok ((x.convert .single).convert .double)
  | binary op l r _ => do
    let x ← l.value P point
    let y ← r.value P point
    match op with
    | .add => .ok (P.add x y)
    | .sub => .ok (P.sub x y)
    | .mul => .ok (P.mul x y)
    | .div => P.divide x y
  | call func a _ => do
    let x ← a.value P point
    match func with
    | .sin => Primitives.guard P.sin x
    | .cos => Primitives.guard P.cos x

/-- The tree of the program of an expression, or the error of the first leaf that has no word. -/
def lower : Expr → Except EncodeError ProgramTree
  | var name offset =>
    match (variableSlot? name).bind ProgramTree.slot? with
    | some slot => .ok (.load slot)
    | none => .error (.unknownVariable name offset)
  | literal x offset =>
    if x.isInfinite || (x.convert .single).isInfinite then .error (.literalRange x offset)
    else .ok (.push (x.convert .single))
  | binary op l r _ => do
    let l' ← l.lower
    let r' ← r.lower
    return .binary op l' r'
  | call func a _ => do
    let a' ← a.lower
    return .call func a'

end Expr

namespace ProgramTree

/-- The words of a tree, operands first and from left to right. -/
def program (tree : ProgramTree) : Program := ⟨tree.instructions.map Word.ofInstr⟩

/-- The words of a tree are accepted, and decode to its listing. -/
theorem check_program (tree : ProgramTree) : tree.program.check = .ok tree.instructions :=
  Program.check_eq_ok_iff.2
    ⟨Word.map_decode?_ofInstr tree.instructions, depthAfterAll?_eq_one_iff.2 ⟨tree, rfl⟩⟩

end ProgramTree

/-! ## Encoding lists the lowered tree -/

namespace Encoder

theorem emitAll_append (encoder : Encoder) (es fs : List Expr) :
    encoder.emitAll (es ++ fs) = (encoder.emitAll es).bind fun next => next.emitAll fs := by
  induction es generalizing encoder with
  | nil => rfl
  | cons e es ih =>
      simp only [List.cons_append, emitAll]
      cases encoder.emit e with
      | ok next => exact ih next
      | error err => rfl

/-- An encoder that has emitted the words of a tree, or the error of the tree. -/
def filled (encoder : Encoder) : Except EncodeError ProgramTree → Except EncodeError Encoder
  | .ok tree => .ok ⟨tree.program.words.reverse ++ encoder.buffer⟩
  | .error err => .error err

theorem emitAll_var (encoder : Encoder) (name : String) (offset : Int) :
    encoder.emitAll [.var name offset] = encoder.filled (Expr.var name offset).lower := by
  by_cases ht : name = "t"
  · subst ht; rfl
  · by_cases hu : name = "u"
    · subst hu; rfl
    · by_cases hv : name = "v"
      · subst hv; rfl
      · simp [emitAll, emit, Expr.word, variableSlot?, Expr.lower, filled, ht, hu, hv]

theorem emitAll_literal (encoder : Encoder) (x : Double) (offset : Int) :
    encoder.emitAll [.literal x offset] = encoder.filled (Expr.literal x offset).lower := by
  cases hx : x.isInfinite with
  | true => simp [emitAll, emit, Expr.word, Expr.lower, filled, hx]
  | false =>
      cases hy : (x.convert .single).isInfinite with
      | true => simp [emitAll, emit, Expr.word, Word.ofDouble?, Expr.lower, filled, hx, hy]
      | false =>
          simp [emitAll, emit, Expr.word, Word.ofDouble?, Expr.lower, filled, hx, hy,
            ProgramTree.program, ProgramTree.instructions, Word.ofInstr]

/-- The words of a tree are added to those that are there; the first leaf without a word ends it. -/
theorem emitAll_listing (encoder : Encoder) (e : Expr) :
    encoder.emitAll e.listing = encoder.filled e.lower := by
  induction e generalizing encoder with
  | var name offset => exact encoder.emitAll_var name offset
  | literal x offset => exact encoder.emitAll_literal x offset
  | binary op l r offset ihl ihr =>
      simp only [Expr.listing, emitAll_append, ihl, Expr.lower]
      cases l.lower with
      | error err => rfl
      | ok l' =>
          simp only [filled, Except.bind, ihr]
          cases r.lower with
          | error err => rfl
          | ok r' =>
              simp [emitAll, emit, Expr.word, bind, Except.bind, pure, Except.pure,
                ProgramTree.program, ProgramTree.instructions, Word.ofInstr]
  | call func a offset ih =>
      simp only [Expr.listing, emitAll_append, ih, Expr.lower]
      cases a.lower with
      | error err => rfl
      | ok a' =>
          simp [filled, emitAll, emit, Expr.word, bind, Except.bind, pure, Except.pure,
            ProgramTree.program, ProgramTree.instructions, Word.ofInstr]

end Encoder

/-- Encoding a tree is lowering it and listing the words of the result. -/
theorem encode_eq_lower (e : Expr) : encode e = e.lower.map ProgramTree.program := by
  simp only [encode, Encoder.encode, Expr.postorder_eq_listing, Encoder.emitAll_listing]
  cases e.lower with
  | error err => rfl
  | ok tree => simp [Encoder.filled, Except.map]

theorem exists_lower_of_encode {e : Expr} {p : Program} (h : encode e = .ok p) :
    ∃ tree, e.lower = .ok tree ∧ p = tree.program := by
  rw [encode_eq_lower] at h
  cases hlower : e.lower with
  | error err => rw [hlower] at h; cases h
  | ok tree =>
      rw [hlower] at h
      cases h
      exact ⟨tree, rfl, rfl⟩

theorem exists_encode_of_compile {text : String} {p : Program} (h : compile text = .ok p) :
    ∃ e, parse text = .ok e ∧ encode e = .ok p := by
  unfold compile at h
  split at h
  · cases h
  · rename_i e hparse
    split at h
    · cases h
    · rename_i hencode
      cases h
      exact ⟨e, hparse, hencode⟩

/-- What a formula compiles to is accepted. -/
theorem check_of_compile {text : String} {p : Program} (h : compile text = .ok p) :
    ∃ is, p.check = .ok is := by
  obtain ⟨e, -, hencode⟩ := exists_encode_of_compile h
  obtain ⟨tree, -, rfl⟩ := exists_lower_of_encode hencode
  exact ⟨tree.instructions, tree.check_program⟩

/-! ## Running the lowered tree -/

namespace Machine

variable (P : Primitives) (point : Point)

theorem run_append (is js : List Instr) (stack : List Double) :
    run P point (is ++ js) stack = (run P point is stack).bind (run P point js) := by
  induction is generalizing stack with
  | nil => rfl
  | cons i is ih =>
      simp only [List.cons_append, run]
      cases step P point i stack with
      | ok stack' => exact ih stack'
      | error f => rfl

end Machine

namespace ProgramTree

variable (P : Primitives) (point : Point)

/-- The value of a tree at a point. -/
def value : ProgramTree → Except Fault Double
  | load 0 => .ok point.t
  | load 1 => .ok point.u
  | load 2 => .ok point.v
  | push x => .ok (x.convert .double)
  | binary op l r => do
    let x ← l.value
    let y ← r.value
    Machine.binary P op x y
  | call func a => do
    let x ← a.value
    Machine.call P func x

/-- Running the listing of a tree adds its value to the stack, whatever the stack holds. -/
theorem run_instructions (tree : ProgramTree) (stack : List Double) :
    Machine.run P point tree.instructions stack = Machine.push stack (tree.value P point) := by
  induction tree generalizing stack with
  | load slot =>
      match slot with
      | 0 => rfl
      | 1 => rfl
      | 2 => rfl
  | push x => rfl
  | binary op l r ihl ihr =>
      simp only [instructions, Machine.run_append, ihl, value]
      cases l.value P point with
      | error f => rfl
      | ok x =>
          simp only [Machine.push, Except.bind, ihr]
          cases r.value P point with
          | error f => rfl
          | ok y =>
              simp only [Machine.push, Machine.run, Machine.step, bind, Except.bind]
              cases Machine.binary P op x y <;> rfl
  | call func a ih =>
      simp only [instructions, Machine.run_append, ih, value]
      cases a.value P point with
      | error f => rfl
      | ok x =>
          simp only [Machine.push, Machine.run, Machine.step, bind, Except.bind]
          cases Machine.call P func x <;> rfl

/-- The machine leaves the value of a tree. -/
theorem evaluate_instructions (tree : ProgramTree) :
    Machine.evaluate P tree.instructions point = tree.value P point := by
  rw [Machine.evaluate, run_instructions]
  cases tree.value P point <;> rfl

/-- Lowering keeps the value. -/
theorem value_of_lower {e : Expr} {tree : ProgramTree} (h : e.lower = .ok tree) :
    tree.value P point = e.value P point := by
  induction e generalizing tree with
  | var name offset =>
      by_cases ht : name = "t"
      · subst ht; cases h; rfl
      · by_cases hu : name = "u"
        · subst hu; cases h; rfl
        · by_cases hv : name = "v"
          · subst hv; cases h; rfl
          · simp [Expr.lower, variableSlot?, ht, hu, hv] at h
  | literal x offset =>
      unfold Expr.lower at h
      split at h
      · cases h
      · cases h; rfl
  | binary op l r offset ihl ihr =>
      rw [Expr.lower] at h
      cases hl : l.lower with
      | error err => rw [hl] at h; cases h
      | ok l' =>
          cases hr : r.lower with
          | error err => rw [hl, hr] at h; cases h
          | ok r' =>
              rw [hl, hr] at h
              cases h
              rw [value, Expr.value, ihl hl, ihr hr]
              cases op <;> rfl
  | call func a offset ih =>
      rw [Expr.lower] at h
      cases ha : a.lower with
      | error err => rw [ha] at h; cases h
      | ok a' =>
          rw [ha] at h
          cases h
          rw [value, Expr.value, ih ha]
          cases func <;> rfl

end ProgramTree

/-! ## The compiler is correct -/

/-- **Compiler correctness.** An encoded expression can be installed on any evaluator, and what the
evaluator then computes at a point is the meaning of the expression there, whatever the primitive
operations are. -/
theorem Evaluator.evaluate_install_encode (P : Primitives) (evaluator : Evaluator) (e : Expr)
    (p : Program) (h : encode e = .ok p) (point : Point) :
    ∃ next, evaluator.install p = .ok next ∧ next.installed = some p ∧
      next.evaluate P point = (e.value P point).mapError EvalError.fault := by
  rw [encode_eq_lower] at h
  cases hlower : e.lower with
  | error err => rw [hlower] at h; cases h
  | ok tree =>
      rw [hlower] at h
      cases h
      refine ⟨⟨some ⟨tree.program, tree.instructions⟩, evaluator.generation + 1⟩, ?_, rfl, ?_⟩
      · rw [install, tree.check_program]
      · rw [evaluate, ← tree.value_of_lower P point hlower]
        simp only [tree.evaluate_instructions P point]
        cases tree.value P point <;> rfl

/-- The quotient of `t - 2` by `cos(u)` is compiled to six words. -/
theorem Evaluator.evaluate_install_encode_quotient :
    let e : Expr := .binary .div (.binary .sub (.var "t" 1) (.literal (Binary.ofNat 2) 3) 1)
      (.call .cos (.var "u" 10) 6) 1
    let p : Program := ⟨[1, 0x4000000000000000, 5, 0x100000001, 8, 7]⟩
    let point : Point := ⟨Binary.ofNat 1, Binary.zero true, Binary.infinity false⟩
    encode e = .ok p ∧
      ∃ next, Evaluator.empty.install p = .ok next ∧ next.installed = some p ∧
        next.evaluate Primitives.standard point =
          (e.value Primitives.standard point).mapError EvalError.fault := by
  intro e p point
  have htwo : (Binary.ofNat 2 : Double).convert .single = Binary.ofBits 0x40000000 := by
    decide +kernel
  have hfinite : (Binary.ofNat 2 : Double).isInfinite = false := by decide +kernel
  have h : encode e = .ok p := by
    rw [encode_eq_lower]
    simp only [e, Expr.lower, htwo, hfinite]
    rfl
  exact ⟨h, Evaluator.evaluate_install_encode Primitives.standard Evaluator.empty e p h point⟩

end LiveFormula
