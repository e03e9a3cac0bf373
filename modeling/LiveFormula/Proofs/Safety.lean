import LiveFormula.Machine.Evaluator
import LiveFormula.Proofs.ProgramTree

/-!
# Accepted programs run without a fault

The check of a program follows the depth of the stack, and the machine follows the stack itself. The
two move in lock step, so that a program that is accepted never finds the stack too short, and the
operations that may fail are only ever applied where they do not.

* `Primitives.FailsOutsideDomain` is all that is asked of the primitive operations: division fails
  on zero and nothing else, the two functions fail on the infinities and nothing else.
* `Machine.length_step` and `Machine.length_run` — an instruction, and then a list of them, runs
  exactly if the depth allows it, and the depth is then the length of the stack.
* `Evaluator.evaluate_install_checked` — an accepted program can be installed and has a value at
  every point, and the depth of the check is the length of the stack after every prefix.
-/

set_option autoImplicit false

namespace LiveFormula

/-! ## Guarded operations do not fail -/

namespace Primitives

/-- Division fails exactly on a zero divisor, and the two functions exactly on the infinities. -/
structure FailsOutsideDomain (P : Primitives) : Prop where
  div : ∀ x y, (∃ f, P.div x y = .error f) ↔ y.isZero = true
  sin : ∀ x, (∃ f, P.sin x = .error f) ↔ x.isInfinite = true
  cos : ∀ x, (∃ f, P.cos x = .error f) ↔ x.isInfinite = true

theorem finiteOnly_fails_iff (f : Double → Double) (x : Double) :
    (∃ e, finiteOnly f x = .error e) ↔ x.isInfinite = true := by
  unfold finiteOnly
  cases x.isInfinite <;> simp

theorem standard_failsOutsideDomain : standard.FailsOutsideDomain where
  div x y := by
    unfold standard
    cases hy : y.isZero <;> simp [hy]
  sin := finiteOnly_fails_iff Double.sin
  cos := finiteOnly_fails_iff Double.cos

variable {P : Primitives}

/-- Something that does not fail has a result. -/
theorem ok_of_not_error {α : Type} {result : Except Fault α} (h : ¬ ∃ f, result = .error f) :
    ∃ a, result = .ok a := by
  cases result with
  | ok a => exact ⟨a, rfl⟩
  | error f => exact absurd ⟨f, rfl⟩ h

/-- A zero divisor never reaches the division. -/
theorem FailsOutsideDomain.divide_ok (hP : P.FailsOutsideDomain) (x y : Double) :
    ∃ z, P.divide x y = .ok z := by
  unfold divide
  split
  · split
    · exact ⟨_, rfl⟩
    · exact ⟨_, rfl⟩
  · rename_i hy
    refine ok_of_not_error fun hdiv => ?_
    exact hy ((hP.div x y).1 hdiv)

/-- An infinity never reaches a function that fails on the infinities only. -/
theorem guard_ok {f : Double → Except Fault Double}
    (hf : ∀ x, (∃ e, f x = .error e) ↔ x.isInfinite = true) (x : Double) :
    ∃ z, guard f x = .ok z := by
  unfold guard
  split
  · exact ⟨_, rfl⟩
  · rename_i hx
    refine ok_of_not_error fun herror => hx ?_
    rw [(hf x).1 herror, Bool.true_or]

end Primitives

/-! ## The stack follows the depth -/

namespace Machine

variable {P : Primitives} (hP : P.FailsOutsideDomain) (point : Point)

include hP

theorem binary_ok (op : BinOp) (x y : Double) : ∃ z, binary P op x y = .ok z := by
  cases op with
  | add => exact ⟨_, rfl⟩
  | sub => exact ⟨_, rfl⟩
  | mul => exact ⟨_, rfl⟩
  | div => exact hP.divide_ok x y

theorem call_ok (func : Func) (x : Double) : ∃ z, call P func x = .ok z := by
  cases func with
  | sin => exact Primitives.guard_ok hP.sin x
  | cos => exact Primitives.guard_ok hP.cos x

/-- An instruction runs exactly if the depth allows it, and the stack is then as long as the depth
says. -/
theorem length_step (i : Instr) (stack : List Double) :
    (step P point i stack).toOption.map List.length = i.depthAfter? stack.length := by
  match i, stack with
  | .load slot, stack =>
      by_cases h0 : slot = 0
      · simp [step, Point.read?, Instr.depthAfter?, h0, Except.toOption]
      · by_cases h1 : slot = 1
        · simp [step, Point.read?, Instr.depthAfter?, h1, Except.toOption]
        · by_cases h2 : slot = 2 <;>
            simp [step, Point.read?, Instr.depthAfter?, h0, h1, h2, Except.toOption]
  | .push x, stack => rfl
  | .apply (.binary op), [] => rfl
  | .apply (.binary op), [_] => rfl
  | .apply (.binary op), y :: x :: stack =>
      obtain ⟨z, hz⟩ := binary_ok hP op x y
      simp [step, hz, push, Instr.depthAfter?, Opcode.arity, Except.toOption]
  | .apply (.call func), [] => rfl
  | .apply (.call func), x :: stack =>
      obtain ⟨z, hz⟩ := call_ok hP func x
      simp [step, hz, push, Instr.depthAfter?, Opcode.arity, Except.toOption]

/-- Instructions run to their end exactly if the depth allows all of them. -/
theorem length_run (is : List Instr) (stack : List Double) :
    (run P point is stack).toOption.map List.length = Instr.depthAfterAll? is stack.length := by
  induction is generalizing stack with
  | nil => rfl
  | cons i is ih =>
      rw [run, Instr.depthAfterAll?, ← length_step hP point i stack]
      cases step P point i stack with
      | error f => rfl
      | ok stack' => exact ih stack'

/-- Where the depth comes out, there is a stack of that length. -/
theorem run_of_depthAfterAll? {is : List Instr} {depth : Nat}
    (hdepth : Instr.depthAfterAll? is 0 = some depth) :
    ∃ stack, run P point is [] = .ok stack ∧ stack.length = depth := by
  have hlength := length_run hP point is []
  rw [List.length_nil, hdepth] at hlength
  cases hrun : run P point is [] with
  | error f => rw [hrun] at hlength; cases hlength
  | ok stack =>
      rw [hrun] at hlength
      exact ⟨stack, rfl, Option.some.inj hlength⟩

/-- An accepted program has a value at every point. -/
theorem exists_evaluate_of_check {p : Program} {is : List Instr} (h : p.check = .ok is) :
    ∃ x, evaluate P is point = .ok x := by
  obtain ⟨stack, hrun, hlength⟩ := run_of_depthAfterAll? hP point (Program.check_eq_ok_iff.1 h).2
  obtain ⟨x, rfl⟩ := List.length_eq_one_iff.1 hlength
  exact ⟨x, by rw [evaluate, hrun]⟩

end Machine

namespace Instr

theorem depthAfterAll?_append (is js : List Instr) (depth : Nat) :
    depthAfterAll? (is ++ js) depth = (depthAfterAll? is depth).bind (depthAfterAll? js) := by
  induction is generalizing depth with
  | nil => rfl
  | cons i is ih =>
      simp only [List.cons_append, depthAfterAll?]
      cases i.depthAfter? depth with
      | none => rfl
      | some next => exact ih next

/-- If the depth comes out for a list, it does for every prefix of the list. -/
theorem exists_depthAfterAll?_take {is : List Instr} {depth final : Nat}
    (h : depthAfterAll? is depth = some final) (k : Nat) :
    ∃ between, depthAfterAll? (is.take k) depth = some between := by
  rw [← List.take_append_drop k is, depthAfterAll?_append, Option.bind_eq_some_iff] at h
  obtain ⟨between, hbetween, -⟩ := h
  exact ⟨between, hbetween⟩

end Instr

/-! ## No accepted program fails -/

/-- **Accepted programs cannot fail.** A program that passes the check can be installed, its run
from the empty stack leaves one value and nothing else, and that is what the evaluator answers.
After every prefix of the program the stack is as long as the check says. -/
theorem Evaluator.evaluate_install_checked (P : Primitives) (hP : P.FailsOutsideDomain)
    (evaluator : Evaluator) (p : Program) (is : List Instr) (hcheck : p.check = .ok is)
    (point : Point) :
    (∃ next value, evaluator.install p = .ok next ∧ next.current = some ⟨p, is⟩ ∧
      Machine.run P point is [] = .ok [value] ∧ next.evaluate P point = .ok value) ∧
    ∀ k, ∃ stack, Machine.run P point (is.take k) [] = .ok stack ∧
      Program.checkFrom 0 0 (p.words.take k) = .ok (is.take k, stack.length) := by
  obtain ⟨hdecode, hdepth⟩ := Program.check_eq_ok_iff.1 hcheck
  constructor
  · obtain ⟨stack, hrun, hlength⟩ := Machine.run_of_depthAfterAll? hP point hdepth
    obtain ⟨value, rfl⟩ := List.length_eq_one_iff.1 hlength
    refine ⟨⟨some ⟨p, is⟩, evaluator.generation + 1⟩, value, ?_, rfl, hrun, ?_⟩
    · rw [install, hcheck]
    · simp only [evaluate, Machine.evaluate, hrun]
  · intro k
    obtain ⟨depth, hprefix⟩ := Instr.exists_depthAfterAll?_take hdepth k
    obtain ⟨stack, hrun, rfl⟩ := Machine.run_of_depthAfterAll? hP point hprefix
    refine ⟨stack, hrun, Program.checkFrom_eq_ok_iff.2 ⟨?_, hprefix⟩⟩
    rw [List.map_take, List.map_take, hdecode]

/-- The sine of infinity divided by a negative zero: four words that no formula compiles to. -/
theorem Evaluator.evaluate_install_checked_quotient :
    let p : Program := ⟨[0x7f80000000000000, 9, 1, 7]⟩
    let is : List Instr :=
      [.push (Binary.infinity false), .apply (.call .sin), .load 0, .apply (.binary .div)]
    let point : Point := ⟨Binary.zero true, Binary.notANumber false, Binary.infinity true⟩
    Primitives.standard.FailsOutsideDomain ∧ p.check = .ok is ∧
      (∃ next value, Evaluator.empty.install p = .ok next ∧ next.current = some ⟨p, is⟩ ∧
        Machine.run Primitives.standard point is [] = .ok [value] ∧
        next.evaluate Primitives.standard point = .ok value) ∧
      ∀ k, ∃ stack, Machine.run Primitives.standard point (is.take k) [] = .ok stack ∧
        Program.checkFrom 0 0 (p.words.take k) = .ok (is.take k, stack.length) := by
  intro p is point
  have hcheck : p.check = .ok is := rfl
  exact ⟨Primitives.standard_failsOutsideDomain, hcheck,
    Evaluator.evaluate_install_checked _ Primitives.standard_failsOutsideDomain Evaluator.empty p is
      hcheck point⟩

end LiveFormula
