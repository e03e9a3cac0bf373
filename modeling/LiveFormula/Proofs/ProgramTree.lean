import LiveFormula.Program.Check
import Mathlib.Logic.Function.Basic

/-!
# Accepted programs are listings of trees

`Program.check` follows nothing but the depth of the stack. That is enough: the programs it accepts
are the postorder listings of the trees of `ProgramTree`, each of one tree only.

* `Instr.depthAfter?` and `Instr.depthAfterAll?` are the depth that the check follows, and
  `Program.check_eq_ok_iff` says that the check is nothing but decoding and this depth.
* `ProgramTree.assemble?` runs an instruction on a stack of trees. It moves in lock step with the
  depth (`ProgramTree.length_assembleAll?`), and the listings of the trees on the stack, from the
  bottom up, are always the instructions that have run (`ProgramTree.listing_assembleAll?`).
* `Program.check_accepts_listings` — the check accepts exactly the listings, and a listing
  determines its tree.
-/

set_option autoImplicit false

namespace LiveFormula

/-! ## The depth of the stack -/

namespace Instr

/-- The depth of the stack after an instruction; none if its slot is not known or it lacks
operands. -/
def depthAfter? : Instr → Nat → Option Nat
  | .load slot, depth => if slot = 0 ∨ slot = 1 ∨ slot = 2 then some (depth + 1) else none
  | .push _, depth => some (depth + 1)
  | .apply op, depth => if depth < op.arity then none else some (depth - op.arity + 1)

/-- The depth of the stack after instructions in order. -/
def depthAfterAll? : List Instr → Nat → Option Nat
  | [], depth => some depth
  | i :: is, depth => (i.depthAfter? depth).bind (depthAfterAll? is)

end Instr

namespace Program

/-- A word passes if it decodes and the depth allows its instruction. -/
theorem checkWord_toOption (position depth : Nat) (w : Int) :
    (checkWord position depth w).toOption =
      (Word.decode? w).bind fun i => (i.depthAfter? depth).map (Prod.mk i) := by
  unfold checkWord
  cases Word.decode? w with
  | none => rfl
  | some i =>
      cases i with
      | load slot =>
          by_cases hslot : slot = 0 ∨ slot = 1 ∨ slot = 2 <;>
            simp [Instr.depthAfter?, hslot, Except.toOption]
      | push x => rfl
      | apply op =>
          by_cases hop : depth < op.arity <;> simp [Instr.depthAfter?, hop, Except.toOption]

theorem checkWord_eq_ok_iff {position depth after : Nat} {w : Int} {i : Instr} :
    checkWord position depth w = .ok (i, after) ↔
      Word.decode? w = some i ∧ i.depthAfter? depth = some after := by
  have hok : checkWord position depth w = .ok (i, after) ↔
      (checkWord position depth w).toOption = some (i, after) := by
    cases checkWord position depth w <;> simp [Except.toOption]
  rw [hok, checkWord_toOption]
  simp [Option.bind_eq_some_iff]

theorem checkFrom_eq_ok_iff {position depth final : Nat} {ws : List Int} {is : List Instr} :
    checkFrom position depth ws = .ok (is, final) ↔
      ws.map Word.decode? = is.map some ∧ Instr.depthAfterAll? is depth = some final := by
  induction ws generalizing position depth is with
  | nil =>
      cases is with
      | nil => simp [checkFrom, Instr.depthAfterAll?]
      | cons i is => simp [checkFrom]
  | cons w ws ih =>
      rw [checkFrom]
      constructor
      · intro h
        split at h
        · cases h
        · rename_i i depth' hw
          split at h
          · cases h
          · rename_i is' final' hws
            cases h
            obtain ⟨hdecode, hdepth⟩ := checkWord_eq_ok_iff.1 hw
            obtain ⟨hmap, hall⟩ := ih.1 hws
            refine ⟨?_, ?_⟩
            · rw [List.map_cons, List.map_cons, hdecode, hmap]
            · rw [Instr.depthAfterAll?, hdepth, Option.bind_some, hall]
      · rintro ⟨hmap, hall⟩
        cases is with
        | nil => cases hmap
        | cons i is =>
            rw [List.map_cons, List.map_cons, List.cons.injEq] at hmap
            rw [Instr.depthAfterAll?, Option.bind_eq_some_iff] at hall
            obtain ⟨depth', hdepth, hrest⟩ := hall
            rw [checkWord_eq_ok_iff.2 ⟨hmap.1, hdepth⟩]
            simp only [ih.2 ⟨hmap.2, hrest⟩]

/-- The check decodes the words and follows the depth of the stack from nothing to one value. -/
theorem check_eq_ok_iff {p : Program} {is : List Instr} :
    p.check = .ok is ↔
      p.words.map Word.decode? = is.map some ∧ Instr.depthAfterAll? is 0 = some 1 := by
  unfold check
  constructor
  · intro h
    split at h
    · cases h
    · rename_i is' depth hfrom
      split at h
      · rename_i hone
        cases h
        subst hone
        exact checkFrom_eq_ok_iff.1 hfrom
      · cases h
  · intro h
    rw [checkFrom_eq_ok_iff.2 h]
    rfl

end Program

/-! ## Trees -/

/-- The tree of a program: its leaves are the three variables and literals of any bit pattern. -/
inductive ProgramTree
  | load (slot : Fin 3)
  | push (value : Single)
  | binary (op : BinOp) (left right : ProgramTree)
  | call (func : Func) (argument : ProgramTree)
  deriving DecidableEq, Repr

namespace ProgramTree

/-- The nodes of a tree as instructions, operands first and from left to right. -/
def instructions : ProgramTree → List Instr
  | load slot => [.load slot.val]
  | push x => [.push x]
  | binary op l r => l.instructions ++ r.instructions ++ [.apply (.binary op)]
  | call f a => a.instructions ++ [.apply (.call f)]

/-- A slot that a variable has. -/
def slot? (slot : Int) : Option (Fin 3) :=
  if slot = 0 then some 0 else if slot = 1 then some 1 else if slot = 2 then some 2 else none

theorem slot?_val (slot : Fin 3) : slot? slot.val = some slot := by
  revert slot; decide

theorem slot?_eq_some {slot : Int} {k : Fin 3} (h : slot? slot = some k) : slot = k.val := by
  unfold slot? at h
  split at h
  · cases h; assumption
  · split at h
    · cases h; assumption
    · split at h
      · cases h; assumption
      · cases h

/-- Runs an instruction on a stack of trees: a leaf is put on it, and an operator takes its operands
off, the right one first. -/
def assemble? : Instr → List ProgramTree → Option (List ProgramTree)
  | .load slot, stack => (slot? slot).map fun k => load k :: stack
  | .push x, stack => some (push x :: stack)
  | .apply (.binary op), r :: l :: stack => some (binary op l r :: stack)
  | .apply (.call f), a :: stack => some (call f a :: stack)
  | .apply _, _ => none

/-- Runs instructions in order on a stack of trees. -/
def assembleAll? : List Instr → List ProgramTree → Option (List ProgramTree)
  | [], stack => some stack
  | i :: is, stack => (assemble? i stack).bind (assembleAll? is)

theorem assembleAll?_append (is js : List Instr) (stack : List ProgramTree) :
    assembleAll? (is ++ js) stack = (assembleAll? is stack).bind (assembleAll? js) := by
  induction is generalizing stack with
  | nil => rfl
  | cons i is ih =>
      simp only [List.cons_append, assembleAll?]
      cases assemble? i stack with
      | none => rfl
      | some stack' => exact ih stack'

/-- Running the listing of a tree puts the tree on the stack, whatever the stack holds. -/
theorem assembleAll?_instructions (tree : ProgramTree) (stack : List ProgramTree) :
    assembleAll? tree.instructions stack = some (tree :: stack) := by
  induction tree generalizing stack with
  | load slot => simp [instructions, assembleAll?, assemble?, slot?_val]
  | push x => rfl
  | binary op l r ihl ihr =>
      simp [instructions, assembleAll?_append, ihl, ihr, assembleAll?, assemble?]
  | call f a ih => simp [instructions, assembleAll?_append, ih, assembleAll?, assemble?]

/-- A listing determines its tree. -/
theorem instructions_injective : Function.Injective instructions := by
  intro tree tree' h
  have hrun : some [tree] = some [tree'] := by
    rw [← assembleAll?_instructions tree [], h, assembleAll?_instructions tree' []]
  simpa using hrun

/-! ## The stack of trees follows the depth -/

/-- An instruction finds its operands among trees exactly if the depth allows it. -/
theorem length_assemble? (i : Instr) (stack : List ProgramTree) :
    (assemble? i stack).map List.length = i.depthAfter? stack.length := by
  match i, stack with
  | .load slot, stack =>
      by_cases h0 : slot = 0
      · simp [assemble?, slot?, Instr.depthAfter?, h0]
      · by_cases h1 : slot = 1
        · simp [assemble?, slot?, Instr.depthAfter?, h1]
        · by_cases h2 : slot = 2 <;> simp [assemble?, slot?, Instr.depthAfter?, h0, h1, h2]
  | .push x, stack => rfl
  | .apply (.binary op), [] => rfl
  | .apply (.binary op), [_] => rfl
  | .apply (.binary op), _ :: _ :: stack => simp [assemble?, Instr.depthAfter?, Opcode.arity]
  | .apply (.call f), [] => rfl
  | .apply (.call f), _ :: stack => simp [assemble?, Instr.depthAfter?, Opcode.arity]

theorem length_assembleAll? (is : List Instr) (stack : List ProgramTree) :
    (assembleAll? is stack).map List.length = Instr.depthAfterAll? is stack.length := by
  induction is generalizing stack with
  | nil => rfl
  | cons i is ih =>
      rw [assembleAll?, Instr.depthAfterAll?, ← length_assemble?]
      cases assemble? i stack with
      | none => rfl
      | some stack' => exact ih stack'

/-- The listings of the trees on a stack, from the bottom up. -/
def listing (stack : List ProgramTree) : List Instr := stack.reverse.flatMap instructions

/-- An instruction that runs is added to the listing of the stack. -/
theorem listing_assemble? {i : Instr} {stack stack' : List ProgramTree}
    (h : assemble? i stack = some stack') : listing stack' = listing stack ++ [i] := by
  match i, stack with
  | .load slot, stack =>
      obtain ⟨k, hk, rfl⟩ := Option.map_eq_some_iff.1 h
      simp [listing, instructions, slot?_eq_some hk]
  | .push x, stack =>
      cases h
      simp [listing, instructions]
  | .apply (.binary op), r :: l :: stack =>
      cases h
      simp [listing, instructions]
  | .apply (.call f), a :: stack =>
      cases h
      simp [listing, instructions]

theorem listing_assembleAll? {is : List Instr} {stack stack' : List ProgramTree}
    (h : assembleAll? is stack = some stack') : listing stack' = listing stack ++ is := by
  induction is generalizing stack with
  | nil =>
      cases h
      simp
  | cons i is ih =>
      obtain ⟨next, hnext, hrest⟩ := Option.bind_eq_some_iff.1 h
      rw [ih hrest, listing_assemble? hnext, List.append_assoc, List.singleton_append]

/-- The depth goes from nothing to one value exactly along the listings of trees. -/
theorem depthAfterAll?_eq_one_iff {is : List Instr} :
    Instr.depthAfterAll? is 0 = some 1 ↔ ∃ tree : ProgramTree, tree.instructions = is := by
  have hlength := length_assembleAll? is []
  constructor
  · intro h
    rw [List.length_nil, h, Option.map_eq_some_iff] at hlength
    obtain ⟨stack, hstack, hone⟩ := hlength
    obtain ⟨tree, rfl⟩ := List.length_eq_one_iff.1 hone
    refine ⟨tree, ?_⟩
    simpa [listing] using listing_assembleAll? hstack
  · rintro ⟨tree, rfl⟩
    rw [assembleAll?_instructions] at hlength
    exact hlength.symm

end ProgramTree

/-- **The check accepts exactly the listings of trees.** It returns the instructions that the words
decode to if these are the postorder listing of a tree, and there is only one such tree. -/
theorem Program.check_accepts_listings (p : Program) (is : List Instr) :
    (p.check = .ok is ↔
      p.words.map Word.decode? = is.map some ∧ ∃ tree : ProgramTree, tree.instructions = is) ∧
    Function.Injective ProgramTree.instructions := by
  refine ⟨?_, ProgramTree.instructions_injective⟩
  rw [Program.check_eq_ok_iff, ProgramTree.depthAfterAll?_eq_one_iff]

end LiveFormula
