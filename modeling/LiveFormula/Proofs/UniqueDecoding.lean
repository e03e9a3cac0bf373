import LiveFormula.Proofs.Compiler
import Mathlib.Data.List.Basic

/-!
# Programs determine their trees

Words carry no brackets, but the words of a tree can be read in one way only. Running them on a stack
of trees rebuilds the tree, so equal words come from trees that differ in nothing a word can hold:
offsets, and what rounding takes from a literal (`Expr.sameCode`). The same run shows that a listing
ends with no other listing: what stands before the other one would leave a tree on the stack.

* `ProgramTree.eq_of_suffix` — no listing is a proper suffix of another one.
* `Expr.LowersTo.sameCode_eq_true`, `Expr.LowersTo.eq_of_sameCode` — trees are lowered to the same tree
  just if they have the same code.
* `encode_uniquely_decodable` — the two results for the words of encoded trees.
-/

set_option autoImplicit false

namespace LiveFormula

/-! ## Words and listings -/

namespace Word

theorem ofInstr_injective : Function.Injective ofInstr := by
  intro i j h
  have hdecode := congrArg decode? h
  rw [decode?_ofInstr, decode?_ofInstr] at hdecode
  exact Option.some.inj hdecode

theorem ofSingle_injective : Function.Injective ofSingle := by
  intro x y h
  have hpush : Instr.push x = .push y := ofInstr_injective h
  exact Instr.push.inj hpush

end Word

namespace ProgramTree

theorem words_injective : Function.Injective fun tree : ProgramTree => tree.program.words :=
  (List.map_injective_iff.2 Word.ofInstr_injective).comp instructions_injective

/-- No listing is a proper suffix of another one. -/
theorem eq_of_suffix {tree other : ProgramTree} (h : other.instructions <:+ tree.instructions) :
    other = tree := by
  obtain ⟨before, hsplit⟩ := h
  -- the trees that `before` leaves on the stack are still there when `other` has been put on it
  have hrun := assembleAll?_instructions tree []
  rw [← hsplit, assembleAll?_append, Option.bind_eq_some_iff] at hrun
  obtain ⟨stack, -, hother⟩ := hrun
  rw [assembleAll?_instructions, Option.some.injEq, List.cons.injEq] at hother
  exact hother.1

theorem eq_of_suffix_words {tree other : ProgramTree}
    (h : other.program.words <:+ tree.program.words) : other = tree := by
  obtain ⟨before, hsplit⟩ := h
  obtain ⟨js, is, hinstr, -, his⟩ := List.map_eq_append_iff.1 hsplit.symm
  have hback : is = other.instructions := List.map_injective_iff.2 Word.ofInstr_injective his
  exact eq_of_suffix ⟨js, by rw [hinstr, hback]⟩

end ProgramTree

/-! ## Trees with the same code -/

namespace Expr

/-- Whether two trees are the same up to offsets and up to the words of their literals. -/
def sameCode : Expr → Expr → Bool
  | var name _, var name' _ => name == name'
  | literal x _, literal y _ => Word.ofDouble? x == Word.ofDouble? y
  | binary op l r _, binary op' l' r' _ => op == op' && (l.sameCode l' && r.sameCode r')
  | call func a _, call func' a' _ => func == func' && a.sameCode a'
  | _, _ => false

/-- `LowersTo e tree`: the two have the same shape, the slots of the variables in `tree` are those of
the names in `e`, and the literals in `tree` have the words of the literals in `e`. -/
inductive LowersTo : Expr → ProgramTree → Prop
  | var {name : String} {offset : Int} {slot : Fin 3}
      (hname : variableNames[slot.val]? = some name) : LowersTo (.var name offset) (.load slot)
  | literal {x : Double} {offset : Int} {y : Single}
      (hword : Word.ofDouble? x = some (Word.ofSingle y)) : LowersTo (.literal x offset) (.push y)
  | binary {op : BinOp} {l r : Expr} {l' r' : ProgramTree} {offset : Int} (hl : LowersTo l l')
      (hr : LowersTo r r') : LowersTo (.binary op l r offset) (.binary op l' r')
  | call {func : Func} {a : Expr} {a' : ProgramTree} {offset : Int} (ha : LowersTo a a') :
      LowersTo (.call func a offset) (.call func a')

theorem lowersTo_of_lower {e : Expr} {tree : ProgramTree} (h : e.lower = .ok tree) :
    LowersTo e tree := by
  induction e generalizing tree with
  | var name offset =>
      by_cases ht : name = "t"
      · subst ht; cases h; exact .var rfl
      · by_cases hu : name = "u"
        · subst hu; cases h; exact .var rfl
        · by_cases hv : name = "v"
          · subst hv; cases h; exact .var rfl
          · simp [lower, variableSlot?, ht, hu, hv] at h
  | literal x offset =>
      unfold lower at h
      split at h
      · cases h
      · rename_i hfinite
        cases h
        rw [Bool.not_eq_true, Bool.or_eq_false_iff] at hfinite
        exact .literal (by simp [Word.ofDouble?, hfinite.2])
  | binary op l r offset ihl ihr =>
      rw [lower] at h
      cases hl : l.lower with
      | error err => rw [hl] at h; cases h
      | ok l' =>
          cases hr : r.lower with
          | error err => rw [hl, hr] at h; cases h
          | ok r' =>
              rw [hl, hr] at h
              cases h
              exact .binary (ihl hl) (ihr hr)
  | call func a offset ih =>
      rw [lower] at h
      cases ha : a.lower with
      | error err => rw [ha] at h; cases h
      | ok a' =>
          rw [ha] at h
          cases h
          exact .call (ih ha)

namespace LowersTo

variable {a b : Expr} {tree tree' : ProgramTree}

/-- Trees that are lowered to the same tree have the same code. -/
theorem sameCode_eq_true (ha : LowersTo a tree) (hb : LowersTo b tree) : a.sameCode b = true := by
  induction ha generalizing b with
  | var hname =>
      cases hb with
      | var hname' => simpa [sameCode, hname] using hname'
  | literal hword =>
      cases hb with
      | literal hword' => rw [sameCode, hword, hword', beq_self_eq_true]
  | binary _ _ ihl ihr =>
      cases hb with
      | binary hl' hr' => simp [sameCode, ihl hl', ihr hr']
  | call _ ih =>
      cases hb with
      | call ha' => simp [sameCode, ih ha']

/-- Trees with the same code are lowered to the same tree. -/
theorem eq_of_sameCode (ha : LowersTo a tree) (hb : LowersTo b tree') (h : a.sameCode b = true) :
    tree = tree' := by
  induction ha generalizing b tree' with
  | @var name offset slot hname =>
      cases hb with
      | @var name' offset' slot' hname' =>
          rw [sameCode, beq_iff_eq] at h
          subst h
          have hnodup : variableNames.Nodup := by decide
          have hslot := (List.getElem?_inj slot.isLt hnodup).1 (hname.trans hname'.symm)
          rw [Fin.ext hslot]
      | _ => cases h
  | literal hword =>
      cases hb with
      | literal hword' =>
          rw [sameCode, beq_iff_eq, hword, hword', Option.some.injEq] at h
          rw [Word.ofSingle_injective h]
      | _ => cases h
  | binary _ _ ihl ihr =>
      cases hb with
      | binary hl' hr' =>
          simp only [sameCode, Bool.and_eq_true, beq_iff_eq] at h
          rw [h.1, ihl hl' h.2.1, ihr hr' h.2.2]
      | _ => cases h
  | call _ ih =>
      cases hb with
      | call ha' =>
          simp only [sameCode, Bool.and_eq_true, beq_iff_eq] at h
          rw [h.1, ih ha' h.2]
      | _ => cases h

end LowersTo

end Expr

/-! ## Encoded trees -/

/-- What is encoded are the words of a tree that the expression is lowered to. -/
theorem exists_lowersTo_of_encode {e : Expr} {p : Program} (h : encode e = .ok p) :
    ∃ tree : ProgramTree, e.LowersTo tree ∧ p = tree.program := by
  obtain ⟨tree, hlower, hp⟩ := exists_lower_of_encode h
  exact ⟨tree, Expr.lowersTo_of_lower hlower, hp⟩

/-- **Encoding is uniquely decodable.** Two trees have the same words just if they are the same up to
offsets and up to the words of their literals, and no proper suffix of the words of a tree is what
any tree is encoded to. -/
theorem encode_uniquely_decodable (a b : Expr) (p q : Program) (ha : encode a = .ok p)
    (hb : encode b = .ok q) :
    (p.words = q.words ↔ a.sameCode b = true) ∧
    ∀ suffix, suffix <:+ p.words → suffix ≠ p.words → ∀ c, encode c ≠ .ok ⟨suffix⟩ := by
  obtain ⟨tree, hlower, rfl⟩ := exists_lowersTo_of_encode ha
  obtain ⟨tree', hlower', rfl⟩ := exists_lowersTo_of_encode hb
  refine ⟨⟨fun hwords => ?_, fun hsame => ?_⟩, fun suffix hsuffix hproper c hc => hproper ?_⟩
  · obtain rfl := ProgramTree.words_injective hwords
    exact hlower.sameCode_eq_true hlower'
  · rw [hlower.eq_of_sameCode hlower' hsame]
  · obtain ⟨other, -, hother⟩ := exists_lowersTo_of_encode hc
    obtain rfl : suffix = other.program.words := congrArg Program.words hother
    rw [ProgramTree.eq_of_suffix_words hsuffix]

/-- The literals of `t + 16777217` and `t + 16777216` differ, but they are rounded to one 32-bit
number. -/
theorem encode_uniquely_decodable_rounded :
    let a : Expr := .binary .add (.var "t" 0) (.literal (Binary.ofNat 16777217) 2) 0
    let b : Expr := .binary .add (.var "t" 4) (.literal (Binary.ofNat 16777216) 8) 4
    let p : Program := ⟨[1, 0x4b80000000000000, 4]⟩
    a ≠ b ∧ encode a = .ok p ∧ encode b = .ok p ∧
      (p.words = p.words ↔ a.sameCode b = true) ∧
      ∀ suffix, suffix <:+ p.words → suffix ≠ p.words → ∀ c, encode c ≠ .ok ⟨suffix⟩ := by
  intro a b p
  have hx : (Binary.ofNat 16777217 : Double).convert .single = Binary.ofBits 0x4b800000 := by
    decide +kernel
  have hy : (Binary.ofNat 16777216 : Double).convert .single = Binary.ofBits 0x4b800000 := by
    decide +kernel
  have hfinite : (Binary.ofNat 16777217 : Double).isInfinite = false ∧
      (Binary.ofNat 16777216 : Double).isInfinite = false := by decide +kernel
  have ha : encode a = .ok p := by
    rw [encode_eq_lower]
    simp only [a, Expr.lower, hx, hfinite]
    rfl
  have hb : encode b = .ok p := by
    rw [encode_eq_lower]
    simp only [b, Expr.lower, hy, hfinite]
    rfl
  exact ⟨by simp [a, b], ha, hb, encode_uniquely_decodable a b p p ha hb⟩

end LiveFormula
