import LiveFormula.Program.Report
import LiveFormula.Proofs.Compiler
import LiveFormula.Proofs.LiteralRange

/-!
# What a tree is encoded to

Whether a tree has a program is a matter of its leaves alone: each must be a variable with a slot,
or a literal in the range of 32-bit numbers (`Expr.Encodable`). If all of them are, the program has
the word of each node (`Expr.instr`), and otherwise the first leaf from the left that is not is
reported (`EncodeError.Blames`). What an encoder was given before makes no difference.

* `Expr.lower_of_encodable`, `Expr.lower_of_first` — the tree of a program, by the leaves.
* `Expr.encodesTo_encode` — the outcome for one tree.
* `Encoder.encodeAll_independent` — the outcomes for any sequence of trees.
-/

set_option autoImplicit false

namespace LiveFormula

namespace Expr

/-- The leaves from left to right. -/
def leaves : Expr → List Expr
  | var name offset => [var name offset]
  | literal x offset => [literal x offset]
  | binary _ l r _ => l.leaves ++ r.leaves
  | call _ a _ => a.leaves

/-- A leaf that has a word; operators always have one. -/
def Encodable : Expr → Prop
  | var name _ => name ∈ variableNames
  | literal x _ => Double.InSingleRange x
  | _ => True

instance : DecidablePred Encodable
  | var name _ => inferInstanceAs (Decidable (name ∈ variableNames))
  | literal x _ => inferInstanceAs (Decidable (Double.InSingleRange x))
  | binary _ _ _ _ => .isTrue trivial
  | call _ _ _ => .isTrue trivial

/-- The instruction of a node. The slot of a variable is its place among the names, and a literal is
rounded to 32 bits. -/
def instr : Expr → Instr
  | var name _ => .load (variableNames.idxOf name)
  | literal x _ => .push (x.convert .single)
  | binary op _ _ _ => .apply (.binary op)
  | call func _ _ => .apply (.call func)

end Expr

/-- The error is that of a leaf: it has the name or the value of the leaf, and its offset. -/
def EncodeError.Blames : EncodeError → Expr → Prop
  | unknownVariable name offset, leaf => leaf = .var name offset
  | literalRange x offset, leaf => leaf = .literal x offset

namespace Expr

/-! ## Leaves -/

theorem lower_var {name : String} (offset : Int) (h : name ∈ variableNames) :
    ∃ tree, (var name offset).lower = .ok tree ∧ tree.instructions = [(var name offset).instr] := by
  simp only [variableNames, List.mem_cons, List.not_mem_nil, or_false] at h
  rcases h with rfl | rfl | rfl
  · exact ⟨.load 0, rfl, rfl⟩
  · exact ⟨.load 1, rfl, rfl⟩
  · exact ⟨.load 2, rfl, rfl⟩

theorem lower_var_error {name : String} (offset : Int) (h : name ∉ variableNames) :
    (var name offset).lower = .error (.unknownVariable name offset) := by
  simp only [variableNames, List.mem_cons, List.not_mem_nil, or_false, not_or] at h
  obtain ⟨ht, hu, hv⟩ := h
  simp [lower, variableSlot?, ht, hu, hv]

/-- A literal is refused just if it, or what it is rounded to, is infinite. -/
theorem inSingleRange_iff {x : Double} :
    Double.InSingleRange x ↔ (x.isInfinite || (x.convert .single).isInfinite) = false := by
  rcases Nat.lt_trichotomy x.magnitude.val Format.double.infinity with hlt | heq | hgt
  · have hfinite : x.isFinite = true := Binary.isFinite_iff.2 hlt
    have hround := Double.isInfinite_convert_iff hfinite
    rw [Binary.isInfinite_eq_false_of_isFinite hfinite, Bool.false_or, Double.InSingleRange,
      Binary.isNaN_eq_false_of_isFinite hfinite, ← Bool.not_eq_true, hround, Nat.not_le]
    simp [hfinite]
  · have hinfinite : x.isInfinite = true := beq_iff_eq.2 heq
    have hnan : x.isNaN = false := decide_eq_false heq.le.not_gt
    have hfinite : x.isFinite = false := decide_eq_false heq.ge.not_gt
    simp [Double.InSingleRange, hinfinite, hnan, hfinite]
  · have hnan : x.isNaN = true := decide_eq_true hgt
    have hinfinite : x.isInfinite = false := beq_false_of_ne hgt.ne'
    have hround : (x.convert .single).isInfinite = false := by
      rw [Binary.convert, if_pos hnan]
      cases x.negative <;> decide
    simp [Double.InSingleRange, hnan, hinfinite, hround]

theorem lower_literal {x : Double} (offset : Int) (h : Double.InSingleRange x) :
    ∃ tree, (literal x offset).lower = .ok tree ∧
      tree.instructions = [(literal x offset).instr] := by
  rw [inSingleRange_iff] at h
  exact ⟨.push (x.convert .single), by simp [lower, h], rfl⟩

theorem lower_literal_error {x : Double} (offset : Int) (h : ¬Double.InSingleRange x) :
    (literal x offset).lower = .error (.literalRange x offset) := by
  rw [inSingleRange_iff, Bool.not_eq_false] at h
  simp [lower, h]

/-! ## Trees -/

/-- If all leaves have words, the instructions are those of the nodes, operands first. -/
theorem lower_of_encodable {e : Expr} (h : ∀ leaf ∈ e.leaves, leaf.Encodable) :
    ∃ tree, e.lower = .ok tree ∧ tree.instructions = e.listing.map instr := by
  induction e with
  | var name offset => exact lower_var offset (h _ List.mem_cons_self)
  | literal x offset => exact lower_literal offset (h _ List.mem_cons_self)
  | binary op l r offset ihl ihr =>
      obtain ⟨l', hl, hl'⟩ := ihl fun leaf hleaf => h leaf (List.mem_append_left _ hleaf)
      obtain ⟨r', hr, hr'⟩ := ihr fun leaf hleaf => h leaf (List.mem_append_right _ hleaf)
      refine ⟨.binary op l' r', by rw [lower, hl, hr]; rfl, ?_⟩
      simp [ProgramTree.instructions, listing, instr, hl', hr']
  | call func a offset ih =>
      obtain ⟨a', ha, ha'⟩ := ih h
      refine ⟨.call func a', by rw [lower, ha]; rfl, ?_⟩
      simp [ProgramTree.instructions, listing, instr, ha']

/-- The first leaf from the left that has no word is reported. -/
theorem lower_of_first {e leaf : Expr}
    (h : e.leaves.find? (fun leaf => ¬leaf.Encodable) = some leaf) :
    ∃ err, e.lower = .error err ∧ err.Blames leaf := by
  have hmem := List.mem_of_find?_eq_some h
  have hbad : ¬leaf.Encodable := by simpa using List.find?_some h
  induction e with
  | var name offset =>
      obtain rfl := List.mem_singleton.1 hmem
      exact ⟨_, lower_var_error offset hbad, rfl⟩
  | literal x offset =>
      obtain rfl := List.mem_singleton.1 hmem
      exact ⟨_, lower_literal_error offset hbad, rfl⟩
  | binary op l r offset ihl ihr =>
      rw [leaves, List.find?_append, Option.or_eq_some_iff] at h
      rcases h with hl | ⟨hl, hr⟩
      · obtain ⟨err, herr, hblames⟩ := ihl hl (List.mem_of_find?_eq_some hl)
        exact ⟨err, by rw [lower, herr]; rfl, hblames⟩
      · -- the left operand has a program, so the right one decides
        have hall : ∀ leaf ∈ l.leaves, leaf.Encodable := by simpa using hl
        obtain ⟨l', hl', -⟩ := lower_of_encodable hall
        obtain ⟨err, herr, hblames⟩ := ihr hr (List.mem_of_find?_eq_some hr)
        exact ⟨err, by rw [lower, hl', herr]; rfl, hblames⟩
  | call func a offset ih =>
      obtain ⟨err, herr, hblames⟩ := ih h hmem
      exact ⟨err, by rw [lower, herr]; rfl, hblames⟩

/-- What the outcome for a tree must be. If all leaves have words, it is a program of as many words
as the tree has nodes, each the word of its node. If not, it is an error that reports the first leaf
from the left that has none, by its name or its value and with the column of its offset. -/
structure EncodesTo (e : Expr) (outcome : Except EncodeError Program) : Prop where
  program : (∀ leaf ∈ e.leaves, leaf.Encodable) → ∃ p, outcome = .ok p ∧
    p.length = e.nodeCount ∧ p.words = e.listing.map fun node => Word.ofInstr node.instr
  error : ∀ before leaf after, e.leaves = before ++ leaf :: after →
    (∀ other ∈ before, other.Encodable) → ¬leaf.Encodable →
    ∃ err, outcome = .error err ∧ err.Blames leaf ∧
      err.report.diagnostic.span.column = leaf.offset + 1

end Expr

namespace EncodeError

/-- An error is reported at the offset of its leaf, which counts from zero while columns count from
one. -/
theorem Blames.column_eq {err : EncodeError} {leaf : Expr} (h : err.Blames leaf) :
    err.report.diagnostic.span.column = leaf.offset + 1 := by
  cases err with
  | unknownVariable name offset => cases h; rfl
  | literalRange x offset => cases h; rfl

end EncodeError

/-- **The outcome for a tree is decided by its leaves.** -/
theorem Expr.encodesTo_encode (e : Expr) : e.EncodesTo (encode e) where
  program h := by
    obtain ⟨tree, htree, hinstr⟩ := lower_of_encodable h
    have hwords : tree.program.words = e.listing.map fun node => Word.ofInstr node.instr := by
      rw [ProgramTree.program, hinstr, List.map_map]
      rfl
    refine ⟨tree.program, by rw [encode_eq_lower, htree]; rfl, ?_, hwords⟩
    rw [Program.length, hwords, List.length_map, nodeCount, postorder_eq_listing]
  error before leaf after hsplit hbefore hleaf := by
    have hfirst : e.leaves.find? (fun leaf => ¬leaf.Encodable) = some leaf := by
      refine List.find?_eq_some_iff_append.2 ⟨by simpa using hleaf, before, after, hsplit, ?_⟩
      simpa using hbefore
    obtain ⟨err, herr, hblames⟩ := lower_of_first hfirst
    exact ⟨err, by rw [encode_eq_lower, herr]; rfl, hblames, hblames.column_eq⟩

/-! ## Sequences of trees -/

namespace Encoder

/-- An encoder takes a tree as a new one does, whatever its buffer holds, and leaves the buffer
empty. -/
theorem encode_eq (encoder : Encoder) (e : Expr) :
    encoder.encode e = (LiveFormula.encode e, empty) := by
  have hempty : (encoder.encode e).2 = empty := by
    simp only [Encoder.encode]
    split <;> rfl
  exact Prod.ext rfl hempty

theorem encodeAll_eq_map (encoder : Encoder) (trees : List Expr) :
    encoder.encodeAll trees = trees.map LiveFormula.encode := by
  induction trees generalizing encoder with
  | nil => rfl
  | cons e trees ih => simp only [encodeAll, encode_eq, ih, List.map_cons]

/-- **Encoding has no history.** Given any trees in any order, an encoder in any state does with
each of them what a new encoder does with it alone, which is decided by the leaves of the tree, and
is left with an empty buffer. -/
theorem encodeAll_independent (encoder : Encoder) (trees : List Expr) :
    encoder.encodeAll trees = trees.map LiveFormula.encode ∧
      ∀ e ∈ trees, e.EncodesTo (LiveFormula.encode e) ∧ (encoder.encode e).2 = empty := by
  refine ⟨encoder.encodeAll_eq_map trees, fun e _ => ⟨e.encodesTo_encode, ?_⟩⟩
  rw [encode_eq]

end Encoder

end LiveFormula
