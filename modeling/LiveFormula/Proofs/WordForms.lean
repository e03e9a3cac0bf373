import LiveFormula.Proofs.Conversion
import LiveFormula.Proofs.WordRange

/-!
# Making words and taking them apart

A word is made of a slot, of an operator or of a double, and decoding gives these back, the double
rounded to 32 bits. The other way round a word of 64 bits is made again from what it decodes to. For a
literal this means that it is widened to a double and packed once more, which keeps the bits of every
literal that is a number: zeros, the values below the normal ones and infinities included.

* `Word.ofDouble?_convert` — packing a widened literal gives its word.
* `Word.decode?_eq_none_iff` — the words that are no instruction.
* `Word.rebuild?_of_decode?` — a word of 64 bits is made again.
* `Word.decode?_inverts` — the two directions together.
-/

set_option autoImplicit false

namespace LiveFormula

theorem Opcode.ofNumber?_eq_none_iff {n : Nat} : ofNumber? n = none ↔ ¬(4 ≤ n ∧ n ≤ 9) := by
  constructor
  · rintro h ⟨hlow, hhigh⟩
    obtain rfl | rfl | rfl | rfl | rfl | rfl :
        n = 4 ∨ n = 5 ∨ n = 6 ∨ n = 7 ∨ n = 8 ∨ n = 9 := by omega
    all_goals cases h
  · intro h
    cases hop : ofNumber? n with
    | none => rfl
    | some op =>
        have hnumber := op.number_mem
        rw [← ofNumber?_eq_some hop] at hnumber
        exact absurd hnumber h

namespace Word

/-! ## Literals -/

/-- Whatever a double is packed to is the word of what it is rounded to. -/
theorem eq_of_ofDouble? {x : Double} {w : Int} (h : ofDouble? x = some w) :
    w = ofSingle (x.convert .single) := by
  unfold ofDouble? at h
  simp only at h
  split at h
  · cases h
  · cases h
    rfl

/-- Packing a widened literal gives its word. -/
theorem ofDouble?_convert {y : Single} (hy : y.isNaN = false) :
    ofDouble? (y.convert .double) = some (ofSingle y) := by
  have hback : (y.convert .double).convert .single = y :=
    Binary.convert_convert Format.single_within_double hy
  have hinfinite : y.isInfinite = true → (y.convert .double).isInfinite = true := by
    intro h
    rcases Binary.isFinite_or_eq_infinity hy with hfinite | heq
    · rw [Binary.isInfinite_eq_false_of_isFinite hfinite] at h
      cases h
    · rw [heq, Binary.convert_infinity, Binary.isInfinite_infinity]
  unfold ofDouble?
  simp only [hback]
  rw [if_neg]
  intro h
  rw [Bool.and_eq_true, Bool.not_eq_true'] at h
  rw [hinfinite h.1] at h
  cases h.2

/-! ## Words that are no instruction -/

theorem decode?_eq_none_iff {w : Int} :
    decode? w = none ↔ (w % 2 ^ 32 ≠ 0 ∧ w % 2 ^ 32 ≠ 1) ∧ ¬(4 ≤ w ∧ w ≤ 9) := by
  have hlow : 0 ≤ w % half := Int.emod_nonneg w (by decide)
  unfold decode?
  simp only
  split
  · simp only [half, reduceCtorEq, false_iff] at *
    omega
  · split
    · simp only [half, reduceCtorEq, false_iff] at *
      omega
    · split
      · -- the upper half is zero, so the word is its lower half
        rw [Option.map_eq_none_iff, Opcode.ofNumber?_eq_none_iff]
        simp only [half] at *
        omega
      · simp only [half, true_iff] at *
        omega

/-! ## Words made again -/

/-- The word made of what a word decodes to. The value of a literal is a double by then. -/
def rebuild? : Instr → Option Int
  | .load slot => some (ofSlot slot)
  | .push x => ofDouble? (x.convert .double)
  | .apply op => some (ofOpcode op)

theorem rebuild?_of_decode? {w : Int} {i : Instr} (hlow : 0 ≤ w) (hhigh : w ≤ 2 ^ 64 - 1)
    (h : decode? w = some i) (hnan : ∀ x, i = .push x → x.isNaN = false) :
    rebuild? i = some w := by
  have hword : ofInstr i = w := by
    rcases eq_or_emod_of_decode? h with rfl | ⟨x, rfl, hx⟩
    · rfl
    · show ofSingle x = w
      omega
  rw [← hword]
  cases i with
  | load slot => rfl
  | push x => exact ofDouble?_convert (hnan x rfl)
  | apply op => rfl

/-- **Making words and taking them apart are inverse.** A slot of any size and sign and every operator
are given back by the word made of them. A double that has a word, and is a number, is given back
rounded to 32 bits, and what is given back has the same word. A word is no instruction just if its
lower half is neither 0 nor 1 and it is not one of the numbers 4 to 9; and a word of 64 bits that
decodes to anything but a literal that is not a number is made again from what it decodes to. -/
theorem decode?_inverts :
    (∀ slot : Int, decode? (ofSlot slot) = some (.load slot)) ∧
    (∀ op : Opcode, decode? (ofOpcode op) = some (.apply op)) ∧
    (∀ (x : Double) (w : Int), x.isNaN = false → ofDouble? x = some w →
      ∃ y : Single, decode? w = some (.push y) ∧ x.RoundsTo y ∧
        ofDouble? (y.convert .double) = some w) ∧
    (∀ w : Int, decode? w = none ↔ (w % 2 ^ 32 ≠ 0 ∧ w % 2 ^ 32 ≠ 1) ∧ ¬(4 ≤ w ∧ w ≤ 9)) ∧
    ∀ (w : Int) (i : Instr), 0 ≤ w → w ≤ 2 ^ 64 - 1 → decode? w = some i →
      (∀ x, i = .push x → x.isNaN = false) → rebuild? i = some w := by
  refine ⟨decode?_ofSlot, decode?_ofOpcode, ?_, fun w => decode?_eq_none_iff, ?_⟩
  · intro x w hx hw
    have hword := eq_of_ofDouble? hw
    refine ⟨x.convert .single, ?_, (Binary.roundsTo_single_iff hx).2 rfl, ?_⟩
    · rw [hword, decode?_ofSingle]
    · rw [hword, ofDouble?_convert (Binary.isNaN_convert _ hx)]
  · intro w i hlow hhigh hdecode hnan
    exact rebuild?_of_decode? hlow hhigh hdecode hnan

/-- The number `2 ^ 24 + 1` is no 32-bit number, and its word is that of `2 ^ 24`. The least positive
32-bit number is made again from its word. -/
theorem decode?_inverts_literals :
    let x : Double := Binary.ofNat 16777217
    let least : Single := Binary.ofBits 1
    (∃ y : Single, decode? 0x4b80000000000000 = some (.push y) ∧ x.RoundsTo y ∧
      ofDouble? (y.convert .double) = some 0x4b80000000000000) ∧
    decode? 0x100000000 = some (.push least) ∧ rebuild? (.push least) = some 0x100000000 := by
  intro x least
  have hx : ofDouble? x = some 0x4b80000000000000 := by decide +kernel
  have hleast : decode? 0x100000000 = some (.push least) := by decide +kernel
  have hnan : ∀ y, Instr.push least = .push y → y.isNaN = false := by
    rintro y ⟨⟩
    decide +kernel
  exact ⟨decode?_inverts.2.2.1 x _ (by decide +kernel) hx, hleast,
    decode?_inverts.2.2.2.2 _ _ (by decide) (by decide) hleast hnan⟩

end Word

end LiveFormula
