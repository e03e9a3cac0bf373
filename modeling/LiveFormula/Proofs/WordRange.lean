import LiveFormula.Proofs.ByteFormat
import Mathlib.Data.List.Basic
import Mathlib.Data.Option.Basic

/-!
# The range of accepted words

A program is made of integers of any size and sign, the byte format takes those of 64 bits, and the
check of a program looks at the halves of each word. The slot of a variable and the upper half of an
operator are compared as they are, so these words are in range once they are accepted. Of the upper
half of a literal only the low 32 bits count: the word of a literal is accepted together with all
integers that differ from it by a multiple of `2 ^ 64`, and these cannot be written.

* `Word.eq_or_emod_of_decode?` — the words that decode to an instruction.
* `Program.emod_of_check` — accepted words are those of their instructions up to multiples of
  `2 ^ 64`.
* `Program.toBytes?_of_check` — which accepted programs can be written, and what is read back.
-/

set_option autoImplicit false

namespace LiveFormula

/-! ## Decoding one word -/

theorem Binary.toBits_ofBits {F : Format} {n : Nat} (h : n < 2 * F.size) :
    (ofBits n : Binary F).toBits = n := by
  have hpos : 0 < F.size := Nat.two_pow_pos _
  by_cases hn : n < F.size
  · simp [toBits, ofBits, Nat.div_eq_of_lt hn, Nat.mod_eq_of_lt hn]
  · have hdiv : n / F.size = 1 := by
      rw [Nat.div_eq_iff hpos]
      omega
    have hmod : n % F.size = n - F.size := by
      rw [Nat.mod_eq_sub_mod (by omega), Nat.mod_eq_of_lt (by omega)]
    simp only [toBits, ofBits, hdiv, hmod]
    simp
    omega

theorem Opcode.ofNumber?_eq_some {n : Nat} {op : Opcode} (h : ofNumber? n = some op) :
    n = op.number := by
  unfold ofNumber? at h
  split at h <;> cases h <;> rfl

namespace Word

/-- A word is that of its instruction, or the instruction pushes a literal and the word is that of the
literal up to a multiple of `2 ^ 64`. -/
theorem eq_or_emod_of_decode? {w : Int} {i : Instr} (h : decode? w = some i) :
    w = ofInstr i ∨ ∃ x, i = .push x ∧ w % 2 ^ 64 = ofSingle x := by
  have hlow : 0 ≤ w % half := Int.emod_nonneg w (by decide)
  simp only [decode?] at h
  split at h
  · cases h
    left
    simp only [ofInstr, ofSlot, half] at *
    omega
  · split at h
    · cases h
      right
      have hbits : (w / half % half).toNat < 2 * Format.single.size := by
        have hsize : 2 * Format.single.size = 4294967296 := by decide
        rw [hsize, half]
        omega
      refine ⟨_, rfl, ?_⟩
      rw [ofSingle, Binary.toBits_ofBits hbits]
      simp only [half] at *
      omega
    · split at h
      · obtain ⟨op, hop, rfl⟩ := Option.map_eq_some_iff.1 h
        left
        have hnumber := Opcode.ofNumber?_eq_some hop
        simp only [ofInstr, ofOpcode, half] at *
        omega
      · cases h

end Word

/-! ## Accepted programs -/

namespace Program

variable {p : Program} {is : List Instr}

/-- An accepted word has an instruction, and the word made of the instruction fits. -/
theorem exists_instr_of_check (h : p.check = .ok is) {w : Int} (hw : w ∈ p.words) :
    ∃ i, Word.decode? w = some i ∧ fits (Word.ofInstr i) = true := by
  obtain ⟨hdecode, hdepth⟩ := check_eq_ok_iff.1 h
  obtain ⟨tree, rfl⟩ := ProgramTree.depthAfterAll?_eq_one_iff.1 hdepth
  have hmem : Word.decode? w ∈ tree.instructions.map some := by
    rw [← hdecode]
    exact List.mem_map_of_mem hw
  obtain ⟨i, hi, hword⟩ := List.mem_map.1 hmem
  exact ⟨i, hword.symm, ProgramTree.fits_ofInstr hi⟩

/-- An accepted word that does not fit is one of a literal. -/
theorem decode?_of_not_fits (h : p.check = .ok is) {w : Int} (hw : w ∈ p.words)
    (hfits : ¬fits w = true) : ∃ x, Word.decode? w = some (.push x) := by
  obtain ⟨i, hdecode, hi⟩ := exists_instr_of_check h hw
  rcases Word.eq_or_emod_of_decode? hdecode with rfl | ⟨x, rfl, -⟩
  · exact absurd hi hfits
  · exact ⟨x, hdecode⟩

/-- Accepted words are those of their instructions up to multiples of `2 ^ 64`. -/
theorem emod_of_check (h : p.check = .ok is) :
    p.words.map (· % 2 ^ 64) = is.map Word.ofInstr := by
  have hword : ∀ w ∈ p.words, (Word.decode? w).map Word.ofInstr = some (w % 2 ^ 64) := by
    intro w hw
    obtain ⟨i, hdecode, hi⟩ := exists_instr_of_check h hw
    obtain ⟨hlow, hhigh⟩ := fits_iff.1 hi
    rw [hdecode, Option.map_some, Option.some.injEq]
    rcases Word.eq_or_emod_of_decode? hdecode with rfl | ⟨x, rfl, hx⟩
    · omega
    · exact hx.symm
  have hdecode := congrArg (List.map (Option.map Word.ofInstr)) (check_eq_ok_iff.1 h).1
  rw [List.map_map, List.map_map] at hdecode
  refine List.map_injective_iff.2 (Option.some_injective Int) ?_
  rw [List.map_map, List.map_map]
  exact (List.map_congr_left hword).symm.trans hdecode

/-- **Which accepted programs can be written.** An accepted program cannot be written just if it has
the word of a literal outside `0 .. 2 ^ 64 - 1`; words of variables and operators are never outside.
What is written is read back as a program that is accepted with the same instructions. With all
words taken modulo `2 ^ 64` an accepted program is accepted with the same instructions, and can
always be written. -/
theorem toBytes?_of_check (p : Program) (is : List Instr) (h : p.check = .ok is) :
    (p.toBytes? = none ↔
      ∃ w ∈ p.words, (∃ x, Word.decode? w = some (.push x)) ∧ ¬(0 ≤ w ∧ w ≤ 2 ^ 64 - 1)) ∧
    (∀ bytes, p.toBytes? = some bytes → ∃ q, ofBytes bytes = .ok q ∧ q.check = .ok is) ∧
    ∃ bytes, (⟨p.words.map (· % 2 ^ 64)⟩ : Program).toBytes? = some bytes ∧
      (⟨p.words.map (· % 2 ^ 64)⟩ : Program).check = .ok is := by
  refine ⟨⟨fun hnone => ?_, ?_⟩, fun bytes hbytes => ⟨p, ofBytes_of_toBytes? hbytes, h⟩, ?_⟩
  · obtain ⟨w, hw, hfits⟩ := toBytes?_eq_none_iff.1 hnone
    exact ⟨w, hw, decode?_of_not_fits h hw hfits, fun hrange => hfits (fits_iff.2 hrange)⟩
  · rintro ⟨w, hw, -, hrange⟩
    exact toBytes?_eq_none_iff.2 ⟨w, hw, fun hfits => hrange (fits_iff.1 hfits)⟩
  · obtain ⟨tree, rfl⟩ := ProgramTree.depthAfterAll?_eq_one_iff.1 (check_eq_ok_iff.1 h).2
    rw [emod_of_check h]
    refine ⟨_, toBytes?_eq_some_iff.2 ⟨fun w hw => ?_, rfl⟩, tree.check_program⟩
    obtain ⟨i, hi, rfl⟩ := List.mem_map.1 hw
    exact ProgramTree.fits_ofInstr hi

/-- The sum of `t` and a literal whose word is negative. -/
theorem toBytes?_of_check_negative :
    let p : Program := ⟨[1, -0x4000000000000000, 4]⟩
    let is : List Instr := [.load 0, .push (Binary.ofBits 0xc0000000), .apply (.binary .add)]
    p.check = .ok is ∧
      (p.toBytes? = none ↔
        ∃ w ∈ p.words, (∃ x, Word.decode? w = some (.push x)) ∧ ¬(0 ≤ w ∧ w ≤ 2 ^ 64 - 1)) ∧
      (∀ bytes, p.toBytes? = some bytes → ∃ q, ofBytes bytes = .ok q ∧ q.check = .ok is) ∧
      ∃ bytes, (⟨p.words.map (· % 2 ^ 64)⟩ : Program).toBytes? = some bytes ∧
        (⟨p.words.map (· % 2 ^ 64)⟩ : Program).check = .ok is := by
  intro p is
  have hcheck : p.check = .ok is := by decide
  exact ⟨hcheck, toBytes?_of_check p is hcheck⟩

/-- The word `2 ^ 64` is accepted as the literal zero and cannot be written, so that not all accepted
words are in the range of 64 bits. -/
theorem check_accepts_unwritable :
    (⟨[0x10000000000000000]⟩ : Program).check = .ok [.push (Binary.zero false)] ∧
      (⟨[0x10000000000000000]⟩ : Program).toBytes? = none ∧
      ¬∀ (p : Program) (is : List Instr), p.check = .ok is →
        (∀ w ∈ p.words, 0 ≤ w ∧ w ≤ 2 ^ 64 - 1) ∧
        ∃ bytes q, p.toBytes? = some bytes ∧ ofBytes bytes = .ok q ∧ q.check = .ok is := by
  have hcheck : (⟨[0x10000000000000000]⟩ : Program).check = .ok [.push (Binary.zero false)] := by
    decide
  have hbytes : (⟨[0x10000000000000000]⟩ : Program).toBytes? = none := by decide
  refine ⟨hcheck, hbytes, fun hall => ?_⟩
  obtain ⟨bytes, q, hsome, -, -⟩ := (hall _ _ hcheck).2
  rw [hbytes] at hsome
  cases hsome

end Program

end LiveFormula
