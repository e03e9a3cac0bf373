import LiveFormula.Proofs.Compiler
import Mathlib.Algebra.Ring.Int.Defs
import Mathlib.Algebra.Ring.Nat

/-!
# Programs as bytes

Writing a program and reading bytes undo each other. A word has eight bytes, the lowest first, so it
can be written just if it has no more than 64 bits and no sign; bytes can be read just if they are
whole groups of eight.

* `Program.ofWordBytes_wordBytes`, `Program.wordBytes_ofWordBytes` — the digits of one number.
* `Program.groups_flatMap`, `Program.flatMap_groups` — the same for a list of words.
* `fits_of_encode` — whatever is encoded can be written.
* `Program.bytes_determine_words` — the format as a whole.
-/

set_option autoImplicit false

namespace LiveFormula

namespace Program

/-! ## One word -/

@[simp] theorem length_wordBytes (count n : Nat) : (wordBytes count n).length = count := by
  induction count generalizing n with
  | zero => rfl
  | succ count ih => simp [wordBytes, ih]

/-- The bytes of a word are its digits to the base 256. -/
theorem getElem?_wordBytes {count i : Nat} (n : Nat) (h : i < count) :
    (wordBytes count n)[i]? = some (UInt8.ofNat (n / 256 ^ i % 256)) := by
  induction count generalizing n i with
  | zero => omega
  | succ count ih =>
      cases i with
      | zero => simp [wordBytes]
      | succ i =>
          rw [wordBytes, List.getElem?_cons_succ, ih _ (by omega), Nat.div_div_eq_div_mul,
            Nat.pow_succ']

theorem ofWordBytes_wordBytes {count n : Nat} (h : n < 256 ^ count) :
    ofWordBytes (wordBytes count n) = n := by
  induction count generalizing n with
  | zero =>
      rw [Nat.pow_zero] at h
      show 0 = n
      omega
  | succ count ih =>
      rw [Nat.pow_succ] at h
      have hhigh : n / 256 < 256 ^ count := by omega
      have hlow : (UInt8.ofNat (n % 256)).toNat = n % 256 := by simp
      rw [wordBytes, ofWordBytes, ih hhigh, hlow]
      omega

theorem wordBytes_ofWordBytes (bytes : List UInt8) :
    wordBytes bytes.length (ofWordBytes bytes) = bytes := by
  induction bytes with
  | nil => rfl
  | cons b bytes ih =>
      have hb : b.toNat < 256 := b.toNat_lt
      have hlow : (b.toNat + 256 * ofWordBytes bytes) % 256 = b.toNat := by omega
      have hhigh : (b.toNat + 256 * ofWordBytes bytes) / 256 = ofWordBytes bytes := by omega
      rw [List.length_cons, ofWordBytes, wordBytes, hlow, hhigh, ih, UInt8.ofNat_toNat]

theorem ofWordBytes_lt (bytes : List UInt8) : ofWordBytes bytes < 256 ^ bytes.length := by
  induction bytes with
  | nil => exact Nat.one_pos
  | cons b bytes ih =>
      have hb : b.toNat < 256 := b.toNat_lt
      rw [ofWordBytes, List.length_cons, Nat.pow_succ]
      omega

/-! ## All words -/

theorem fits_iff {w : Int} : fits w = true ↔ 0 ≤ w ∧ w ≤ 2 ^ 64 - 1 := by
  have hwords : Word.half * Word.half = 2 ^ 64 := by decide
  simp only [fits, hwords, Bool.and_eq_true, decide_eq_true_eq]
  omega

/-- The first group of eight bytes is read as a word. -/
theorem groups_append {bytes : List UInt8} (h : bytes.length = 8) (rest : List UInt8) :
    groups (bytes ++ rest) = (ofWordBytes bytes : Int) :: groups rest := by
  match bytes, h with
  | [_, _, _, _, _, _, _, _], _ => rfl

theorem groups_flatMap {words : List Int} (h : ∀ w ∈ words, fits w = true) :
    groups (words.flatMap fun w => wordBytes 8 w.toNat) = words := by
  induction words with
  | nil => rfl
  | cons w words ih =>
      obtain ⟨hlow, hhigh⟩ := fits_iff.1 (h w List.mem_cons_self)
      have hword : (ofWordBytes (wordBytes 8 w.toNat) : Int) = w := by
        rw [ofWordBytes_wordBytes (by omega)]
        omega
      rw [List.flatMap_cons, groups_append (length_wordBytes 8 _), hword,
        ih fun v hv => h v (List.mem_cons_of_mem _ hv)]

/-- Reading groups and writing them gives the bytes back, and what is read can be written. -/
theorem flatMap_groups (bytes : List UInt8) (h : bytes.length % 8 = 0) :
    ((groups bytes).flatMap fun w => wordBytes 8 w.toNat) = bytes ∧
      ∀ w ∈ groups bytes, fits w = true := by
  -- the induction takes off one group at a time
  by_cases hshort : bytes.length < 8
  · have hnil : bytes = [] := List.length_eq_zero_iff.1 (by omega)
    rw [hnil]
    exact ⟨rfl, fun w hw => by cases hw⟩
  · have hfirst : (bytes.take 8).length = 8 := by
      rw [List.length_take]
      omega
    have hrest : (bytes.drop 8).length % 8 = 0 := by
      rw [List.length_drop]
      omega
    obtain ⟨hback, hfits⟩ := flatMap_groups (bytes.drop 8) hrest
    have hsplit : groups bytes = (ofWordBytes (bytes.take 8) : Int) :: groups (bytes.drop 8) := by
      rw [← groups_append hfirst, List.take_append_drop]
    have hdigits := wordBytes_ofWordBytes (bytes.take 8)
    have hbound := ofWordBytes_lt (bytes.take 8)
    rw [hfirst] at hdigits hbound
    rw [hsplit]
    constructor
    · rw [List.flatMap_cons, hback, Int.toNat_natCast, hdigits, List.take_append_drop]
    · intro w hw
      rcases List.mem_cons.1 hw with rfl | hw
      · exact fits_iff.2 (by omega)
      · exact hfits w hw
termination_by bytes.length
decreasing_by
  rw [List.length_drop]
  omega

theorem toBytes?_eq_some_iff {p : Program} {bytes : List UInt8} :
    p.toBytes? = some bytes ↔
      (∀ w ∈ p.words, fits w = true) ∧ (p.words.flatMap fun w => wordBytes 8 w.toNat) = bytes := by
  rw [toBytes?, ← List.all_eq_true]
  cases p.words.all fits <;> simp

theorem toBytes?_eq_none_iff {p : Program} :
    p.toBytes? = none ↔ ∃ w ∈ p.words, ¬fits w = true := by
  have hall : (∃ w ∈ p.words, ¬fits w = true) ↔ p.words.all fits = false := by
    simp [List.all_eq_false]
  rw [hall, toBytes?]
  cases p.words.all fits <;> simp

/-- A byte of the format, by its word and its place in the word. -/
theorem getElem?_flatMap_wordBytes {words : List Int} {j i : Nat} {w : Int}
    (hj : words[j]? = some w) (hi : i < 8) :
    (words.flatMap fun w => wordBytes 8 w.toNat)[8 * j + i]? =
      some (UInt8.ofNat (w.toNat / 256 ^ i % 256)) := by
  induction words generalizing j with
  | nil => cases hj
  | cons v words ih =>
      have hlength : (wordBytes 8 v.toNat).length = 8 := length_wordBytes 8 _
      rw [List.flatMap_cons]
      cases j with
      | zero =>
          cases hj
          rw [List.getElem?_append_left (by omega)]
          simpa using getElem?_wordBytes w.toNat hi
      | succ j =>
          rw [List.getElem?_append_right (by omega), hlength]
          rw [show 8 * (j + 1) + i - 8 = 8 * j + i by omega]
          exact ih hj

theorem length_flatMap_wordBytes (words : List Int) :
    (words.flatMap fun w => wordBytes 8 w.toNat).length = 8 * words.length := by
  induction words with
  | nil => rfl
  | cons w words ih =>
      rw [List.flatMap_cons, List.length_append, length_wordBytes, ih, List.length_cons]
      omega

theorem ofBytes_of_toBytes? {p : Program} {bytes : List UInt8} (h : p.toBytes? = some bytes) :
    ofBytes bytes = .ok p := by
  obtain ⟨hfits, rfl⟩ := toBytes?_eq_some_iff.1 h
  have hwhole : 8 * p.words.length % 8 = 0 := by omega
  rw [ofBytes, length_flatMap_wordBytes, if_pos hwhole, groups_flatMap hfits]

theorem toBytes?_of_whole {bytes : List UInt8} (h : bytes.length % 8 = 0) :
    ofBytes bytes = .ok ⟨groups bytes⟩ ∧ toBytes? ⟨groups bytes⟩ = some bytes := by
  obtain ⟨hback, hfits⟩ := flatMap_groups bytes h
  exact ⟨if_pos h, toBytes?_eq_some_iff.2 ⟨hfits, hback⟩⟩

end Program

/-! ## Encoded programs -/

/-- The slots of variables, the literals and the operators have words that fit. -/
theorem ProgramTree.fits_ofInstr {tree : ProgramTree} {i : Instr} (hi : i ∈ tree.instructions) :
    Program.fits (Word.ofInstr i) = true := by
  rw [Program.fits_iff]
  induction tree with
  | load slot =>
      obtain rfl := List.mem_singleton.1 hi
      have hslot := slot.isLt
      simp only [Word.ofInstr, Word.ofSlot, Word.half]
      omega
  | push x =>
      obtain rfl := List.mem_singleton.1 hi
      have hx : x.toBits < 2 ^ 32 := x.toBits_lt
      simp only [Word.ofInstr, Word.ofSingle, Word.half]
      omega
  | binary op l r ihl ihr =>
      simp only [instructions, List.mem_append, List.mem_singleton] at hi
      rcases hi with (hi | hi) | rfl
      · exact ihl hi
      · exact ihr hi
      · have hop := (Opcode.binary op).number_mem
        simp only [Word.ofInstr, Word.ofOpcode]
        omega
  | call func a ih =>
      simp only [instructions, List.mem_append, List.mem_singleton] at hi
      rcases hi with hi | rfl
      · exact ih hi
      · have hop := (Opcode.call func).number_mem
        simp only [Word.ofInstr, Word.ofOpcode]
        omega

theorem fits_of_encode {e : Expr} {p : Program} (h : encode e = .ok p) :
    ∀ w ∈ p.words, Program.fits w = true := by
  obtain ⟨tree, -, rfl⟩ := exists_lower_of_encode h
  intro w hw
  obtain ⟨i, hi, rfl⟩ := List.mem_map.1 hw
  exact ProgramTree.fits_ofInstr hi

/-- **The byte format.** A program cannot be written just if one of its words is outside
`0 .. 2 ^ 64 - 1`. What is written has eight bytes for each word, the digits of the word to the base
256 with the lowest first, and is read back as the program. Bytes cannot be read just if their
number is no multiple of eight; what is read is written as the same bytes. The program of a tree can
always be written. -/
theorem Program.bytes_determine_words :
    (∀ p : Program,
      (p.toBytes? = none ↔ ∃ w ∈ p.words, ¬(0 ≤ w ∧ w ≤ 2 ^ 64 - 1)) ∧
      ∀ bytes, p.toBytes? = some bytes →
        bytes.length = 8 * p.length ∧ ofBytes bytes = .ok p ∧
        ∀ j i w, p.words[j]? = some w → i < 8 →
          bytes[8 * j + i]? = some (UInt8.ofNat (w.toNat / 256 ^ i % 256))) ∧
    (∀ bytes : List UInt8,
      (ofBytes bytes = .error (.ragged bytes.length) ↔ bytes.length % 8 ≠ 0) ∧
      (bytes.length % 8 = 0 → ∃ p, ofBytes bytes = .ok p ∧ p.toBytes? = some bytes)) ∧
    ∀ e p, encode e = .ok p →
      (∀ w ∈ p.words, 0 ≤ w ∧ w ≤ 2 ^ 64 - 1) ∧ ∃ bytes, p.toBytes? = some bytes := by
  refine ⟨fun p => ⟨?_, fun bytes h => ?_⟩, fun bytes => ⟨?_, fun h => ?_⟩, fun e p h => ?_⟩
  · simp only [toBytes?_eq_none_iff, fits_iff]
  · obtain ⟨-, hbytes⟩ := toBytes?_eq_some_iff.1 h
    refine ⟨?_, ofBytes_of_toBytes? h, fun j i w hj hi => ?_⟩
    · rw [← hbytes]
      exact length_flatMap_wordBytes p.words
    · rw [← hbytes]
      exact getElem?_flatMap_wordBytes hj hi
  · by_cases h : bytes.length % 8 = 0 <;> simp [ofBytes, h]
  · exact ⟨_, toBytes?_of_whole h⟩
  · have hfits := fits_of_encode h
    exact ⟨fun w hw => fits_iff.1 (hfits w hw), _, toBytes?_eq_some_iff.2 ⟨hfits, rfl⟩⟩

end LiveFormula
