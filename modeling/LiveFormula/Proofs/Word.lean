import LiveFormula.Program.Word

/-!
# Words carry their instructions

The word of an instruction decodes to that instruction: no bit pattern of a literal is taken for a
variable or an operator, and no slot, however large or negative, for anything but a slot.

* `Binary.ofBits_toBits` — a datum is determined by its bit pattern.
* `Word.decode?_ofInstr` — decoding undoes the construction of a word.
-/

set_option autoImplicit false

namespace LiveFormula

namespace Binary

variable {F : Format}

theorem toBits_lt (x : Binary F) : x.toBits < 2 * F.size := by
  have hm := x.magnitude.isLt
  unfold toBits
  split <;> omega

/-- A datum is determined by its bit pattern. -/
theorem ofBits_toBits (x : Binary F) : ofBits x.toBits = x := by
  obtain ⟨negative, magnitude, hm⟩ := x
  have hpos : 0 < F.size := Nat.two_pow_pos _
  cases negative with
  | false => simp [ofBits, toBits, Nat.div_eq_of_lt hm, Nat.mod_eq_of_lt hm]
  | true =>
      have hdiv : (F.size + magnitude) / F.size = 1 := by
        rw [Nat.add_div_left _ hpos, Nat.div_eq_of_lt hm]
      have hmod : (F.size + magnitude) % F.size = magnitude := by
        rw [Nat.add_mod_left, Nat.mod_eq_of_lt hm]
      simp [ofBits, toBits, hdiv, hmod]

end Binary

namespace Opcode

theorem ofNumber?_number (op : Opcode) : ofNumber? op.number = some op := by
  rcases op with op | func
  · cases op <;> rfl
  · cases func <;> rfl

theorem number_mem (op : Opcode) : 4 ≤ op.number ∧ op.number ≤ 9 := by
  rcases op with op | func
  · cases op <;> decide
  · cases func <;> decide

end Opcode

namespace Word

theorem decode?_ofSlot (slot : Int) : decode? (ofSlot slot) = some (.load slot) := by
  have hhigh : (slot * half + 1) / half = slot := by unfold half; omega
  have hlow : ((slot * half + 1) % half).toNat = 1 := by unfold half; omega
  simp only [decode?, ofSlot, hhigh, hlow, if_true]

theorem decode?_ofSingle (x : Single) : decode? (ofSingle x) = some (.push x) := by
  have hx : x.toBits < 2 ^ 32 := x.toBits_lt
  have hhigh : (x.toBits * half : Int) / half = x.toBits := by unfold half; omega
  have hbits : ((x.toBits : Int) % half).toNat = x.toBits := by unfold half; omega
  simp [decode?, ofSingle, hhigh, hbits, Binary.ofBits_toBits]

theorem decode?_ofOpcode (op : Opcode) : decode? (ofOpcode op) = some (.apply op) := by
  obtain ⟨hlo, hhi⟩ := op.number_mem
  have hhigh : (op.number : Int) / half = 0 := by unfold half; omega
  have hlow : ((op.number : Int) % half).toNat = op.number := by unfold half; omega
  have h0 : op.number ≠ 0 := by omega
  have h1 : op.number ≠ 1 := by omega
  simp [decode?, ofOpcode, hhigh, hlow, h0, h1, Opcode.ofNumber?_number]

/-- Decoding undoes the construction of a word. -/
theorem decode?_ofInstr (i : Instr) : decode? (ofInstr i) = some i := by
  cases i with
  | load slot => exact decode?_ofSlot slot
  | push x => exact decode?_ofSingle x
  | apply op => exact decode?_ofOpcode op

/-- A program made of instructions decodes to them. -/
theorem map_decode?_ofInstr (is : List Instr) :
    (is.map ofInstr).map decode? = is.map some := by
  rw [List.map_map]
  exact List.map_congr_left fun i _ => decode?_ofInstr i

end Word

end LiveFormula
