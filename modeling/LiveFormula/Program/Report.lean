import LiveFormula.Diagnostic.Report
import LiveFormula.Machine.Evaluator
import LiveFormula.Program.Encoder

/-!
# Reports on formulas and programs

Model of the errors raised in `livexpr.parser`, `livexpr.codegen` and `livexpr.runtime`.

What is reported for each cause of failure between the text of a formula and the value of a program.
-/

set_option autoImplicit false

namespace LiveFormula

def ParseError.offset : ParseError → Nat
  | .unexpected offset => offset
  | .trailing offset => offset
  | .tooDeep offset => offset

def ParseError.report (text : String) : ParseError → Report
  | .unexpected offset => Report.unexpectedInput text offset {}
  | .trailing offset => Report.trailingInput text offset {}
  | .tooDeep offset =>
    (Report.unexpectedInput text offset {}).withHint "Parentheses are nested too deeply"

def EncodeError.report : EncodeError → Report
  | .unknownVariable name offset => Report.unknownVariable name offset variableNames {}
  | .literalRange value offset => Report.literalRange value offset {}

/-- Failures to encode are shown with the formula as their source line. -/
def CompileError.report (text : String) : CompileError → Report
  | .parse e => e.report text
  | .encode e => e.report.withSource text

/-- The position is `-1` where the fault is not that of one word. -/
def ProgramError.report (e : ProgramError) : Report :=
  Report.program e.message ((e.position?.map Int.ofNat).getD (-1)) {}

def Fault.message : Fault → String
  | .emptyStack => "The stack is empty"
  | .unknownSlot => "There is no such variable slot"
  | .zeroDivisor => "The divisor is zero"
  | .outsideDomain => "The argument is outside the domain"

def EvalError.report : EvalError → Report
  | .notInstalled => Report.program "No program installed" (-1) { code := some .noProgram }
  | .fault f => Report.general f.message {}

end LiveFormula
