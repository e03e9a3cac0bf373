import LiveFormula.Text.Quoted

/-!
# Diagnostic codes

Model of `livexpr.errors.ErrorCode` and the table `LivexprErrorCodes`.

Every kind of diagnostic has a code such as `LXP-1000`, which belongs to a phase of the work and has a
usual severity.
-/

set_option autoImplicit false

namespace LiveFormula

inductive Severity
  | fatal
  | error
  | warning
  deriving DecidableEq, Repr

def Severity.text : Severity → String
  | .fatal => "fatal"
  | .error => "error"
  | .warning => "warning"

/-- The phase of the work in which a diagnostic arises. -/
inductive Phase
  | reading
  | encoding
  | running
  | internal
  deriving DecidableEq, Repr

def Phase.text : Phase → String
  | .reading => "syntax"
  | .encoding => "codegen"
  | .running => "runtime"
  | .internal => "internal"

def Phase.label : Phase → String
  | .reading => "SYNTAX"
  | .encoding => "CODEGEN"
  | .running => "RUNTIME"
  | .internal => "INTERNAL"

/-- An integer with at least `width` characters, filled with zeros behind the sign. -/
def zeroFilled (width : Nat) (n : Int) : String :=
  let digits := Nat.toDigits 10 n.natAbs
  if n < 0 then String.ofList ('-' :: (List.replicate (width - 1 - digits.length) '0' ++ digits))
  else String.ofList (List.replicate (width - digits.length) '0' ++ digits)

/-- A diagnostic code: a family of codes and a number in it. -/
structure Code where
  family : String
  number : Int
  phase : Phase
  severity : Severity
  deriving DecidableEq, Repr

namespace Code

/-- The family and a number of at least four characters. -/
def text (c : Code) : String := c.family ++ "-" ++ zeroFilled 4 c.number

def describe (c : Code) : String := "ErrorCode(" ++ Text.quote c.text ++ ", " ++ c.phase.label ++ ")"

/-- Codes are the same if family and number are. -/
def same (c d : Code) : Bool := c.family == d.family && c.number == d.number

def unexpectedInput : Code := ⟨"LXP", 1000, .reading, .error⟩

def trailingInput : Code := ⟨"LXP", 1001, .reading, .error⟩

def unknownVariable : Code := ⟨"LXP", 4000, .encoding, .error⟩

def literalOutOfRange : Code := ⟨"LXP", 4001, .encoding, .error⟩

def malformedProgram : Code := ⟨"LXP", 5000, .running, .error⟩

def noProgram : Code := ⟨"LXP", 5001, .running, .error⟩

def internalError : Code := ⟨"LXP", 9000, .internal, .fatal⟩

def malformedTree : Code := ⟨"LXP", 9001, .internal, .error⟩

end Code

end LiveFormula
