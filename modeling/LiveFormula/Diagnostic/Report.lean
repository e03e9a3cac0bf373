import LiveFormula.Diagnostic.Message
import LiveFormula.Number.Text

/-!
# Reports

Model of `livexpr.errors.LivexprError` and the classes derived from it.

A report is a diagnostic together with the kind of failure it reports. Failures to read a formula are
rendered with a caret below the offset, all others as their diagnostic.
-/

set_option autoImplicit false

namespace LiveFormula

/-- Kinds of failures, with what is known of each beside the diagnostic. -/
inductive Report.Kind
  | general
  | reading (text : String) (offset : Int)
  | unexpectedInput (text : String) (offset : Int)
  | trailingInput (text : String) (offset : Int)
  | encoding
  | unknownVariable (name : String)
  | literalRange (value : Double)
  | program (position : Int)
  | treeFormat
  deriving DecidableEq, Repr

structure Report where
  kind : Report.Kind
  diagnostic : Diagnostic
  deriving DecidableEq, Repr

/-- What a report may be given beside its message. -/
structure Report.Details where
  code : Option Code := none
  span : Option Span := none
  severity : Option Severity := none
  hint : String := ""
  sourceLine : String := ""
  deriving DecidableEq, Repr

namespace Report

/-- A report with the usual code of its kind where no other is given. -/
def make (kind : Kind) (usual : Code) (message : String) (details : Details) : Report :=
  let code := details.code.getD usual
  { kind
    diagnostic :=
      { code, message
        span := details.span.getD Span.unknown
        severity := details.severity.getD code.severity
        hint := details.hint
        sourceLine := details.sourceLine } }

def withHint (r : Report) (hint : String) : Report :=
  { r with diagnostic := { r.diagnostic with hint } }

def withSource (r : Report) (line : String) : Report :=
  { r with diagnostic := { r.diagnostic with sourceLine := line } }

/-- A failure of no particular kind. -/
def general (message : String) (details : Details) : Report :=
  make .general .internalError message details

/-- Details of a failure to read: its span and source line follow from text and offset. -/
def readingDetails (text : String) (offset : Int) (details : Details) : Details :=
  { details with span := some (Span.ofInput offset 1), sourceLine := text }

/-- A failure to read a formula. -/
def reading (message text : String) (offset : Int) (details : Details) : Report :=
  make (.reading text offset) .unexpectedInput message (readingDetails text offset details)

/-- The character at an offset, or the end of the input. -/
def found (text : String) (offset : Int) : String :=
  match text.toList.drop offset.toNat with
  | [] => "end of input"
  | c :: _ => Text.quoteChars [c]

/-- A character, or the end of the input, that cannot stand where it does. -/
def unexpectedInput (text : String) (offset : Int) (details : Details) : Report :=
  make (.unexpectedInput text offset) .unexpectedInput ("Unexpected " ++ found text offset)
    (readingDetails text offset { details with code := none })

/-- A complete formula with more text behind it. -/
def trailingInput (text : String) (offset : Int) (details : Details) : Report :=
  make (.trailingInput text offset) .trailingInput
    ("Unexpected trailing input " ++ Text.quoteChars (text.toList.drop offset.toNat))
    (readingDetails text offset
      { details with code := none, hint := "Check for an unbalanced ')' or a missing operator" })

/-- A failure to encode a tree. -/
def encoding (message : String) (details : Details) : Report :=
  make .encoding .unknownVariable message details

/-- A name that is not a variable; the known names, if any are given, become the hint. -/
def unknownVariable (name : String) (offset : Int) (known : List String) (details : Details) :
    Report :=
  let report := make (.unknownVariable name) .unknownVariable ("Unknown variable: " ++ name)
    { details with code := none, span := some (Span.ofInput offset name.length) }
  if known.isEmpty then report
  else report.withHint ("Available variables: " ++ ", ".intercalate known)

/-- A literal beyond the range of 32-bit floats. -/
def literalRange (value : Double) (offset : Int) (details : Details) : Report :=
  make (.literalRange value) .literalOutOfRange
    ("Literal " ++ value.fixed 0 ++ " does not fit in a 32-bit float")
    { details with code := none, span := some (Span.ofInput offset 1) }

/-- A program that cannot be installed or run. -/
def program (message : String) (position : Int) (details : Details) : Report :=
  make (.program position) .malformedProgram message details

/-- A dump that does not describe a tree. -/
def treeFormat (message : String) (details : Details) : Report :=
  make .treeFormat .malformedTree message { details with code := none }

/-- The text with a caret below an offset. -/
def caret (text : String) (offset : Int) : String :=
  "Parse error here:\n" ++ text ++ "\n" ++ Diagnostic.repeated ' ' offset ++ "^"

/-- The text that is shown to the user. -/
def render (r : Report) : String :=
  match r.kind with
  | .reading text offset => caret text offset
  | .unexpectedInput text offset => caret text offset
  | .trailingInput text offset => caret text offset
  | _ => r.diagnostic.text

def message (r : Report) : String := r.diagnostic.message

def code (r : Report) : Code := r.diagnostic.code

end Report

end LiveFormula
