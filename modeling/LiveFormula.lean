import LiveFormula.Expr.Equality
import LiveFormula.Main
import LiveFormula.Proofs.Compiler
import LiveFormula.Proofs.Cursor
import LiveFormula.Proofs.Grammar
import LiveFormula.Proofs.Reading
import LiveFormula.Proofs.Lookahead
import LiveFormula.Proofs.Recognition
import LiveFormula.Proofs.ViablePrefix
import LiveFormula.Proofs.Bookkeeping
import LiveFormula.Proofs.LiveSession
import LiveFormula.Proofs.Safety
import LiveFormula.Proofs.ByteFormat
import LiveFormula.Proofs.LiteralRange
import LiveFormula.Proofs.Encoding
import LiveFormula.Proofs.Location
import LiveFormula.Proofs.EncodeDiagnostics
import LiveFormula.Proofs.DecimalRounding
import LiveFormula.Proofs.NumberText
import LiveFormula.Proofs.SexpReading
import LiveFormula.Proofs.Dump
import LiveFormula.Proofs.RoundTrip
import LiveFormula.Proofs.UniqueDecoding
import LiveFormula.Proofs.WordRange
import LiveFormula.Proofs.CommandOutcome
import LiveFormula.Proofs.Utf8
import LiveFormula.Proofs.LineConfinement
import LiveFormula.Proofs.Conversion
import LiveFormula.Proofs.LiteralRounding
import LiveFormula.Proofs.WordForms
import LiveFormula.Proofs.EqualTrees
import LiveFormula.Proofs.Folding
import LiveFormula.Proofs.Loading
import LiveFormula.Proofs.Spacing
import LiveFormula.Proofs.PrintedFormula
import LiveFormula.Proofs.FirstOffence
import LiveFormula.Proofs.LineFeeding
import LiveFormula.Proofs.ProgramFormats
import LiveFormula.Proofs.Offsets
import LiveFormula.Proofs.Occurrences
import LiveFormula.Proofs.TreeEquality
import LiveFormula.Proofs.FrameDiscipline
import LiveFormula.Proofs.Preview
import LiveFormula.Proofs.Commitment
