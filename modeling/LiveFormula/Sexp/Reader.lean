import LiveFormula.Formula.Cursor
import LiveFormula.Number.Numeral
import LiveFormula.Sexp.Basic

/-!
# The standard codec

`Sexp.Codec.standard` writes and reads S-expressions as `sexpdata` does. A text holds one value. Blanks
separate values, a semicolon begins a comment, brackets hold lists, and an apostrophe quotes the value
after it. Strings and atoms may have escapes. An atom is an integer if it reads as one, else a float if
it reads as one, else a symbol.
-/

set_option autoImplicit false

namespace LiveFormula

namespace Sexp

/-- Why reading stops. -/
inductive ReaderError
  | unclosedString
  | endsInEscape
  | unclosed (close : Char) (found : Option Char)
  | nothingQuoted (position : Nat)
  | excess (rest : List Char)
  | notOne
  | tooDeep
  deriving DecidableEq, Repr

/-- The error that is handed on: too many levels, or a malformed text. -/
def ReaderError.toReadError : ReaderError → ReadError
  | .unclosedString => .malformed "'NoneType' object has no attribute 'start'"
  | .endsInEscape => .malformed "string index out of range"
  | .unclosed close found =>
    .malformed ("Not enough closing brackets. Expected " ++ Text.quoteChars [close] ++
      " to be the last letter in the sexp. Got: " ++
      (match found with
        | some c => Text.quoteChars [c]
        | none => "None"))
  | .nothingQuoted position =>
    .malformed ("No s-exp is found after an apostrophe at position " ++ toString position)
  | .excess rest =>
    .malformed ("Too many closing brackets. Expected no character left in the sexp. Got: " ++
      Text.quoteChars rest)
  | .notOne => .malformed ""
  | .tooDeep => .tooDeep

/-- What an escape in a string stands for; an unknown one stands for itself. -/
def unescape : Char → List Char
  | '\\' => ['\\']
  | '"' => ['"']
  | 'b' => ['\x08']
  | 'f' => ['\x0c']
  | 'n' => ['\n']
  | 'r' => ['\r']
  | 't' => ['\t']
  | c => ['\\', c]

/-- The rest of a string behind its opening quote: its characters, and how many were read, the
closing quote included. -/
def stringBody : List Char → Except ReaderError (List Char × Nat)
  | [] => .error .unclosedString
  | ['\\'] => .error .endsInEscape
  | '"' :: _ => .ok ([], 1)
  | '\\' :: c :: rest =>
    match stringBody rest with
    | .ok (cs, n) => .ok (unescape c ++ cs, n + 2)
    | .error e => .error e
  | c :: rest =>
    match stringBody rest with
    | .ok (cs, n) => .ok (c :: cs, n + 1)
    | .error e => .error e

/-- The characters that end an atom. -/
def endsAtom (c : Char) : Bool := Text.isAsciiBlank c || "()[]\";".toList.contains c

/-- The characters that an escape takes literally in an atom. -/
def isLiteralEscape (c : Char) : Bool := "\\'`\"()[] ,?;#".toList.contains c

/-- An atom: its characters, and how many were read. -/
def atomBody : List Char → Except ReaderError (List Char × Nat)
  | [] => .ok ([], 0)
  | ['\\'] => .error .endsInEscape
  | '\\' :: c :: rest =>
    match atomBody rest with
    | .ok (cs, n) => .ok (if isLiteralEscape c then c :: cs else '\\' :: c :: cs, n + 2)
    | .error e => .error e
  | c :: rest =>
    if endsAtom c then .ok ([], 0)
    else
      match atomBody rest with
      | .ok (cs, n) => .ok (c :: cs, n + 1)
      | .error e => .error e

/-- The value of an atom. -/
def ofAtom (word : List Char) : Sexp :=
  match Numeral.integer? word with
  | some n => .integer n
  | none =>
    match Numeral.double? word with
    | some x => .float x
    | none => .symbol (String.ofList word)

/-- The closing bracket of an opening one, and the list between them. -/
def bracket? : Char → Option (Char × (List Sexp → Sexp))
  | '(' => some (')', .list)
  | '[' => some (']', .brackets)
  | _ => none

/-- Reads values at a cursor up to a closing bracket or the end, given the reader for one level
deeper. -/
abbrev Reader := Cursor → Except ReaderError (List Sexp × Cursor)

/-- One step of reading: the values that begin at the cursor with the character `c`, and the cursor
behind them. Blanks and comments give no value. -/
def readNext (nested : Reader) (start : Cursor) (c : Char) : Except ReaderError (List Sexp × Cursor) :=
  if c = '"' then
    match stringBody (start.advance 1).rest with
    | .error e => .error e
    | .ok (cs, n) => .ok ([.string (String.ofList cs)], start.advance (n + 1))
  else if Text.isAsciiBlank c then .ok ([], start.advance 1)
  else if c = ';' then .ok ([], start.skip (· != '\n'))
  else if c = '\'' then
    match nested (start.advance 1) with
    | .error e => .error e
    | .ok ([], _) => .error (.nothingQuoted start.pos)
    | .ok (first :: others, next) => .ok (.quoted first :: others, next)
  else
    match bracket? c with
    | some (close, make) =>
      match nested (start.advance 1) with
      | .error e => .error e
      | .ok (items, next) =>
        if next.peek = some close then .ok ([make items], next.advance 1)
        else .error (.unclosed close next.peek)
    | none =>
      match atomBody start.rest with
      | .error e => .error e
      | .ok (word, n) => .ok ([ofAtom word], start.advance n)

/-- Reads values until a closing bracket or the end. Every round reads a character, so the characters
that are left bound the rounds. The values read so far come last one first. -/
def readItems (nested : Reader) : Nat → List Sexp → Reader
  | 0, items, cursor => .ok (items.reverse, cursor)
  | fuel + 1, items, cursor =>
    match cursor.peek with
    | none => .ok (items.reverse, cursor)
    | some c =>
      if c = ')' ∨ c = ']' then .ok (items.reverse, cursor)
      else
        match readNext nested cursor c with
        | .error e => .error e
        | .ok (values, next) => readItems nested fuel (values.reverse ++ items) next

/-- A reader with room for a number of levels inside it. -/
def reader : Nat → Reader
  | 0 => fun _ => .error .tooDeep
  | depth + 1 => fun cursor => readItems (reader depth) (cursor.size - cursor.pos) [] cursor

/-- The most levels of brackets and quotes. -/
def maxNesting : Nat := 1000

/-- The one value of a text. -/
def readOne (text : String) : Except ReaderError Sexp :=
  match reader (maxNesting + 1) (Cursor.start text.toList) with
  | .error e => .error e
  | .ok (items, cursor) =>
    match cursor.rest, items with
    | [], [item] => .ok item
    | [], _ => .error .notOne
    | rest, _ => .error (.excess rest)

/-! ## Writing -/

/-- A character of a string. -/
def escapeString : Char → List Char
  | '\\' => ['\\', '\\']
  | '"' => ['\\', '"']
  | '\x08' => ['\\', 'b']
  | '\x0c' => ['\\', 'f']
  | '\n' => ['\\', 'n']
  | '\r' => ['\\', 'r']
  | '\t' => ['\\', 't']
  | c => [c]

/-- A string between its quotes. -/
def stringText (s : String) : String :=
  String.ofList ('"' :: s.toList.flatMap escapeString ++ ['"'])

/-- The codec of this module. -/
def Codec.standard : Codec where
  string := stringText
  number := Binary.text
  read text := (readOne text).mapError ReaderError.toReadError
  showSymbol name := "Symbol(" ++ Text.quote name ++ ")"
  showBrackets items := "Brackets(I=[" ++ ", ".intercalate items ++ "])"
  showQuoted item := "Quoted(" ++ item ++ ")"

end Sexp

end LiveFormula
