import LiveFormula.Number.Text
import LiveFormula.Program.Word

/-!
# Programs

Model of `livexpr.codegen.Program` and `disassemble`.

A program is a list of instruction words. It is written as bytes, eight for each word with the lowest
first, if all its words fit into 64 bits, and as a listing with one mnemonic for each word, if all of
them are instructions.
-/

set_option autoImplicit false

namespace LiveFormula

/-- The results of a function for all members of a list, or its first failure from the left. -/
def collect {ε α β : Type} (f : α → Except ε β) : List α → Except ε (List β)
  | [] => .ok []
  | a :: as =>
    match f a with
    | .error e => .error e
    | .ok b =>
      match collect f as with
      | .error e => .error e
      | .ok bs => .ok (b :: bs)

structure Program where
  words : List Int
  deriving DecidableEq, Repr

/-- Why words are not a program that can be installed or run. -/
inductive ProgramError
  | ragged (bytes : Nat)
  | unknownWord (position : Option Nat) (word : Int)
  | slotOutOfRange (position : Nat) (slot : Int)
  | missingOperands (position : Nat) (op : Opcode) (depth : Nat)
  | unbalanced (depth : Nat)
  deriving DecidableEq, Repr

namespace ProgramError

def message : ProgramError → String
  | ragged bytes => "Program data is " ++ toString bytes ++ " bytes, not a multiple of 8"
  | unknownWord _ word => "Unrecognised instruction word " ++ Word.hex word
  | slotOutOfRange position slot =>
    "Variable slot " ++ toString slot ++ " out of range at word " ++ toString position
  | missingOperands position op depth =>
    op.mnemonic ++ " at word " ++ toString position ++ " needs " ++ toString op.arity ++
      " operand(s), stack has " ++ toString depth
  | unbalanced depth => "Program leaves " ++ toString depth ++ " value(s) on the stack, expected 1"

/-- The word at fault, if the fault is that of a word at a known place. -/
def position? : ProgramError → Option Nat
  | unknownWord position _ => position
  | slotOutOfRange position _ => some position
  | missingOperands position _ _ => some position
  | _ => none

end ProgramError

namespace Program

def length (p : Program) : Nat := p.words.length

/-- The bytes of a word, the lowest first. -/
def wordBytes (count : Nat) (n : Nat) : List UInt8 :=
  match count with
  | 0 => []
  | count + 1 => UInt8.ofNat (n % 256) :: wordBytes count (n / 256)

/-- Whether a word fits into 64 bits. -/
def fits (word : Int) : Bool := 0 ≤ word && word < Word.half * Word.half

/-- The bytes of all words; none if a word does not fit. -/
def toBytes? (p : Program) : Option (List UInt8) :=
  if p.words.all fits then some (p.words.flatMap fun w => wordBytes 8 w.toNat) else none

/-- The number with the given bytes, the lowest first. -/
def ofWordBytes : List UInt8 → Nat
  | [] => 0
  | b :: bs => b.toNat + 256 * ofWordBytes bs

/-- The words of groups of eight bytes; a last group that is not full is left out. -/
def groups : List UInt8 → List Int
  | a :: b :: c :: d :: e :: f :: g :: h :: rest =>
    (ofWordBytes [a, b, c, d, e, f, g, h] : Int) :: groups rest
  | _ => []

/-- The program with the given bytes. -/
def ofBytes (bytes : List UInt8) : Except ProgramError Program :=
  if bytes.length % 8 = 0 then .ok ⟨groups bytes⟩ else .error (.ragged bytes.length)

/-- The variables by their slots. -/
def slotName? (slot : Int) : Option String :=
  if slot = 0 then some "t" else if slot = 1 then some "u" else if slot = 2 then some "v" else none

/-- An instruction in a listing. -/
def mnemonic : Instr → String
  | .load slot => "var " ++ (slotName? slot).getD (toString slot)
  | .push x => "lit " ++ (x.convert .double).text
  | .apply op => op.mnemonic

/-- The instruction of a word that stands alone. -/
def decode (word : Int) : Except ProgramError Instr :=
  match Word.decode? word with
  | some i => .ok i
  | none => .error (.unknownWord none word)

/-- One mnemonic for each word; the first word that is no instruction is an error. -/
def listing (p : Program) : Except ProgramError (List String) :=
  match collect decode p.words with
  | .ok is => .ok (is.map mnemonic)
  | .error e => .error e

end Program

end LiveFormula
