/-!
# Reading UTF-8 with replacement

`Utf8.decode` reads any byte string. Each maximal ill-formed piece becomes one replacement character:
a sequence that breaks off is replaced as a whole, and the byte that broke it is read afresh. A byte
below `0x80` therefore always stands for itself, whatever comes before it.
-/

set_option autoImplicit false

namespace LiveFormula.Text.Utf8

/-- The character that stands for an ill-formed piece. -/
def replacement : Char := Char.ofNat 0xFFFD

/-- A sequence begun: the bytes it still needs, the range of the next one, and the bits so far. -/
structure Pending where
  needed : Nat
  low : Nat
  high : Nat
  bits : Nat
  deriving DecidableEq, Repr

/-- What a byte begins. -/
inductive Lead
  | single (c : Char)
  | sequence (p : Pending)
  | stray
  deriving DecidableEq, Repr

def lead (b : Nat) : Lead :=
  if b < 0x80 then .single (Char.ofNat b)
  else if b < 0xC2 then .stray
  else if b < 0xE0 then .sequence ⟨1, 0x80, 0xBF, b - 0xC0⟩
  else if b == 0xE0 then .sequence ⟨2, 0xA0, 0xBF, 0⟩
  else if b == 0xED then .sequence ⟨2, 0x80, 0x9F, b - 0xE0⟩
  else if b < 0xF0 then .sequence ⟨2, 0x80, 0xBF, b - 0xE0⟩
  else if b == 0xF0 then .sequence ⟨3, 0x90, 0xBF, 0⟩
  else if b < 0xF4 then .sequence ⟨3, 0x80, 0xBF, b - 0xF0⟩
  else if b == 0xF4 then .sequence ⟨3, 0x80, 0x8F, 4⟩
  else .stray

/-- What one byte makes of the state: the characters it completes, and the new state. -/
def begin (b : Nat) : List Char × Option Pending :=
  match lead b with
  | .single c => ([c], none)
  | .sequence p => ([], some p)
  | .stray => ([replacement], none)

def step (state : Option Pending) (b : Nat) : List Char × Option Pending :=
  match state with
  | none => begin b
  | some p =>
    if p.low ≤ b ∧ b ≤ p.high then
      let bits := p.bits * 64 + b % 64
      if p.needed ≤ 1 then ([Char.ofNat bits], none)
      else ([], some ⟨p.needed - 1, 0x80, 0xBF, bits⟩)
    else
      let (cs, next) := begin b
      (replacement :: cs, next)

/-- Reads on from a state. -/
def decodeFrom : Option Pending → List UInt8 → List Char
  | none, [] => []
  | some _, [] => [replacement]
  | state, b :: bs =>
    let (cs, next) := step state b.toNat
    cs ++ decodeFrom next bs

def decode (bytes : List UInt8) : List Char := decodeFrom none bytes

/-- Line ends of any kind become line feeds. -/
def unifyLineEnds : List Char → List Char
  | '\r' :: '\n' :: rest => '\n' :: unifyLineEnds rest
  | '\r' :: rest => '\n' :: unifyLineEnds rest
  | c :: rest => c :: unifyLineEnds rest
  | [] => []

/-- The text of a byte stream: decoded, with line ends unified. -/
def readText (bytes : List UInt8) : List Char := unifyLineEnds (decode bytes)

end LiveFormula.Text.Utf8
