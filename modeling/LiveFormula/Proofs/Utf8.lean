import LiveFormula.Text.Utf8
import Mathlib.Algebra.Ring.Nat
import Mathlib.Data.List.Infix
import Mathlib.Tactic.SplitIfs

/-!
# What is read of ill-formed bytes

The decoder goes from byte to byte with a state. What it reads is given here without a state, in terms
of the encodings of characters (`Decodes`): where the encoding of a character stands, the character is
read, and where none does, the maximal ill-formed piece is taken and a replacement is read. Such a
piece is the longest one that an encoding begins with, or one byte if no encoding begins with it.

* `Pending.Describes` — the invariant of the state: which characters have encodings that begin with
  the bytes seen so far, and which bytes these go on with.
* `decodes_decode`, `Decodes.unique` — the decoder reads every byte string as it should, and there is
  no other reading.
* `decode_append_ascii` — an ASCII byte is read as itself and cuts what stands before it from what
  stands behind it.
-/

set_option autoImplicit false

namespace LiveFormula.Text.Utf8

/-! ## Encodings -/

/-- The bytes of a text. -/
def encode (text : List Char) : List UInt8 := text.flatMap String.utf8EncodeChar

/-- Bytes that are those of no text. -/
def IllFormed (bytes : List UInt8) : Prop := ∀ text, encode text ≠ bytes

/-- The last `count` bytes of the encoding of a code, six bits in each. -/
def continuation : Nat → Nat → List UInt8
  | 0, _ => []
  | count + 1, code => UInt8.ofNat (code / 64 ^ count % 64 + 0x80) :: continuation count code

@[simp] theorem length_continuation (count code : Nat) : (continuation count code).length = count := by
  induction count with
  | zero => rfl
  | succ count ih => rw [continuation, List.length_cons, ih]

/-- The first byte of the encoding of a code. -/
def firstByte (code : Nat) : Nat :=
  if code < 0x80 then code
  else if code < 0x800 then code / 64 + 0xC0
  else if code < 0x10000 then code / 64 ^ 2 + 0xE0
  else code / 64 ^ 3 + 0xF0

/-- The number of bytes behind the first one. -/
def followers (code : Nat) : Nat :=
  if code < 0x80 then 0 else if code < 0x800 then 1 else if code < 0x10000 then 2 else 3

theorem code_lt (c : Char) : c.toNat < 0x110000 := by
  have hvalid : c.toNat.isValidChar := c.valid
  rcases hvalid with h | h <;> omega

theorem utf8EncodeChar_eq (c : Char) :
    String.utf8EncodeChar c =
      UInt8.ofNat (firstByte c.toNat) :: continuation (followers c.toNat) c.toNat := by
  have hlt := code_lt c
  have hcode : c.val.toNat = c.toNat := rfl
  generalize hn : c.toNat = n at hlt hcode
  simp only [String.utf8EncodeChar, hcode]
  split
  · simp [firstByte, followers, continuation, show n < 0x80 by omega]
  · split
    · have hmod : n / 64 % 32 = n / 64 := by omega
      simp [firstByte, followers, continuation, show ¬n < 0x80 by omega, show n < 0x800 by omega, hmod]
    · split
      · have hmod : n / 4096 % 16 = n / 4096 := by omega
        simp [firstByte, followers, continuation, show ¬n < 0x80 by omega,
          show ¬n < 0x800 by omega, show n < 0x10000 by omega, hmod]
      · have hmod : n / 262144 % 8 = n / 262144 := by omega
        simp [firstByte, followers, continuation, show ¬n < 0x80 by omega,
          show ¬n < 0x800 by omega, show ¬n < 0x10000 by omega, hmod]

theorem ofNat_firstByte_eq_iff (c : Char) (b : UInt8) :
    UInt8.ofNat (firstByte c.toNat) = b ↔ firstByte c.toNat = b.toNat := by
  have hcode := code_lt c
  have hlt : firstByte c.toNat < 256 := by
    unfold firstByte
    split_ifs <;> omega
  rw [← UInt8.toNat_inj, UInt8.toNat_ofNat', Nat.mod_eq_of_lt hlt]

theorem toNat_ofNat {n : Nat} (h : n.isValidChar) : (Char.ofNat n).toNat = n := by
  rw [Char.ofNat, dif_pos h]
  rfl

/-- A byte below `0x80` is an encoding. -/
theorem utf8EncodeChar_ofNat {b : UInt8} (h : b.toNat < 0x80) :
    String.utf8EncodeChar (Char.ofNat b.toNat) = [b] := by
  have hcode : (Char.ofNat b.toNat).toNat = b.toNat := toNat_ofNat (.inl (by omega))
  rw [utf8EncodeChar_eq, hcode, firstByte, followers, if_pos h, if_pos h, UInt8.ofNat_toNat]
  rfl

/-! ## The state of the decoder -/

namespace Pending

/-- The number of codes that the bytes behind the next one tell apart. -/
def span (p : Pending) : Nat := 64 ^ (p.needed - 1)

/-- The next byte in the encoding of a code. -/
def nextByte (p : Pending) (code : Nat) : Nat := code / p.span % 64 + 0x80

/-- The codes whose encodings can be what was begun. -/
def Covers (p : Pending) (code : Nat) : Prop :=
  code / p.span / 64 = p.bits ∧ p.low ≤ p.nextByte code ∧ p.nextByte code ≤ p.high

/-- The state after some bytes of a character: the encodings that begin with these bytes are those of
the codes that are covered, and none of them is complete. -/
structure Describes (p : Pending) (seen : List UInt8) : Prop where
  seen_ne_nil : seen ≠ []
  needed_pos : 0 < p.needed
  low_le : 0x80 ≤ p.low
  le_high : p.high ≤ 0xBF
  low_le_high : p.low ≤ p.high
  valid : ∀ code, p.Covers code → code.isValidChar
  covers : ∀ c : Char, seen <+: String.utf8EncodeChar c → p.Covers c.toNat
  encoding : ∀ c : Char, p.Covers c.toNat →
    String.utf8EncodeChar c = seen ++ continuation p.needed c.toNat
  incomplete : ∀ c : Char, ¬String.utf8EncodeChar c <+: seen

namespace Describes

variable {p : Pending} {seen : List UInt8} (h : p.Describes seen) {b : UInt8}

include h

theorem encoding_cons {c : Char} (hc : p.Covers c.toNat) :
    String.utf8EncodeChar c =
      seen ++ UInt8.ofNat (p.nextByte c.toNat) :: continuation (p.needed - 1) c.toNat := by
  have hneeded : p.needed = p.needed - 1 + 1 := by have := h.needed_pos; omega
  rw [h.encoding c hc, hneeded, continuation]
  rfl

/-- Every byte in the range of the next one is that of a code that is covered. -/
theorem covers_code (hlow : p.low ≤ b.toNat) (hhigh : b.toNat ≤ p.high) {code : Nat}
    (hcode : code / p.span = p.bits * 64 + b.toNat % 64) :
    p.Covers code ∧ p.nextByte code = b.toNat := by
  have hl := h.low_le
  have hh := h.le_high
  have hnext : p.nextByte code = b.toNat := by
    rw [nextByte, hcode]
    omega
  exact ⟨⟨by rw [hcode]; omega, by omega, by omega⟩, hnext⟩

/-- The encoding of a code that belongs to a byte of the range. -/
theorem encoding_of_byte (hlow : p.low ≤ b.toNat) (hhigh : b.toNat ≤ p.high) {code : Nat}
    (hcode : code / p.span = p.bits * 64 + b.toNat % 64) :
    String.utf8EncodeChar (Char.ofNat code) = seen ++ b :: continuation (p.needed - 1) code := by
  obtain ⟨hcovers, hnext⟩ := h.covers_code hlow hhigh hcode
  have hvalid := toNat_ofNat (h.valid code hcovers)
  rw [h.encoding_cons (by rw [hvalid]; exact hcovers), hvalid, hnext, UInt8.ofNat_toNat]

/-- The bytes seen so far begin a character. -/
theorem exists_begins : ∃ c : Char, seen <+: String.utf8EncodeChar c := by
  have hhigh := h.le_high
  have hspan : 0 < p.span := Nat.pow_pos (by decide)
  have hbyte : (UInt8.ofNat p.low).toNat = p.low := by
    have hle := h.low_le_high
    simp
    omega
  have hcode := Nat.mul_div_cancel (p.bits * 64 + (UInt8.ofNat p.low).toNat % 64) hspan
  refine ⟨_, _, (h.encoding_of_byte ?_ ?_ hcode).symm⟩
  · exact hbyte.ge
  · rw [hbyte]
    exact h.low_le_high

/-- No character goes on with a byte outside the range. -/
theorem range_of_begins {c : Char} (hc : seen ++ [b] <+: String.utf8EncodeChar c) :
    p.Covers c.toNat ∧ p.nextByte c.toNat = b.toNat := by
  have hcovers := h.covers c ((List.prefix_append seen [b]).trans hc)
  rw [h.encoding_cons hcovers, List.prefix_append_right_inj, List.singleton_prefix_cons_iff] at hc
  have hlt : p.nextByte c.toNat < 256 := by
    rw [nextByte]
    omega
  rw [hc]
  exact ⟨hcovers, by simp [Nat.mod_eq_of_lt hlt]⟩

/-- The last byte completes a character. -/
theorem complete (hlow : p.low ≤ b.toNat) (hhigh : b.toNat ≤ p.high) (hlast : p.needed ≤ 1) :
    String.utf8EncodeChar (Char.ofNat (p.bits * 64 + b.toNat % 64)) = seen ++ [b] := by
  have hone : p.needed = 1 := by have := h.needed_pos; omega
  have hspan : p.span = 1 := by rw [span, hone]; rfl
  rw [h.encoding_of_byte hlow hhigh (by rw [hspan, Nat.div_one]), hone]
  rfl

/-- A byte that is not the last one leaves the codes it belongs to. -/
theorem more (hlow : p.low ≤ b.toNat) (hhigh : b.toNat ≤ p.high) (hmore : ¬p.needed ≤ 1) :
    (Pending.mk (p.needed - 1) 0x80 0xBF (p.bits * 64 + b.toNat % 64)).Describes (seen ++ [b]) := by
  have hl := h.low_le
  have hh := h.le_high
  have hspan : p.span = 64 ^ (p.needed - 1 - 1) * 64 := by
    rw [span, ← Nat.pow_succ]
    congr 1
    omega
  -- any byte of the lower range may follow, so only the bits so far tell which codes are left
  have hcovers : ∀ code, Covers ⟨p.needed - 1, 0x80, 0xBF, p.bits * 64 + b.toNat % 64⟩ code ↔
      code / p.span = p.bits * 64 + b.toNat % 64 := by
    intro code
    rw [Covers, hspan, ← Nat.div_div_eq_div_mul]
    simp only [nextByte, span]
    omega
  refine ⟨?_, ?_, ?_, ?_, ?_, ?_, ?_, ?_, ?_⟩
  · simp
  · show 0 < p.needed - 1
    omega
  · exact Nat.le_refl _
  · exact Nat.le_refl _
  · show 0x80 ≤ 0xBF
    omega
  · intro code hcode
    exact h.valid code (h.covers_code hlow hhigh ((hcovers code).1 hcode)).1
  · intro c hc
    obtain ⟨⟨hbits, -, -⟩, hnext⟩ := h.range_of_begins hc
    rw [hcovers]
    rw [nextByte] at hnext
    omega
  · intro c hc
    obtain ⟨hc', hnext⟩ := h.covers_code hlow hhigh ((hcovers _).1 hc)
    rw [h.encoding_cons hc', hnext, UInt8.ofNat_toNat]
    simp
  · intro c hc
    rcases List.prefix_concat_iff.1 hc with heq | hshort
    · have hbegins : seen ++ [b] <+: String.utf8EncodeChar c := by rw [heq]
      have hcovered := (h.range_of_begins hbegins).1
      have hlength := congrArg List.length (h.encoding_cons hcovered)
      rw [heq] at hlength
      simp at hlength
      omega
    · exact h.incomplete c hshort

end Describes

end Pending

/-! ## First bytes -/

/-- The sequence that a byte begins, with the range of its second byte. -/
def BeginsSequence (b : Nat) (p : Pending) : Prop :=
  (0xC2 ≤ b ∧ b < 0xE0 ∧ p = ⟨1, 0x80, 0xBF, b - 0xC0⟩) ∨
  (b = 0xE0 ∧ p = ⟨2, 0xA0, 0xBF, 0⟩) ∨
  (0xE1 ≤ b ∧ b < 0xF0 ∧ b ≠ 0xED ∧ p = ⟨2, 0x80, 0xBF, b - 0xE0⟩) ∨
  (b = 0xED ∧ p = ⟨2, 0x80, 0x9F, 0xD⟩) ∨
  (b = 0xF0 ∧ p = ⟨3, 0x90, 0xBF, 0⟩) ∨
  (0xF1 ≤ b ∧ b < 0xF4 ∧ p = ⟨3, 0x80, 0xBF, b - 0xF0⟩) ∨
  (b = 0xF4 ∧ p = ⟨3, 0x80, 0x8F, 4⟩)

/-- A first byte stands alone, is stray or begins a sequence. -/
theorem lead_cases (b : Nat) :
    (lead b = .single (Char.ofNat b) ∧ b < 0x80) ∨
    (lead b = .stray ∧ 0x80 ≤ b ∧ (b < 0xC2 ∨ 0xF4 < b)) ∨
    ∃ p, lead b = .sequence p ∧ BeginsSequence b p := by
  have hbyte : ∀ {n : Nat}, (b == n) = true ↔ b = n := beq_iff_eq
  fun_cases lead b with
  | case1 hascii => exact .inl ⟨rfl, hascii⟩
  | case2 => exact .inr (.inl ⟨rfl, by omega, by omega⟩)
  | case3 => exact .inr (.inr ⟨_, rfl, .inl ⟨by omega, by omega, rfl⟩⟩)
  | case4 _ _ _ hE0 => exact .inr (.inr ⟨_, rfl, .inr (.inl ⟨hbyte.1 hE0, rfl⟩)⟩)
  | case5 _ _ _ _ hED =>
      obtain rfl := hbyte.1 hED
      exact .inr (.inr ⟨_, rfl, .inr (.inr (.inr (.inl ⟨rfl, rfl⟩)))⟩)
  | case6 _ _ _ hE0 hED =>
      rw [hbyte] at hE0 hED
      exact .inr (.inr ⟨_, rfl, .inr (.inr (.inl ⟨by omega, by omega, hED, rfl⟩))⟩)
  | case7 _ _ _ _ _ _ hF0 =>
      exact .inr (.inr ⟨_, rfl, .inr (.inr (.inr (.inr (.inl ⟨hbyte.1 hF0, rfl⟩))))⟩)
  | case8 _ _ _ _ _ _ hF0 =>
      rw [hbyte] at hF0
      exact .inr (.inr ⟨_, rfl, .inr (.inr (.inr (.inr (.inr (.inl ⟨by omega, by omega, rfl⟩)))))⟩)
  | case9 _ _ _ _ _ _ _ _ hF4 =>
      exact .inr (.inr ⟨_, rfl, .inr (.inr (.inr (.inr (.inr (.inr ⟨hbyte.1 hF4, rfl⟩)))))⟩)
  | case10 _ _ _ _ _ _ _ _ hF4 =>
      rw [hbyte] at hF4
      exact .inr (.inl ⟨rfl, by omega, by omega⟩)

/-- A byte that begins a sequence covers the codes whose encodings have it as their first byte. -/
theorem BeginsSequence.covers {b : Nat} {p : Pending} (h : BeginsSequence b p) (code : Nat) :
    (p.Covers code ↔ code.isValidChar ∧ firstByte code = b) ∧
      (p.Covers code → followers code = p.needed) := by
  simp only [Pending.Covers, Pending.nextByte, Pending.span, firstByte, followers, Nat.isValidChar]
  rcases h with ⟨_, _, rfl⟩ | ⟨rfl, rfl⟩ | ⟨_, _, _, rfl⟩ | ⟨rfl, rfl⟩ |
    ⟨rfl, rfl⟩ | ⟨_, _, rfl⟩ | ⟨rfl, rfl⟩
  all_goals simp only [Nat.reduceSub, Nat.reducePow]
  all_goals split_ifs <;> omega

/-- After the first byte of a sequence the state describes that byte. -/
theorem BeginsSequence.describes {b : UInt8} {p : Pending} (h : BeginsSequence b.toNat p) :
    p.Describes [b] := by
  obtain ⟨hb, hneeded, hlow, hhigh, hle⟩ : 0x80 ≤ b.toNat ∧ 0 < p.needed ∧ 0x80 ≤ p.low ∧
      p.high ≤ 0xBF ∧ p.low ≤ p.high := by
    grind [BeginsSequence]
  refine ⟨List.cons_ne_nil b [], hneeded, hlow, hhigh, hle, ?_, ?_, ?_, ?_⟩
  · intro code hcode
    exact ((h.covers code).1.1 hcode).1
  · intro c hc
    rw [utf8EncodeChar_eq, List.singleton_prefix_cons_iff, eq_comm, ofNat_firstByte_eq_iff] at hc
    exact (h.covers _).1.2 ⟨c.valid, hc⟩
  · intro c hc
    have hbyte := ((h.covers _).1.1 hc).2
    rw [utf8EncodeChar_eq, (ofNat_firstByte_eq_iff c b).2 hbyte, (h.covers _).2 hc]
    rfl
  · intro c hc
    -- one byte is the whole encoding of an ASCII character only
    have hlength := hc.length_le
    rw [utf8EncodeChar_eq, List.cons_prefix_cons, ofNat_firstByte_eq_iff] at hc
    simp only [utf8EncodeChar_eq, List.length_cons, length_continuation, List.length_nil] at hlength
    have hascii : c.toNat < 0x80 := by
      unfold followers at hlength
      split_ifs at hlength <;> omega
    rw [firstByte, if_pos hascii] at hc
    omega

/-- No encoding begins with a stray byte. -/
theorem not_begins_of_stray {b : UInt8} (hb : 0x80 ≤ b.toNat)
    (hrange : b.toNat < 0xC2 ∨ 0xF4 < b.toNat) (c : Char) : ¬[b] <+: String.utf8EncodeChar c := by
  intro hc
  have hcode := code_lt c
  rw [utf8EncodeChar_eq, List.singleton_prefix_cons_iff, eq_comm, ofNat_firstByte_eq_iff] at hc
  unfold firstByte at hc
  split_ifs at hc <;> omega

/-! ## What is read -/

/-- The piece at the beginning of `piece ++ rest` is ill-formed and is as long as it can be: no
encoding stands there, the piece is one that an encoding begins with or else a single byte, and with
the next byte it is not one that an encoding begins with. -/
structure MaximalIllFormed (piece rest : List UInt8) : Prop where
  ne_nil : piece ≠ []
  no_char : ∀ c : Char, ¬String.utf8EncodeChar c <+: piece ++ rest
  begins : (∃ c : Char, piece <+: String.utf8EncodeChar c) ∨ piece.length = 1
  maximal : ∀ (b : UInt8) (tail : List UInt8), rest = b :: tail →
    ∀ c : Char, ¬piece ++ [b] <+: String.utf8EncodeChar c

/-- `Decodes bytes text`: the text is what is to be read of the bytes. -/
inductive Decodes : List UInt8 → List Char → Prop
  | nil : Decodes [] []
  | char {c : Char} {bytes : List UInt8} {text : List Char} (h : Decodes bytes text) :
      Decodes (String.utf8EncodeChar c ++ bytes) (c :: text)
  | replaced {piece bytes : List UInt8} {text : List Char} (hpiece : MaximalIllFormed piece bytes)
      (h : Decodes bytes text) : Decodes (piece ++ bytes) (replacement :: text)

/-- A piece that no encoding goes on with, and that is none itself, has none at its beginning. -/
theorem MaximalIllFormed.of_maximal {piece rest : List UInt8} (hne : piece ≠ [])
    (hshort : ∀ c : Char, ¬String.utf8EncodeChar c <+: piece)
    (hbegins : (∃ c : Char, piece <+: String.utf8EncodeChar c) ∨ piece.length = 1)
    (hmaximal : ∀ (b : UInt8) (tail : List UInt8), rest = b :: tail →
      ∀ c : Char, ¬piece ++ [b] <+: String.utf8EncodeChar c) :
    MaximalIllFormed piece rest := by
  refine ⟨hne, ?_, hbegins, hmaximal⟩
  rintro c ⟨after, hc⟩
  rcases List.append_eq_append_iff.1 hc with ⟨more, hpiece, -⟩ | ⟨more, hchar, hrest⟩
  · exact hshort c ⟨more, hpiece.symm⟩
  · cases more with
    | nil => exact hshort c ⟨[], by rw [hchar]; simp⟩
    | cons b more => exact hmaximal b (more ++ after) hrest c ⟨more, by rw [hchar]; simp⟩

theorem maximalIllFormed_of_stray {b : UInt8} (hb : 0x80 ≤ b.toNat)
    (hrange : b.toNat < 0xC2 ∨ 0xF4 < b.toNat) (rest : List UInt8) : MaximalIllFormed [b] rest := by
  have hfirst := not_begins_of_stray hb hrange
  refine .of_maximal (List.cons_ne_nil b []) ?_ (.inr rfl) ?_
  · intro c hc
    refine hfirst c ?_
    rw [utf8EncodeChar_eq, List.cons_prefix_cons] at hc
    rw [utf8EncodeChar_eq, hc.1, List.singleton_prefix_cons_iff]
  · intro b' tail _ c hc
    exact hfirst c ((List.prefix_append [b] [b']).trans hc)

/-- A sequence that breaks off is a maximal ill-formed piece. -/
theorem Pending.Describes.maximalIllFormed {p : Pending} {seen rest : List UInt8}
    (h : p.Describes seen)
    (hrest : ∀ (b : UInt8) (tail : List UInt8), rest = b :: tail →
      ¬(p.low ≤ b.toNat ∧ b.toNat ≤ p.high)) :
    MaximalIllFormed seen rest := by
  refine .of_maximal h.seen_ne_nil h.incomplete (.inl h.exists_begins) ?_
  intro b tail hb c hc
  obtain ⟨⟨-, hlow, hhigh⟩, hnext⟩ := h.range_of_begins hc
  rw [hnext] at hlow hhigh
  exact hrest b tail hb ⟨hlow, hhigh⟩

/-- The byte that breaks a sequence is read afresh. -/
theorem decodeFrom_of_break {p : Pending} {b : UInt8} (h : ¬(p.low ≤ b.toNat ∧ b.toNat ≤ p.high))
    (bytes : List UInt8) :
    decodeFrom (some p) (b :: bytes) = replacement :: decodeFrom none (b :: bytes) := by
  simp only [decodeFrom, step, if_neg h, List.cons_append]

/-- From its first state the decoder reads what is to be read, and from a state that describes some
bytes it reads what is to be read of these bytes and the rest. -/
theorem decodes_decodeFrom (bytes : List UInt8) :
    Decodes bytes (decodeFrom none bytes) ∧
      ∀ (p : Pending) (seen : List UInt8), p.Describes seen →
        Decodes (seen ++ bytes) (decodeFrom (some p) bytes) := by
  induction bytes with
  | nil =>
      refine ⟨.nil, ?_⟩
      intro p seen h
      exact .replaced (h.maximalIllFormed fun _ _ hnil => by cases hnil) .nil
  | cons b bytes ih =>
      obtain ⟨ihnone, ihsome⟩ := ih
      have hnone : Decodes (b :: bytes) (decodeFrom none (b :: bytes)) := by
        obtain ⟨hlead, hb⟩ | ⟨hlead, hb, hrange⟩ | ⟨p, hlead, hp⟩ := lead_cases b.toNat
        · have hchar := ihnone.char (c := Char.ofNat b.toNat)
          rw [utf8EncodeChar_ofNat hb] at hchar
          simp only [decodeFrom, step, begin, hlead]
          exact hchar
        · simp only [decodeFrom, step, begin, hlead]
          exact ihnone.replaced (maximalIllFormed_of_stray hb hrange bytes)
        · simp only [decodeFrom, step, begin, hlead]
          exact ihsome p [b] hp.describes
      refine ⟨hnone, ?_⟩
      intro p seen h
      by_cases hrange : p.low ≤ b.toNat ∧ b.toNat ≤ p.high
      · simp only [decodeFrom, step, if_pos hrange]
        split
        · next hlast =>
            have hchar := ihnone.char (c := Char.ofNat (p.bits * 64 + b.toNat % 64))
            rw [h.complete hrange.1 hrange.2 hlast, List.append_assoc] at hchar
            exact hchar
        · next hmore =>
            have hrest := ihsome _ _ (h.more hrange.1 hrange.2 hmore)
            rw [List.append_assoc] at hrest
            exact hrest
      · rw [decodeFrom_of_break hrange]
        refine hnone.replaced (h.maximalIllFormed ?_)
        rintro b' tail heq
        cases heq
        exact hrange

/-- The decoder reads every byte string as it should. -/
theorem decodes_decode (bytes : List UInt8) : Decodes bytes (decode bytes) :=
  (decodes_decodeFrom bytes).1

/-! ## There is one reading -/

/-- No encoding begins with the encoding of another character. -/
theorem eq_of_encoding_prefix {c d : Char} {bytes rest : List UInt8}
    (h : String.utf8EncodeChar c ++ bytes = String.utf8EncodeChar d ++ rest) : c = d := by
  have hc := ByteArray.utf8DecodeChar?_utf8EncodeChar_append (b := bytes.toByteArray) (c := c)
  have hd := ByteArray.utf8DecodeChar?_utf8EncodeChar_append (b := rest.toByteArray) (c := d)
  rw [← List.toByteArray_append, h, List.toByteArray_append, hd] at hc
  exact (Option.some.inj hc).symm

/-- There is one maximal ill-formed piece at a place. -/
theorem MaximalIllFormed.eq_of_append {piece rest piece' rest' : List UInt8}
    (h : MaximalIllFormed piece rest) (h' : MaximalIllFormed piece' rest')
    (heq : piece ++ rest = piece' ++ rest') : piece = piece' ∧ rest = rest' := by
  -- a longer piece would go on with a byte that the shorter one cannot take
  have hlonger : ∀ {p r q s more : List UInt8}, MaximalIllFormed p r → MaximalIllFormed q s →
      q = p ++ more → r = more ++ s → p = q ∧ r = s := by
    intro p r q s more hp hq hmore hr
    cases more with
    | nil => exact ⟨by simpa using hmore.symm, by simpa using hr⟩
    | cons b more =>
        rcases hq.begins with ⟨c, hc⟩ | hlength
        · refine absurd (List.IsPrefix.trans ⟨more, ?_⟩ hc) (hp.maximal b (more ++ s) hr c)
          rw [hmore]
          simp
        · have hpos := List.length_pos_iff.2 hp.ne_nil
          rw [hmore] at hlength
          simp at hlength
          omega
  rcases List.append_eq_append_iff.1 heq with ⟨more, hmore, hr⟩ | ⟨more, hmore, hr⟩
  · exact hlonger h h' hmore hr
  · obtain ⟨hp, hr⟩ := hlonger h' h hmore hr
    exact ⟨hp.symm, hr.symm⟩

theorem utf8EncodeChar_ne_nil (c : Char) : String.utf8EncodeChar c ≠ [] := by
  rw [utf8EncodeChar_eq]
  exact List.cons_ne_nil _ _

/-- Bytes have one reading. -/
theorem Decodes.unique {bytes : List UInt8} {text text' : List Char} (h : Decodes bytes text)
    (h' : Decodes bytes text') : text = text' := by
  -- whatever the first reading takes from the front, the second one takes as well
  induction h generalizing text' with
  | nil =>
      generalize hbytes : ([] : List UInt8) = bytes at h'
      cases h' with
      | nil => rfl
      | char _ => exact absurd (List.append_eq_nil_iff.1 hbytes.symm).1 (utf8EncodeChar_ne_nil _)
      | replaced hpiece _ => exact absurd (List.append_eq_nil_iff.1 hbytes.symm).1 hpiece.ne_nil
  | @char c bytes text _ ih =>
      generalize hbytes : String.utf8EncodeChar c ++ bytes = all at h'
      cases h' with
      | nil => exact absurd (List.append_eq_nil_iff.1 hbytes).1 (utf8EncodeChar_ne_nil c)
      | char hrest =>
          obtain rfl := eq_of_encoding_prefix hbytes
          rw [List.append_cancel_left hbytes] at ih
          rw [ih hrest]
      | replaced hpiece _ => exact absurd ⟨bytes, hbytes⟩ (hpiece.no_char c)
  | @replaced piece bytes text hpiece _ ih =>
      generalize hbytes : piece ++ bytes = all at h'
      cases h' with
      | nil => exact absurd (List.append_eq_nil_iff.1 hbytes).1 hpiece.ne_nil
      | char _ => exact absurd ⟨_, hbytes.symm⟩ (hpiece.no_char _)
      | replaced hpiece' hrest =>
          obtain ⟨-, rfl⟩ := hpiece.eq_of_append hpiece' hbytes
          rw [ih hrest]

/-- What is encoded is read back. -/
theorem decode_encode (text : List Char) : decode (encode text) = text := by
  refine (decodes_decode _).unique ?_
  induction text with
  | nil => exact .nil
  | cons c text ih => exact ih.char

/-! ## ASCII -/

theorem mem_continuation {count code : Nat} {b : UInt8} (h : b ∈ continuation count code) :
    0x80 ≤ b.toNat := by
  induction count with
  | zero => cases h
  | succ count ih =>
      rcases List.mem_cons.1 h with rfl | htail
      · rw [UInt8.toNat_ofNat']
        omega
      · exact ih htail

/-- The bytes behind the first one of an encoding are not ASCII. -/
theorem not_ascii_of_prefix {seen : List UInt8} {b : UInt8} {c : Char} (hseen : seen ≠ [])
    (h : seen ++ [b] <+: String.utf8EncodeChar c) : 0x80 ≤ b.toNat := by
  obtain ⟨first, seen, rfl⟩ := List.exists_cons_of_ne_nil hseen
  rw [utf8EncodeChar_eq, List.cons_append, List.cons_prefix_cons] at h
  exact mem_continuation (h.2.subset (by simp))

/-- An ASCII byte behind a maximal ill-formed piece leaves it as it is. -/
theorem MaximalIllFormed.append_ascii {piece bytes : List UInt8} (h : MaximalIllFormed piece bytes)
    {a : UInt8} (ha : a.toNat < 0x80) (rest : List UInt8) :
    MaximalIllFormed piece (bytes ++ a :: rest) := by
  refine .of_maximal h.ne_nil ?_ h.begins ?_
  · intro c hc
    exact h.no_char c (hc.trans (List.prefix_append piece bytes))
  · intro b tail hb c hc
    cases bytes with
    | nil =>
        obtain ⟨rfl, -⟩ := List.cons.inj hb
        have hhigh := not_ascii_of_prefix h.ne_nil hc
        omega
    | cons b' bytes =>
        obtain ⟨rfl, -⟩ := List.cons.inj hb
        exact h.maximal b' bytes rfl c hc

/-- An ASCII byte is read as itself and cuts what stands before it from what stands behind it. -/
theorem Decodes.append_ascii {bytes rest : List UInt8} {text after : List Char}
    (h : Decodes bytes text) {a : UInt8} (ha : a.toNat < 0x80) (hrest : Decodes rest after) :
    Decodes (bytes ++ a :: rest) (text ++ Char.ofNat a.toNat :: after) := by
  induction h with
  | nil =>
      have hchar := hrest.char (c := Char.ofNat a.toNat)
      rwa [utf8EncodeChar_ofNat ha] at hchar
  | char _ ih =>
      rw [List.append_assoc]
      exact ih.char
  | replaced hpiece _ ih =>
      rw [List.append_assoc]
      exact ih.replaced (hpiece.append_ascii ha rest)

theorem decode_append_ascii (bytes : List UInt8) {a : UInt8} (ha : a.toNat < 0x80)
    (rest : List UInt8) :
    decode (bytes ++ a :: rest) = decode bytes ++ Char.ofNat a.toNat :: decode rest :=
  (decodes_decode _).unique ((decodes_decode bytes).append_ascii ha (decodes_decode rest))

theorem not_ascii_replacement : ¬replacement.toNat < 0x80 := by decide

theorem ofNat_ne_replacement {a : UInt8} (ha : a.toNat < 0x80) :
    Char.ofNat a.toNat ≠ replacement := by
  have hcode : (Char.ofNat a.toNat).toNat = a.toNat := toNat_ofNat (.inl (by omega))
  intro heq
  rw [heq] at hcode
  exact not_ascii_replacement (by omega)

/-- An ASCII character is read of its own byte only. -/
theorem Decodes.mem_of_ascii {bytes : List UInt8} {text : List Char} (h : Decodes bytes text)
    {a : UInt8} (ha : a.toNat < 0x80) (hmem : Char.ofNat a.toNat ∈ text) : a ∈ bytes := by
  induction h with
  | nil => cases hmem
  | char _ ih =>
      rcases List.mem_cons.1 hmem with rfl | htail
      · rw [utf8EncodeChar_ofNat ha]
        simp
      · exact List.mem_append_right _ (ih htail)
  | replaced _ _ ih =>
      rcases List.mem_cons.1 hmem with heq | htail
      · exact absurd heq (ofNat_ne_replacement ha)
      · exact List.mem_append_right _ (ih htail)

theorem Decodes.head_of_ascii {bytes : List UInt8} {text : List Char} (h : Decodes bytes text)
    {a : UInt8} (ha : a.toNat < 0x80) (hhead : text.head? = some (Char.ofNat a.toNat)) :
    bytes.head? = some a := by
  cases h with
  | nil => cases hhead
  | char _ =>
      obtain rfl := Option.some.inj hhead
      rw [utf8EncodeChar_ofNat ha]
      rfl
  | replaced _ _ => exact absurd (Option.some.inj hhead).symm (ofNat_ne_replacement ha)

/-- Bytes are read without a replacement only if they are an encoding. -/
theorem Decodes.eq_encode {bytes : List UInt8} {text : List Char} (h : Decodes bytes text)
    (hno : replacement ∉ text) : bytes = encode text := by
  induction h with
  | nil => rfl
  | char _ ih =>
      rw [encode, List.flatMap_cons, ← encode, ← ih (fun hmem => hno (List.mem_cons_of_mem _ hmem))]
  | replaced _ _ _ => exact absurd List.mem_cons_self hno

end LiveFormula.Text.Utf8
