import LiveFormula.Proofs.CommandOutcome
import LiveFormula.Proofs.NumberText
import LiveFormula.Proofs.RoundTrip
import LiveFormula.Proofs.UniqueDecoding
import LiveFormula.Proofs.WordForms

/-!
# What is written of a program determines it

A program is written in hexadecimal, as a record of decimal numbers, as a listing or as bytes. The
first three are lists of items set apart by a mark that no item has (`Text.Item`), so the items can be
found again, and each item belongs to one word: digits of either base have one value, and the
mnemonics of two instructions differ, unless both push something that is not a number. No literal of
a formula is of that kind.

* `Text.intercalate_inj` — a list of items is found again in its text.
* `Word.hex_injective`, `Program.mnemonic_inj` — an item is found again.
* `hasValue_of_compile` — what a compiled formula pushes are numbers.
* `CommandLine.ProgramFormat.eq_of_content` — the content in any format.
* `CommandLine.compile_output_determines_program` — the outputs of two commands.
-/

set_option autoImplicit false

namespace LiveFormula

/-! ## Items and marks -/

namespace Text

/-- What stands before the first mark, and what stands behind it. -/
theorem append_mark_inj {α : Type} {mark : α} {x y rest rest' : List α} (hx : mark ∉ x)
    (hy : mark ∉ y) (h : x ++ mark :: rest = y ++ mark :: rest') : x = y ∧ rest = rest' := by
  induction x generalizing y with
  | nil =>
      cases y with
      | nil => exact ⟨rfl, (List.cons.inj h).2⟩
      | cons c y => exact absurd ((List.cons.inj h).1 ▸ List.mem_cons_self) hy
  | cons c x ih =>
      cases y with
      | nil => exact absurd ((List.cons.inj h).1 ▸ List.mem_cons_self) hx
      | cons d y =>
          obtain ⟨rfl, htail⟩ := List.cons.inj h
          obtain ⟨rfl, rfl⟩ := ih (fun hmem => hx (List.mem_cons_of_mem _ hmem))
            (fun hmem => hy (List.mem_cons_of_mem _ hmem)) htail
          exact ⟨rfl, rfl⟩

/-- A text that can stand between marks. -/
def Item (mark : Char) (s : String) : Prop := s.toList ≠ [] ∧ mark ∉ s.toList

theorem intercalate_chars_inj {mark : Char} {gap : List Char} {xs ys : List (List Char)}
    (hxs : ∀ x ∈ xs, x ≠ [] ∧ mark ∉ x) (hys : ∀ y ∈ ys, y ≠ [] ∧ mark ∉ y)
    (h : (mark :: gap).intercalate xs = (mark :: gap).intercalate ys) : xs = ys := by
  induction xs generalizing ys with
  | nil =>
      match ys with
      | [] => rfl
      | [y] => simp [(hys y List.mem_cons_self).1] at h
      | y :: y' :: ys => simp [List.intercalate_cons_cons] at h
  | cons x xs ih =>
      have hx := hxs x List.mem_cons_self
      match xs, ys with
      | [], [] => simp [hx.1] at h
      | _ :: _, [] => simp [List.intercalate_cons_cons] at h
      | [], [y] => simpa using h
      | [], y :: y' :: ys =>
          rw [List.intercalate_singleton, List.intercalate_cons_cons] at h
          exact absurd (by simp [h]) hx.2
      | x' :: xs, [y] =>
          rw [List.intercalate_singleton, List.intercalate_cons_cons] at h
          exact absurd (by simp [← h]) (hys y List.mem_cons_self).2
      | x' :: xs, y :: y' :: ys =>
          rw [List.intercalate_cons_cons, List.intercalate_cons_cons, List.append_assoc,
            List.append_assoc, List.cons_append, List.cons_append] at h
          obtain ⟨rfl, hrest⟩ := append_mark_inj hx.2 (hys y List.mem_cons_self).2 h
          have hmore : x' :: xs = y' :: ys :=
            ih (fun z hz => hxs z (List.mem_cons_of_mem _ hz))
              (fun z hz => hys z (List.mem_cons_of_mem _ hz)) (List.append_cancel_left hrest)
          rw [hmore]

/-- A list of items is found again in its text. -/
theorem intercalate_inj (mark : Char) (gap : List Char) {xs ys : List String}
    (hxs : ∀ x ∈ xs, Item mark x) (hys : ∀ y ∈ ys, Item mark y)
    (h : (String.ofList (mark :: gap)).intercalate xs =
      (String.ofList (mark :: gap)).intercalate ys) : xs = ys := by
  have hchars := congrArg String.toList h
  rw [String.toList_intercalate, String.toList_intercalate, String.toList_ofList] at hchars
  refine List.map_injective_iff.2 (fun _ _ => String.toList_injective)
    (intercalate_chars_inj ?_ ?_ hchars)
  · simpa [Item] using hxs
  · simpa [Item] using hys

/-! ## Bytes of a text -/

theorem toList_loop (bytes : ByteArray) (i : Nat) (done : List UInt8) :
    ByteArray.toList.loop bytes i done = done.reverse ++ bytes.data.toList.drop i := by
  fun_induction ByteArray.toList.loop bytes i done with
  | case1 i done hi ih =>
      have hbyte : bytes.data.toList[i]? = some (bytes.get! i) := by simp [ByteArray.get!, hi]
      have hdrop : bytes.data.toList.drop i = bytes.get! i :: bytes.data.toList.drop (i + 1) := by
        rw [List.drop_eq_getElem?_toList_append, hbyte]
        rfl
      rw [ih, hdrop, List.reverse_cons, List.append_assoc]
      rfl
  | case2 i done hi =>
      rw [List.drop_eq_nil_of_le (by simpa using hi), List.append_nil]

/-- The bytes of a text determine it. -/
theorem toUTF8_inj {s t : String} (h : s.toUTF8.toList = t.toUTF8.toList) : s = t := by
  have hdata : s.toByteArray.data.toList = t.toByteArray.data.toList := by
    simpa [ByteArray.toList, toList_loop] using h
  exact String.toByteArray_inj.1 (ByteArray.ext (Array.toList_inj.1 hdata))

/-! ## Digits -/

/-- The value of a hexadecimal digit. -/
def hexValue (c : Char) : Nat := if c.isDigit then c.toNat - 48 else c.toNat - 87

/-- The number with the given hexadecimal digits. -/
def ofHexDigits (digits : List Char) : Nat := digits.foldl (fun n c => 16 * n + hexValue c) 0

theorem hexValue_digitChar {d : Nat} (hd : d < 16) : hexValue d.digitChar = d := by
  have hall : ∀ d : Fin 16, hexValue d.val.digitChar = d.val := by decide
  exact hall ⟨d, hd⟩

theorem ofHexDigits_toDigits (n : Nat) : ofHexDigits (Nat.toDigits 16 n) = n := by
  induction n using Nat.strongRecOn with
  | ind n ih =>
      rcases Nat.lt_or_ge n 16 with hn | hn
      · rw [Nat.toDigits_of_lt_base hn]
        simp [ofHexDigits, hexValue_digitChar hn]
      · have hlast := hexValue_digitChar (Nat.mod_lt n (by decide : 0 < 16))
        have hmore := ih (n / 16) (Nat.div_lt_self (by omega) (by decide))
        rw [ofHexDigits] at hmore
        rw [Nat.toDigits_of_base_le (by decide) hn, ofHexDigits, List.foldl_append, hmore]
        simp only [List.foldl_cons, List.foldl_nil, hlast]
        omega

theorem ofHexDigits_hexDigits (width n : Nat) : ofHexDigits (hexDigits width n) = n := by
  have hzeros : ∀ k, (List.replicate k '0').foldl (fun n c => 16 * n + hexValue c) 0 = 0 := by
    intro k
    induction k with
    | zero => rfl
    | succ k ih => simpa [List.replicate_succ, hexValue] using ih
  rw [hexDigits, ofHexDigits, List.foldl_append, hzeros]
  exact ofHexDigits_toDigits n

theorem mem_hexDigits {width n : Nat} {c : Char} (hc : c ∈ hexDigits width n) :
    ∃ d, c = Nat.digitChar d := by
  rw [hexDigits, List.mem_append] at hc
  rcases hc with hc | hc
  · exact ⟨0, List.eq_of_mem_replicate hc⟩
  · induction n using Nat.strongRecOn with
    | ind n ih =>
        rcases Nat.lt_or_ge n 16 with hn | hn
        · rw [Nat.toDigits_of_lt_base hn, List.mem_singleton] at hc
          exact ⟨n, hc⟩
        · rw [Nat.toDigits_of_base_le (by decide) hn, List.mem_append, List.mem_singleton] at hc
          rcases hc with hc | hc
          · exact ih (n / 16) (Nat.div_lt_self (by omega) (by decide)) hc
          · exact ⟨_, hc⟩

theorem repr_inj {m n : Nat} (h : m.repr = n.repr) : m = n := by
  have hvalue := congrArg (fun s => Nat.ofDigitChars 10 (String.toList s) 0) h
  simpa using hvalue

/-- An integer is written with digits and a sign. -/
theorem mem_repr {n : Int} {c : Char} (hc : c ∈ n.repr.toList) :
    c = '-' ∨ c.isDigit = true := by
  have hnat : ∀ {m : Nat}, c ∈ m.repr.toList → c.isDigit = true := by
    intro m hmem
    rw [Nat.toList_repr] at hmem
    exact Nat.isDigit_of_mem_toDigits (by decide) (by decide) hmem
  rw [Int.repr_eq_if] at hc
  split at hc
  · exact .inr (hnat hc)
  · rw [String.toList_append, List.mem_append] at hc
    exact hc.imp (by simp) hnat

end Text

/-! ## Items of the formats -/

namespace Word

theorem item_hex (w : Int) : Text.Item '\n' (hex w) := by
  have hdigits : ∀ width n, '\n' ∉ Text.hexDigits width n := by
    intro width n hmem
    obtain ⟨d, hd⟩ := Text.mem_hexDigits hmem
    exact Nat.digitChar_ne '\n' (by decide) hd.symm
  unfold hex Text.Item
  split <;> simp [hdigits]

/-- A word in hexadecimal is found again. -/
theorem hex_injective : Function.Injective hex := by
  intro v w h
  have hvalue : ∀ {width : Nat}, Text.hexDigits width v.natAbs = Text.hexDigits width w.natAbs →
      v.natAbs = w.natAbs := by
    intro width hdigits
    rw [← Text.ofHexDigits_hexDigits width v.natAbs, hdigits, Text.ofHexDigits_hexDigits]
  have hchars := congrArg String.toList h
  by_cases hv : v < 0 <;> by_cases hw : w < 0 <;>
    simp only [hex, hv, hw, if_true, if_false, String.toList_append, String.toList_ofList] at hchars
  · have habs := hvalue (List.append_cancel_left hchars)
    omega
  · simp at hchars
  · simp at hchars
  · have habs := hvalue (List.append_cancel_left hchars)
    omega

theorem item_toString (w : Int) : Text.Item ',' (toString w) := by
  refine ⟨?_, fun hmem => by simpa using Text.mem_repr hmem⟩
  rw [Int.toString_eq_repr, Int.repr_eq_if]
  split <;> simp

/-- A word in decimal is found again. -/
theorem toString_injective : Function.Injective (toString : Int → String) := by
  have hsign : ∀ {m n : Nat}, m.repr ≠ "-" ++ n.repr := by
    intro m n h
    have hmem : '-' ∈ Nat.toDigits 10 m := by simp [← Nat.toList_repr, h]
    simpa using Nat.isDigit_of_mem_toDigits (by decide) (by decide) hmem
  intro v w h
  simp only [Int.toString_eq_repr, Int.repr_eq_if] at h
  split_ifs at h
  · have habs := Text.repr_inj h
    omega
  · exact absurd h hsign
  · exact absurd h.symm hsign
  · have habs := Text.repr_inj ((String.append_right_inj "-").1 h)
    omega

end Word

/-- Whether what is pushed, if anything is, is a number. -/
def Instr.HasValue : Instr → Prop
  | .push x => x.isNaN = false
  | _ => True

theorem Opcode.mnemonic_injective : Function.Injective mnemonic := by
  intro op op' h
  rcases op with (_ | _ | _ | _) | (_ | _) <;> rcases op' with (_ | _ | _ | _) | (_ | _) <;>
    first | rfl | simp [mnemonic] at h

theorem Opcode.mnemonic_chars (op : Opcode) : ∀ c ∈ op.mnemonic.toList, c.isLower = true := by
  rcases op with (_ | _ | _ | _) | (_ | _) <;> simp [mnemonic]

namespace Program

/-- A slot is found again in the name of its variable, or in its number if there is none. -/
theorem slotName_injective :
    Function.Injective fun slot : Int => (slotName? slot).getD (toString slot) := by
  have hnumber : ∀ {slot : Int} {c : Char}, c.isDigit = false → c ≠ '-' →
      toString slot ≠ String.ofList [c] := by
    intro slot c hdigit hsign htext
    have hmem : c ∈ slot.repr.toList := by simp [← Int.toString_eq_repr, htext]
    simpa [hdigit, hsign] using Text.mem_repr hmem
  have hname : ∀ {slot other : Int} {name : String}, slotName? slot = some name →
      toString other ≠ name := by
    intro slot other name h
    unfold slotName? at h
    split_ifs at h <;> cases h <;> exact hnumber (by decide) (by decide)
  intro a b h
  cases ha : slotName? a with
  | none =>
      cases hb : slotName? b with
      | none => exact Word.toString_injective (by simpa [ha, hb] using h)
      | some name => exact absurd (by simpa [ha, hb] using h) (hname hb)
  | some name =>
      cases hb : slotName? b with
      | none => exact absurd (by simpa [ha, hb] using h.symm) (hname ha)
      | some name' =>
          obtain rfl : name = name' := by simpa [ha, hb] using h
          unfold slotName? at ha hb
          split_ifs at ha hb <;> first | omega | exact absurd (ha.trans hb.symm) (by decide)

theorem item_mnemonic {i : Instr} (hi : i.HasValue) : Text.Item '\n' (mnemonic i) := by
  cases i with
  | load slot =>
      refine ⟨by simp [mnemonic], ?_⟩
      simp only [mnemonic, slotName?]
      have hnumber : '\n' ∉ slot.repr.toList := fun hmem => by
        simpa using Text.mem_repr hmem
      split_ifs <;> simp [hnumber]
  | push x =>
      have hnumber : '\n' ∉ (x.convert .double).text.toList := fun hmem => by
        simpa [Numeral.WordChar] using
          (Numeral.text_reads (Binary.isNaN_convert .double hi)).1 '\n' hmem
      refine ⟨by simp [mnemonic], ?_⟩
      simp [mnemonic, hnumber]
  | apply op =>
      rcases op with (_ | _ | _ | _) | (_ | _) <;> simp [Text.Item, mnemonic, Opcode.mnemonic]

/-- The text of a 32-bit number is found again. -/
theorem text_convert_inj {x y : Single} (hx : x.isNaN = false) (hy : y.isNaN = false)
    (h : (x.convert .double).text = (y.convert .double).text) : x = y := by
  have hdouble : x.convert .double = y.convert .double := by
    have hread := (Numeral.text_reads (Binary.isNaN_convert .double hx)).2.2
    rw [h, (Numeral.text_reads (Binary.isNaN_convert .double hy)).2.2] at hread
    exact (Option.some.inj hread).symm
  rw [← Binary.convert_convert Format.single_within_double hx, hdouble,
    Binary.convert_convert Format.single_within_double hy]

/-- Instructions with the same mnemonic are the same, unless what they push is not a number. -/
theorem mnemonic_inj {i j : Instr} (hi : i.HasValue) (hj : j.HasValue)
    (h : mnemonic i = mnemonic j) : i = j := by
  have hblank : ' ' ∈ (mnemonic i).toList ↔ ' ' ∈ (mnemonic j).toList := by rw [h]
  have hname : ∀ op : Opcode, ' ' ∉ op.mnemonic.toList := fun op hmem => by
    simpa using op.mnemonic_chars _ hmem
  match i, j with
  | .load slot, .load slot' => rw [slotName_injective ((String.append_right_inj "var ").1 h)]
  | .push x, .push y => rw [text_convert_inj hi hj ((String.append_right_inj "lit ").1 h)]
  | .apply op, .apply op' => rw [Opcode.mnemonic_injective h]
  | .load slot, .push y => simpa [mnemonic] using congrArg String.toList h
  | .push x, .load slot' => simpa [mnemonic] using congrArg String.toList h
  -- the mnemonic of an operator stands alone
  | .apply op, .load slot' => simp [mnemonic, hname] at hblank
  | .apply op, .push y => simp [mnemonic, hname] at hblank
  | .load slot, .apply op' => simp [mnemonic, hname] at hblank
  | .push x, .apply op' => simp [mnemonic, hname] at hblank

/-- A listing determines the instructions. -/
theorem map_mnemonic_inj {is js : List Instr} (his : ∀ i ∈ is, i.HasValue)
    (hjs : ∀ j ∈ js, j.HasValue) (h : is.map mnemonic = js.map mnemonic) : is = js := by
  induction is generalizing js with
  | nil => simpa using h.symm
  | cons i is ih =>
      cases js with
      | nil => cases h
      | cons j js =>
          obtain ⟨hhead, htail⟩ := List.cons.inj h
          rw [mnemonic_inj (his i List.mem_cons_self) (hjs j List.mem_cons_self) hhead,
            ih (fun k hk => his k (List.mem_cons_of_mem _ hk))
              (fun k hk => hjs k (List.mem_cons_of_mem _ hk)) htail]

end Program

/-! ## Compiled formulas -/

/-- What is pushed is a number if all literals are. -/
theorem Expr.LowersTo.hasValue {e : Expr} {tree : ProgramTree} (h : e.LowersTo tree)
    (he : ∀ leaf ∈ e.leaves, leaf.HasValue) : ∀ i ∈ tree.instructions, i.HasValue := by
  induction h with
  | var => simp [ProgramTree.instructions, Instr.HasValue]
  | literal hword =>
      rename_i x offset y
      have hx : x.isNaN = false := he _ List.mem_cons_self
      obtain rfl : y = x.convert .single := Word.ofSingle_injective (Word.eq_of_ofDouble? hword)
      intro i hi
      obtain rfl := List.mem_singleton.1 hi
      exact Binary.isNaN_convert .single hx
  | binary _ _ ihl ihr =>
      simp only [ProgramTree.instructions, List.mem_append, List.mem_singleton]
      simp only [leaves, List.mem_append] at he
      rintro i ((hi | hi) | rfl)
      · exact ihl (fun leaf hleaf => he leaf (.inl hleaf)) i hi
      · exact ihr (fun leaf hleaf => he leaf (.inr hleaf)) i hi
      · exact trivial
  | call _ ih =>
      simp only [ProgramTree.instructions, List.mem_append, List.mem_singleton]
      rintro i (hi | rfl)
      · exact ih he i hi
      · exact trivial

/-- A compiled formula consists of the words of instructions that push nothing but numbers. -/
theorem hasValue_of_compile {text : String} {p : Program} (h : compile text = .ok p) :
    ∃ is : List Instr, p.words = is.map Word.ofInstr ∧ ∀ i ∈ is, i.HasValue := by
  obtain ⟨e, hparse, hencode⟩ := exists_encode_of_compile h
  obtain ⟨tree, hlower, rfl⟩ := exists_lowersTo_of_encode hencode
  exact ⟨tree.instructions, rfl, hlower.hasValue (hasValue_of_parse hparse)⟩

theorem Program.listing_ofInstr {p : Program} {is : List Instr}
    (h : p.words = is.map Word.ofInstr) : p.listing = .ok (is.map mnemonic) := by
  rw [listing, h, collect_decode (Word.map_decode?_ofInstr is)]

/-- A compiled formula has a listing, and each of its lines can stand in a text of lines. -/
theorem Program.exists_listing_of_compile {text : String} {p : Program}
    (h : compile text = .ok p) : ∃ lines, p.listing = .ok lines ∧ ∀ s ∈ lines, Text.Item '\n' s := by
  obtain ⟨is, hwords, his⟩ := hasValue_of_compile h
  exact ⟨is.map mnemonic, listing_ofInstr hwords,
    List.forall_mem_map.2 fun i hi => item_mnemonic (his i hi)⟩

theorem Program.exists_bytes_of_compile {text : String} {p : Program} (h : compile text = .ok p) :
    ∃ bytes, p.toBytes? = some bytes := by
  obtain ⟨e, -, hencode⟩ := exists_encode_of_compile h
  exact ⟨_, toBytes?_eq_some_iff.2 ⟨fits_of_encode hencode, rfl⟩⟩

/-- Compiled formulas with the same listing are the same program. -/
theorem Program.eq_of_listing {text text' : String} {p q : Program} (hp : compile text = .ok p)
    (hq : compile text' = .ok q) (h : p.listing = q.listing) : p.words = q.words := by
  obtain ⟨is, hwords, his⟩ := hasValue_of_compile hp
  obtain ⟨js, hwords', hjs⟩ := hasValue_of_compile hq
  rw [listing_ofInstr hwords, listing_ofInstr hwords', Except.ok.injEq] at h
  rw [hwords, hwords', map_mnemonic_inj his hjs h]

namespace CommandLine

/-! ## The formats -/

namespace ProgramFormat

/-- Words in hexadecimal determine the program, whatever the words are. -/
theorem eq_of_hexadecimal {p q : Program}
    (h : hexadecimal.content p = hexadecimal.content q) : p.words = q.words := by
  have htext := (String.append_left_inj "\n").1 (Text.toUTF8_inj h)
  have hitems : ∀ words : List Int, ∀ s ∈ words.map Word.hex, Text.Item '\n' s := fun words =>
    List.forall_mem_map.2 fun w _ => Word.item_hex w
  exact List.map_injective_iff.2 Word.hex_injective
    (Text.intercalate_inj '\n' [] (hitems p.words) (hitems q.words) htext)

/-- Words in decimal determine the program, whatever the words are. -/
theorem eq_of_json {p q : Program} (h : json.content p = json.content q) : p.words = q.words := by
  have hitems : ∀ words : List Int, ∀ s ∈ words.map toString, Text.Item ',' s := fun words =>
    List.forall_mem_map.2 fun w _ => Word.item_toString w
  have hlength : ∀ n : Nat, ',' ∉ (toString n).toList := fun n => (Word.item_toString n).2
  have hjson : jsonText p ++ "\n" = jsonText q ++ "\n" := Text.toUTF8_inj h
  have htext := congrArg String.toList hjson
  simp only [jsonText, String.toList_append, List.append_assoc] at htext
  -- the first comma stands behind the number of words
  obtain ⟨-, hrest⟩ := Text.append_mark_inj (hlength p.length) (hlength q.length)
    (List.append_cancel_left htext)
  have hwords := List.append_cancel_right (List.append_cancel_left
    (hrest : " \"words\": [".toList ++ _ = " \"words\": [".toList ++ _))
  exact List.map_injective_iff.2 Word.toString_injective
    (Text.intercalate_inj ',' [' '] (hitems p.words) (hitems q.words)
      (String.toList_injective hwords))

/-- A listing of a compiled formula is found again in its text. -/
theorem eq_of_listing {text text' : String} {p q : Program} (hp : compile text = .ok p)
    (hq : compile text' = .ok q) (h : listing.content p = listing.content q) :
    p.words = q.words := by
  obtain ⟨lines, hlines, hitems⟩ := Program.exists_listing_of_compile hp
  obtain ⟨lines', hlines', hitems'⟩ := Program.exists_listing_of_compile hq
  have htext := (String.append_left_inj "\n").1 (Text.toUTF8_inj h)
  simp only [listingText, hlines, hlines'] at htext
  apply Program.eq_of_listing hp hq
  rw [hlines, hlines', Text.intercalate_inj '\n' [] hitems hitems' htext]

theorem eq_of_bytes {text text' : String} {p q : Program} (hp : compile text = .ok p)
    (hq : compile text' = .ok q) (h : bytes.content p = bytes.content q) :
    p.words = q.words := by
  obtain ⟨bs, hbs⟩ := Program.exists_bytes_of_compile hp
  obtain ⟨bs', hbs'⟩ := Program.exists_bytes_of_compile hq
  simp only [content, hbs, hbs', Option.getD_some] at h
  have hread := Program.ofBytes_of_toBytes? hbs
  rw [h, Program.ofBytes_of_toBytes? hbs', Except.ok.injEq] at hread
  rw [hread]

/-- The content of a compiled formula determines its words in every format. -/
theorem eq_of_content {text text' : String} {p q : Program} (hp : compile text = .ok p)
    (hq : compile text' = .ok q) (format : ProgramFormat) (h : format.content p = format.content q) :
    p.words = q.words := by
  cases format with
  | hexadecimal => exact eq_of_hexadecimal h
  | json => exact eq_of_json h
  | listing => exact eq_of_listing hp hq h
  | bytes => exact eq_of_bytes hp hq h

end ProgramFormat

/-! ## The command -/

namespace CompileCommand

/-- What a command writes: to the standard output, or into the file that its path stands for. -/
def Writes (c : CompileCommand) (input : List UInt8) (files : FileTree) (bytes : List UInt8) : Prop :=
  let executed := c.plan.execute input files
  match c.output with
  | .standardOutput => executed.2.outputBytes = bytes
  | .pathless => False
  | .file path =>
    ∃ next target, files.opening path = (next, .ok target) ∧
      executed.1.node? target = some (.file bytes)

variable {text : String} {p : Program} {format : ProgramFormat} {output : Destination}
  {input : List UInt8} {files : FileTree}

/-- Whatever the destination, it is the content of the program that is written. -/
theorem eq_of_writes (h : compile text = .ok p) {bytes : List UInt8}
    (hwrites : Writes ⟨text, format, output⟩ input files bytes) : bytes = format.content p := by
  cases output with
  | standardOutput => exact hwrites.symm.trans (execute_standardOutput input files h format)
  | pathless => exact hwrites.elim
  | file path =>
      obtain ⟨next, target, hopen, hnode⟩ := hwrites
      obtain ⟨effects, hexecute⟩ := execute_file input files h format hopen
      rw [hexecute, next.node?_put (FileTree.ne_nil_of_opening hopen), if_pos rfl] at hnode
      exact (Node.file.inj (Option.some.inj hnode)).symm

/-- A command that succeeds has written something. -/
theorem exists_writes_iff (h : compile text = .ok p) :
    ((plan ⟨text, format, output⟩).execute input files).2.status = 0 ↔
      ∃ bytes, Writes ⟨text, format, output⟩ input files bytes := by
  have hexecute := execute_of_ok input files h format output
  cases output with
  | standardOutput => simp [Writes, hexecute, Outcome.success]
  | pathless => simp [Writes, hexecute, refused_status]
  | file path =>
      obtain ⟨⟨next, result⟩, hopen⟩ : ∃ opened, files.opening path = opened := ⟨_, rfl⟩
      cases result with
      | error e => simp [Writes, hexecute, FileTree.write, hopen, refused_status]
      | ok target =>
          obtain ⟨effects, hexecute⟩ := execute_file input files h format hopen
          have hnode := next.node?_put (FileTree.ne_nil_of_opening hopen)
            (.file (format.content p)) target
          simp [Writes, hexecute, hopen, hnode, Outcome.success]

end CompileCommand

/-- **Every format determines the program.** Two formulas that compile are written, in any one of the
four formats and to whatever destinations, as the same bytes just if their programs have the same
words, and a command that succeeds has written some. In particular a compiled formula always has a
listing, and formulas with the same listing have the same program. -/
theorem compile_output_determines_program (text text' : String) (p q : Program)
    (hp : compile text = .ok p) (hq : compile text' = .ok q) :
    (∀ (format : ProgramFormat) (output output' : Destination) (input input' : List UInt8)
      (files files' : FileTree) (bytes bytes' : List UInt8),
      CompileCommand.Writes ⟨text, format, output⟩ input files bytes →
      CompileCommand.Writes ⟨text', format, output'⟩ input' files' bytes' →
      (bytes = bytes' ↔ p.words = q.words)) ∧
    (∀ (format : ProgramFormat) (output : Destination) (input : List UInt8) (files : FileTree),
      ((CompileCommand.plan ⟨text, format, output⟩).execute input files).2.status = 0 ↔
        ∃ bytes, CompileCommand.Writes ⟨text, format, output⟩ input files bytes) ∧
    (∃ lines, p.listing = .ok lines) ∧ (p.listing = q.listing ↔ p = q) := by
  refine ⟨?_, fun _ _ _ _ => CompileCommand.exists_writes_iff hp, ?_, ?_⟩
  · intro format output output' input input' files files' bytes bytes' hwrites hwrites'
    rw [CompileCommand.eq_of_writes hp hwrites, CompileCommand.eq_of_writes hq hwrites']
    refine ⟨ProgramFormat.eq_of_content hp hq format, fun hwords => ?_⟩
    obtain rfl : p = q := congrArg Program.mk hwords
    rfl
  · obtain ⟨lines, hlines, -⟩ := Program.exists_listing_of_compile hp
    exact ⟨lines, hlines⟩
  · exact ⟨fun h => congrArg Program.mk (Program.eq_of_listing hp hq h), congrArg Program.listing⟩

/-- `16777217` is no 32-bit number, and is written as `16777216` is. In no format is it written as
`16777218` is. -/
theorem compile_output_determines_program_rounded :
    let printed (text : String) (format : ProgramFormat) :=
      ((CompileCommand.plan ⟨text, format, .standardOutput⟩).execute [] ⟨[], none, []⟩).2.outputBytes
    compile "t+16777217" = .ok ⟨[1, 0x4b80000000000000, 4]⟩ ∧
      compile "t + 16777216" = .ok ⟨[1, 0x4b80000000000000, 4]⟩ ∧
      compile "t+16777218" = .ok ⟨[1, 0x4b80000100000000, 4]⟩ ∧
      ∀ format, printed "t+16777217" format = printed "t + 16777216" format ∧
        printed "t+16777217" format ≠ printed "t+16777218" format := by
  intro printed
  have hodd : compile "t+16777217" = .ok ⟨[1, 0x4b80000000000000, 4]⟩ := by decide +kernel
  have heven : compile "t + 16777216" = .ok ⟨[1, 0x4b80000000000000, 4]⟩ := by decide +kernel
  have hnext : compile "t+16777218" = .ok ⟨[1, 0x4b80000100000000, 4]⟩ := by decide +kernel
  refine ⟨hodd, heven, hnext, fun format => ⟨?_, ?_⟩⟩
  · obtain ⟨hsame, -⟩ := compile_output_determines_program _ _ _ _ hodd heven
    exact (hsame format .standardOutput .standardOutput [] [] _ _ _ _ rfl rfl).2 rfl
  · obtain ⟨hsame, -⟩ := compile_output_determines_program _ _ _ _ hodd hnext
    rw [ne_eq, hsame format .standardOutput .standardOutput [] [] _ _ _ _ rfl rfl]
    decide

end CommandLine

end LiveFormula
