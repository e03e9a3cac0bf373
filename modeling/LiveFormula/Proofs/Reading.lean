import LiveFormula.Formula.Rule
import LiveFormula.Proofs.Cursor
import LiveFormula.Proofs.Grammar

/-!
# What the rules read

Every rule reads forward from its cursor. Where it matches, what it read is derived by the symbol of
the rule with the tree it built; where it stops, what it read can be completed to something the
symbol derives; and where it gives up, it has read as many unclosed parentheses as there was room
for. The three together are `Outcome.Fits`, and each rule has one lemma that says so:
`literal_fits`, `call_fits`, `name_fits`, `parenthesized_fits`, `atom_fits`, `chain_fits` and, by
induction on the room, `expression_fits`.

The rounds of a chain are a relation of their own (`Rounds`), which no longer counts them.

`expression_of_parseChars` leads from the tree of a text back to the rule that read it.
-/

set_option autoImplicit false

namespace LiveFormula

open Grammar

/-! ## Blanks and keywords -/

theorem Text.isAsciiBlank_iff {c : Char} : Text.isAsciiBlank c = true ↔ c ∈ blanks := by
  constructor
  · intro h
    simp only [Text.isAsciiBlank, Bool.or_eq_true, beq_iff_eq, Bool.and_eq_true,
      decide_eq_true_eq] at h
    rcases h with rfl | ⟨hlo, hhi⟩
    · decide
    · have hc : c = Char.ofNat c.toNat := (Char.ofNat_toNat c).symm
      generalize c.toNat = n at hlo hhi hc
      obtain rfl | rfl | rfl | rfl | rfl : n = 9 ∨ n = 10 ∨ n = 11 ∨ n = 12 ∨ n = 13 := by omega
      all_goals subst hc; decide
  · intro h
    simp only [blanks, List.mem_cons, List.not_mem_nil, or_false] at h
    rcases h with rfl | rfl | rfl | rfl | rfl | rfl <;> decide

namespace Cursor

theorem reads_skipBlanks (c : Cursor) : ∃ gap, Blank gap ∧ c.Reads gap c.skipBlanks :=
  ⟨c.run Text.isAsciiBlank, fun x hx => Text.isAsciiBlank_iff.1 (c.forall_mem_run _ x hx),
    c.reads_skip _⟩

/-- Blanks are skipped up to the first character that is none. -/
theorem Reads.skipBlanks_eq {c d : Cursor} {gap : List Char} (h : c.Reads gap d) (hgap : Blank gap)
    (hd : ∀ ch, d.peek = some ch → ch ∉ blanks) : c.skipBlanks = d :=
  (h.run_eq (fun x hx => Text.isAsciiBlank_iff.2 (hgap x hx)) fun ch hch =>
    Bool.eq_false_iff.2 fun hblank => hd ch hch (Text.isAsciiBlank_iff.1 hblank)).2

theorem startsWith_iff {c : Cursor} {word : List Char} (hword : word ≠ []) :
    c.startsWith word = true ↔ word <+: c.rest := by
  simp only [startsWith, Bool.and_eq_true, decide_eq_true_eq, List.isPrefixOf_iff_prefix,
    and_iff_right_iff_imp]
  rintro ⟨r, hr⟩
  have hreads := reads_advance hword hr.symm
  have hpos : min (c.pos + word.length) c.size = c.pos + word.length := hreads.pos
  omega

theorem length_rest (c : Cursor) : c.rest.length = c.size - c.pos := by
  rw [c.rest_eq, List.length_drop, c.size_eq]

end Cursor

/-- Where a rule ended, stopped or gave up. -/
def Outcome.cursor : Outcome → Cursor
  | .matched _ d => d
  | .stopped d => d
  | .tooDeep d => d

namespace Rule

theorem keyword?_eq_some {c d : Cursor} {func : Func} (h : keyword? c = some (func, d)) :
    c.Reads func.name.toList d := by
  obtain ⟨k, hfind, hk⟩ := Option.map_eq_some_iff.1 h
  have hmem := List.mem_of_find?_eq_some hfind
  have hstart := List.find?_some hfind
  cases hk
  simp only [keywords, List.mem_cons, List.not_mem_nil, or_false] at hmem
  rcases hmem with rfl | rfl
  · obtain ⟨r, hr⟩ := (Cursor.startsWith_iff (by simp)).1 hstart
    exact Cursor.reads_advance (by decide) hr.symm
  · obtain ⟨r, hr⟩ := (Cursor.startsWith_iff (by simp)).1 hstart
    exact Cursor.reads_advance (by decide) hr.symm

/-- A function name that can be read is the keyword. -/
theorem keyword?_of_reads {c d : Cursor} {func : Func} (h : c.Reads func.name.toList d) :
    keyword? c = some (func, d) := by
  have hstart : c.startsWith func.name.toList = true := by
    refine (Cursor.startsWith_iff ?_).2 ⟨d.rest, h.rest.symm⟩
    cases func <;> decide
  have hd : c.advance func.name.toList.length = d := by
    refine (Cursor.reads_advance ?_ h.rest).unique h
    cases func <;> decide
  cases func with
  | sin =>
      have hsin : c.startsWith ['s', 'i', 'n'] = true := hstart
      simp only [keyword?, keywords, List.find?_cons, hsin, Option.map_some]
      exact congrArg (fun d => some (Func.sin, d)) hd
  | cos =>
      have hcos : c.startsWith ['c', 'o', 's'] = true := hstart
      have hsin : c.startsWith ['s', 'i', 'n'] = false := by
        refine Bool.eq_false_iff.2 fun hsin => ?_
        obtain ⟨r, hr⟩ := (Cursor.startsWith_iff (by simp)).1 hsin
        rw [h.rest] at hr
        simp [Func.name] at hr
      simp only [keyword?, keywords, List.find?_cons, hsin, hcos, Option.map_some]
      exact congrArg (fun d => some (Func.cos, d)) hd

theorem keyword?_eq_none {c : Cursor} :
    keyword? c = none ↔ ∀ func : Func, ¬func.name.toList <+: c.rest := by
  have hsin : c.startsWith Func.sin.name.toList = true ↔ Func.sin.name.toList <+: c.rest :=
    Cursor.startsWith_iff (by decide)
  have hcos : c.startsWith Func.cos.name.toList = true ↔ Func.cos.name.toList <+: c.rest :=
    Cursor.startsWith_iff (by decide)
  simp only [keyword?, keywords, Option.map_eq_none_iff, List.find?_eq_none, List.mem_cons,
    List.not_mem_nil, or_false]
  constructor
  · rintro h (_ | _) hfunc
    · exact h _ (.inl rfl) (hsin.2 hfunc)
    · exact h _ (.inr rfl) (hcos.2 hfunc)
  · rintro h k (rfl | rfl)
    · exact fun hk => h .sin (hsin.1 hk)
    · exact fun hk => h .cos (hcos.1 hk)

/-- Whether a keyword begins shows in the run of letters. -/
theorem keyword?_eq_none_iff_run {c : Cursor} :
    keyword? c = none ↔ ∀ func : Func, ¬func.name.toList <+: c.run isLetter := by
  rw [keyword?_eq_none]
  refine forall_congr' fun func => not_congr ⟨?_, fun h => h.trans (List.takeWhile_prefix _)⟩
  rintro ⟨r, hr⟩
  -- a keyword has letters only, so the run goes on past it
  have hletters : ∀ ch ∈ func.name.toList, isLetter ch := by
    cases func <;> simp [Func.name, isLetter]
  rw [Cursor.run, ← hr, List.takeWhile_append_of_pos hletters]
  exact List.prefix_append _ _

/-! ## The rounds of a chain -/

/-- The rounds of a chain at a cursor, with the left operand that has been read so far. -/
inductive Rounds (operand : Rule) (operator? : Char → Option BinOp) :
    Expr → Cursor → Outcome → Prop
  | done {lhs : Expr} {c : Cursor} (hop : c.peek.bind operator? = none) :
      Rounds operand operator? lhs c (.matched lhs c)
  | next {lhs rhs : Expr} {c d : Cursor} {op : BinOp} {outcome : Outcome}
      (hop : c.peek.bind operator? = some op)
      (hr : operand (c.advance 1).skipBlanks = .matched rhs d)
      (h : Rounds operand operator? (.binary op lhs rhs lhs.offset) d outcome) :
      Rounds operand operator? lhs c outcome
  | stop {lhs : Expr} {c d : Cursor} {op : BinOp} (hop : c.peek.bind operator? = some op)
      (hr : operand (c.advance 1).skipBlanks = .stopped d) :
      Rounds operand operator? lhs c (.stopped d)
  | deep {lhs : Expr} {c d : Cursor} {op : BinOp} (hop : c.peek.bind operator? = some op)
      (hr : operand (c.advance 1).skipBlanks = .tooDeep d) :
      Rounds operand operator? lhs c (.tooDeep d)

variable {operand : Rule} {operator? : Char → Option BinOp}

theorem rounds_iff_of_none {lhs : Expr} {c : Cursor} {outcome : Outcome}
    (hop : c.peek.bind operator? = none) :
    Rounds operand operator? lhs c outcome ↔ .matched lhs c = outcome := by
  constructor
  · intro h
    cases h with
    | done _ => rfl
    | next hop' _ _ => rw [hop] at hop'; cases hop'
    | stop hop' _ => rw [hop] at hop'; cases hop'
    | deep hop' _ => rw [hop] at hop'; cases hop'
  · rintro rfl
    exact .done hop

theorem rounds_iff_of_some {lhs : Expr} {c : Cursor} {op : BinOp} {outcome : Outcome}
    (hop : c.peek.bind operator? = some op) :
    Rounds operand operator? lhs c outcome ↔
      match operand (c.advance 1).skipBlanks with
      | .matched rhs d => Rounds operand operator? (.binary op lhs rhs lhs.offset) d outcome
      | other => other = outcome := by
  constructor
  · intro h
    cases h with
    | done hop' => rw [hop] at hop'; cases hop'
    | next hop' hr h =>
        rw [hop] at hop'
        cases hop'
        rw [hr]
        exact h
    | stop hop' hr => rw [hr]
    | deep hop' hr => rw [hr]
  · intro h
    cases hr : operand (c.advance 1).skipBlanks with
    | matched rhs d =>
        rw [hr] at h
        exact .next hop hr h
    | stopped d =>
        rw [hr] at h
        exact h ▸ .stop hop hr
    | tooDeep d =>
        rw [hr] at h
        exact h ▸ .deep hop hr

/-- A rule that never goes back. -/
def Advances (rule : Rule) : Prop := ∀ c : Cursor, c.Before (rule c).cursor

theorem Advances.before {rule : Rule} (h : rule.Advances) {c : Cursor} {outcome : Outcome}
    (hc : rule c = outcome) : c.Before outcome.cursor :=
  hc ▸ h c

/-- With as many rounds as there are characters, counting them makes no difference. -/
theorem chainFrom_eq_iff (hoperand : operand.Advances) {fuel : Nat} {lhs : Expr} {c : Cursor}
    {outcome : Outcome} (hfuel : c.rest.length ≤ fuel) :
    chainFrom operand operator? fuel lhs c = outcome ↔
      Rounds operand operator? lhs c outcome := by
  induction fuel generalizing lhs c with
  | zero =>
      have hpeek : c.peek.bind operator? = none := by
        rw [Cursor.peek, List.length_eq_zero_iff.1 (Nat.le_zero.1 hfuel)]
        rfl
      rw [chainFrom, rounds_iff_of_none hpeek]
  | succ fuel ih =>
      rw [chainFrom]
      cases hpeek : c.peek.bind operator? with
      | none => rw [rounds_iff_of_none hpeek]
      | some op =>
          rw [rounds_iff_of_some hpeek]
          cases hr : operand (c.advance 1).skipBlanks with
          | matched rhs d =>
              -- a round reads its operator, so fewer characters are left
              obtain ⟨ch, hch, _⟩ := Option.bind_eq_some_iff.1 hpeek
              obtain ⟨gap, _, hgap⟩ := (c.advance 1).reads_skipBlanks
              obtain ⟨s, hs⟩ := hoperand.before hr
              have hrest := (((Cursor.reads_advance_one hch).trans hgap).trans hs).rest
              have hlength := congrArg List.length hrest
              simp only [Outcome.cursor, List.length_append, List.length_singleton] at hlength
              exact ih (by omega)
          | stopped d => exact Iff.rfl
          | tooDeep d => exact Iff.rfl

/-- A chain whose first operand matches goes on with its rounds. -/
theorem chain_eq_iff (hoperand : operand.Advances) {lhs : Expr} {c d : Cursor} {outcome : Outcome}
    (hc : operand c = .matched lhs d) :
    chain operand operator? c = outcome ↔
      Rounds operand operator? lhs d.skipBlanks outcome := by
  simp only [chain, hc]
  exact chainFrom_eq_iff hoperand d.skipBlanks.length_rest.le

end Rule

/-! ## What an outcome says about the text -/

/-- What the outcome of a rule for a symbol says about the characters that were read from `c` on. -/
def Outcome.Fits (symbol : Symbol) (depth : Nat) (c : Cursor) : Outcome → Prop
  | .matched e d => ∃ s, c.Reads s d ∧ Derives symbol s e.bare
  | .stopped d => ∃ s, c.Reads s d ∧ ∃ t e, Derives symbol (s ++ t) e
  | .tooDeep d => ∃ s, c.Reads s d ∧ s.count '(' = s.count ')' + depth

/-- A rule that has not moved may still find what its symbol derives. -/
theorem Outcome.fits_unmoved (symbol : Symbol) (depth : Nat) (c : Cursor) :
    (Outcome.stopped c).Fits symbol depth c :=
  ⟨[], .refl c, symbol.exists_derives⟩

theorem Outcome.Fits.of_derives {symbol symbol' : Symbol} {depth : Nat} {c : Cursor}
    {outcome : Outcome} (h : outcome.Fits symbol depth c)
    (hsymbol : ∀ {s e}, Derives symbol s e → Derives symbol' s e) :
    outcome.Fits symbol' depth c := by
  cases outcome with
  | matched e d =>
      obtain ⟨s, hs, he⟩ := h
      exact ⟨s, hs, hsymbol he⟩
  | stopped d =>
      obtain ⟨s, hs, t, e, he⟩ := h
      exact ⟨s, hs, t, e, hsymbol he⟩
  | tooDeep d => exact h

namespace Rule

/-- A rule for a symbol, with room for `depth` levels of parentheses. -/
def Fits (rule : Rule) (symbol : Symbol) (depth : Nat) : Prop :=
  ∀ c, (rule c).Fits symbol depth c

section

variable {rule : Rule} {symbol : Symbol} {depth : Nat} {c d : Cursor}

theorem Fits.matched {e : Expr} (h : rule.Fits symbol depth) (hc : rule c = .matched e d) :
    ∃ s, c.Reads s d ∧ Derives symbol s e.bare := by
  have hfits := h c
  rwa [hc] at hfits

theorem Fits.stopped (h : rule.Fits symbol depth) (hc : rule c = .stopped d) :
    ∃ s, c.Reads s d ∧ ∃ t e, Derives symbol (s ++ t) e := by
  have hfits := h c
  rwa [hc] at hfits

theorem Fits.tooDeep (h : rule.Fits symbol depth) (hc : rule c = .tooDeep d) :
    ∃ s, c.Reads s d ∧ s.count '(' = s.count ')' + depth := by
  have hfits := h c
  rwa [hc] at hfits

theorem Fits.advances (h : rule.Fits symbol depth) : rule.Advances := by
  intro c
  cases hc : rule c with
  | matched e d => obtain ⟨s, hs, _⟩ := h.matched hc; exact ⟨s, hs⟩
  | stopped d => obtain ⟨s, hs, _⟩ := h.stopped hc; exact ⟨s, hs⟩
  | tooDeep d => obtain ⟨s, hs, _⟩ := h.tooDeep hc; exact ⟨s, hs⟩

end

/-! ## Atoms -/

/-- A rule that takes the longest run of a class as a token. -/
def token (p : Char → Bool) (node : List Char → Int → Expr) : Rule := fun c =>
  if (c.run p).isEmpty then .stopped c
  else .matched (node (c.run p) c.pos) (c.skip p).skipBlanks

theorem literal_eq_token : literal = token Char.isDigit fun digits offset =>
    .literal (Binary.ofNat (Nat.ofDigitChars 10 digits 0)) offset := rfl

theorem name_eq_token : name = token isLetter fun letters offset =>
    .var (String.ofList letters) offset := rfl

theorem token_of_run_nil {p : Char → Bool} {node : List Char → Int → Expr} {c : Cursor}
    (h : c.run p = []) : token p node c = .stopped c := by
  simp [token, h]

theorem token_of_run_ne {p : Char → Bool} {node : List Char → Int → Expr} {c : Cursor}
    (h : c.run p ≠ []) :
    token p node c = .matched (node (c.run p) c.pos) (c.skip p).skipBlanks := by
  simp [token, h]

theorem literal_fits (depth : Nat) : literal.Fits .literal depth := by
  intro c
  rw [literal_eq_token]
  by_cases hne : c.run Char.isDigit = []
  · rw [token_of_run_nil hne]
    exact Outcome.fits_unmoved _ _ c
  · rw [token_of_run_ne hne]
    obtain ⟨gap, hgap, hskip⟩ := (c.skip Char.isDigit).reads_skipBlanks
    exact ⟨_, (c.reads_skip _).trans hskip,
      .literal hne (c.forall_mem_run _) (Binary.isRounded_double_iff.2 rfl) hgap⟩

/-- A run of letters is a name unless a keyword begins it. -/
theorem name_fits (depth : Nat) {c : Cursor} (hc : keyword? c = none) :
    (name c).Fits .name depth c := by
  rw [name_eq_token]
  by_cases hne : c.run isLetter = []
  · rw [token_of_run_nil hne]
    exact Outcome.fits_unmoved _ _ c
  · rw [token_of_run_ne hne]
    obtain ⟨gap, hgap, hskip⟩ := (c.skip isLetter).reads_skipBlanks
    exact ⟨_, (c.reads_skip _).trans hskip,
      .name hne (c.forall_mem_run _) (keyword?_eq_none_iff_run.1 hc) hgap⟩

theorem parenthesized_fits {inner : Rule} {depth : Nat} (hinner : inner.Fits .expression depth) :
    (parenthesized inner).Fits .group (depth + 1) := by
  intro c
  unfold parenthesized
  by_cases hopen : c.peek = some '('
  · rw [if_pos hopen]
    obtain ⟨gap, hgap, hskip⟩ := (c.advance 1).reads_skipBlanks
    have hstart := (Cursor.reads_advance_one hopen).trans hskip
    cases hi : inner (c.advance 1).skipBlanks with
    | matched e d =>
        obtain ⟨s, hs, he⟩ := hinner.matched hi
        by_cases hclose : d.peek = some ')'
        · simp only [if_pos hclose]
          obtain ⟨gap', hgap', hskip'⟩ := (d.advance 1).reads_skipBlanks
          have hend := (Cursor.reads_advance_one hclose).trans hskip'
          exact ⟨_, (hstart.trans hs).trans hend, .group hgap he hgap'⟩
        · simp only [if_neg hclose]
          exact ⟨_, hstart.trans hs, [')'], _, .group hgap he Blank.nil⟩
    | stopped d =>
        obtain ⟨s, hs, t, e, he⟩ := hinner.stopped hi
        refine ⟨_, hstart.trans hs, t ++ [')'], e, ?_⟩
        simpa using Derives.group hgap he Blank.nil
    | tooDeep d =>
        obtain ⟨s, hs, hcount⟩ := hinner.tooDeep hi
        refine ⟨_, hstart.trans hs, ?_⟩
        have hg := hgap.count_eq
        simp [List.count_append]
        omega
  · rw [if_neg hopen]
    exact Outcome.fits_unmoved _ _ c

theorem call_fits {inner : Rule} {depth : Nat} (hinner : inner.Fits .expression depth) :
    (call inner).Fits .call (depth + 1) := by
  intro c
  unfold call
  cases hk : keyword? c with
  | none => exact Outcome.fits_unmoved _ _ c
  | some k =>
      obtain ⟨func, k⟩ := k
      obtain ⟨gap, hgap, hskip⟩ := k.reads_skipBlanks
      have hstart := (keyword?_eq_some hk).trans hskip
      have hgroup := parenthesized_fits hinner
      simp only
      cases hg : parenthesized inner k.skipBlanks with
      | matched e d =>
          obtain ⟨s, hs, he⟩ := hgroup.matched hg
          exact ⟨_, hstart.trans hs, .call func hgap he⟩
      | stopped d =>
          obtain ⟨s, hs, t, e, he⟩ := hgroup.stopped hg
          refine ⟨_, hstart.trans hs, t, .call func e 0, ?_⟩
          rw [List.append_assoc]
          exact .call func hgap he
      | tooDeep d =>
          obtain ⟨s, hs, hcount⟩ := hgroup.tooDeep hg
          refine ⟨_, hstart.trans hs, ?_⟩
          simp only [List.count_append, count_name_eq, hgap.count_eq, hcount]
          omega

/-- A call stops without having moved only where no keyword begins. -/
theorem keyword?_eq_none_of_call {inner : Rule} {depth : Nat}
    (hinner : inner.Fits .expression depth) {c d : Cursor} (h : call inner c = .stopped d)
    (hpos : d.pos = c.pos) : keyword? c = none := by
  cases hk : keyword? c with
  | none => rfl
  | some k =>
      obtain ⟨func, k⟩ := k
      simp only [call, hk] at h
      cases hg : parenthesized inner k.skipBlanks with
      | matched e d' => rw [hg] at h; cases h
      | tooDeep d' => rw [hg] at h; cases h
      | stopped d' =>
          rw [hg] at h
          cases h
          obtain ⟨gap, _, hskip⟩ := k.reads_skipBlanks
          obtain ⟨s, hs, _⟩ := (parenthesized_fits hinner).stopped hg
          have hnil := (((keyword?_eq_some hk).trans hskip).trans hs).eq_nil_of_pos_eq hpos
          cases func <;> simp [Func.name] at hnil

theorem orElse_fits {first second : Rule} {symbol : Symbol} {depth : Nat} {c : Cursor}
    (hfirst : (first c).Fits symbol depth c)
    (hsecond : ∀ d, first c = .stopped d → d.pos = c.pos → (second c).Fits symbol depth c) :
    (orElse first second c).Fits symbol depth c := by
  unfold orElse
  cases hf : first c with
  | matched e d => rwa [hf] at hfirst
  | stopped d =>
      by_cases hpos : d.pos = c.pos
      · simp only [if_pos hpos]
        exact hsecond d hf hpos
      · simp only [if_neg hpos]
        rwa [hf] at hfirst
  | tooDeep d => rwa [hf] at hfirst

theorem atom_fits {inner : Rule} {depth : Nat} (hinner : inner.Fits .expression depth) :
    (atom inner).Fits .atom (depth + 1) := by
  intro c
  unfold atom
  refine orElse_fits ((literal_fits _ c).of_derives (.atom (by decide))) fun _ _ _ => ?_
  refine orElse_fits ((call_fits hinner c).of_derives (.atom (by decide))) fun d hd hpos => ?_
  have hc := keyword?_eq_none_of_call hinner hd hpos
  refine orElse_fits ((name_fits _ hc).of_derives (.atom (by decide))) fun _ _ _ => ?_
  exact (parenthesized_fits hinner c).of_derives (.atom (by decide))

/-! ## Which alternative an atom takes -/

theorem orElse_of_unmoved {first second : Rule} {c : Cursor} (h : first c = .stopped c) :
    orElse first second c = second c := by
  simp [orElse, h]

theorem orElse_of_moved {first second : Rule} {c : Cursor}
    (h : ∀ d, first c = .stopped d → d.pos ≠ c.pos) : orElse first second c = first c := by
  unfold orElse
  cases hf : first c with
  | matched e d => rfl
  | stopped d => simp only [if_neg (h d hf)]
  | tooDeep d => rfl

section

variable {inner : Rule} {c : Cursor}

theorem orElse_token {p : Char → Bool} {node : List Char → Int → Expr} {second : Rule}
    (h : c.run p ≠ []) : orElse (token p node) second c = token p node c :=
  orElse_of_moved fun d hd => by rw [token_of_run_ne h] at hd; cases hd

theorem atom_of_digits (hdigits : c.run Char.isDigit ≠ []) : atom inner c = literal c := by
  rw [atom, literal_eq_token, orElse_token hdigits]

theorem atom_of_keyword {depth : Nat} (hinner : inner.Fits .expression depth)
    (hdigits : c.run Char.isDigit = []) (hkeyword : keyword? c ≠ none) :
    atom inner c = call inner c := by
  rw [atom, literal_eq_token, orElse_of_unmoved (token_of_run_nil hdigits)]
  exact orElse_of_moved fun d hd hpos => hkeyword (keyword?_eq_none_of_call hinner hd hpos)

theorem atom_of_letters (hdigits : c.run Char.isDigit = []) (hkeyword : keyword? c = none)
    (hletters : c.run isLetter ≠ []) : atom inner c = name c := by
  rw [atom, literal_eq_token, orElse_of_unmoved (token_of_run_nil hdigits),
    orElse_of_unmoved (by simp only [call, hkeyword]), name_eq_token, orElse_token hletters]

theorem atom_of_other (hdigits : c.run Char.isDigit = []) (hkeyword : keyword? c = none)
    (hletters : c.run isLetter = []) : atom inner c = parenthesized inner c := by
  rw [atom, literal_eq_token, orElse_of_unmoved (token_of_run_nil hdigits),
    orElse_of_unmoved (by simp only [call, hkeyword]), name_eq_token,
    orElse_of_unmoved (token_of_run_nil hletters)]

end

/-! ## Chains -/

/-- The symbol `chain` derives operands with operators between them, folded to the left. -/
structure Chained (operand chain : Symbol) (operator? : Char → Option BinOp) : Prop where
  symbol : ∀ {ch op}, operator? ch = some op → op.symbol.toList = [ch]
  single : ∀ {s e}, Derives operand s e → Derives chain s e
  more : ∀ {ch op s gap s' l r}, operator? ch = some op → Derives chain s l → Blank gap →
    Derives operand s' r → Derives chain (s ++ ([ch] ++ gap ++ s')) (.binary op l r 0)

theorem Chained.count_eq {operand chain : Symbol} {operator? : Char → Option BinOp}
    (h : Chained operand chain operator?) {ch : Char} {op : BinOp} (hch : operator? ch = some op) :
    [ch].count '(' = [ch].count ')' := by
  rw [← h.symbol hch, count_symbol_eq]

/-- A character stands for the one operator whose symbol it is. -/
theorem operatorIn?_eq_some_iff {ops : List BinOp} {ch : Char} {op : BinOp} :
    operatorIn? ops ch = some op ↔ op ∈ ops ∧ op.symbol.toList = [ch] := by
  have hinjective : ∀ op op' : BinOp, op.symbol.toList = op'.symbol.toList → op = op' := by
    intro op op'
    cases op <;> cases op' <;> decide
  constructor
  · intro h
    exact ⟨List.mem_of_find?_eq_some h, by simpa using List.find?_some h⟩
  · rintro ⟨hop, hsymbol⟩
    cases hfind : operatorIn? ops ch with
    | none => exact absurd (by simpa using hsymbol) (List.find?_eq_none.1 hfind op hop)
    | some op' =>
        have hsymbol' : op'.symbol.toList = [ch] := by simpa using List.find?_some hfind
        rw [hinjective op' op (hsymbol'.trans hsymbol.symm)]

theorem term_chained : Chained .atom .term termOperator? where
  symbol h := (operatorIn?_eq_some_iff.1 h).2
  single := .factor
  more h hl hgap hr := by
    obtain ⟨hop, hsymbol⟩ := operatorIn?_eq_some_iff.1 h
    rw [← hsymbol, ← List.append_assoc, ← List.append_assoc]
    exact .product _ hop hl hgap hr

theorem expression_chained : Chained .term .expression expressionOperator? where
  symbol h := (operatorIn?_eq_some_iff.1 h).2
  single := .summand
  more h hl hgap hr := by
    obtain ⟨hop, hsymbol⟩ := operatorIn?_eq_some_iff.1 h
    rw [← hsymbol, ← List.append_assoc, ← List.append_assoc]
    exact .sum _ hop hl hgap hr

variable {operand : Rule} {operator? : Char → Option BinOp} {operandSymbol chainSymbol : Symbol}
  {depth : Nat}

/-- An operator and the blanks after it. -/
theorem reads_operator {c : Cursor} {op : BinOp} (hop : c.peek.bind operator? = some op) :
    ∃ ch gap, operator? ch = some op ∧ Blank gap ∧
      c.Reads ([ch] ++ gap) (c.advance 1).skipBlanks := by
  obtain ⟨ch, hch, hop⟩ := Option.bind_eq_some_iff.1 hop
  obtain ⟨gap, hgap, hskip⟩ := (c.advance 1).reads_skipBlanks
  exact ⟨ch, gap, hop, hgap, (Cursor.reads_advance_one hch).trans hskip⟩

/-- The invariant of the rounds: what has been read since `start` is derived with the left
operand. -/
theorem Rounds.fits (hchained : Chained operandSymbol chainSymbol operator?)
    (hoperand : operand.Fits operandSymbol depth) {lhs : Expr} {start c : Cursor}
    {outcome : Outcome} {s : List Char} (h : Rounds operand operator? lhs c outcome)
    (hs : start.Reads s c) (hlhs : Derives chainSymbol s lhs.bare) :
    outcome.Fits chainSymbol depth start := by
  induction h generalizing s with
  | done _ => exact ⟨s, hs, hlhs⟩
  | next hop hr _ ih =>
      obtain ⟨ch, gap, hch, hgap, hread⟩ := reads_operator hop
      obtain ⟨s', hs', he⟩ := hoperand.matched hr
      exact ih (hs.trans (hread.trans hs')) (hchained.more hch hlhs hgap he)
  | stop hop hr =>
      obtain ⟨ch, gap, hch, hgap, hread⟩ := reads_operator hop
      obtain ⟨s', hs', t, e, he⟩ := hoperand.stopped hr
      have hmore := hchained.more hch hlhs hgap he
      rw [← List.append_assoc ([ch] ++ gap), ← List.append_assoc s] at hmore
      exact ⟨_, hs.trans (hread.trans hs'), t, _, hmore⟩
  | deep hop hr =>
      obtain ⟨ch, gap, hch, hgap, hread⟩ := reads_operator hop
      obtain ⟨s', hs', hcount⟩ := hoperand.tooDeep hr
      refine ⟨_, hs.trans (hread.trans hs'), ?_⟩
      simp only [List.count_append, hchained.count_eq hch, hgap.count_eq, hlhs.count_eq, hcount]
      omega

theorem chain_fits (hchained : Chained operandSymbol chainSymbol operator?)
    (hoperand : operand.Fits operandSymbol depth) :
    (chain operand operator?).Fits chainSymbol depth := by
  intro c
  have hfits := hoperand c
  cases hc : operand c with
  | matched lhs d =>
      obtain ⟨s, hs, he⟩ := hoperand.matched hc
      obtain ⟨gap, hgap, hskip⟩ := d.reads_skipBlanks
      have hrounds := (chain_eq_iff hoperand.advances hc).1 (Eq.refl (chain operand operator? c))
      exact hrounds.fits hchained hoperand (hs.trans hskip)
        ((hchained.single he).append_blank hgap)
  | stopped d =>
      rw [hc] at hfits
      simp only [chain, hc]
      exact hfits.of_derives hchained.single
  | tooDeep d =>
      rw [hc] at hfits
      simp only [chain, hc]
      exact hfits

theorem term_fits {inner : Rule} (hinner : inner.Fits .expression depth) :
    (term inner).Fits .term (depth + 1) :=
  chain_fits term_chained (atom_fits hinner)

/-- **What an expression reads.** With room for `depth` levels, an expression matches what the
grammar derives, stops where that can still be completed, and gives up only after `depth`
parentheses that are not closed. -/
theorem expression_fits (depth : Nat) : (expression depth).Fits .expression depth := by
  induction depth with
  | zero => exact fun c => ⟨[], .refl c, rfl⟩
  | succ depth ih => exact chain_fits expression_chained (term_fits ih)

end Rule

/-- The tree of a text is that of an expression which ends where the text does. -/
theorem expression_of_parseChars {text : List Char} {tree : Expr} (h : parseChars text = .ok tree) :
    ∃ d, Rule.expression (maxNesting + 1) (Cursor.start text).skipBlanks = .matched tree d ∧
      d.rest = [] := by
  unfold parseChars at h
  cases hc : Rule.expression (maxNesting + 1) (Cursor.start text).skipBlanks with
  | matched e d =>
      simp only [hc] at h
      split at h
      · rename_i hend
        cases h
        have hsize : d.size ≤ d.pos := of_decide_eq_true hend
        have hlength := d.length_rest
        exact ⟨d, rfl, List.length_eq_zero_iff.1 (by omega)⟩
      · cases h
  | stopped d => simp only [hc] at h; cases h
  | tooDeep d => simp only [hc] at h; cases h

end LiveFormula
