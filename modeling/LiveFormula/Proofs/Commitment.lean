import LiveFormula.Proofs.Location
import LiveFormula.Proofs.Spacing

/-!
# Commitment on consumption

An atom tries its alternatives in order, and the first one that moves the cursor is final, whether it
matches or not. Whether it has moved is seen from the position alone. So a rule has to keep to a
discipline: it never goes back and stays in the text, it leaves no blank behind a match, and where it
stops without having moved, nothing that its symbol derives begins there.

What is derived is meant here by the grammar as it is written, where a name is any run of letters
(`Grammar.Derivable`). Against that grammar commitment has a price: the letters of a name that begins
with `sin` or `cos` are refused, since the call has moved by then. It is the only one.

* `Grammar.Symbol.Begins` — how the text begins where a symbol may be read.
* `Rule.not_begins_of_unmoved` — where a rule has not moved, the text does not begin so.
* `Rule.choice_stopped` — what became of each alternative when a choice stops.
* `Rule.derivable_later_iff` — what the alternatives after one that has moved could have read.
* `Rule.commits_on_consumption` — the discipline of all rules, and the price of commitment.
-/

set_option autoImplicit false

namespace LiveFormula

namespace Grammar

/-! ## The grammar as it is written -/

/-- The alternatives of an atom, in the order in which they are tried. -/
def alternatives : List Symbol := [.literal, .call, .name, .group]

/-- `Derivable symbol s`: the symbol derives the text `s`. Unlike in `Derives`, a name may begin
with the name of a function. -/
inductive Derivable : Symbol → List Char → Prop
  | literal {digits gap : List Char} (hne : digits ≠ []) (hdigits : ∀ c ∈ digits, c.isDigit)
      (hgap : Blank gap) : Derivable .literal (digits ++ gap)
  | name {letters gap : List Char} (hne : letters ≠ []) (hletters : ∀ c ∈ letters, c.isAlpha)
      (hgap : Blank gap) : Derivable .name (letters ++ gap)
  | group {gap s gap' : List Char} (hgap : Blank gap) (h : Derivable .expression s)
      (hgap' : Blank gap') : Derivable .group ('(' :: gap ++ s ++ ')' :: gap')
  | call {gap s : List Char} (func : Func) (hgap : Blank gap) (h : Derivable .group s) :
      Derivable .call (func.name.toList ++ gap ++ s)
  | atom {alternative : Symbol} {s : List Char} (ha : alternative ∈ alternatives)
      (h : Derivable alternative s) : Derivable .atom s
  | factor {s : List Char} (h : Derivable .atom s) : Derivable .term s
  | product {s gap s' : List Char} (op : BinOp) (hop : op ∈ [BinOp.mul, .div])
      (hl : Derivable .term s) (hgap : Blank gap) (hr : Derivable .atom s') :
      Derivable .term (s ++ op.symbol.toList ++ gap ++ s')
  | summand {s : List Char} (h : Derivable .term s) : Derivable .expression s
  | sum {s gap s' : List Char} (op : BinOp) (hop : op ∈ [BinOp.add, .sub])
      (hl : Derivable .expression s) (hgap : Blank gap) (hr : Derivable .term s') :
      Derivable .expression (s ++ op.symbol.toList ++ gap ++ s')

/-- The run of letters at the beginning of a text begins with the name of a function. -/
def BeginsWithKeyword (r : List Char) : Prop :=
  ∃ func : Func, func.name.toList <+: r.takeWhile Char.isAlpha

theorem Derives.derivable {symbol : Symbol} {s : List Char} {e : Expr} (h : Derives symbol s e) :
    Derivable symbol s := by
  induction h with
  | literal hne hdigits _ hgap => exact .literal hne hdigits hgap
  | name hne hletters _ hgap => exact .name hne hletters hgap
  | group hgap _ hgap' ih => exact .group hgap ih hgap'
  | call func hgap _ ih => exact .call func hgap ih
  | atom ha _ ih => exact .atom ha ih
  | factor _ ih => exact .factor ih
  | product op hop _ hgap _ ihl ihr => exact .product op hop ihl hgap ihr
  | summand _ ih => exact .summand ih
  | sum op hop _ hgap _ ihl ihr => exact .sum op hop ihl hgap ihr

/-- How the text begins where the symbol may be read. -/
def Symbol.Begins (r : List Char) : Symbol → Prop
  | .literal => ∃ ch, r.head? = some ch ∧ ch.isDigit
  | .call => ∃ func : Func, func.name.toList <+: r
  | .name => ∃ ch, r.head? = some ch ∧ ch.isAlpha
  | .group => r.head? = some '('
  | .atom | .term | .expression => ∃ ch, r.head? = some ch ∧ (ch.isDigit ∨ ch.isAlpha ∨ ch = '(')

section

variable {symbol : Symbol} {s r : List Char}

/-- A function name begins with a letter. -/
theorem isAlpha_of_name {func : Func} (h : func.name.toList <+: r) :
    ∃ ch, r.head? = some ch ∧ ch.isAlpha := by
  obtain ⟨t, rfl⟩ := h
  cases func with
  | sin => exact ⟨'s', rfl, rfl⟩
  | cos => exact ⟨'c', rfl, rfl⟩

theorem Symbol.Begins.atom (hmem : symbol ∈ alternatives) (h : symbol.Begins r) :
    Symbol.atom.Begins r := by
  simp only [alternatives, List.mem_cons, List.not_mem_nil, or_false] at hmem
  rcases hmem with rfl | rfl | rfl | rfl
  · obtain ⟨ch, hch, hdigit⟩ := h
    exact ⟨ch, hch, .inl hdigit⟩
  · obtain ⟨func, hfunc⟩ := h
    obtain ⟨ch, hch, halpha⟩ := isAlpha_of_name hfunc
    exact ⟨ch, hch, .inr (.inl halpha)⟩
  · obtain ⟨ch, hch, halpha⟩ := h
    exact ⟨ch, hch, .inr (.inl halpha)⟩
  · exact ⟨'(', h, .inr (.inr rfl)⟩

/-- What is derived begins as the symbol does, whatever follows. -/
theorem Derivable.begins (h : Derivable symbol s) (r : List Char) : symbol.Begins (s ++ r) := by
  induction h generalizing r with
  | literal hne hdigits _ =>
      obtain ⟨ch, t, rfl⟩ := List.exists_cons_of_ne_nil hne
      exact ⟨ch, rfl, hdigits ch List.mem_cons_self⟩
  | name hne hletters _ =>
      obtain ⟨ch, t, rfl⟩ := List.exists_cons_of_ne_nil hne
      exact ⟨ch, rfl, hletters ch List.mem_cons_self⟩
  | group _ _ _ _ => exact rfl
  | call func _ _ _ =>
      rw [List.append_assoc, List.append_assoc]
      exact ⟨func, List.prefix_append _ _⟩
  | atom ha _ ih => exact (ih r).atom ha
  | factor _ ih => exact ih r
  | product op _ _ _ _ ihl _ =>
      rw [List.append_assoc, List.append_assoc, List.append_assoc]
      exact ihl _
  | summand _ ih => exact ih r
  | sum op _ _ _ _ ihl _ =>
      rw [List.append_assoc, List.append_assoc, List.append_assoc]
      exact ihl _

theorem Derivable.begins_of_isPrefix (h : Derivable symbol s) (hs : s <+: r) : symbol.Begins r := by
  obtain ⟨t, rfl⟩ := hs
  exact h.begins t

theorem Derivable.ne_nil (h : Derivable symbol s) : s ≠ [] := by
  rintro rfl
  have hbegins := h.begins []
  cases symbol with
  | call =>
      obtain ⟨func, hfunc⟩ := hbegins
      obtain ⟨ch, hch, -⟩ := isAlpha_of_name hfunc
      cases hch
  | group => cases hbegins
  | literal | name | atom | term | expression =>
      obtain ⟨ch, hch, -⟩ := hbegins
      cases hch

end

end Grammar

open Grammar Cursor

/-- The rule that reads a symbol, with room for `depth` levels of parentheses in what it reads. -/
def Grammar.Symbol.rule (depth : Nat) : Symbol → Rule
  | .literal => Rule.literal
  | .call => Rule.call (Rule.expression depth)
  | .name => Rule.name
  | .group => Rule.parenthesized (Rule.expression depth)
  | .atom => Rule.atom (Rule.expression depth)
  | .term => Rule.term (Rule.expression depth)
  | .expression => Rule.expression (depth + 1)

namespace Cursor

variable {c d : Cursor}

theorem Before.pos_le (h : c.Before d) : c.pos ≤ d.pos := by
  obtain ⟨s, hs⟩ := h
  rw [hs.pos]
  exact Nat.le_add_right _ _

theorem Reads.pos_lt {s : List Char} (h : c.Reads s d) (hs : s ≠ []) : c.pos < d.pos := by
  have hlength := List.length_pos_iff.2 hs
  rw [h.pos]
  omega

end Cursor

namespace Rule

/-! ## Settled ends -/

/-- The rule leaves no blank behind what it matches. -/
def Settles (rule : Rule) : Prop := ∀ ⦃c d : Cursor⦄ ⦃e : Expr⦄, rule c = .matched e d → d.Settled

section

variable {operand : Rule} {operator? : Char → Option BinOp}

theorem token_settles (p : Char → Bool) (node : List Char → Int → Expr) :
    (token p node).Settles := by
  intro c d e h
  by_cases hrun : c.run p = []
  · rw [token_of_run_nil hrun] at h
    cases h
  · rw [token_of_run_ne hrun] at h
    cases h
    exact settled_skipBlanks _

theorem parenthesized_settles (inner : Rule) : (parenthesized inner).Settles := by
  intro c d e h
  obtain ⟨-, m, -, -, rfl⟩ := parenthesized_matched h
  exact settled_skipBlanks _

theorem call_settles (inner : Rule) : (call inner).Settles := by
  intro c d e h
  obtain ⟨func, k, argument, -, hg, -⟩ := call_matched h
  exact parenthesized_settles inner hg

theorem orElse_settles {first second : Rule} (hfirst : first.Settles) (hsecond : second.Settles) :
    (orElse first second).Settles := by
  intro c d e h
  rcases orElse_matched h with h | ⟨h, -⟩
  · exact hfirst h
  · exact hsecond h

theorem literal_settles : literal.Settles := by
  rw [literal_eq_token]
  exact token_settles _ _

theorem name_settles : name.Settles := by
  rw [name_eq_token]
  exact token_settles _ _

theorem atom_settles (inner : Rule) : (atom inner).Settles := by
  have hlast := orElse_settles name_settles (parenthesized_settles inner)
  exact orElse_settles literal_settles (orElse_settles (call_settles inner) hlast)

/-- A round ends where its operand does, and the last one where no operator follows. -/
theorem Rounds.settled (hoperand : operand.Settles) {lhs e : Expr} {c d : Cursor}
    {outcome : Outcome} (h : Rounds operand operator? lhs c outcome) (hc : c.Settled)
    (houtcome : outcome = .matched e d) : d.Settled := by
  induction h with
  | done _ =>
      cases houtcome
      exact hc
  | next _ hr _ ih => exact ih (hoperand hr) houtcome
  | stop _ _ => cases houtcome
  | deep _ _ => cases houtcome

theorem chain_settles (hoperand : operand.Settles) (hadvances : operand.Advances) :
    (chain operand operator?).Settles := by
  intro c d e h
  obtain ⟨lhs, k, -, hrounds⟩ := chain_matched hadvances h
  exact hrounds.settled hoperand (settled_skipBlanks k) rfl

end

/-- **No rule leaves a blank behind what it matches.** -/
theorem rule_settles (symbol : Symbol) (depth : Nat) : (symbol.rule depth).Settles := by
  have hfits := expression_fits depth
  have hterm : (term (expression depth)).Settles :=
    chain_settles (atom_settles _) (atom_fits hfits).advances
  cases symbol with
  | literal => exact literal_settles
  | call => exact call_settles _
  | name => exact name_settles
  | group => exact parenthesized_settles _
  | atom => exact atom_settles _
  | term => exact hterm
  | expression => exact chain_settles hterm (term_fits hfits).advances

end Rule

/-! ## How far a rule goes -/

/-- How far an outcome has read from `c`, where a name is any run of letters. -/
def Outcome.Reaches (symbol : Symbol) (depth : Nat) (c : Cursor) : Outcome → Prop
  | .matched _ d => ∃ s, c.Reads s d ∧ Derivable symbol s
  | .stopped d => c.Before d
  | .tooDeep d => ∃ s, c.Reads s d ∧ s.count '(' = s.count ')' + depth

section

variable {symbol : Symbol} {depth : Nat} {c : Cursor} {outcome : Outcome}

theorem Outcome.Fits.reaches (h : outcome.Fits symbol depth c) : outcome.Reaches symbol depth c := by
  cases outcome with
  | matched e d =>
      obtain ⟨s, hs, he⟩ := h
      exact ⟨s, hs, he.derivable⟩
  | stopped d =>
      obtain ⟨s, hs, -⟩ := h
      exact ⟨s, hs⟩
  | tooDeep d => exact h

theorem Outcome.Reaches.before (h : outcome.Reaches symbol depth c) : c.Before outcome.cursor := by
  cases outcome with
  | matched e d =>
      obtain ⟨s, hs, -⟩ := h
      exact ⟨s, hs⟩
  | stopped d => exact h
  | tooDeep d =>
      obtain ⟨s, hs, -⟩ := h
      exact ⟨s, hs⟩

end

namespace Rule

/-- The letters of a name are read also where a keyword begins. -/
theorem name_reaches (depth : Nat) (c : Cursor) : (name c).Reaches .name depth c := by
  rw [name_eq_token]
  by_cases hne : c.run isLetter = []
  · rw [token_of_run_nil hne]
    exact .refl c
  · rw [token_of_run_ne hne]
    obtain ⟨gap, hgap, hskip⟩ := (c.skip isLetter).reads_skipBlanks
    exact ⟨_, (c.reads_skip _).trans hskip, .name hne (c.forall_mem_run _) hgap⟩

theorem rule_reaches (symbol : Symbol) (depth : Nat) (c : Cursor) :
    (symbol.rule depth c).Reaches symbol (depth + 1) c := by
  have hfits := expression_fits depth
  cases symbol with
  | literal => exact (literal_fits _ c).reaches
  | call => exact (call_fits hfits c).reaches
  | name => exact name_reaches _ c
  | group => exact (parenthesized_fits hfits c).reaches
  | atom => exact (atom_fits hfits c).reaches
  | term => exact (term_fits hfits c).reaches
  | expression => exact (expression_fits (depth + 1) c).reaches

section

variable {symbol : Symbol} {depth : Nat} {c d : Cursor}

theorem exists_derivable_of_matched {e : Expr} (h : symbol.rule depth c = .matched e d) :
    ∃ s, c.Reads s d ∧ Derivable symbol s := by
  have hreaches := rule_reaches symbol depth c
  rwa [h] at hreaches

/-- There is room where the text ahead is not nested too deeply. -/
theorem rule_ne_tooDeep (h : nesting c.rest ≤ depth) : symbol.rule depth c ≠ .tooDeep d := by
  intro hdeep
  have hreaches := rule_reaches symbol depth c
  rw [hdeep] at hreaches
  obtain ⟨s, hs, hcount⟩ := hreaches
  have hle : excess s ≤ nesting c.rest := excess_le_nesting ⟨d.rest, hs.rest.symm⟩
  rw [excess, hcount] at hle
  omega

end

/-! ## Rules that have not moved -/

section

variable {inner operand : Rule} {operator? : Char → Option BinOp} {c d : Cursor}

theorem token_stopped {p : Char → Bool} {node : List Char → Int → Expr}
    (h : token p node c = .stopped d) : c.run p = [] ∧ d = c := by
  by_cases hrun : c.run p = []
  · rw [token_of_run_nil hrun] at h
    cases h
    exact ⟨hrun, rfl⟩
  · rw [token_of_run_ne hrun] at h
    cases h

theorem literal_stopped (h : literal c = .stopped d) : c.run Char.isDigit = [] ∧ d = c := by
  rw [literal_eq_token] at h
  exact token_stopped h

theorem name_stopped (h : name c = .stopped d) : c.run isLetter = [] ∧ d = c := by
  rw [name_eq_token] at h
  exact token_stopped h

/-- A parenthesis that is there is read. -/
theorem parenthesized_unmoved (hinner : inner.Advances) (h : parenthesized inner c = .stopped d)
    (hpos : d.pos = c.pos) : c.peek ≠ some '(' := by
  intro hopen
  have hread := (reads_advance_one hopen).pos_lt (List.cons_ne_nil _ _)
  have hskip := (before_skipBlanks (c.advance 1)).pos_le
  rw [parenthesized_of_open hopen] at h
  cases hi : inner (c.advance 1).skipBlanks with
  | matched e k =>
      have hk : _ ≤ k.pos := (hinner.before hi).pos_le
      rw [hi, Outcome.andThen] at h
      by_cases hclose : k.peek = some ')'
      · rw [if_pos hclose] at h
        cases h
      · rw [if_neg hclose] at h
        cases h
        omega
  | stopped k =>
      have hk : _ ≤ k.pos := (hinner.before hi).pos_le
      rw [hi] at h
      cases h
      omega
  | tooDeep k => rw [hi] at h; cases h

/-- A chain has not moved only if its first operand has not matched. -/
theorem chain_unmoved {symbol : Symbol} {depth : Nat} (hoperand : operand.Fits symbol depth)
    (h : chain operand operator? c = .stopped d) (hpos : d.pos = c.pos) :
    operand c = .stopped d := by
  cases hc : operand c with
  | matched lhs k =>
      obtain ⟨s, hs, he⟩ := hoperand.matched hc
      have hlt := hs.pos_lt he.derivable.ne_nil
      have hrounds := ((chain_eq_iff hoperand.advances hc).1 h).before hoperand.advances
      have hle : k.pos ≤ d.pos := ((before_skipBlanks k).trans hrounds).pos_le
      omega
  | stopped k =>
      simp only [chain, hc] at h
      exact h
  | tooDeep k => simp only [chain, hc] at h; cases h

end

/-! ## Ordered choice -/

/-- The ordered choice among symbols. -/
def choice (depth : Nat) : List Symbol → Rule
  | [] => .stopped
  | [symbol] => symbol.rule depth
  | first :: second :: later => orElse (first.rule depth) (choice depth (second :: later))

theorem rule_atom (depth : Nat) : Symbol.atom.rule depth = choice depth alternatives := rfl

section

variable {symbol later : Symbol} {depth : Nat} {c d : Cursor}

/-- When a choice stops, each of its symbols has been tried and has not moved, or the choice has
moved, and with it the symbol or an earlier one. -/
theorem choice_stopped {symbols : List Symbol} (hmem : symbol ∈ symbols)
    (h : choice depth symbols c = .stopped d) :
    (∃ k, symbol.rule depth c = .stopped k ∧ k.pos = c.pos) ∨
      d.pos ≠ c.pos ∧ (symbol.rule depth c = .stopped d ∨
        ∃ earlier : Symbol, [earlier, symbol].Sublist symbols ∧
          earlier.rule depth c = .stopped d) := by
  fun_induction choice depth symbols with
  | case1 => cases hmem
  | case2 only =>
      obtain rfl := List.mem_singleton.1 hmem
      by_cases hpos : d.pos = c.pos
      · exact .inl ⟨d, h, hpos⟩
      · exact .inr ⟨hpos, .inl h⟩
  | case3 first second later ih =>
      unfold orElse at h
      cases hfirst : first.rule depth c with
      | matched e k => rw [hfirst] at h; cases h
      | tooDeep k => rw [hfirst] at h; cases h
      | stopped k =>
          rw [hfirst] at h
          by_cases hk : k.pos = c.pos
          · simp only [if_pos hk] at h
            rcases List.mem_cons.1 hmem with rfl | hmem
            · exact .inl ⟨k, hfirst, hk⟩
            · rcases ih hmem h with hunmoved | ⟨hpos, hsymbol | ⟨earlier, hsub, hearlier⟩⟩
              · exact .inl hunmoved
              · exact .inr ⟨hpos, .inl hsymbol⟩
              · exact .inr ⟨hpos, .inr ⟨earlier, hsub.cons _, hearlier⟩⟩
          · -- the first symbol has moved, so the others are not tried
            simp only [if_neg hk] at h
            cases h
            rcases List.mem_cons.1 hmem with rfl | hmem
            · exact .inr ⟨hk, .inl hfirst⟩
            · exact .inr ⟨hk, .inr ⟨first, (List.singleton_sublist.2 hmem).cons_cons _, hfirst⟩⟩

theorem not_head_of_run_eq_nil {p : Char → Bool} (h : c.run p = []) :
    ¬∃ ch, c.rest.head? = some ch ∧ p ch := by
  rintro ⟨ch, hch, hp⟩
  rw [run_eq_nil_iff.1 h ch hch] at hp
  cases hp

theorem alternative_not_begins (hmem : symbol ∈ alternatives)
    (h : symbol.rule depth c = .stopped d) (hpos : d.pos = c.pos) : ¬symbol.Begins c.rest := by
  have hfits := expression_fits depth
  simp only [alternatives, List.mem_cons, List.not_mem_nil, or_false] at hmem
  rcases hmem with rfl | rfl | rfl | rfl
  · exact not_head_of_run_eq_nil (literal_stopped h).1
  · rintro ⟨func, hfunc⟩
    exact keyword?_eq_none.1 (keyword?_eq_none_of_call hfits h hpos) func hfunc
  · exact not_head_of_run_eq_nil (name_stopped h).1
  · exact parenthesized_unmoved hfits.advances h hpos

theorem atom_not_begins (h : Symbol.atom.rule depth c = .stopped d) (hpos : d.pos = c.pos) :
    ¬Symbol.atom.Begins c.rest := by
  -- the choice has not moved, so every alternative has been tried and has not moved
  have hnone : ∀ symbol ∈ alternatives, ¬symbol.Begins c.rest := by
    intro symbol hmem
    rw [rule_atom] at h
    rcases choice_stopped hmem h with ⟨k, hk, hunmoved⟩ | ⟨hmoved, -⟩
    · exact alternative_not_begins hmem hk hunmoved
    · exact absurd hpos hmoved
  rintro ⟨ch, hch, hdigit | halpha | rfl⟩
  · exact hnone .literal (by decide) ⟨ch, hch, hdigit⟩
  · exact hnone .name (by decide) ⟨ch, hch, halpha⟩
  · exact hnone .group (by decide) hch

/-- **A rule that has not moved loses nothing.** Where it stops without having moved, the text does
not begin as its symbol does. -/
theorem not_begins_of_unmoved (h : symbol.rule depth c = .stopped d) (hpos : d.pos = c.pos) :
    ¬symbol.Begins c.rest := by
  have hfits := expression_fits depth
  cases symbol with
  | literal => exact alternative_not_begins (by decide) h hpos
  | call => exact alternative_not_begins (by decide) h hpos
  | name => exact alternative_not_begins (by decide) h hpos
  | group => exact alternative_not_begins (by decide) h hpos
  | atom => exact atom_not_begins h hpos
  | term => exact atom_not_begins (chain_unmoved (atom_fits hfits) h hpos) hpos
  | expression =>
      have hterm := chain_unmoved (term_fits hfits) h hpos
      exact atom_not_begins (chain_unmoved (atom_fits hfits) hterm hpos) hpos

/-! ## What commitment costs -/

theorem beginsWithKeyword_of_keyword? (h : keyword? c ≠ none) : BeginsWithKeyword c.rest := by
  rw [Ne, keyword?_eq_none_iff_run, not_forall_not] at h
  exact h

/-- The run of letters is a name by the grammar as it is written. -/
theorem derivable_name_of_keyword {r : List Char} (h : BeginsWithKeyword r) :
    ∃ s, s <+: r ∧ Derivable .name s := by
  obtain ⟨func, hfunc⟩ := h
  have hne : r.takeWhile Char.isAlpha ≠ [] := by
    intro hnil
    rw [hnil] at hfunc
    obtain ⟨ch, hch, -⟩ := isAlpha_of_name hfunc
    cases hch
  have hname := Derivable.name hne (fun _ hx => List.mem_takeWhile_imp hx) Blank.nil
  rw [List.append_nil] at hname
  exact ⟨_, List.takeWhile_prefix _, hname⟩

/-- A text that begins with a function name does not begin with a parenthesis. -/
theorem not_derivable_group_of_keyword {r : List Char} (h : BeginsWithKeyword r) :
    ¬∃ s, s <+: r ∧ Derivable .group s := by
  rintro ⟨s, hs, hgroup⟩
  obtain ⟨func, hfunc⟩ := h
  obtain ⟨ch, hch, halpha⟩ := isAlpha_of_name (hfunc.trans (List.takeWhile_prefix _))
  have hopen : r.head? = some '(' := hgroup.begins_of_isPrefix hs
  rw [hopen] at hch
  cases hch
  cases halpha

/-- A call is the only alternative with others after it that can move and still stop. -/
theorem eq_of_sublist_alternatives (h : [symbol, later].Sublist alternatives) :
    symbol = .literal ∨ symbol = .name ∨ symbol = .call ∧ (later = .name ∨ later = .group) := by
  revert h
  cases symbol <;> cases later <;> decide

/-- **What refusing costs.** If an alternative of an atom stops after it has moved, what a later one
derives begins there in one case only: the later one is a name, and its letters begin with the name
of a function. -/
theorem derivable_later_iff (h : symbol.rule depth c = .stopped d) (hpos : d.pos ≠ c.pos)
    (hlater : [symbol, later].Sublist alternatives) :
    (∃ s, s <+: c.rest ∧ Derivable later s) ↔ later = .name ∧ BeginsWithKeyword c.rest := by
  rcases eq_of_sublist_alternatives hlater with rfl | rfl | ⟨rfl, hname⟩
  · exact absurd (congrArg pos (literal_stopped h).2) hpos
  · exact absurd (congrArg pos (name_stopped h).2) hpos
  · have hkeyword : BeginsWithKeyword c.rest := by
      refine beginsWithKeyword_of_keyword? fun hnone => ?_
      simp only [Symbol.rule, call, hnone] at h
      cases h
      exact hpos rfl
    rcases hname with rfl | rfl
    · exact iff_of_true (derivable_name_of_keyword hkeyword) ⟨rfl, hkeyword⟩
    · exact iff_of_false (not_derivable_group_of_keyword hkeyword) (by simp)

/-- **Nothing else is lost.** Where an atom stops, no alternative would have matched but a name that
begins with the name of a function. -/
theorem matched_of_atom_stopped {e : Expr} {k : Cursor}
    (h : Symbol.atom.rule depth c = .stopped d) (hmem : symbol ∈ alternatives)
    (hmatched : symbol.rule depth c = .matched e k) :
    symbol = .name ∧ BeginsWithKeyword c.rest := by
  rw [rule_atom] at h
  rcases choice_stopped hmem h with ⟨m, hm, -⟩ | ⟨hpos, hm | ⟨earlier, hearlier, hm⟩⟩
  · rw [hmatched] at hm
    cases hm
  · rw [hmatched] at hm
    cases hm
  · obtain ⟨s, hs, hderivable⟩ := exists_derivable_of_matched hmatched
    exact (derivable_later_iff hm hpos hearlier).1 ⟨s, ⟨k.rest, hs.rest.symm⟩, hderivable⟩

end

end Rule

/-! ## The discipline -/

/-- What the outcome of the rule for a symbol says about the text from `pos` on. -/
structure Outcome.Disciplined (symbol : Symbol) (text : List Char) (pos : Nat)
    (outcome : Outcome) : Prop where
  text_eq : outcome.cursor.text = text
  pos_le : pos ≤ outcome.cursor.pos
  le_length : outcome.cursor.pos ≤ text.length
  /-- A match has moved past what the symbol derives and the blanks behind it. -/
  matched : ∀ e d, outcome = .matched e d → pos < d.pos ∧
    (∀ ch, text[d.pos]? = some ch → ch ∉ blanks) ∧
    Derivable symbol ((text.drop pos).take (d.pos - pos))
  /-- Where the rule has not moved, nothing that the symbol derives begins. -/
  unmoved : ∀ d, outcome = .stopped d → d.pos = pos →
    ∀ s, s <+: text.drop pos → ¬Derivable symbol s
  /-- Where it has moved, nothing that a later alternative derives begins, with one exception. -/
  moved : ∀ d, outcome = .stopped d → d.pos ≠ pos →
    ∀ later : Symbol, [symbol, later].Sublist alternatives →
      ((∃ s, s <+: text.drop pos ∧ Derivable later s) ↔
        later = .name ∧ BeginsWithKeyword (text.drop pos))

namespace Cursor

variable {text s : List Char} {pos : Nat} {d : Cursor}

theorem Reads.pos_le_length (h : (seek text pos).Reads s d) (hpos : pos ≤ text.length) :
    d.pos ≤ text.length := by
  have hrest : text.drop pos = s ++ d.rest := h.rest
  have hlength := congrArg List.length hrest
  rw [List.length_drop, List.length_append] at hlength
  have hd : d.pos = pos + s.length := h.pos
  omega

theorem Reads.take_drop_eq (h : (seek text pos).Reads s d) :
    (text.drop pos).take (d.pos - pos) = s := by
  have hrest : text.drop pos = s ++ d.rest := h.rest
  have hd : d.pos = pos + s.length := h.pos
  rw [hrest, hd, Nat.add_sub_cancel_left, List.take_left]

theorem peek_eq_getElem? (d : Cursor) : d.peek = d.text[d.pos]? := by
  rw [peek, d.rest_eq, List.head?_drop]

end Cursor

namespace Rule

theorem rule_disciplined (symbol : Symbol) (depth : Nat) {text : List Char} {pos : Nat}
    (hpos : pos ≤ text.length) :
    (symbol.rule depth (seek text pos)).Disciplined symbol text pos := by
  obtain ⟨s, hs⟩ := (rule_reaches symbol depth (seek text pos)).before
  refine ⟨hs.text, ?_, hs.pos_le_length hpos, ?_, ?_, ?_⟩
  · exact Before.pos_le ⟨s, hs⟩
  · intro e d hmatched
    obtain ⟨s, hs, hderivable⟩ := exists_derivable_of_matched hmatched
    refine ⟨hs.pos_lt hderivable.ne_nil, fun ch hch => ?_, hs.take_drop_eq.symm ▸ hderivable⟩
    have htext : d.text = text := hs.text
    rw [← htext, ← peek_eq_getElem?] at hch
    exact rule_settles symbol depth hmatched ch hch
  · intro d hstopped hunmoved s hs hderivable
    exact not_begins_of_unmoved hstopped hunmoved (hderivable.begins_of_isPrefix hs)
  · intro d hstopped hmoved later hlater
    exact derivable_later_iff hstopped hmoved hlater

/-- **Rules commit on consumption.** From a position of a text, the rule of every symbol keeps to the
discipline: the position does not decrease and stays in the text; a match has moved, to no blank;
where a rule stops without having moved, nothing that its symbol derives begins; and where an
alternative of an atom stops after it has moved, nothing that a later one derives begins, but for the
letters of a name that begin with the name of a function. A rule gives up only if the text ahead is
nested too deeply for the room there is. So an atom that stops has refused no alternative that would
have matched, with that one exception. -/
theorem commits_on_consumption (text : List Char) (pos depth : Nat)
    (hpos : pos ≤ text.length) :
    (∀ symbol : Symbol, (symbol.rule depth (seek text pos)).Disciplined symbol text pos) ∧
    (nesting (text.drop pos) ≤ depth →
      ∀ (symbol : Symbol) (d : Cursor), symbol.rule depth (seek text pos) ≠ .tooDeep d) ∧
    ∀ d, Symbol.atom.rule depth (seek text pos) = .stopped d →
      ∀ symbol ∈ alternatives, ∀ e k, symbol.rule depth (seek text pos) = .matched e k →
        symbol = .name ∧ BeginsWithKeyword (text.drop pos) := by
  refine ⟨fun symbol => rule_disciplined symbol depth hpos, fun hnesting symbol d => ?_, ?_⟩
  · exact rule_ne_tooDeep hnesting
  · intro d hstopped symbol hmem e k hmatched
    exact matched_of_atom_stopped hstopped hmem hmatched

/-- The letters of `single` are refused: the call has read the first three of them. -/
theorem commits_on_consumption_single :
    4 ≤ "t + single".toList.length ∧
    Symbol.call.rule maxNesting (seek "t + single".toList 4) =
      .stopped (seek "t + single".toList 7) ∧
    (∃ s, s <+: "single".toList ∧ Derivable .name s) ∧
    ¬∃ s, s <+: "single".toList ∧ Derivable .group s := by
  have hpos : 4 ≤ "t + single".toList.length := by decide
  have hstopped : Symbol.call.rule maxNesting (seek "t + single".toList 4) =
      .stopped (seek "t + single".toList 7) := by
    rfl
  have hcall := (commits_on_consumption "t + single".toList 4 maxNesting hpos).1 .call
  have hmoved := hcall.moved _ hstopped (by decide)
  have hkeyword : BeginsWithKeyword "single".toList := ⟨.sin, by decide⟩
  refine ⟨hpos, hstopped, (hmoved .name (by decide)).2 ⟨rfl, hkeyword⟩, fun hgroup => ?_⟩
  cases ((hmoved .group (by decide)).1 hgroup).1

end Rule

end LiveFormula
