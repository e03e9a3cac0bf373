import LiveFormula.Proofs.Reading

/-!
# The grammar with places

`Grammar.DerivesAt symbol p s e` is the grammar once more, with the offset `p` at which the text `s`
begins, and trees that record the offset of each node: a leaf or a call begins where its token does,
and an operation where its left operand does. What the rules read is derived in this way from the
position of the cursor on (`Rule.Locates`), so whatever is to be said about the offsets of a tree is
said by induction on `DerivesAt`, and the rules are not opened again.

* `Rule.expression_locates` — the tree of an expression is derived at the position of the cursor.
* `derivesAt_of_parse` — the tree of a text is derived behind the blanks at its beginning.
-/

set_option autoImplicit false

namespace LiveFormula

open Grammar

namespace Grammar

/-- `DerivesAt symbol p s e`: the symbol derives the text `s`, which begins at the offset `p` and
stands for the tree `e`. -/
inductive DerivesAt : Symbol → Nat → List Char → Expr → Prop
  | literal {p : Nat} {digits gap : List Char} (hne : digits ≠ [])
      (hdigits : ∀ c ∈ digits, c.isDigit) (hgap : Blank gap) :
      DerivesAt .literal p (digits ++ gap)
        (.literal (Binary.ofNat (Nat.ofDigitChars 10 digits 0)) p)
  | name {p : Nat} {letters gap : List Char} (hne : letters ≠ [])
      (hletters : ∀ c ∈ letters, c.isAlpha)
      (hkeyword : ∀ func : Func, ¬func.name.toList <+: letters) (hgap : Blank gap) :
      DerivesAt .name p (letters ++ gap) (.var (String.ofList letters) p)
  | group {p : Nat} {gap s gap' : List Char} {e : Expr} (hgap : Blank gap)
      (h : DerivesAt .expression (p + (['('] ++ gap).length) s e) (hgap' : Blank gap') :
      DerivesAt .group p ((['('] ++ gap) ++ s ++ ([')'] ++ gap')) e
  | call {p : Nat} {gap s : List Char} {e : Expr} (func : Func) (hgap : Blank gap)
      (h : DerivesAt .group (p + (func.name.toList ++ gap).length) s e) :
      DerivesAt .call p ((func.name.toList ++ gap) ++ s) (.call func e p)
  | atom {p : Nat} {alternative : Symbol} {s : List Char} {e : Expr}
      (ha : alternative ∈ [Symbol.literal, .call, .name, .group])
      (h : DerivesAt alternative p s e) : DerivesAt .atom p s e
  | factor {p : Nat} {s : List Char} {e : Expr} (h : DerivesAt .atom p s e) :
      DerivesAt .term p s e
  | product {p : Nat} {ch : Char} {s gap s' : List Char} {l r : Expr} {op : BinOp}
      (hop : Rule.termOperator? ch = some op) (hl : DerivesAt .term p s l) (hgap : Blank gap)
      (hr : DerivesAt .atom (p + (s ++ ([ch] ++ gap)).length) s' r) :
      DerivesAt .term p (s ++ ([ch] ++ gap) ++ s') (.binary op l r l.offset)
  | summand {p : Nat} {s : List Char} {e : Expr} (h : DerivesAt .term p s e) :
      DerivesAt .expression p s e
  | sum {p : Nat} {ch : Char} {s gap s' : List Char} {l r : Expr} {op : BinOp}
      (hop : Rule.expressionOperator? ch = some op) (hl : DerivesAt .expression p s l)
      (hgap : Blank gap) (hr : DerivesAt .term (p + (s ++ ([ch] ++ gap)).length) s' r) :
      DerivesAt .expression p (s ++ ([ch] ++ gap) ++ s') (.binary op l r l.offset)

/-- Blanks may follow whatever is derived. -/
theorem DerivesAt.append_blank {symbol : Symbol} {p : Nat} {s gap : List Char} {e : Expr}
    (h : DerivesAt symbol p s e) (hgap : Blank gap) : DerivesAt symbol p (s ++ gap) e := by
  induction h with
  | literal hne hdigits hgap' =>
      rw [List.append_assoc]
      exact .literal hne hdigits (hgap'.append hgap)
  | name hne hletters hkeyword hgap' =>
      rw [List.append_assoc]
      exact .name hne hletters hkeyword (hgap'.append hgap)
  | group hgap₁ h hgap₂ _ =>
      rw [List.append_assoc (_ ++ _), List.append_assoc [')']]
      exact .group hgap₁ h (hgap₂.append hgap)
  | call func hgap' _ ih =>
      rw [List.append_assoc]
      exact .call func hgap' ih
  | atom ha _ ih => exact .atom ha ih
  | factor _ ih => exact .factor ih
  | product hop hl hgap' _ _ ihr =>
      rw [List.append_assoc]
      exact .product hop hl hgap' ihr
  | summand _ ih => exact .summand ih
  | sum hop hl hgap' _ _ ihr =>
      rw [List.append_assoc]
      exact .sum hop hl hgap' ihr

end Grammar

namespace Rule

/-- What the rule matches is derived at the position of the cursor. -/
def Locates (rule : Rule) (symbol : Symbol) : Prop :=
  ∀ ⦃c d : Cursor⦄ ⦃e : Expr⦄, rule c = .matched e d →
    ∃ s, c.Reads s d ∧ DerivesAt symbol c.pos s e

/-! ## Atoms -/

/-- A token is a longest run of its class, with the blanks behind it. -/
theorem token_matched {p : Char → Bool} {node : List Char → Int → Expr} {c d : Cursor} {e : Expr}
    (h : token p node c = .matched e d) :
    c.run p ≠ [] ∧ e = node (c.run p) c.pos ∧ ∃ gap, Blank gap ∧ c.Reads (c.run p ++ gap) d := by
  by_cases hne : c.run p = []
  · rw [token_of_run_nil hne] at h
    cases h
  · rw [token_of_run_ne hne] at h
    cases h
    obtain ⟨gap, hgap, hskip⟩ := (c.skip p).reads_skipBlanks
    exact ⟨hne, rfl, gap, hgap, (c.reads_skip p).trans hskip⟩

theorem literal_locates : literal.Locates .literal := by
  intro c d e h
  rw [literal_eq_token] at h
  obtain ⟨hne, rfl, gap, hgap, hread⟩ := token_matched h
  exact ⟨_, hread, .literal hne (c.forall_mem_run _) hgap⟩

theorem name_locates {c d : Cursor} {e : Expr} (hc : keyword? c = none)
    (h : name c = .matched e d) : ∃ s, c.Reads s d ∧ DerivesAt .name c.pos s e := by
  rw [name_eq_token] at h
  obtain ⟨hne, rfl, gap, hgap, hread⟩ := token_matched h
  exact ⟨_, hread, .name hne (c.forall_mem_run _) (keyword?_eq_none_iff_run.1 hc) hgap⟩

/-- Parentheses that match hold what the inner rule matches. -/
theorem parenthesized_matched {inner : Rule} {c d : Cursor} {e : Expr}
    (h : parenthesized inner c = .matched e d) :
    c.peek = some '(' ∧ ∃ m, inner (c.advance 1).skipBlanks = .matched e m ∧
      m.peek = some ')' ∧ d = (m.advance 1).skipBlanks := by
  unfold parenthesized at h
  by_cases hopen : c.peek = some '('
  · rw [if_pos hopen] at h
    cases hi : inner (c.advance 1).skipBlanks with
    | matched e' m =>
        rw [hi] at h
        by_cases hclose : m.peek = some ')'
        · simp only [if_pos hclose] at h
          cases h
          exact ⟨hopen, m, rfl, hclose, rfl⟩
        · simp only [if_neg hclose] at h
          cases h
    | stopped m => rw [hi] at h; cases h
    | tooDeep m => rw [hi] at h; cases h
  · rw [if_neg hopen] at h
    cases h

theorem parenthesized_locates {inner : Rule} (hinner : inner.Locates .expression) :
    (parenthesized inner).Locates .group := by
  intro c d e h
  obtain ⟨hopen, m, hi, hclose, rfl⟩ := parenthesized_matched h
  obtain ⟨gap, hgap, hskip⟩ := (c.advance 1).reads_skipBlanks
  obtain ⟨s, hs, he⟩ := hinner hi
  obtain ⟨gap', hgap', hskip'⟩ := (m.advance 1).reads_skipBlanks
  have hstart := (Cursor.reads_advance_one hopen).trans hskip
  have hend := (Cursor.reads_advance_one hclose).trans hskip'
  rw [hstart.pos] at he
  exact ⟨_, (hstart.trans hs).trans hend, .group hgap he hgap'⟩

/-- A call that matches has a keyword and parentheses that match. -/
theorem call_matched {inner : Rule} {c d : Cursor} {e : Expr} (h : call inner c = .matched e d) :
    ∃ func k argument, keyword? c = some (func, k) ∧
      parenthesized inner k.skipBlanks = .matched argument d ∧ e = .call func argument c.pos := by
  unfold call at h
  cases hk : keyword? c with
  | none => rw [hk] at h; cases h
  | some k =>
      obtain ⟨func, k⟩ := k
      simp only [hk] at h
      cases hg : parenthesized inner k.skipBlanks with
      | matched argument m =>
          rw [hg] at h
          cases h
          exact ⟨func, k, argument, rfl, hg, rfl⟩
      | stopped m => rw [hg] at h; cases h
      | tooDeep m => rw [hg] at h; cases h

theorem call_locates {inner : Rule} (hinner : inner.Locates .expression) :
    (call inner).Locates .call := by
  intro c d e h
  obtain ⟨func, k, argument, hk, hg, rfl⟩ := call_matched h
  obtain ⟨gap, hgap, hskip⟩ := k.reads_skipBlanks
  obtain ⟨s, hs, he⟩ := parenthesized_locates hinner hg
  have hstart := (keyword?_eq_some hk).trans hskip
  rw [hstart.pos] at he
  exact ⟨_, hstart.trans hs, .call func hgap he⟩

/-- A choice matches what its first rule does, or what its second does where the first has not
moved. -/
theorem orElse_matched {first second : Rule} {c d : Cursor} {e : Expr}
    (h : orElse first second c = .matched e d) :
    first c = .matched e d ∨
      second c = .matched e d ∧ ∃ m, first c = .stopped m ∧ m.pos = c.pos := by
  unfold orElse at h
  cases hf : first c with
  | matched e' m => rw [hf] at h; exact .inl h
  | stopped m =>
      rw [hf] at h
      by_cases hpos : m.pos = c.pos
      · simp only [if_pos hpos] at h
        exact .inr ⟨h, m, rfl, hpos⟩
      · simp only [if_neg hpos] at h
        cases h
  | tooDeep m => rw [hf] at h; cases h

theorem atom_locates {inner : Rule} {depth : Nat} (hfits : inner.Fits .expression depth)
    (hinner : inner.Locates .expression) : (atom inner).Locates .atom := by
  intro c d e h
  rcases orElse_matched h with h | ⟨h, -⟩
  · obtain ⟨s, hs, he⟩ := literal_locates h
    exact ⟨s, hs, .atom (by decide) he⟩
  · rcases orElse_matched h with h | ⟨h, m, hm, hpos⟩
    · obtain ⟨s, hs, he⟩ := call_locates hinner h
      exact ⟨s, hs, .atom (by decide) he⟩
    · have hkeyword := keyword?_eq_none_of_call hfits hm hpos
      rcases orElse_matched h with h | ⟨h, -⟩
      · obtain ⟨s, hs, he⟩ := name_locates hkeyword h
        exact ⟨s, hs, .atom (by decide) he⟩
      · obtain ⟨s, hs, he⟩ := parenthesized_locates hinner h
        exact ⟨s, hs, .atom (by decide) he⟩

/-! ## Chains -/

/-- The symbol `chain` derives operands with operators between them, each operation at the offset of
its left operand. -/
structure ChainedAt (operand chain : Symbol) (operator? : Char → Option BinOp) : Prop where
  single : ∀ {p s e}, DerivesAt operand p s e → DerivesAt chain p s e
  more : ∀ {p ch op s gap s' l r}, operator? ch = some op → DerivesAt chain p s l → Blank gap →
    DerivesAt operand (p + (s ++ ([ch] ++ gap)).length) s' r →
    DerivesAt chain p (s ++ ([ch] ++ gap) ++ s') (.binary op l r l.offset)

theorem term_chainedAt : ChainedAt .atom .term termOperator? := ⟨.factor, .product⟩

theorem expression_chainedAt : ChainedAt .term .expression expressionOperator? := ⟨.summand, .sum⟩

variable {operand : Rule} {operator? : Char → Option BinOp} {operandSymbol chainSymbol : Symbol}

/-- The invariant of the rounds: what has been read since `start` is derived there with the left
operand. -/
theorem Rounds.locates (hchained : ChainedAt operandSymbol chainSymbol operator?)
    (hoperand : operand.Locates operandSymbol) {lhs e : Expr} {start c d : Cursor}
    {outcome : Outcome} {s : List Char} (h : Rounds operand operator? lhs c outcome)
    (hs : start.Reads s c) (hlhs : DerivesAt chainSymbol start.pos s lhs)
    (houtcome : outcome = .matched e d) :
    ∃ s, start.Reads s d ∧ DerivesAt chainSymbol start.pos s e := by
  induction h generalizing s with
  | done _ =>
      cases houtcome
      exact ⟨s, hs, hlhs⟩
  | next hop hr _ ih =>
      obtain ⟨ch, gap, hch, hgap, hread⟩ := reads_operator hop
      obtain ⟨s', hs', he⟩ := hoperand hr
      have hleft := hs.trans hread
      rw [hleft.pos] at he
      exact ih (hleft.trans hs') (hchained.more hch hlhs hgap he) houtcome
  | stop _ _ => cases houtcome
  | deep _ _ => cases houtcome

/-- A chain that matches has a first operand and rounds that match. -/
theorem chain_matched (hadvances : operand.Advances) {c d : Cursor} {e : Expr}
    (h : chain operand operator? c = .matched e d) :
    ∃ lhs m, operand c = .matched lhs m ∧
      Rounds operand operator? lhs m.skipBlanks (.matched e d) := by
  cases hc : operand c with
  | matched lhs m => exact ⟨lhs, m, rfl, (chain_eq_iff hadvances hc).1 h⟩
  | stopped m => simp only [chain, hc] at h; cases h
  | tooDeep m => simp only [chain, hc] at h; cases h

theorem chain_locates (hchained : ChainedAt operandSymbol chainSymbol operator?)
    (hadvances : operand.Advances) (hoperand : operand.Locates operandSymbol) :
    (chain operand operator?).Locates chainSymbol := by
  intro c d e h
  obtain ⟨lhs, m, hc, hrounds⟩ := chain_matched hadvances h
  obtain ⟨s, hs, he⟩ := hoperand hc
  obtain ⟨gap, hgap, hskip⟩ := m.reads_skipBlanks
  exact hrounds.locates hchained hoperand (hs.trans hskip)
    ((hchained.single he).append_blank hgap) rfl

/-- **Where an expression begins, its tree is derived.** -/
theorem expression_locates (depth : Nat) : (expression depth).Locates .expression := by
  induction depth with
  | zero => exact fun c d e h => by cases h
  | succ depth ih =>
      have hfits := expression_fits depth
      exact chain_locates expression_chainedAt (term_fits hfits).advances
        (chain_locates term_chainedAt (atom_fits hfits).advances (atom_locates hfits ih))

end Rule

/-- The tree of a text is derived behind the blanks at its beginning. -/
theorem derivesAt_of_parse {text : String} {tree : Expr} (h : parse text = .ok tree) :
    ∃ gap s, Blank gap ∧ text.toList = gap ++ s ∧
      DerivesAt .expression gap.length s tree := by
  obtain ⟨gap, hgap, hblank⟩ := (Cursor.start text.toList).reads_skipBlanks
  obtain ⟨d, hc, hrest⟩ := expression_of_parseChars h
  obtain ⟨s, hs, he⟩ := Rule.expression_locates _ hc
  have htext := (hblank.trans hs).rest
  rw [hrest, List.append_nil] at htext
  have hpos : (Cursor.start text.toList).skipBlanks.pos = gap.length := by
    rw [hblank.pos]
    exact Nat.zero_add _
  exact ⟨gap, s, hgap, htext, hpos ▸ he⟩

end LiveFormula
