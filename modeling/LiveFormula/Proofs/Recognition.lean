import LiveFormula.Proofs.Lookahead

/-!
# The reader accepts exactly the grammar

Whatever the grammar derives is read, if there is room for its parentheses and what follows can
neither be read on with nor be skipped. For atoms that is said of one rule (`Rule.Accepts`). A chain
is said to come as far as the derived text and to go on from there (`Rule.Continues`), since more
rounds may follow.

* `Grammar.Derives.recognized` — by induction on the derivation, every symbol is read.
* `Grammar.Formula.expression_eq` — so is a complete text, with room for all its parentheses.
* `Rule.expression_eq_of_le` — more room changes nothing for an expression that does not give up.
* `parse_eq_ok_iff_formula` — the texts that are read are those of the grammar, with its trees.
-/

set_option autoImplicit false

namespace LiveFormula

open Grammar

namespace Grammar

/-- What may follow an atom. -/
def afterAtom : List Char := [')', '+', '-', '*', '/']

/-- What may follow a term. -/
def afterTerm : List Char := [')', '+', '-']

/-- What may follow an expression. -/
def afterExpression : List Char := [')']

end Grammar

namespace Cursor

/-- If a character is next, it is one of `follow`. -/
def Follows (follow : List Char) (d : Cursor) : Prop := ∀ ch, d.peek = some ch → ch ∈ follow

variable {c d m : Cursor} {follow follow' s gap : List Char}

theorem Follows.mono (h : d.Follows follow) (hsub : follow ⊆ follow') : d.Follows follow' :=
  fun ch hch => hsub (h ch hch)

theorem Reads.skipBlanks_eq_of_follows (h : c.Reads gap d) (hgap : Blank gap)
    (hd : d.Follows afterAtom) : c.skipBlanks = d := by
  have hfollow : ∀ ch ∈ afterAtom, ch ∉ blanks := by simp [afterAtom, blanks]
  exact h.skipBlanks_eq hgap fun ch hch => hfollow ch (hd ch hch)

theorem Reads.skipBlanks_eq_of_derives {symbol : Symbol} {e : Expr} (h : c.Reads gap m)
    (hgap : Blank gap) (hm : m.Reads s d) (hs : Derives symbol s e) : c.skipBlanks = m := by
  refine h.skipBlanks_eq hgap fun ch hch => ?_
  obtain ⟨ch', t, rfl, hblank⟩ := hs.head
  rw [hm.peek_eq] at hch
  cases hch
  exact hblank

/-- A token is read to its end, and so are the blanks after it. -/
theorem Reads.token_eq {p : Char → Bool} (h : c.Reads (s ++ gap) d) (hs : ∀ x ∈ s, p x)
    (hgap : Blank gap) (hd : d.Follows afterAtom) (hblank : ∀ ch ∈ blanks, p ch = false)
    (hfollow : ∀ ch ∈ afterAtom, p ch = false) : c.run p = s ∧ (c.skip p).skipBlanks = d := by
  obtain ⟨m, hm, hread⟩ := h.split
  have hend : ∀ ch, m.peek = some ch → p ch = false := by
    intro ch hch
    cases gap with
    | nil =>
        obtain rfl := (Reads.refl m).unique hread
        exact hfollow ch (hd ch hch)
    | cons x gap =>
        rw [hread.peek_eq] at hch
        cases hch
        exact hblank ch (hgap ch List.mem_cons_self)
  obtain ⟨hrun, rfl⟩ := hm.run_eq hs hend
  exact ⟨hrun, hread.skipBlanks_eq_of_follows hgap hd⟩

end Cursor

open Cursor

namespace Rule

/-! ## Accepting what is derived -/

/-- The rule reads `s` as the tree `e` wherever one of `follow` or nothing comes next. -/
def Accepts (rule : Rule) (follow s : List Char) (e : Expr) : Prop :=
  ∀ ⦃c d : Cursor⦄, c.Reads s d → d.Follows follow → ∃ e', rule c = .matched e' d ∧ e'.bare = e

variable {inner operand : Rule} {operator? : Char → Option BinOp} {follow follow' s gap : List Char}
  {e : Expr} {depth : Nat}

theorem atom_accepts_literal {x : Double} (hne : s ≠ []) (hdigits : ∀ c ∈ s, c.isDigit)
    (hx : Binary.IsRounded (Nat.ofDigitChars 10 s 0) x) (hgap : Blank gap) :
    Accepts (atom inner) afterAtom (s ++ gap) (.literal x 0) := by
  intro c d hread hd
  obtain rfl := Binary.isRounded_double_iff.1 hx
  obtain ⟨hrun, hskip⟩ := hread.token_eq hdigits hgap hd (by simp [blanks])
    (by simp [afterAtom])
  have hne' : c.run Char.isDigit ≠ [] := hrun.symm ▸ hne
  rw [atom_of_digits hne', literal_eq_token, token_of_run_ne hne', hrun, hskip]
  exact ⟨_, rfl, rfl⟩

/-- No run of digits begins at a character that is none. -/
theorem run_isDigit_eq_nil {c : Cursor} {ch : Char} (h : c.peek = some ch)
    (hch : ch.isDigit = false) : c.run Char.isDigit = [] := by
  refine run_eq_nil_iff.2 fun x hx => ?_
  rw [h] at hx
  cases hx
  exact hch

theorem isDigit_eq_false_of_isAlpha {ch : Char} (h : ch.isAlpha) : ch.isDigit = false := by
  refine Bool.eq_false_iff.2 fun hdigit => ?_
  have hnine : ch.val ≤ '9'.val := of_decide_eq_true (Bool.and_eq_true_iff.1 hdigit).2
  -- letters lie above the digits
  rcases Bool.or_eq_true_iff.1 h with h | h
  · have hletter : 'A'.val ≤ ch.val := (of_decide_eq_true h).1
    exact absurd (UInt32.le_trans hletter hnine) (by decide)
  · have hletter : 'a'.val ≤ ch.val := of_decide_eq_true (Bool.and_eq_true_iff.1 h).1
    exact absurd (UInt32.le_trans hletter hnine) (by decide)

theorem atom_accepts_name (hne : s ≠ []) (hletters : ∀ c ∈ s, c.isAlpha)
    (hkeyword : ∀ func : Func, ¬func.name.toList <+: s) (hgap : Blank gap) :
    Accepts (atom inner) afterAtom (s ++ gap) (.var (String.ofList s) 0) := by
  intro c d hread hd
  obtain ⟨hrun, hskip⟩ := hread.token_eq (p := isLetter) hletters hgap hd
    (by simp [blanks, isLetter]) (by simp [afterAtom, isLetter])
  have hne' : c.run isLetter ≠ [] := hrun.symm ▸ hne
  have hnone : keyword? c = none := keyword?_eq_none_iff_run.2 (hrun.symm ▸ hkeyword)
  have hdigits : c.run Char.isDigit = [] := by
    obtain ⟨ch, t, rfl⟩ := List.exists_cons_of_ne_nil hne
    exact run_isDigit_eq_nil hread.peek_eq
      (isDigit_eq_false_of_isAlpha (hletters ch List.mem_cons_self))
  rw [atom_of_letters hdigits hnone hne', name_eq_token, token_of_run_ne hne', hrun, hskip]
  exact ⟨_, rfl, rfl⟩

theorem parenthesized_accepts (h : inner.Accepts afterExpression s e)
    (hs : Derives .expression s e) (hgap : Blank gap) {gap' : List Char} (hgap' : Blank gap') :
    (parenthesized inner).Accepts afterAtom ('(' :: gap ++ s ++ ')' :: gap') e := by
  intro c d hread hd
  have hread : c.Reads (['('] ++ (gap ++ (s ++ ([')'] ++ gap')))) d := by simpa using hread
  obtain ⟨c₁, hopen, hread⟩ := hread.split
  obtain ⟨c₂, hblank, hread⟩ := hread.split
  obtain ⟨c₃, hinner, hread⟩ := hread.split
  obtain ⟨c₄, hclose, hblank'⟩ := hread.split
  have hfollow : c₃.Follows afterExpression := by
    intro ch hch
    rw [hclose.peek_eq] at hch
    cases hch
    exact List.mem_cons_self
  obtain ⟨e', he', hbare⟩ := h hinner hfollow
  rw [parenthesized, if_pos hopen.peek_eq, hopen.advance_eq,
    hblank.skipBlanks_eq_of_derives hgap hinner hs, he']
  simp only [if_pos hclose.peek_eq, hclose.advance_eq, hblank'.skipBlanks_eq_of_follows hgap' hd]
  exact ⟨e', rfl, hbare⟩

theorem atom_accepts_group (h : (parenthesized inner).Accepts afterAtom s e)
    (hs : Derives .group s e) : (atom inner).Accepts afterAtom s e := by
  intro c d hread hd
  have hopen : c.peek = some '(' := by
    cases hs with
    | group _ _ _ => exact hread.peek_eq
  have hletters : c.run isLetter = [] := by
    refine run_eq_nil_iff.2 fun ch hch => ?_
    rw [hopen] at hch
    cases hch
    rfl
  have hkeyword : keyword? c = none := by
    refine keyword?_eq_none_iff_run.2 fun func hfunc => ?_
    rw [hletters, List.prefix_nil] at hfunc
    cases func <;> simp [Func.name] at hfunc
  rw [atom_of_other (run_isDigit_eq_nil hopen rfl) hkeyword hletters]
  exact h hread hd

theorem atom_accepts_call (hinner : inner.Fits .expression depth) (func : Func)
    (h : (parenthesized inner).Accepts afterAtom s e) (hs : Derives .group s e)
    (hgap : Blank gap) :
    (atom inner).Accepts afterAtom (func.name.toList ++ gap ++ s) (.call func e 0) := by
  intro c d hread hd
  rw [List.append_assoc] at hread
  obtain ⟨c₁, hname, hread⟩ := hread.split
  obtain ⟨c₂, hblank, hread⟩ := hread.split
  have hkeyword := keyword?_of_reads hname
  have hdigits : c.run Char.isDigit = [] := by
    cases func with
    | sin => exact run_isDigit_eq_nil hname.peek_eq rfl
    | cos => exact run_isDigit_eq_nil hname.peek_eq rfl
  obtain ⟨e', he', rfl⟩ := h hread hd
  rw [atom_of_keyword hinner hdigits (by simp [hkeyword])]
  simp only [call, hkeyword, hblank.skipBlanks_eq_of_derives hgap hread hs, he']
  exact ⟨_, rfl, rfl⟩

/-! ## Chains that go on -/

/-- The chain reads `s` as the tree `e` and goes on with its rounds there. -/
def Continues (operand : Rule) (operator? : Char → Option BinOp) (follow s : List Char)
    (e : Expr) : Prop :=
  ∀ ⦃c d : Cursor⦄, c.Reads s d → d.Follows follow → ∃ e', e'.bare = e ∧
    ∀ outcome, Rounds operand operator? e' d outcome → chain operand operator? c = outcome

theorem Accepts.continues (h : operand.Accepts follow s e) (hoperand : operand.Advances)
    (hfollow : follow ⊆ afterAtom) : Continues operand operator? follow s e := by
  intro c d hread hd
  obtain ⟨e', he', hbare⟩ := h hread hd
  refine ⟨e', hbare, fun outcome hrounds => (chain_eq_iff hoperand he').2 ?_⟩
  rwa [(Reads.refl d).skipBlanks_eq_of_follows Blank.nil (hd.mono hfollow)]

/-- One round more. -/
theorem Continues.more {op : BinOp} {ch : Char} {s' : List Char} {l r : Expr} {symbol : Symbol}
    (hl : Continues operand operator? follow s l) (hr : operand.Accepts follow s' r)
    (hop : operator? ch = some op) (hch : ch ∈ follow) (hgap : Blank gap)
    (hs' : Derives symbol s' r) :
    Continues operand operator? follow (s ++ [ch] ++ gap ++ s') (.binary op l r 0) := by
  intro c d hread hd
  have hread : c.Reads (s ++ ([ch] ++ (gap ++ s'))) d := by simpa using hread
  obtain ⟨c₁, hleft, hread⟩ := hread.split
  obtain ⟨c₂, hop', hread⟩ := hread.split
  obtain ⟨c₃, hblank, hright⟩ := hread.split
  have hfollow : c₁.Follows follow := by
    intro x hx
    rw [hop'.peek_eq] at hx
    cases hx
    exact hch
  obtain ⟨l', rfl, hcontinue⟩ := hl hleft hfollow
  obtain ⟨r', hr', rfl⟩ := hr hright hd
  have hpeek : c₁.peek.bind operator? = some op := by
    rw [hop'.peek_eq]
    exact hop
  have hoperand : operand (c₁.advance 1).skipBlanks = .matched r' d := by
    rw [hop'.advance_eq, hblank.skipBlanks_eq_of_derives hgap hright hs', hr']
  exact ⟨.binary op l' r' l'.offset, rfl, fun outcome hrounds =>
    hcontinue outcome (.next hpeek hoperand hrounds)⟩

/-- A chain ends where no operator follows. -/
theorem Continues.accepts (h : Continues operand operator? follow s e) (hsub : follow' ⊆ follow)
    (hstop : ∀ ch ∈ follow', operator? ch = none) :
    (chain operand operator?).Accepts follow' s e := by
  intro c d hread hd
  obtain ⟨e', hbare, hcontinue⟩ := h hread (hd.mono hsub)
  have hop : d.peek.bind operator? = none :=
    Option.bind_eq_none_iff.2 fun ch hch => hstop ch (hd ch hch)
  exact ⟨e', hcontinue _ (.done hop), hbare⟩

end Rule

open Rule

namespace Grammar

/-! ## Every derivation is read -/

/-- How a text derived by a symbol is read, with room for `depth` levels inside it. -/
def Recognized (depth : Nat) : Symbol → List Char → Expr → Prop
  | .group => (parenthesized (expression depth)).Accepts afterAtom
  | .term => Continues (atom (expression depth)) termOperator? afterAtom
  | .expression => Continues (term (expression depth)) expressionOperator? afterTerm
  | _ => (atom (expression depth)).Accepts afterAtom

variable {symbol : Symbol} {s : List Char} {e : Expr} {depth : Nat}

theorem Recognized.term (h : Recognized depth .term s e) :
    (term (Rule.expression depth)).Accepts afterTerm s e :=
  Continues.accepts h (by decide) (by simp [afterTerm, termOperator?, operatorIn?, BinOp.symbol])

theorem Recognized.expression (h : Recognized depth .expression s e) :
    (expression (depth + 1)).Accepts afterExpression s e :=
  Continues.accepts h (by decide)
    (by simp [afterExpression, expressionOperator?, operatorIn?, BinOp.symbol])

/-- An operator is read where its symbol may follow. -/
theorem exists_operator {ops : List BinOp} {op : BinOp} (follow : List Char) (hop : op ∈ ops)
    (hfollow : ∀ op ∈ ops, op.symbol.toList ⊆ follow) :
    ∃ ch, op.symbol.toList = [ch] ∧ operatorIn? ops ch = some op ∧ ch ∈ follow := by
  obtain ⟨ch, hch⟩ : ∃ ch, op.symbol.toList = [ch] := by cases op <;> exact ⟨_, rfl⟩
  refine ⟨ch, hch, operatorIn?_eq_some_iff.2 ⟨hop, hch⟩, hfollow op hop ?_⟩
  rw [hch]
  exact List.mem_singleton_self ch

/-- **Completeness.** With room for all its parentheses, whatever is derived is read. -/
theorem Derives.recognized (h : Derives symbol s e) (hdepth : s.count '(' ≤ depth) :
    Recognized depth symbol s e := by
  induction h generalizing depth with
  | literal hne hdigits hx hgap => exact atom_accepts_literal hne hdigits hx hgap
  | name hne hletters hkeyword hgap => exact atom_accepts_name hne hletters hkeyword hgap
  | group hgap h hgap' ih =>
      -- the parenthesis takes one level of the room
      simp only [List.cons_append, List.count_cons_self, List.count_append] at hdepth
      obtain ⟨depth, rfl⟩ : ∃ n, depth = n + 1 := ⟨depth - 1, by omega⟩
      exact parenthesized_accepts (ih (by omega)).expression h hgap hgap'
  | call func hgap h ih =>
      simp only [List.count_append] at hdepth
      exact atom_accepts_call (expression_fits depth) func (ih (by omega)) h hgap
  | @atom alternative s e ha h ih =>
      have halternative := ih hdepth
      simp only [List.mem_cons, List.not_mem_nil, or_false] at ha
      rcases ha with rfl | rfl | rfl | rfl
      · exact halternative
      · exact halternative
      · exact halternative
      · exact atom_accepts_group halternative h
  | factor _ ih =>
      have hatom : Recognized depth .atom _ _ := ih hdepth
      exact Accepts.continues hatom (atom_fits (expression_fits depth)).advances
        (List.Subset.refl _)
  | product op hop _ hgap hr ihl ihr =>
      simp only [List.count_append] at hdepth
      have hleft : Recognized depth .term _ _ := ihl (by omega)
      have hright : Recognized depth .atom _ _ := ihr (by omega)
      obtain ⟨ch, hsymbol, hch, hfollow⟩ := exists_operator afterAtom hop (by decide)
      rw [hsymbol]
      exact Continues.more hleft hright hch hfollow hgap hr
  | summand _ ih =>
      have hterm : Recognized depth .term _ _ := ih hdepth
      exact hterm.term.continues (term_fits (expression_fits depth)).advances (by decide)
  | sum op hop _ hgap hr ihl ihr =>
      simp only [List.count_append] at hdepth
      have hleft : Recognized depth .expression _ _ := ihl (by omega)
      have hright : Recognized depth .term _ _ := ihr (by omega)
      obtain ⟨ch, hsymbol, hch, hfollow⟩ := exists_operator afterTerm hop (by decide)
      rw [hsymbol]
      exact Continues.more hleft hright.term hch hfollow hgap hr

/-! ## Complete texts -/

/-- A complete text is read to its end, with room for all its parentheses. -/
theorem Formula.expression_eq {text : List Char} (h : Formula text e)
    (hdepth : text.count '(' ≤ depth) :
    ∃ e' d, Rule.expression (depth + 1) (Cursor.start text).skipBlanks = .matched e' d ∧
      d.rest = [] ∧ e'.bare = e := by
  obtain ⟨gap, s, hgap, rfl, hs⟩ := h
  obtain ⟨c, hblank, hc⟩ := Cursor.exists_reads (c := Cursor.start (gap ++ s)) rfl
  obtain ⟨d, hread, hd⟩ := Cursor.exists_reads (hc.trans (List.append_nil s).symm)
  have hend : d.Follows afterExpression := by
    intro ch hch
    simp [Cursor.peek, hd] at hch
  rw [List.count_append] at hdepth
  have hrecognized : Recognized depth .expression s e := hs.recognized (by omega)
  obtain ⟨e', he', hbare⟩ := hrecognized.expression hread hend
  rw [hblank.skipBlanks_eq_of_derives hgap hread hs]
  exact ⟨e', d, he', hd, hbare⟩

/-- **The grammar is unambiguous.** A text has at most one tree. -/
theorem Formula.unique {text : List Char} {a b : Expr} (ha : Formula text a)
    (hb : Formula text b) : a = b := by
  obtain ⟨a', d, ha', -, rfl⟩ := ha.expression_eq (Nat.le_refl _)
  obtain ⟨b', d', hb', -, rfl⟩ := hb.expression_eq (Nat.le_refl _)
  rw [ha'] at hb'
  cases hb'
  rfl

end Grammar

/-! ## Room for parentheses -/

/-- More room changes nothing for an expression that does not give up. -/
theorem Rule.expression_eq_of_le {n m : Nat} (h : n ≤ m) {c : Cursor}
    (hdeep : ∀ k, expression n c ≠ .tooDeep k) : expression m c = expression n c := by
  obtain ⟨s, hs⟩ := (expression_fits n).advances c
  have hc : Parallel (expression n c).cursor (expression n c).cursor c c := ⟨rfl, s, hs, hs⟩
  obtain ⟨k, hk, hpos, t, ht, ht'⟩ :=
    expression_mirrors h (fun _ hch => hch) hc (.refl _) hdeep
  have hcursor : k = (expression n c).cursor := ext_of_pos (ht'.text.symm.trans ht.text) hpos
  rw [hk, hcursor]
  cases expression n c <;> rfl

/-- There is room for a text that is not nested too deeply. -/
theorem Rule.expression_ne_tooDeep {text : List Char} (h : nesting text ≤ maxNesting) (k : Cursor) :
    expression (maxNesting + 1) (Cursor.start text).skipBlanks ≠ .tooDeep k := by
  intro hdeep
  obtain ⟨gap, hgap, hblank⟩ := (Cursor.start text).reads_skipBlanks
  obtain ⟨s, hs, hcount⟩ := (expression_fits _).tooDeep hdeep
  have hexcess : excess (gap ++ s) = maxNesting + 1 := by
    rw [excess, List.count_append, List.count_append, hgap.count_eq, hcount]
    omega
  have hbegins : gap ++ s <+: text := ⟨k.rest, (hblank.trans hs).rest.symm⟩
  have hle := excess_le_nesting hbegins
  omega

/-! ## The reader and the grammar -/

theorem formula_of_parseChars {text : List Char} {tree : Expr} (h : parseChars text = .ok tree) :
    Formula text tree.bare := by
  obtain ⟨gap, hgap, hblank⟩ := (Cursor.start text).reads_skipBlanks
  obtain ⟨d, hc, hrest⟩ := expression_of_parseChars h
  obtain ⟨s, hs, he⟩ := (expression_fits _).matched hc
  have htext := (hblank.trans hs).rest
  rw [hrest, List.append_nil] at htext
  exact ⟨gap, s, hgap, htext, he⟩

/-- An expression that is read to the end of the text is the tree of the text. -/
theorem parseChars_of_expression {text : List Char} {tree : Expr} {d : Cursor}
    (h : Rule.expression (maxNesting + 1) (Cursor.start text).skipBlanks = .matched tree d)
    (hrest : d.rest = []) : parseChars text = .ok tree := by
  have hend : d.atEnd = true := by
    have hlength := d.length_rest
    rw [hrest, List.length_nil] at hlength
    exact decide_eq_true (by omega)
  simp only [parseChars, h, hend, if_true]

theorem Grammar.Formula.parseChars_eq {text : List Char} {e : Expr} (h : Formula text e)
    (hnesting : nesting text ≤ maxNesting) :
    ∃ tree, parseChars text = .ok tree ∧ tree.bare = e := by
  -- read with room for all parentheses, then with the room there is
  have hdepth : text.count '(' ≤ max maxNesting (text.count '(') := Nat.le_max_right _ _
  obtain ⟨tree, d, htree, hd, hbare⟩ := h.expression_eq hdepth
  have hle : maxNesting + 1 ≤ max maxNesting (text.count '(') + 1 :=
    Nat.succ_le_succ (Nat.le_max_left _ _)
  rw [Rule.expression_eq_of_le hle (Rule.expression_ne_tooDeep hnesting)] at htree
  exact ⟨tree, parseChars_of_expression htree hd, hbare⟩

/-- **The reader accepts exactly the grammar.** For a text that is not nested too deeply, the trees
that are read and the trees that the grammar derives are the same up to offsets, and a text has at
most one. -/
theorem parse_eq_ok_iff_formula (text : String) (h : nesting text.toList ≤ maxNesting) :
    (∀ e : Expr, (∃ tree, parse text = .ok tree ∧ tree.bare = e.bare) ↔
      Formula text.toList e.bare) ∧
    ∀ a b : Expr, Formula text.toList a → Formula text.toList b → a = b := by
  refine ⟨fun e => ⟨?_, fun hf => hf.parseChars_eq h⟩, fun a b ha hb => ha.unique hb⟩
  rintro ⟨tree, htree, hbare⟩
  rw [← hbare]
  exact formula_of_parseChars htree

/-- Differences fold to the left, and blanks make no difference. -/
theorem formula_difference_iff :
    nesting " t - u- sin ( v )".toList ≤ maxNesting ∧
    ∀ e : Expr, Formula " t - u- sin ( v )".toList e.bare ↔
      e.bare = .binary .sub (.binary .sub (.var "t" 0) (.var "u" 0) 0)
        (.call .sin (.var "v" 0) 0) 0 := by
  have hnesting : nesting " t - u- sin ( v )".toList ≤ maxNesting := by decide
  have hparse : parse " t - u- sin ( v )" =
      .ok (.binary .sub (.binary .sub (.var "t" 1) (.var "u" 5) 1)
        (.call .sin (.var "v" 14) 8) 1) := by
    rfl
  refine ⟨hnesting, fun e => ?_⟩
  rw [← (parse_eq_ok_iff_formula _ hnesting).1 e, hparse]
  constructor
  · rintro ⟨tree, htree, hbare⟩
    cases htree
    exact hbare.symm
  · exact fun hbare => ⟨_, rfl, hbare.symm⟩

end LiveFormula
