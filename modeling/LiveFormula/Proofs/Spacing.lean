import LiveFormula.Proofs.Lookahead
import LiveFormula.Proofs.RoundTrip
import Mathlib.Data.List.SplitBy

/-!
# Blanks between tokens

The tokens of a text are its longest runs of letters and of digits and its other characters one by
one, but for the blanks. How a text is read depends on its tokens alone: two texts with the same
tokens are both accepted, with trees that differ in their offsets only, or both refused for the same
reason. So blanks may be put in wherever they do not cut a run in two.

* `Grammar.tokens` — the tokens of a text.
* `Cursor.Alike` — two cursors before the same tokens, neither of them before a blank.
* `Cursor.Alike.reads` — what is read of a token at one cursor is read at the other one.
* `Rule.expression_uniform` — an expression does the same at cursors that are alike.
* `parse_insert_blanks` — blanks that are put in.
-/

set_option autoImplicit false

namespace LiveFormula

/-! ## The tokens of a text -/

namespace Grammar

/-- Whether two neighbours belong to one token: both are letters or both are digits. -/
def joins (x y : Char) : Bool := x.isAlpha && y.isAlpha || x.isDigit && y.isDigit

/-- The tokens of a text from left to right. -/
def tokens (text : List Char) : List (List Char) :=
  (text.splitBy joins).filter fun t => !t.all Text.isAsciiBlank

/-- No token goes on from `s` to `t`. -/
def Apart (s t : List Char) : Prop := ∀ x ∈ s.getLast?, ∀ y ∈ t.head?, joins x y = false

theorem Apart.of_append {s u t : List Char} (h : Apart (s ++ u) t) : Apart u t := by
  intro x hx
  refine h x ?_
  rw [List.getLast?_append, show u.getLast? = some x from hx]
  rfl

/-- A blank belongs to no token. -/
theorem joins_of_blank {x y : Char} (h : x ∈ blanks ∨ y ∈ blanks) : joins x y = false := by
  simp only [blanks, List.mem_cons, List.not_mem_nil, or_false] at h
  rcases h with (rfl | rfl | rfl | rfl | rfl | rfl) | (rfl | rfl | rfl | rfl | rfl | rfl) <;>
    simp [joins]

theorem tokens_append {s t : List Char} (h : Apart s t) :
    tokens (s ++ t) = tokens s ++ tokens t := by
  rw [tokens, List.splitBy_append h, List.filter_append]
  rfl

theorem tokens_of_blank {w : List Char} (hw : Blank w) : tokens w = [] := by
  refine List.filter_eq_nil_iff.2 fun t ht => ?_
  have hblank : ∀ c ∈ t, Text.isAsciiBlank c = true := by
    intro c hc
    have hmem : c ∈ (w.splitBy joins).flatten := List.mem_flatten.2 ⟨t, ht, hc⟩
    rw [List.flatten_splitBy] at hmem
    exact Text.isAsciiBlank_iff.2 (hw c hmem)
  simpa using hblank

theorem tokens_blank_append {w : List Char} (hw : Blank w) (s : List Char) :
    tokens (w ++ s) = tokens s := by
  have hapart : Apart w s := fun x hx y _ =>
    joins_of_blank (.inl (hw x (List.mem_of_mem_getLast? hx)))
  rw [tokens_append hapart, tokens_of_blank hw, List.nil_append]

/-- Blanks between two tokens make no difference. -/
theorem tokens_insert {s w t : List Char} (h : Apart s t) (hw : Blank w) :
    tokens (s ++ (w ++ t)) = tokens (s ++ t) := by
  have hapart : Apart s (w ++ t) := by
    cases w with
    | nil => exact h
    | cons c w =>
        intro x _ y hy
        obtain rfl : c = y := Option.some.inj hy
        exact joins_of_blank (.inr (hw c List.mem_cons_self))
  rw [tokens_append hapart, tokens_blank_append hw, ← tokens_append h]

/-- A text that does not begin with a blank begins with its first token. -/
theorem exists_token {c : Char} {r : List Char} (hc : c ∉ blanks) :
    ∃ t u, c :: r = t ++ u ∧ t ≠ [] ∧ Apart t u ∧ tokens (c :: r) = t :: tokens u := by
  obtain ⟨hflatten, hnil, hchain, hapart⟩ :=
    List.splitBy_eq_iff.1 (Eq.refl ((c :: r).splitBy joins))
  unfold tokens
  generalize (c :: r).splitBy joins = groups at *
  cases groups with
  | nil => cases hflatten
  | cons t groups =>
      obtain ⟨ht, hnil⟩ : t ≠ [] ∧ [] ∉ groups := by
        rw [List.mem_cons, not_or] at hnil
        exact ⟨Ne.symm hnil.1, hnil.2⟩
      have hgroups : groups.flatten.splitBy joins = groups :=
        List.splitBy_flatten hnil (fun m hm => hchain m (List.mem_cons_of_mem t hm)) hapart.tail
      refine ⟨t, groups.flatten, hflatten, ht, ?_, ?_⟩
      · intro x hx y hy
        cases groups with
        | nil => cases hy
        | cons group groups =>
            obtain ⟨⟨ht, hgroup, hjoins⟩, -⟩ := List.isChain_cons_cons.1 hapart
            obtain ⟨y', group, rfl⟩ := List.exists_cons_of_ne_nil hgroup
            obtain rfl : y' = y := Option.some.inj hy
            rwa [List.getLast_of_mem_getLast? hx] at hjoins
      · have hkept : (!t.all Text.isAsciiBlank) = true := by
          obtain ⟨c', t, rfl⟩ := List.exists_cons_of_ne_nil ht
          obtain ⟨rfl, -⟩ := List.cons_eq_cons.1 hflatten
          have hblank : Text.isAsciiBlank c = false :=
            Bool.eq_false_iff.2 fun h => hc (Text.isAsciiBlank_iff.1 h)
          simp [hblank]
        rw [List.filter_cons, if_pos hkept, hgroups]

end Grammar

/-! ## Cursors before the same tokens -/

open Grammar

namespace Cursor

/-- The cursor does not stand before a blank. -/
def Settled (c : Cursor) : Prop := ∀ ch, c.peek = some ch → ch ∉ blanks

/-- The cursors stand before the same tokens, and neither of them before a blank. -/
structure Alike (c c' : Cursor) : Prop where
  settled : c.Settled
  settled' : c'.Settled
  tokens_eq : tokens c'.rest = tokens c.rest

variable {c c' d d' : Cursor} {s : List Char}

theorem Alike.symm (h : Alike c c') : Alike c' c := ⟨h.settled', h.settled, h.tokens_eq.symm⟩

theorem settled_skipBlanks (c : Cursor) : c.skipBlanks.Settled := by
  intro ch hch hblank
  rw [← Text.isAsciiBlank_iff, not_of_peek_skip hch] at hblank
  cases hblank

theorem tokens_skipBlanks (c : Cursor) : tokens c.skipBlanks.rest = tokens c.rest := by
  obtain ⟨gap, hgap, hskip⟩ := c.reads_skipBlanks
  rw [hskip.rest, tokens_blank_append hgap]

/-- Cursors that stand before the same tokens are alike once the blanks have been skipped. -/
theorem alike_skipBlanks (h : tokens c'.rest = tokens c.rest) :
    Alike c.skipBlanks c'.skipBlanks :=
  ⟨c.settled_skipBlanks, c'.settled_skipBlanks, by rw [tokens_skipBlanks, tokens_skipBlanks, h]⟩

/-- A part of a token that is read at a cursor is read of its first token. -/
theorem Reads.exists_token (hread : c.Reads s d) (hc : c.Settled) (hs : s ≠ [])
    (hchain : s.IsChain fun x y => joins x y) :
    ∃ u r, d.rest = u ++ r ∧ Apart (s ++ u) r ∧ tokens c.rest = (s ++ u) :: tokens r := by
  obtain ⟨ch, s, rfl⟩ := List.exists_cons_of_ne_nil hs
  have hrest : c.rest = ch :: (s ++ d.rest) := hread.rest
  obtain ⟨t, r, htr, ht, hapart, htokens⟩ :=
    Grammar.exists_token (r := s ++ d.rest) (hc ch hread.peek_eq)
  rw [← hrest] at htokens
  rcases List.append_eq_append_iff.1 (show (ch :: s) ++ d.rest = t ++ r from htr) with
    ⟨u, rfl, hu⟩ | ⟨u, hu, rfl⟩
  · exact ⟨u, r, hu, hapart, htokens⟩
  · -- what is read cannot go on past the token
    obtain rfl : u = [] := by
      rw [hu] at hchain
      obtain ⟨-, -, hjoins⟩ := List.isChain_append.1 hchain
      refine List.eq_nil_iff_forall_not_mem.2 fun y hy => ?_
      obtain ⟨y', u, rfl⟩ := List.exists_cons_of_ne_nil (List.ne_nil_of_mem hy)
      have hlast := List.getLast?_eq_some_getLast ht
      have hjoin := hjoins _ hlast y' rfl
      rw [hapart _ hlast y' rfl] at hjoin
      cases hjoin
    rw [List.append_nil] at hu
    exact ⟨[], d.rest, rfl, by rwa [hu, List.append_nil], by rw [htokens, hu, List.append_nil]; rfl⟩

/-- **What is read of a token at one cursor is read at the other one.** -/
theorem Alike.reads (h : Alike c c') (hread : c.Reads s d)
    (hchain : s.IsChain fun x y => joins x y) :
    ∃ d', c'.Reads s d' ∧ Alike d.skipBlanks d'.skipBlanks := by
  by_cases hs : s = []
  · subst hs
    rw [hread.unique (.refl c)]
    exact ⟨c', .refl c', alike_skipBlanks h.tokens_eq⟩
  · obtain ⟨u, r, hrest, hapart, htokens⟩ := hread.exists_token h.settled hs hchain
    rw [← h.tokens_eq] at htokens
    cases hc' : c'.rest with
    | nil => rw [hc'] at htokens; cases htokens
    | cons ch r' =>
        obtain ⟨t, r', htr, -, hapart', htokens'⟩ :=
          Grammar.exists_token (r := r') (h.settled' ch (peek_eq_some.2 ⟨r', hc'⟩))
        rw [← hc'] at htokens' htr
        rw [htokens] at htokens'
        obtain ⟨rfl, htail⟩ := List.cons_eq_cons.1 htokens'
        rw [List.append_assoc] at htr
        obtain ⟨d', hread', hrest'⟩ := exists_reads htr
        refine ⟨d', hread', alike_skipBlanks ?_⟩
        rw [hrest, hrest', tokens_append hapart.of_append, tokens_append hapart'.of_append, htail]

/-- The first character is the same, and so is what follows. -/
theorem Alike.advance {ch : Char} (h : Alike c c') (hch : c.peek = some ch) :
    c'.peek = some ch ∧ Alike (c.advance 1).skipBlanks (c'.advance 1).skipBlanks := by
  obtain ⟨d', hread, halike⟩ := h.reads (reads_advance_one hch) (List.isChain_singleton ch)
  rw [hread.advance_eq]
  exact ⟨hread.peek_eq, halike⟩

theorem Alike.peek_eq (h : Alike c c') : c'.peek = c.peek :=
  Option.ext fun _ => ⟨fun hch => (h.symm.advance hch).1, fun hch => (h.advance hch).1⟩

theorem Reads.prefix_run {p : Char → Bool} (h : c.Reads s d) (hs : ∀ x ∈ s, p x) :
    s <+: c.run p := by
  rw [run, h.rest, List.takeWhile_append_of_pos hs]
  exact List.prefix_append _ _

/-- A run of letters or digits is the same, and so is what follows. -/
theorem Alike.skip {p : Char → Bool} (h : Alike c c') (hp : ∀ x y, p x → p y → joins x y) :
    c'.run p = c.run p ∧ Alike (c.skip p).skipBlanks (c'.skip p).skipBlanks := by
  have hchain : ∀ c : Cursor, (c.run p).IsChain fun x y => joins x y := fun c =>
    (List.pairwise_of_forall_mem_list fun x hx y hy =>
      hp x y (c.forall_mem_run p x hx) (c.forall_mem_run p y hy)).isChain
  obtain ⟨d', hread, halike⟩ := h.reads (c.reads_skip p) (hchain c)
  obtain ⟨d, hread', -⟩ := h.symm.reads (c'.reads_skip p) (hchain c')
  have hrun : c'.run p = c.run p :=
    (hread'.prefix_run (c'.forall_mem_run p)).eq_of_length_le
      (hread.prefix_run (c.forall_mem_run p)).length_le
  rw [(hrun ▸ c'.reads_skip p : c'.Reads (c.run p) (c'.skip p)).unique hread]
  exact ⟨hrun, halike⟩

/-- The same keyword begins, and what follows it is the same. -/
theorem Alike.keyword? {func : Func} (h : Alike c c') (hk : Rule.keyword? c = some (func, d)) :
    ∃ d', Rule.keyword? c' = some (func, d') ∧ Alike d.skipBlanks d'.skipBlanks := by
  have hchain : func.name.toList.IsChain fun x y => joins x y := by
    cases func <;> simp [Func.name, joins]
  obtain ⟨d', hread, halike⟩ := h.reads (Rule.keyword?_eq_some hk) hchain
  exact ⟨d', Rule.keyword?_of_reads hread, halike⟩

end Cursor

open Cursor

/-! ## Rules at cursors that are alike -/

namespace Outcome

/-- The outcomes are of one kind, and what was matched differs in the offsets only. -/
inductive Alike : Outcome → Outcome → Prop
  | matched {e e' : Expr} {d d' : Cursor} (he : e'.bare = e.bare) (hd : d.Alike d') :
      Alike (.matched e d) (.matched e' d')
  | stopped {d d' : Cursor} : Alike (.stopped d) (.stopped d')
  | tooDeep {d d' : Cursor} : Alike (.tooDeep d) (.tooDeep d')

/-- Goes on after a match. -/
def andThen (next : Expr → Cursor → Outcome) : Outcome → Outcome
  | .matched e d => next e d
  | other => other

theorem Alike.andThen {o o' : Outcome} {next next' : Expr → Cursor → Outcome} (h : o.Alike o')
    (hnext : ∀ {e e' d d'}, e'.bare = e.bare → d.Alike d' → (next e d).Alike (next' e' d')) :
    (o.andThen next).Alike (o'.andThen next') := by
  cases h with
  | matched he hd => exact hnext he hd
  | stopped => exact .stopped
  | tooDeep => exact .tooDeep

end Outcome

namespace Rule

/-- The rule does the same at cursors that are alike. -/
def Uniform (rule : Rule) : Prop := ∀ ⦃c c' : Cursor⦄, c.Alike c' → (rule c).Alike (rule c')

theorem token_uniform {p : Char → Bool} {node : List Char → Int → Expr}
    (hp : ∀ x y, p x → p y → joins x y)
    (hnode : ∀ w q q', (node w q').bare = (node w q).bare) : (token p node).Uniform := by
  intro c c' hc
  obtain ⟨hrun, hskip⟩ := hc.skip hp
  by_cases hnil : c.run p = []
  · rw [token_of_run_nil hnil, token_of_run_nil (hrun.trans hnil)]
    exact .stopped
  · rw [token_of_run_ne hnil, token_of_run_ne (hrun ▸ hnil), hrun]
    exact .matched (hnode _ _ _) hskip

theorem joins_of_isDigit (x y : Char) (hx : x.isDigit) (hy : y.isDigit) : joins x y := by
  simp [joins, hx, hy]

theorem joins_of_isLetter (x y : Char) (hx : isLetter x) (hy : isLetter y) : joins x y := by
  rw [isLetter] at hx hy
  simp [joins, hx, hy]

theorem literal_uniform : literal.Uniform := by
  rw [literal_eq_token]
  exact token_uniform joins_of_isDigit fun _ _ _ => rfl

theorem name_uniform : name.Uniform := by
  rw [name_eq_token]
  exact token_uniform joins_of_isLetter fun _ _ _ => rfl

section

variable {inner : Rule} {depth : Nat} {c c' : Cursor}

theorem parenthesized_of_open (h : c.peek = some '(') :
    parenthesized inner c = (inner (c.advance 1).skipBlanks).andThen fun e d =>
      if d.peek = some ')' then .matched e (d.advance 1).skipBlanks else .stopped d :=
  if_pos h

theorem parenthesized_uniform (hinner : inner.Uniform) : (parenthesized inner).Uniform := by
  intro c c' hc
  by_cases hopen : c.peek = some '('
  · obtain ⟨hopen', hstart⟩ := hc.advance hopen
    rw [parenthesized_of_open hopen, parenthesized_of_open hopen']
    refine (hinner hstart).andThen fun {e e' d d'} he hd => ?_
    by_cases hclose : d.peek = some ')'
    · obtain ⟨hclose', hnext⟩ := hd.advance hclose
      rw [if_pos hclose, if_pos hclose']
      exact .matched he hnext
    · rw [if_neg hclose, if_neg (hd.peek_eq ▸ hclose)]
      exact .stopped
  · rw [parenthesized, if_neg hopen, parenthesized, if_neg (hc.peek_eq ▸ hopen)]
    exact .stopped

theorem call_of_keyword {func : Func} {d : Cursor} (h : keyword? c = some (func, d)) :
    call inner c = (parenthesized inner d.skipBlanks).andThen fun argument next =>
      .matched (.call func argument c.pos) next := by
  rw [call, h]
  rfl

theorem call_uniform (hinner : inner.Uniform) {func : Func} {d : Cursor} (hc : c.Alike c')
    (hk : keyword? c = some (func, d)) : (call inner c).Alike (call inner c') := by
  obtain ⟨d', hk', hd⟩ := hc.keyword? hk
  rw [call_of_keyword hk, call_of_keyword hk']
  refine (parenthesized_uniform hinner hd).andThen fun {e e' d d'} he hd => ?_
  exact .matched (by rw [Expr.bare, Expr.bare, he]) hd

theorem atom_uniform (hinner : inner.Uniform) (hfits : inner.Fits .expression depth) :
    (atom inner).Uniform := by
  intro c c' hc
  obtain ⟨hdigitRun, -⟩ := hc.skip joins_of_isDigit
  obtain ⟨hletterRun, -⟩ := hc.skip joins_of_isLetter
  by_cases hdigits : c.run Char.isDigit = []
  · have hdigits' := hdigitRun.trans hdigits
    cases hk : keyword? c with
    | none =>
        have hk' : keyword? c' = none := by
          rw [keyword?_eq_none_iff_run] at hk ⊢
          rwa [hletterRun]
        by_cases hletters : c.run isLetter = []
        · rw [atom_of_other hdigits hk hletters,
            atom_of_other hdigits' hk' (hletterRun.trans hletters)]
          exact parenthesized_uniform hinner hc
        · rw [atom_of_letters hdigits hk hletters,
            atom_of_letters hdigits' hk' (hletterRun ▸ hletters)]
          exact name_uniform hc
    | some k =>
        obtain ⟨func, d⟩ := k
        obtain ⟨d', hk', -⟩ := hc.keyword? hk
        rw [atom_of_keyword hfits hdigits (by simp [hk]),
          atom_of_keyword hfits hdigits' (by simp [hk'])]
        exact call_uniform hinner hc hk
  · rw [atom_of_digits hdigits, atom_of_digits (hdigitRun ▸ hdigits)]
    exact literal_uniform hc

end

section

variable {operand : Rule} {operator? : Char → Option BinOp}

/-- A round begins with the same operator, and its operand has an outcome that is alike. -/
theorem round_alike (hoperand : operand.Uniform) {op : BinOp} {c c' : Cursor} {outcome : Outcome}
    (hc : c.Alike c') (hop : c.peek.bind operator? = some op)
    (hr : operand (c.advance 1).skipBlanks = outcome) :
    c'.peek.bind operator? = some op ∧ outcome.Alike (operand (c'.advance 1).skipBlanks) := by
  obtain ⟨ch, hch, -⟩ := Option.bind_eq_some_iff.1 hop
  rw [← hr]
  exact ⟨hc.peek_eq ▸ hop, hoperand (hc.advance hch).2⟩

/-- The rounds are the same at cursors that are alike, with left operands that differ in the offsets
only. -/
theorem Rounds.alike (hoperand : operand.Uniform) {lhs lhs' : Expr} {c c' : Cursor}
    {outcome : Outcome} (h : Rounds operand operator? lhs c outcome) (hc : c.Alike c')
    (hlhs : lhs'.bare = lhs.bare) :
    ∃ outcome', Rounds operand operator? lhs' c' outcome' ∧ outcome.Alike outcome' := by
  induction h generalizing c' lhs' with
  | done hop => exact ⟨_, .done (hc.peek_eq ▸ hop), .matched hlhs hc⟩
  | @next lhs rhs _ _ op _ hop hr _ ih =>
      obtain ⟨hop', halike⟩ := round_alike hoperand hc hop hr
      generalize hr' : operand (c'.advance 1).skipBlanks = next at halike
      cases halike with
      | @matched _ rhs' _ _ hrhs hd =>
          -- the operation takes its offset from the left operand, and that is the only difference
          have hnode : (Expr.binary op lhs' rhs' lhs'.offset).bare =
              (Expr.binary op lhs rhs lhs.offset).bare := by
            simp only [Expr.bare, hlhs, hrhs]
          obtain ⟨outcome', hrounds', houtcome⟩ := ih hd hnode
          exact ⟨outcome', .next hop' hr' hrounds', houtcome⟩
  | stop hop hr =>
      obtain ⟨hop', halike⟩ := round_alike hoperand hc hop hr
      generalize hr' : operand (c'.advance 1).skipBlanks = next at halike
      cases halike with
      | stopped => exact ⟨_, .stop hop' hr', .stopped⟩
  | deep hop hr =>
      obtain ⟨hop', halike⟩ := round_alike hoperand hc hop hr
      generalize hr' : operand (c'.advance 1).skipBlanks = next at halike
      cases halike with
      | tooDeep => exact ⟨_, .deep hop' hr', .tooDeep⟩

theorem chain_uniform (hoperand : operand.Uniform) (hadvances : operand.Advances) :
    (chain operand operator?).Uniform := by
  intro c c' hc
  have halike := hoperand hc
  generalize hr : operand c = first at halike
  generalize hr' : operand c' = first' at halike
  cases halike with
  | matched he hd =>
      have hrounds := (chain_eq_iff hadvances hr).1 (Eq.refl (chain operand operator? c))
      obtain ⟨outcome, hrounds', houtcome⟩ :=
        hrounds.alike hoperand (alike_skipBlanks hd.tokens_eq) he
      rw [(chain_eq_iff hadvances hr').2 hrounds']
      exact houtcome
  | stopped =>
      simp only [chain, hr, hr']
      exact .stopped
  | tooDeep =>
      simp only [chain, hr, hr']
      exact .tooDeep

end

/-- **An expression does the same at cursors that are alike.** -/
theorem expression_uniform (depth : Nat) : (expression depth).Uniform := by
  induction depth with
  | zero => exact fun _ _ _ => .tooDeep
  | succ depth ih =>
      have hfits := expression_fits depth
      have hatom := atom_uniform ih hfits
      have hterm : (term (expression depth)).Uniform :=
        chain_uniform hatom (atom_fits hfits).advances
      exact chain_uniform hterm (term_fits hfits).advances

end Rule

/-! ## Texts with the same tokens -/

/-- The error with its offset at zero. -/
def ParseError.bare : ParseError → ParseError
  | unexpected _ => unexpected 0
  | trailing _ => trailing 0
  | tooDeep _ => tooDeep 0

theorem Cursor.atEnd_iff {c : Cursor} : c.atEnd = true ↔ c.peek = none := by
  rw [Cursor.atEnd, decide_eq_true_iff, Cursor.peek, List.head?_eq_none_iff,
    ← List.length_eq_zero_iff, c.length_rest]
  omega

/-- Texts with the same tokens have the same outcome, up to offsets. -/
theorem parseChars_of_tokens_eq {text text' : List Char} (h : tokens text' = tokens text) :
    ((parseChars text').map Expr.bare).mapError ParseError.bare =
      ((parseChars text).map Expr.bare).mapError ParseError.bare := by
  have halike : (Cursor.start text).skipBlanks.Alike (Cursor.start text').skipBlanks :=
    alike_skipBlanks h
  have houtcome := Rule.expression_uniform (maxNesting + 1) halike
  unfold parseChars
  generalize Rule.expression (maxNesting + 1) (Cursor.start text).skipBlanks = outcome at houtcome ⊢
  generalize Rule.expression (maxNesting + 1) (Cursor.start text').skipBlanks = outcome'
    at houtcome ⊢
  cases houtcome with
  | matched he hd =>
      rename_i e e' d d'
      have hend : d'.atEnd = d.atEnd := by
        rw [Bool.eq_iff_iff, atEnd_iff, atEnd_iff, hd.peek_eq]
      simp only [hend]
      cases d.atEnd
      · rfl
      · exact congrArg Except.ok he
  | stopped => rfl
  | tooDeep => rfl

theorem parse_ok_of_tokens_eq {text text' : String} {e : Expr}
    (h : tokens text'.toList = tokens text.toList) (he : parse text = .ok e) :
    ∃ e', parse text' = .ok e' ∧ e'.bare = e.bare := by
  have houtcome := parseChars_of_tokens_eq h
  rw [show parseChars text.toList = .ok e from he] at houtcome
  unfold parse
  cases he' : parseChars text'.toList with
  | ok e' =>
      rw [he'] at houtcome
      exact ⟨e', rfl, Except.ok.inj houtcome⟩
  | error err => rw [he'] at houtcome; cases houtcome

theorem parse_error_of_tokens_eq {text text' : String} {err : ParseError}
    (h : tokens text'.toList = tokens text.toList) (herr : parse text = .error err) :
    ∃ err', parse text' = .error err' ∧ err'.bare = err.bare := by
  have houtcome := parseChars_of_tokens_eq h
  rw [show parseChars text.toList = .error err from herr] at houtcome
  unfold parse
  cases herr' : parseChars text'.toList with
  | ok e => rw [herr'] at houtcome; cases houtcome
  | error err' =>
      rw [herr'] at houtcome
      exact ⟨err', rfl, Except.error.inj houtcome⟩

/-- The two texts are read alike: both are accepted, with the same tree, or both are refused, for
the same reason. -/
structure ReadsAlike (text text' : String) : Prop where
  accepted : (∃ e, parse text' = .ok e) ↔ ∃ e, parse text = .ok e
  same : ∀ e e', parse text = .ok e → parse text' = .ok e' → e'.same e = true
  refused : ∀ err err', parse text = .error err → parse text' = .error err' → err'.bare = err.bare

/-- **How a text is read depends on its tokens alone.** -/
theorem readsAlike_of_tokens_eq {text text' : String}
    (h : tokens text'.toList = tokens text.toList) : ReadsAlike text text' where
  accepted := by
    constructor
    · rintro ⟨e, he⟩
      obtain ⟨e', he', -⟩ := parse_ok_of_tokens_eq h.symm he
      exact ⟨e', he'⟩
    · rintro ⟨e, he⟩
      obtain ⟨e', he', -⟩ := parse_ok_of_tokens_eq h he
      exact ⟨e', he'⟩
  same e e' he he' := by
    obtain ⟨e'', he'', hbare⟩ := parse_ok_of_tokens_eq h he
    cases he'.symm.trans he''
    exact Expr.same_of_bare_eq hbare (hasValue_of_parse he)
  refused err err' herr herr' := by
    obtain ⟨err'', herr'', hbare⟩ := parse_error_of_tokens_eq h herr
    cases herr'.symm.trans herr''
    exact hbare

/-- **Blanks may be put in between any two tokens.** At a place where the characters on the two
sides are not both letters and not both digits, blanks make no difference to how a text is read. -/
theorem parse_insert_blanks (text w : String) (k : Nat) (hw : Blank w.toList)
    (hk : Apart (text.toList.take k) (text.toList.drop k)) :
    ReadsAlike text (String.ofList (text.toList.take k ++ w.toList ++ text.toList.drop k)) := by
  refine readsAlike_of_tokens_eq ?_
  rw [String.toList_ofList, List.append_assoc, tokens_insert hk hw, List.take_append_drop]

/-- Blanks between the name of a function and its argument. -/
theorem parse_insert_blanks_keyword :
    Blank [' ', '\n'] ∧ Apart ['2', '*', 's', 'i', 'n'] ['(', 't', ')'] ∧
      ReadsAlike "2*sin(t)" "2*sin \n(t)" := by
  have hw : Blank [' ', '\n'] := by simp [Blank, blanks]
  have hk : Apart ['2', '*', 's', 'i', 'n'] ['(', 't', ')'] := by simp [Apart, joins]
  exact ⟨hw, hk, parse_insert_blanks "2*sin(t)" " \n" 5 hw hk⟩

end LiveFormula
