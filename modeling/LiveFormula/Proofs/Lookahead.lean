import LiveFormula.Proofs.Reading

/-!
# One character of lookahead

A rule looks at what it reads and at one character more. So it does the same at two cursors that are
read in the same way, where the one text may end or differ after the character that follows. More
room for parentheses makes no difference either, unless the rule gives up.

* `Cursor.Parallel d d' c c'` — the same characters lead from `c` to `d` and from `c'` to `d'`.
* `Rule.Mirrors rule rule'` — up to parallel ends, `rule'` follows `rule`.
* `Rule.expression_mirrors` — an expression with more room follows one with less.
-/

set_option autoImplicit false

namespace LiveFormula

/-! ## Parallel cursors -/

namespace Cursor

/-- The cursors `c` and `c'` are at one position, and the same characters lead from them to `d` and
`d'`. -/
def Parallel (d d' c c' : Cursor) : Prop := c'.pos = c.pos ∧ ∃ s, c.Reads s d ∧ c'.Reads s d'

theorem before_skipBlanks (c : Cursor) : c.Before c.skipBlanks := ⟨_, c.reads_skip _⟩

namespace Parallel

variable {c c' d d' : Cursor}

/-- What leads to a place before `d` leads to the parallel place before `d'`. -/
theorem reads {m : Cursor} {s : List Char} (h : Parallel d d' c c') (hs : c.Reads s m)
    (hm : m.Before d) : ∃ m', c'.Reads s m' ∧ Parallel d d' m m' := by
  obtain ⟨hpos, t, ht, ht'⟩ := h
  obtain ⟨u, hu⟩ := hm
  obtain rfl := ht.eq_of_reads (hs.trans hu)
  obtain ⟨m', hm', hu'⟩ := ht'.split
  refine ⟨m', hm', ?_, u, hu, hu'⟩
  rw [hm'.pos, hs.pos, hpos]

theorem lookahead (h : Parallel d d' c c') (hend : Lookahead d'.rest d.rest) :
    Lookahead c'.rest c.rest := by
  obtain ⟨-, s, hs, hs'⟩ := h
  rw [hs.rest, hs'.rest]
  exact hend.append s

theorem skip {p : Char → Bool} (h : Parallel d d' c c') (hend : Lookahead d'.rest d.rest)
    (hc : (c.skip p).Before d) : c'.run p = c.run p ∧ Parallel d d' (c.skip p) (c'.skip p) := by
  obtain ⟨m', hm', hparallel⟩ := h.reads (c.reads_skip p) hc
  obtain ⟨hrun, rfl⟩ := hm'.run_eq_of_lookahead (hparallel.lookahead hend)
  exact ⟨hrun, hparallel⟩

theorem skipBlanks (h : Parallel d d' c c') (hend : Lookahead d'.rest d.rest)
    (hc : c.skipBlanks.Before d) : Parallel d d' c.skipBlanks c'.skipBlanks :=
  (h.skip hend hc).2

theorem advance {ch : Char} (h : Parallel d d' c c') (hch : c.peek = some ch)
    (hc : (c.advance 1).Before d) :
    c'.peek = some ch ∧ Parallel d d' (c.advance 1) (c'.advance 1) := by
  obtain ⟨m', hm', hparallel⟩ := h.reads (reads_advance_one hch) hc
  rw [hm'.advance_eq]
  exact ⟨hm'.peek_eq, hparallel⟩

theorem advanceBlanks {ch : Char} (h : Parallel d d' c c') (hend : Lookahead d'.rest d.rest)
    (hch : c.peek = some ch) (hc : (c.advance 1).skipBlanks.Before d) :
    c'.peek = some ch ∧ Parallel d d' (c.advance 1).skipBlanks (c'.advance 1).skipBlanks := by
  obtain ⟨hpeek, hadvance⟩ := h.advance hch ((before_skipBlanks _).trans hc)
  exact ⟨hpeek, hadvance.skipBlanks hend hc⟩

/-- A character that is not next at `c` is not next at `c'`. -/
theorem peek_ne {ch : Char} (h : Parallel d d' c c') (hend : Lookahead d'.rest d.rest)
    (hch : c.peek ≠ some ch) : c'.peek ≠ some ch :=
  fun hpeek => hch (h.lookahead hend ch hpeek)

end Parallel

theorem run_eq_nil_iff {c : Cursor} {p : Char → Bool} :
    c.run p = [] ↔ ∀ ch, c.peek = some ch → p ch = false := by
  constructor
  · intro h ch hch
    obtain ⟨r, hr⟩ := peek_eq_some.1 hch
    rw [run, hr, List.takeWhile_cons] at h
    exact Bool.eq_false_iff.2 fun hp => by simp [hp] at h
  · exact fun h => ((Reads.refl c).run_eq (fun _ hx => by cases hx) h).1

theorem Parallel.run_eq_nil {c c' d d' : Cursor} {p : Char → Bool} (h : Parallel d d' c c')
    (hend : Lookahead d'.rest d.rest) (hrun : c.run p = []) : c'.run p = [] :=
  run_eq_nil_iff.2 fun ch hch => run_eq_nil_iff.1 hrun ch (h.lookahead hend ch hch)

end Cursor

open Cursor

/-! ## Mirrored rules -/

/-- The same outcome at another cursor. -/
def Outcome.moveTo (d : Cursor) : Outcome → Outcome
  | .matched e _ => .matched e d
  | .stopped _ => .stopped d
  | .tooDeep _ => .tooDeep d

namespace Rule

/-- Up to parallel ends, `rule'` follows `rule` as long as that does not give up. -/
def Mirrors (rule rule' : Rule) : Prop :=
  ∀ ⦃c c' d d' : Cursor⦄, Lookahead d'.rest d.rest → Parallel d d' c c' →
    (rule c).cursor.Before d → (∀ k, rule c ≠ .tooDeep k) →
      ∃ m, rule' c' = (rule c).moveTo m ∧ Parallel d d' (rule c).cursor m

section

variable {rule rule' : Rule} {c c' d d' k : Cursor}

theorem Mirrors.matched {e : Expr} (h : rule.Mirrors rule') (hend : Lookahead d'.rest d.rest)
    (hc : Parallel d d' c c') (hr : rule c = .matched e k) (hk : k.Before d) :
    ∃ k', rule' c' = .matched e k' ∧ Parallel d d' k k' := by
  have hmirror := h hend hc
  rw [hr] at hmirror
  exact hmirror hk fun _ hdeep => by cases hdeep

theorem Mirrors.stopped (h : rule.Mirrors rule') (hend : Lookahead d'.rest d.rest)
    (hc : Parallel d d' c c') (hr : rule c = .stopped k) (hk : k.Before d) :
    ∃ k', rule' c' = .stopped k' ∧ Parallel d d' k k' := by
  have hmirror := h hend hc
  rw [hr] at hmirror
  exact hmirror hk fun _ hdeep => by cases hdeep

end

/-! ## Atoms -/

/-- A token that ends before `d` is the same at the parallel cursor. -/
theorem run_eq_of_token {p : Char → Bool} {node : List Char → Int → Expr} {c c' d d' : Cursor}
    (hend : Lookahead d'.rest d.rest) (hc : Parallel d d' c c') (hrun : c.run p ≠ [])
    (hcursor : (token p node c).cursor.Before d) :
    c'.run p = c.run p ∧ Parallel d d' (c.skip p).skipBlanks (c'.skip p).skipBlanks := by
  rw [token_of_run_ne hrun] at hcursor
  obtain ⟨hrun', hskip⟩ := hc.skip hend ((before_skipBlanks _).trans hcursor)
  exact ⟨hrun', hskip.skipBlanks hend hcursor⟩

theorem token_mirrors (p : Char → Bool) (node : List Char → Int → Expr) :
    (token p node).Mirrors (token p node) := by
  intro c c' d d' hend hc hcursor _
  by_cases hrun : c.run p = []
  · rw [token_of_run_nil hrun, token_of_run_nil (hc.run_eq_nil hend hrun)]
    exact ⟨c', rfl, hc⟩
  · obtain ⟨hrun', hskip⟩ := run_eq_of_token hend hc hrun hcursor
    rw [token_of_run_ne hrun, token_of_run_ne (hrun' ▸ hrun), hrun', hc.1]
    exact ⟨_, rfl, hskip⟩

variable {inner inner' : Rule} {depth depth' : Nat}

theorem parenthesized_mirrors (h : inner.Mirrors inner') (hinner : inner.Advances) :
    (parenthesized inner).Mirrors (parenthesized inner') := by
  intro c c' d d' hend hc hcursor hdeep
  by_cases hopen : c.peek = some '('
  · -- what stands in the parentheses begins at parallel cursors if it ends before `d`
    have hstart : (inner (c.advance 1).skipBlanks).cursor.Before d →
        c'.peek = some '(' ∧ Parallel d d' (c.advance 1).skipBlanks (c'.advance 1).skipBlanks :=
      fun hi => hc.advanceBlanks hend hopen ((hinner _).trans hi)
    cases hi : inner (c.advance 1).skipBlanks with
    | matched e k =>
        simp only [parenthesized, if_pos hopen, hi] at hcursor ⊢
        rw [hi] at hstart
        by_cases hclose : k.peek = some ')'
        · rw [if_pos hclose] at hcursor ⊢
          have hk : k.Before d := Before.trans ⟨_, reads_advance_one hclose⟩
            ((before_skipBlanks _).trans hcursor)
          obtain ⟨hopen', hstart⟩ := hstart hk
          obtain ⟨k', hi', hk'⟩ := h.matched hend hstart hi hk
          obtain ⟨hclose', hm⟩ := hk'.advanceBlanks hend hclose hcursor
          rw [if_pos hopen', hi']
          exact ⟨_, if_pos hclose', hm⟩
        · rw [if_neg hclose] at hcursor ⊢
          obtain ⟨hopen', hstart⟩ := hstart hcursor
          obtain ⟨k', hi', hk'⟩ := h.matched hend hstart hi hcursor
          rw [if_pos hopen', hi']
          exact ⟨k', if_neg (hk'.peek_ne hend hclose), hk'⟩
    | stopped k =>
        simp only [parenthesized, if_pos hopen, hi] at hcursor ⊢
        rw [hi] at hstart
        obtain ⟨hopen', hstart⟩ := hstart hcursor
        obtain ⟨k', hi', hk'⟩ := h.stopped hend hstart hi hcursor
        rw [if_pos hopen', hi']
        exact ⟨k', rfl, hk'⟩
    | tooDeep k =>
        exact absurd (by simp only [parenthesized, if_pos hopen, hi]) (hdeep k)
  · simp only [parenthesized, if_neg hopen, if_neg (hc.peek_ne hend hopen)]
    exact ⟨c', rfl, hc⟩

/-- A call goes on in the same way once its keyword has been read. -/
theorem call_mirrors (h : inner.Mirrors inner') (hinner : inner.Fits .expression depth)
    {c c' d d' : Cursor} (hend : Lookahead d'.rest d.rest) (hc : Parallel d d' c c')
    (hkeyword : keyword? c ≠ none) (hcursor : (call inner c).cursor.Before d)
    (hdeep : ∀ k, call inner c ≠ .tooDeep k) :
    keyword? c' ≠ none ∧
      ∃ m, call inner' c' = (call inner c).moveTo m ∧ Parallel d d' (call inner c).cursor m := by
  obtain ⟨⟨func, k⟩, hk⟩ := Option.ne_none_iff_exists'.1 hkeyword
  have hgroup := parenthesized_mirrors h hinner.advances
  have hstart : (parenthesized inner k.skipBlanks).cursor.Before d →
      ∃ k', keyword? c' = some (func, k') ∧ Parallel d d' k.skipBlanks k'.skipBlanks := by
    intro hg
    have hskip := ((parenthesized_fits hinner).advances k.skipBlanks).trans hg
    obtain ⟨k', hread, hk'⟩ := hc.reads (keyword?_eq_some hk) ((before_skipBlanks k).trans hskip)
    exact ⟨k', keyword?_of_reads hread, hk'.skipBlanks hend hskip⟩
  cases hg : parenthesized inner k.skipBlanks with
  | matched e m =>
      simp only [call, hk, hg] at hcursor ⊢
      rw [hg] at hstart
      obtain ⟨k', hkeyword', hk'⟩ := hstart hcursor
      obtain ⟨m', hg', hm'⟩ := hgroup.matched hend hk' hg hcursor
      simp only [hkeyword', hg', hc.1]
      exact ⟨Option.some_ne_none _, m', rfl, hm'⟩
  | stopped m =>
      simp only [call, hk, hg] at hcursor ⊢
      rw [hg] at hstart
      obtain ⟨k', hkeyword', hk'⟩ := hstart hcursor
      obtain ⟨m', hg', hm'⟩ := hgroup.stopped hend hk' hg hcursor
      simp only [hkeyword', hg']
      exact ⟨Option.some_ne_none _, m', rfl, hm'⟩
  | tooDeep m => exact absurd (by simp only [call, hk, hg]) (hdeep m)

theorem atom_mirrors (h : inner.Mirrors inner') (hinner : inner.Fits .expression depth)
    (hinner' : inner'.Fits .expression depth') : (atom inner).Mirrors (atom inner') := by
  intro c c' d d' hend hc hcursor hdeep
  by_cases hdigits : c.run Char.isDigit = []
  · have hdigits' := hc.run_eq_nil hend hdigits
    by_cases hkeyword : keyword? c = none
    · by_cases hletters : c.run isLetter = []
      · have hletters' := hc.run_eq_nil hend hletters
        have hkeyword' : keyword? c' = none := by
          rw [keyword?_eq_none_iff_run] at hkeyword ⊢
          rwa [hletters', ← hletters]
        rw [atom_of_other hdigits hkeyword hletters] at hcursor hdeep ⊢
        rw [atom_of_other hdigits' hkeyword' hletters']
        exact parenthesized_mirrors h hinner.advances hend hc hcursor hdeep
      · -- the whole run of letters is read, so no keyword begins at the other cursor either
        rw [atom_of_letters hdigits hkeyword hletters, name_eq_token] at hcursor hdeep ⊢
        obtain ⟨hrun, -⟩ := run_eq_of_token hend hc hletters hcursor
        have hkeyword' : keyword? c' = none := by
          rw [keyword?_eq_none_iff_run] at hkeyword ⊢
          rwa [hrun]
        rw [atom_of_letters hdigits' hkeyword' (hrun ▸ hletters), name_eq_token]
        exact token_mirrors _ _ hend hc hcursor hdeep
    · rw [atom_of_keyword hinner hdigits hkeyword] at hcursor hdeep ⊢
      obtain ⟨hkeyword', hcall⟩ := call_mirrors h hinner hend hc hkeyword hcursor hdeep
      rw [atom_of_keyword hinner' hdigits' hkeyword']
      exact hcall
  · rw [atom_of_digits hdigits, literal_eq_token] at hcursor hdeep ⊢
    obtain ⟨hrun, -⟩ := run_eq_of_token hend hc hdigits hcursor
    rw [atom_of_digits (hrun ▸ hdigits), literal_eq_token]
    exact token_mirrors _ _ hend hc hcursor hdeep

/-! ## Chains -/

section

variable {operand operand' : Rule} {operator? : Char → Option BinOp}

theorem Rounds.before (hoperand : operand.Advances) {lhs : Expr} {c : Cursor} {outcome : Outcome}
    (h : Rounds operand operator? lhs c outcome) : c.Before outcome.cursor := by
  induction h with
  | done _ => exact .refl _
  | next hop hr _ ih =>
      obtain ⟨_, _, _, _, hread⟩ := reads_operator hop
      exact (Before.trans ⟨_, hread⟩ (hoperand.before hr)).trans ih
  | stop hop hr =>
      obtain ⟨_, _, _, _, hread⟩ := reads_operator hop
      exact Before.trans ⟨_, hread⟩ (hoperand.before hr)
  | deep hop hr =>
      obtain ⟨_, _, _, _, hread⟩ := reads_operator hop
      exact Before.trans ⟨_, hread⟩ (hoperand.before hr)

/-- An operator that is read before `d` is read at the parallel cursor. -/
theorem operator_mirrors {op : BinOp} {c c' d d' : Cursor} (hend : Lookahead d'.rest d.rest)
    (hc : Parallel d d' c c') (hop : c.peek.bind operator? = some op)
    (hd : (c.advance 1).skipBlanks.Before d) :
    c'.peek.bind operator? = some op ∧
      Parallel d d' (c.advance 1).skipBlanks (c'.advance 1).skipBlanks := by
  obtain ⟨ch, hch, hop⟩ := Option.bind_eq_some_iff.1 hop
  obtain ⟨hch', hparallel⟩ := hc.advanceBlanks hend hch hd
  exact ⟨Option.bind_eq_some_iff.2 ⟨ch, hch', hop⟩, hparallel⟩

theorem Rounds.mirrors (h : operand.Mirrors operand') (hoperand : operand.Advances) {lhs : Expr}
    {c c' d d' : Cursor} {outcome : Outcome} (hrounds : Rounds operand operator? lhs c outcome)
    (hend : Lookahead d'.rest d.rest) (hc : Parallel d d' c c') (hcursor : outcome.cursor.Before d)
    (hdeep : ∀ k, outcome ≠ .tooDeep k) :
    ∃ m, Rounds operand' operator? lhs c' (outcome.moveTo m) ∧ Parallel d d' outcome.cursor m := by
  induction hrounds generalizing c' with
  | done hop =>
      refine ⟨c', .done ?_, hc⟩
      rw [Option.bind_eq_none_iff] at hop ⊢
      exact fun ch hch => hop ch (hc.lookahead hend ch hch)
  | next hop hr hrounds ih =>
      -- the operand ends before the rounds do
      have hk := (hrounds.before hoperand).trans hcursor
      obtain ⟨hop', hstart⟩ := operator_mirrors hend hc hop ((hoperand.before hr).trans hk)
      obtain ⟨k', hr', hk'⟩ := h.matched hend hstart hr hk
      obtain ⟨m, hrounds', hm⟩ := ih hk' hcursor hdeep
      exact ⟨m, .next hop' hr' hrounds', hm⟩
  | stop hop hr =>
      obtain ⟨hop', hstart⟩ := operator_mirrors hend hc hop ((hoperand.before hr).trans hcursor)
      obtain ⟨k', hr', hk'⟩ := h.stopped hend hstart hr hcursor
      exact ⟨k', .stop hop' hr', hk'⟩
  | deep _ _ => exact absurd rfl (hdeep _)

theorem chain_mirrors (h : operand.Mirrors operand') (hoperand : operand.Advances)
    (hoperand' : operand'.Advances) :
    (chain operand operator?).Mirrors (chain operand' operator?) := by
  intro c c' d d' hend hc hcursor hdeep
  cases hr : operand c with
  | matched lhs k =>
      have hrounds := (chain_eq_iff hoperand hr).1 (Eq.refl (chain operand operator? c))
      have hk := (hrounds.before hoperand).trans hcursor
      obtain ⟨k', hr', hk'⟩ := h.matched hend hc hr ((before_skipBlanks k).trans hk)
      obtain ⟨m, hrounds', hm⟩ :=
        hrounds.mirrors h hoperand hend (hk'.skipBlanks hend hk) hcursor hdeep
      exact ⟨m, (chain_eq_iff hoperand' hr').2 hrounds', hm⟩
  | stopped k =>
      simp only [chain, hr] at hcursor ⊢
      obtain ⟨k', hr', hk'⟩ := h.stopped hend hc hr hcursor
      rw [hr']
      exact ⟨k', rfl, hk'⟩
  | tooDeep k => exact absurd (by simp only [chain, hr]) (hdeep k)

end

/-- **One character of lookahead.** An expression with at least as much room follows, up to parallel
ends, an expression that does not give up. -/
theorem expression_mirrors {n m : Nat} (h : n ≤ m) : (expression n).Mirrors (expression m) := by
  induction n generalizing m with
  | zero =>
      -- without room an expression gives up at once
      exact fun c _ _ _ _ _ _ hdeep => absurd rfl (hdeep c)
  | succ n ih =>
      obtain ⟨m, rfl⟩ : ∃ k, m = k + 1 := ⟨m - 1, by omega⟩
      have hn := expression_fits n
      have hm := expression_fits m
      have hterm : (term (expression n)).Mirrors (term (expression m)) :=
        chain_mirrors (atom_mirrors (ih (by omega)) hn hm) (atom_fits hn).advances
          (atom_fits hm).advances
      exact chain_mirrors hterm (term_fits hn).advances (term_fits hm).advances

end Rule

end LiveFormula
