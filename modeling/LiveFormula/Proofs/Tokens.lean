import LiveFormula.Proofs.Encoding
import LiveFormula.Proofs.Location
import LiveFormula.Proofs.Recognition

/-!
# Leaves are tokens

The variables and literals of a formula are the longest runs of letters and of digits in its text,
the names of functions apart. `Grammar.LongestRun` says what such a run is; `Grammar.Lexes` cuts a
text into runs and other characters from left to right and keeps what the runs stand for.

* `Grammar.Lexes.mem_iff` — cutting finds every longest run.
* `Grammar.Lexes.pairwise_offset` — it finds them from left to right.
* `Grammar.DerivesAt.lexes` — the leaves of a tree are what cutting its text gives.
* `mem_leaves_iff_of_parse`, `pairwise_offset_of_parse` — the same for the tree of a text.
-/

set_option autoImplicit false

namespace LiveFormula

namespace Grammar

/-- The part of a text with `n` characters that begins at `q`. -/
def slice (text : List Char) (q n : Nat) : List Char := (text.drop q).take n

/-- From `q` on, exactly `n` characters of a text are of the class `p`, and the one before is
not. -/
structure LongestRun (p : Char → Bool) (text : List Char) (q n : Nat) : Prop where
  pos : 0 < n
  within : ∀ i, q ≤ i → i < q + n → ∃ c, text[i]? = some c ∧ p c = true
  before : ∀ i c, i + 1 = q → text[i]? = some c → p c = false
  after : ∀ c, text[q + n]? = some c → p c = false

/-- Where a longest run begins, there is only one. -/
theorem LongestRun.length_unique {p : Char → Bool} {text : List Char} {q n m : Nat}
    (hn : LongestRun p text q n) (hm : LongestRun p text q m) : n = m := by
  rcases Nat.lt_trichotomy n m with hlt | heq | hlt
  · obtain ⟨c, hc, hp⟩ := hm.within (q + n) (by omega) (by omega)
    rw [hn.after c hc] at hp
    cases hp
  · exact heq
  · obtain ⟨c, hc, hp⟩ := hn.within (q + m) (by omega) (by omega)
    rw [hm.after c hc] at hp
    cases hp

theorem LongestRun.length_slice {p : Char → Bool} {text : List Char} {q n : Nat}
    (h : LongestRun p text q n) : (slice text q n).length = n := by
  have hpos := h.pos
  obtain ⟨c, hc, -⟩ := h.within (q + n - 1) (by omega) (by omega)
  obtain ⟨hlt, -⟩ := List.getElem?_eq_some_iff.1 hc
  rw [slice, List.length_take, List.length_drop]
  omega

/-- The classes of characters that names and numbers are made of. -/
inductive CharClass
  | letters
  | digits
  deriving DecidableEq, Repr

namespace CharClass

def mem : CharClass → Char → Bool
  | letters => Char.isAlpha
  | digits => Char.isDigit

/-- The leaves that a run of a class at an offset stands for. The name of a function stands for
none. -/
def leaves : CharClass → Nat → List Char → List Expr
  | letters, q, w =>
    if w ∈ [Func.sin, .cos].map (fun func => func.name.toList) then []
    else [.var (String.ofList w) q]
  | digits, q, w => [.literal (Binary.ofNat (Nat.ofDigitChars 10 w 0)) q]

theorem eq_of_mem {k k' : CharClass} {c : Char} (h : k.mem c = true) (h' : k'.mem c = true) :
    k = k' := by
  cases k <;> cases k'
  · rfl
  · have hdigit : c.isDigit = false := Rule.isDigit_eq_false_of_isAlpha h
    rw [show c.isDigit = true from h'] at hdigit
    cases hdigit
  · have hdigit : c.isDigit = false := Rule.isDigit_eq_false_of_isAlpha h'
    rw [show c.isDigit = true from h] at hdigit
    cases hdigit
  · rfl

theorem leaves_name (func : Func) (q : Nat) : letters.leaves q func.name.toList = [] := by
  cases func <;> rfl

theorem leaves_letters {w : List Char} (h : ∀ func : Func, w ≠ func.name.toList) (q : Nat) :
    letters.leaves q w = [.var (String.ofList w) q] := by
  refine if_neg fun hw => ?_
  obtain ⟨func, -, hfunc⟩ := List.mem_map.1 hw
  exact h func hfunc.symm

theorem mem_leaves_letters {q : Nat} {w : List Char} {leaf : Expr} :
    leaf ∈ letters.leaves q w ↔
      (∀ func : Func, w ≠ func.name.toList) ∧ leaf = .var (String.ofList w) q := by
  by_cases hname : ∃ func : Func, w = func.name.toList
  · obtain ⟨func, rfl⟩ := hname
    rw [leaves_name]
    exact iff_of_false (by simp) fun h => h.1 func rfl
  · have hname : ∀ func : Func, w ≠ func.name.toList := fun func heq => hname ⟨func, heq⟩
    rw [leaves_letters hname, List.mem_singleton, and_iff_right hname]

theorem mem_leaves_digits {q : Nat} {w : List Char} {leaf : Expr} :
    leaf ∈ digits.leaves q w ↔ leaf = .literal (Binary.ofNat (Nat.ofDigitChars 10 w 0)) q :=
  List.mem_singleton

/-- A run stands for nothing, or for one leaf at its offset. -/
theorem leaves_eq (k : CharClass) (q : Nat) (w : List Char) :
    k.leaves q w = [] ∨ ∃ leaf, k.leaves q w = [leaf] ∧ leaf.offset = q := by
  cases k with
  | letters =>
      by_cases hw : w ∈ [Func.sin, .cos].map (fun func => func.name.toList)
      · exact .inl (if_pos hw)
      · exact .inr ⟨.var (String.ofList w) q, if_neg hw, rfl⟩
  | digits => exact .inr ⟨_, rfl, rfl⟩

theorem offset_of_mem_leaves {k : CharClass} {q : Nat} {w : List Char} {leaf : Expr}
    (h : leaf ∈ k.leaves q w) : leaf.offset = q := by
  rcases k.leaves_eq q w with hnone | ⟨leaf', hone, hoffset⟩
  · rw [hnone] at h
    cases h
  · rw [hone] at h
    rwa [List.mem_singleton.1 h]

end CharClass

/-- `Lexes q s leaves`: the text `s`, which begins at the offset `q`, is cut into longest runs and
characters of no class, and the runs stand for the leaves. -/
inductive Lexes : Nat → List Char → List Expr → Prop
  | nil {q : Nat} : Lexes q [] []
  | other {q : Nat} {c : Char} {s : List Char} {leaves : List Expr}
      (hc : ∀ k : CharClass, k.mem c = false) (h : Lexes (q + 1) s leaves) : Lexes q (c :: s) leaves
  | run {q : Nat} {w s : List Char} {leaves : List Expr} (k : CharClass) (hne : w ≠ [])
      (hw : ∀ c ∈ w, k.mem c = true) (hs : ∀ c, s.head? = some c → k.mem c = false)
      (h : Lexes (q + w.length) s leaves) : Lexes q (w ++ s) (k.leaves q w ++ leaves)

namespace Lexes

variable {q : Nat} {s t text : List Char} {leaves more : List Expr} {leaf : Expr}

/-! ## Cutting finds the longest runs -/

/-- No run of a class goes on at `q`. -/
def Fresh (text : List Char) (q : Nat) : Prop :=
  ∀ (k : CharClass) (i : Nat) (c c' : Char), i + 1 = q → text[i]? = some c → text[q]? = some c' →
    k.mem c = true → k.mem c' = false

/-- A run that is cut off is a longest one. -/
theorem longestRun_of_drop {k : CharClass} {w : List Char} (hdrop : text.drop q = w ++ s)
    (hfresh : Fresh text q) (hne : w ≠ []) (hw : ∀ c ∈ w, k.mem c = true)
    (hs : ∀ c, s.head? = some c → k.mem c = false) :
    LongestRun k.mem text q w.length ∧ slice text q w.length = w := by
  have hat : ∀ i, text[q + i]? = (w ++ s)[i]? := by
    intro i
    rw [← hdrop, List.getElem?_drop]
  have hpos : 0 < w.length := List.length_pos_iff.2 hne
  have hwithin : ∀ i, q ≤ i → i < q + w.length → ∃ c, text[i]? = some c ∧ k.mem c = true := by
    intro i hi hlt
    have hi' : i - q < w.length := by omega
    refine ⟨w[i - q], ?_, hw _ (List.getElem_mem hi')⟩
    have hi'' := hat (i - q)
    rwa [Nat.add_sub_of_le hi, List.getElem?_append_left hi', List.getElem?_eq_getElem hi'] at hi''
  refine ⟨⟨hpos, hwithin, ?_, ?_⟩, ?_⟩
  · intro i c hi hc
    obtain ⟨c', hc', hmem⟩ := hwithin q (Nat.le_refl q) (by omega)
    refine Bool.eq_false_iff.2 fun hk => ?_
    rw [hfresh k i c c' hi hc hc' hk] at hmem
    cases hmem
  · intro c hc
    rw [hat, List.getElem?_append_right (Nat.le_refl _), Nat.sub_self,
      ← List.head?_eq_getElem?] at hc
    exact hs c hc
  · rw [slice, hdrop, List.take_left]

/-- **Cutting finds every longest run.** -/
theorem mem_iff (h : Lexes q s leaves) (hdrop : text.drop q = s) (hfresh : Fresh text q) :
    leaf ∈ leaves ↔ ∃ (k : CharClass) (q' n : Nat), q ≤ q' ∧ LongestRun k.mem text q' n ∧
      leaf ∈ k.leaves q' (slice text q' n) := by
  induction h with
  | nil =>
      refine iff_of_false (by simp) ?_
      rintro ⟨k, q', n, hq, hrun, -⟩
      obtain ⟨c, hc, -⟩ := hrun.within q' (Nat.le_refl _) (by have := hrun.pos; omega)
      have hlength : text.length ≤ q' := Nat.le_trans (List.drop_eq_nil_iff.1 hdrop) hq
      rw [List.getElem?_eq_none hlength] at hc
      cases hc
  | @other q c s leaves hc h ih =>
      have hat : text[q]? = some c := by
        rw [← List.head?_drop, hdrop]
        rfl
      have hdrop' : text.drop (q + 1) = s := by
        rw [← List.drop_drop, hdrop]
        rfl
      have hfresh' : Fresh text (q + 1) := by
        intro k i x x' hi hx hx' hk
        obtain rfl : i = q := by omega
        rw [hat] at hx
        cases hx
        rw [hc k] at hk
        cases hk
      rw [ih hdrop' hfresh']
      constructor
      · rintro ⟨k, q', n, hq, hrun⟩
        exact ⟨k, q', n, by omega, hrun⟩
      · rintro ⟨k, q', n, hq, hrun, hleaf⟩
        refine ⟨k, q', n, Nat.lt_of_le_of_ne hq ?_, hrun, hleaf⟩
        rintro rfl
        obtain ⟨x, hx, hk⟩ := hrun.within q (Nat.le_refl _) (by have := hrun.pos; omega)
        rw [hat] at hx
        cases hx
        rw [hc k] at hk
        cases hk
  | @run q w s leaves k hne hw hs h ih =>
      obtain ⟨hlongest, hslice⟩ := longestRun_of_drop hdrop hfresh hne hw hs
      have hdrop' : text.drop (q + w.length) = s := by
        rw [← List.drop_drop, hdrop, List.drop_left]
      have hfresh' : Fresh text (q + w.length) := by
        intro k' i x x' hi hx hx' hk'
        have hpos := hlongest.pos
        obtain ⟨y, hy, hk⟩ := hlongest.within i (by omega) (by omega)
        rw [hx] at hy
        cases hy
        obtain rfl := CharClass.eq_of_mem hk hk'
        exact hlongest.after x' hx'
      rw [List.mem_append, ih hdrop' hfresh']
      constructor
      · rintro (hleaf | ⟨k', q', n, hq, hrun⟩)
        · exact ⟨k, q, w.length, Nat.le_refl _, hlongest, hslice.symm ▸ hleaf⟩
        · exact ⟨k', q', n, by omega, hrun⟩
      · rintro ⟨k', q', n, hq, hrun, hleaf⟩
        by_cases hlt : q' < q + w.length
        · -- a run that begins here is of the same class, and so is the same run
          have hpos := hrun.pos
          obtain ⟨x, hx, hk⟩ := hlongest.within q' hq hlt
          obtain ⟨y, hy, hk'⟩ := hrun.within q' (Nat.le_refl _) (by omega)
          rw [hx] at hy
          cases hy
          obtain rfl := CharClass.eq_of_mem hk hk'
          obtain rfl : q' = q := by
            refine Nat.le_antisymm (Nat.le_of_not_lt fun hgt => ?_) hq
            obtain ⟨y, hy, hky⟩ := hlongest.within (q' - 1) (by omega) (by omega)
            rw [hrun.before (q' - 1) y (by omega) hy] at hky
            cases hky
          rw [hrun.length_unique hlongest, hslice] at hleaf
          exact .inl hleaf
        · exact .inr ⟨k', q', n, by omega, hrun, hleaf⟩

/-- **Cutting finds the runs from left to right.** -/
theorem pairwise_offset (h : Lexes q s leaves) :
    leaves.Pairwise (fun a b => a.offset < b.offset) ∧
      ∀ leaf ∈ leaves, (q : Int) ≤ leaf.offset := by
  induction h with
  | nil => exact ⟨.nil, fun _ hleaf => by cases hleaf⟩
  | other _ _ ih =>
      refine ⟨ih.1, fun leaf hleaf => ?_⟩
      have := ih.2 leaf hleaf
      omega
  | @run q w s leaves k hne hw hs h ih =>
      have hpos : 0 < w.length := List.length_pos_iff.2 hne
      have hone : (k.leaves q w).Pairwise fun a b => a.offset < b.offset := by
        rcases k.leaves_eq q w with hnone | ⟨leaf, hone, -⟩
        · rw [hnone]
          exact .nil
        · rw [hone]
          exact List.pairwise_singleton _ _
      refine ⟨List.pairwise_append.2 ⟨hone, ih.1, fun a ha b hb => ?_⟩, fun leaf hleaf => ?_⟩
      · have hb' := ih.2 b hb
        rw [CharClass.offset_of_mem_leaves ha]
        omega
      · rcases List.mem_append.1 hleaf with hleaf | hleaf
        · exact (CharClass.offset_of_mem_leaves hleaf).ge
        · have := ih.2 leaf hleaf
          omega

/-! ## Putting texts together -/

/-- A text without characters of any class. -/
def Plain (t : List Char) : Prop := ∀ c ∈ t, ∀ k : CharClass, k.mem c = false

theorem plain_blank {gap : List Char} (h : Blank gap) : Plain gap := by
  have hblanks : ∀ c ∈ blanks, ∀ k : CharClass, k.mem c = false := by
    intro c hc k
    simp only [blanks, List.mem_cons, List.not_mem_nil, or_false] at hc
    rcases hc with rfl | rfl | rfl | rfl | rfl | rfl <;> cases k <;> rfl
  exact fun c hc => hblanks c (h c hc)

theorem plain_cons {c : Char} (hc : ∀ k : CharClass, k.mem c = false) (ht : Plain t) :
    Plain ([c] ++ t) := by
  intro x hx
  rcases List.mem_cons.1 hx with rfl | hx
  · exact hc
  · exact ht x hx

/-- Characters of no class stand for nothing. -/
theorem plain_append (ht : Plain t) (h : Lexes (q + t.length) s leaves) :
    Lexes q (t ++ s) leaves := by
  induction t generalizing q with
  | nil => exact h
  | cons c t ih =>
      refine .other (ht c List.mem_cons_self) (ih (fun x hx => ht x (List.mem_cons_of_mem _ hx)) ?_)
      rwa [Nat.add_assoc, Nat.add_comm 1]

/-- A text that begins with a character of no class, or is empty, can be cut by itself. -/
theorem append (h : Lexes q s leaves) (ht : Lexes (q + s.length) t more)
    (hsep : ∀ c, t.head? = some c → ∀ k : CharClass, k.mem c = false) :
    Lexes q (s ++ t) (leaves ++ more) := by
  induction h with
  | nil => exact ht
  | other hc _ ih =>
      refine .other hc (ih ?_)
      rwa [List.length_cons, Nat.add_comm _ 1, ← Nat.add_assoc] at ht
  | @run q w s leaves k hne hw hs h ih =>
      rw [List.append_assoc, List.append_assoc]
      refine .run k hne hw (fun c hc => ?_) (ih ?_)
      · cases s with
        | nil => exact hsep c hc k
        | cons x s => exact hs c hc
      · rwa [List.length_append, ← Nat.add_assoc] at ht

theorem append_plain (h : Lexes q s leaves) (ht : Plain t) : Lexes q (s ++ t) leaves := by
  have hnil : Lexes (q + s.length) (t ++ []) [] := plain_append ht .nil
  rw [List.append_nil] at hnil
  have happend := h.append hnil fun c hc => ht c (List.mem_of_head? hc)
  rwa [List.append_nil] at happend

/-- A token is the last thing that its text stands for. -/
theorem token {k : CharClass} {w gap : List Char} (hne : w ≠ [])
    (hw : ∀ c ∈ w, k.mem c = true) (hgap : Blank gap) : Lexes q (w ++ gap) (k.leaves q w) := by
  have hrun : Lexes q (w ++ []) (k.leaves q w ++ []) :=
    .run k hne hw (fun c hc => by cases hc) .nil
  rw [List.append_nil, List.append_nil] at hrun
  exact hrun.append_plain (plain_blank hgap)

end Lexes

theorem DerivesAt.group_head {p : Nat} {s : List Char} {e : Expr} (h : DerivesAt .group p s e) :
    s.head? = some '(' := by
  cases h with
  | group _ _ _ => rfl

/-- Two operands with an operator between them. -/
theorem Lexes.operation {p : Nat} {ch : Char} {s gap s' : List Char} {leaves more : List Expr}
    (hch : ∀ k : CharClass, k.mem ch = false) (hgap : Blank gap) (hl : Lexes p s leaves)
    (hr : Lexes (p + (s ++ ([ch] ++ gap)).length) s' more) :
    Lexes p (s ++ ([ch] ++ gap) ++ s') (leaves ++ more) := by
  rw [List.append_assoc]
  rw [List.length_append, ← Nat.add_assoc] at hr
  refine hl.append (plain_append (plain_cons hch (plain_blank hgap)) hr) fun c hc => ?_
  cases hc
  exact hch

/-- The symbol of an operator is of no class. -/
theorem mem_operator {ops : List BinOp} {ch : Char} {op : BinOp}
    (h : Rule.operatorIn? ops ch = some op) (k : CharClass) : k.mem ch = false := by
  obtain ⟨-, hsymbol⟩ := Rule.operatorIn?_eq_some_iff.1 h
  have hplain : ∀ c ∈ op.symbol.toList, k.mem c = false := by
    cases op <;> cases k <;> simp [BinOp.symbol, CharClass.mem]
  exact hplain ch (hsymbol ▸ List.mem_singleton_self ch)

/-- **Leaves are tokens.** The leaves of a tree are what its text stands for when it is cut. -/
theorem DerivesAt.lexes {symbol : Symbol} {p : Nat} {s : List Char} {e : Expr}
    (h : DerivesAt symbol p s e) : Lexes p s e.leaves := by
  induction h with
  | literal hne hdigits hgap => exact Lexes.token (k := .digits) hne hdigits hgap
  | @name p letters gap hne hletters hkeyword hgap =>
      have hname : ∀ func : Func, letters ≠ func.name.toList := by
        rintro func rfl
        exact hkeyword func (List.prefix_refl _)
      have htoken : Lexes p (letters ++ gap) (CharClass.letters.leaves p letters) :=
        Lexes.token hne hletters hgap
      rwa [CharClass.leaves_letters hname] at htoken
  | group hgap h hgap' ih =>
      have hopen : ∀ k : CharClass, k.mem '(' = false := by intro k; cases k <;> rfl
      have hclose : ∀ k : CharClass, k.mem ')' = false := by intro k; cases k <;> rfl
      exact Lexes.append_plain
        (Lexes.plain_append (Lexes.plain_cons hopen (Lexes.plain_blank hgap)) ih)
        (Lexes.plain_cons hclose (Lexes.plain_blank hgap'))
  | @call p gap s e func hgap h ih =>
      have hletters : ∀ c ∈ func.name.toList, CharClass.letters.mem c = true := by
        cases func <;> simp [Func.name, CharClass.mem]
      have hne : func.name.toList ≠ [] := by cases func <;> decide
      have hhead : ∀ c, (gap ++ s).head? = some c → CharClass.letters.mem c = false := by
        intro c hc
        cases gap with
        | nil =>
            rw [List.nil_append, h.group_head] at hc
            cases hc
            rfl
        | cons x gap =>
            cases hc
            exact Lexes.plain_blank hgap _ List.mem_cons_self _
      rw [List.length_append, ← Nat.add_assoc] at ih
      have hrun := Lexes.run .letters hne hletters hhead
        (Lexes.plain_append (Lexes.plain_blank hgap) ih)
      rwa [CharClass.leaves_name, List.nil_append, ← List.append_assoc] at hrun
  | atom _ _ ih => exact ih
  | factor _ ih => exact ih
  | product hop _ hgap _ ihl ihr => exact Lexes.operation (mem_operator hop) hgap ihl ihr
  | summand _ ih => exact ih
  | sum hop _ hgap _ ihl ihr => exact Lexes.operation (mem_operator hop) hgap ihl ihr

end Grammar

open Grammar

/-! ## The tree of a text -/

theorem lexes_of_parse {text : String} {tree : Expr} (h : parse text = .ok tree) :
    Lexes 0 text.toList tree.leaves := by
  obtain ⟨gap, s, hgap, htext, htree⟩ := derivesAt_of_parse h
  rw [htext]
  refine Lexes.plain_append (Lexes.plain_blank hgap) ?_
  rw [Nat.zero_add]
  exact htree.lexes

/-- The leaves of a tree are the tokens of its text. -/
theorem mem_leaves_iff_of_parse {text : String} {tree leaf : Expr} (h : parse text = .ok tree) :
    leaf ∈ tree.leaves ↔ ∃ (k : CharClass) (q n : Nat), LongestRun k.mem text.toList q n ∧
      leaf ∈ k.leaves q (slice text.toList q n) := by
  have hfresh : Lexes.Fresh text.toList 0 := fun _ i _ _ hi => by omega
  have hdrop : text.toList.drop 0 = text.toList := rfl
  rw [(lexes_of_parse h).mem_iff hdrop hfresh]
  simp only [Nat.zero_le, true_and]

/-- The offsets of the leaves increase from left to right. -/
theorem pairwise_offset_of_parse {text : String} {tree : Expr} (h : parse text = .ok tree) :
    tree.leaves.Pairwise (fun a b => a.offset < b.offset) :=
  (lexes_of_parse h).pairwise_offset.1

section

variable {text : String} {tree : Expr} (h : parse text = .ok tree)
include h

/-- A variable of the tree is a longest run of letters. -/
theorem longestRun_of_var {name : String} {offset : Int} (hmem : .var name offset ∈ tree.leaves) :
    ∃ q : Nat, offset = q ∧ LongestRun Char.isAlpha text.toList q name.length ∧
      slice text.toList q name.length = name.toList := by
  obtain ⟨k, q, n, hrun, hleaf⟩ := (mem_leaves_iff_of_parse h).1 hmem
  cases k with
  | letters =>
      obtain ⟨-, hvar⟩ := CharClass.mem_leaves_letters.1 hleaf
      cases hvar
      have hlength : (String.ofList (slice text.toList q n)).length = n := by
        rw [String.length_ofList, hrun.length_slice]
      rw [hlength, String.toList_ofList]
      exact ⟨q, rfl, hrun, rfl⟩
  | digits => cases CharClass.mem_leaves_digits.1 hleaf

/-- A literal of the tree is a longest run of digits. -/
theorem longestRun_of_literal {x : Double} {offset : Int}
    (hmem : .literal x offset ∈ tree.leaves) :
    ∃ q n : Nat, offset = q ∧ LongestRun Char.isDigit text.toList q n ∧
      x = Binary.ofNat (Nat.ofDigitChars 10 (slice text.toList q n) 0) := by
  obtain ⟨k, q, n, hrun, hleaf⟩ := (mem_leaves_iff_of_parse h).1 hmem
  cases k with
  | letters => cases (CharClass.mem_leaves_letters.1 hleaf).2
  | digits =>
      cases CharClass.mem_leaves_digits.1 hleaf
      exact ⟨q, n, rfl, hrun, rfl⟩

/-- A longest run of letters is a variable of the tree, unless it is the name of a function. -/
theorem var_of_longestRun {q n : Nat} (hrun : LongestRun Char.isAlpha text.toList q n) :
    (∃ func : Func, slice text.toList q n = func.name.toList) ∨
      .var (String.ofList (slice text.toList q n)) q ∈ tree.leaves := by
  by_cases hname : ∃ func : Func, slice text.toList q n = func.name.toList
  · exact .inl hname
  · exact .inr ((mem_leaves_iff_of_parse h).2 ⟨.letters, q, n, hrun,
      CharClass.mem_leaves_letters.2 ⟨fun func heq => hname ⟨func, heq⟩, rfl⟩⟩)

/-- A longest run of digits is a literal of the tree. -/
theorem literal_of_longestRun {q n : Nat} (hrun : LongestRun Char.isDigit text.toList q n) :
    .literal (Binary.ofNat (Nat.ofDigitChars 10 (slice text.toList q n) 0)) q ∈ tree.leaves :=
  (mem_leaves_iff_of_parse h).2 ⟨.digits, q, n, hrun, List.mem_cons_self⟩

end

end LiveFormula
