import LiveFormula.Proofs.Tokens

/-!
# Where the nodes of a tree stand

Every node of the tree of a formula carries an offset. That of a leaf or a call is the place of its
own token, and that of an operation is the offset of its left operand, so that parentheses and blanks
are never pointed at. Leaves and calls are listed in the order of their tokens by `Expr.tokens`.

* `Expr.tokens_perm` — leaves and calls are the nodes with a token of their own.
* `Grammar.DerivesAt.increasing` — their offsets increase along the text that is derived.
* `Grammar.DerivesAt.placed` — calls stand at the names of their functions, and operations where their
  left operands do.
* `parse_records_offsets` — the offsets in the tree of a text.
-/

set_option autoImplicit false

namespace LiveFormula

/-! ## Nodes with a token -/

namespace Expr

/-- Whether a node has a token of its own. An operation has none: it begins where its left operand
does. -/
def hasToken : Expr → Bool
  | binary _ _ _ _ => false
  | _ => true

/-- The nodes with a token of their own, in the order of the text. -/
def tokens : Expr → List Expr
  | var name offset => [var name offset]
  | literal x offset => [literal x offset]
  | binary _ l r _ => l.tokens ++ r.tokens
  | call func a offset => call func a offset :: a.tokens

theorem tokens_perm (e : Expr) : e.tokens.Perm (e.listing.filter hasToken) := by
  induction e with
  | var name offset => exact .refl _
  | literal x offset => exact .refl _
  | binary op l r offset ihl ihr =>
      simpa [tokens, listing, hasToken] using ihl.append ihr
  | call func a offset ih =>
      rw [tokens, listing, List.filter_append]
      exact (ih.cons _).trans (List.perm_append_singleton _ _).symm

/-- The offsets of the nodes increase from `p` on and stay below `q`. -/
def Increasing (p q : Nat) (nodes : List Expr) : Prop :=
  nodes.Pairwise (fun a b => a.offset < b.offset) ∧
    ∀ node ∈ nodes, (p : Int) ≤ node.offset ∧ node.offset < q

namespace Increasing

variable {p q p' q' : Nat} {nodes more : List Expr} {node : Expr}

theorem singleton (hp : node.offset = p) (hq : p < q) : Increasing p q [node] := by
  refine ⟨List.pairwise_singleton _ _, fun other hother => ?_⟩
  obtain rfl := List.mem_singleton.1 hother
  omega

theorem widen (h : Increasing p q nodes) (hp : p' ≤ p) (hq : q ≤ q') : Increasing p' q' nodes := by
  refine ⟨h.1, fun node hnode => ?_⟩
  have := h.2 node hnode
  omega

/-- The nodes of a text, and those of the text behind it. -/
theorem append {s t : List Char} (h : Increasing p (p + s.length) nodes)
    (hmore : Increasing (p + s.length) (p + s.length + t.length) more) :
    Increasing p (p + (s ++ t).length) (nodes ++ more) := by
  rw [List.length_append, ← Nat.add_assoc]
  have hleft := h.widen (Nat.le_refl p) (Nat.le_add_right _ t.length)
  have hright := hmore.widen (Nat.le_add_right p s.length) (Nat.le_refl _)
  refine ⟨List.pairwise_append.2 ⟨h.1, hmore.1, fun a ha b hb => ?_⟩, fun node hnode => ?_⟩
  · have hbelow := (h.2 a ha).2
    have habove := (hmore.2 b hb).1
    omega
  · exact (List.mem_append.1 hnode).elim (hleft.2 node) (hright.2 node)

/-- No two nodes have the same offset. -/
theorem nodup (h : Increasing p q nodes) : (nodes.map offset).Nodup :=
  List.pairwise_map.2 (h.1.imp Int.ne_of_lt)

end Increasing

/-- One node stands at each offset. -/
theorem filter_offset {nodes : List Expr} {node : Expr}
    (h : nodes.Pairwise fun a b => a.offset < b.offset) (hnode : node ∈ nodes) :
    nodes.filter (fun other => other.offset = node.offset) = [node] := by
  induction nodes with
  | nil => cases hnode
  | cons first nodes ih =>
      obtain ⟨hfirst, hrest⟩ := List.pairwise_cons.1 h
      rcases List.mem_cons.1 hnode with rfl | hnode
      · rw [List.filter_cons_of_pos (by simp), List.filter_eq_nil_iff.2]
        intro other hother
        have := hfirst other hother
        simp only [decide_eq_true_eq]
        omega
      · have hlt := hfirst node hnode
        rw [List.filter_cons_of_neg (by simp only [decide_eq_true_eq]; omega), ih hrest hnode]

end Expr

namespace Grammar

/-- A name stands in a text at an offset, with no letters around it. -/
def NamedAt (text : List Char) (name : String) (offset : Int) : Prop :=
  ∃ q : Nat, offset = q ∧ LongestRun Char.isAlpha text q name.length ∧
    slice text q name.length = name.toList

/-- The place of a node in a text. -/
def Placed (text : List Char) : Expr → Prop
  | .var name offset => NamedAt text name offset
  | .literal x offset =>
    ∃ q n : Nat, offset = q ∧ LongestRun Char.isDigit text q n ∧
      Binary.IsRounded (Nat.ofDigitChars 10 (slice text q n) 0) x
  | .binary _ l _ offset => offset = l.offset
  | .call func _ offset => NamedAt text func.name offset

/-! ## Order -/

/-- A token takes at least one character. -/
theorem lt_add_length {p : Nat} {w gap : List Char} (hne : w ≠ []) :
    p < p + (w ++ gap).length := by
  have hpos : 0 < w.length := List.length_pos_iff.2 hne
  rw [List.length_append]
  omega

theorem name_ne_nil (func : Func) : func.name.toList ≠ [] := by cases func <;> decide

/-- The tokens of a tree increase along the text that it is derived from. -/
theorem DerivesAt.increasing {symbol : Symbol} {p : Nat} {s : List Char} {e : Expr}
    (h : DerivesAt symbol p s e) : Expr.Increasing p (p + s.length) e.tokens := by
  induction h with
  | literal hne _ _ => exact .singleton rfl (lt_add_length hne)
  | name hne _ _ _ => exact .singleton rfl (lt_add_length hne)
  | group hgap h hgap' ih =>
      refine ih.widen (Nat.le_add_right _ _) ?_
      simp only [List.length_append]
      omega
  | @call p gap s e func hgap h ih =>
      have hname : Expr.Increasing p (p + (func.name.toList ++ gap).length) [.call func e p] :=
        .singleton rfl (lt_add_length (name_ne_nil func))
      exact hname.append ih
  | atom _ _ ih => exact ih
  | factor _ ih => exact ih
  | product _ _ _ _ ihl ihr => exact (ihl.widen (Nat.le_refl _) (by simp)).append ihr
  | summand _ ih => exact ih
  | sum _ _ _ _ ihl ihr => exact (ihl.widen (Nat.le_refl _) (by simp)).append ihr

/-! ## Names of functions -/

namespace Lexes

variable {text t rest : List Char} {p : Nat}

theorem drop_add_length (h : text.drop p = t ++ rest) : text.drop (p + t.length) = rest := by
  rw [← List.drop_drop, h, List.drop_left]

/-- No run goes on at a character of no class. -/
theorem fresh_of_head {c : Char} (h : (text.drop p).head? = some c)
    (hc : ∀ k : CharClass, k.mem c = false) : Fresh text p := by
  intro k i x x' _ _ hx' _
  rw [← List.head?_drop, h] at hx'
  cases hx'
  exact hc k

/-- No run goes on behind characters of no class. -/
theorem Fresh.add_length (hfresh : Fresh text p) (h : text.drop p = t ++ rest) (ht : Plain t) :
    Fresh text (p + t.length) := by
  intro k i c c' hi hc hc' hk
  by_cases hne : t = []
  · subst hne
    exact hfresh k i c c' hi hc hc' hk
  · have hpos : 0 < t.length := List.length_pos_iff.2 hne
    obtain rfl : i = p + (t.length - 1) := by omega
    rw [← List.getElem?_drop, h, List.getElem?_append_left (by omega)] at hc
    rw [ht c (List.mem_of_getElem? hc) k] at hk
    cases hk

/-- The right operand of an operator stands where no run goes on. -/
theorem fresh_of_operation {ch : Char} {s gap s' : List Char}
    (hch : ∀ k : CharClass, k.mem ch = false) (hgap : Blank gap)
    (h : text.drop p = s ++ ([ch] ++ gap) ++ s' ++ rest) :
    text.drop (p + (s ++ ([ch] ++ gap)).length) = s' ++ rest ∧
      Fresh text (p + (s ++ ([ch] ++ gap)).length) := by
  rw [List.append_assoc] at h
  refine ⟨drop_add_length h, ?_⟩
  rw [List.append_assoc] at h
  have hoperator := drop_add_length h
  have hfresh : Fresh text (p + s.length) := fresh_of_head (by rw [hoperator]; rfl) hch
  rw [List.length_append, ← Nat.add_assoc]
  exact hfresh.add_length hoperator (plain_cons hch (plain_blank hgap))

end Lexes

theorem mem_parenthesis (k : CharClass) : k.mem '(' = false := by cases k <;> rfl

/-- What stands behind the name of a function ends it. -/
theorem DerivesAt.mem_head {p : Nat} {gap s rest : List Char} {e : Expr} {c : Char}
    (h : DerivesAt .group p s e) (hgap : Blank gap) (hc : (gap ++ (s ++ rest)).head? = some c)
    (k : CharClass) : k.mem c = false := by
  cases gap with
  | nil =>
      rw [List.nil_append, List.head?_append, h.group_head] at hc
      cases hc
      exact mem_parenthesis k
  | cons x gap =>
      cases hc
      exact Lexes.plain_blank hgap _ List.mem_cons_self k

/-- A call stands at the name of its function. -/
theorem DerivesAt.namedAt_of_call {p : Nat} {gap s text rest : List Char} {e : Expr} {func : Func}
    (h : DerivesAt .group (p + (func.name.toList ++ gap).length) s e) (hgap : Blank gap)
    (hdrop : text.drop p = func.name.toList ++ gap ++ s ++ rest) (hfresh : Lexes.Fresh text p) :
    NamedAt text func.name p := by
  have hletters : ∀ c ∈ func.name.toList, CharClass.letters.mem c = true := by
    cases func <;> simp [Func.name, CharClass.mem]
  rw [List.append_assoc, List.append_assoc] at hdrop
  exact ⟨p, rfl, Lexes.longestRun_of_drop hdrop hfresh (name_ne_nil func) hletters
    fun c hc => h.mem_head hgap hc .letters⟩

/-- An operation has its place where its left operand has. -/
theorem placed_binary {text : List Char} {op : BinOp} {l r : Expr}
    (hl : (∀ leaf ∈ l.leaves, Placed text leaf) → ∀ node ∈ l.listing, Placed text node)
    (hr : (∀ leaf ∈ r.leaves, Placed text leaf) → ∀ node ∈ r.listing, Placed text node)
    (hleaves : ∀ leaf ∈ l.leaves ++ r.leaves, Placed text leaf) :
    ∀ node ∈ (Expr.binary op l r l.offset).listing, Placed text node := by
  rw [List.forall_mem_append] at hleaves
  rw [Expr.listing, List.forall_mem_append, List.forall_mem_append, List.forall_mem_singleton]
  exact ⟨⟨hl hleaves.1, hr hleaves.2⟩, rfl⟩

/-- If the leaves of a tree have their places in the text, all nodes have. -/
theorem DerivesAt.placed {symbol : Symbol} {p : Nat} {s text rest : List Char} {e : Expr}
    (h : DerivesAt symbol p s e) (hdrop : text.drop p = s ++ rest) (hfresh : Lexes.Fresh text p)
    (hleaves : ∀ leaf ∈ e.leaves, Placed text leaf) : ∀ node ∈ e.listing, Placed text node := by
  induction h generalizing rest with
  | literal _ _ _ => exact hleaves
  | name _ _ _ _ => exact hleaves
  | group hgap h hgap' ih =>
      rw [List.append_assoc, List.append_assoc] at hdrop
      exact ih (Lexes.drop_add_length hdrop) (hfresh.add_length hdrop
        (Lexes.plain_cons mem_parenthesis (Lexes.plain_blank hgap))) hleaves
  | call func hgap h ih =>
      have hinner := hdrop
      rw [List.append_assoc] at hinner
      have hinner := Lexes.drop_add_length hinner
      have hopen : Lexes.Fresh text _ :=
        Lexes.fresh_of_head (by rw [hinner, List.head?_append, h.group_head]; rfl) mem_parenthesis
      intro node hnode
      rcases List.mem_append.1 hnode with hnode | hnode
      · exact ih hinner hopen hleaves node hnode
      · obtain rfl := List.mem_singleton.1 hnode
        exact h.namedAt_of_call hgap hdrop hfresh
  | atom _ _ ih => exact ih hdrop hfresh hleaves
  | factor _ ih => exact ih hdrop hfresh hleaves
  | product hop _ hgap _ ihl ihr =>
      obtain ⟨hright, hfresh'⟩ := Lexes.fresh_of_operation (mem_operator hop) hgap hdrop
      rw [List.append_assoc, List.append_assoc] at hdrop
      exact placed_binary (ihl hdrop hfresh) (ihr hright hfresh') hleaves
  | summand _ ih => exact ih hdrop hfresh hleaves
  | sum hop _ hgap _ ihl ihr =>
      obtain ⟨hright, hfresh'⟩ := Lexes.fresh_of_operation (mem_operator hop) hgap hdrop
      rw [List.append_assoc, List.append_assoc] at hdrop
      exact placed_binary (ihl hdrop hfresh) (ihr hright hfresh') hleaves

end Grammar

open Grammar

/-! ## The tree of a text -/

section

variable {text : String} {tree : Expr} (h : parse text = .ok tree)
include h

/-- No two tokens of the tree have the same offset. -/
theorem nodup_offset_of_parse : ((tree.listing.filter Expr.hasToken).map Expr.offset).Nodup := by
  obtain ⟨gap, s, -, -, htree⟩ := derivesAt_of_parse h
  exact (tree.tokens_perm.map Expr.offset).nodup htree.increasing.nodup

theorem placed_of_mem_leaves {leaf : Expr} (hmem : leaf ∈ tree.leaves) : Placed text.toList leaf := by
  obtain ⟨k, q, n, hrun, hleaf⟩ := (mem_leaves_iff_of_parse h).1 hmem
  cases k with
  | letters =>
      obtain ⟨-, rfl⟩ := CharClass.mem_leaves_letters.1 hleaf
      exact longestRun_of_var h hmem
  | digits =>
      obtain rfl := CharClass.mem_leaves_digits.1 hleaf
      exact ⟨q, n, rfl, hrun, Binary.isRounded_double_iff.2 rfl⟩

/-- Every node has its place in the text. -/
theorem placed_of_parse {node : Expr} (hmem : node ∈ tree.listing) : Placed text.toList node := by
  obtain ⟨gap, s, hgap, htext, htree⟩ := derivesAt_of_parse h
  have hdrop : text.toList.drop 0 = gap ++ s := htext
  have hfresh : Lexes.Fresh text.toList 0 := fun _ i _ _ hi => by omega
  have hbehind := hfresh.add_length hdrop (Lexes.plain_blank hgap)
  have hrest := Lexes.drop_add_length hdrop
  rw [Nat.zero_add] at hbehind hrest
  exact htree.placed (hrest.trans (List.append_nil s).symm) hbehind
    (fun _ => placed_of_mem_leaves h) node hmem

end

/-- **Offsets of the nodes.** In the tree of a text a variable stands where a longest run of letters
begins that is its name, a literal where a longest run of digits begins whose number is rounded to its
value, a call where a longest run of letters begins that is the name of its function, and an operation
where its left operand does. No two leaves or calls stand at the same offset, and the offsets of the
leaves increase from left to right. Every longest run of letters that is not the name of a function,
and every longest run of digits, is one leaf, and no other leaf stands there. -/
theorem parse_records_offsets (text : String) (tree : Expr) (h : parse text = .ok tree) :
    (∀ node ∈ tree.listing, Placed text.toList node) ∧
    ((tree.listing.filter Expr.hasToken).map Expr.offset).Nodup ∧
    tree.leaves.Pairwise (fun a b => a.offset < b.offset) ∧
    (∀ q n, LongestRun Char.isAlpha text.toList q n →
      (∀ func : Func, slice text.toList q n ≠ func.name.toList) →
      tree.leaves.filter (fun leaf : Expr => leaf.offset = q) =
        [.var (String.ofList (slice text.toList q n)) q]) ∧
    ∀ q n, LongestRun Char.isDigit text.toList q n →
      ∃ x, Binary.IsRounded (Nat.ofDigitChars 10 (slice text.toList q n) 0) x ∧
        tree.leaves.filter (fun leaf : Expr => leaf.offset = q) = [.literal x q] := by
  have hsorted := pairwise_offset_of_parse h
  refine ⟨fun node => placed_of_parse h, nodup_offset_of_parse h, hsorted, ?_, ?_⟩
  · intro q n hrun hname
    rcases var_of_longestRun h hrun with ⟨func, hfunc⟩ | hmem
    · exact absurd hfunc (hname func)
    · exact Expr.filter_offset hsorted hmem
  · intro q n hrun
    exact ⟨_, Binary.isRounded_double_iff.2 rfl,
      Expr.filter_offset hsorted (literal_of_longestRun h hrun)⟩

/-- The call stands at `sin` and not at the parenthesis before it, and the two operations stand at
`2`. -/
theorem parse_records_offsets_grouped :
    let text := " (2 * (sin ( u))) - foo"
    let call : Expr := .call .sin (.var "u" 13) 7
    let tree : Expr :=
      .binary .sub (.binary .mul (.literal (Binary.ofNat 2) 2) call 2) (.var "foo" 20) 2
    parse text = .ok tree ∧ call ∈ tree.listing ∧ NamedAt text.toList "sin" 7 ∧
      ([2, 13, 7, 20] : List Int).Nodup ∧
      LongestRun Char.isAlpha text.toList 20 3 ∧
      tree.leaves.filter (fun leaf : Expr => leaf.offset = (20 : Nat)) = [.var "foo" 20] := by
  intro text call tree
  have hparse : parse text = .ok tree := by decide +kernel
  obtain ⟨hplaced, hnodup, -, hletters, -⟩ := parse_records_offsets text tree hparse
  have hcall : call ∈ tree.listing := by simp [tree, call, Expr.listing]
  obtain ⟨q, hq, hrun, hslice⟩ := hplaced (.var "foo" 20) (by simp [tree, Expr.listing])
  obtain rfl : 20 = q := Int.ofNat.inj hq
  have hfoo : slice text.toList 20 3 = "foo".toList := hslice
  have hname : ∀ func : Func, slice text.toList 20 3 ≠ func.name.toList := by
    intro func
    rw [hfoo]
    cases func <;> decide
  refine ⟨hparse, hcall, hplaced call hcall, hnodup, hrun, ?_⟩
  rw [hletters 20 3 hrun hname, hfoo, String.ofList_toList]
  rfl

end LiveFormula
