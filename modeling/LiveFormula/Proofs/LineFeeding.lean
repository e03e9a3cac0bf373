import LiveFormula.Proofs.LineConfinement

/-!
# A run feeds the lines of its text

A run over a text does nothing but feed its lines in order, with prompts in between. So all that it
leaves behind can be said line by line: what waits in the slot, the two counters, the diagnostics and
the output. A line counts without the line ends behind it, so that it does not matter whether lines
end with a line feed alone or with a carriage return as well.

* `Text.CutIntoLines` — the pieces of a text, and `Text.CutIntoLines.lines_eq` that there is just one
  way to cut it.
* `Session.feedAll_session_eq`, `Session.diagnostics_feedAll`, `Session.outputs_feedAll` — what
  feeding lines leaves behind.
* `Session.run_withReturns` — a carriage return before each line feed changes nothing.
* `Session.run_feeds_lines` — a run as a whole.
-/

set_option autoImplicit false

namespace LiveFormula

namespace Text

/-! ## The pieces of a text -/

/-- `CutIntoLines text pieces`: the text is cut after each line feed, and what is left behind the last
one is a piece unless it is empty. -/
inductive CutIntoLines : List Char → List (List Char) → Prop
  | nil : CutIntoLines [] []
  | last {body : List Char} (hne : body ≠ []) (hbody : '\n' ∉ body) : CutIntoLines body [body]
  | line {body rest : List Char} {pieces : List (List Char)} (hbody : '\n' ∉ body)
      (h : CutIntoLines rest pieces) :
      CutIntoLines (body ++ '\n' :: rest) ((body ++ ['\n']) :: pieces)

theorem exists_cutIntoLines (text : List Char) : ∃ pieces, CutIntoLines text pieces := by
  induction text with
  | nil => exact ⟨[], .nil⟩
  | cons c text ih =>
      obtain ⟨pieces, h⟩ := ih
      by_cases hc : c = '\n'
      · subst hc
        exact ⟨(([] : List Char) ++ ['\n']) :: pieces, .line List.not_mem_nil h⟩
      · have hcons : ∀ {body : List Char}, '\n' ∉ body → '\n' ∉ c :: body := by
          intro body hbody hmem
          rcases List.mem_cons.1 hmem with heq | hmem
          · exact hc heq.symm
          · exact hbody hmem
        cases h with
        | nil => exact ⟨[[c]], .last (List.cons_ne_nil c []) (hcons List.not_mem_nil)⟩
        | last hne hbody => exact ⟨_, .last (List.cons_ne_nil c _) (hcons hbody)⟩
        | line hbody h => exact ⟨_, .line (hcons hbody) h⟩

theorem isLineFeed_eq_false {body : List Char} (h : '\n' ∉ body) :
    ∀ c ∈ body, ∀ after, isLineFeed c after = false := by
  intro c hc _
  refine beq_eq_false_iff_ne.2 ?_
  rintro rfl
  exact h hc

/-- The lines that are read are the pieces. -/
theorem CutIntoLines.lines_eq {text : List Char} {pieces : List (List Char)}
    (h : CutIntoLines text pieces) : lines text = pieces := by
  induction h with
  | nil => rfl
  | last hne hbody => exact cutAfter_of_unbroken hne (isLineFeed_eq_false hbody)
  | @line body rest pieces hbody h ih =>
      have hrest : cutAfter isLineFeed ('\n' :: rest) = ['\n'] :: lines rest := rfl
      rw [lines, cutAfter_append (isLineFeed_eq_false hbody) hrest, ih]

/-! ## Carriage returns -/

/-- The text with a carriage return before each line feed. -/
def withReturns (text : List Char) : List Char :=
  text.flatMap fun c => if c = '\n' then ['\r', '\n'] else [c]

theorem withReturns_append (s t : List Char) : withReturns (s ++ t) = withReturns s ++ withReturns t :=
  List.flatMap_append

theorem withReturns_of_not_mem {body : List Char} (h : '\n' ∉ body) : withReturns body = body := by
  induction body with
  | nil => rfl
  | cons c body ih =>
      have hc : c ≠ '\n' := by
        rintro rfl
        exact h List.mem_cons_self
      rw [withReturns, List.flatMap_cons, if_neg hc, List.singleton_append]
      exact congrArg (c :: ·) (ih fun hmem => h (List.mem_cons_of_mem c hmem))

theorem withReturns_line {body : List Char} (h : '\n' ∉ body) (rest : List Char) :
    withReturns (body ++ '\n' :: rest) = (body ++ ['\r']) ++ '\n' :: withReturns rest := by
  rw [withReturns_append, withReturns_of_not_mem h, List.append_assoc]
  rfl

/-- The pieces of the text with carriage returns are the pieces with carriage returns. -/
theorem CutIntoLines.withReturns {text : List Char} {pieces : List (List Char)}
    (h : CutIntoLines text pieces) :
    CutIntoLines (withReturns text) (pieces.map Text.withReturns) := by
  induction h with
  | nil => exact .nil
  | last hne hbody =>
      rw [List.map_singleton, withReturns_of_not_mem hbody]
      exact .last hne hbody
  | line hbody h ih =>
      rw [List.map_cons, withReturns_line hbody, withReturns_line hbody]
      exact .line (by simpa using hbody) ih

/-- Line ends behind a text are dropped. -/
theorem dropLineEnds_append {ends : List Char} (h : ∀ c ∈ ends, isLineEnd c = true) (s : List Char) :
    dropLineEnds (s ++ ends) = dropLineEnds s := by
  rw [dropLineEnds, List.reverse_append, List.dropWhile_append_of_pos, dropLineEnds]
  intro c hc
  exact h c (List.mem_reverse.1 hc)

/-- A piece counts the same with a carriage return before its line feed. -/
theorem CutIntoLines.dropLineEnds_withReturns {text piece : List Char} {pieces : List (List Char)}
    (h : CutIntoLines text pieces) (hpiece : piece ∈ pieces) :
    dropLineEnds (Text.withReturns piece) = dropLineEnds piece := by
  induction h with
  | nil => cases hpiece
  | last hne hbody => rw [List.mem_singleton.1 hpiece, withReturns_of_not_mem hbody]
  | @line body rest pieces hbody h ih =>
      rcases List.mem_cons.1 hpiece with rfl | hpiece
      · have hreturn : Text.withReturns (body ++ ['\n']) = body ++ ['\r', '\n'] := by
          rw [withReturns_line hbody, List.append_assoc]
          rfl
        rw [hreturn, dropLineEnds_append (by simp [isLineEnd]),
          dropLineEnds_append (by simp [isLineEnd])]
      · exact ih hpiece

end Text

namespace Session

/-! ## One line -/

/-- What is written of a line that has no program. -/
def rejection? (line : List Char) : Option String :=
  let text := String.ofList (Text.dropLineEnds line)
  match compile text with
  | .error e => some ((e.report text).render ++ "\n")
  | .ok _ => none

/-- A line has a program, or it is rejected. -/
theorem program_or_rejection (line : List Char) :
    (∃ p, program? line = some p ∧ rejection? line = none) ∨
      ∃ text, program? line = none ∧ rejection? line = some text := by
  simp only [program?, rejection?]
  cases compile (String.ofList (Text.dropLineEnds line)) with
  | error e => exact .inr ⟨_, rfl, rfl⟩
  | ok p => exact .inl ⟨p, rfl, rfl⟩

variable (s : Session)

/-- The log of staging a program writes nothing. -/
theorem stage_effects (p : Program) :
    ∃ events : List Event, (s.stage p).effects = events.map Effect.log := by
  cases hpending : s.slot.pending with
  | false => exact ⟨[], by simp [stage, Slot.stage, hpending]⟩
  | true => exact ⟨[.discarded], by simp [stage, Slot.stage, hpending]⟩

/-- Of a line that is fed its rejection is written, and nothing else. -/
theorem diagnostics_feed (line : List Char) :
    Effect.diagnostics (s.feed line).effects = (rejection? line).getD "" := by
  simp only [feed, rejection?]
  cases compile (String.ofList (Text.dropLineEnds line)) with
  | error e => simp
  | ok p =>
      obtain ⟨events, hevents⟩ := s.stage_effects p
      simp [hevents]

theorem outputs_feed (line : List Char) : Effect.outputs (s.feed line).effects = "" := by
  simp only [feed]
  cases compile (String.ofList (Text.dropLineEnds line)) with
  | error e => simp
  | ok p =>
      obtain ⟨events, hevents⟩ := s.stage_effects p
      simp [hevents]

/-- A line counts without the line ends behind it. -/
theorem feed_congr {line line' : List Char} (h : Text.dropLineEnds line' = Text.dropLineEnds line) :
    s.feed line' = s.feed line := by
  simp only [feed, h]

/-! ## All lines -/

/-- Every line is counted once, with its program or with its rejection. -/
theorem length_programs_add_length_rejections (lines : List (List Char)) :
    (lines.filterMap program?).length + (lines.filterMap rejection?).length = lines.length := by
  induction lines with
  | nil => rfl
  | cons line lines ih =>
      rcases program_or_rejection line with ⟨p, hprogram, hrejection⟩ | ⟨text, hprogram, hrejection⟩
      · simp only [List.filterMap_cons, hprogram, hrejection, List.length_cons]
        omega
      · simp only [List.filterMap_cons, hprogram, hrejection, List.length_cons]
        omega

/-- What feeding lines does to a session: the last program waits, and every line is counted. -/
theorem feedAll_session_eq (prompt : String) (lines : List (List Char)) :
    (feedAll prompt s lines).1 =
      { s with
        slot := ⟨(lines.filterMap program?).getLast?.or s.slot.waiting⟩
        staged := s.staged + (lines.filterMap program?).length
        failed := s.failed + (lines.filterMap rejection?).length } := by
  induction lines generalizing s with
  | nil => rfl
  | cons line lines ih =>
      have hfirst : (feedAll prompt s (line :: lines)).1 =
          (feedAll prompt (s.feed line).session lines).1 := rfl
      rw [hfirst, ih, feed_session]
      rcases program_or_rejection line with ⟨p, hprogram, hrejection⟩ | ⟨text, hprogram, hrejection⟩
      · -- the program of this line waits only if no later line has one
        have hlast : ((p :: lines.filterMap program?).getLast?).or s.slot.waiting =
            (lines.filterMap program?).getLast?.or (some p) := by
          rw [List.getLast?_cons]
          cases (lines.filterMap program?).getLast? <;> rfl
        simp only [List.filterMap_cons, hprogram, hrejection, hlast, List.length_cons,
          Nat.add_assoc, Nat.add_comm 1]
      · simp only [List.filterMap_cons, hprogram, hrejection, List.length_cons, Nat.add_assoc,
          Nat.add_comm 1]

theorem diagnostics_promptEffects (prompt : String) :
    Effect.diagnostics (promptEffects prompt) = "" := by
  unfold promptEffects
  split <;> rfl

/-- A prompt is written as it is; an empty one is not written, which is the same. -/
theorem outputs_promptEffects (prompt : String) : Effect.outputs (promptEffects prompt) = prompt := by
  unfold promptEffects
  split
  · rename_i hempty
    exact (String.isEmpty_iff.1 hempty).symm
  · simp

/-- The diagnostics of the lines are those of the rejected ones in order. -/
theorem diagnostics_feedAll (prompt : String) (lines : List (List Char)) :
    Effect.diagnostics (feedAll prompt s lines).2 = String.join (lines.filterMap rejection?) := by
  induction lines generalizing s with
  | nil => rfl
  | cons line lines ih =>
      simp only [feedAll, Effect.joined_append, diagnostics_feed, diagnostics_promptEffects, ih,
        String.append_empty]
      cases hrejection : rejection? line with
      | none => rw [List.filterMap_cons_none hrejection, Option.getD_none, String.empty_append]
      | some text => rw [List.filterMap_cons_some hrejection, Option.getD_some, String.join_cons]

/-- A prompt is written after each line. -/
theorem outputs_feedAll (prompt : String) (lines : List (List Char)) :
    Effect.outputs (feedAll prompt s lines).2 = String.join (List.replicate lines.length prompt) := by
  induction lines generalizing s with
  | nil => rfl
  | cons line lines ih =>
      simp only [feedAll, Effect.joined_append, outputs_feed, outputs_promptEffects, ih,
        String.empty_append]
      rw [List.length_cons, List.replicate_succ, String.join_cons]

/-- Lines that count the same are fed with the same effects. -/
theorem feedAll_map {f : List Char → List Char} (prompt : String) {lines : List (List Char)}
    (h : ∀ line ∈ lines, Text.dropLineEnds (f line) = Text.dropLineEnds line) :
    feedAll prompt s (lines.map f) = feedAll prompt s lines := by
  induction lines generalizing s with
  | nil => rfl
  | cons line lines ih =>
      have hline := s.feed_congr (h line List.mem_cons_self)
      simp only [List.map_cons, feedAll, hline, ih _ fun l hl => h l (List.mem_cons_of_mem _ hl)]

/-! ## Runs -/

/-- A carriage return before each line feed changes nothing. -/
theorem run_withReturns (prompt : String) (text : List Char) :
    s.run prompt (Text.withReturns text) = s.run prompt text := by
  obtain ⟨pieces, hpieces⟩ := Text.exists_cutIntoLines text
  have hlines : Text.lines (Text.withReturns text) = (Text.lines text).map Text.withReturns := by
    rw [hpieces.withReturns.lines_eq, hpieces.lines_eq]
  have hsame : ∀ line ∈ Text.lines text,
      Text.dropLineEnds (Text.withReturns line) = Text.dropLineEnds line := by
    rw [hpieces.lines_eq]
    exact fun line => hpieces.dropLineEnds_withReturns
  simp only [run, hlines, s.feedAll_map prompt hsame]

/-- One more line is fed: the session after it, and the diagnostics so far. -/
def feedNext (state : Session × String) (line : List Char) : Session × String :=
  ((state.1.feed line).session, state.2 ++ Effect.diagnostics (state.1.feed line).effects)

theorem foldl_feedNext (prompt written : String) (lines : List (List Char)) :
    lines.foldl feedNext (s, written) =
      ((feedAll prompt s lines).1, written ++ Effect.diagnostics (feedAll prompt s lines).2) := by
  induction lines generalizing s written with
  | nil => simp [feedAll]
  | cons line lines ih =>
      rw [List.foldl_cons, feedNext, ih]
      simp only [feedAll, Effect.joined_append, diagnostics_promptEffects, String.append_empty,
        String.append_assoc]

/-- The prompts and the end of the input add nothing to the diagnostics. -/
theorem diagnostics_run (prompt : String) (text : List Char) :
    Effect.diagnostics (s.run prompt text).effects =
      Effect.diagnostics (feedAll prompt s (Text.lines text)).2 := by
  have hclose : ∀ last : Session, Effect.diagnostics (closeEffects prompt last) = "" := by
    intro last
    unfold closeEffects
    split <;> rfl
  simp only [run, Effect.joined_append, diagnostics_promptEffects, hclose, String.empty_append,
    String.append_empty]

theorem join_replicate_empty (n : Nat) : String.join (List.replicate n "") = "" := by
  induction n with
  | zero => rfl
  | succ n ih => rw [List.replicate_succ, String.join_cons, ih, String.append_empty]

/-- There is one prompt more than there are lines, and a line feed if prompts are written at all. -/
theorem outputs_run (prompt : String) (text : List Char) :
    Effect.outputs (s.run prompt text).effects =
      if prompt = "" then ""
      else String.join (List.replicate ((Text.lines text).length + 1) prompt) ++ "\n" := by
  have hclose : ∀ last : Session,
      Effect.outputs (closeEffects prompt last) = if prompt = "" then "" else "\n" := by
    intro last
    by_cases hempty : prompt = "" <;> simp [closeEffects, hempty]
  have hprompts : Effect.outputs (s.run prompt text).effects =
      String.join (List.replicate ((Text.lines text).length + 1) prompt) ++
        if prompt = "" then "" else "\n" := by
    simp only [run, Effect.joined_append, outputs_promptEffects, outputs_feedAll, hclose]
    rw [List.replicate_succ, String.join_cons]
  rw [hprompts]
  by_cases hempty : prompt = ""
  · rw [if_pos hempty, if_pos hempty, hempty, join_replicate_empty, String.append_empty]
  · rw [if_neg hempty, if_neg hempty]

/-- **A run feeds the lines of its text.** There is one way to cut the text into pieces after each
line feed. A run leaves the session and the diagnostics that feeding the pieces one after the other
leaves: the program of the last piece that has one waits, every piece is counted as staged or as
failed, and the diagnostics are those of the pieces that have no program, in order. Its result is the
number of pieces staged so far. A prompt is written once more often than there are pieces, with a
line feed behind the last one, unless it is empty; then nothing is written. A carriage return before
each line feed changes none of this. -/
theorem run_feeds_lines (prompt : String) (s : Session) (text : List Char) :
    let run := s.run prompt text
    ∃ pieces, (∀ other, Text.CutIntoLines text other ↔ other = pieces) ∧
      (run.session, Effect.diagnostics run.effects) = pieces.foldl feedNext (s, "") ∧
      (run.session.staged + run.session.failed = s.staged + s.failed + pieces.length ∧
        run.session =
          { s with
            slot := ⟨(pieces.filterMap program?).getLast?.or s.slot.waiting⟩
            staged := s.staged + (pieces.filterMap program?).length
            failed := s.failed + (pieces.filterMap rejection?).length } ∧
        Effect.diagnostics run.effects = String.join (pieces.filterMap rejection?)) ∧
      run.result = run.session.staged ∧
      (Effect.outputs run.effects =
        if prompt = "" then ""
        else String.join (List.replicate (pieces.length + 1) prompt) ++ "\n") ∧
      s.run prompt (Text.withReturns text) = run := by
  intro run
  obtain ⟨pieces, hpieces⟩ := Text.exists_cutIntoLines text
  have hlines := hpieces.lines_eq
  have hsession : run.session = (feedAll prompt s pieces).1 := hlines ▸ rfl
  have hdiagnostics : Effect.diagnostics run.effects =
      Effect.diagnostics (feedAll prompt s pieces).2 := hlines ▸ s.diagnostics_run prompt text
  refine ⟨pieces, fun other => ⟨fun h => ?_, ?_⟩, ?_, ⟨?_, ?_, ?_⟩, rfl, ?_,
    s.run_withReturns prompt text⟩
  · rw [← h.lines_eq, hlines]
  · rintro rfl
    exact hpieces
  · rw [s.foldl_feedNext prompt, hsession, hdiagnostics, String.empty_append]
  · have hcount := length_programs_add_length_rejections pieces
    rw [hsession, feedAll_session_eq]
    simp only
    omega
  · rw [hsession, feedAll_session_eq]
  · rw [hdiagnostics, diagnostics_feedAll]
  · rw [outputs_run, hlines]

end Session

end LiveFormula
