import LiveFormula.CommandLine.Plan
import LiveFormula.Proofs.Compiler
import LiveFormula.Proofs.Handoff

/-!
# A live session ends on the last formula

The programs of a live session come from formulas, and what a formula compiles to is accepted. So no
poll is refused, and what the hand-off says of the programs handed over holds of the programs
installed.

* `Handoff.Accepting` — only accepted programs were staged, so each one handed over was installed.
* `Live.turns_eq_run` — a session that takes whole frames is one of the interleavings of `Handoff`,
  in which every poll happens to be undisturbed.
* `Live.livePlan_eq_play` — the effects of a live command are those of its opening and of the session
  that it plays.
* `Live.session_ends_on_last_formula` — whatever the timing, the session ends on the last line that
  compiles, or on the opening formula if there is none.
-/

set_option autoImplicit false

namespace LiveFormula

/-- Whether an effect tells of a program that the evaluator has refused. -/
def Effect.isRejection : Effect → Bool
  | .log (.rejectedProgram _) => true
  | _ => false

namespace Session

theorem stage_quiet (s : Session) (p : Program) :
    (s.stage p).effects.any Effect.isRejection = false := by
  cases hpending : s.slot.pending <;> simp [stage, Slot.stage, hpending, Effect.isRejection]

theorem feed_quiet (s : Session) (line : List Char) :
    (s.feed line).effects.any Effect.isRejection = false := by
  have hevents : ∀ (text : String) (result : Except CompileError Program),
      ((compileEvents text result).map Effect.log).any Effect.isRejection = false := by
    intro text result
    unfold compileEvents
    split <;> rfl
  simp only [feed]
  cases compile (String.ofList (Text.dropLineEnds line)) with
  | error e =>
      simp only [List.any_append, hevents]
      rfl
  | ok p =>
      simp only [List.any_append, hevents, stage_quiet]
      rfl

theorem deliver_quiet (s : Session) {p : Program} {is : List Instr} (h : p.check = .ok is) :
    (s.deliver p).effects.any Effect.isRejection = false := by
  rw [s.deliver_of_ok h]
  rfl

/-- A poll leaves nothing waiting. -/
theorem poll_slot (s : Session) : s.poll.session.slot = .empty := by
  rw [poll_eq]
  cases s.slot.waiting with
  | none => rfl
  | some p =>
      cases hcheck : p.check with
      | ok is => simp only [deliver_of_ok _ hcheck, take_session]
      | error e => simp only [deliver_of_error _ hcheck, take_session]

end Session

/-! ## Interleavings of accepted programs -/

namespace Handoff

/-- What the consumer holds was staged. -/
theorem Consistent.mem_staged {h : Handoff} (hc : h.Consistent) {event : Program × Nat}
    (hheld : h.held = some event) : event.1 ∈ h.staged := by
  have htaken : event ∈ h.taken := by
    rw [hc.taken_eq, hheld]
    exact List.mem_append_right _ (List.mem_singleton_self _)
  have hmem : event.1 ∈ (h.staged.zipIdx 1).map Prod.fst :=
    List.mem_map_of_mem (hc.taken_sublist.subset htaken)
  rwa [List.zipIdx_map_fst] at hmem

/-- All programs staged since the session `opened` are accepted ones, and so each one that was
handed over was installed. -/
structure Accepting (opened : Session) (h : Handoff) : Prop where
  accepted : ∀ p ∈ h.staged, ∃ is, p.check = .ok is
  polled : h.session.polled = opened.polled + h.handed.length
  installed : h.session.evaluator.installed =
    (h.handed.getLast?.map Prod.fst).or opened.evaluator.installed
  quiet : h.effects.any Effect.isRejection = false

theorem start_accepting (opened : Session) : Accepting opened (start opened) where
  accepted p hp := by cases hp
  polled := rfl
  installed := rfl
  quiet := rfl

/-- A turn stages nothing, or a program that is accepted. -/
def Turn.Accepted (t : Turn) : Prop := ∀ p, t.program? = some p → ∃ is, p.check = .ok is

/-- A turn that stages nothing but an accepted program keeps the session accepting. -/
theorem turn_accepting {opened : Session} {h : Handoff} (hc : h.Consistent)
    (ha : h.Accepting opened) {t : Turn} (ht : t.Accepted) : (h.turn t).Accepting opened := by
  have haccepted : ∀ p ∈ (h.turn t).staged, ∃ is, p.check = .ok is := by
    intro p hp
    rw [staged_turn, List.mem_append, Option.mem_toList] at hp
    rcases hp with hp | hp
    · exact ha.accepted p hp
    · exact ht p hp
  cases t with
  | feed line =>
      have hsession : (h.session.feed line).session.polled = h.session.polled ∧
          (h.session.feed line).session.evaluator = h.session.evaluator := by
        rw [Session.feed_session]
        cases Session.program? line <;> exact ⟨rfl, rfl⟩
      refine ⟨haccepted, hsession.1.trans ha.polled, ?_, ?_⟩
      · simp only [turn, hsession.2]
        exact ha.installed
      · simp only [turn, List.any_append, ha.quiet, Session.feed_quiet, Bool.or_self]
  | stage p =>
      refine ⟨haccepted, ha.polled, ha.installed, ?_⟩
      simp only [turn, List.any_append, ha.quiet, Session.stage_quiet, Bool.or_self]
  | consume =>
      cases hheld : h.held with
      | none =>
          rw [consume_of_none hheld] at haccepted ⊢
          exact ⟨haccepted, ha.polled, ha.installed, ha.quiet⟩
      | some event =>
          rw [consume_of_some hheld] at haccepted ⊢
          obtain ⟨is, his⟩ := ha.accepted _ (hc.mem_staged hheld)
          refine ⟨haccepted, ?_, ?_, ?_⟩
          · simp only [install, Session.deliver_of_ok _ his, ha.polled, List.length_append,
              List.length_singleton, Nat.add_assoc]
          · simp [install, Session.deliver_of_ok _ his, Evaluator.installed]
          · simp only [install, List.any_append, ha.quiet, Session.deliver_quiet _ his,
              Bool.or_self]

theorem run_accepting {opened : Session} {h : Handoff} (hc : h.Consistent) (ha : h.Accepting opened)
    {turns : List Turn} (hturns : ∀ t ∈ turns, t.Accepted) : (h.run turns).Accepting opened := by
  induction turns generalizing h with
  | nil => exact ha
  | cons t ts ih =>
      have ht := hturns t List.mem_cons_self
      exact ih (turn_consistent hc t) (turn_accepting hc ha ht) fun t' ht' =>
        hturns t' (List.mem_cons_of_mem _ ht')

/-- The consumer's thread ends, but not before what it holds is installed. -/
def join (h : Handoff) : Handoff :=
  match h.held with
  | none => h
  | some event => h.install event

theorem join_held (h : Handoff) : h.join.held = none := by
  cases hheld : h.held with
  | none => simp [join, hheld]
  | some event => simp [join, hheld, install]

/-- Ending the thread is at most one more turn of the consumer. -/
theorem join_eq_run (h : Handoff) : ∃ n, h.join = h.run (List.replicate n .consume) := by
  cases hheld : h.held with
  | none => exact ⟨0, by simp [join, hheld, run]⟩
  | some event => exact ⟨1, by simp [join, hheld, run, turn]⟩

/-- The producer's turns feed the given lines in order, and the consumer's turns fall anywhere. -/
def Interleaves (turns : List Turn) (lines : List (List Char)) : Prop :=
  turns.filter (· ≠ .consume) = lines.map .feed

namespace Interleaves

variable {turns : List Turn} {lines : List (List Char)} (ht : Interleaves turns lines)

include ht

theorem append_consume (n : Nat) : Interleaves (turns ++ List.replicate n .consume) lines := by
  unfold Interleaves at ht ⊢
  rw [List.filter_append, ht]
  simp

/-- The stage events are the lines that have a program. -/
theorem programs : turns.filterMap Turn.program? = lines.filterMap Session.program? := by
  have hconsume : turns.filterMap Turn.program? =
      (turns.filter (· ≠ .consume)).filterMap Turn.program? := by
    rw [List.filterMap_filter]
    refine List.filterMap_congr fun t _ => ?_
    cases t <;> rfl
  rw [hconsume, ht, List.filterMap_map]
  rfl

/-- Only programs of formulas are staged, and they are accepted. -/
theorem accepted : ∀ t ∈ turns, t.Accepted := by
  intro t hmem p hp
  cases t with
  | feed line => exact check_of_compile (Session.compile_of_program? hp)
  | stage q =>
      -- Nothing is staged but by feeding a line.
      have hfilter : Turn.stage q ∈ turns.filter (· ≠ .consume) := by simp [hmem]
      rw [ht, List.mem_map] at hfilter
      obtain ⟨line, -, hline⟩ := hfilter
      cases hline
  | consume => cases hp

end Interleaves

/-- One more poll, after the threads have come to rest, installs the last program staged, if it is
not installed already. -/
theorem poll_installs_last {opened : Session} {h : Handoff} (hc : h.Consistent)
    (ha : h.Accepting opened) (hheld : h.held = none) :
    h.session.poll.session.evaluator.installed =
        h.staged.getLast?.or opened.evaluator.installed ∧
      opened.polled ≤ h.session.poll.session.polled ∧
      h.session.poll.session.polled ≤ opened.polled + h.staged.length ∧
      (h.effects ++ h.session.poll.effects).any Effect.isRejection = false := by
  obtain ⟨hsession, hrest, heffects⟩ := consume_consume hheld
  have hc' := turn_consistent (turn_consistent hc .consume) .consume
  have hnothing : Turn.consume.Accepted := by
    intro p hp
    cases hp
  have ha' := turn_accepting (turn_consistent hc .consume) (turn_accepting hc ha hnothing) hnothing
  have hstaged : ((h.turn .consume).turn .consume).staged = h.staged := by
    simp [staged_turn, Turn.program?]
  generalize (h.turn .consume).turn .consume = last at *
  have hslot : last.session.slot.waiting = none := by
    rw [hsession, Session.poll_slot]
    rfl
  have hlast : last.handed.getLast?.map Prod.fst = h.staged.getLast? := by
    rw [hc'.last_handed hslot hrest, ← List.getLast?_map, List.zipIdx_map_fst, hstaged]
  have hcount : last.handed.length ≤ h.staged.length := by
    have hle := (hc'.handed_sublist.trans hc'.taken_sublist).length_le
    rwa [List.length_zipIdx, hstaged] at hle
  rw [← hsession, ← heffects]
  refine ⟨?_, ?_, ?_, ha'.quiet⟩
  · rw [ha'.installed, hlast]
  · rw [ha'.polled]
    exact Nat.le_add_right _ _
  · rw [ha'.polled]
    exact Nat.add_le_add_left hcount _

end Handoff

/-! ## Live sessions -/

namespace Live

variable (P : Primitives) (config : Config)

/-- The lines that have a program, as programs. -/
def programs (text : List Char) : List Program := (Text.lines text).filterMap Session.program?

/-- How a session that began with the program `first` is to end once it has read a text. -/
structure EndsOnLast (first : Program) (text : List Char) (s : Session) (effects : List Effect) :
    Prop where
  /-- No poll was refused. -/
  quiet : effects.any Effect.isRejection = false
  /-- No program is left waiting. -/
  drained : s.slot.pending = false
  /-- The last line that has a program is installed. -/
  installed : s.evaluator.installed = some ((programs text).getLast?.getD first)
  polled_pos : 1 ≤ s.polled
  polled_le : s.polled ≤ 1 + (programs text).length

/-- The opening formula is installed before the first turn. -/
theorem opening_of_compile {first : Program} (h : compile config.opening = .ok first) :
    ∃ opened effects, opening config = .ok (opened, effects) ∧ opened.slot = .empty ∧
      opened.evaluator.installed = some first ∧ opened.polled = 1 ∧
      effects.any Effect.isRejection = false := by
  obtain ⟨is, his⟩ := check_of_compile h
  refine ⟨_, _, by simp only [opening, h]; rfl, ?_⟩
  rw [Session.poll_eq]
  simp only [Session.stage_session, Session.deliver_of_ok _ his]
  exact ⟨rfl, rfl, rfl, rfl⟩

/-- A frame is a poll, and a preview that says nothing of refusals. -/
theorem frame_eq_poll (s : Session) (number : Nat) (elapsed : Double) :
    (frame P config s number elapsed).1 = s.poll.session ∧
      (frame P config s number elapsed).2.any Effect.isRejection =
        s.poll.effects.any Effect.isRejection := by
  have hpreview : ∀ s' : Session,
      (preview P config s' number elapsed).any Effect.isRejection = false := by
    intro s'
    unfold preview
    split <;> rfl
  cases hresult : s.poll.result with
  | none => simp only [frame, hresult, and_self]
  | some p => cases hp : config.preview <;> simp [frame, hresult, hp, hpreview]

theorem promptEffects_quiet (prompt : String) :
    (Session.promptEffects prompt).any Effect.isRejection = false := by
  unfold Session.promptEffects
  split <;> rfl

/-- The line that a turn feeds. -/
def Turn.line? : Turn → Option (List Char)
  | .line text => some text
  | .frame .. => none

/-- A turn as turns of the two threads: the poll of a frame is not disturbed. -/
def Turn.moves : Turn → List Handoff.Turn
  | .line text => [.feed text]
  | .frame .. => [.consume, .consume]

theorem interleaves_moves (ts : List Turn) :
    Handoff.Interleaves (ts.flatMap Turn.moves) (ts.filterMap Turn.line?) := by
  unfold Handoff.Interleaves
  induction ts with
  | nil => rfl
  | cons t ts ih => cases t <;> simpa [Turn.moves, Turn.line?, List.filterMap_cons] using ih

/-- A session that takes whole frames is an interleaving of the two threads. -/
theorem turns_eq_run (ts : List Turn) {h : Handoff} (hheld : h.held = none) :
    (h.run (ts.flatMap Turn.moves)).session = (turns P config h.session ts).1 ∧
      (h.run (ts.flatMap Turn.moves)).held = none ∧
      (h.run (ts.flatMap Turn.moves)).effects.any Effect.isRejection =
        (h.effects.any Effect.isRejection ||
          (turns P config h.session ts).2.any Effect.isRejection) := by
  induction ts generalizing h with
  | nil => simp [turns, Handoff.run, hheld]
  | cons t ts ih =>
      cases t with
      | line text =>
          obtain ⟨hsession, hrest, heffects⟩ :=
            ih (show (h.turn (.feed text)).held = none from hheld)
          refine ⟨hsession, hrest, heffects.trans ?_⟩
          simp [turns, turn, Handoff.turn, promptEffects_quiet, Bool.or_assoc]
      | frame number elapsed =>
          obtain ⟨hpoll, hnone, hpolled⟩ := Handoff.consume_consume hheld
          obtain ⟨hframe, hquiet⟩ := frame_eq_poll P config h.session number elapsed
          obtain ⟨hsession, hrest, heffects⟩ := ih hnone
          rw [hpoll, ← hframe] at hsession heffects
          refine ⟨hsession, hrest, heffects.trans ?_⟩
          rw [hpolled]
          simp [turns, turn, hquiet, Bool.or_assoc]

/-- What is shown beside the turns and the last frame says nothing of refusals. -/
theorem play_eq_frame (s : Session) (ts : List Turn) (frames : Nat) (elapsed : Double) :
    let read := turns P config s ts
    let last := frame P config read.1 frames elapsed
    (play P config s ts frames elapsed).1 = last.1 ∧
      (play P config s ts frames elapsed).2.any Effect.isRejection =
        (read.2 ++ last.2).any Effect.isRejection := by
  intro read last
  have hclose : (Session.closeEffects config.prompt read.1).any Effect.isRejection = false := by
    unfold Session.closeEffects
    split <;> rfl
  refine ⟨rfl, ?_⟩
  simp only [play, start, finish, List.any_append, promptEffects_quiet, Bool.false_or]
  simp [read, last, Effect.isRejection, hclose]

section

variable {first : Program} {opened : Session} {text : List Char} (hslot : opened.slot = .empty)
  (hinstalled : opened.evaluator.installed = some first) (hpolled : opened.polled = 1)

include hslot hinstalled hpolled

/-- A session whose threads have come to rest ends on its last formula with one more frame. -/
theorem frame_endsOnLast {moves : List Handoff.Turn}
    (hmoves : Handoff.Interleaves moves (Text.lines text))
    (hheld : ((Handoff.start opened).run moves).held = none) (number : Nat) (elapsed : Double) :
    let h := (Handoff.start opened).run moves
    let last := frame P config h.session number elapsed
    EndsOnLast first text last.1 (h.effects ++ last.2) := by
  intro h last
  have hstart : (Handoff.start opened).Consistent := Handoff.start_consistent (by rw [hslot]; rfl)
  have hc : h.Consistent := Handoff.run_consistent hstart moves
  have ha : h.Accepting opened :=
    Handoff.run_accepting hstart (Handoff.start_accepting opened) hmoves.accepted
  have hstaged : h.staged = programs text := by
    rw [Handoff.staged_run, hmoves.programs]
    rfl
  obtain ⟨hsession, hquiet⟩ := frame_eq_poll P config h.session number elapsed
  obtain ⟨hlast, hpos, hle, hpoll⟩ := Handoff.poll_installs_last hc ha hheld
  rw [← hsession] at hlast hpos hle
  rw [hstaged] at hlast hle
  rw [hpolled] at hpos hle
  refine ⟨?_, ?_, ?_, hpos, hle⟩
  · rw [List.any_append] at hpoll ⊢
    rw [hquiet, hpoll]
  · rw [hsession, Session.poll_slot]
    rfl
  · rw [hlast, hinstalled]
    cases (programs text).getLast? <;> rfl

/-- However the turns of the two threads fall, the session ends on its last formula. -/
theorem join_endsOnLast {moves : List Handoff.Turn}
    (hmoves : Handoff.Interleaves moves (Text.lines text)) (number : Nat) (elapsed : Double) :
    let joined := ((Handoff.start opened).run moves).join
    let last := frame P config joined.session number elapsed
    EndsOnLast first text last.1 (joined.effects ++ last.2) := by
  intro joined last
  obtain ⟨n, hn⟩ := ((Handoff.start opened).run moves).join_eq_run
  have hjoined : joined = (Handoff.start opened).run (moves ++ List.replicate n .consume) := by
    rw [Handoff.run, List.foldl_append]
    exact hn
  have hheld : joined.held = none := Handoff.join_held _
  rw [hjoined] at hheld
  have hends := frame_endsOnLast P config hslot hinstalled hpolled (hmoves.append_consume n) hheld
    number elapsed
  rwa [← hjoined] at hends

/-- A session that takes whole frames ends on its last formula. -/
theorem play_endsOnLast {ts : List Turn} (hlines : ts.filterMap Turn.line? = Text.lines text)
    (frames : Nat) (elapsed : Double) :
    let played := play P config opened ts frames elapsed
    EndsOnLast first text played.1 played.2 := by
  intro played
  have hmoves := interleaves_moves ts
  rw [hlines] at hmoves
  obtain ⟨hsession, hheld, hquiet⟩ :=
    turns_eq_run P config ts (show (Handoff.start opened).held = none from rfl)
  obtain ⟨hplayed, hshown⟩ := play_eq_frame P config opened ts frames elapsed
  have hends := frame_endsOnLast P config hslot hinstalled hpolled hmoves hheld frames elapsed
  simp only [hsession] at hends
  rw [hplayed]
  refine { hends with quiet := ?_ }
  have hall := hends.quiet
  rw [List.any_append, hquiet] at hall
  rw [hshown, List.any_append]
  exact hall

end

/-! ## The command -/

/-- **A live command plays a session.** If nothing is wrong with its settings and its input can be
read, it succeeds with the effects of the opening, of the start of the loop, and of a session that is
played on the lines of the input. -/
theorem livePlan_eq_play (hproblems : config.problems = []) {opened : Session}
    {effects : List Effect} (hopening : opening config = .ok (opened, effects)) {loop : RenderLoop}
    (hloop : RenderLoop.make config.rate = .ok loop) (elapsed : Double) {input : Option String}
    {standardInput bytes : List UInt8} {files : CommandLine.FileTree}
    (hinput : input.elim (.ok standardInput) files.read = .ok bytes) :
    (CommandLine.livePlan P elapsed config input).execute standardInput files =
      (files, .success (effects ++ .log (.loopStarted loop.interval) ::
        (play P config opened ((Text.lines (Text.Utf8.readText bytes)).map .line) 0 elapsed).2)) := by
  simp only [CommandLine.livePlan, hproblems, hopening, CommandLine.Plan.execute_read, hinput, hloop,
    CommandLine.Plan.execute_finish, CommandLine.playText]

/-- The formula that a live session opens with has a program. -/
theorem exists_compile_opening : ∃ first, compile ({} : Config).opening = .ok first := by
  have hsome : (compile ({} : Config).opening).toOption.isSome = true := by decide +kernel
  cases hcompile : compile ({} : Config).opening with
  | ok first => exact ⟨first, rfl⟩
  | error e => rw [hcompile] at hsome; cases hsome

/-- **A live session ends on the last valid formula.** The opening formula compiles and is
installed. Then lines are fed and polled in any order, where a poll may be cut in two by lines; the
thread that polls is stopped, and one more frame follows. However the turns fall, no poll is
refused, no program is left waiting, the installed program is that of the last line that has one, or
else that of the opening formula, and at least one program and at most one more than there are lines
with a program were installed. The same holds of a session that takes whole frames. -/
theorem session_ends_on_last_formula (command : CommandLine.LiveCommand)
    (rate width height : Int) (text : List Char) (elapsed : Double) :
    let config := command.configOf rate width height
    ∃ first opened effects, compile config.opening = .ok first ∧
      opening config = .ok (opened, effects) ∧
      (∀ moves number, Handoff.Interleaves moves (Text.lines text) →
        let joined := ((Handoff.start opened).run moves).join
        let last := frame P config joined.session number elapsed
        EndsOnLast first text last.1 (effects ++ (joined.effects ++ last.2))) ∧
      (∀ ts frames, ts.filterMap Turn.line? = Text.lines text →
        let played := play P config opened ts frames elapsed
        EndsOnLast first text played.1 (effects ++ played.2)) := by
  intro config
  obtain ⟨first, hfirst⟩ := exists_compile_opening
  obtain ⟨opened, effects, hopening, hslot, hinstalled, hpolled, heffects⟩ :=
    opening_of_compile config hfirst
  refine ⟨first, opened, effects, hfirst, hopening, ?_, ?_⟩
  · intro moves number hmoves joined last
    have hends := join_endsOnLast P config hslot hinstalled hpolled hmoves number elapsed
    refine { hends with quiet := ?_ }
    rw [List.any_append, heffects, hends.quiet]
    rfl
  · intro ts frames hlines played
    have hends := play_endsOnLast P config hslot hinstalled hpolled hlines frames elapsed
    refine { hends with quiet := ?_ }
    rw [List.any_append, heffects, hends.quiet]
    rfl

/-- Three lines, the second of which is rejected; the last two are fed while the first is on its
way. -/
theorem session_ends_on_last_formula_overtaken :
    let text : List Char := ['t', '\n', 'u', '+', '\n', 'v']
    let moves : List Handoff.Turn :=
      [.consume, .feed ['t', '\n'], .consume, .feed ['u', '+', '\n'], .feed ['v']]
    Handoff.Interleaves moves (Text.lines text) ∧
      programs text = [⟨[0x000000001]⟩, ⟨[0x200000001]⟩] ∧
      ∃ opened effects, opening {} = .ok (opened, effects) ∧
        let joined := ((Handoff.start opened).run moves).join
        let last := frame Primitives.standard {} joined.session 1 (Binary.zero false)
        last.1.evaluator.installed = some ⟨[0x200000001]⟩ := by
  intro text moves
  have hmoves : Handoff.Interleaves moves (Text.lines text) := rfl
  have hprograms : programs text = [⟨[0x000000001]⟩, ⟨[0x200000001]⟩] := by decide +kernel
  obtain ⟨first, opened, effects, -, hopening, hends, -⟩ :=
    session_ends_on_last_formula Primitives.standard {} 60 48 16 text (Binary.zero false)
  refine ⟨hmoves, hprograms, opened, effects, hopening, ?_⟩
  have hinstalled := (hends moves 1 hmoves).installed
  rw [hprograms] at hinstalled
  exact hinstalled

end Live

end LiveFormula
