import LiveFormula.Proofs.SessionStep

/-!
# The books of a session

The slot, the reader of formulas and the evaluator each keep counters. `Session.calls` lists the
calls of the three that an operation comes to, with their outcomes, and the counters are compared
with that list. Operations come in any order, with any programs, and they may fail.

* `Session.Balanced` — the counters agree with the calls made so far, and what is installed was
  accepted.
* `Session.perform_balanced`, `Session.performAll_balanced` — every operation, and so every sequence
  of operations, keeps the books balanced.
* `Session.perform_failed` — an operation that fails leaves the evaluator as it was.
* `Session.performAll_keeps_books` — the invariant of a session from its beginning.
-/

set_option autoImplicit false

namespace LiveFormula.Session

/-! ## Calls -/

/-- A call of the reader, of the slot or of the evaluator, with its outcome. -/
inductive Call
  /-- A line was fed. -/
  | fed (accepted : Bool)
  /-- A program was staged, directly or for a line. -/
  | staged (replaced : Bool)
  /-- The slot was emptied, directly or by a poll. -/
  | took (program : Option Program)
  /-- A program was given to the evaluator, directly or by a poll. -/
  | installed (result : Except ProgramError Unit)

namespace Call

def isLine : Call → Bool
  | fed _ => true
  | _ => false

def isStaging : Call → Bool
  | staged _ => true
  | _ => false

/-- Whether a program was staged in place of one that still waited. -/
def isReplacement : Call → Bool
  | staged replaced => replaced
  | _ => false

/-- Whether a program was taken. -/
def isTaking : Call → Bool
  | took program => program.isSome
  | _ => false

/-- Whether a program was installed. -/
def isInstallation : Call → Bool
  | installed (.ok _) => true
  | _ => false

end Call

/-- The calls that feeding a line comes to. -/
def feedCalls (s : Session) (line : List Char) : List Call :=
  match program? line with
  | none => [.fed false]
  | some p => [.fed true, .staged (s.stage p).result]

/-- The calls that feeding lines one after the other comes to. -/
def feedAllCalls (s : Session) : List (List Char) → List Call
  | [] => []
  | line :: lines => s.feedCalls line ++ feedAllCalls (s.feed line).session lines

/-- The calls that a poll comes to. -/
def pollCalls (s : Session) : List Call :=
  match s.take.result with
  | none => [.took none]
  | some p => [.took (some p), .installed (s.take.session.install p).result]

/-- The calls that an operation comes to. -/
def calls (s : Session) : Operation → List Call
  | .feed line => s.feedCalls line
  | .run text => s.feedAllCalls (Text.lines text)
  | .stage p => [.staged (s.stage p).result]
  | .take => [.took s.take.result]
  | .poll => s.pollCalls
  | .install p => [.installed (s.install p).result]
  | .evaluate _ => []
  | .sample .. => []

/-! ## The counters follow the calls -/

/-- The counters of a session agree with the calls that have been made. -/
structure Balanced (s : Session) (calls : List Call) : Prop where
  /-- A program that was staged was replaced or taken, or it waits. -/
  stagings : calls.countP Call.isStaging =
    calls.countP Call.isReplacement + calls.countP Call.isTaking + if s.slot.pending then 1 else 0
  lines : s.staged + s.failed = calls.countP Call.isLine
  generation : s.evaluator.generation = calls.countP Call.isInstallation
  polled_le : s.polled ≤ s.evaluator.generation
  generation_eq_zero_iff : s.evaluator.generation = 0 ↔ s.evaluator.current = none
  instructions : ∀ i, s.evaluator.current = some i → i.program.check = .ok i.instructions

theorem empty_balanced : Balanced .empty [] where
  stagings := rfl
  lines := rfl
  generation := rfl
  polled_le := Nat.le_refl 0
  generation_eq_zero_iff := by simp [empty, Evaluator.empty]
  instructions i hi := by cases hi

namespace Balanced

variable {s : Session} {calls : List Call} (hb : Balanced s calls)

include hb

theorem stage (p : Program) :
    Balanced (s.stage p).session (calls ++ [.staged (s.stage p).result]) := by
  have hstagings := hb.stagings
  refine ⟨?_, ?_, ?_, hb.polled_le, hb.generation_eq_zero_iff, hb.instructions⟩
  · -- The program that waits now makes up for the one it may have replaced.
    cases hwaiting : s.slot.waiting <;>
      simp [hwaiting, Slot.pending, Call.isStaging, Call.isReplacement, Call.isTaking]
        at hstagings ⊢ <;>
      omega
  · simpa [Call.isLine] using hb.lines
  · simpa [Call.isInstallation] using hb.generation

theorem take : Balanced s.take.session (calls ++ [.took s.take.result]) := by
  have hstagings := hb.stagings
  refine ⟨?_, ?_, ?_, hb.polled_le, hb.generation_eq_zero_iff, hb.instructions⟩
  · cases hwaiting : s.slot.waiting <;>
      simp [hwaiting, Slot.pending, Slot.empty, Call.isStaging, Call.isReplacement, Call.isTaking]
        at hstagings ⊢ <;>
      omega
  · simpa [Call.isLine] using hb.lines
  · simpa [Call.isInstallation] using hb.generation

/-- A line is counted as staged or as failed. -/
theorem line (s' : Session) (hslot : s'.slot = s.slot) (hevaluator : s'.evaluator = s.evaluator)
    (hpolled : s'.polled = s.polled) (hcount : s'.staged + s'.failed = s.staged + s.failed + 1)
    (accepted : Bool) : Balanced s' (calls ++ [.fed accepted]) := by
  refine ⟨?_, ?_, ?_, ?_, ?_, ?_⟩
  · simpa [hslot, Call.isStaging, Call.isReplacement, Call.isTaking] using hb.stagings
  · simp [hcount, hb.lines, Call.isLine]
  · simpa [hevaluator, Call.isInstallation] using hb.generation
  · rw [hpolled, hevaluator]
    exact hb.polled_le
  · rw [hevaluator]
    exact hb.generation_eq_zero_iff
  · rw [hevaluator]
    exact hb.instructions

/-- An accepted program and its instructions take the place of those before, and one more
installation is counted; it may be counted among the polls as well. -/
theorem installed {p : Program} {is : List Instr} (hcheck : p.check = .ok is) {polled : Nat}
    (hpolled : polled ≤ s.polled + 1) :
    Balanced
      { s with evaluator := ⟨some ⟨p, is⟩, s.evaluator.generation + 1⟩, polled := polled }
      (calls ++ [.installed (.ok ())]) := by
  refine ⟨?_, ?_, ?_, ?_, ?_, ?_⟩
  · simpa [Call.isStaging, Call.isReplacement, Call.isTaking] using hb.stagings
  · simpa [Call.isLine] using hb.lines
  · simp [hb.generation, Call.isInstallation]
  · exact Nat.le_trans hpolled (Nat.add_le_add_right hb.polled_le 1)
  · simp
  · intro i hi
    cases hi
    exact hcheck

/-- A program that is refused leaves the books as they were. -/
theorem refused (e : ProgramError) : Balanced s (calls ++ [.installed (.error e)]) := by
  refine ⟨?_, ?_, ?_, hb.polled_le, hb.generation_eq_zero_iff, hb.instructions⟩
  · simpa [Call.isStaging, Call.isReplacement, Call.isTaking] using hb.stagings
  · simpa [Call.isLine] using hb.lines
  · simpa [Call.isInstallation] using hb.generation

theorem install (p : Program) :
    Balanced (s.install p).session (calls ++ [.installed (s.install p).result]) := by
  cases hcheck : p.check with
  | ok is =>
      rw [s.install_of_ok hcheck]
      exact hb.installed hcheck (Nat.le_add_right _ 1)
  | error e =>
      rw [s.install_of_error hcheck]
      exact hb.refused e

theorem deliver (p : Program) :
    Balanced (s.deliver p).session (calls ++ [.installed (s.install p).result]) := by
  cases hcheck : p.check with
  | ok is =>
      rw [s.deliver_of_ok hcheck, s.install_of_ok hcheck]
      exact hb.installed hcheck (Nat.le_refl _)
  | error e =>
      rw [s.deliver_of_error hcheck, s.install_of_error hcheck]
      exact hb.refused e

theorem poll : Balanced s.poll.session (calls ++ s.pollCalls) := by
  have htake := hb.take
  rw [poll_eq, pollCalls]
  rw [take_result] at htake ⊢
  cases hwaiting : s.slot.waiting with
  | none =>
      rw [hwaiting] at htake
      exact htake
  | some p =>
      rw [hwaiting] at htake
      have hdeliver := htake.deliver p
      rwa [List.append_assoc] at hdeliver

theorem feed (line : List Char) : Balanced (s.feed line).session (calls ++ s.feedCalls line) := by
  rw [feed_session, feedCalls]
  cases program? line with
  | none =>
      have hcount : s.staged + (s.failed + 1) = s.staged + s.failed + 1 := rfl
      exact hb.line { s with failed := s.failed + 1 } rfl rfl rfl hcount false
  | some p =>
      have hcount : s.staged + 1 + s.failed = s.staged + s.failed + 1 := Nat.add_right_comm _ _ _
      have hline := hb.line { s with staged := s.staged + 1 } rfl rfl rfl hcount true
      have hstage := hline.stage p
      rwa [List.append_assoc] at hstage

theorem feedAll (prompt : String) (lines : List (List Char)) :
    Balanced (feedAll prompt s lines).1 (calls ++ s.feedAllCalls lines) := by
  induction lines generalizing s calls with
  | nil => simpa [Session.feedAll, feedAllCalls] using hb
  | cons line lines ih =>
      rw [feedAllCalls, ← List.append_assoc]
      exact ih (hb.feed line)

end Balanced

/-! ## Operations -/

variable (P : Primitives) (prompt : String)

/-- Every operation keeps the books balanced. -/
theorem perform_balanced {s : Session} {calls : List Call} (hb : Balanced s calls)
    (op : Operation) : Balanced (s.perform P prompt op).session (calls ++ s.calls op) := by
  cases op with
  | feed line => exact hb.feed line
  | run text => exact hb.feedAll prompt (Text.lines text)
  | stage p => exact hb.stage p
  | take => exact hb.take
  | poll => exact hb.poll
  | install p => exact hb.install p
  | evaluate point => simpa [perform, Step.map, evaluate, Session.calls] using hb
  | sample t width height => simpa [perform, Step.map, sample, Session.calls] using hb

/-- Performs operations in order, and lists the calls they come to. -/
def performAll (s : Session) : List Operation → Session × List Call
  | [] => (s, [])
  | op :: ops =>
    let (last, later) := performAll (s.perform P prompt op).session ops
    (last, s.calls op ++ later)

/-- Every sequence of operations keeps the books balanced. -/
theorem performAll_balanced {s : Session} {calls : List Call} (hb : Balanced s calls)
    (ops : List Operation) :
    Balanced (s.performAll P prompt ops).1 (calls ++ (s.performAll P prompt ops).2) := by
  induction ops generalizing s calls with
  | nil => simpa [performAll] using hb
  | cons op ops ih =>
      have hrest := ih (perform_balanced P prompt hb op)
      rwa [List.append_assoc] at hrest

/-- Whether a reply tells of a failure: a line or a program was refused, or a poll installed
nothing. -/
def Reply.isFailure : Reply → Bool
  | .fed accepted => !accepted
  | .polled program => program.isNone
  | .installed (.error _) => true
  | _ => false

/-- An operation that fails leaves the evaluator as it was. -/
theorem perform_failed (s : Session) (op : Operation)
    (h : (s.perform P prompt op).result.isFailure = true) :
    (s.perform P prompt op).session.evaluator = s.evaluator := by
  cases op with
  | feed line =>
      simp only [perform, Step.map, feed_session]
      cases program? line <;> rfl
  | poll =>
      rw [perform, poll_eq] at h ⊢
      cases hwaiting : s.slot.waiting with
      | none => rfl
      | some p =>
          cases hcheck : p.check with
          | ok is => simp [hwaiting, deliver_of_ok _ hcheck, Step.map, Reply.isFailure] at h
          | error e => simp only [deliver_of_error _ hcheck, Step.map, take_session]
  | install p =>
      cases hcheck : p.check with
      | ok is => simp [perform, s.install_of_ok hcheck, Step.map, Reply.isFailure] at h
      | error e => simp only [perform, s.install_of_error hcheck, Step.map]
  | run text => cases h
  | stage p => cases h
  | take => cases h
  | evaluate point => rfl
  | sample t width height => rfl

/-- A line that is refused leaves the slot as it was. -/
theorem feed_failed {s : Session} {line : List Char} (h : (s.feed line).result = false) :
    (s.feed line).session.slot = s.slot := by
  rw [feed_result] at h
  rw [feed_session]
  cases hprogram : program? line with
  | none => rfl
  | some p =>
      rw [hprogram] at h
      cases h

/-- There is no value for want of a program exactly if there is no program. -/
theorem evaluate_eq_notInstalled_iff (e : Evaluator) (point : Point) :
    e.evaluate P point = .error .notInstalled ↔ e.current = none := by
  cases hcurrent : e.current with
  | none => simp [Evaluator.evaluate, hcurrent]
  | some installation =>
      cases hrun : Machine.evaluate P installation.instructions point <;>
        simp [Evaluator.evaluate, hcurrent, hrun]

/-- **The books of a session.** After any sequence of operations on a new session: every program
that was staged was replaced, was taken or still waits; every line that was fed is counted as staged
or as failed; the generation of the evaluator is the number of installations, and is no less than
the number of those by polls; the generation is zero exactly as long as nothing is installed, and
exactly as long as there is no value for want of a program, and afterwards the instructions are
those of the installed program. An operation that then fails leaves the evaluator as it was, and a
line that is refused leaves the slot as it was. -/
theorem performAll_keeps_books (ops : List Operation) :
    let s := (empty.performAll P prompt ops).1
    let calls := (empty.performAll P prompt ops).2
    (calls.countP Call.isStaging = calls.countP Call.isReplacement + calls.countP Call.isTaking +
      if s.slot.pending then 1 else 0) ∧
    s.staged + s.failed = calls.countP Call.isLine ∧
    (s.evaluator.generation = calls.countP Call.isInstallation ∧
      s.polled ≤ s.evaluator.generation) ∧
    ((s.evaluator.generation = 0 ↔ s.evaluator.installed = none) ∧
      (∀ point, s.evaluator.generation = 0 ↔
        s.evaluator.evaluate P point = .error .notInstalled) ∧
      ∀ i, s.evaluator.current = some i → i.program.check = .ok i.instructions) ∧
    ∀ op, (s.perform P prompt op).result.isFailure = true →
      (s.perform P prompt op).session.evaluator = s.evaluator ∧
      ∀ line, op = .feed line → (s.perform P prompt op).session.slot = s.slot := by
  intro s calls
  have hb : Balanced s calls := performAll_balanced P prompt empty_balanced ops
  refine ⟨hb.stagings, hb.lines, ⟨hb.generation, hb.polled_le⟩, ⟨?_, ?_, hb.instructions⟩, ?_⟩
  · rw [hb.generation_eq_zero_iff, Evaluator.installed, Option.map_eq_none_iff]
  · intro point
    rw [hb.generation_eq_zero_iff, evaluate_eq_notInstalled_iff]
  · intro op hop
    refine ⟨perform_failed P prompt s op hop, ?_⟩
    rintro line rfl
    exact feed_failed (by simpa [perform, Step.map, Reply.isFailure] using hop)

end LiveFormula.Session
