import LiveFormula.Live.Session

/-!
# What an operation does to a session

One equation for each operation of a session and each way it can go. The results about runs of a
session rest on these and never open the operations themselves.

* `Session.program?` is the program of a line, and all that `Session.feed` depends on.
* `Session.poll_eq` cuts a poll between the take and the delivery.
-/

set_option autoImplicit false

namespace LiveFormula.Session

variable (s : Session)

/-! ## The slot -/

@[simp] theorem stage_session (p : Program) :
    (s.stage p).session = { s with slot := ⟨some p⟩ } := rfl

@[simp] theorem stage_result (p : Program) : (s.stage p).result = s.slot.pending := rfl

@[simp] theorem take_session : s.take.session = { s with slot := .empty } := rfl

@[simp] theorem take_result : s.take.result = s.slot.waiting := rfl

/-! ## Installing -/

theorem install_of_ok {p : Program} {is : List Instr} (h : p.check = .ok is) :
    s.install p =
      { session := { s with evaluator := ⟨some ⟨p, is⟩, s.evaluator.generation + 1⟩ }
        result := .ok ()
        effects := [.log (.installed (s.evaluator.generation + 1) p.length)] } := by
  simp only [install, Evaluator.install, h]

theorem install_of_error {p : Program} {e : ProgramError} (h : p.check = .error e) :
    s.install p = { session := s, result := .error e, effects := [] } := by
  simp only [install, Evaluator.install, h]

theorem deliver_of_ok {p : Program} {is : List Instr} (h : p.check = .ok is) :
    s.deliver p =
      { session :=
          { s with
            evaluator := ⟨some ⟨p, is⟩, s.evaluator.generation + 1⟩
            polled := s.polled + 1 }
        result := some p
        effects := [.log (.installed (s.evaluator.generation + 1) p.length)] } := by
  simp only [deliver, s.install_of_ok h]

theorem deliver_of_error {p : Program} {e : ProgramError} (h : p.check = .error e) :
    s.deliver p =
      { session := s, result := none, effects := [.log (.rejectedProgram e.message)] } := by
  simp only [deliver, s.install_of_error h]

/-- A poll takes, and then delivers what it has taken. -/
theorem poll_eq :
    s.poll =
      match s.slot.waiting with
      | none => s.take
      | some p => s.take.session.deliver p := rfl

/-! ## Feeding -/

/-- The program of a line, unless the line is rejected. -/
def program? (line : List Char) : Option Program :=
  (compile (String.ofList (Text.dropLineEnds line))).toOption

theorem compile_of_program? {line : List Char} {p : Program} (h : program? line = some p) :
    compile (String.ofList (Text.dropLineEnds line)) = .ok p := by
  unfold program? at h
  cases hcompile : compile (String.ofList (Text.dropLineEnds line)) with
  | error e => rw [hcompile] at h; cases h
  | ok q =>
      rw [hcompile] at h
      cases h
      rfl

/-- A line with a program is staged and counted, and a line without one is only counted. -/
theorem feed_session (line : List Char) :
    (s.feed line).session =
      match program? line with
      | some p => { s with slot := ⟨some p⟩, staged := s.staged + 1 }
      | none => { s with failed := s.failed + 1 } := by
  simp only [feed, program?]
  cases compile (String.ofList (Text.dropLineEnds line)) <;> rfl

/-- The result of feeding a line says whether it has a program. -/
theorem feed_result (line : List Char) : (s.feed line).result = (program? line).isSome := by
  simp only [feed, program?]
  cases compile (String.ofList (Text.dropLineEnds line)) <;> rfl

end LiveFormula.Session
