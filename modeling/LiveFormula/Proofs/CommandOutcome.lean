import LiveFormula.CommandLine.Plan
import LiveFormula.Proofs.ByteFormat
import LiveFormula.Proofs.Safety
import LiveFormula.Proofs.SessionStep

/-!
# Compiling and evaluating one formula

Two commands begin with a formula: one writes its program, the other prints its value. Both do their
work only after the formula has been compiled, so that a formula that does not compile ends both in
the same way, before any file is opened.

* `CommandLine.FileTree.sameFiles_opening` — opening a file leaves all files as they were, also if it
  fails after directories were made.
* `CommandLine.EvalCommand.execute_of_ok` — a formula that compiles has a value at every point.
* `CommandLine.eval_agrees_with_compile` — how the two commands end, and what they leave behind.
-/

set_option autoImplicit false

namespace LiveFormula

namespace Program

theorem collect_decode {words : List Int} {is : List Instr}
    (h : words.map Word.decode? = is.map some) : collect decode words = .ok is := by
  induction words generalizing is with
  | nil =>
      rw [List.map_eq_nil_iff.1 h.symm]
      rfl
  | cons w words ih =>
      cases is with
      | nil => cases h
      | cons i is =>
          rw [List.map_cons, List.map_cons, List.cons.injEq] at h
          simp only [collect, decode, h.1, ih h.2]

/-- An accepted program has a listing. -/
theorem exists_listing_of_check {p : Program} {is : List Instr} (h : p.check = .ok is) :
    ∃ lines, p.listing = .ok lines :=
  ⟨is.map mnemonic, by rw [listing, collect_decode (check_eq_ok_iff.1 h).1]⟩

end Program

namespace CommandLine

/-! ## Files -/

namespace FileTree

/-- What stands at a path after something was put at a path other than the root. -/
theorem node?_put (t : FileTree) {path : Path} (hpath : path ≠ []) (node : Node) (q : Path) :
    (t.put path node).node? q = if q = path then some node else t.node? q := by
  by_cases hq : q = path
  · subst hq
    simp [node?, put, hpath]
  · have hentries : (t.put path node).entries.find? (fun entry => entry.1 == q) =
        t.entries.find? fun entry => entry.1 == q := by
      rw [put, List.find?_cons_of_neg (by simpa using Ne.symm hq), List.find?_filter]
      congr 1
      funext entry
      by_cases hentry : entry.1 = q
      · simp [hentry, hq]
      · simp [hentry]
    rw [node?, node?, hentries, if_neg hq]

/-- The files of two trees are the same; directories may differ. -/
def SameFiles (t next : FileTree) : Prop :=
  ∀ q content, next.node? q = some (.file content) ↔ t.node? q = some (.file content)

theorem SameFiles.refl (t : FileTree) : t.SameFiles t := fun _ _ => Iff.rfl

theorem SameFiles.trans {t next last : FileTree} (h : t.SameFiles next) (h' : next.SameFiles last) :
    t.SameFiles last := fun q content => (h' q content).trans (h q content)

theorem sameFiles_of_makeDirectory {t next : FileTree} {path : Path}
    (h : t.makeDirectory path = .ok next) : t.SameFiles next := by
  unfold makeDirectory at h
  split at h
  · cases h
  · split at h
    · cases h
    · rename_i hfree
      cases h
      have hnone : t.node? path = none := by simpa using hfree
      have hpath : path ≠ [] := by
        rintro rfl
        cases hnone
      intro q content
      rw [t.node?_put hpath]
      split
      · rename_i hq
        subst hq
        simp [hnone]
      · rfl

/-- Directories are made only where there is nothing. -/
theorem sameFiles_makeFirst (t : FileTree) (path : Path) (count : Nat) :
    t.SameFiles (t.makeFirst path count).1 := by
  induction count with
  | zero => exact .refl t
  | succ count ih =>
      rw [makeFirst]
      split
      · rename_i hmake
        exact sameFiles_of_makeDirectory hmake
      · split
        · rename_i habove
          rwa [habove] at ih
        · rename_i habove
          rw [habove] at ih
          split
          · rename_i hmake
            exact ih.trans (sameFiles_of_makeDirectory hmake)
          · exact ih
      · split <;> exact .refl t

/-- Opening a file leaves all files as they were, also if it fails. -/
theorem sameFiles_opening (t : FileTree) (text : String) : t.SameFiles (t.opening text).1 := by
  unfold opening
  split
  · exact .refl t
  · rename_i path _
    have hmake := t.sameFiles_makeFirst path.dropLast path.dropLast.length
    split
    · rename_i hnext
      rwa [← makeDirectories, hnext] at hmake
    · rename_i hnext
      rw [← makeDirectories, hnext] at hmake
      split
      · exact hmake
      · split <;> exact hmake

/-- The path of a file that can be opened is not the root. -/
theorem ne_nil_of_opening {t next : FileTree} {text : String} {path : Path}
    (h : t.opening text = (next, .ok path)) : path ≠ [] := by
  unfold opening at h
  split at h
  · cases h
  · split at h
    · cases h
    · split at h
      · cases h
      · split at h
        · cases h
        · rename_i hnode
          cases h
          rintro rfl
          exact hnode rfl

end FileTree

/-! ## The two commands -/

namespace Outcome

/-- A formula that does not compile leaves the standard output empty. -/
theorem outputBytes_rejected (text : String) (e : CompileError) :
    (rejected text e).outputBytes = [] := by
  simp [rejected, outputBytes, Effect.outputBytes]

/-- What is written of a formula that does not compile is its report. -/
theorem diagnostics_rejected (text : String) (e : CompileError) :
    Effect.diagnostics (rejected text e).effects = (e.report text).render ++ "\n" := by
  simp [rejected]

end Outcome

theorem refused_status (effects : List Effect) (e : FileError) (event : String → Event) :
    (refused effects e event).status = 2 := by
  unfold refused
  split <;> rfl

section

variable {text : String} {p : Program} (input : List UInt8) (files : FileTree)

theorem EvalCommand.execute_of_error {P : Primitives} {e : CompileError}
    (h : compile text = .error e) (point : Point) :
    (EvalCommand.plan P ⟨text, point⟩).execute input files = (files, .rejected text e) := by
  simp only [plan, h, Plan.execute_finish]

theorem CompileCommand.execute_of_error {e : CompileError} (h : compile text = .error e)
    (format : ProgramFormat) (output : Destination) :
    (CompileCommand.plan ⟨text, format, output⟩).execute input files =
      (files, .rejected text e) := by
  simp only [plan, h, Plan.execute_finish]

/-- The value of a formula that compiles is printed, whatever the point. -/
theorem EvalCommand.execute_of_ok {P : Primitives} (hP : P.FailsOutsideDomain)
    (h : compile text = .ok p) (point : Point) :
    ∃ effects, (EvalCommand.plan P ⟨text, point⟩).execute input files = (files, .success effects) := by
  obtain ⟨is, his⟩ := check_of_compile h
  obtain ⟨x, hx⟩ := Machine.exists_evaluate_of_check hP point his
  simp only [plan, h, Session.empty.install_of_ok his, Evaluator.evaluate, hx, Plan.execute_finish]
  exact ⟨_, rfl⟩

/-- A formula that compiles is written to the destination, or the destination is refused. -/
theorem CompileCommand.execute_of_ok (h : compile text = .ok p) (format : ProgramFormat)
    (output : Destination) :
    (CompileCommand.plan ⟨text, format, output⟩).execute input files =
      let events := (compileEvents text (.ok p)).map Effect.log
      let done := [Effect.log (.compiled p.length)]
      match output with
      | .standardOutput => (files, .success (events ++ [.bytes (format.content p)] ++ done))
      | .pathless => (files, refused events .noPath (.outputRefused ""))
      | .file path =>
        match files.write path (format.content p) with
        | (next, .error e) => (next, refused events e (.outputRefused path))
        | (next, .ok _) => (next, .success (events ++ done)) := by
  simp only [plan, h]
  cases output with
  | standardOutput => rfl
  | pathless => rfl
  | file path =>
      simp only [Plan.execute_write]
      obtain ⟨next, result⟩ := files.write path (format.content p)
      cases result <;> rfl

/-- The bytes of a program go to the standard output. -/
theorem CompileCommand.execute_standardOutput (h : compile text = .ok p) (format : ProgramFormat) :
    ((CompileCommand.plan ⟨text, format, .standardOutput⟩).execute input files).2.outputBytes =
      format.content p := by
  rw [execute_of_ok input files h]
  simp [Outcome.success, Outcome.outputBytes, Effect.outputBytes]

/-- The bytes of a program go to the file, if it can be opened. -/
theorem CompileCommand.execute_file (h : compile text = .ok p) (format : ProgramFormat)
    {path : String} {next : FileTree} {target : Path} (hopen : files.opening path = (next, .ok target)) :
    ∃ effects, (CompileCommand.plan ⟨text, format, .file path⟩).execute input files =
      (next.put target (.file (format.content p)), .success effects) := by
  rw [execute_of_ok input files h]
  simp only [FileTree.write, hopen]
  exact ⟨_, rfl⟩

/-- No formula that compiles ends as one that does not. -/
theorem CompileCommand.status_ne_one (h : compile text = .ok p) (format : ProgramFormat)
    (output : Destination) :
    ((CompileCommand.plan ⟨text, format, output⟩).execute input files).2.status ≠ 1 := by
  rw [execute_of_ok input files h]
  cases output with
  | standardOutput => simp [Outcome.success]
  | pathless => simp [refused_status]
  | file path =>
      rcases hwrite : files.write path (format.content p) with ⟨next, e | _⟩
      · simp [hwrite, refused_status]
      · simp [hwrite, Outcome.success]

end

/-- **Two commands on one formula.** Evaluating a formula ends with 1 if it does not compile and with
0 if it does, and compiling it ends with 1 for the same formulas. A formula that does not compile
ends both in the same way: the report is written, the standard output stays empty and all files
stay as they were. A formula that compiles can be written in every format, and if the file for it
can be opened, the file holds what would have gone to the standard output, and no other file is
touched. -/
theorem eval_agrees_with_compile (P : Primitives) (hP : P.FailsOutsideDomain) (text : String)
    (point : Point) (format : ProgramFormat) (output : Destination) (input : List UInt8)
    (files : FileTree) :
    let evaluated := (EvalCommand.plan P ⟨text, point⟩).execute input files
    let compiled := (CompileCommand.plan ⟨text, format, output⟩).execute input files
    let printed := (CompileCommand.plan ⟨text, format, .standardOutput⟩).execute input files
    ((evaluated.2.status = 1 ↔ ∃ e, compile text = .error e) ∧
      (evaluated.2.status = 0 ↔ ∃ p, compile text = .ok p) ∧
      (compiled.2.status = 1 ↔ ∃ e, compile text = .error e)) ∧
    (∀ e, compile text = .error e →
      evaluated = compiled ∧ compiled.1 = files ∧ compiled.2.outputBytes = [] ∧
        Effect.diagnostics compiled.2.effects = (e.report text).render ++ "\n") ∧
    ∀ p, compile text = .ok p →
      (∃ bytes, p.toBytes? = some bytes) ∧ (∃ lines, p.listing = .ok lines) ∧
      ∀ path next target, output = .file path → files.opening path = (next, .ok target) →
        compiled.2.status = 0 ∧ printed.2.outputBytes = format.content p ∧
        ∀ q content, compiled.1.node? q = some (.file content) ↔
          if q = target then content = printed.2.outputBytes
          else files.node? q = some (.file content) := by
  intro evaluated compiled printed
  refine ⟨?_, fun e he => ?_, fun p hp => ⟨?_, ?_, ?_⟩⟩
  · cases hcompile : compile text with
    | error e =>
        have hevaluated : evaluated = _ := EvalCommand.execute_of_error input files hcompile point
        have hcompiled : compiled = _ :=
          CompileCommand.execute_of_error input files hcompile format output
        simp [hevaluated, hcompiled, Outcome.rejected]
    | ok p =>
        obtain ⟨effects, hevaluated⟩ := EvalCommand.execute_of_ok input files hP hcompile point
        have hcompiled := CompileCommand.status_ne_one input files hcompile format output
        simp [evaluated, hevaluated, compiled, hcompiled, Outcome.success]
  · have hevaluated : evaluated = _ := EvalCommand.execute_of_error input files he point
    have hcompiled : compiled = _ := CompileCommand.execute_of_error input files he format output
    rw [hevaluated, hcompiled]
    exact ⟨rfl, rfl, Outcome.outputBytes_rejected text e, Outcome.diagnostics_rejected text e⟩
  · obtain ⟨e, -, hencode⟩ := exists_encode_of_compile hp
    exact ⟨_, Program.toBytes?_eq_some_iff.2 ⟨fits_of_encode hencode, rfl⟩⟩
  · obtain ⟨is, his⟩ := check_of_compile hp
    exact Program.exists_listing_of_check his
  · rintro path next target rfl hopen
    obtain ⟨effects, hcompiled⟩ := CompileCommand.execute_file input files hp format hopen
    have hprinted : printed.2.outputBytes = _ :=
      CompileCommand.execute_standardOutput input files hp format
    have hsame := files.sameFiles_opening path
    rw [hopen] at hsame
    simp only [compiled, hcompiled, hprinted]
    refine ⟨rfl, trivial, fun q content => ?_⟩
    rw [next.node?_put (FileTree.ne_nil_of_opening hopen)]
    split
    · simp [eq_comm]
    · exact hsame q content

/-- With `u*` a file stays as it was, and with `u` it is overwritten by the eight bytes of one
word. -/
theorem eval_agrees_with_compile_overwritten :
    let files : FileTree :=
      ⟨["work"], none, [(["work"], .directory), (["work", "w"], .file [1, 2, 3])]⟩
    let written (text : String) :=
      (CompileCommand.plan ⟨text, .bytes, .file "w"⟩).execute [] files
    Primitives.standard.FailsOutsideDomain ∧
      compile "u*" = .error (.parse (.unexpected 2)) ∧ (written "u*").1 = files ∧
      compile "u" = .ok ⟨[0x100000001]⟩ ∧ files.opening "w" = (files, .ok ["work", "w"]) ∧
      (written "u").1.node? ["work", "w"] = some (.file [1, 0, 0, 0, 1, 0, 0, 0]) := by
  intro files written
  have hP := Primitives.standard_failsOutsideDomain
  have hstops : compile "u*" = .error (.parse (.unexpected 2)) := rfl
  have hu : compile "u" = .ok ⟨[0x100000001]⟩ := by decide +kernel
  have hopen : files.opening "w" = (files, .ok ["work", "w"]) := by
    have hnames : pathNames "w" = ["w"] := by
      have hraw : rawNames "w" = ["w"] := by
        rw [rawNames, String.splitOn, if_neg (by decide +kernel), String.splitOnAux,
          if_neg (by decide +kernel), if_neg (by decide +kernel), String.splitOnAux,
          if_pos (by decide +kernel)]
        decide +kernel
      simp [pathNames, hraw]
    have hresolve : files.resolve "w" = .ok ["work", "w"] := by
      have hnull : FileTree.hasNull "w" = false := by decide +kernel
      simp [FileTree.resolve, FileTree.origin, isAbsolute, hnames, hnull, files, Path.follow]
    simp only [FileTree.opening, hresolve]
    rfl
  have point := EvalCommand.point {}
  obtain ⟨-, hrejected, -⟩ :=
    eval_agrees_with_compile .standard hP "u*" point .bytes (.file "w") [] files
  obtain ⟨-, -, hwritten⟩ :=
    eval_agrees_with_compile .standard hP "u" point .bytes (.file "w") [] files
  obtain ⟨-, -, hfile⟩ := hwritten _ hu
  obtain ⟨-, hprinted, hnode⟩ := hfile "w" files ["work", "w"] rfl hopen
  refine ⟨hP, hstops, (hrejected _ hstops).2.1, hu, hopen, (hnode _ _).2 ?_⟩
  rw [if_pos rfl, hprinted]
  rfl

end CommandLine

end LiveFormula
