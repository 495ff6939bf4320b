import Mathlib.Tactic.MkIffOfInductiveProp
import NixKernel.Command
import NixKernel.Proofs.Resolve

/-!
The command line. Which options can be used, and how the command ends: with a line for each path up
to the first empty one, each resolved as the machine resolves it, and with a code that tells whether
there was an empty one.
-/

namespace NixKernel.Command

/-! ### Options that can be used -/

/-- The options name a command and give it what it needs. -/
@[mk_iff] structure Options.Usable (o : Options) : Prop where
  command : o.args.head? = some "builtins" ∨ o.args.head? = some "topath"
  path : o.args ≠ ["topath"]
  flag : o.args.head? = some "builtins" → o.scriptDirGiven = false
  directory : o.scriptDir = "" ∨ ∃ t, o.scriptDir = "/" ++ t

theorem isAbsolute_iff {s : String} : Path.isAbsolute s = true ↔ ∃ t, s = "/" ++ t := by
  constructor
  · intro h
    obtain ⟨cs, hcs⟩ := List.head?_eq_some_iff.mp (beq_iff_eq.mp h)
    exact ⟨String.ofList cs, String.toList_inj.mp (by simp [hcs])⟩
  · rintro ⟨t, rfl⟩
    rw [Path.isAbsolute_append (by decide)]
    rfl

variable {o : Options} {c : Context}

theorem checkScriptDir_eq_ok {name : String} {task t : Task} :
    checkScriptDir name o task = .ok t ↔
      (o.scriptDir = "" ∨ ∃ t, o.scriptDir = "/" ++ t) ∧ t = task := by
  rw [← isAbsolute_iff]
  unfold checkScriptDir
  split
  · rename_i h
    refine iff_of_false (fun h => nomatch h) ?_
    rintro ⟨hempty | habs, -⟩
    · exact h.1 hempty
    · simp [habs] at h
  · rename_i h
    have hdir : o.scriptDir = "" ∨ Path.isAbsolute o.scriptDir = true := by
      by_contra hneither
      rw [not_or] at hneither
      exact h ⟨hneither.1, by simp [hneither.2]⟩
    exact ⟨fun ht => ⟨hdir, (Except.ok.inj ht).symm⟩, fun ht => congrArg Except.ok ht.2.symm⟩

/-- Without a call for help or for the version there is something to do if and only if the options
can be used. -/
theorem Options.task_eq_ok (hhelp : o.help = false) (hversion : o.version = false) {t : Task} :
    o.task = .ok t ↔ o.Usable ∧ (o.args.head? = some "builtins" ∧ t = .builtins ∨
      ∃ paths, o.args = "topath" :: paths ∧ t = .toPath o.scriptDir paths) := by
  obtain ⟨help, version, scriptDir, given, args⟩ := o
  dsimp only at hhelp hversion
  subst hhelp hversion
  unfold Options.task
  simp only [Bool.false_eq_true, if_false]
  split
  · simp [usable_iff]
  · split
    · simp [usable_iff, *]
    · simp [checkScriptDir_eq_ok, usable_iff, *]
  · simp [usable_iff]
  · rename_i paths hpaths
    have hne : paths ≠ [] := hpaths
    simp [checkScriptDir_eq_ok, usable_iff, hne]
  · rename_i name _ hbuiltins _ htopath
    have hne : name ≠ "builtins" ∧ name ≠ "topath" := ⟨hbuiltins, htopath⟩
    simp [usable_iff, hne]

/-- Options that cannot be used are refused: the command prints a reminder as an error, and
nothing else. -/
theorem Options.exit_unusable (hhelp : o.help = false) (hversion : o.version = false)
    (h : ¬ o.Usable) : ∃ e : UsageError, o.task = .error e ∧
      o.exit c = ⟨2, "", "invalid arguments: " ++ e.message ++ "\n" ++ shortUsage⟩ := by
  cases htask : o.task with
  | ok t => exact absurd ((Options.task_eq_ok hhelp hversion).mp htask).1 h
  | error e =>
    refine ⟨e, rfl, ?_⟩
    rw [Options.exit, htask]
    rfl

/-! ### Printing paths -/

/-- The paths before the first empty one are printed, and an empty one stops it. -/
theorem printPaths_endless (dir : Path) (paths : List String) :
    printPaths dir .endless paths =
      ((paths.takeWhile (· ≠ "")).map fun p => (dir.resolve p).text,
        if "" ∈ paths then some .emptyPath else none) := by
  induction paths with
  | nil => rfl
  | cons p ps ih =>
    unfold printPaths
    by_cases hp : p = ""
    · simp [hp, Sink.endless]
    · have htake : Sink.endless.take? = some .endless := rfl
      rw [if_neg (by decide), if_neg hp, htake]
      simp [ih, hp, Ne.symm hp]

/-- How a line of the output comes from a path on the command line: it is the canonical text of what
the path names in a directory, and what the machine prints for it on a thread that is set up with
that directory. -/
structure PrintedAs (dir p line : String) : Prop where
  canonical : Path.Canonical line
  text : line = (Path.ofString (if Path.isAbsolute p then p else dir ++ "/" ++ p)).text
  machine : ∀ (s : Store) (c : Config), c.scriptDir = dir → ∃ q : Path,
    (Comp.eval (s.rootScope c).1 (.toPath p)).Ends (s.rootScope c).2 (.ok (.path q))
      (s.rootScope c).2 ∧
    (Comp.print (.path q)).Ends (s.rootScope c).2 (.ok line) (s.rootScope c).2

theorem printedAs_resolve (dir p : String) :
    PrintedAs dir p ((Path.ofString dir).resolve p).text where
  canonical := Path.canonical_text _
  text := by
    unfold Path.resolve
    split
    · rfl
    · rw [Path.ofString_text_slash]
  machine := by
    rintro s c rfl
    have heval := Comp.eval_toPath (s.rootScope c).1 (s.rootScope c).2 p
    rw [Store.scriptDir_rootScope] at heval
    exact ⟨_, heval, 1, rfl⟩

theorem Options.exit_toPath {paths : List String} {dir : String}
    (h : o.task = .ok (.toPath o.scriptDir paths)) (hdir : c.directory o.scriptDir = .ok dir) :
    o.exit c =
      ⟨if "" ∈ paths then 1 else 0,
        lineText ((paths.takeWhile (· ≠ "")).map fun p => ((Path.ofString dir).resolve p).text),
        if "" ∈ paths then "invalid empty path\n" else ""⟩ := by
  rw [Options.exit, h]
  dsimp only [Task.run, toPaths]
  rw [hdir]
  dsimp only
  rw [printPaths_endless]
  by_cases hempty : "" ∈ paths
  · simp only [if_pos hempty]
    rfl
  · simp only [if_neg hempty]
    rfl

/-- **The contract of the command line.** Let options ask neither for help nor for the version. They
can be used if and only if the first argument is a command, paths to resolve are not missing, no
script directory is given by an option where none is needed, and the script directory is empty or
absolute. If they cannot, the command ends with the code 2, prints nothing, and reports an error. If
they can and ask for paths, then the command prints a line for each path before the first empty one,
in order: the canonical text of what the path names in the script directory or, if that is empty, in
the working directory. It ends with the code 0 and reports nothing if no path is empty; else it ends
with the code 1 and reports an empty path. If the working directory is needed and cannot be found
out, it ends with the code 1, prints nothing and reports that. However the command line is parsed,
the command ends so as soon as these options come of it. -/
theorem command_line_contract (c : Context) (o : Options) (hhelp : o.help = false)
    (hversion : o.version = false) :
    (∀ (parse : Parser) (args : List String), parse c.scriptDir args = .ok o →
      run parse c args = o.exit c) ∧
    ((∃ t, o.task = .ok t) ↔ o.Usable) ∧
    (¬ o.Usable → ∃ e : UsageError, o.task = .error e ∧
      o.exit c = ⟨2, "", "invalid arguments: " ++ e.message ++ "\n" ++ shortUsage⟩) ∧
    ∀ paths, o.args = "topath" :: paths → o.Usable →
      (∀ dir, c.directory o.scriptDir = .ok dir →
        (∃ lines, (o.exit c).stdout = lineText lines ∧
          List.Forall₂ (PrintedAs dir) (paths.takeWhile (· ≠ "")) lines) ∧
        ((o.exit c).code = 0 ∧ (o.exit c).stderr = "" ↔ "" ∉ paths) ∧
        ("" ∈ paths → (o.exit c).code = 1 ∧ (o.exit c).stderr = "invalid empty path\n")) ∧
      ∀ message, c.directory o.scriptDir = .error message →
        o.exit c = ⟨1, "", message ++ "\n"⟩ := by
  have htask {t} := Options.task_eq_ok hhelp hversion (t := t)
  have htopath {paths} (hpaths : o.args = "topath" :: paths) (hu : o.Usable) :
      o.task = .ok (.toPath o.scriptDir paths) := htask.mpr ⟨hu, .inr ⟨paths, hpaths, rfl⟩⟩
  refine ⟨fun parse args hread => ?_, ⟨?_, fun hu => ?_⟩, Options.exit_unusable hhelp hversion,
    fun paths hpaths hu => ⟨fun dir hdir => ?_, fun message hdir => ?_⟩⟩
  · rw [run, hread]
  · rintro ⟨t, ht⟩
    exact (htask.mp ht).1
  · rcases hu.command with hb | ht
    · exact ⟨_, htask.mpr ⟨hu, .inl ⟨hb, rfl⟩⟩⟩
    · obtain ⟨paths, hpaths⟩ := List.head?_eq_some_iff.mp ht
      exact ⟨_, htopath hpaths hu⟩
  · rw [Options.exit_toPath (htopath hpaths hu) hdir]
    refine ⟨⟨_, rfl, ?_⟩, ?_, fun hempty => ⟨if_pos hempty, if_pos hempty⟩⟩
    · rw [List.forall₂_map_right_iff]
      exact List.forall₂_same.mpr fun p _ => printedAs_resolve _ p
    · by_cases hempty : "" ∈ paths
      · simp [hempty]
      · simp [hempty]
  · rw [Options.exit, htopath hpaths hu]
    dsimp only [Task.run]
    rw [hdir]

/-- An option outranks the environment and makes the working directory superfluous, and nothing is
printed after the empty path. -/
theorem command_line_contract_stopped :
    ∃ e, run (Options.parse String.quote) ⟨"1.0", "today", some "rel", .error "no directory"⟩
        ["--script-dir", "/a/./b", "topath", "../x", "/y//z", "", "last"] = e ∧
      e.code = 1 ∧ e.stdout = "/a/x\n/y/z\n" ∧ e.stderr = "invalid empty path\n" := by
  obtain ⟨hrun, -, -, hpaths⟩ := command_line_contract
    ⟨"1.0", "today", some "rel", .error "no directory"⟩
    ⟨false, false, "/a/./b", true, ["topath", "../x", "/y//z", "", "last"]⟩ rfl rfl
  obtain ⟨⟨lines, hlines, hprinted⟩, -, hstops⟩ := (hpaths _ rfl
    ⟨.inr rfl, by decide, by decide, .inr ⟨"a/./b", rfl⟩⟩).1 _ rfl
  have hbefore : ["../x", "/y//z", "", "last"].takeWhile (· ≠ "") = ["../x", "/y//z"] := by decide
  rw [hbefore] at hprinted
  obtain _ | ⟨hup, _ | ⟨habs, _ | _⟩⟩ := hprinted
  obtain ⟨hcode, hstderr⟩ := hstops (by decide)
  refine ⟨_, hrun _ _ rfl, hcode, hlines.trans ?_, hstderr⟩
  rw [hup.text, habs.text]
  decide

end NixKernel.Command
