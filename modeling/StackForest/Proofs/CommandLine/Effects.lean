import StackForest.Proofs.Analysis
import StackForest.Proofs.CommandLine.Ends

/-!
# What runs leave behind

A run that does not get to its output changes no files and prints an error line; a run that ends
well has written what the options ask for (`run_effects`). The exception is an input whose name is
too long to be looked for. Among the obstacles of `Files` it is the only one; where there are
permissions, an input below a directory that may not be searched is another.
-/

namespace StackForest.CommandLine

open Step

/-! ## Texts and the paths they go to -/

/-- The path that a setting names, if it is not empty. -/
def Setting.named : Setting → Option String
  | .given s => if s.isEmpty then none else some s
  | _ => none

/-- The path that the JSON text goes to, unless it is printed. -/
def Setting.jsonFile : Setting → Option String
  | .given s => if s = "-" then none else some s
  | _ => none

/-- The texts that a run writes with their paths, in the order in which they are written. -/
def outputs (o : Options) (a : Analysis) (is : List Instruction) (tree program : Graph) :
    List (String × List Char) :=
  o.output.jsonFile.toList.map (fun path => (Path.normalize path, a.json (.spaces 2))) ++
    (o.outvm.named.toList.map (fun path => (Path.normalize path, State.render is)) ++
      (o.dot.named.toList.map (fun path => (path, tree.render.toList)) ++
        o.plistDot.named.toList.map fun path => (path, program.render.toList)))

theorem withPath_eq (setting : Setting) (k : String → Step Unit) :
    withPath setting k = setting.named.elim (pure ()) k := by
  cases setting with
  | absent => rfl
  | emptied => rfl
  | given path =>
    simp only [withPath, Setting.named]
    split
    · rfl
    · rfl

theorem drawGraph_of_named_none {setting : Setting} (h : setting.named = none) :
    drawGraph setting = pure () := by
  rw [drawGraph, withPath_eq, h]
  rfl

theorem writes_withPath {setting : Setting} {k : String → Step Unit}
    {text : String → String × List Char} (h : ∀ path, Writes [text path] (k path)) :
    Writes (setting.named.toList.map text) (withPath setting k) := by
  rw [withPath_eq]
  cases setting.named with
  | none => exact writes_pure ()
  | some path => exact h path

section
variable {room : Room} {o : Options} {a : Analysis}

theorem writes_writeJson : Writes
    (o.output.jsonFile.toList.map fun path => (Path.normalize path, a.json (.spaces 2)))
    (writeJson room o a) := by
  unfold writeJson
  cases hjson : a.json? room (.spaces 2) with
  | error e => exact writes_attempt_error _ _
  | ok text =>
    obtain ⟨-, rfl⟩ := Analysis.json?_eq_ok_iff.mp hjson
    rw [mapError_ok, attempt_ok_bind]
    cases houtput : o.output with
    | absent => exact writes_pure ()
    | emptied =>
      intro s u s' h
      cases h
    | given path =>
      by_cases hdash : path = "-"
      · simp only [Setting.jsonFile, if_pos hdash]
        exact writes_modify fun _ => rfl
      · simp only [Setting.jsonFile, if_neg hdash]
        exact writes_bind_info o _ (writes_write _ _)

theorem writes_writeState {is : List Instruction} (h : Record.instructions? a.program = .ok is) :
    Writes (o.outvm.named.toList.map fun path => (Path.normalize path, State.render is))
      (writeState room o a) := by
  refine writes_withPath fun path => ?_
  rw [h, mapError_ok, attempt_ok_bind]
  cases hstate : State.render? room is with
  | error e => exact writes_attempt_error _ _
  | ok text =>
    rw [State.eq_render_of_render? hstate, mapError_ok, attempt_ok_bind]
    exact writes_bind_info o _ (writes_write _ _)

theorem writes_writeGraph (setting : Setting) (g : Graph) :
    Writes (setting.named.toList.map fun path => (path, g.render.toList))
      (writeGraph setting (.ok g)) := by
  refine writes_withPath fun path => ?_
  rw [attempt_ok_bind]
  exact writes_write _ _

theorem writes_writeOutputs {is : List Instruction} {tree program : Graph}
    (hsvg : o.svg.named = none) (hplistSvg : o.plistSvg.named = none)
    (his : Record.instructions? a.program = .ok is) (htree : a.forestGraph = .ok tree)
    (hprogram : a.programGraph = .ok program) :
    Writes (outputs o a is tree program) (writeOutputs room o a) := by
  unfold writeOutputs outputs
  rw [htree, hprogram, mapError_ok, mapError_ok, drawGraph_of_named_none hsvg,
    drawGraph_of_named_none hplistSvg]
  -- one part of the output for each step, in the order of the steps
  refine writes_bind writes_writeJson fun _ => ?_
  refine writes_bind (writes_writeState his) fun _ => ?_
  refine writes_bind (writes_writeGraph o.dot tree) fun _ => ?_
  simpa using writes_bind (writes_writeGraph o.plistDot program) fun _ => writes_pure ()

end

/-! ## Runs -/

/-- A run that ended with an error line: nothing is printed but that line, with progress in front
of it, and the files are as they were. -/
structure Complains (s : Session) (line : String) (r : End × Session) : Prop where
  code : r.1 = .ok 1
  stdout : r.2.stdout = s.stdout
  stderr : ∃ lines, r.2.stderr = s.stderr ++ progress lines ++ "Error: " ++ line ++ "\n"
  files : r.2.files = s.files

theorem complains_addLines (s : Session) (lines : List String) (line : String) :
    Complains s line ((complain line).run (addLines s lines)) :=
  ⟨rfl, rfl, ⟨lines, rfl⟩, rfl⟩

theorem exists_program_of_load {room : Room} {t : Files} {fdef : List String} {path : String}
    {a : Analysis} (h : load room t fdef path = .ok a) :
    ∃ is, t.loadProgram path room.reading = .ok is ∧ Record.instructions? a.program = .ok is := by
  obtain ⟨defs, -, h⟩ := exists_of_bind_eq_ok h
  obtain ⟨is, his, h⟩ := exists_of_bind_eq_ok h
  obtain ⟨forest, -, rfl⟩ := map_eq_ok_iff.mp (mapError_eq_ok_iff.mp h)
  exact ⟨is, his, instructions?_map is⟩

section
variable {room : Room} {o : Options} {s : Session}

theorem run_of_exists_error {input : String} {fault : Files.Fault} (hinput : o.input = .given input)
    (h : s.files.exists? (Path.normalize input) = .error fault) :
    (run room o).run s = (.error (.file fault), s) := by
  unfold run
  simp only [hinput, path?, StateT.run_bind, StateT.run_get, pure_bind, h]
  rfl

theorem run_of_missing {input : String} (hinput : o.input = .given input)
    (h : s.files.exists? (Path.normalize input) = .ok false) :
    (run room o).run s = (complain ("file '" ++ input ++ "' not found")).run s := by
  unfold run
  simp only [hinput, path?, StateT.run_bind, StateT.run_get, pure_bind, h]

theorem complains_of_load_error {input : String} {f : Failure} {found : Bool}
    (hinput : o.input = .given input)
    (hexists : s.files.exists? (Path.normalize input) = .ok found)
    (h : load room s.files o.fdef (Path.normalize input) = .error f) (hf : f.isReported = true) :
    Complains s (if found then f.message else "file '" ++ input ++ "' not found")
      ((run room o).run s) := by
  cases found with
  | false =>
    have h := complains_addLines s [] ("file '" ++ input ++ "' not found")
    rw [addLines_nil] at h
    rw [run_of_missing hinput hexists]
    exact h
  | true =>
    obtain ⟨lines, hrun⟩ := run_of_load_error hinput hexists h
    rw [hrun, report, if_pos hf]
    exact complains_addLines s lines f.message

theorem exists_of_run_eq_ok (h : ((run room o).run s).1 = .ok 0) :
    ∃ input u, o.input = .given input ∧
      (analyze room o input >>= writeOutputs room o).result s =
        (.ok u, ((run room o).run s).2) := by
  cases hinput : o.input with
  | absent => simp [run, hinput, path?] at h
  | emptied => simp [run, hinput, path?] at h
  | given input =>
    cases hexists : s.files.exists? (Path.normalize input) with
    | error fault =>
      rw [run_of_exists_error hinput hexists] at h
      cases h
    | ok found =>
      cases found with
      | false =>
        rw [run_of_missing hinput hexists] at h
        cases h
      | true =>
        have hrun : (run room o).run s = _ := run_eq hinput hexists
        cases hsteps : (analyze room o input >>= writeOutputs room o).result s with
        | mk r s' =>
          rw [hsteps] at hrun
          cases r with
          | ok u => exact ⟨input, u, rfl, by rw [hrun]; exact hsteps⟩
          | error f =>
            simp only [hrun, report] at h
            split at h
            · cases h
            · cases h

end

/-- **What runs leave behind.** Where no drawing is asked for: when the definitions, the program or
the forest cannot be had, for a reason that can be reported, a run ends with code 1 and one error
line and does nothing else, unless the name of its input is too long to be looked for. When a run
ends with code 0, its output stands at the paths that the options name, where the last text wins,
and everything else is as it was. The obstacles are those of `Files`, without permissions, links and
devices. -/
theorem run_effects (room : Room) {o : Options} (hsvg : o.svg.named = none)
    (hplistSvg : o.plistSvg.named = none) (s : Session) :
    (∀ input f, o.input = .given input →
      load room s.files o.fdef (Path.normalize input) = .error f → f.isReported = true →
        (∀ fault, s.files.exists? (Path.normalize input) = .error fault →
          fault = ⟨.nameTooLong, Path.normalize input⟩ ∧
            (run room o).run s = (.error (.file fault), s)) ∧
        ∀ found, s.files.exists? (Path.normalize input) = .ok found →
          Complains s (if found then f.message else "file '" ++ input ++ "' not found")
            ((run room o).run s)) ∧
    (((run room o).run s).1 = .ok 0 → ∃ input is a tree program, o.input = .given input ∧
      s.files.loadProgram (Path.normalize input) room.reading = .ok is ∧
      load room s.files o.fdef (Path.normalize input) = .ok a ∧
      a.forestGraph = .ok tree ∧ a.programGraph = .ok program ∧
      Files.Overwritten s.files (outputs o a is tree program) ((run room o).run s).2.files) := by
  constructor
  · intro input f hinput hload hf
    exact ⟨fun fault hexists =>
        ⟨Files.fault_of_exists_error hexists, run_of_exists_error hinput hexists⟩,
      fun found hexists => complains_of_load_error hinput hexists hload hf⟩
  · intro hrun
    obtain ⟨input, u, hinput, hsteps⟩ := exists_of_run_eq_ok hrun
    obtain ⟨lines, hanalyze⟩ := answers_analyze room s.files o input s rfl
    cases hload : load room s.files o.fdef (Path.normalize input) with
    | error f =>
      rw [hload] at hanalyze
      rw [result_bind_error hanalyze] at hsteps
      cases hsteps
    | ok a =>
      rw [hload] at hanalyze
      rw [result_bind_ok hanalyze] at hsteps
      obtain ⟨is, hprogram, his⟩ := exists_program_of_load hload
      obtain ⟨-, ⟨tree, htree⟩, ⟨program, hgraph⟩⟩ := printable_of_load hload
      -- the lines of progress have not changed the files
      have hwrites := writes_writeOutputs hsvg hplistSvg his htree hgraph (addLines s lines) u _
        hsteps
      exact ⟨input, is, a, tree, program, hinput, hprogram, hload, htree, hgraph,
        Files.overwritten_of_writeAll hwrites⟩

theorem load_of_longName {room : Room} {t : Files} {path : String}
    (hsuffix : Path.suffix path = ".json") (h : t.place path = .error .nameTooLong) :
    t.exists? path = .error ⟨.nameTooLong, path⟩ ∧
      load room t [] path = .error (.file ⟨.nameTooLong, path⟩) := by
  have hread : t.read path = .error ⟨.nameTooLong, path⟩ := by rw [Files.read, h]
  have htext : t.readText path = .error (.file ⟨.nameTooLong, path⟩) :=
    Files.readText_eq_error_iff.mpr (.inl ⟨_, hread, rfl⟩)
  have hprogram : t.loadProgram path room.reading = .error (.file ⟨.nameTooLong, path⟩) := by
    rw [Files.loadProgram, if_pos hsuffix, Files.loadState, htext]
    rfl
  exact ⟨by rw [Files.exists?, h], load_of_loadProgram rfl hprogram⟩

/-- A name of more than 255 bytes, which is refused before the file is looked for. -/
theorem run_ne_of_longName :
    let input := String.ofList (List.replicate 256 'a' ++ ".json".toList)
    let fault : Files.Fault := ⟨.nameTooLong, input⟩
    let s : Session := ⟨Files.empty, "", ""⟩
    let o : Options := { Options.none with input := .given input }
    load .usual s.files o.fdef (Path.normalize input) = .error (.file fault) ∧
      (Failure.file fault).isReported = true ∧ (run .usual o).run s = (.error (.file fault), s) ∧
      ((run .usual o).run s).1 ≠ .ok 1 := by
  intro input fault s o
  have hlist : input.toList = List.replicate 256 'a' ++ ".json".toList := String.toList_ofList
  have hslash : '/' ∉ input.toList := by
    rw [hlist]
    decide +kernel
  have hnull : '\x00' ∉ input.toList := by
    rw [hlist]
    decide +kernel
  have hlong : Files.nameLimit < input.utf8ByteSize := by
    rw [← String.size_toByteArray, String.toByteArray_ofList]
    decide +kernel
  have hempty : input ≠ "" := by
    intro h
    rw [h] at hlong
    exact absurd hlong (by decide)
  have hdot : input ≠ "." := by
    intro h
    rw [h] at hlong
    exact absurd hlong (by decide)
  have hsuffix : Path.suffix input = ".json" := by
    rw [Path.suffix_of_notMem hslash hempty hdot, Path.suffixOf, hlist]
    decide +kernel
  have hnormal : Path.normalize input = input := Path.normalize_of_notMem hslash hempty hdot
  have hplace : s.files.place input = .error .nameTooLong :=
    Files.place_of_longName rfl hslash hnull hlong
  obtain ⟨hexists, hload⟩ := load_of_longName hsuffix hplace
  have hrun : (run .usual o).run s = (.error (.file fault), s) := by
    have hnormalized : s.files.exists? (Path.normalize input) = .error fault := by
      rw [hnormal]
      exact hexists
    exact run_of_exists_error rfl hnormalized
  refine ⟨?_, rfl, hrun, ?_⟩
  · rw [hnormal]
    exact hload
  rw [hrun]
  simp

/-- A program that is overwritten twice by its own run; then a run that misses its definitions. -/
theorem run_effects_of_overwritten :
    let s : Session := ⟨Files.empty.put ["work", "p.tzoct"] (.file [0x31]), "", ""⟩
    let o : Options := { Options.none with
      input := .given "p.tzoct", output := .given "p.tzoct", outvm := .given "s.json",
      dot := .given "./p.tzoct" }
    let o' : Options := { o with fdef := ["d.json"] }
    ((run .usual o).run s).1 = .ok 0 ∧
      (∃ a tree, load .usual s.files [] "p.tzoct" = .ok a ∧ a.forestGraph = .ok tree ∧
        ((run .usual o).run s).2.files.node? ["work", "p.tzoct"] =
          some (.file (Text.Utf8.encode tree.render.toList))) ∧
      Complains s (Failure.file ⟨.missing, "d.json"⟩).message ((run .usual o').run s) := by
  intro s o o'
  have hcode : ((run .usual o).run s).1.toOption = some 0 := by decide +kernel +zetaReduce
  have hrun : ((run .usual o).run s).1 = .ok 0 := by
    cases h : ((run .usual o).run s).1 with
    | error f => rw [h] at hcode; cases hcode
    | ok code => rw [h] at hcode; cases hcode; rfl
  have hnormal : Path.normalize "p.tzoct" = "p.tzoct" := by decide +kernel
  have hplace : s.files.place "./p.tzoct" = .ok ["work", "p.tzoct"] := by
    decide +kernel +zetaReduce
  refine ⟨hrun, ?_, ?_⟩
  · obtain ⟨input, is, a, tree, program, hinput, -, hload, htree, -, hout⟩ :=
      (run_effects .usual (o := o) rfl rfl s).2 hrun
    cases hinput
    rw [hnormal] at hload
    refine ⟨a, tree, hload, htree, ?_⟩
    exact hout.last [(Path.normalize "p.tzoct", a.json (.spaces 2)),
      (Path.normalize "s.json", State.render is)] ("./p.tzoct", tree.render.toList) []
      ["work", "p.tzoct"] rfl hplace (by simp)
  · have hdefs : s.files.loadDefinitions o'.fdef Room.usual.reading =
        .error (.file ⟨.missing, "d.json"⟩) := rfl
    have hload : load .usual s.files o'.fdef (Path.normalize "p.tzoct") =
        .error (.file ⟨.missing, "d.json"⟩) := load_of_loadDefinitions hdefs
    exact ((run_effects .usual (o := o') rfl rfl s).1 "p.tzoct" _ rfl hload rfl).2 true rfl

end StackForest.CommandLine
