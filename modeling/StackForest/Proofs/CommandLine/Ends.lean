import StackForest.Proofs.CommandLine.Step
import StackForest.Proofs.Graph
import StackForest.Proofs.Illegible

/-!
# How runs end

The contents of the files let a failure escape in the ways that `Unread` and `TooDeep` list, and in
no other (`run_ends`). Half of a surrogate pair in a JSON text is left aside.
-/

namespace StackForest.CommandLine

open Step

/-! ## Reading and analysis -/

/-- The analysis that a run prints. -/
def load (room : Room) (t : Files) (fdef : List String) (path : String) :
    Except Failure Analysis := do
  let defs ← t.loadDefinitions fdef room.reading
  let is ← t.loadProgram path room.reading
  (Analysis.ofProgram (.extend defs) (is.map .instruction)).mapError .tree

theorem answers_analyze (room : Room) (t : Files) (o : Options) (input : String) :
    Answers t (analyze room o input) (load room t o.fdef (Path.normalize input)) := by
  unfold analyze load
  refine answers_bind (answers_onFiles _) fun defs => ?_
  -- what comes behind the line about definitions, which is printed only if there are any files
  have hrest : Answers t
      (do
        let is ← onFiles (·.loadProgram (Path.normalize input) room.reading)
        info o (s!"Read {is.length} instructions from " ++ Path.normalize input)
        let a ← attempt
          ((Analysis.ofProgram (.extend defs) (is.map .instruction)).mapError .tree)
        info o s!"Reconstructed {a.forest.length} top-level expressions"
        return a)
      (t.loadProgram (Path.normalize input) room.reading >>= fun is =>
        (Analysis.ofProgram (.extend defs) (is.map .instruction)).mapError .tree) := by
    refine answers_bind (answers_onFiles _) fun is => answers_info_bind o _ ?_
    exact answers_bind_info o _ (answers_attempt _)
  dsimp only
  split
  · exact answers_info_bind o _ hrest
  · exact hrest

/-! ## Failures that escape -/

/-- The contents of a file that is read on the way to an analysis let a failure escape. -/
inductive Unread (room : Room) (t : Files) (fdef : List String) (path : String) : Failure → Prop
  | definitions {before after : List String} {file : String} {defs : Definitions}
    {bytes : List UInt8} {f : Failure} : fdef = before ++ file :: after →
    t.loadDefinitions before room.reading = .ok defs → t.read file = .ok bytes →
    Illegible (BadDefinitions room.reading) bytes f → Unread room t fdef path f
  | state {defs : Definitions} {bytes : List UInt8} {f : Failure} :
    t.loadDefinitions fdef room.reading = .ok defs → Path.suffix path = ".json" →
    t.read path = .ok bytes → Illegible (BadState room.reading) bytes f →
    Unread room t fdef path f
  | concise {defs : Definitions} {bytes : List UInt8} {f : Failure} :
    t.loadDefinitions fdef room.reading = .ok defs → Path.suffix path ∈ Files.conciseSuffixes →
    t.read path = .ok bytes → Illegible BadConcise bytes f → Unread room t fdef path f

/-- An analysis for which there is no room lets a failure escape. -/
inductive TooDeep (room : Room) (o : Options) (a : Analysis) : Failure → Prop
  | json {e : Overflow} : a.json? room (.spaces 2) = .error e → TooDeep room o a (.overflow e)
  | state {path : String} {is : List Instruction} {e : Overflow} : o.outvm = .given path →
    Record.instructions? a.program = .ok is → State.render? room is = .error e →
    TooDeep room o a (.overflow e)

inductive Names (o : Options) : String → Prop
  | fdef {path : String} : path ∈ o.fdef → Names o path
  | input {s : String} : o.input = .given s → Names o (Path.normalize s)
  | output {s : String} : o.output = .given s → Names o (Path.normalize s)
  | outvm {s : String} : o.outvm = .given s → Names o (Path.normalize s)
  | dot {path : String} : o.dot = .given path → Names o path
  | plistDot {path : String} : o.plistDot = .given path → Names o path

inductive OfOptions (o : Options) : Failure → Prop
  | null {path : String} {f : Failure} : Names o path → HasNull path f → OfOptions o f
  | emptied : o.output = .emptied → OfOptions o .noPath

section
variable {room : Room} {t : Files} {f : Failure}

theorem unread_of_loadDefinitions {fdef : List String} {path : String}
    (h : t.loadDefinitions fdef room.reading = .error f) (hf : f.isReported = false)
    (hpaired : f ≠ .unpaired) : Unread room t fdef path f ∨ ∃ file ∈ fdef, HasNull file f := by
  obtain ⟨before, file, after, defs, rfl, hbefore, h⟩ := foldlM_eq_error_iff.mp h
  rcases Files.illegible_of_readText (fun _ _ => merge_unreported_iff) h hf hpaired with
    hnull | ⟨bytes, hread, hbytes⟩
  · exact .inr ⟨file, by simp, hnull⟩
  · exact .inl (.definitions rfl hbefore hread hbytes)

theorem unread_of_loadProgram {fdef : List String} {defs : Definitions} {path : String}
    (hdefs : t.loadDefinitions fdef room.reading = .ok defs)
    (h : t.loadProgram path room.reading = .error f) (hf : f.isReported = false)
    (hpaired : f ≠ .unpaired) : Unread room t fdef path f ∨ HasNull path f := by
  unfold Files.loadProgram at h
  dsimp only at h
  split at h
  next hsuffix =>
    rcases Files.illegible_of_readText (fun _ _ => state_unreported_iff) h hf hpaired with
      hnull | ⟨bytes, hread, hbytes⟩
    · exact .inr hnull
    · exact .inl (.state hdefs hsuffix hread hbytes)
  split at h
  next hsuffix =>
    rcases Files.illegible_of_readText (fun _ _ => concise_unreported_iff) h hf hpaired with
      hnull | ⟨bytes, hread, hbytes⟩
    · exact .inr hnull
    · exact .inl (.concise hdefs (by simpa using hsuffix) hread hbytes)
  · cases h
    cases hf

theorem load_of_loadDefinitions {fdef : List String} {path : String}
    (h : t.loadDefinitions fdef room.reading = .error f) : load room t fdef path = .error f := by
  rw [load, h]
  rfl

theorem load_of_loadProgram {fdef : List String} {defs : Definitions} {path : String}
    (hdefs : t.loadDefinitions fdef room.reading = .ok defs)
    (h : t.loadProgram path room.reading = .error f) : load room t fdef path = .error f := by
  rw [load, hdefs, h]
  rfl

theorem load_of_unread {fdef : List String} {path : String} (h : Unread room t fdef path f) :
    load room t fdef path = .error f ∧ f.isReported = false := by
  cases h with
  | definitions hfdef hbefore hread hbytes =>
    obtain ⟨hfail, hf⟩ := Files.readText_of_illegible (fun _ _ => merge_unreported_iff) hread hbytes
    have hdefs : t.loadDefinitions fdef room.reading = .error f :=
      foldlM_eq_error_iff.mpr ⟨_, _, _, _, hfdef, hbefore, hfail⟩
    exact ⟨load_of_loadDefinitions hdefs, hf⟩
  | state hdefs hsuffix hread hbytes =>
    obtain ⟨hfail, hf⟩ := Files.readText_of_illegible (fun _ _ => state_unreported_iff) hread hbytes
    have hprogram : t.loadProgram path room.reading = .error f := by
      rw [Files.loadProgram, if_pos hsuffix]
      exact hfail
    exact ⟨load_of_loadProgram hdefs hprogram, hf⟩
  | concise hdefs hsuffix hread hbytes =>
    obtain ⟨hfail, hf⟩ :=
      Files.readText_of_illegible (fun _ _ => concise_unreported_iff) hread hbytes
    have hjson : Path.suffix path ≠ ".json" := by
      intro h
      rw [h] at hsuffix
      exact absurd hsuffix (by decide)
    have hprogram : t.loadProgram path room.reading = .error f := by
      rw [Files.loadProgram, if_neg hjson, if_pos (by simpa using hsuffix)]
      exact hfail
    exact ⟨load_of_loadProgram hdefs hprogram, hf⟩

theorem load_eq_error {o : Options} {input : String} (hinput : o.input = .given input)
    (h : load room t o.fdef (Path.normalize input) = .error f) (hf : f.isReported = false)
    (hpaired : f ≠ .unpaired) :
    Unread room t o.fdef (Path.normalize input) f ∨ OfOptions o f := by
  rcases bind_eq_error_iff.mp h with h | ⟨defs, hdefs, h⟩
  · rcases unread_of_loadDefinitions h hf hpaired with h | ⟨file, hfile, hnull⟩
    · exact .inl h
    · exact .inr (.null (.fdef hfile) hnull)
  rcases bind_eq_error_iff.mp h with h | ⟨is, -, h⟩
  · rcases unread_of_loadProgram hdefs h hf hpaired with h | hnull
    · exact .inl h
    · exact .inr (.null (.input hinput) hnull)
  · obtain ⟨fault, -, rfl⟩ := mapError_eq_error_iff.mp h
    cases hf

end

/-! ## Output -/

structure Printable (a : Analysis) : Prop where
  instructions : ∃ is, Record.instructions? a.program = .ok is
  forestGraph : ∃ g, a.forestGraph = .ok g
  programGraph : ∃ g, a.programGraph = .ok g

theorem instructions?_map (is : List Instruction) :
    Record.instructions? (is.map .instruction) = .ok is := by
  have h (i : Instruction) : Record.instruction? (.instruction i) = .ok i := rfl
  exact mapM_map_eq_ok h is

theorem printable_of_load {room : Room} {t : Files} {fdef : List String} {path : String}
    {a : Analysis} (h : load room t fdef path = .ok a) : Printable a := by
  obtain ⟨defs, -, h⟩ := exists_of_bind_eq_ok h
  obtain ⟨is, -, h⟩ := exists_of_bind_eq_ok h
  obtain ⟨forest, hforest, rfl⟩ := map_eq_ok_iff.mp (mapError_eq_ok_iff.mp h)
  obtain ⟨items, hrun, rfl⟩ := exists_run_of_reconstruct hforest
  exact ⟨⟨is, instructions?_map is⟩, Graph.exists_ofForest (wellFormedAll_of_run hrun),
    Graph.exists_ofProgram is⟩

def OfOutput (room : Room) (o : Options) (a : Analysis) (f : Failure) : Prop :=
  f.isReported = true ∨ OfOptions o f ∨ TooDeep room o a f

section
variable {room : Room} {o : Options} {a : Analysis}

theorem within_write_named {path : String} (text : List Char) (h : Names o path) :
    Within (OfOutput room o a) (write path text) := by
  refine within_write text fun t bytes fault hwrite => ?_
  cases hf : (Failure.file fault).isReported with
  | true => exact .inl hf
  | false =>
    have hnull := Files.hasNull_of_fault (Files.nullCharacter_mem_of_write hwrite) hf
    exact .inr (.inl (.null h hnull))

theorem within_writeJson : Within (OfOutput room o a) (writeJson room o a) := by
  unfold writeJson
  refine within_bind (within_attempt fun f hf => ?_) fun text => ?_
  · obtain ⟨e, he, rfl⟩ := mapError_eq_error_iff.mp hf
    exact .inr (.inr (.json he))
  split
  · exact within_pure ()
  next hemptied =>
    refine within_attempt fun f hf => ?_
    cases hf
    exact .inr (.inl (.emptied hemptied))
  next s hgiven =>
    split
    · exact within_modify fun _ => rfl
    · exact within_bind (within_write_named _ (.output hgiven)) fun _ => within_info o _

theorem within_writeState {is : List Instruction} (h : Record.instructions? a.program = .ok is) :
    Within (OfOutput room o a) (writeState room o a) := by
  refine within_withPath fun path hpath => ?_
  rw [h, mapError_ok, attempt_ok_bind]
  refine within_bind (within_attempt fun f hf => ?_) fun text =>
    within_bind (within_write_named _ (.outvm hpath)) fun _ => within_info o _
  obtain ⟨e, he, rfl⟩ := mapError_eq_error_iff.mp hf
  exact .inr (.inr (.state hpath h he))

theorem within_writeGraph {setting : Setting} {g : Graph}
    (h : ∀ path, setting = .given path → Names o path) :
    Within (OfOutput room o a) (writeGraph setting (.ok g)) := by
  refine within_withPath fun path hpath => within_bind (within_attempt fun f hf => ?_) fun g =>
    within_write_named _ (h path hpath)
  cases hf

theorem within_drawGraph (setting : Setting) : Within (OfOutput room o a) (drawGraph setting) := by
  refine within_withPath fun path hpath => within_attempt fun f hf => ?_
  cases hf
  exact .inl rfl

theorem within_writeOutputs (ha : Printable a) :
    Within (OfOutput room o a) (writeOutputs room o a) := by
  obtain ⟨⟨is, his⟩, ⟨g, hg⟩, ⟨g', hg'⟩⟩ := ha
  unfold writeOutputs
  rw [hg, hg']
  refine within_bind within_writeJson fun _ => ?_
  refine within_bind (within_writeState his) fun _ => ?_
  refine within_bind (within_writeGraph fun _ => .dot) fun _ => ?_
  refine within_bind (within_drawGraph o.svg) fun _ => ?_
  refine within_bind (within_writeGraph fun _ => .plistDot) fun _ => ?_
  exact within_drawGraph o.plistSvg

end

/-! ## Runs -/

/-- How a run from a session ends, when the failures of `Escapes` are those that may escape. -/
inductive Ends (Escapes : Failure → Prop) (s : Session) : End × Session → Prop
  | done {lines : List String} {s' : Session} : s'.stderr = s.stderr ++ progress lines →
    Ends Escapes s (.ok 0, s')
  | complaint {f : Failure} {lines : List String} {s' : Session} : f.isReported = true →
    s'.stderr = s.stderr ++ progress lines ++ "Error: " ++ f.message ++ "\n" →
    Ends Escapes s (.ok 1, s')
  | escape {f : Failure} {s' : Session} : f.isReported = false → Escapes f →
    Ends Escapes s (.error f, s')

theorem Ends.mono {P Q : Failure → Prop} {s : Session} {r : End × Session} (h : Ends P s r)
    (hPQ : ∀ f, P f → Q f) : Ends Q s r := by
  cases h with
  | done hs => exact .done hs
  | complaint hf hs => exact .complaint hf hs
  | escape hf hP => exact .escape hf (hPQ _ hP)

theorem run_eq {room : Room} {o : Options} {input : String} {s : Session}
    (hinput : o.input = .given input)
    (hexists : s.files.exists? (Path.normalize input) = .ok true) :
    (run room o).run s = match (analyze room o input >>= writeOutputs room o).result s with
      | (.ok _, s') => (.ok 0, s')
      | (.error f, s') => (report f).run s' := by
  unfold run
  simp only [hinput, path?, StateT.run_bind, StateT.run_get, pure_bind, hexists]
  cases h : (analyze room o input >>= writeOutputs room o).result s with
  | mk r s' =>
    unfold result at h
    rw [h]
    cases r <;> rfl

theorem ends_of_report {Escapes : Failure → Prop} {s s' : Session} {f : Failure}
    {lines : List String} (hs : s'.stderr = s.stderr ++ progress lines)
    (h : f.isReported = true ∨ Escapes f) : Ends Escapes s ((report f).run s') := by
  unfold report
  cases hf : f.isReported with
  | true =>
    have herror : ((complain f.message).run s').2.stderr =
        s.stderr ++ progress lines ++ "Error: " ++ f.message ++ "\n" := by
      rw [← hs]
      rfl
    exact .complaint hf herror
  | false => exact .escape hf (h.resolve_left (by simp [hf]))

section
variable {room : Room} {o : Options} {input : String} {s : Session}
  (hinput : o.input = .given input)
  (hexists : s.files.exists? (Path.normalize input) = .ok true)

include hinput hexists

theorem run_of_load_error {f : Failure}
    (h : load room s.files o.fdef (Path.normalize input) = .error f) :
    ∃ lines, (run room o).run s = (report f).run (addLines s lines) := by
  obtain ⟨lines, hlines⟩ := answers_analyze room s.files o input s rfl
  rw [h] at hlines
  refine ⟨lines, ?_⟩
  rw [run_eq hinput hexists, result_bind_error hlines]

theorem ends_of_load {a : Analysis}
    (h : load room s.files o.fdef (Path.normalize input) = .ok a) :
    Ends (fun f => OfOptions o f ∨ TooDeep room o a f) s ((run room o).run s) := by
  obtain ⟨lines, hlines⟩ := answers_analyze room s.files o input s rfl
  rw [h] at hlines
  -- an analysis that was loaded has records and graphs, so from here on only its depth matters
  have hwithin : Within (OfOutput room o a) (writeOutputs room o a) :=
    within_writeOutputs (printable_of_load h)
  obtain ⟨more, hmore⟩ := hwithin.lines (addLines s lines)
  rw [run_eq hinput hexists, result_bind_ok hlines]
  cases hout : (writeOutputs room o a).result (addLines s lines) with
  | mk r s' =>
    have hstderr : s'.stderr = s.stderr ++ progress (lines ++ more) := by
      rw [hout] at hmore
      rw [progress_append, ← String.append_assoc]
      exact hmore
    cases r with
    | ok _ => exact .done hstderr
    | error f => exact ends_of_report hstderr (hwithin.failure (addLines s lines) f (by rw [hout]))

theorem run_of_json?_error {a : Analysis} {e : Overflow}
    (h : load room s.files o.fdef (Path.normalize input) = .ok a)
    (he : a.json? room (.spaces 2) = .error e) :
    ∃ lines, (run room o).run s = (.error (.overflow e), addLines s lines) := by
  obtain ⟨lines, hlines⟩ := answers_analyze room s.files o input s rfl
  rw [h] at hlines
  refine ⟨lines, ?_⟩
  have hjson : (writeOutputs room o a).result (addLines s lines) =
      (.error (.overflow e), addLines s lines) := by
    unfold writeOutputs writeJson
    rw [he]
    rfl
  rw [run_eq hinput hexists, result_bind_ok hlines, hjson]
  rfl

end

end StackForest.CommandLine
