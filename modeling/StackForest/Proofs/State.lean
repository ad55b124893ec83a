import StackForest.Proofs.Files
import StackForest.Proofs.Json.RoundTrip
import StackForest.Proofs.Record

/-!
# Reading a written state back

A state is read from the file that it was written to (`loadState_of_write`).
-/

namespace StackForest

/-- The instructions that a state file can hold. -/
inductive Instruction.IsStorable : Instruction → Prop
  | pushNumber {n : Number} {label : Value} : n.isStorable = true → label.IsStorable →
    IsStorable (pushNumber n label)
  | pushText (s : String) {label : Value} : label.IsStorable → IsStorable (pushText s label)
  | invoke (name : String) {label : Value} : label.IsStorable → IsStorable (invoke name label)

theorem isStorable_encode {i : Instruction} (hi : i.IsStorable) : (Record.encode i).IsStorable := by
  have hrecord {kind field : String} {v label : Value} (hv : v.IsStorable)
      (hlabel : label.IsStorable) (hkeys : [Record.kindField, field, Record.labelField].Nodup) :
      (Value.dict ([(Record.kindField, .text kind), (field, v)] ++
        Record.labelFields label)).IsStorable := by
    rcases Record.labelFields_cases label with h | h
    · rw [h]
      refine .dict (hkeys.sublist ?_) ?_
      · exact .cons_cons _ (.cons_cons _ (.cons _ .slnil))
      · simp [hv, Value.IsStorable.text]
    · rw [h]
      exact .dict hkeys (by simp [hv, hlabel, Value.IsStorable.text])
  cases hi with
  | pushNumber hn hlabel => exact hrecord (.number hn) hlabel (by decide)
  | pushText s hlabel => exact hrecord (.text s) hlabel (by decide)
  | invoke name hlabel => exact hrecord (.text name) hlabel (by decide)

/-! ## States -/

namespace State

theorem isStorable_ofProgram {is : List Instruction} (his : ∀ i ∈ is, i.IsStorable) :
    (ofProgram is).IsStorable := by
  have hrecords : (Value.list (is.map Record.encode)).IsStorable := by
    refine .list ?_
    simp only [List.mem_map]
    rintro _ ⟨i, hi, rfl⟩
    exact isStorable_encode (his i hi)
  have hzero : (Value.int 0).IsStorable := .number (by decide)
  have hdict : (Value.dict []).IsStorable := .dict (by decide) (by simp)
  have hlist : (Value.list []).IsStorable := .list (by simp)
  refine .dict (by simp [programField]) ?_
  simp [hrecords, hzero, hdict, hlist, Value.IsStorable.bool]

theorem eq_render_of_render? {room : Room} {is : List Instruction} {text : List Char}
    (h : render? room is = .ok text) : text = render is := by
  unfold render? Json.render? at h
  split at h
  · cases h
    rfl
  · cases h

theorem program_ofProgram (is : List Instruction) : program (ofProgram is) = .ok is := by
  have hrecords : (is.map Record.encode).mapM Record.decode = .ok is := Record.mapM_decode is
  have hprogram : program (ofProgram is) =
      ((is.map Record.encode).mapM Record.decode).mapError .record := rfl
  rw [hprogram, hrecords]
  rfl

theorem not_mem_render {is : List Instruction} (his : ∀ i ∈ is, i.IsStorable) :
    '\r' ∉ render is := by
  have hgraphic (c : Char) (hc : 0x20 ≤ c.toNat) : c ≠ '\r' := by
    rintro rfl
    exact absurd hc (by decide)
  have hedge (depth : Nat) : ∀ c ∈ (Json.Layout.spaces 2).edge depth, c ≠ '\r' := by
    simp only [Json.Layout.spaces, Json.Layout.edge, List.forall_mem_cons, List.mem_flatten,
      List.mem_replicate]
    refine ⟨by decide, ?_⟩
    rintro c ⟨_, ⟨-, rfl⟩, hc⟩
    rw [List.eq_of_mem_replicate hc]
    decide
  intro hmem
  exact Json.forall_mem_write hgraphic hedge hedge (isStorable_ofProgram his) 0 _ hmem rfl

end State

theorem Files.loadState_of_fits {t t' : Files} {path : String} {is : List Instruction}
    (his : ∀ i ∈ is, i.IsStorable)
    (h : t.write path (Text.Utf8.encode (State.render is)) = .ok t') {limit : Option Nat}
    (hfits : Room.fits limit (State.ofProgram is).nesting = true) :
    t'.loadState path limit = .ok is := by
  have hjson : Json.read (State.render is) limit = .ok (State.ofProgram is) :=
    Json.read_render (Json.Layout.isBlank_spaces 2) (State.isStorable_ofProgram his) hfits
  have htext : t'.readText path = .ok (State.render is) := by
    have hutf8 := Text.Utf8.decode_encode (State.render is)
    have hlines := Text.unifyNewlines_of_not_mem (State.not_mem_render his)
    simp only [readText, read_of_write h, Except.mapError, bind, Except.bind, hutf8, hlines]
    rfl
  simp only [loadState, htext, bind, Except.bind, hjson, Except.mapError,
    State.program_ofProgram]

/-- A program is read from the state file that it was written to. -/
theorem Files.loadState_of_write {t t' : Files} {path : String} {is : List Instruction}
    (his : ∀ i ∈ is, i.IsStorable)
    (h : t.write path (Text.Utf8.encode (State.render is)) = .ok t') :
    t'.loadState path = .ok is :=
  loadState_of_fits his h (Room.fits_none _)

/-- Numbers of both kinds, an infinity among them, characters beyond ASCII and beyond U+FFFF, and
labels that nest. -/
theorem Files.loadState_of_write_of_nestedLabel :
    let label : Value := .dict [("b", .list [.int (-1), .null, .dict []]), ("a", .text "\r\n\"")]
    let is : List Instruction := [.pushNumber (.int (-12)) label,
      .pushNumber (.real (.finite true ⟨0, by decide⟩)) .null,
      .pushNumber (.real (.infinite false)) (.bool true), .pushText "\t٣😀\\" (.text ""),
      .invoke "" .null]
    let t' := Files.empty.put ["work", "state.json"]
      (.file (Text.Utf8.encode (State.render is)))
    (∀ i ∈ is, i.IsStorable) ∧
      Files.empty.write "state.json" (Text.Utf8.encode (State.render is)) = .ok t' ∧
      t'.loadState "state.json" = .ok is := by
  intro label is t'
  have hlabel : label.IsStorable := by
    have hint : (Value.int (-1)).IsStorable := .number (by decide)
    have hdict : (Value.dict []).IsStorable := .dict (by decide) (by simp)
    have hlist : (Value.list [.int (-1), .null, .dict []]).IsStorable :=
      .list (by simp [hint, hdict, Value.IsStorable.null])
    exact .dict (by decide) (by simp [hlist, Value.IsStorable.text])
  have his : ∀ i ∈ is, i.IsStorable := by
    simp only [is, List.forall_mem_cons]
    exact ⟨.pushNumber (by decide) hlabel, .pushNumber (by decide) .null,
      .pushNumber (by decide) (.bool true), .pushText _ (.text ""), .invoke "" .null, by simp⟩
  have hwrite : Files.empty.write "state.json" (Text.Utf8.encode (State.render is)) = .ok t' := rfl
  exact ⟨his, hwrite, Files.loadState_of_write his hwrite⟩

end StackForest
