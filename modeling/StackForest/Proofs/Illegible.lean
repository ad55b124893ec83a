import StackForest.Proofs.Files

/-!
# Files that cannot be read

What is wrong with the contents of a file when the failure is one that no error line reports, for
definitions, states and concise text.
-/

namespace StackForest

theorem Files.Obstacle.eq_nullCharacter_of_report? {o : Files.Obstacle} (h : o.report? = none) :
    o = .nullCharacter := by
  cases o with
  | nullCharacter => rfl
  | missing | isDirectory | notDirectory | nameTooLong => cases h

/-! ## Texts -/

inductive BadDefinitions (limit : Option Nat) (text : List Char) : Failure → Prop
  | number {f : Number.Fault} : Json.read text limit = .error (.number f) →
    BadDefinitions limit text (.number f)
  | tooDeep {container : Container} : Json.read text limit = .error (.tooDeep container) →
    BadDefinitions limit text (.overflow (.reading container))

inductive BadState (limit : Option Nat) (text : List Char) : Failure → Prop
  | mistake {m : Json.Mistake} : Json.read text limit = .error (.mistake m) →
    BadState limit text (.json m text)
  | number {f : Number.Fault} : Json.read text limit = .error (.number f) →
    BadState limit text (.number f)
  | tooDeep {container : Container} : Json.read text limit = .error (.tooDeep container) →
    BadState limit text (.overflow (.reading container))
  | noItems {fields : List (String × Value)} {v : Value} :
    Json.read text limit = .ok (.dict fields) →
    Fields.get? State.programField fields = some v → State.items? v = none →
    BadState limit text (.noItems v.typeName)

inductive BadConcise (text : List Char) : Failure → Prop
  | number {f : Number.Fault} : Concise.read text = .error (.number f) →
    BadConcise text (.number f)

section
variable {limit : Option Nat} {text : List Char} {f : Failure}

/-- Half of a surrogate pair aside, of which nothing is said. -/
theorem merge_unreported_iff {defs : Definitions} {path : String} :
    (defs.merge text limit).mapError (.ofDefinitions path) = .error f ∧ f.isReported = false ∧
      f ≠ .unpaired ↔ BadDefinitions limit text f := by
  constructor
  · rintro ⟨h, hf, hpaired⟩
    obtain ⟨fault, hmerge, rfl⟩ := mapError_eq_error_iff.mp h
    unfold Definitions.merge at hmerge
    split at hmerge
    · obtain ⟨_, -, rfl⟩ := mapError_eq_error_iff.mp hmerge
      cases hf
    · cases hmerge
      cases hf
    · cases hmerge
      cases hf
    next hjson =>
      cases hmerge
      exact .number hjson
    next hjson =>
      cases hmerge
      exact .tooDeep hjson
    · cases hmerge
      exact absurd rfl hpaired
  · rintro (hjson | hjson)
    all_goals
      refine ⟨?_, rfl, by simp⟩
      rw [Definitions.merge, hjson]
      rfl

theorem state_unreported_iff {path : String} :
    ((Json.read text limit).mapError (.ofJson text) >>= fun state =>
        (State.program state).mapError (.ofState path)) = .error f ∧ f.isReported = false ∧
      f ≠ .unpaired ↔ BadState limit text f := by
  constructor
  · rintro ⟨h, hf, hpaired⟩
    rcases bind_eq_error_iff.mp h with h | ⟨state, hstate, h⟩
    · obtain ⟨fault, hjson, rfl⟩ := mapError_eq_error_iff.mp h
      cases fault with
      | mistake m => exact .mistake hjson
      | number f => exact .number hjson
      | tooDeep container => exact .tooDeep hjson
      | unpaired => exact absurd rfl hpaired
    · have hjson : Json.read text limit = .ok state := mapError_eq_ok_iff.mp hstate
      obtain ⟨fault, hprogram, rfl⟩ := mapError_eq_error_iff.mp h
      unfold State.program at hprogram
      split at hprogram
      · split at hprogram
        · cases hprogram
          cases hf
        next hget =>
        split at hprogram
        next hitems =>
          cases hprogram
          exact .noItems hjson hget hitems
        · obtain ⟨_, -, rfl⟩ := mapError_eq_error_iff.mp hprogram
          cases hf
      · cases hprogram
        cases hf
  · intro h
    cases h with
    | mistake hjson | number hjson | tooDeep hjson =>
      rw [hjson]
      exact ⟨rfl, rfl, by simp⟩
    | noItems hjson hget hitems =>
      rw [hjson]
      simp only [mapError_ok, mapError_error, bind, Except.bind, State.program, hget, hitems]
      exact ⟨rfl, rfl, by simp⟩

theorem concise_unreported_iff :
    (Concise.read text).mapError .ofConcise = .error f ∧ f.isReported = false ∧ f ≠ .unpaired ↔
      BadConcise text f := by
  constructor
  · rintro ⟨h, hf, -⟩
    obtain ⟨fault, hread, rfl⟩ := mapError_eq_error_iff.mp h
    cases fault with
    | number f => exact .number hread
    | unknownCharacter _ _ | secondLabel _ _ | lastLabel _ => cases hf
  · rintro ⟨hread⟩
    rw [hread]
    exact ⟨rfl, rfl, by simp⟩

end

/-! ## Contents -/

/-- The contents of a file are no text, or a bad one. -/
inductive Illegible (Bad : List Char → Failure → Prop) (bytes : List UInt8) : Failure → Prop
  | octets {f : Text.Utf8.Fault} : Text.Utf8.decode bytes = .error f → Illegible Bad bytes (.utf8 f)
  | text {text : List Char} {f : Failure} : Text.Utf8.decode bytes = .ok text →
    Bad (Text.unifyNewlines text) f → Illegible Bad bytes f

inductive HasNull : String → Failure → Prop
  | mk {path : String} : '\x00' ∈ path.toList → HasNull path (.file ⟨.nullCharacter, path⟩)

namespace Files

variable {t : Files} {path : String} {f : Failure}

theorem hasNull_of_fault {fault : Fault}
    (h : fault.obstacle = .nullCharacter → fault.path = path ∧ '\x00' ∈ path.toList)
    (hf : (Failure.file fault).isReported = false) : HasNull path (.file fault) := by
  have hnull : fault.obstacle = .nullCharacter := by
    refine Obstacle.eq_nullCharacter_of_report? ?_
    simpa [Failure.isReported] using hf
  obtain ⟨rfl, hmem⟩ := h hnull
  cases fault
  cases hnull
  exact .mk hmem

section
variable {α : Type} {k : List Char → Except Failure α} {Bad : List Char → Failure → Prop}
  (hk : ∀ text f, k text = .error f ∧ f.isReported = false ∧ f ≠ .unpaired ↔ Bad text f)

include hk

theorem illegible_of_readText (h : (t.readText path >>= k) = .error f)
    (hf : f.isReported = false) (hpaired : f ≠ .unpaired) :
    HasNull path f ∨ ∃ bytes, t.read path = .ok bytes ∧ Illegible Bad bytes f := by
  cases hread : t.read path with
  | error fault =>
    simp only [readText, hread, mapError_error, bind, Except.bind] at h
    cases h
    exact .inl (hasNull_of_fault (nullCharacter_mem_of_read hread) hf)
  | ok bytes =>
    refine .inr ⟨bytes, rfl, ?_⟩
    cases hdecode : Text.Utf8.decode bytes with
    | error fault =>
      simp only [readText, hread, hdecode, mapError_ok, mapError_error, bind, Except.bind] at h
      cases h
      exact .octets hdecode
    | ok text =>
      simp only [readText, hread, hdecode, mapError_ok, bind, Except.bind] at h
      exact .text hdecode ((hk _ f).mp ⟨h, hf, hpaired⟩)

theorem readText_of_illegible {bytes : List UInt8} (hread : t.read path = .ok bytes)
    (h : Illegible Bad bytes f) :
    (t.readText path >>= k) = .error f ∧ f.isReported = false := by
  cases h with
  | octets hdecode =>
    simp only [readText, hread, hdecode, mapError_ok, mapError_error, bind, Except.bind]
    exact ⟨trivial, rfl⟩
  | text hdecode hbad =>
    obtain ⟨hfail, hf, -⟩ := (hk _ f).mpr hbad
    simp only [readText, hread, hdecode, mapError_ok, bind, Except.bind]
    exact ⟨hfail, hf⟩

end

end Files
end StackForest
