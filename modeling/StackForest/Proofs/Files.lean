import StackForest.Files.Load
import StackForest.Proofs.Except
import StackForest.Proofs.Path

/-!
# Writing a file

What is written to a path is read from it afterwards (`read_of_write`).
-/

namespace StackForest.Files

variable {t : Files}

theorem node?_put_of_ne {place other : Place} (h : other ≠ place) (node : Node) :
    (t.put place node).node? other = t.node? other := by
  unfold node? put
  rw [Fields.get?_put_of_ne h]

theorem node?_put_self {place : Place} (h : place ≠ []) (node : Node) :
    (t.put place node).node? place = some node := by
  unfold node? put
  rw [Fields.get?_put_self, if_neg (by simp [h])]

/-- Two trees with the same directories, seen from the same one. -/
structure SameDirectories (t t' : Files) : Prop where
  working : t'.working = t.working
  directory_iff : ∀ place, t'.node? place = some .directory ↔ t.node? place = some .directory

namespace SameDirectories

variable {t' : Files} (h : SameDirectories t t')
include h

theorem symm : SameDirectories t' t :=
  ⟨h.working.symm, fun place => (h.directory_iff place).symm⟩

theorem trans {t'' : Files} (h' : SameDirectories t' t'') : SameDirectories t t'' :=
  ⟨h'.working.trans h.working, fun place => (h'.directory_iff place).trans (h.directory_iff place)⟩

theorem stepTo_eq_ok {q r : Place} {component : String} (hstep : t.stepTo q component = .ok r) :
    t'.stepTo q component = .ok r := by
  have hdir : t.node? q = some .directory := by
    unfold stepTo at hstep
    split at hstep
    · cases hstep
    · cases hstep
    · next hq => exact hq
  rw [← hstep, stepTo, stepTo, hdir, (h.directory_iff q).mpr hdir]

theorem follow_eq_ok {path : String} {components : List String} {p : Place}
    (hfollow : t.follow path components = .ok p) : t'.follow path components = .ok p := by
  unfold follow at hfollow ⊢
  split at hfollow
  · cases hfollow
  next hempty =>
  split at hfollow
  · cases hfollow
  next hnull =>
  split at hfollow
  · cases hfollow
  next hlong =>
  rw [if_neg hempty, if_neg hnull, if_neg hlong, h.working]
  exact foldlM_eq_ok_of_forall (fun _ _ _ => h.stepTo_eq_ok) hfollow

theorem place_eq_ok_iff {path : String} {p : Place} :
    t'.place path = .ok p ↔ t.place path = .ok p :=
  ⟨h.symm.follow_eq_ok, h.follow_eq_ok⟩

end SameDirectories

theorem ne_nil_of_not_directory {p : Place} (h : t.node? p ≠ some .directory) : p ≠ [] := by
  rintro rfl
  exact h rfl

theorem sameDirectories_put {place : Place} (h : t.node? place ≠ some .directory)
    (bytes : List UInt8) : SameDirectories t (t.put place (.file bytes)) := by
  refine ⟨rfl, fun q => ?_⟩
  by_cases hq : q = place
  · subst hq
    simp [node?_put_self (ne_nil_of_not_directory h), h]
  · rw [node?_put_of_ne hq]

theorem target_eq_ok {path : String} {p : Place} (h : t.target path = .ok p) :
    Path.endsWithSlash path = false ∧ t.place path = .ok p ∧ t.node? p ≠ some .directory := by
  obtain ⟨q, hfollow, h⟩ := exists_of_bind_eq_ok h
  cases hslash : Path.endsWithSlash path with
  | true =>
    rw [hslash] at h
    split at h
    · cases h
    · cases h
    · cases h
    · next hfalse _ => cases hfalse
  | false =>
    rw [hslash, if_neg Bool.false_ne_true] at hfollow
    rw [hslash] at h
    split at h
    · cases h
    · cases h
    · cases h
    next hdir =>
    cases h
    exact ⟨rfl, hfollow, hdir⟩

theorem put_of_write {t' : Files} {path : String} {bytes : List UInt8}
    (h : t.write path bytes = .ok t') :
    ∃ p, Path.endsWithSlash path = false ∧ t.place path = .ok p ∧
      t.node? p ≠ some .directory ∧ t' = t.put p (.file bytes) := by
  unfold write at h
  split at h
  · cases h
  next p hp =>
  cases h
  obtain ⟨hslash, hplace, hdir⟩ := target_eq_ok hp
  exact ⟨p, hslash, hplace, hdir, rfl⟩

theorem read_of_write {t' : Files} {path : String} {bytes : List UInt8}
    (h : t.write path bytes = .ok t') : t'.read path = .ok bytes := by
  obtain ⟨p, hslash, hplace, hdir, rfl⟩ := put_of_write h
  have hfollow := (sameDirectories_put hdir bytes).place_eq_ok_iff.mpr hplace
  unfold read
  rw [hfollow]
  simp only [node?_put_self (ne_nil_of_not_directory hdir)]
  rw [if_neg (by simp [hslash])]

theorem readText_of_write {t' : Files} {path : String} {text : List Char}
    (h : t.write path (Text.Utf8.encode text) = .ok t') :
    t'.readText path = .ok (Text.unifyNewlines text) := by
  have hutf8 := Text.Utf8.decode_encode text
  simp only [readText, read_of_write h, mapError_ok, bind, Except.bind, hutf8]
  rfl

theorem readText_eq_error_iff {path : String} {f : Failure} : t.readText path = .error f ↔
    (∃ fault, t.read path = .error fault ∧ .file fault = f) ∨
      ∃ bytes fault, t.read path = .ok bytes ∧ Text.Utf8.decode bytes = .error fault ∧
        .utf8 fault = f := by
  constructor
  · intro h
    rcases bind_eq_error_iff.mp h with h | ⟨bytes, hbytes, h⟩
    · exact .inl (mapError_eq_error_iff.mp h)
    rcases bind_eq_error_iff.mp h with h | ⟨text, -, h⟩
    · obtain ⟨fault, hfault, hf⟩ := mapError_eq_error_iff.mp h
      exact .inr ⟨bytes, fault, mapError_eq_ok_iff.mp hbytes, hfault, hf⟩
    · cases h
  · rintro (⟨fault, h, rfl⟩ | ⟨bytes, fault, hbytes, h, rfl⟩)
    · rw [readText, h]
      rfl
    · rw [readText, hbytes]
      change ((Text.Utf8.decode bytes).mapError _).bind _ = _
      rw [h]
      rfl

/-! ## Long names -/

theorem fault_of_exists_error {path : String} {fault : Fault}
    (h : t.exists? path = .error fault) : fault = ⟨.nameTooLong, path⟩ := by
  unfold exists? at h
  split at h
  · cases h
  · cases h
    rfl
  · cases h

theorem place_of_longName (hworking : t.node? t.working = some .directory) {name : String}
    (hslash : '/' ∉ name.toList) (hnull : '\x00' ∉ name.toList)
    (hlong : nameLimit < name.utf8ByteSize) : t.place name = .error .nameTooLong := by
  have hempty : name ≠ "" := by
    rintro rfl
    simp at hlong
  rw [place, Path.components_of_notMem hslash hempty, follow, if_neg (by simpa using hempty),
    if_neg (by simpa using hnull)]
  split
  · rfl
  -- the step from either directory fails
  have hstep (q : Place) (hq : t.node? q = some .directory) :
      [name].foldlM t.stepTo q = .error .nameTooLong := by
    rw [List.foldlM_cons, stepTo, hq]
    simp only [if_pos hlong]
    rfl
  split
  · exact hstep [] rfl
  · exact hstep t.working hworking

/-! ## Null characters -/

theorem stepTo_ne_nullCharacter (q : Place) (component : String) :
    t.stepTo q component ≠ .error .nullCharacter := by
  unfold stepTo
  split
  · intro h; cases h
  · intro h; cases h
  split
  · intro h; cases h
  split
  · intro h; cases h
  split
  · intro h; cases h
  · intro h; cases h

theorem nullCharacter_mem_of_follow {path : String} {components : List String}
    (h : t.follow path components = .error .nullCharacter) : '\x00' ∈ path.toList := by
  unfold follow at h
  split at h
  · cases h
  split at h
  · next hnull => simpa using hnull
  split at h
  · cases h
  · obtain ⟨_, component, _, q, -, -, hstep⟩ := foldlM_eq_error_iff.mp h
    exact absurd hstep (stepTo_ne_nullCharacter q component)

theorem nullCharacter_mem_of_read {path : String} {fault : Fault}
    (h : t.read path = .error fault) (hnull : fault.obstacle = .nullCharacter) :
    fault.path = path ∧ '\x00' ∈ path.toList := by
  unfold read at h
  split at h
  · next hplace =>
    cases h
    cases hnull
    exact ⟨rfl, nullCharacter_mem_of_follow hplace⟩
  split at h
  · cases h; cases hnull
  · cases h; cases hnull
  split at h
  · cases h; cases hnull
  · cases h

theorem nullCharacter_mem_of_target {path : String} (h : t.target path = .error .nullCharacter) :
    '\x00' ∈ path.toList := by
  rcases bind_eq_error_iff.mp h with h | ⟨q, -, h⟩
  · exact nullCharacter_mem_of_follow h
  · split at h <;> cases h

theorem nullCharacter_mem_of_write {path : String} {bytes : List UInt8} {fault : Fault}
    (h : t.write path bytes = .error fault) (hnull : fault.obstacle = .nullCharacter) :
    fault.path = path ∧ '\x00' ∈ path.toList := by
  unfold write at h
  split at h
  · next htarget =>
    cases h
    cases hnull
    exact ⟨rfl, nullCharacter_mem_of_target htarget⟩
  · cases h

end StackForest.Files
