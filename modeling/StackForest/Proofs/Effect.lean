import StackForest.Effect
import StackForest.Proofs.Except

/-!
# Definitions of effects

Which values define an effect, and what is wrong with any other value.
-/

namespace StackForest.Effect

/-- The definitions of an effect: dictionaries with a list of texts in each of the two fields. -/
inductive Defines : Value → Effect → Prop
  | dict {fields : List (String × Value)} {effect : Effect} :
    Fields.get? inputField fields = some (.list (effect.inputs.map .text)) →
    Fields.get? outputField fields = some (.list (effect.outputs.map .text)) →
    Defines (.dict fields) effect

inductive BadTags (name field : String) (fields : List (String × Value)) : Fault → Prop
  | noList : (∀ vs, Fields.get? field fields ≠ some (.list vs)) →
    BadTags name field fields (.noList name field)
  | badTag {tags : List String} {v : Value} {vs : List Value} :
    Fields.get? field fields = some (.list (tags.map .text ++ v :: vs)) → (∀ s, v ≠ .text s) →
    BadTags name field fields (.badTag name v)

/-- What is wrong with a value that defines no effect: the inputs count before the outputs. -/
inductive BadDefinition (name : String) : Value → Fault → Prop
  | notObject {v : Value} : (∀ fields, v ≠ .dict fields) → BadDefinition name v (.notObject name v)
  | inputs {fields : List (String × Value)} {fault : Fault} :
    BadTags name inputField fields fault → BadDefinition name (.dict fields) fault
  | outputs {fields : List (String × Value)} {tags : List String} {fault : Fault} :
    Fields.get? inputField fields = some (.list (tags.map .text)) →
    BadTags name outputField fields fault → BadDefinition name (.dict fields) fault

section
variable {name field : String} {fields : List (String × Value)} {v : Value} {vs : List Value}
  {ts : List String} {effect : Effect} {fault : Fault}

theorem tag_of_not_text (h : ∀ s, v ≠ .text s) : tag name v = .error (.badTag name v) := by
  unfold tag
  split
  · next s => exact absurd rfl (h s)
  · rfl

theorem mapM_tag_of_texts (name : String) (ts : List String) :
    (ts.map Value.text).mapM (tag name) = .ok ts :=
  mapM_map_eq_ok (g := Value.text) (fun _ => rfl) ts

theorem mapM_tag_of_not_text (ts : List String) (h : ∀ s, v ≠ .text s) (vs : List Value) :
    (ts.map Value.text ++ v :: vs).mapM (tag name) = .error (.badTag name v) := by
  induction ts with
  | nil =>
    rw [List.map_nil, List.nil_append, List.mapM_cons, tag_of_not_text h]
    rfl
  | cons t ts ih =>
    rw [List.map_cons, List.cons_append, List.mapM_cons, ih]
    rfl

theorem texts_cases (vs : List Value) : (∃ ts : List String, vs = ts.map .text) ∨
    ∃ (ts : List String) (v : Value) (ws : List Value),
      vs = ts.map .text ++ v :: ws ∧ ∀ s, v ≠ .text s := by
  induction vs with
  | nil => exact .inl ⟨[], rfl⟩
  | cons v vs ih =>
    by_cases hv : ∃ s, v = .text s
    · obtain ⟨s, rfl⟩ := hv
      rcases ih with ⟨ts, rfl⟩ | ⟨ts, v, ws, rfl, hv⟩
      · exact .inl ⟨s :: ts, rfl⟩
      · exact .inr ⟨s :: ts, v, ws, rfl, hv⟩
    · exact .inr ⟨[], v, vs, rfl, not_exists.mp hv⟩

theorem tags_of_list (h : Fields.get? field fields = some (.list vs)) :
    tags name field fields = vs.mapM (tag name) := by
  rw [tags, h]

theorem tags_eq_ok_iff :
    tags name field fields = .ok ts ↔ Fields.get? field fields = some (.list (ts.map .text)) := by
  constructor
  · intro h
    unfold tags at h
    split at h
    · next vs hget =>
      rcases texts_cases vs with ⟨us, rfl⟩ | ⟨us, v, ws, rfl, hv⟩
      · rw [mapM_tag_of_texts] at h
        cases h
        exact hget
      · rw [mapM_tag_of_not_text us hv ws] at h
        cases h
    · cases h
  · intro h
    rw [tags_of_list h, mapM_tag_of_texts]

theorem tags_eq_error_iff :
    tags name field fields = .error fault ↔ BadTags name field fields fault := by
  constructor
  · intro h
    unfold tags at h
    split at h
    · next vs hget =>
      rcases texts_cases vs with ⟨us, rfl⟩ | ⟨us, v, ws, rfl, hv⟩
      · rw [mapM_tag_of_texts] at h
        cases h
      · rw [mapM_tag_of_not_text us hv ws] at h
        cases h
        exact .badTag hget hv
    · next hget =>
      cases h
      exact .noList hget
  · rintro (hget | ⟨hget, hv⟩)
    · unfold tags
      split
      · next vs h => exact absurd h (hget vs)
      · rfl
    · rw [tags_of_list hget, mapM_tag_of_not_text _ hv]

theorem decode_eq_ok_iff : decode name v = .ok effect ↔ Defines v effect := by
  constructor
  · intro h
    unfold decode at h
    split at h
    · obtain ⟨inputs, hinputs, h⟩ := exists_of_bind_eq_ok h
      obtain ⟨outputs, houtputs, h⟩ := exists_of_bind_eq_ok h
      cases h
      exact .dict (tags_eq_ok_iff.mp hinputs) (tags_eq_ok_iff.mp houtputs)
    · cases h
  · rintro ⟨hinputs, houtputs⟩
    rw [decode, tags_eq_ok_iff.mpr hinputs, tags_eq_ok_iff.mpr houtputs]
    rfl

theorem decode_eq_error_iff : decode name v = .error fault ↔ BadDefinition name v fault := by
  constructor
  · intro h
    unfold decode at h
    split at h
    · rcases bind_eq_error_iff.mp h with h | ⟨inputs, hinputs, h⟩
      · exact .inputs (tags_eq_error_iff.mp h)
      rcases bind_eq_error_iff.mp h with h | ⟨outputs, -, h⟩
      · exact .outputs (tags_eq_ok_iff.mp hinputs) (tags_eq_error_iff.mp h)
      · cases h
    · next hdict =>
      cases h
      exact .notObject hdict
  · rintro (hdict | htags | ⟨hinputs, htags⟩)
    · unfold decode
      split
      · next fields => exact absurd rfl (hdict fields)
      · rfl
    · rw [decode, tags_eq_error_iff.mpr htags]
      rfl
    · rw [decode, tags_eq_ok_iff.mpr hinputs, tags_eq_error_iff.mpr htags]
      rfl

end

end StackForest.Effect
