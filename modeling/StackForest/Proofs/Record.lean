import StackForest.Instruction.Record
import StackForest.Proofs.Except

/-!
# Records and their instructions

Which values are records of instructions, why any other value is refused, and what an instruction
keeps of its record (`decode_cases`).
-/

namespace StackForest.Record

theorem decode_encode (i : Instruction) : decode (encode i) = .ok i := by
  cases i with
  | pushNumber n label => cases label <;> rfl
  | pushText s label => cases label <;> rfl
  | invoke name label => cases label <;> rfl

theorem mapM_decode (is : List Instruction) : (is.map encode).mapM decode = .ok is :=
  mapM_map_eq_ok decode_encode is

/-! ## The label -/

theorem labelFields_cases (label : Value) :
    labelFields label = [] ∨ labelFields label = [(labelField, label)] := by
  cases label with
  | null => exact .inl rfl
  | bool _ | number _ | text _ | list _ | dict _ => exact .inr rfl

theorem keys_labelFields (label : Value) :
    ((labelFields label).map Prod.fst).Sublist [labelField] := by
  rcases labelFields_cases label with h | h
  · rw [h]
    exact List.nil_sublist _
  · rw [h]
    exact List.Sublist.refl _

theorem get?_labelFields {label : Value} (h : label ≠ .null) :
    Fields.get? labelField (labelFields label) = some label := by
  cases label with
  | null => exact absurd rfl h
  | bool _ | number _ | text _ | list _ | dict _ => rfl

theorem get?_labelFields_of_ne {key : String} (h : key ≠ labelField) (label : Value) :
    Fields.get? key (labelFields label) = none := by
  rcases labelFields_cases label with hlabel | hlabel
  · rw [hlabel]
    rfl
  · rw [hlabel, Fields.get?_cons, if_neg (Ne.symm h)]
    rfl

/-! ## Well-formed records -/

def requiredFields : List (String × String) :=
  [(pushNumber, valueField), (pushText, valueField), (invoke, nameField)]

/-- What the required field of each type may hold, with the instruction it makes of a label. -/
inductive Makes : (kind field : String) → Value → (Value → Instruction) → Prop
  | pushNumber (n : Number) : Makes pushNumber valueField (.number n) (.pushNumber n)
  | pushText (s : String) : Makes pushText valueField (.text s) (.pushText s)
  | invoke (name : String) : Makes invoke nameField (.text name) (.invoke name)

/-- The objects of a known type with the required field of the required type. -/
inductive IsRecord : Value → Prop
  | mk {fields : List (String × Value)} {kind field : String} {v : Value}
      {make : Value → Instruction} : Makes kind field v make →
    Fields.get? kindField fields = some (.text kind) → Fields.get? field fields = some v →
    IsRecord (.dict fields)

/-- The values that are no records, each with its fault. -/
inductive Refused : Value → Fault → Prop
  | notObject {v : Value} : (∀ fields, v ≠ .dict fields) → Refused v (.notObject v)
  | unknownKind {fields : List (String × Value)} :
    (∀ r ∈ requiredFields, optional kindField fields ≠ .text r.1) →
    Refused (.dict fields) (.unknownKind (optional kindField fields))
  | missing {fields : List (String × Value)} {kind field : String} :
    (kind, field) ∈ requiredFields → Fields.get? kindField fields = some (.text kind) →
    Fields.get? field fields = none → Refused (.dict fields) (.missing (.dict fields) field)
  | notNumber {fields : List (String × Value)} {v : Value} :
    Fields.get? kindField fields = some (.text pushNumber) →
    Fields.get? valueField fields = some v → (∀ n, v ≠ .number n) →
    Refused (.dict fields) (.notNumber v)
  | notText {fields : List (String × Value)} {v : Value} :
    Fields.get? kindField fields = some (.text pushText) →
    Fields.get? valueField fields = some v → (∀ s, v ≠ .text s) →
    Refused (.dict fields) (.notText v)
  | notName {fields : List (String × Value)} {v : Value} :
    Fields.get? kindField fields = some (.text invoke) →
    Fields.get? nameField fields = some v → (∀ s, v ≠ .text s) →
    Refused (.dict fields) (.notName v)

section
variable {fields : List (String × Value)}

theorem optional_of_get? {field : String} {v : Value} (h : Fields.get? field fields = some v) :
    optional field fields = v := by
  rw [optional, h]
  rfl

theorem get?_of_optional {field : String} {v : Value} (h : optional field fields = v)
    (hv : v ≠ .null) : Fields.get? field fields = some v := by
  unfold optional at h
  cases hget : Fields.get? field fields with
  | none =>
    rw [hget] at h
    exact absurd h.symm hv
  | some w =>
    rw [hget] at h
    exact congrArg some h

theorem required_of_get? {field : String} {v : Value} (h : Fields.get? field fields = some v) :
    required field fields = .ok v := by
  rw [required, h]

theorem required_of_none {field : String} (h : Fields.get? field fields = none) :
    required field fields = .error (.missing (.dict fields) field) := by
  rw [required, h]

/-! ## Reading a record -/

theorem decode_pushNumber (hkind : Fields.get? kindField fields = some (.text pushNumber)) :
    decode (.dict fields) = (required valueField fields).bind fun
      | .number n => .ok (.pushNumber n (optional labelField fields))
      | v => .error (.notNumber v) := by
  simp only [decode, decodeFields, optional_of_get? hkind, if_pos]
  rfl

theorem decode_pushText (hkind : Fields.get? kindField fields = some (.text pushText)) :
    decode (.dict fields) = (required valueField fields).bind fun
      | .text s => .ok (.pushText s (optional labelField fields))
      | v => .error (.notText v) := by
  have hne : pushText ≠ pushNumber := by decide
  simp only [decode, decodeFields, optional_of_get? hkind, if_neg hne, if_pos]
  rfl

theorem decode_invoke (hkind : Fields.get? kindField fields = some (.text invoke)) :
    decode (.dict fields) = (required nameField fields).bind fun
      | .text name => .ok (.invoke name (optional labelField fields))
      | v => .error (.notName v) := by
  have hne : invoke ≠ pushNumber := by decide
  have hne' : invoke ≠ pushText := by decide
  simp only [decode, decodeFields, optional_of_get? hkind, if_neg hne, if_neg hne', if_pos]
  rfl

theorem decode_unknown (h : ∀ r ∈ requiredFields, optional kindField fields ≠ .text r.1) :
    decode (.dict fields) = .error (.unknownKind (optional kindField fields)) := by
  simp only [requiredFields, List.forall_mem_cons] at h
  obtain ⟨hnumber, htext, hinvoke, -⟩ := h
  simp only [decode, decodeFields]
  cases hkind : optional kindField fields with
  | null | bool _ | number _ | list _ | dict _ => rfl
  | text kind =>
    rw [hkind] at hnumber htext hinvoke
    have hne {other : String} (h : Value.text kind ≠ .text other) : kind ≠ other :=
      fun heq => h (congrArg Value.text heq)
    simp only [if_neg (hne hnumber), if_neg (hne htext), if_neg (hne hinvoke)]

theorem decode_of_makes {kind field : String} {v : Value} {make : Value → Instruction}
    (hmake : Makes kind field v make) (hkind : Fields.get? kindField fields = some (.text kind))
    (hfield : Fields.get? field fields = some v) :
    decode (.dict fields) = .ok (make (optional labelField fields)) := by
  have hfield := required_of_get? hfield
  cases hmake with
  | pushNumber n => rw [decode_pushNumber hkind, hfield]; rfl
  | pushText s => rw [decode_pushText hkind, hfield]; rfl
  | invoke name => rw [decode_invoke hkind, hfield]; rfl

theorem decode_of_missing {kind field : String} (hr : (kind, field) ∈ requiredFields)
    (hkind : Fields.get? kindField fields = some (.text kind))
    (hfield : Fields.get? field fields = none) :
    decode (.dict fields) = .error (.missing (.dict fields) field) := by
  have hfield := required_of_none hfield
  simp only [requiredFields, List.mem_cons, Prod.mk.injEq, List.not_mem_nil, or_false] at hr
  rcases hr with ⟨rfl, rfl⟩ | ⟨rfl, rfl⟩ | ⟨rfl, rfl⟩
  · rw [decode_pushNumber hkind, hfield]; rfl
  · rw [decode_pushText hkind, hfield]; rfl
  · rw [decode_invoke hkind, hfield]; rfl

end

theorem isRecord_or_refused (r : Value) :
    IsRecord r ∨ ∃ fault, Refused r fault ∧ decode r = .error fault := by
  cases r with
  | null | bool _ | number _ | text _ | list _ =>
    exact .inr ⟨_, .notObject (fun _ h => by cases h), rfl⟩
  | dict fields =>
  by_cases hunknown : ∀ r ∈ requiredFields, optional kindField fields ≠ .text r.1
  · exact .inr ⟨_, .unknownKind hunknown, decode_unknown hunknown⟩
  have hknown : ∃ r ∈ requiredFields, optional kindField fields = .text r.1 :=
    Classical.byContradiction fun h => hunknown fun r hr heq => h ⟨r, hr, heq⟩
  obtain ⟨⟨kind, field⟩, hr, hkind⟩ := hknown
  replace hkind := get?_of_optional hkind (fun h => by cases h)
  cases hfield : Fields.get? field fields with
  | none => exact .inr ⟨_, .missing hr hkind hfield, decode_of_missing hr hkind hfield⟩
  | some v =>
  have hrequired := required_of_get? hfield
  simp only [requiredFields, List.mem_cons, Prod.mk.injEq, List.not_mem_nil, or_false] at hr
  rcases hr with ⟨rfl, rfl⟩ | ⟨rfl, rfl⟩ | ⟨rfl, rfl⟩
  · cases v with
    | number n => exact .inl (.mk (.pushNumber n) hkind hfield)
    | null | bool _ | text _ | list _ | dict _ =>
      refine .inr ⟨_, .notNumber hkind hfield (fun _ h => by cases h), ?_⟩
      rw [decode_pushNumber hkind, hrequired]
      rfl
  · cases v with
    | text s => exact .inl (.mk (.pushText s) hkind hfield)
    | null | bool _ | number _ | list _ | dict _ =>
      refine .inr ⟨_, .notText hkind hfield (fun _ h => by cases h), ?_⟩
      rw [decode_pushText hkind, hrequired]
      rfl
  · cases v with
    | text name => exact .inl (.mk (.invoke name) hkind hfield)
    | null | bool _ | number _ | list _ | dict _ =>
      refine .inr ⟨_, .notName hkind hfield (fun _ h => by cases h), ?_⟩
      rw [decode_invoke hkind, hrequired]
      rfl

/-! ## What is kept -/

/-- The fields of a record that its instruction keeps: the type, the field that the type needs, and
a label other than null. -/
def Keeps (fields : List (String × Value)) (key : String) : Prop :=
  key = kindField ∨
    (∃ kind, Fields.get? kindField fields = some (.text kind) ∧ (kind, key) ∈ requiredFields) ∨
    key = labelField ∧ optional labelField fields ≠ .null

theorem encode_of_makes {kind field : String} {v : Value} {make : Value → Instruction}
    (hmake : Makes kind field v make) (label : Value) :
    encode (make label) = .dict ((kindField, .text kind) :: (field, v) :: labelFields label) := by
  cases hmake <;> rfl

theorem requiredFields_of_makes {kind field : String} {v : Value} {make : Value → Instruction}
    (hmake : Makes kind field v make) :
    (kind, field) ∈ requiredFields ∧ [kindField, field, labelField].Nodup ∧
      ∀ other, (kind, other) ∈ requiredFields → other = field := by
  cases hmake <;> simp [requiredFields, pushNumber, pushText, invoke, kindField, valueField,
    nameField, labelField]

section
variable {fields : List (String × Value)} {kind field : String} {v : Value}
  {make : Value → Instruction} (hmake : Makes kind field v make)
  (hkind : Fields.get? kindField fields = some (.text kind))

include hmake hkind

theorem keeps_iff (key : String) : Keeps fields key ↔ key = kindField ∨ key = field ∨
    key = labelField ∧ optional labelField fields ≠ .null := by
  obtain ⟨hmem, -, hfield⟩ := requiredFields_of_makes hmake
  have hneeded : (∃ kind, Fields.get? kindField fields = some (.text kind) ∧
      (kind, key) ∈ requiredFields) ↔ key = field := by
    constructor
    · rintro ⟨other, hother, hkey⟩
      cases hkind.symm.trans hother
      exact hfield key hkey
    · rintro rfl
      exact ⟨kind, hkind, hmem⟩
  rw [Keeps, hneeded]

theorem get?_encode (hfield : Fields.get? field fields = some v) (key : String) :
    let out := (kindField, .text kind) :: (field, v) :: labelFields (optional labelField fields)
    (Keeps fields key → Fields.get? key out = Fields.get? key fields) ∧
      (¬ Keeps fields key → Fields.get? key out = none) := by
  intro out
  rw [keeps_iff hmake hkind, Fields.get?_cons, Fields.get?_cons]
  by_cases hk : key = kindField
  · subst hk
    rw [if_pos rfl]
    exact ⟨fun _ => hkind.symm, fun h => absurd (.inl rfl) h⟩
  by_cases hf : key = field
  · subst hf
    rw [if_neg (Ne.symm hk), if_pos rfl]
    exact ⟨fun _ => hfield.symm, fun h => absurd (.inr (.inl rfl)) h⟩
  rw [if_neg (Ne.symm hk), if_neg (Ne.symm hf)]
  by_cases hl : key = labelField
  · subst hl
    by_cases hnull : optional labelField fields = .null
    · refine ⟨fun h => ?_, fun _ => by rw [hnull]; rfl⟩
      rcases h with h | h | h
      · exact absurd h hk
      · exact absurd h hf
      · exact absurd hnull h.2
    · have hget := get?_of_optional rfl hnull
      rw [get?_labelFields hnull]
      exact ⟨fun _ => hget.symm, fun h => absurd (.inr (.inr ⟨rfl, hnull⟩)) h⟩
  · rw [get?_labelFields_of_ne hl]
    refine ⟨fun h => ?_, fun _ => rfl⟩
    rcases h with h | h | h
    · exact absurd h hk
    · exact absurd h hf
    · exact absurd h.1 hl

end

theorem nodup_encode {kind field : String} {v : Value} {make : Value → Instruction}
    (hmake : Makes kind field v make) (label : Value) :
    (((kindField, .text kind) :: (field, v) :: labelFields label).map Prod.fst).Nodup := by
  obtain ⟨-, hnodup, -⟩ := requiredFields_of_makes hmake
  exact hnodup.sublist (.cons_cons _ (.cons_cons _ (keys_labelFields label)))

/-- **Records.** A value is decoded exactly when it is a record, and otherwise refused with its
fault. A record that is decoded and encoded is what the instruction keeps of it, so that decoding
once more gives nothing new. -/
theorem decode_cases (r : Value) :
    (IsRecord r ∧ (∃ fields i out, r = .dict fields ∧ decode r = .ok i ∧ encode i = .dict out ∧
        (out.map Prod.fst).Nodup ∧
        (∀ key, Keeps fields key → Fields.get? key out = Fields.get? key fields) ∧
        ∀ key, ¬ Keeps fields key → Fields.get? key out = none) ∨
      ¬ IsRecord r ∧ ∃ fault, decode r = .error fault ∧ Refused r fault) ∧
    (decode r >>= fun i => decode (encode i)) = decode r := by
  have hagain : (decode r >>= fun i => decode (encode i)) = decode r := by
    cases decode r with
    | error fault => rfl
    | ok i => exact decode_encode i
  refine ⟨?_, hagain⟩
  rcases isRecord_or_refused r with hr | ⟨fault, hrefused, herror⟩
  · refine .inl ⟨hr, ?_⟩
    obtain ⟨hmake, hkind, hfield⟩ := hr
    refine ⟨_, _, _, rfl, decode_of_makes hmake hkind hfield, encode_of_makes hmake _,
      nodup_encode hmake _, fun key => ?_, fun key => ?_⟩
    · exact (get?_encode hmake hkind hfield key).1
    · exact (get?_encode hmake hkind hfield key).2
  · refine .inr ⟨?_, fault, herror, hrefused⟩
    rintro ⟨hmake, hkind, hfield⟩
    rw [decode_of_makes hmake hkind hfield] at herror
    cases herror

example : (decode (.dict [("id", .int 7), (labelField, .null), (valueField, .text "a"),
      (kindField, .text pushText)])).map encode =
    .ok (.dict [(kindField, .text pushText), (valueField, .text "a")]) := rfl

end StackForest.Record
