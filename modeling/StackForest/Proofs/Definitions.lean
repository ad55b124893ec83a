import StackForest.Proofs.Effect
import StackForest.Proofs.Files
import StackForest.Proofs.Json.Grammar
import StackForest.Proofs.Table
import Mathlib.Data.List.Forall2

/-!
# Definitions from files

The definitions of several files, put on each other in the order of the paths; or, where a file does
not hold definitions, the fault of the first such file (`loadDefinitions_cases`).
-/

namespace StackForest

/-! ## Folds with faults -/

section
variable {ε α β γ : Type*} {step : β → α → Except ε β} {R : α → γ → Prop} {put : β → γ → β}
  {Fault : α → ε → Prop} {xs : List α} {b : β}

theorem foldlM_eq_ok_iff (h : ∀ b x b', step b x = .ok b' ↔ ∃ c, R x c ∧ b' = put b c) {b' : β} :
    xs.foldlM step b = .ok b' ↔ ∃ cs, List.Forall₂ R xs cs ∧ b' = cs.foldl put b := by
  induction xs generalizing b with
  | nil =>
    constructor
    · rintro ⟨⟩
      exact ⟨[], .nil, rfl⟩
    · rintro ⟨_, ⟨⟩, rfl⟩
      rfl
  | cons x xs ih =>
    rw [List.foldlM_cons]
    constructor
    · intro hfold
      obtain ⟨d, hd, hfold⟩ := exists_of_bind_eq_ok hfold
      obtain ⟨c, hc, rfl⟩ := (h b x d).mp hd
      obtain ⟨cs, hcs, rfl⟩ := ih.mp hfold
      exact ⟨c :: cs, .cons hc hcs, rfl⟩
    · rintro ⟨_, hall, rfl⟩
      obtain ⟨c, cs, hc, hcs, rfl⟩ := List.forall₂_cons_left_iff.mp hall
      rw [(h b x (put b c)).mpr ⟨c, hc, rfl⟩]
      exact ih.mpr ⟨cs, hcs, rfl⟩

theorem foldlM_eq_error_iff_of_forall
    (h : ∀ b x b', step b x = .ok b' ↔ ∃ c, R x c ∧ b' = put b c)
    (herror : ∀ b x fault, step b x = .error fault ↔ Fault x fault) {fault : ε} :
    xs.foldlM step b = .error fault ↔ ∃ before x after cs, xs = before ++ x :: after ∧
      List.Forall₂ R before cs ∧ Fault x fault := by
  rw [foldlM_eq_error_iff]
  constructor
  · rintro ⟨before, x, after, c, hxs, hbefore, hx⟩
    obtain ⟨cs, hcs, -⟩ := (foldlM_eq_ok_iff h).mp hbefore
    exact ⟨before, x, after, cs, hxs, hcs, (herror c x fault).mp hx⟩
  · rintro ⟨before, x, after, cs, hxs, hcs, hx⟩
    exact ⟨before, x, after, _, hxs, (foldlM_eq_ok_iff h).mpr ⟨cs, hcs, rfl⟩,
      (herror _ x fault).mpr hx⟩

end

/-! ## The definitions in a dictionary -/

namespace Definitions

def Declares (field : String × Value) (d : String × Effect) : Prop :=
  d.1 = field.1 ∧ Effect.Defines field.2 d.2

theorem map_fst_of_declares {fields : List (String × Value)} {defs : Definitions}
    (h : List.Forall₂ Declares fields defs) : defs.map Prod.fst = fields.map Prod.fst := by
  induction h with
  | nil => rfl
  | cons h _ ih => rw [List.map_cons, List.map_cons, h.1, ih]

section
variable {defs defs' : Definitions} {fields : List (String × Value)}

theorem put_decode_eq_ok_iff (defs : Definitions) (f : String × Value) (defs' : Definitions) :
    (Effect.decode f.1 f.2).map (Fields.put f.1 · defs) = .ok defs' ↔
      ∃ d, Declares f d ∧ defs' = Fields.put d.1 d.2 defs := by
  rw [map_eq_ok_iff]
  constructor
  · rintro ⟨effect, h, rfl⟩
    exact ⟨(f.1, effect), ⟨rfl, Effect.decode_eq_ok_iff.mp h⟩, rfl⟩
  · rintro ⟨⟨_, effect⟩, ⟨rfl, h⟩, rfl⟩
    exact ⟨effect, Effect.decode_eq_ok_iff.mpr h, rfl⟩

theorem putAll_eq_ok_iff : putAll defs fields = .ok defs' ↔
    ∃ file, List.Forall₂ Declares fields file ∧ defs' = Fields.putAll defs file :=
  foldlM_eq_ok_iff put_decode_eq_ok_iff

theorem putAll_eq_error_iff {fault : Effect.Fault} : putAll defs fields = .error fault ↔
    ∃ before f after file, fields = before ++ f :: after ∧ List.Forall₂ Declares before file ∧
      Effect.BadDefinition f.1 f.2 fault :=
  foldlM_eq_error_iff_of_forall put_decode_eq_ok_iff fun _ _ _ =>
    map_eq_error_iff.trans Effect.decode_eq_error_iff

end

end Definitions

/-! ## Files of definitions -/

namespace Files

/-- A file that holds definitions: the text of a dictionary, no deeper than the limit, in which
every field makes one, where of a repeated key the first place and the last value count. -/
def Holds (t : Files) (limit : Option Nat) (path : String) (file : Definitions) : Prop :=
  ∃ text pairs, t.readText path = .ok text ∧ text.head? ≠ some '\ufeff' ∧
    Room.fits limit (Json.depth 0 (Json.lexemes 0 text)) = true ∧
    Json.Spells (Json.lexemes 0 text) (.object pairs) ∧
    List.Forall₂ Definitions.Declares (Fields.ofList pairs) file

/-- What is wrong with a file that does not hold definitions: of a dictionary, what is wrong with
its first field that makes none. -/
inductive Offends (t : Files) (limit : Option Nat) (path : String) : Failure → Prop
  | unreadable {fault : Fault} : t.read path = .error fault → Offends t limit path (.file fault)
  | notUtf8 {bytes : List UInt8} {fault : Text.Utf8.Fault} : t.read path = .ok bytes →
    Text.Utf8.decode bytes = .error fault → Offends t limit path (.utf8 fault)
  | notJson {text : List Char} {mistake : Json.Mistake} : t.readText path = .ok text →
    Json.read text limit = .error (.mistake mistake) →
    Offends t limit path (.definitionsNotJson path mistake text)
  | longNumber {text : List Char} {fault : Number.Fault} : t.readText path = .ok text →
    Json.read text limit = .error (.number fault) → Offends t limit path (.number fault)
  | tooDeep {text : List Char} {container : Container} : t.readText path = .ok text →
    Json.read text limit = .error (.tooDeep container) →
    Offends t limit path (.overflow (.reading container))
  /-- What half of a surrogate pair leads to is left open. -/
  | unpaired {text : List Char} : t.readText path = .ok text →
    Json.read text limit = .error .unpaired → Offends t limit path .unpaired
  | notObject {text : List Char} {v : Value} : t.readText path = .ok text →
    Json.read text limit = .ok v → (∀ fields, v ≠ .dict fields) →
    Offends t limit path (.definitionsNotObject path)
  | definition {text : List Char} {before after : List (String × Value)} {name : String} {v : Value}
    {file : Definitions} {fault : Effect.Fault} : t.readText path = .ok text →
    Json.read text limit = .ok (.dict (before ++ (name, v) :: after)) →
    List.Forall₂ Definitions.Declares before file → Effect.BadDefinition name v fault →
    Offends t limit path (.effect fault)

section
variable {t : Files} {limit : Option Nat} {path : String}

theorem holds_iff {file : Definitions} : t.Holds limit path file ↔ ∃ text fields,
    t.readText path = .ok text ∧ Json.read text limit = .ok (.dict fields) ∧
      List.Forall₂ Definitions.Declares fields file := by
  constructor
  · rintro ⟨text, pairs, htext, hmark, hdepth, hpairs, hfile⟩
    exact ⟨text, _, htext, Json.read_eq_dict_iff.mpr ⟨hmark, hdepth, pairs, hpairs, rfl⟩, hfile⟩
  · rintro ⟨text, fields, htext, hread, hfile⟩
    obtain ⟨hmark, hdepth, pairs, hpairs, rfl⟩ := Json.read_eq_dict_iff.mp hread
    exact ⟨text, pairs, htext, hmark, hdepth, hpairs, hfile⟩

theorem nodup_of_holds {file : Definitions} (h : t.Holds limit path file) :
    (file.map Prod.fst).Nodup := by
  obtain ⟨_, pairs, -, -, -, -, hfile⟩ := h
  rw [Definitions.map_fst_of_declares hfile]
  exact Fields.nodup_ofList pairs

theorem merge_eq_ok_iff (t : Files) (limit : Option Nat) (defs : Definitions) (path : String)
    (defs' : Definitions) :
    ((t.readText path).bind fun text => (defs.merge text limit).mapError (.ofDefinitions path)) =
      .ok defs' ↔ ∃ file, t.Holds limit path file ∧ defs' = Fields.putAll defs file := by
  constructor
  · intro h
    obtain ⟨text, htext, h⟩ := exists_of_bind_eq_ok h
    rw [mapError_eq_ok_iff] at h
    unfold Definitions.merge at h
    split at h
    · next fields hread =>
      obtain ⟨file, hfile, rfl⟩ := Definitions.putAll_eq_ok_iff.mp (mapError_eq_ok_iff.mp h)
      exact ⟨file, holds_iff.mpr ⟨text, fields, htext, hread, hfile⟩, rfl⟩
    all_goals cases h
  · rintro ⟨file, hfile, rfl⟩
    obtain ⟨text, fields, htext, hread, hfile⟩ := holds_iff.mp hfile
    have hput : defs.putAll fields = .ok (Fields.putAll defs file) :=
      Definitions.putAll_eq_ok_iff.mpr ⟨file, hfile, rfl⟩
    rw [htext]
    change (defs.merge text limit).mapError _ = _
    rw [Definitions.merge, hread]
    change ((defs.putAll fields).mapError _).mapError _ = _
    rw [hput]
    rfl

theorem offends_of_merge {t : Files} {limit : Option Nat} {defs : Definitions} {path : String}
    {f : Failure}
    (h : ((t.readText path).bind fun text =>
      (defs.merge text limit).mapError (.ofDefinitions path)) = .error f) :
    t.Offends limit path f := by
  rcases bind_eq_error_iff.mp h with h | ⟨text, htext, h⟩
  · rcases readText_eq_error_iff.mp h with ⟨fault, hread, rfl⟩ | ⟨bytes, fault, hread, hutf8, rfl⟩
    · exact .unreadable hread
    · exact .notUtf8 hread hutf8
  obtain ⟨fault, hmerge, rfl⟩ := mapError_eq_error_iff.mp h
  unfold Definitions.merge at hmerge
  split at hmerge
  · next fields hread =>
    obtain ⟨fault, hput, rfl⟩ := mapError_eq_error_iff.mp hmerge
    obtain ⟨before, f, after, file, rfl, hfile, hf⟩ := Definitions.putAll_eq_error_iff.mp hput
    exact .definition htext hread hfile hf
  · next v hdict hread =>
    cases hmerge
    exact .notObject htext hread hdict
  · next mistake hread =>
    cases hmerge
    exact .notJson htext hread
  · next fault hread =>
    cases hmerge
    exact .longNumber htext hread
  · next container hread =>
    cases hmerge
    exact .tooDeep htext hread
  · next hread =>
    cases hmerge
    exact .unpaired htext hread

theorem merge_of_offends {t : Files} {limit : Option Nat} {path : String} {f : Failure}
    (h : t.Offends limit path f) (defs : Definitions) :
    ((t.readText path).bind fun text => (defs.merge text limit).mapError (.ofDefinitions path)) =
      .error f := by
  have hread {text : List Char} (htext : t.readText path = .ok text) :
      ((t.readText path).bind fun text =>
        (defs.merge text limit).mapError (.ofDefinitions path)) =
        (defs.merge text limit).mapError (.ofDefinitions path) := by
    rw [htext]
    rfl
  cases h with
  | unreadable h =>
    rw [readText_eq_error_iff.mpr (.inl ⟨_, h, rfl⟩)]
    rfl
  | notUtf8 hbytes h =>
    rw [readText_eq_error_iff.mpr (.inr ⟨_, _, hbytes, h, rfl⟩)]
    rfl
  | notJson htext h | longNumber htext h | tooDeep htext h | unpaired htext h =>
    rw [hread htext, Definitions.merge, h]
    rfl
  | notObject htext h hdict =>
    rw [hread htext, Definitions.merge, h]
    split
    · next fields heq => cases heq; exact absurd rfl (hdict fields)
    · rfl
    all_goals next heq => cases heq
  | @definition text before after name v file fault htext h hfile hv =>
    have hput : defs.putAll (before ++ (name, v) :: after) = .error fault :=
      Definitions.putAll_eq_error_iff.mpr ⟨before, (name, v), after, file, rfl, hfile, hv⟩
    rw [hread htext, Definitions.merge, h]
    change ((defs.putAll _).mapError _).mapError _ = _
    rw [hput]
    rfl

end

theorem foldl_putAll (files : List Definitions) (base : Definitions) :
    files.foldl Fields.putAll base = Fields.putAll base files.flatten := by
  induction files generalizing base with
  | nil => rfl
  | cons file files ih => rw [List.foldl_cons, ih, List.flatten_cons, Fields.putAll_append]

theorem loadDefinitions_eq_ok_iff {t : Files} {paths : List String} {limit : Option Nat}
    {defs : Definitions} : t.loadDefinitions paths limit = .ok defs ↔
      ∃ files, List.Forall₂ (t.Holds limit) paths files ∧ defs = Fields.ofList files.flatten := by
  have hfold (files : List Definitions) :
      Fields.ofList files.flatten = files.foldl Fields.putAll [] := (foldl_putAll files []).symm
  simp only [hfold]
  exact foldlM_eq_ok_iff (merge_eq_ok_iff t limit)

theorem loadDefinitions_eq_error_iff {t : Files} {paths : List String} {limit : Option Nat}
    {f : Failure} : t.loadDefinitions paths limit = .error f ↔ ∃ before path after files,
      paths = before ++ path :: after ∧ List.Forall₂ (t.Holds limit) before files ∧
        t.Offends limit path f :=
  foldlM_eq_error_iff_of_forall (merge_eq_ok_iff t limit) fun defs _ _ =>
    ⟨offends_of_merge, fun h => merge_of_offends h defs⟩

theorem get?_flatten_reverse {files : List Definitions}
    (h : ∀ file ∈ files, (file.map Prod.fst).Nodup) (name : String) :
    Fields.get? name files.flatten.reverse = files.reverse.findSome? (Fields.get? name) := by
  induction files with
  | nil => rfl
  | cons file files ih =>
    rw [List.forall_mem_cons] at h
    rw [List.flatten_cons, List.reverse_append, Fields.get?_append, ih h.2,
      Fields.get?_reverse h.1, List.reverse_cons, List.findSome?_append, List.findSome?_cons]
    cases Fields.get? name file <;> rfl

theorem nodup_of_forall_holds {t : Files} {limit : Option Nat} {paths : List String}
    {files : List Definitions} (h : List.Forall₂ (t.Holds limit) paths files) :
    ∀ file ∈ files, (file.map Prod.fst).Nodup := by
  induction h with
  | nil => simp
  | cons h _ ih => exact List.forall_mem_cons.mpr ⟨nodup_of_holds h, ih⟩

end Files

end StackForest
