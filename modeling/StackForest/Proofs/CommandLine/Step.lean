import StackForest.CommandLine.Run
import StackForest.Proofs.Files.Writes

/-!
# What steps do

Three ways to say what a step of a run does, each with its rule for steps in a row.
-/

namespace StackForest.CommandLine.Step

variable {α β : Type}

def result (x : Step α) (s : Session) : Except Failure α × Session := x.run.run s

section
variable {x : Step α} {s s' : Session}

theorem result_bind_ok {a : α} (h : x.result s = (.ok a, s')) (k : α → Step β) :
    (x >>= k).result s = (k a).result s' := by
  unfold result at h ⊢
  rw [ExceptT.run_bind, StateT.run_bind, h]
  rfl

theorem result_bind_error {f : Failure} (h : x.result s = (.error f, s')) (k : α → Step β) :
    (x >>= k).result s = (.error f, s') := by
  unfold result at h ⊢
  rw [ExceptT.run_bind, StateT.run_bind, h]
  rfl

theorem attempt_ok_bind (a : α) (k : α → Step β) : attempt (.ok a) >>= k = k a := rfl

end

/-! ## Progress lines -/

def progress : List String → String
  | [] => ""
  | line :: lines => "[INFO] " ++ line ++ "\n" ++ progress lines

theorem progress_append (lines more : List String) :
    progress (lines ++ more) = progress lines ++ progress more := by
  induction lines with
  | nil => exact String.empty_append.symm
  | cons line lines ih => rw [List.cons_append, progress, progress, ih, ← String.append_assoc]

def addLines (s : Session) (lines : List String) : Session :=
  { s with stderr := s.stderr ++ progress lines }

theorem addLines_nil (s : Session) : addLines s [] = s := by
  rw [addLines, progress, String.append_empty]

theorem addLines_addLines (s : Session) (lines more : List String) :
    addLines (addLines s lines) more = addLines s (lines ++ more) := by
  unfold addLines
  rw [progress_append, String.append_assoc]

theorem result_info (o : Options) (line : String) (s : Session) :
    ∃ lines, (info o line).result s = (.ok (), addLines s lines) := by
  unfold info
  split
  · refine ⟨[line], ?_⟩
    rw [addLines, progress, progress, String.append_empty, ← String.append_assoc,
      ← String.append_assoc]
    rfl
  · refine ⟨[], ?_⟩
    rw [addLines_nil]
    rfl

/-! ## Steps that only answer -/

/-- With these files, a step has the outcome `r` and does no more than add progress lines. -/
def Answers (t : Files) (x : Step α) (r : Except Failure α) : Prop :=
  ∀ s : Session, s.files = t → ∃ lines, x.result s = (r, addLines s lines)

section
variable {t : Files} {x : Step α} {r : Except Failure α}

theorem answers_of_result (h : ∀ s : Session, s.files = t → x.result s = (r, s)) :
    Answers t x r := by
  intro s hs
  refine ⟨[], ?_⟩
  rw [h s hs, addLines_nil]

theorem answers_pure (a : α) : Answers t (pure a) (.ok a) := answers_of_result fun _ _ => rfl

theorem answers_attempt (r : Except Failure α) : Answers t (attempt r) r :=
  answers_of_result fun _ _ => rfl

theorem answers_onFiles (f : Files → Except Failure α) : Answers t (onFiles f) (f t) := by
  refine answers_of_result fun s hs => ?_
  rw [← hs]
  rfl

theorem answers_info (o : Options) (line : String) : Answers t (info o line) (.ok ()) :=
  fun s _ => result_info o line s

theorem answers_bind {k : α → Step β} {g : α → Except Failure β} (hx : Answers t x r)
    (hk : ∀ a, Answers t (k a) (g a)) : Answers t (x >>= k) (r >>= g) := by
  intro s hs
  obtain ⟨lines, hlines⟩ := hx s hs
  cases r with
  | error f => exact ⟨lines, result_bind_error hlines k⟩
  | ok a =>
    obtain ⟨more, hmore⟩ := hk a (addLines s lines) hs
    refine ⟨lines ++ more, ?_⟩
    rw [result_bind_ok hlines, hmore, addLines_addLines]
    rfl

theorem answers_info_bind (o : Options) (line : String) {k : Unit → Step α}
    (hk : Answers t (k ()) r) : Answers t (info o line >>= k) r :=
  answers_bind (g := fun _ => r) (answers_info o line) fun _ => hk

theorem answers_bind_info (o : Options) (line : α → String) (hx : Answers t x r) :
    Answers t (x >>= fun a => do info o (line a); return a) r := by
  have h : Answers t (x >>= fun a => do info o (line a); return a) (r >>= pure) :=
    answers_bind hx fun a => answers_info_bind o (line a) (answers_pure a)
  rwa [bind_pure] at h

end

/-! ## Steps that fail in certain ways -/

/-- A step that prints no error lines but progress and has no failures but those of `P`. -/
structure Within (P : Failure → Prop) (x : Step α) : Prop where
  lines : ∀ s, ∃ lines, (x.result s).2.stderr = s.stderr ++ progress lines
  failure : ∀ s f, (x.result s).1 = .error f → P f

section
variable {P : Failure → Prop} {x : Step α}

theorem within_pure (a : α) : Within P (pure a : Step α) := by
  constructor
  · intro s
    exact ⟨[], (String.append_empty ..).symm⟩
  · intro s f h
    cases h

theorem within_attempt {r : Except Failure α} (h : ∀ f, r = .error f → P f) :
    Within P (attempt r) := by
  constructor
  · intro s
    exact ⟨[], (String.append_empty ..).symm⟩
  · intro s f hf
    exact h f hf

theorem within_onFiles {f : Files → Except Failure α}
    (h : ∀ t fault, f t = .error fault → P fault) :
    Within P (onFiles f) := by
  constructor
  · intro s
    exact ⟨[], (String.append_empty ..).symm⟩
  · intro s fault hf
    exact h s.files fault hf

theorem within_modify {g : Session → Session} (h : ∀ s, (g s).stderr = s.stderr) :
    Within P (modify g : Step Unit) := by
  constructor
  · intro s
    refine ⟨[], ?_⟩
    rw [progress, String.append_empty]
    exact h s
  · intro s f hf
    cases hf

theorem within_info (o : Options) (line : String) : Within P (info o line) := by
  constructor
  · intro s
    obtain ⟨lines, h⟩ := result_info o line s
    exact ⟨lines, by rw [h]; rfl⟩
  · intro s f hf
    obtain ⟨lines, h⟩ := result_info o line s
    rw [h] at hf
    cases hf

theorem within_bind {k : α → Step β} (hx : Within P x) (hk : ∀ a, Within P (k a)) :
    Within P (x >>= k) := by
  have hcases (s : Session) : (∃ f s', x.result s = (.error f, s')) ∨
      ∃ a s', x.result s = (.ok a, s') := by
    cases h : x.result s with
    | mk r s' =>
      cases r with
      | error f => exact .inl ⟨f, s', rfl⟩
      | ok a => exact .inr ⟨a, s', rfl⟩
  constructor
  · intro s
    obtain ⟨lines, hlines⟩ := hx.lines s
    rcases hcases s with ⟨f, s', h⟩ | ⟨a, s', h⟩
    · rw [h] at hlines
      exact ⟨lines, by rw [result_bind_error h, hlines]⟩
    · rw [h] at hlines
      obtain ⟨more, hmore⟩ := (hk a).lines s'
      refine ⟨lines ++ more, ?_⟩
      rw [result_bind_ok h, hmore, hlines, progress_append, String.append_assoc]
  · intro s f hf
    rcases hcases s with ⟨f', s', h⟩ | ⟨a, s', h⟩
    · rw [result_bind_error h] at hf
      cases hf
      exact hx.failure s _ (by rw [h])
    · rw [result_bind_ok h] at hf
      exact (hk a).failure s' f hf

theorem within_write {path : String} (text : List Char)
    (h : ∀ (t : Files) bytes fault, t.write path bytes = .error fault → P (.file fault)) :
    Within P (write path text) := by
  unfold write
  refine within_bind (within_onFiles ?_) fun files => within_modify fun _ => rfl
  intro t f hf
  cases hw : t.write path (Text.Utf8.encode text) with
  | ok t' => rw [hw] at hf; cases hf
  | error fault =>
    rw [hw] at hf
    cases hf
    exact h t _ fault hw

theorem within_withPath {setting : Setting} {k : String → Step Unit}
    (h : ∀ path, setting = .given path → Within P (k path)) : Within P (withPath setting k) := by
  cases setting with
  | absent => exact within_pure ()
  | emptied => exact within_pure ()
  | given path =>
    simp only [withPath]
    split
    · exact within_pure ()
    · exact h path rfl

end

/-! ## Steps that write -/

/-- Whenever a step succeeds, it leaves the files with these texts written, one after another. -/
def Writes (texts : List (String × List Char)) (x : Step α) : Prop :=
  ∀ s a s', x.result s = (.ok a, s') → s.files.writeAll texts = .ok s'.files

section
variable {texts : List (String × List Char)} {x : Step α}

theorem writes_pure (a : α) : Writes [] (pure a : Step α) := by
  intro s b s' h
  cases h
  rfl

theorem writes_attempt_error (f : Failure) (k : β → Step α) :
    Writes texts (attempt (.error f) >>= k) := by
  intro s a s' h
  cases h

theorem writes_modify {g : Session → Session} (h : ∀ s, (g s).files = s.files) :
    Writes [] (modify g : Step Unit) := by
  intro s a s' hg
  cases hg
  exact congrArg Except.ok (h s).symm

theorem writes_info (o : Options) (line : String) : Writes [] (info o line) := by
  intro s a s' h
  obtain ⟨lines, hlines⟩ := result_info o line s
  rw [hlines] at h
  cases h
  rfl

theorem writes_write (path : String) (text : List Char) :
    Writes [(path, text)] (write path text) := by
  intro s a s' h
  have hone : s.files.writeAll [(path, text)] = s.files.write path (Text.Utf8.encode text) := by
    rw [Files.writeAll, List.foldlM_cons]
    cases s.files.write path (Text.Utf8.encode text) <;> rfl
  have hfiles : (onFiles fun t => (t.write path (Text.Utf8.encode text)).mapError .file).result s =
      ((s.files.write path (Text.Utf8.encode text)).mapError .file, s) := rfl
  rw [hone]
  cases hw : s.files.write path (Text.Utf8.encode text) with
  | error fault =>
    rw [hw] at hfiles
    rw [write, result_bind_error hfiles] at h
    cases h
  | ok t' =>
    rw [hw] at hfiles
    rw [write, result_bind_ok hfiles] at h
    cases h
    rfl

theorem writes_bind {k : α → Step β} {more : List (String × List Char)} (hx : Writes texts x)
    (hk : ∀ a, Writes more (k a)) : Writes (texts ++ more) (x >>= k) := by
  intro s b s'' h
  cases hs : x.result s with
  | mk r s' =>
    cases r with
    | error f =>
      rw [result_bind_error hs] at h
      cases h
    | ok a =>
      rw [result_bind_ok hs] at h
      rw [Files.writeAll_append (hx s a s' hs)]
      exact hk a s' b s'' h

theorem writes_bind_info (o : Options) (line : String) (hx : Writes texts x) :
    Writes texts (x >>= fun _ => info o line) := by
  have h : Writes (texts ++ []) (x >>= fun _ => info o line) :=
    writes_bind hx fun _ => writes_info o line
  rwa [List.append_nil] at h

end

end StackForest.CommandLine.Step
