import Mathlib.Tactic.TypeStar

/-!
# Results that may be faults

When a composed result is a success, each of its parts is one; when it is a fault, the first part
that fails has it.
-/

namespace StackForest

variable {ε ε' α β : Type*}

theorem exists_of_bind_eq_ok {x : Except ε α} {f : α → Except ε β} {b : β}
    (h : x.bind f = .ok b) : ∃ a, x = .ok a ∧ f a = .ok b := by
  cases x with
  | error fault => cases h
  | ok a => exact ⟨a, rfl, h⟩

theorem bind_eq_error_iff {x : Except ε α} {f : α → Except ε β} {fault : ε} :
    x.bind f = .error fault ↔ x = .error fault ∨ ∃ a, x = .ok a ∧ f a = .error fault := by
  cases x with
  | error e => simp [Except.bind]
  | ok a => simp [Except.bind]

theorem map_eq_ok_iff {x : Except ε α} {f : α → β} {b : β} :
    x.map f = .ok b ↔ ∃ a, x = .ok a ∧ f a = b := by
  cases x with
  | error fault => simp [Except.map]
  | ok a => simp [Except.map]

theorem map_eq_error_iff {x : Except ε α} {f : α → β} {fault : ε} :
    x.map f = .error fault ↔ x = .error fault := by
  cases x with
  | error e => simp [Except.map]
  | ok a => simp [Except.map]

theorem mapError_ok (f : ε → ε') (a : α) : (Except.ok a).mapError f = .ok a := rfl

theorem mapError_error (f : ε → ε') (e : ε) :
    (Except.error e : Except ε α).mapError f = .error (f e) := rfl

theorem mapError_eq_ok_iff {x : Except ε α} {f : ε → ε'} {a : α} :
    x.mapError f = .ok a ↔ x = .ok a := by
  cases x with
  | error e => simp [mapError_error]
  | ok b => simp [mapError_ok]

theorem mapError_eq_error_iff {x : Except ε α} {f : ε → ε'} {fault : ε'} :
    x.mapError f = .error fault ↔ ∃ e, x = .error e ∧ f e = fault := by
  cases x with
  | error e => simp [mapError_error]
  | ok a => simp [mapError_ok]

theorem mapError_map (x : Except ε α) (f : α → β) (g : ε → ε') :
    (x.map f).mapError g = (x.mapError g).map f := by
  cases x <;> rfl

theorem map_nil_append (x : Except ε (List α)) : x.map ([] ++ ·) = x := by
  cases x <;> rfl

theorem map_append_append (x : Except ε (List α)) (as bs : List α) :
    (x.map (bs ++ ·)).map (as ++ ·) = x.map (as ++ bs ++ ·) := by
  cases x with
  | error fault => rfl
  | ok cs => simp only [Except.map, List.append_assoc]

/-- Two results that are related successes, or one and the same fault. -/
inductive Lift (R : α → β → Prop) : Except ε α → Except ε β → Prop
  | ok {a b} : R a b → Lift R (.ok a) (.ok b)
  | error (fault : ε) : Lift R (.error fault) (.error fault)

theorem lift_iff {R : α → β → Prop} {x : Except ε α} {y : Except ε β} : Lift R x y ↔
    (∃ a b, x = .ok a ∧ y = .ok b ∧ R a b) ∨ ∃ fault, x = .error fault ∧ y = .error fault := by
  constructor
  · intro h
    cases h with
    | ok h => exact .inl ⟨_, _, rfl, rfl, h⟩
    | error fault => exact .inr ⟨fault, rfl, rfl⟩
  · rintro (⟨a, b, rfl, rfl, h⟩ | ⟨fault, rfl, rfl⟩)
    · exact .ok h
    · exact .error fault

theorem mapM_map_eq_ok {f : β → Except ε α} {g : α → β} (h : ∀ a, f (g a) = .ok a)
    (xs : List α) : (xs.map g).mapM f = .ok xs := by
  induction xs with
  | nil => rfl
  | cons x xs ih =>
    rw [List.map_cons, List.mapM_cons, h, ih]
    rfl

theorem foldlM_eq_ok_of_forall {f g : β → α → Except ε β}
    (h : ∀ b x c, f b x = .ok c → g b x = .ok c) {xs : List α} {b c : β}
    (hf : xs.foldlM f b = .ok c) : xs.foldlM g b = .ok c := by
  induction xs generalizing b with
  | nil => exact hf
  | cons x xs ih =>
    rw [List.foldlM_cons] at hf ⊢
    obtain ⟨d, hd, hf⟩ := exists_of_bind_eq_ok hf
    rw [h b x d hd]
    exact ih hf

theorem foldlM_eq_error_iff {f : β → α → Except ε β} {xs : List α} {b : β} {fault : ε} :
    xs.foldlM f b = .error fault ↔ ∃ before x after c, xs = before ++ x :: after ∧
      before.foldlM f b = .ok c ∧ f c x = .error fault := by
  constructor
  · intro h
    induction xs generalizing b with
    | nil => cases h
    | cons x xs ih =>
      rw [List.foldlM_cons] at h
      cases hx : f b x with
      | error e =>
        rw [hx] at h
        cases h
        exact ⟨[], x, xs, b, rfl, rfl, hx⟩
      | ok c =>
        rw [hx] at h
        obtain ⟨before, y, after, d, rfl, hbefore, hy⟩ := ih h
        refine ⟨x :: before, y, after, d, rfl, ?_, hy⟩
        rw [List.foldlM_cons, hx]
        exact hbefore
  · rintro ⟨before, x, after, c, rfl, hbefore, hx⟩
    rw [List.foldlM_append, hbefore]
    change (x :: after).foldlM f c = .error fault
    rw [List.foldlM_cons, hx]
    rfl

end StackForest
