import StackForest.Expr.Reconstruct

/-!
# Braces

Which entries of a program are braces, and the ordinary matching of braces.
-/

namespace StackForest

theorem open_ne_close : blockOpen ≠ blockClose := by decide

namespace Entry

def isOpen : Entry → Bool
  | instruction i => i.isInvoke blockOpen
  | foreign _ => false

def isClose : Entry → Bool
  | instruction i => i.isInvoke blockClose
  | foreign _ => false

@[simp]
theorem isOpen_pushNumber (n : Number) (l : Value) :
    isOpen (.instruction (.pushNumber n l)) = false := rfl

@[simp]
theorem isOpen_pushText (t : String) (l : Value) :
    isOpen (.instruction (.pushText t l)) = false := rfl

@[simp]
theorem isOpen_invoke (name : String) (l : Value) :
    isOpen (.instruction (.invoke name l)) = (name == blockOpen) := rfl

@[simp]
theorem isClose_pushNumber (n : Number) (l : Value) :
    isClose (.instruction (.pushNumber n l)) = false := rfl

@[simp]
theorem isClose_pushText (t : String) (l : Value) :
    isClose (.instruction (.pushText t l)) = false := rfl

@[simp]
theorem isClose_invoke (name : String) (l : Value) :
    isClose (.instruction (.invoke name l)) = (name == blockClose) := rfl

theorem eq_invoke_of_isOpen : ∀ {e : Entry}, e.isOpen = true →
    ∃ l, e = .instruction (.invoke blockOpen l)
  | instruction (.invoke name l), h => ⟨l, by rw [beq_iff_eq.mp h]⟩

theorem isClose_of_isOpen {e : Entry} (h : e.isOpen = true) : e.isClose = false := by
  obtain ⟨l, rfl⟩ := eq_invoke_of_isOpen h
  simp [open_ne_close]

end Entry

theorem nextDepth_eq (depth : Nat) (e : Entry) : Frame.nextDepth depth e =
    if e.isOpen then depth - 1 else if e.isClose then depth + 1 else depth := by
  cases e <;> rfl

/-! ## Matching -/

/-- The programs in which every brace has its match. -/
inductive Balanced : Program → Prop
  | nil : Balanced []
  | plain {e p} : e.isOpen = false → e.isClose = false → Balanced p → Balanced (e :: p)
  | braces {o c p q} : o.isOpen = true → c.isClose = true → Balanced p → Balanced q →
    Balanced (o :: (p ++ c :: q))

theorem balanced_append {p q : Program} (hp : Balanced p) (hq : Balanced q) :
    Balanced (p ++ q) := by
  induction hp with
  | nil => exact hq
  | plain ho hc _ ih => exact .plain ho hc ih
  | braces ho hc h _ _ ih =>
    rw [List.cons_append, List.append_assoc, List.cons_append]
    exact .braces ho hc h ih

def openEntry : Entry := .instruction (.invoke blockOpen .null)

/-- An entry without its label if it is an opening brace. -/
def Entry.unlabelOpen (e : Entry) : Entry := if e.isOpen then openEntry else e

theorem isOpen_unlabelOpen (e : Entry) : e.unlabelOpen.isOpen = e.isOpen := by
  unfold Entry.unlabelOpen
  split
  · next h => rw [h]; rfl
  · rfl

theorem isClose_unlabelOpen (e : Entry) : e.unlabelOpen.isClose = e.isClose := by
  unfold Entry.unlabelOpen
  split
  · next h => rw [Entry.isClose_of_isOpen h]; rfl
  · rfl

theorem balanced_of_unlabelOpen {q : Program} (h : Balanced q) :
    ∀ {p : Program}, p.map Entry.unlabelOpen = q → Balanced p := by
  induction h with
  | nil =>
    intro p hp
    rw [List.map_eq_nil_iff.mp hp]
    exact .nil
  | plain ho hc _ ih =>
    intro p hp
    obtain ⟨e, p, rfl, rfl, hq⟩ := List.map_eq_cons_iff.mp hp
    rw [isOpen_unlabelOpen] at ho
    rw [isClose_unlabelOpen] at hc
    exact .plain ho hc (ih hq)
  | braces ho hc _ _ ih₁ ih₂ =>
    intro p hp
    obtain ⟨o, r, rfl, rfl, hr⟩ := List.map_eq_cons_iff.mp hp
    obtain ⟨p₁, r₁, rfl, hp₁, hr₁⟩ := List.map_eq_append_iff.mp hr
    obtain ⟨c, p₂, rfl, rfl, hp₂⟩ := List.map_eq_cons_iff.mp hr₁
    rw [isOpen_unlabelOpen] at ho
    rw [isClose_unlabelOpen] at hc
    exact .braces ho hc (ih₁ hp₁) (ih₂ hp₂)

end StackForest
