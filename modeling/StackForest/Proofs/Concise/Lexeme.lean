import StackForest.Concise.Lexeme
import StackForest.Proofs.Text.Run

/-!
# The lexeme at the front of a text

A text that begins with a lexeme and does not go on as the same one is taken apart into this
lexeme and the lexemes of what is left (`split_append`).
-/

namespace StackForest

open Text

namespace Text.Quoted

inductive Quotable : List Char → Prop
  | nil : Quotable []
  | char {c cs} : c ≠ '"' → c ≠ '\\' → Quotable cs → Quotable (c :: cs)
  | pair {c cs} : c ≠ '\n' → Quotable cs → Quotable ('\\' :: c :: cs)

theorem closing?_append {cs : List Char} (h : Quotable cs) (n : Nat) (r : List Char) :
    closing? n (cs ++ '"' :: r) = some (n + cs.length + 1) := by
  induction h generalizing n with
  | nil => rfl
  | @char c cs hq hb _ ih =>
    rw [List.cons_append, closing?, if_neg hb, ih, List.length_cons]
    · congr 1; omega
    · exact hq
    · intro _ _ hc
      exact absurd hc hb
  | pair hn _ ih =>
    rw [List.cons_append, List.cons_append, closing?, if_neg hn, ih, List.length_cons,
      List.length_cons]
    congr 1; omega

theorem exists_quotable {cs : List Char} {n m : Nat} (h : closing? n cs = some m) :
    ∃ body r, cs = body ++ '"' :: r ∧ Quotable body ∧ m = n + body.length + 1 := by
  fun_induction closing? n cs with
  | case1 n => cases h
  | case2 n r =>
    cases h
    exact ⟨[], r, rfl, .nil, rfl⟩
  | case3 n cs => cases h
  | case4 n c cs hc ih =>
    obtain ⟨body, r, rfl, hbody, rfl⟩ := ih h
    exact ⟨'\\' :: c :: body, r, rfl, .pair hc hbody, by simp only [List.length_cons]; omega⟩
  | case5 n cs => cases h
  | case6 n c cs hq hp hc ih =>
    obtain ⟨body, r, rfl, hbody, rfl⟩ := ih h
    exact ⟨c :: body, r, rfl, .char hq hc hbody, by simp only [List.length_cons]; omega⟩

theorem quotable_escape (c : Char) {cs : List Char} (h : Quotable cs) :
    Quotable (escape c ++ cs) := by
  unfold escape
  split
  · exact .pair (by decide) h
  · split
    · exact .pair (by decide) h
    · split
      · exact .pair (by decide) h
      · split
        · exact .pair (by decide) h
        · next hb hq _ _ => exact .char hq hb h

theorem quotable_flatMap_escape (cs : List Char) : Quotable (cs.flatMap escape) := by
  induction cs with
  | nil => exact .nil
  | cons c cs ih =>
    rw [List.flatMap_cons]
    exact quotable_escape c ih

theorem decode_quoted (body : List Char) : decode ('"' :: (body ++ ['"'])) = unescape body := by
  simp [decode]

end Text.Quoted

namespace Concise

/-! ## Classes of characters -/

theorem isSpace_of_isBlank {c : Char} (h : isBlank c = true) : isSpace c = true := by
  simp only [isBlank, Bool.or_eq_true, beq_iff_eq] at h
  rcases h with (((rfl | rfl) | rfl) | rfl) | rfl <;> decide

theorem isWordChar_iff {c : Char} :
    isWordChar c = true ↔ isSpace c = false ∧ c ≠ '"' ∧ c ≠ ';' ∧ c ≠ '#' := by
  simp [isWordChar, and_assoc]

theorem isBlank_of_isWordChar {c : Char} (h : isWordChar c = true) : isBlank c = false := by
  rw [isWordChar_iff] at h
  cases hb : isBlank c with
  | false => rfl
  | true =>
    rw [isSpace_of_isBlank hb] at h
    exact absurd h.1 (by decide)

/-- The characters that a lexeme of a kind goes on with as long as it can. -/
def Kind.continues : Kind → Char → Bool
  | blank => isBlank
  | comment => (· != '\n')
  | quoted => fun _ => false
  | label | word => isWordChar

namespace Lexeme

inductive WellFormed : Lexeme → Prop
  | blank {c : Char} {cs : List Char} (h : ∀ x ∈ c :: cs, isBlank x = true) :
    WellFormed ⟨.blank, c :: cs⟩
  | comment {cs : List Char} (h : ∀ x ∈ cs, (x != '\n') = true) : WellFormed ⟨.comment, ';' :: cs⟩
  | quoted {cs : List Char} (h : Quoted.Quotable cs) : WellFormed ⟨.quoted, '"' :: (cs ++ ['"'])⟩
  | label {c : Char} {cs : List Char} (h : ∀ x ∈ c :: cs, isWordChar x = true) :
    WellFormed ⟨.label, '#' :: c :: cs⟩
  | word {c : Char} {cs : List Char} (h : ∀ x ∈ c :: cs, isWordChar x = true) :
    WellFormed ⟨.word, c :: cs⟩

theorem split_of_first? {c : Char} {cs r : List Char} {kind : Kind}
    (h : first? c (cs ++ r) = some (kind, cs.length)) :
    split (c :: (cs ++ r)) = (⟨kind, c :: cs⟩ :: (split r).1, (split r).2) := by
  rw [split, h]
  simp only [List.drop_left, List.take_left]

section
variable {c : Char} {cs r : List Char}

theorem first?_blank (hc : isBlank c = true) (hcs : ∀ x ∈ cs, isBlank x = true)
    (hr : ∀ x ∈ r.head?, isBlank x = false) :
    first? c (cs ++ r) = some (.blank, cs.length) := by
  rw [first?, if_pos hc, takeWhile_run hcs hr]

theorem first?_comment (hcs : ∀ x ∈ cs, (x != '\n') = true)
    (hr : ∀ x ∈ r.head?, (x != '\n') = false) :
    first? ';' (cs ++ r) = some (.comment, cs.length) := by
  rw [first?, if_neg (by decide), if_pos rfl, takeWhile_run hcs hr]

theorem first?_quoted (h : Quoted.Quotable cs) :
    first? '"' ((cs ++ ['"']) ++ r) = some (.quoted, (cs ++ ['"']).length) := by
  rw [first?, if_neg (by decide), if_neg (by decide), if_pos rfl, List.append_assoc,
    List.singleton_append, Quoted.closing?_append h, List.length_append, Nat.zero_add]
  rfl

theorem first?_label (hcs : ∀ x ∈ cs, isWordChar x = true) (hne : cs ≠ [])
    (hr : ∀ x ∈ r.head?, isWordChar x = false) :
    first? '#' (cs ++ r) = some (.label, cs.length) := by
  rw [first?, if_neg (by decide), if_neg (by decide), if_neg (by decide), if_pos rfl,
    takeWhile_run hcs hr]
  exact if_neg hne

theorem first?_word (hc : isWordChar c = true) (hcs : ∀ x ∈ cs, isWordChar x = true)
    (hr : ∀ x ∈ r.head?, isWordChar x = false) :
    first? c (cs ++ r) = some (.word, cs.length) := by
  have hb : ¬isBlank c = true := by rw [isBlank_of_isWordChar hc]; decide
  obtain ⟨-, hq, hs, hl⟩ := isWordChar_iff.mp hc
  rw [first?, if_neg hb, if_neg hs, if_neg hq, if_neg hl, if_pos hc, takeWhile_run hcs hr]

end

theorem split_append {l : Lexeme} (hl : l.WellFormed) {r : List Char}
    (hr : ∀ c ∈ r.head?, l.kind.continues c = false) :
    split (l.text ++ r) = (l :: (split r).1, (split r).2) := by
  cases hl with
  | blank h =>
    rw [List.forall_mem_cons] at h
    exact split_of_first? (first?_blank h.1 h.2 hr)
  | comment h => exact split_of_first? (first?_comment h hr)
  | quoted h => exact split_of_first? (first?_quoted h)
  | label h => exact split_of_first? (first?_label h (List.cons_ne_nil _ _) hr)
  | word h =>
    rw [List.forall_mem_cons] at h
    exact split_of_first? (first?_word h.1 h.2 hr)

end Lexeme
end Concise
end StackForest
