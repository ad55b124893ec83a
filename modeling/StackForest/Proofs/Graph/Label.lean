import StackForest.Graph

/-!
# Quoted labels

Escaping a label in three passes is the same as escaping each of its characters once, since no pass
writes a character that a later one escapes (`quoteLabel_escapes`).
-/

namespace StackForest.Graph

/-! ## One character at a time -/

def escapeChar (c : Char) : List Char :=
  if c = '\\' then ['\\', '\\']
  else if c = '"' then ['\\', '"']
  else if c = '\n' then ['\\', 'n']
  else [c]

theorem escapeChar_cases (c : Char) : (∃ d, escapeChar c = ['\\', d] ∧ d ≠ '\n' ∧
      (c = '\\' ∧ d = '\\' ∨ c = '"' ∧ d = '"' ∨ c = '\n' ∧ d = 'n')) ∨
    escapeChar c = [c] ∧ c ≠ '\\' ∧ c ≠ '"' ∧ c ≠ '\n' := by
  unfold escapeChar
  split
  · next h => exact .inl ⟨_, rfl, by decide, .inl ⟨h, rfl⟩⟩
  next hslash =>
  split
  · next h => exact .inl ⟨_, rfl, by decide, .inr (.inl ⟨h, rfl⟩)⟩
  next hquote =>
  split
  · next h => exact .inl ⟨_, rfl, by decide, .inr (.inr ⟨h, rfl⟩)⟩
  next hfeed => exact .inr ⟨rfl, hslash, hquote, hfeed⟩

theorem replace_cons (c : Char) (new : List Char) (d : Char) (cs : List Char) :
    replace c new (d :: cs) = (if d = c then new else [d]) ++ replace c new cs :=
  List.flatMap_cons ..

theorem replace_append (c : Char) (new cs ds : List Char) :
    replace c new (cs ++ ds) = replace c new cs ++ replace c new ds :=
  List.flatMap_append ..

theorem quoteLabel_eq (cs : List Char) :
    quoteLabel cs = '"' :: cs.flatMap escapeChar ++ ['"'] := by
  have hpasses : replace '\n' ['\\', 'n'] (replace '"' ['\\', '"'] (replace '\\' ['\\', '\\'] cs)) =
      cs.flatMap escapeChar := by
    induction cs with
    | nil => rfl
    | cons c cs ih =>
      rw [List.flatMap_cons, ← ih, replace_cons, replace_append, replace_append]
      congr 1
      rcases escapeChar_cases c with ⟨d, hd, -, ⟨rfl, rfl⟩ | ⟨rfl, rfl⟩ | ⟨rfl, rfl⟩⟩ | ⟨hc, h⟩
      · rfl
      · rfl
      · rfl
      · obtain ⟨hslash, hquote, hfeed⟩ := h
        rw [hc, if_neg hslash]
        simp [replace, hquote, hfeed]
  rw [quoteLabel, hpasses]

theorem lineFeed_not_mem_quoteLabel (cs : List Char) : '\n' ∉ quoteLabel cs := by
  have hescape (c : Char) : '\n' ∉ escapeChar c := by
    rcases escapeChar_cases c with ⟨d, hd, hfeed, -⟩ | ⟨hc, -, -, hfeed⟩
    · rw [hd]
      simp [Ne.symm hfeed]
    · rw [hc]
      simp [Ne.symm hfeed]
  rw [quoteLabel_eq]
  simp [hescape]

/-! ## Where a label ends -/

/-- How many backslashes stand directly at the end of some characters, the last one first. -/
def slashes (behind : List Char) : Nat := (behind.takeWhile (· == '\\')).length

/-- The characters up to the first double quote with an even number of backslashes directly in
front. `behind` holds those that are passed, the last one first. -/
def untilQuote (behind : List Char) : List Char → Option (List Char)
  | [] => none
  | c :: r =>
    if c = '"' ∧ slashes behind % 2 = 0 then some (c :: behind).reverse
    else untilQuote (c :: behind) r

/-- The first quoted text of a line, with its quotes. -/
def quotedIn (line : List Char) : Option (List Char) :=
  match line.dropWhile (· != '"') with
  | [] => none
  | q :: r => (untilQuote [] r).map (q :: ·)

theorem slashes_cons (c : Char) (behind : List Char) :
    slashes (c :: behind) = if c = '\\' then slashes behind + 1 else 0 := by
  by_cases h : c = '\\'
  · simp [slashes, h]
  · simp [slashes, h]

theorem slashes_escapeChar {behind : List Char} (hbehind : slashes behind % 2 = 0) (c : Char) :
    slashes ((escapeChar c).reverse ++ behind) % 2 = 0 := by
  rcases escapeChar_cases c with ⟨d, hd, -, -⟩ | ⟨hc, hslash, -, -⟩
  · rw [hd, List.reverse_cons, List.reverse_singleton, List.singleton_append, List.cons_append,
      List.singleton_append, slashes_cons, slashes_cons, if_pos rfl]
    split
    · omega
    · rfl
  · rw [hc, List.reverse_singleton, List.singleton_append, slashes_cons, if_neg hslash]

theorem slashes_flatMap_escapeChar {behind : List Char} (hbehind : slashes behind % 2 = 0)
    (cs : List Char) : slashes ((cs.flatMap escapeChar).reverse ++ behind) % 2 = 0 := by
  induction cs generalizing behind with
  | nil => exact hbehind
  | cons c cs ih =>
    rw [List.flatMap_cons, List.reverse_append, List.append_assoc]
    exact ih (slashes_escapeChar hbehind c)

theorem untilQuote_cons {c : Char} {behind : List Char} (h : c ≠ '"' ∨ slashes behind % 2 = 1)
    (r : List Char) : untilQuote behind (c :: r) = untilQuote (c :: behind) r := by
  rw [untilQuote, if_neg]
  rintro ⟨hc, heven⟩
  rcases h with h | h
  · exact h hc
  · omega

theorem untilQuote_escaped {behind : List Char} (hbehind : slashes behind % 2 = 0)
    (cs rest : List Char) : untilQuote behind (cs.flatMap escapeChar ++ '"' :: rest) =
      some (behind.reverse ++ cs.flatMap escapeChar ++ ['"']) := by
  induction cs generalizing behind with
  | nil => simp [untilQuote, hbehind]
  | cons c cs ih =>
    rw [List.flatMap_cons, List.append_assoc]
    rcases escapeChar_cases c with ⟨d, hd, -, h⟩ | ⟨hc, hslash, hquote, -⟩
    · have hodd : slashes ('\\' :: behind) % 2 = 1 := by
        rw [slashes_cons, if_pos rfl]
        omega
      have heven : slashes (d :: '\\' :: behind) % 2 = 0 := by
        simpa [hd] using slashes_escapeChar hbehind c
      rw [hd, List.cons_append, List.cons_append, List.nil_append,
        untilQuote_cons (.inl (by decide)), untilQuote_cons (.inr hodd), ih heven]
      simp
    · have heven : slashes (c :: behind) % 2 = 0 := by
        simpa [hc] using slashes_escapeChar hbehind c
      rw [hc, List.singleton_append, untilQuote_cons (.inl hquote), ih heven]
      simp

theorem quotedIn_quoteLabel {front : List Char} (hfront : '"' ∉ front) (cs rest : List Char) :
    quotedIn (front ++ quoteLabel cs ++ rest) = some (quoteLabel cs) := by
  have hskip : ∀ c ∈ front, (c != '"') = true := by
    intro c hc
    rw [bne_iff_ne]
    rintro rfl
    exact hfront hc
  have hdrop : (front ++ quoteLabel cs ++ rest).dropWhile (· != '"') =
      '"' :: (cs.flatMap escapeChar ++ '"' :: rest) := by
    rw [List.append_assoc, List.dropWhile_append_of_pos hskip, quoteLabel_eq]
    simp
  have hnil : slashes [] % 2 = 0 := rfl
  have huntil := untilQuote_escaped hnil cs rest
  rw [quotedIn, hdrop]
  simp only [huntil, List.reverse_nil, List.nil_append, Option.map_some, quoteLabel_eq,
    List.cons_append]

/-! ## Reading a label back -/

def unescapeLabel : List Char → List Char
  | [] => []
  | '\\' :: c :: r => (if c = 'n' then '\n' else c) :: unescapeLabel r
  | c :: r => c :: unescapeLabel r

theorem unescapeLabel_escapeChar (c : Char) (r : List Char) :
    unescapeLabel (escapeChar c ++ r) = c :: unescapeLabel r := by
  rcases escapeChar_cases c with ⟨d, hd, -, ⟨rfl, rfl⟩ | ⟨rfl, rfl⟩ | ⟨rfl, rfl⟩⟩ | ⟨hc, hslash, -⟩
  · rfl
  · rfl
  · rfl
  · rw [hc, List.singleton_append, unescapeLabel]
    intro _ _ h
    exact absurd h hslash

theorem unescapeLabel_flatMap_escapeChar (cs : List Char) :
    unescapeLabel (cs.flatMap escapeChar) = cs := by
  induction cs with
  | nil => rfl
  | cons c cs ih => rw [List.flatMap_cons, unescapeLabel_escapeChar, ih]

theorem quoteLabel_injective : Function.Injective quoteLabel := by
  intro cs ds h
  rw [quoteLabel_eq, quoteLabel_eq, List.cons_append, List.cons_append, List.cons_inj_right,
    List.append_cancel_right_eq] at h
  rw [← unescapeLabel_flatMap_escapeChar cs, h, unescapeLabel_flatMap_escapeChar]

/-! ## Double quotes inside -/

theorem odd_slashes_of_escaped : ∀ {cs front back behind : List Char},
    slashes behind % 2 = 0 → cs.flatMap escapeChar = front ++ '"' :: back →
      slashes (front.reverse ++ behind) % 2 = 1
  | [], front, back, behind, _, h => by simp at h
  | c :: cs, front, back, behind, hbehind, h => by
    have heven := slashes_escapeChar hbehind c
    rw [List.flatMap_cons] at h
    rcases escapeChar_cases c with ⟨d, hd, -, -⟩ | ⟨hc, -, hquote, -⟩
    · rw [hd] at h heven
      cases front with
      | nil => cases h
      | cons x front =>
        simp only [List.cons_append, List.nil_append, List.cons.injEq] at h
        obtain ⟨rfl, h⟩ := h
        cases front with
        | nil =>
          rw [List.reverse_singleton, List.singleton_append, slashes_cons, if_pos rfl]
          omega
        | cons y front =>
          simp only [List.cons_append, List.cons.injEq] at h
          obtain ⟨rfl, h⟩ := h
          simpa using odd_slashes_of_escaped heven h
    · rw [hc] at h heven
      cases front with
      | nil => exact absurd (List.cons.inj h).1 hquote
      | cons x front =>
        simp only [List.cons_append, List.nil_append, List.cons.injEq] at h
        obtain ⟨rfl, h⟩ := h
        simpa using odd_slashes_of_escaped heven h

theorem odd_slashes_iff {cs front back : List Char} (h : quoteLabel cs = front ++ '"' :: back) :
    slashes front.reverse % 2 = 1 ↔ front ≠ [] ∧ back ≠ [] := by
  have hquote : slashes ['"'] % 2 = 0 := rfl
  rw [quoteLabel_eq] at h
  cases front with
  | nil => simp [slashes]
  | cons q front =>
    simp only [List.cons_append, List.cons.injEq] at h
    obtain ⟨rfl, h⟩ := h
    rw [List.reverse_cons]
    rcases List.eq_nil_or_concat back with rfl | ⟨back, x, rfl⟩
    · obtain ⟨rfl, -⟩ := List.append_inj' h rfl
      simp [slashes_flatMap_escapeChar hquote]
    · have hinside : cs.flatMap escapeChar = front ++ '"' :: back := by
        rw [List.concat_eq_append, ← List.cons_append, ← List.append_assoc] at h
        exact (List.append_inj' h rfl).1
      simp [odd_slashes_of_escaped hquote hinside]

/-- **Quoting.** The three passes escape each character for itself, different labels stay different,
and between its two quotes a quoted label has neither a line feed nor a double quote that is not
escaped. -/
theorem quoteLabel_escapes :
    (∀ cs, quoteLabel cs = '"' :: cs.flatMap escapeChar ++ ['"']) ∧
      Function.Injective quoteLabel ∧
      ∀ cs, '\n' ∉ quoteLabel cs ∧ ∀ front back, quoteLabel cs = front ++ '"' :: back →
        (slashes front.reverse % 2 = 1 ↔ front ≠ [] ∧ back ≠ []) :=
  ⟨quoteLabel_eq, quoteLabel_injective, fun cs =>
    ⟨lineFeed_not_mem_quoteLabel cs, fun _ _ => odd_slashes_iff⟩⟩

theorem quoteLabel_escapes_of_innerQuote :
    quoteLabel ['\\', '"', '\n'] = ['"', '\\', '\\', '\\'] ++ '"' :: ['\\', 'n', '"'] ∧
      slashes ['\\', '\\', '\\', '"'] % 2 = 1 := by
  have h : quoteLabel ['\\', '"', '\n'] =
      ['"', '\\', '\\', '\\'] ++ '"' :: ['\\', 'n', '"'] := rfl
  exact ⟨h, ((quoteLabel_escapes.2.2 _).2 _ _ h).mpr ⟨by simp, by simp⟩⟩

end StackForest.Graph
