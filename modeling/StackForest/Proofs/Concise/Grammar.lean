import StackForest.Concise.Reader
import StackForest.Proofs.Number.Value
import StackForest.Proofs.Except

/-!
# The grammar of concise text

A text is read if and only if it is a concatenation of lexemes, none of which could go on, in which
a string or a word follows each label.
-/

namespace StackForest

open Text Concise

namespace Concise

/-! ## The lexemes of a text -/

/-- The text `cs` consists of the lexemes `ls`, none of which goes on with the text behind it. -/
inductive Lexes : List Lexeme → List Char → Prop
  | nil : Lexes [] []
  | cons {l ls cs} : l.WellFormed → (∀ c ∈ cs.head?, l.kind.continues c = false) →
    Lexes ls cs → Lexes (l :: ls) (l.text ++ cs)

theorem wellFormed_of_first? {c : Char} {r : List Char} {kind : Kind} {n : Nat}
    (h : Lexeme.first? c r = some (kind, n)) :
    Lexeme.WellFormed ⟨kind, c :: r.take n⟩ ∧
      ∀ x ∈ (r.drop n).head?, kind.continues x = false := by
  unfold Lexeme.first? at h
  split at h
  · next hc =>
    cases h
    obtain ⟨hrun, hr⟩ := take_drop_run isBlank r
    exact ⟨.blank (List.forall_mem_cons.mpr ⟨hc, hrun⟩), hr⟩
  split at h
  · next hc =>
    cases h
    cases hc
    obtain ⟨hrun, hr⟩ := take_drop_run (· != '\n') r
    exact ⟨.comment hrun, hr⟩
  split at h
  · next hc =>
    obtain ⟨m, hm, hk⟩ := Option.map_eq_some_iff.mp h
    cases hk
    obtain ⟨body, r, rfl, hbody, rfl⟩ := Quoted.exists_quotable hm
    have hsplit : body ++ '"' :: r = (body ++ ['"']) ++ r := by simp
    have hlength : 0 + body.length + 1 = (body ++ ['"']).length := by simp
    rw [hsplit, hlength, List.take_left, List.drop_left, hc]
    exact ⟨.quoted hbody, fun _ _ => rfl⟩
  split at h
  · next hc =>
    obtain ⟨run, r, rfl, hrun, hr⟩ := exists_run isWordChar r
    rw [takeWhile_run hrun hr] at h
    by_cases hne : run = []
    · simp [hne] at h
    · rw [if_neg hne] at h
      cases h
      rw [List.take_left, List.drop_left, hc]
      obtain ⟨a, run, rfl⟩ := List.exists_cons_of_ne_nil hne
      exact ⟨.label hrun, hr⟩
  split at h
  · next hc =>
    cases h
    obtain ⟨hrun, hr⟩ := take_drop_run isWordChar r
    exact ⟨.word (List.forall_mem_cons.mpr ⟨hc, hrun⟩), hr⟩
  · cases h

theorem split_of_lexes {ls : List Lexeme} {cs : List Char} (h : Lexes ls cs) :
    Lexeme.split cs = (ls, []) := by
  induction h with
  | nil => rw [Lexeme.split]
  | cons hl hnext _ ih => rw [Lexeme.split_append hl hnext, ih]

theorem exists_of_split_cons {l : Lexeme} {ls : List Lexeme} {cs rest : List Char}
    (h : Lexeme.split cs = (l :: ls, rest)) : l.WellFormed ∧ ∃ r, cs = l.text ++ r ∧
      (∀ c ∈ r.head?, l.kind.continues c = false) ∧ Lexeme.split r = (ls, rest) := by
  cases cs with
  | nil =>
    rw [Lexeme.split] at h
    cases h
  | cons c r =>
    rw [Lexeme.split] at h
    split at h
    · cases h
    next kind n hfirst =>
      cases h
      obtain ⟨hl, hnext⟩ := wellFormed_of_first? hfirst
      exact ⟨hl, r.drop n, by simp, hnext, rfl⟩

theorem exists_of_split_append {ls ms : List Lexeme} {cs rest : List Char}
    (h : Lexeme.split cs = (ls ++ ms, rest)) : ∃ r, cs = ls.flatMap Lexeme.text ++ r ∧
      Lexes ls (ls.flatMap Lexeme.text) ∧ Lexeme.split r = (ms, rest) := by
  induction ls generalizing cs with
  | nil => exact ⟨cs, rfl, .nil, h⟩
  | cons l ls ih =>
    obtain ⟨hl, r, rfl, hnext, hr⟩ := exists_of_split_cons h
    obtain ⟨r, rfl, hls, hr⟩ := ih hr
    refine ⟨r, (List.append_assoc ..).symm, .cons hl ?_ hls, hr⟩
    intro c hc
    exact hnext c (List.mem_head?_append_of_mem_head? hc)

theorem lexes_of_split {ls : List Lexeme} {cs : List Char} (h : Lexeme.split cs = (ls, [])) :
    Lexes ls cs := by
  have hcs := Lexeme.split_flatten cs
  rw [h, List.append_nil] at hcs
  rw [← List.append_nil ls] at h
  obtain ⟨-, -, hls, -⟩ := exists_of_split_append h
  rw [← hcs]
  exact hls

theorem lexes_iff {ls : List Lexeme} {cs : List Char} :
    Lexes ls cs ↔ Lexeme.split cs = (ls, []) :=
  ⟨split_of_lexes, lexes_of_split⟩

theorem lexes_unique {ls ms : List Lexeme} {cs : List Char} (hl : Lexes ls cs)
    (hm : Lexes ms cs) : ls = ms := by
  rw [lexes_iff] at hl hm
  exact congrArg Prod.fst (hl.symm.trans hm)

theorem wellFormed_of_lexes {ls : List Lexeme} {cs : List Char} (h : Lexes ls cs) :
    ∀ l ∈ ls, l.WellFormed := by
  induction h with
  | nil => simp
  | cons hl _ _ ih => exact List.forall_mem_cons.mpr ⟨hl, ih⟩

theorem wellFormed_of_split {ls : List Lexeme} {cs rest : List Char}
    (h : Lexeme.split cs = (ls, rest)) : ∀ l ∈ ls, l.WellFormed := by
  rw [← List.append_nil ls] at h
  obtain ⟨-, -, hls, -⟩ := exists_of_split_append h
  exact wellFormed_of_lexes hls

/-! ## The instructions of lexemes -/

/-- What a string or a word stands for behind a label. -/
inductive Stands (label : Value) : Lexeme → Instruction → Prop
  | text {cs} : Quoted.Quotable cs →
    Stands label ⟨.quoted, '"' :: (cs ++ ['"'])⟩ (.pushText (.ofList (Quoted.unescape cs)) label)
  | number {cs n} : Numeral cs → Number.read cs = .ok n →
    Stands label ⟨.word, cs⟩ (.pushNumber n label)
  | name {cs} : ¬Numeral cs → Stands label ⟨.word, cs⟩ (.invoke (.ofList cs) label)

/-- One instruction for each string and each word, with the label directly in front of it. -/
inductive Items : List Lexeme → List Instruction → Prop
  | nil : Items [] []
  | bare {l ls i is} : Stands .null l i → Items ls is → Items (l :: ls) (i :: is)
  | labelled {name l ls i is} : Stands (.text (.ofList name)) l i → Items ls is →
    Items (⟨.label, '#' :: name⟩ :: l :: ls) (i :: is)

def significant (ls : List Lexeme) : List Lexeme := ls.filter (!·.isSkipped)

theorem significant_cons {l : Lexeme} {ls : List Lexeme}
    (hkind : l.kind = .quoted ∨ l.kind = .word) :
    significant (l :: ls) = l :: significant ls := by
  rcases hkind with h | h <;> simp [significant, Lexeme.isSkipped, h]

def HasNext (ls : List Lexeme) : Prop :=
  ∃ next ∈ (significant ls).head?, next.kind = .quoted ∨ next.kind = .word

def LabelsLead (ls : List Lexeme) : Prop :=
  ∀ l behind, l :: behind <:+ ls → l.kind = .label → HasNext behind

theorem hasNext_cons {l : Lexeme} {ls : List Lexeme} (hkind : l.kind = .quoted ∨ l.kind = .word) :
    HasNext (l :: ls) :=
  ⟨l, by rw [significant_cons hkind]; rfl, hkind⟩

theorem not_hasNext_nil : ¬HasNext [] := by
  rintro ⟨next, hnext, -⟩
  cases hnext

theorem not_hasNext_label {t : List Char} {ls : List Lexeme} : ¬HasNext (⟨.label, t⟩ :: ls) := by
  rintro ⟨next, hnext, hkind⟩
  cases hnext
  simp at hkind

theorem ofWord_eq_ok_iff {word : List Char} {label : Value} {i : Instruction} :
    ofWord word label = .ok i ↔ Stands label ⟨.word, word⟩ i := by
  unfold ofWord
  constructor
  · intro h
    split at h
    · next hw =>
      obtain ⟨n, hn, rfl⟩ := map_eq_ok_iff.mp h
      exact .number (isNumeral_iff.mp hw) hn
    · next hw =>
      cases h
      exact .name (mt isNumeral_iff.mpr hw)
  · intro h
    cases h with
    | number hw hn => rw [if_pos (isNumeral_iff.mpr hw), hn]; rfl
    | name hw => rw [if_neg (mt isNumeral_iff.mp hw)]

theorem stands_quoted_iff {body : List Char} (h : Quoted.Quotable body) {label : Value}
    {i : Instruction} : Stands label ⟨.quoted, '"' :: (body ++ ['"'])⟩ i ↔
      .pushText (.ofList (Quoted.unescape body)) label = i := by
  constructor
  · intro hi
    generalize ht : '"' :: (body ++ ['"']) = t at hi
    cases hi with
    | text _ => rw [List.append_cancel_right (List.cons.inj ht).2]
  · rintro rfl
    exact .text h

theorem not_stands_label {label : Value} {t : List Char} {i : Instruction} :
    ¬Stands label ⟨.label, t⟩ i := nofun

def pending : Option Waiting → List Lexeme
  | some w => [⟨.label, '#' :: w.name.toList⟩]
  | none => []

theorem items_pending_iff {waiting : Option Waiting} {kind : Kind} {t : List Char}
    {ls : List Lexeme} {is : List Instruction} (hkind : kind ≠ .label) :
    Items (pending waiting ++ ⟨kind, t⟩ :: ls) is ↔
      ∃ i js, Stands (labelOf waiting) ⟨kind, t⟩ i ∧ Items ls js ∧ is = i :: js := by
  cases waiting with
  | none =>
    constructor
    · intro h
      cases h with
      | bare hi his => exact ⟨_, _, hi, his, rfl⟩
      | labelled _ _ => exact absurd rfl hkind
    · rintro ⟨i, js, hi, his, rfl⟩
      exact .bare hi his
  | some w =>
    constructor
    · intro h
      cases h with
      | bare hi _ => exact absurd hi not_stands_label
      | labelled hi his =>
        rw [String.ofList_toList] at hi
        exact ⟨_, _, hi, his, rfl⟩
    · rintro ⟨i, js, hi, his, rfl⟩
      refine .labelled ?_ his
      rw [String.ofList_toList]
      exact hi

theorem not_items_pending {w : Waiting} {is : List Instruction} :
    ¬Items (pending (some w)) is := by
  intro h
  cases h with
  | bare hi _ => exact not_stands_label hi

theorem not_items_label {w : Waiting} {t : List Char} {ls : List Lexeme} {is : List Instruction} :
    ¬Items (pending (some w) ++ ⟨.label, t⟩ :: ls) is := by
  intro h
  cases h with
  | bare hi _ => exact not_stands_label hi
  | labelled hi _ => exact not_stands_label hi

theorem assemble_eq_ok_iff {ls : List Lexeme} (hls : ∀ l ∈ ls, l.WellFormed) (position : Position)
    (waiting : Option Waiting) (is : List Instruction) :
    assemble [] position waiting ls = .ok is ↔ Items (pending waiting ++ significant ls) is := by
  induction ls generalizing position waiting is with
  | nil =>
    cases waiting with
    | none =>
      constructor
      · intro h
        cases h
        exact .nil
      · intro h
        cases h
        rfl
    | some w =>
      constructor
      · intro h
        cases h
      · intro h
        exact absurd h not_items_pending
  | cons l ls ih =>
    rw [List.forall_mem_cons] at hls
    obtain ⟨hl, hls⟩ := hls
    -- a label comes to wait, a string or a word settles what waits, anything else hands it on
    cases hl with
    | blank _ => exact ih hls _ waiting is
    | comment _ => exact ih hls _ waiting is
    | label hname =>
      cases waiting with
      | none =>
        rw [assemble, ih hls, pending, String.toList_ofList]
        rfl
      | some w =>
        constructor
        · intro h
          cases h
        · intro h
          exact absurd h not_items_label
    | quoted hbody =>
      rw [significant_cons (.inl rfl), items_pending_iff (by decide)]
      simp only [assemble, map_eq_ok_iff, ih hls, stands_quoted_iff hbody, Quoted.decode_quoted]
      constructor
      · rintro ⟨js, his, rfl⟩
        exact ⟨_, js, rfl, his, rfl⟩
      · rintro ⟨_, js, rfl, his, rfl⟩
        exact ⟨js, his, rfl⟩
    | word hw =>
      rw [significant_cons (.inr rfl), items_pending_iff (by decide)]
      simp only [assemble, ← ofWord_eq_ok_iff]
      split
      · next i hi =>
        simp only [map_eq_ok_iff, ih hls]
        constructor
        · rintro ⟨js, his, rfl⟩
          exact ⟨i, js, hi, his, rfl⟩
        · rintro ⟨j, js, hj, his, rfl⟩
          cases hi.symm.trans hj
          exact ⟨js, his, rfl⟩
      · next f hf =>
        simp [hf]

theorem assemble_ne_ok {c : Char} {rest : List Char} (ls : List Lexeme) (position : Position)
    (waiting : Option Waiting) (is : List Instruction) :
    assemble (c :: rest) position waiting ls ≠ .ok is := by
  induction ls generalizing position waiting is with
  | nil => nofun
  | cons l ls ih =>
    obtain ⟨kind, t⟩ := l
    intro h
    cases kind with
    | blank | comment => exact ih _ _ _ h
    | label =>
      cases waiting with
      | none => exact ih _ _ _ h
      | some w => cases h
    | quoted =>
      obtain ⟨js, hjs, -⟩ := map_eq_ok_iff.mp h
      exact ih _ _ _ hjs
    | word =>
      simp only [assemble] at h
      split at h
      · obtain ⟨js, hjs, -⟩ := map_eq_ok_iff.mp h
        exact ih _ _ _ hjs
      · cases h

theorem read_of_split {cs rest : List Char} {ls : List Lexeme}
    (h : Lexeme.split cs = (ls, rest)) : read cs = assemble rest .start none ls := by
  rw [read, h]

theorem read_eq_ok_iff_assemble {cs : List Char} {is : List Instruction} :
    read cs = .ok is ↔ ∃ ls, Lexes ls cs ∧ assemble [] .start none ls = .ok is := by
  constructor
  · intro h
    cases hsplit : Lexeme.split cs with
    | mk ls rest =>
      rw [read_of_split hsplit] at h
      cases rest with
      | nil => exact ⟨ls, lexes_of_split hsplit, h⟩
      | cons c rest => exact absurd h (assemble_ne_ok ls _ none is)
  · rintro ⟨ls, hlexes, h⟩
    rw [read_of_split (split_of_lexes hlexes)]
    exact h

theorem read_eq_ok_iff {cs : List Char} {is : List Instruction} :
    read cs = .ok is ↔ ∃ ls, Lexes ls cs ∧ Items (significant ls) is := by
  rw [read_eq_ok_iff_assemble]
  refine exists_congr fun ls => and_congr_right fun hlexes => ?_
  exact assemble_eq_ok_iff (wellFormed_of_lexes hlexes) .start none is

/-! ## The texts that are read -/

theorem labelsLead_cons {l : Lexeme} {ls : List Lexeme} :
    LabelsLead (l :: ls) ↔ (l.kind = .label → HasNext ls) ∧ LabelsLead ls := by
  unfold LabelsLead
  constructor
  · intro h
    exact ⟨h l ls List.suffix_rfl, fun m behind hm => h m behind (hm.trans (List.suffix_cons l ls))⟩
  · rintro ⟨hl, hls⟩ m behind hm
    rcases List.suffix_cons_iff.mp hm with heq | hm
    · cases heq
      exact hl
    · exact hls m behind hm

theorem labelsLead_cons_of_ne {kind : Kind} {t : List Char} {ls : List Lexeme}
    (hkind : kind ≠ .label) : LabelsLead (⟨kind, t⟩ :: ls) ↔ LabelsLead ls := by
  rw [labelsLead_cons, and_iff_right]
  exact fun h => absurd h hkind

theorem exists_stands {l : Lexeme} (hl : l.WellFormed) (hfit : l.kind = .word → Fits l.text)
    (hkind : l.kind = .quoted ∨ l.kind = .word) (label : Value) : ∃ i, Stands label l i := by
  cases hl with
  | blank _ | comment _ | label _ => simp at hkind
  | quoted hbody => exact ⟨_, .text hbody⟩
  | @word c cs _ =>
    by_cases h : Numeral (c :: cs)
    · obtain ⟨n, hn⟩ := Number.exists_read_of_numeral h (hfit rfl)
      exact ⟨_, .number h hn⟩
    · exact ⟨_, .name h⟩

theorem exists_items_cons_iff {l : Lexeme} {ls : List Lexeme} (waiting : Option Waiting)
    (hkind : l.kind = .quoted ∨ l.kind = .word) (hstands : ∀ label, ∃ i, Stands label l i) :
    (∃ is, Items (pending waiting ++ significant (l :: ls)) is) ↔
      ∃ is, Items (significant ls) is := by
  have hlabel : l.kind ≠ .label := by
    rcases hkind with h | h <;> simp [h]
  rw [significant_cons hkind]
  constructor
  · rintro ⟨is, h⟩
    obtain ⟨-, js, -, hjs, -⟩ := (items_pending_iff hlabel).mp h
    exact ⟨js, hjs⟩
  · rintro ⟨js, hjs⟩
    obtain ⟨i, hi⟩ := hstands (labelOf waiting)
    exact ⟨i :: js, (items_pending_iff hlabel).mpr ⟨i, js, hi, hjs, rfl⟩⟩

theorem exists_items_iff {ls : List Lexeme} (hls : ∀ l ∈ ls, l.WellFormed)
    (hfit : ∀ l ∈ ls, l.kind = .word → Fits l.text) (waiting : Option Waiting) :
    (∃ is, Items (pending waiting ++ significant ls) is) ↔
      (waiting ≠ none → HasNext ls) ∧ LabelsLead ls := by
  induction ls generalizing waiting with
  | nil =>
    have hlead : LabelsLead [] := fun l behind h => absurd (List.suffix_nil.mp h) nofun
    cases waiting with
    | none => exact ⟨fun _ => ⟨fun h => absurd rfl h, hlead⟩, fun _ => ⟨[], .nil⟩⟩
    | some w =>
      constructor
      · rintro ⟨is, h⟩
        exact absurd h not_items_pending
      · rintro ⟨h, -⟩
        exact absurd (h (Option.some_ne_none w)) not_hasNext_nil
  | cons l ls ih =>
    rw [List.forall_mem_cons] at hls hfit
    have hstands := exists_stands hls.1 hfit.1
    -- A string and a word both settle what waits.
    have hitem (hkind : l.kind = .quoted ∨ l.kind = .word) :
        (∃ is, Items (pending waiting ++ significant (l :: ls)) is) ↔
          (waiting ≠ none → HasNext (l :: ls)) ∧ LabelsLead (l :: ls) := by
      have hlabel : ¬l.kind = .label := by
        rcases hkind with h | h <;> simp [h]
      rw [exists_items_cons_iff waiting hkind (hstands hkind), labelsLead_cons]
      refine (ih hls.2 hfit.2 none).trans ?_
      simp [hasNext_cons hkind, hlabel]
    cases hls.1 with
    | blank _ | comment _ =>
      rw [labelsLead_cons_of_ne (by decide)]
      exact ih hls.2 hfit.2 waiting
    | quoted _ => exact hitem (.inl rfl)
    | word _ => exact hitem (.inr rfl)
    | @label c cs _ =>
      cases waiting with
      | none =>
        have h := ih hls.2 hfit.2 (some ⟨.ofList (c :: cs), .start⟩)
        rw [pending, String.toList_ofList] at h
        rw [labelsLead_cons]
        refine h.trans ?_
        simp
      | some w =>
        constructor
        · rintro ⟨is, h⟩
          exact absurd h not_items_label
        · rintro ⟨h, -⟩
          exact absurd (h (Option.some_ne_none w)) not_hasNext_label

/-- A text with no number too long is read if and only if it is a concatenation of lexemes whose
labels lead. There is only one such concatenation, and what is read is one instruction for each of
its strings and words. -/
theorem read_eq_ok_iff_lexes {cs : List Char}
    (hfit : ∀ ls, Lexes ls cs → ∀ l ∈ ls, l.kind = .word → Fits l.text) :
    ((∃ is, read cs = .ok is) ↔ ∃ ls, Lexes ls cs ∧ LabelsLead ls) ∧
      (∀ ls ms, Lexes ls cs → Lexes ms cs → ls = ms) ∧
      ∀ ls, Lexes ls cs → ∀ is, read cs = .ok is ↔ Items (significant ls) is := by
  refine ⟨?_, fun ls ms hl hm => lexes_unique hl hm, ?_⟩
  · simp only [read_eq_ok_iff]
    have hitems {ls : List Lexeme} (hl : Lexes ls cs) :
        (∃ is, Items (significant ls) is) ↔ LabelsLead ls := by
      have h := exists_items_iff (wellFormed_of_lexes hl) (hfit ls hl) none
      exact h.trans (and_iff_right fun h => absurd rfl h)
    constructor
    · rintro ⟨is, ls, hl, his⟩
      exact ⟨ls, hl, (hitems hl).mp ⟨is, his⟩⟩
    · rintro ⟨ls, hl, hlead⟩
      obtain ⟨is, his⟩ := (hitems hl).mpr hlead
      exact ⟨is, ls, hl, his⟩
  · intro ls hl is
    rw [read_eq_ok_iff]
    constructor
    · rintro ⟨ms, hm, his⟩
      rw [lexes_unique hl hm]
      exact his
    · exact fun his => ⟨ls, hl, his⟩

/-- A labelled number in the digits of another script, a comment, and a string that touches the
name behind it. -/
theorem read_eq_ok_iff_lexes_of_labelledNumber :
    let cs := "#a -٣.5;c\n\"x\\\"\"2x".toList
    (∀ ls, Lexes ls cs → ∀ l ∈ ls, l.kind = .word → Fits l.text) ∧
      read cs = .ok [
        .pushNumber (.real (.finite true ⟨4615063718147915776, by decide⟩)) (.text "a"),
        .pushText "x\"" .null, .invoke "2x" .null] := by
  intro cs
  let ls : List Lexeme := [⟨.label, ['#', 'a']⟩, ⟨.blank, [' ']⟩, ⟨.word, ['-', '٣', '.', '5']⟩,
    ⟨.comment, [';', 'c']⟩, ⟨.blank, ['\n']⟩, ⟨.quoted, ['"', 'x', '\\', '"', '"']⟩,
    ⟨.word, ['2', 'x']⟩]
  have hl : Lexes ls cs := lexes_of_split (by decide +kernel)
  have hfit : ∀ ms, Lexes ms cs → ∀ l ∈ ms, l.kind = .word → Fits l.text := by
    intro ms hm l hmem _
    rw [← lexes_unique hl hm] at hmem
    have hlength : ∀ l ∈ ls, l.text.length ≤ Number.digitLimit := by decide
    exact fits_of_length (hlength l hmem)
  have hbody : Quoted.Quotable ['x', '\\', '"'] :=
    .char (by decide) (by decide) (.pair (by decide) .nil)
  refine ⟨hfit, ((read_eq_ok_iff_lexes hfit).2.2 ls hl _).mpr ?_⟩
  exact .labelled (.number (by decide) (by decide +kernel))
    (.bare (.text hbody) (.bare (.name (by decide)) .nil))

end Concise
end StackForest
