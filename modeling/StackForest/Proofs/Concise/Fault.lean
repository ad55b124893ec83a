import StackForest.Proofs.Concise.Passage

/-!
# Where concise text fails

A fault is found at one offset of a text, and what stands in front of it is good
(`exists_shows_of_read_eq_error`).
-/

namespace StackForest

open Text

namespace Concise

/-! ## What stands at an offset -/

/-- A lexeme of a kind stands at the front of a text, which may go on as the same one. -/
def Begins (kind : Kind) (cs : List Char) : Prop :=
  ∃ l : Lexeme, l.WellFormed ∧ l.kind = kind ∧ l.text <+: cs

theorem wellFormed_append {l : Lexeme} (hl : l.WellFormed) {run : List Char}
    (hrun : ∀ c ∈ run, l.kind.continues c = true) :
    Lexeme.WellFormed ⟨l.kind, l.text ++ run⟩ := by
  cases hl with
  | blank h => exact .blank (List.forall_mem_append.mpr ⟨h, hrun⟩)
  | comment h => exact .comment (List.forall_mem_append.mpr ⟨h, hrun⟩)
  | label h => exact .label (List.forall_mem_append.mpr ⟨h, hrun⟩)
  | word h => exact .word (List.forall_mem_append.mpr ⟨h, hrun⟩)
  | quoted h =>
    cases run with
    | nil =>
      rw [List.append_nil]
      exact .quoted h
    | cons c run => exact absurd (hrun c (List.mem_cons_self ..)) Bool.false_ne_true

theorem begins_iff {kind : Kind} {cs : List Char} :
    Begins kind cs ↔ ∃ l ∈ (Lexeme.split cs).1.head?, l.kind = kind := by
  constructor
  · rintro ⟨l, hl, rfl, r, rfl⟩
    obtain ⟨run, r, rfl, hrun, hr⟩ := exists_run l.kind.continues r
    rw [← List.append_assoc, Lexeme.split_append (wellFormed_append hl hrun) hr]
    exact ⟨_, rfl, rfl⟩
  · rintro ⟨l, hhead, rfl⟩
    cases hsplit : Lexeme.split cs with
    | mk ls rest =>
      rw [hsplit] at hhead
      cases ls with
      | nil => cases hhead
      | cons m ls =>
        cases hhead
        obtain ⟨hl, r, rfl, -⟩ := exists_of_split_cons hsplit
        exact ⟨l, hl, rfl, List.prefix_append ..⟩

/-- The last lexeme of a text, blanks and comments aside, is a label at the offset `k`. -/
def LastLabel (cs : List Char) (k : Nat) : Prop :=
  ∃ front l back, Lexes (front ++ l :: back) cs ∧ (front.flatMap Lexeme.text).length = k ∧
    l.kind = .label ∧ ∀ m ∈ back, m.isSkipped = true

/-- A text ends in a label that no instruction follows. -/
def Pending (cs : List Char) : Prop := ∃ k, LastLabel cs k

inductive IsLastLabel : List Lexeme → List Char → Prop
  | mk {l ls} : l.kind = .label → (∀ m ∈ ls, m.isSkipped = true) → IsLastLabel (l :: ls) []

theorem lastLabel_iff {cs rest : List Char} {front back : List Lexeme}
    (h : Lexeme.split cs = (front ++ back, rest)) :
    LastLabel cs (front.flatMap Lexeme.text).length ↔ IsLastLabel back rest := by
  constructor
  · rintro ⟨front', l, back', hlexes, hlength, hl, hback⟩
    have hsplit := split_of_lexes hlexes
    obtain ⟨r, hr, -, hback'⟩ := exists_of_split_append hsplit
    obtain ⟨s, rfl, -, hs⟩ := exists_of_split_append h
    -- Both cuts are at one offset, so the lexemes behind them are the same.
    obtain ⟨-, rfl⟩ := List.append_inj hr hlength.symm
    cases hback'.symm.trans hs
    exact .mk hl hback
  · intro hlast
    cases hlast with
    | mk hl hls => exact ⟨front, _, _, lexes_of_split h, rfl, hl, hls⟩

/-! ## Labels that wait -/

section
variable {position : Position} {u v w : Option Waiting} {ls ms : List Lexeme}
  {is : List Instruction}

theorem exists_of_passes_append (h : Passes position u (ls ++ ms) is w) :
    ∃ v is js, Passes position u ls is v ∧
      Passes (position.after (ls.flatMap Lexeme.text)) v ms js w := by
  induction ls generalizing position u is with
  | nil => exact ⟨u, [], is, .nil, h⟩
  | cons l ls ih =>
    cases h with
    | cons ht h =>
      obtain ⟨v, js, ks, hls, hms⟩ := ih h
      rw [← Position.after_append] at hms
      exact ⟨v, _, ks, .cons ht hls, hms⟩

theorem isSkipped_of_stands {label : Value} {l : Lexeme} {i : Instruction} (h : Stands label l i) :
    l.isSkipped = false := by
  cases h <;> rfl

theorem eq_of_passes (h : Passes position u ls is w) (hls : ∀ l ∈ ls, l.isSkipped = true) :
    w = u := by
  induction h with
  | nil => rfl
  | cons ht _ ih =>
    rw [List.forall_mem_cons] at hls
    rw [ih hls.2]
    cases ht with
    | skip _ => rfl
    | label => cases hls.1
    | item hi =>
      rw [isSkipped_of_stands hi] at hls
      cases hls.1

theorem exists_of_passes_some (h : Passes position u ls is v) {w : Waiting} (hw : v = some w) :
    (u = some w ∧ ∀ l ∈ ls, l.isSkipped = true) ∨
      ∃ front t back js, ls = front ++ ⟨.label, t⟩ :: back ∧ Passes position u front js none ∧
        (∀ l ∈ back, l.isSkipped = true) ∧
        w.position = position.after (front.flatMap Lexeme.text) := by
  induction h with
  | nil => exact .inl ⟨hw, by simp⟩
  | cons ht _ ih =>
    rcases ih hw with ⟨rfl, hskip⟩ | ⟨front, t, back, js, rfl, hfront, hback, hw⟩
    · cases ht with
      | skip hl => exact .inl ⟨rfl, List.forall_mem_cons.mpr ⟨hl, hskip⟩⟩
      | label => exact .inr ⟨[], _, _, [], rfl, .nil, hskip, rfl⟩
    · rw [← Position.after_append] at hw
      exact .inr ⟨_, t, back, _, rfl, .cons ht hfront, hback, hw⟩

theorem pending_iff {cs : List Char} (hlexes : Lexes ls cs) (h : Passes position none ls is w) :
    Pending cs ↔ w.isSome := by
  constructor
  · rintro ⟨k, front, l, back, hcs, -, hl, hback⟩
    obtain rfl := lexes_unique hlexes hcs
    obtain ⟨v, js, ks, -, hlast⟩ := exists_of_passes_append h
    cases hlast with
    | cons ht hlast =>
      rw [eq_of_passes hlast hback]
      cases ht with
      | skip hskip => simp [Lexeme.isSkipped, hl] at hskip
      | label => rfl
      | item hi => cases hi <;> cases hl
  · intro hw
    obtain ⟨w, rfl⟩ := Option.isSome_iff_exists.mp hw
    rcases exists_of_passes_some h rfl with ⟨hnone, -⟩ | ⟨front, t, back, js, rfl, -, hback, -⟩
    · cases hnone
    · exact ⟨_, front, _, back, hlexes, rfl, rfl, hback⟩

end

/-! ## Causes -/

/-- The fault at a position, where `ls` are the lexemes from there on and `rest` begins none. -/
inductive Cause (position : Position) :
    Option Waiting → List Lexeme → List Char → Fault → Prop
  | character {w c r} : Cause position w [] (c :: r) (.unknownCharacter c position)
  | second {w t ls rest} : w.isSome →
    Cause position w (⟨.label, t⟩ :: ls) rest (.secondLabel t position)
  | last {ls rest} : IsLastLabel ls rest → Cause position none ls rest (.lastLabel position)

theorem exists_cause {ls : List Lexeme} {rest : List Char} {position : Position} {fault : Fault}
    (hls : ∀ l ∈ ls, l.WellFormed) (hfit : ∀ l ∈ ls, l.kind = .word → Fits l.text)
    (h : assemble rest position none ls = .error fault) :
    ∃ front back is w, ls = front ++ back ∧ Passes position none front is w ∧
      Cause (position.after (front.flatMap Lexeme.text)) w back rest fault := by
  obtain ⟨front, back, is, w, rfl, hfront, hback⟩ := exists_passes hls position none
  rw [assemble_of_passes hfront, map_eq_error_iff] at h
  cases hback with
  | done =>
    cases rest with
    | cons c r =>
      cases h
      exact ⟨front, [], is, w, rfl, hfront, .character⟩
    | nil =>
      cases w with
      | none => cases h
      | some w =>
        cases h
        rcases exists_of_passes_some hfront rfl with
          ⟨hnone, -⟩ | ⟨pre, t, post, js, rfl, hpre, hpost, hw⟩
        · cases hnone
        · rw [List.append_nil, hw]
          exact ⟨pre, _, js, none, rfl, hpre, .last (.mk rfl hpost)⟩
  | label hw =>
    obtain ⟨w, rfl⟩ := Option.isSome_iff_exists.mp hw
    cases h
    exact ⟨front, _, is, _, rfl, hfront, .second rfl⟩
  | @number t ls f hf =>
    -- Only a number that is too long fails as a word.
    have hmem : ⟨.word, t⟩ ∈ front ++ ⟨.word, t⟩ :: ls := by simp
    obtain ⟨i, hi⟩ := exists_stands (hls _ hmem) (hfit _ hmem) (.inr rfl) (labelOf w)
    rw [ofWord_eq_ok_iff.mpr hi] at hf
    cases hf

section
variable {position : Position} {w : Option Waiting} {ls : List Lexeme} {rest : List Char}
  {fault : Fault} (h : Cause position w ls rest fault)
include h

theorem position?_of_cause : fault.position? = some position := by
  cases h <;> rfl

theorem unknownCharacter_iff : (∃ c p, fault = .unknownCharacter c p) ↔ ls = [] := by
  cases h with
  | character => simp
  | second _ => simp
  | last hlast => cases hlast; simp

theorem secondLabel_iff : (∃ t p, fault = .secondLabel t p) ↔
    (∃ l ∈ ls.head?, l.kind = .label) ∧ w.isSome := by
  cases h with
  | character => simp
  | second hw => simp [hw]
  | last _ => simp

theorem lastLabel_iff_of_cause :
    (∃ p, fault = .lastLabel p) ↔ w.isSome = false ∧ IsLastLabel ls rest := by
  cases h with
  | @character _ c r =>
    have hlast : ¬IsLastLabel [] (c :: r) := by
      intro h
      cases h
    simp [hlast]
  | second hw => simp [hw]
  | last hlast => simp [hlast]

end

/-! ## The offset of a fault -/

theorem exists_read_of_passes {cs : List Char} {ls : List Lexeme} {is : List Instruction}
    {w : Option Waiting} (hlexes : Lexes ls cs) (h : Passes .start none ls is w) :
    (∃ is, read cs = .ok is) ∨ Pending cs ∧ ∃ is, read (cs ++ ['\n', '0']) = .ok is := by
  cases w with
  | none => exact .inl ⟨is, read_eq_ok_iff_passes.mpr ⟨ls, hlexes, h⟩⟩
  | some w =>
    have hzero : ofWord ['0'] (.text w.name) = .ok (.pushNumber (.int 0) (.text w.name)) := rfl
    have hread := readFrom_word ((Position.start.after cs).step '\n') (some w) (r := [])
      (List.cons_ne_nil '0' []) (List.forall_mem_singleton.mpr rfl) (by simp) hzero
    rw [readFrom_nil] at hread
    refine .inr ⟨(pending_iff hlexes h).mpr rfl, is ++ [.pushNumber (.int 0) (.text w.name)], ?_⟩
    refine (readFrom_of_passes hlexes h ['0']).trans ?_
    rw [← List.append_nil ['0'], hread]
    rfl

/-- A fault shows at the offset `k` of a text. A label at the end of what stands in front waits for
an instruction that may stand on a line of its own. -/
structure Shows (fault : Fault) (cs : List Char) (k : Nat) : Prop where
  lt_length : k < cs.length
  position : fault.position? = some (.behind (cs.take k))
  good : (∃ is, read (cs.take k) = .ok is) ∨
    Pending (cs.take k) ∧ ∃ is, read (cs.take k ++ ['\n', '0']) = .ok is
  character : (∃ c p, fault = .unknownCharacter c p) ↔ ∀ kind, ¬Begins kind (cs.drop k)
  second : (∃ t p, fault = .secondLabel t p) ↔ Begins .label (cs.drop k) ∧ Pending (cs.take k)
  last : (∃ p, fault = .lastLabel p) ↔ LastLabel cs k ∧ ¬Pending (cs.take k)

theorem shows_of_cause {cs rest : List Char} {front back : List Lexeme} {is : List Instruction}
    {w : Option Waiting} {fault : Fault} (hsplit : Lexeme.split cs = (front ++ back, rest))
    (hfront : Passes .start none front is w)
    (h : Cause (Position.start.after (front.flatMap Lexeme.text)) w back rest fault) :
    Shows fault cs (front.flatMap Lexeme.text).length := by
  have hlast := lastLabel_iff hsplit
  obtain ⟨r, hcs, hlexes, hr⟩ := exists_of_split_append hsplit
  have htake : cs.take (front.flatMap Lexeme.text).length = front.flatMap Lexeme.text := by
    rw [hcs, List.take_left]
  have hdrop : cs.drop (front.flatMap Lexeme.text).length = r := by
    rw [hcs, List.drop_left]
  have hpending := pending_iff hlexes hfront
  constructor
  · rw [hcs, List.length_append]
    refine Nat.lt_add_of_pos_right (List.length_pos_iff.mpr ?_)
    rintro rfl
    rw [Lexeme.split] at hr
    cases hr
    cases h
    next hlast => cases hlast
  · rw [htake, position?_of_cause h, Position.after_start]
  · rw [htake]
    exact exists_read_of_passes hlexes hfront
  · rw [unknownCharacter_iff h, hdrop]
    simp only [begins_iff, hr]
    cases back <;> simp
  · rw [secondLabel_iff h, hdrop, htake, hpending, begins_iff, hr]
  · rw [lastLabel_iff_of_cause h, htake, hpending, hlast, Bool.not_eq_true, and_comm]

/-- **Faults.** In a text with no number too long, a fault shows at the only offset that has its
position. -/
theorem exists_shows_of_read_eq_error {cs : List Char} {fault : Fault}
    (hfit : ∀ l ∈ (Lexeme.split cs).1, l.kind = .word → Fits l.text)
    (h : read cs = .error fault) : ∃ k, Shows fault cs k ∧
      ∀ j ≤ cs.length, fault.position? = some (.behind (cs.take j)) → j = k := by
  cases hsplit : Lexeme.split cs with
  | mk ls rest =>
    rw [hsplit] at hfit
    rw [read_of_split hsplit] at h
    obtain ⟨front, back, is, w, rfl, hfront, hcause⟩ :=
      exists_cause (wellFormed_of_split hsplit) hfit h
    have hshows := shows_of_cause hsplit hfront hcause
    refine ⟨_, hshows, fun j hj hposition => ?_⟩
    rw [hshows.position, Option.some.injEq, ← Position.after_start, ← Position.after_start]
      at hposition
    exact Position.after_take_injective .start hj hshows.lt_length.le hposition.symm

theorem exists_shows_of_read_eq_error_of_lines :
    let cs := "-7\"a\n\"; b\n\r#c ;d\n #e".toList
    let fault : Fault := .secondLabel "#e".toList ⟨4, 2⟩
    (∀ l ∈ (Lexeme.split cs).1, l.kind = .word → Fits l.text) ∧ read cs = .error fault ∧
      Shows fault cs 18 := by
  intro cs fault
  have hsplit : Lexeme.split cs = ([⟨.word, ['-', '7']⟩, ⟨.quoted, ['"', 'a', '\n', '"']⟩,
      ⟨.comment, [';', ' ', 'b']⟩, ⟨.blank, ['\n', '\r']⟩, ⟨.label, ['#', 'c']⟩, ⟨.blank, [' ']⟩,
      ⟨.comment, [';', 'd']⟩, ⟨.blank, ['\n', ' ']⟩, ⟨.label, ['#', 'e']⟩], []) := by
    decide +kernel
  have hfit : ∀ l ∈ (Lexeme.split cs).1, l.kind = .word → Fits l.text := by
    have hlength : ∀ l ∈ (Lexeme.split cs).1, l.text.length ≤ Number.digitLimit := by
      rw [hsplit]
      decide
    exact fun l hl _ => fits_of_length (hlength l hl)
  have hread : read cs = .error fault := by
    rw [read_of_split hsplit]
    rfl
  obtain ⟨k, hk, honly⟩ := exists_shows_of_read_eq_error hfit hread
  rw [← honly 18 (by decide) (by decide)] at hk
  exact ⟨hfit, hread, hk⟩

/-- A label may be the last lexeme and still be the second one in a row, which is the fault then. -/
theorem not_lastLabel_of_second :
    let cs := "#a #b".toList
    let fault : Fault := .secondLabel "#b".toList ⟨1, 4⟩
    (∀ l ∈ (Lexeme.split cs).1, l.kind = .word → Fits l.text) ∧ read cs = .error fault ∧
      fault.position? = some (.behind (cs.take 3)) ∧
      ¬((∃ p, fault = .lastLabel p) ↔ LastLabel cs 3) := by
  intro cs fault
  let front : List Lexeme := [⟨.label, ['#', 'a']⟩, ⟨.blank, [' ']⟩]
  have hsplit : Lexeme.split cs = (front ++ [⟨.label, ['#', 'b']⟩], []) := by decide +kernel
  have hread : read cs = .error fault := by
    rw [read_of_split hsplit]
    rfl
  refine ⟨by simp [hsplit, front], hread, by decide, fun h => ?_⟩
  have hlast : LastLabel cs 3 := ⟨front, _, [], lexes_of_split hsplit, rfl, rfl, by simp⟩
  obtain ⟨p, hp⟩ := h.mpr hlast
  simp [fault] at hp

end Concise
end StackForest
