import StackForest.Proofs.Concise.Grammar
import StackForest.Proofs.Concise.RoundTrip
import StackForest.Proofs.Text.Position

/-!
# Concise text in a row

What a lexeme does depends on its place and on the label that waits, not on what stands behind it.
So a text that is read can stand on the lines above any other one (`read_append_lineFeed`).
-/

namespace StackForest

open Text

namespace Concise

/-! ## What lexemes do -/

/-- What a lexeme at a position does: from the label that waits in front of it to the one that waits
behind it, with the instructions that it completes. -/
inductive Turn (position : Position) :
    Option Waiting → Lexeme → List Instruction → Option Waiting → Prop
  | skip {w l} : l.isSkipped = true → Turn position w l [] w
  | label {t} : Turn position none ⟨.label, t⟩ [] (some ⟨.ofList (t.drop 1), position⟩)
  | item {w l i} : Stands (labelOf w) l i → Turn position w l [i] none

/-- What a row of lexemes does, one behind the other. -/
inductive Passes : Position → Option Waiting → List Lexeme → List Instruction →
    Option Waiting → Prop
  | nil {position w} : Passes position w [] [] w
  | cons {position u v w l ls is js} : Turn position u l is v →
    Passes (position.after l.text) v ls js w → Passes position u (l :: ls) (is ++ js) w

section
variable {position : Position} {u v w : Option Waiting} {l : Lexeme} {ls : List Lexeme}
  {is : List Instruction}

theorem assemble_of_turn (h : Turn position u l is v) (rest : List Char) (ls : List Lexeme) :
    assemble rest position u (l :: ls) =
      (assemble rest (position.after l.text) v ls).map (is ++ ·) := by
  cases h with
  | skip hl =>
    obtain ⟨kind, t⟩ := l
    rw [map_nil_append]
    cases kind with
    | blank | comment => rfl
    | quoted | label | word => cases hl
  | label =>
    rw [map_nil_append]
    rfl
  | item hi =>
    cases hi with
    | text hbody =>
      simp only [assemble, Quoted.decode_quoted]
      rfl
    | number hw hn =>
      simp only [assemble, ofWord_eq_ok_iff.mpr (.number hw hn)]
      rfl
    | name hw =>
      simp only [assemble, ofWord_eq_ok_iff.mpr (.name hw)]
      rfl

theorem assemble_of_passes (h : Passes position u ls is w) (rest : List Char)
    (ms : List Lexeme) : assemble rest position u (ls ++ ms) =
      (assemble rest (position.after (ls.flatMap Lexeme.text)) w ms).map (is ++ ·) := by
  induction h with
  | nil => exact (map_nil_append _).symm
  | cons ht _ ih =>
    rw [List.cons_append, assemble_of_turn ht, ih, map_append_append, List.flatMap_cons,
      Position.after_append]

/-! ## Where lexemes stop -/

/-- Behind `w` no lexeme is left, or the first one has nothing to do. -/
inductive Stuck (w : Option Waiting) : List Lexeme → Prop
  | done : Stuck w []
  | label {t ls} : w.isSome → Stuck w (⟨.label, t⟩ :: ls)
  | number {t ls fault} : ofWord t (labelOf w) = .error fault → Stuck w (⟨.word, t⟩ :: ls)

theorem exists_turn (hl : l.WellFormed) (position : Position) (u : Option Waiting)
    (ls : List Lexeme) : (∃ is v, Turn position u l is v) ∨ Stuck u (l :: ls) := by
  cases hl with
  | blank _ | comment _ => exact .inl ⟨_, _, .skip rfl⟩
  | quoted hbody => exact .inl ⟨_, _, .item (.text hbody)⟩
  | label _ =>
    cases u with
    | none => exact .inl ⟨_, _, .label⟩
    | some w => exact .inr (.label rfl)
  | @word c cs _ =>
    cases hi : ofWord (c :: cs) (labelOf u) with
    | ok i => exact .inl ⟨_, _, .item (ofWord_eq_ok_iff.mp hi)⟩
    | error fault => exact .inr (.number hi)

theorem exists_passes (hls : ∀ l ∈ ls, l.WellFormed) (position : Position)
    (u : Option Waiting) : ∃ front back is w, ls = front ++ back ∧
      Passes position u front is w ∧ Stuck w back := by
  induction ls generalizing position u with
  | nil => exact ⟨[], [], [], u, rfl, .nil, .done⟩
  | cons l ls ih =>
    rw [List.forall_mem_cons] at hls
    rcases exists_turn hls.1 position u ls with ⟨is, v, ht⟩ | hstuck
    · obtain ⟨front, back, js, w, rfl, hfront, hback⟩ := ih hls.2 (position.after l.text) v
      exact ⟨l :: front, back, is ++ js, w, rfl, .cons ht hfront, hback⟩
    · exact ⟨[], l :: ls, [], u, rfl, .nil, hstuck⟩

theorem eq_nil_of_stuck (hback : Stuck w ls)
    (h : assemble [] position w ls = .ok is) : ls = [] ∧ w = none ∧ is = [] := by
  cases hback with
  | done =>
    cases w with
    | none =>
      cases h
      exact ⟨rfl, rfl, rfl⟩
    | some w => cases h
  | label hw =>
    obtain ⟨w, rfl⟩ := Option.isSome_iff_exists.mp hw
    cases h
  | number hf =>
    simp only [assemble, hf] at h
    cases h

theorem assemble_eq_ok_iff_passes (hls : ∀ l ∈ ls, l.WellFormed) :
    assemble [] position u ls = .ok is ↔ Passes position u ls is none := by
  constructor
  · intro h
    obtain ⟨front, back, js, w, rfl, hfront, hback⟩ := exists_passes hls position u
    rw [assemble_of_passes hfront] at h
    obtain ⟨ks, hks, rfl⟩ := map_eq_ok_iff.mp h
    obtain ⟨rfl, rfl, rfl⟩ := eq_nil_of_stuck hback hks
    rw [List.append_nil front, List.append_nil js]
    exact hfront
  · intro h
    have hread := assemble_of_passes h [] []
    rw [List.append_nil] at hread
    rw [hread]
    exact congrArg Except.ok (List.append_nil is)

theorem read_eq_ok_iff_passes {cs : List Char} :
    read cs = .ok is ↔ ∃ ls, Lexes ls cs ∧ Passes .start none ls is none := by
  rw [read_eq_ok_iff_assemble]
  refine exists_congr fun ls => and_congr_right fun hlexes => ?_
  exact assemble_eq_ok_iff_passes (wellFormed_of_lexes hlexes)

/-! ## In front of a line feed -/

theorem readFrom_blanks {cs : List Char} (h : ∀ c ∈ cs, isBlank c = true) (position : Position)
    (u : Option Waiting) (r : List Char) :
    readFrom position u (cs ++ r) = readFrom (position.after cs) u r := by
  induction cs generalizing position with
  | nil => rfl
  | cons c cs ih =>
    rw [List.forall_mem_cons] at h
    rw [List.cons_append, readFrom_blank position u h.1, ih h.2, Position.after_cons]

theorem readFrom_of_turn (hl : l.WellFormed) (h : Turn position u l is v) {r : List Char}
    (hr : l.kind ≠ .blank → ∀ c ∈ r.head?, l.kind.continues c = false) :
    readFrom position u (l.text ++ r) =
      (readFrom (position.after l.text) v r).map (is ++ ·) := by
  by_cases hblank : l.kind = .blank
  · cases hl with
    | blank hcs =>
      cases h with
      | skip _ => rw [map_nil_append, readFrom_blanks hcs]
      | item hi => cases hi
    | comment _ | quoted _ | label _ | word _ => cases hblank
  · rw [readFrom_lexeme position u hl (hr hblank), assemble_of_turn h]
    rfl

theorem continues_lineFeed {kind : Kind} (h : kind ≠ .blank) : kind.continues '\n' = false := by
  cases kind with
  | blank => exact absurd rfl h
  | comment | quoted | label | word => decide

theorem readFrom_of_passes {cs : List Char} (hcs : Lexes ls cs) (h : Passes position u ls is w)
    (r : List Char) : readFrom position u (cs ++ '\n' :: r) =
      (readFrom ((position.after cs).step '\n') w r).map (is ++ ·) := by
  induction h generalizing cs with
  | nil =>
    cases hcs
    rw [map_nil_append]
    exact readFrom_blank _ _ rfl
  | @cons _ _ _ _ l _ _ _ ht _ ih =>
    cases hcs with
    | @cons _ _ cs hl hnext hrest =>
      have hstop (hblank : l.kind ≠ .blank) :
          ∀ c ∈ (cs ++ '\n' :: r).head?, l.kind.continues c = false := by
        cases cs with
        | nil =>
          rintro c ⟨⟩
          exact continues_lineFeed hblank
        | cons c cs => exact hnext
      rw [List.append_assoc, readFrom_of_turn hl ht hstop, ih hrest, map_append_append,
        Position.after_append]

end

/-! ## Further down -/

def Waiting.lower (n : Nat) (w : Waiting) : Waiting := ⟨w.name, w.position.lower n⟩

namespace Fault

/-- The same fault `n` lines below. -/
def lower (n : Nat) : Fault → Fault
  | unknownCharacter c p => unknownCharacter c (p.lower n)
  | secondLabel t p => secondLabel t (p.lower n)
  | lastLabel p => lastLabel (p.lower n)
  | number f => number f

end Fault

section
variable (n : Nat) (rest : List Char) (position : Position)

theorem labelOf_lower (u : Option Waiting) : labelOf (u.map (·.lower n)) = labelOf u := by
  cases u <;> rfl

theorem endFault?_lower (u : Option Waiting) :
    endFault? rest (position.lower n) (u.map (·.lower n)) =
      (endFault? rest position u).map (·.lower n) := by
  cases rest <;> cases u <;> rfl

theorem numberFault_lower (fault : Number.Fault) (ls : List Lexeme) :
    numberFault fault ls rest (position.lower n) =
      (numberFault fault ls rest position).lower n := by
  cases rest with
  | nil => rfl
  | cons c rest =>
    simp only [numberFault, Position.after_lower]
    split <;> rfl

theorem assemble_lower (u : Option Waiting) (ls : List Lexeme) :
    assemble rest (position.lower n) (u.map (·.lower n)) ls =
      (assemble rest position u ls).mapError (·.lower n) := by
  induction ls generalizing position u with
  | nil =>
    rw [assemble, assemble, endFault?_lower]
    cases endFault? rest position u <;> rfl
  | cons l ls ih =>
    obtain ⟨kind, t⟩ := l
    have hnone := ih (position.after t) none
    rw [Option.map_none] at hnone
    cases kind with
    | blank | comment => simp only [assemble, Position.after_lower, ih]
    | label =>
      cases u with
      | none =>
        have h := ih (position.after t) (some ⟨.ofList (t.drop 1), position⟩)
        rw [← Position.after_lower] at h
        exact h
      | some w => rfl
    | quoted =>
      simp only [assemble, Position.after_lower, hnone, labelOf_lower, mapError_map]
    | word =>
      simp only [assemble, Position.after_lower, hnone, labelOf_lower, numberFault_lower]
      split
      · rw [mapError_map]
      · rfl

end

/-- **Lines.** A text that is read, on the lines above another one, puts its instructions in front
of the other one's, and lowers the other one's fault by the lines that it takes. -/
theorem read_append_lineFeed {a : List Char} {p : List Instruction} (h : read a = .ok p)
    (b : List Char) : read (a ++ '\n' :: b) =
      match read b with
      | .ok q => .ok (p ++ q)
      | .error fault => .error (fault.lower (a.count '\n' + 1)) := by
  obtain ⟨ls, hlexes, hpasses⟩ := read_eq_ok_iff_passes.mp h
  have hread : read (a ++ '\n' :: b) =
      ((read b).mapError (·.lower (a.count '\n' + 1))).map (p ++ ·) := by
    change readFrom .start none (a ++ '\n' :: b) = _
    rw [readFrom_of_passes hlexes hpasses, Position.after_start_lineFeed]
    exact congrArg (Except.map (p ++ ·)) (assemble_lower _ _ .start none _)
  rw [hread]
  cases read b <;> rfl

theorem read_append_lineFeed_of_comment :
    let a := "#a \"x\ny\" ;\"".toList
    let b := "-2x".toList
    let c := "2 \n#b #c".toList
    read a = .ok [.pushText "x\ny" (.text "a")] ∧
      read (a ++ '\n' :: b) = .ok [.pushText "x\ny" (.text "a"), .invoke "-2x" .null] ∧
      read c = .error (.secondLabel "#c".toList ⟨2, 4⟩) ∧
      read (a ++ '\n' :: c) = .error (.secondLabel "#c".toList ⟨4, 4⟩) := by
  intro a b c
  have hsplit : Lexeme.split a = ([⟨.label, ['#', 'a']⟩, ⟨.blank, [' ']⟩,
      ⟨.quoted, ['"', 'x', '\n', 'y', '"']⟩, ⟨.blank, [' ']⟩, ⟨.comment, [';', '"']⟩], []) := by
    decide +kernel
  have ha : read a = .ok [.pushText "x\ny" (.text "a")] := by
    rw [read_of_split hsplit]
    rfl
  have hsplit : Lexeme.split b = ([⟨.word, ['-', '2', 'x']⟩], []) := by decide +kernel
  have hb : read b = .ok [.invoke "-2x" .null] := by
    rw [read_of_split hsplit]
    rfl
  have hsplit : Lexeme.split c = ([⟨.word, ['2']⟩, ⟨.blank, [' ', '\n']⟩, ⟨.label, ['#', 'b']⟩,
      ⟨.blank, [' ']⟩, ⟨.label, ['#', 'c']⟩], []) := by
    decide +kernel
  have hc : read c = .error (.secondLabel "#c".toList ⟨2, 4⟩) := by
    rw [read_of_split hsplit]
    rfl
  refine ⟨ha, ?_, hc, ?_⟩
  · rw [read_append_lineFeed ha, hb]
    rfl
  · rw [read_append_lineFeed ha, hc]
    rfl

end Concise
end StackForest
