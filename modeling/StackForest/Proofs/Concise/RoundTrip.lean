import StackForest.Concise.Printer
import StackForest.Concise.Reader
import StackForest.Proofs.Concise.Lexeme
import StackForest.Proofs.Number

/-!
# Reading a written program back

Concise text holds every program whose names and labels are words and whose numbers are finite and
not too long (`read_write`).
-/

namespace StackForest

open Text

/-! ## What concise text can hold -/

def isName (s : String) : Bool :=
  !s.toList.isEmpty && s.toList.all Concise.isWordChar

theorem isName_iff {s : String} :
    isName s = true ↔ s.toList ≠ [] ∧ ∀ c ∈ s.toList, Concise.isWordChar c = true := by
  rw [isName, Bool.and_eq_true, List.all_eq_true, Bool.not_eq_true', Bool.eq_false_iff, Ne,
    List.isEmpty_iff]

def Value.isNameOrNull : Value → Bool
  | null => true
  | text s => isName s
  | _ => false

/-- The instructions that concise text can hold. A name that is a numeral would be read as a
number. -/
def Instruction.isWritable : Instruction → Bool
  | pushNumber n label => n.isWritable && label.isNameOrNull
  | pushText _ label => label.isNameOrNull
  | invoke name label => isName name && !Concise.isNumeral name.toList && label.isNameOrNull

theorem Instruction.isNameOrNull_label {i : Instruction} (h : i.isWritable = true) :
    i.label.isNameOrNull = true := by
  cases i with
  | pushNumber n label => exact (Bool.and_eq_true_iff.mp h).2
  | pushText s label => exact h
  | invoke name label => exact (Bool.and_eq_true_iff.mp h).2

namespace Concise

/-! ## Reading from a position on -/

def readFrom (position : Position) (waiting : Option Waiting) (cs : List Char) :
    Except Fault (List Instruction) :=
  assemble (Lexeme.split cs).2 position waiting (Lexeme.split cs).1

theorem isWordChar_space (r : List Char) : ∀ c ∈ (' ' :: r).head?, isWordChar c = false := by
  rw [List.head?_cons]
  rintro _ ⟨⟩
  decide

section
variable (position : Position) (waiting : Option Waiting) {r : List Char}

theorem readFrom_nil : readFrom position none [] = .ok [] := by
  rw [readFrom, Lexeme.split]
  rfl

theorem readFrom_lexeme {l : Lexeme} (hl : l.WellFormed)
    (hr : ∀ c ∈ r.head?, l.kind.continues c = false) :
    readFrom position waiting (l.text ++ r) =
      assemble (Lexeme.split r).2 position waiting (l :: (Lexeme.split r).1) := by
  rw [readFrom, Lexeme.split_append hl hr]

theorem readFrom_blank {c : Char} (hc : isBlank c = true) :
    readFrom position waiting (c :: r) = readFrom (position.step c) waiting r := by
  obtain ⟨run, r, rfl, hrun, hr⟩ := exists_run isBlank r
  have hrow : Lexeme.WellFormed ⟨.blank, c :: run⟩ := .blank (List.forall_mem_cons.mpr ⟨hc, hrun⟩)
  have hread : readFrom position waiting (c :: run ++ r) =
      readFrom (position.after (c :: run)) waiting r := readFrom_lexeme position waiting hrow hr
  cases run with
  | nil => exact hread
  | cons d run =>
    have hrest : readFrom (position.step c) waiting (d :: run ++ r) =
        readFrom ((position.step c).after (d :: run)) waiting r :=
      readFrom_lexeme (position.step c) waiting (.blank hrun) hr
    exact hread.trans hrest.symm

theorem readFrom_label {name : List Char} (hne : name ≠ [])
    (hname : ∀ c ∈ name, isWordChar c = true) (hr : ∀ c ∈ r.head?, isWordChar c = false) :
    readFrom position none ('#' :: name ++ r) =
      readFrom (position.after ('#' :: name)) (some ⟨.ofList name, position⟩) r := by
  obtain ⟨c, cs, rfl⟩ := List.exists_cons_of_ne_nil hne
  exact readFrom_lexeme position none (.label hname) hr

theorem readFrom_quotable {body : List Char} (h : Quoted.Quotable body) :
    readFrom position waiting ('"' :: (body ++ ['"']) ++ r) =
      (readFrom (position.after ('"' :: (body ++ ['"']))) none r).map
        (.pushText (.ofList (Quoted.unescape body)) (labelOf waiting) :: ·) := by
  rw [← Quoted.decode_quoted body]
  exact readFrom_lexeme position waiting (.quoted h) fun _ _ => rfl

theorem readFrom_quoted (cs : List Char) :
    readFrom position waiting (Quoted.encode cs ++ r) =
      (readFrom (position.after (Quoted.encode cs)) none r).map
        (.pushText (.ofList cs) (labelOf waiting) :: ·) := by
  have h := readFrom_quotable position waiting (r := r) (Quoted.quotable_flatMap_escape cs)
  rw [Quoted.unescape_flatMap_escape] at h
  exact h

theorem readFrom_word {word : List Char} (hne : word ≠ [])
    (hword : ∀ c ∈ word, isWordChar c = true) (hr : ∀ c ∈ r.head?, isWordChar c = false)
    {i : Instruction} (hi : ofWord word (labelOf waiting) = .ok i) :
    readFrom position waiting (word ++ r) =
      (readFrom (position.after word) none r).map (i :: ·) := by
  obtain ⟨c, cs, rfl⟩ := List.exists_cons_of_ne_nil hne
  rw [readFrom_lexeme position waiting (.word hword) hr]
  simp only [assemble, hi]
  rfl

theorem readFrom_writeLabel {label : Value} (h : label.isNameOrNull = true) (r : List Char) :
    ∃ waiting, labelOf waiting = label ∧
      readFrom position none (writeLabel label ++ r) =
        readFrom (position.after (writeLabel label)) waiting r := by
  cases label with
  | null => exact ⟨none, rfl, rfl⟩
  | text s =>
    obtain ⟨hne, hname⟩ := isName_iff.mp h
    have htext : writeLabel (.text s) = '#' :: s.toList ++ [' '] := rfl
    refine ⟨some ⟨.ofList s.toList, position⟩, by rw [labelOf, String.ofList_toList], ?_⟩
    rw [htext, List.append_assoc, Position.after_append, List.singleton_append,
      readFrom_label position hne hname (isWordChar_space r), readFrom_blank _ _ rfl]
    rfl
  | bool _ | number _ | list _ | dict _ => exact absurd h Bool.false_ne_true

end

/-! ## Reading an instruction -/

theorem readFrom_writeBody (position : Position) {waiting : Option Waiting} {i : Instruction}
    (hi : i.isWritable = true) (hlabel : labelOf waiting = i.label) {r : List Char}
    (hr : ∀ c ∈ r.head?, isWordChar c = false) :
    readFrom position waiting (writeBody i ++ r) =
      (readFrom (position.after (writeBody i)) none r).map (i :: ·) := by
  cases i with
  | pushNumber n label =>
    have hn : n.isWritable = true := (Bool.and_eq_true_iff.mp hi).1
    have hof : ofWord n.render (labelOf waiting) = .ok (.pushNumber n label) := by
      rw [ofWord, if_pos (Number.isNumeral_render hn), Number.read_render hn, hlabel]
      rfl
    exact readFrom_word position waiting (Number.render_ne_nil hn) (Number.isWordChar_render hn)
      hr hof
  | pushText s label =>
    have h := readFrom_quoted position waiting (r := r) s.toList
    rw [hlabel, String.ofList_toList] at h
    exact h
  | invoke name label =>
    obtain ⟨hword, -⟩ := Bool.and_eq_true_iff.mp hi
    obtain ⟨hname, hnumeral⟩ := Bool.and_eq_true_iff.mp hword
    rw [isName_iff] at hname
    have hof : ofWord name.toList (labelOf waiting) = .ok (.invoke name label) := by
      rw [ofWord, if_neg (by simpa using hnumeral), hlabel, String.ofList_toList]
      rfl
    exact readFrom_word position waiting hname.1 hname.2 hr hof

/-- The text `t` is read as the instruction `i`, whatever stands behind it that does not go on
with its last word. -/
def Reads (t : List Char) (i : Instruction) : Prop :=
  ∀ (position : Position) (r : List Char), (∀ c ∈ r.head?, isWordChar c = false) →
    readFrom position none (t ++ r) = (readFrom (position.after t) none r).map (i :: ·)

theorem reads_writeLabel {label : Value} (hlabel : label.isNameOrNull = true) {body : List Char}
    {i : Instruction}
    (hbody : ∀ (position : Position) (waiting : Option Waiting), labelOf waiting = label →
      ∀ r : List Char, (∀ c ∈ r.head?, isWordChar c = false) →
        readFrom position waiting (body ++ r) =
          (readFrom (position.after body) none r).map (i :: ·)) :
    Reads (writeLabel label ++ body) i := by
  intro position r hr
  obtain ⟨waiting, hwaiting, hread⟩ := readFrom_writeLabel position hlabel (body ++ r)
  rw [List.append_assoc, hread, hbody _ _ hwaiting r hr, Position.after_append]

theorem reads_writeInstruction {i : Instruction} (hi : i.isWritable = true) :
    Reads (writeInstruction i) i := by
  refine reads_writeLabel (Instruction.isNameOrNull_label hi) ?_
  intro position waiting hlabel r hr
  exact readFrom_writeBody position hi hlabel hr

/-! ## Reading a program -/

theorem readFrom_intersperse {ts : List (List Char)} {is : List Instruction}
    (h : List.Forall₂ Reads ts is) (position : Position) :
    readFrom position none (ts.intersperse [' ']).flatten = .ok is := by
  induction h generalizing position with
  | nil => exact readFrom_nil position
  | @cons t i ts is ht hts ih =>
    cases hts with
    | nil =>
      have hrow : ([t].intersperse [' ']).flatten = t := by simp
      have ht' := ht position [] (by simp)
      rw [List.append_nil, readFrom_nil] at ht'
      rw [hrow, ht']
      rfl
    | @cons u j ts is hu hts =>
      have hrow : ((t :: u :: ts).intersperse [' ']).flatten =
          t ++ ' ' :: ((u :: ts).intersperse [' ']).flatten := by simp
      rw [hrow, ht position _ (isWordChar_space _), readFrom_blank _ _ rfl, ih]
      rfl

theorem readFrom_write {is : List Instruction} (h : ∀ i ∈ is, i.isWritable = true)
    (position : Position) : readFrom position none (write is) = .ok is := by
  refine readFrom_intersperse ?_ position
  rw [List.forall₂_map_left_iff, List.forall₂_same]
  intro i hi
  exact reads_writeInstruction (h i hi)

/-- A program that concise text can hold is read back as it was written. -/
theorem read_write {is : List Instruction} (h : ∀ i ∈ is, i.isWritable = true) :
    read (write is) = .ok is :=
  readFrom_write h .start

/-- Numbers of both kinds, two of them zeros, a text of marks and names that only begin like
numbers, some behind labels. -/
theorem read_write_of_numberLike :
    let is : List Instruction :=
      [.pushNumber (.int (-12)) (.text "7"),
        .pushNumber (.real (.finite true ⟨0, by decide⟩)) .null,
        .pushNumber (.int 0) (.text "\x7b"),
        .pushNumber (.real (.finite false ⟨4609434218613702656, by decide⟩)) .null,
        .pushText "a \"b\"\\\n\t;#" (.text "1.5"), .invoke "2x" .null, .invoke "1.5.3" (.text "-")]
    (∀ i ∈ is, i.isWritable = true) ∧ read (write is) = .ok is :=
  ⟨by decide, read_write (by decide)⟩

end Concise
end StackForest
