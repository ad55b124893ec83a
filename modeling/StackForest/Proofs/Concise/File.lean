import StackForest.Proofs.Concise.RoundTrip
import StackForest.Proofs.Files

/-!
# Concise text in a file

The line ends of a file are made one kind when it is read, and a quoted text holds a carriage
return as it is (`loadConcise_eq_iff`). A line feed of a text is written as a pair and never makes
one line end with a carriage return in front of it.
-/

namespace StackForest

open Text Concise

/-! ## Line feeds for carriage returns -/

namespace Text

def toLineFeed (c : Char) : Char := if c = '\r' then '\n' else c

theorem map_toLineFeed_eq_self_iff {cs : List Char} : cs.map toLineFeed = cs ↔ '\r' ∉ cs := by
  induction cs with
  | nil => simp
  | cons c cs ih =>
    rw [List.map_cons, List.cons.injEq, ih, List.mem_cons, not_or]
    refine and_congr_left fun _ => ?_
    unfold toLineFeed
    split
    · next hc => simp [hc]
    · next hc => simp [Ne.symm hc]

theorem unifyNewlines_of_lineFeed_not_mem {cs : List Char} (h : '\n' ∉ cs) :
    unifyNewlines cs = cs.map toLineFeed := by
  induction cs with
  | nil => rfl
  | cons c cs ih =>
    rw [List.mem_cons, not_or] at h
    rw [unifyNewlines, ih h.2, List.map_cons]
    · rfl
    · intro r _ hcs
      rw [hcs] at h
      exact h.2 (List.mem_cons_self ..)

namespace Quoted

theorem of_mem_escape {x c : Char} (h : x ∈ escape c) (hx : x ∉ ['\\', '"', 'n', 't']) :
    x = c ∧ c ≠ '\n' := by
  simp only [List.mem_cons, not_or] at hx
  unfold escape at h
  split at h
  · simp [hx] at h
  split at h
  · simp [hx] at h
  split at h
  · simp [hx] at h
  split at h
  · simp [hx] at h
  · next hn _ => exact ⟨List.mem_singleton.mp h, hn⟩

theorem lineFeed_not_mem_encode (cs : List Char) : '\n' ∉ encode cs := by
  intro h
  simp only [encode, List.cons_append, List.mem_cons, List.mem_append, List.mem_flatMap] at h
  rcases h with h | ⟨c, -, h⟩ | h
  · cases h
  · obtain ⟨hc, hn⟩ := of_mem_escape h (by decide)
    exact hn hc.symm
  · simp at h

theorem map_escape (c : Char) :
    (escape c).map toLineFeed = if c = '\r' then ['\n'] else escape c := by
  split
  · next hc => rw [hc]; rfl
  · next hc =>
    rw [map_toLineFeed_eq_self_iff]
    intro h
    exact hc (of_mem_escape h (by decide)).1.symm

theorem quotable_map_escape (cs : List Char) : Quotable ((cs.flatMap escape).map toLineFeed) := by
  induction cs with
  | nil => exact .nil
  | cons c cs ih =>
    rw [List.flatMap_cons, List.map_append, map_escape]
    split
    · exact .char (by decide) (by decide) ih
    · exact quotable_escape c ih

theorem unescape_map_escape (cs : List Char) :
    unescape ((cs.flatMap escape).map toLineFeed) = cs.map toLineFeed := by
  induction cs with
  | nil => rfl
  | cons c cs ih =>
    rw [List.flatMap_cons, List.map_append, map_escape, List.map_cons, ← ih]
    split
    · next hc => rw [hc]; rfl
    · next hc => rw [unescape_escape, toLineFeed, if_neg hc]

end Quoted
end Text

/-- An instruction as it comes back from a file. -/
def Instruction.withLineFeeds : Instruction → Instruction
  | pushText s label => pushText (.ofList (s.toList.map toLineFeed)) label
  | i => i

theorem withLineFeeds_eq_self_iff {i : Instruction} :
    i.withLineFeeds = i ↔ ∀ s label, i = .pushText s label → '\r' ∉ s.toList := by
  cases i with
  | pushNumber n label => simp [Instruction.withLineFeeds]
  | invoke name label => simp [Instruction.withLineFeeds]
  | pushText s label =>
    have hs : String.ofList (s.toList.map toLineFeed) = s ↔ '\r' ∉ s.toList := by
      rw [← map_toLineFeed_eq_self_iff, ← String.toList_inj, String.toList_ofList]
    simp [Instruction.withLineFeeds, hs]

namespace Concise

/-! ## Written texts -/

def isLineEnd (c : Char) : Bool := c == '\r' || c == '\n'

theorem isLineEnd_of_isWordChar {c : Char} (h : isWordChar c = true) : isLineEnd c = false := by
  cases hc : isLineEnd c with
  | false => rfl
  | true =>
    simp only [isLineEnd, Bool.or_eq_true, beq_iff_eq] at hc
    rcases hc with rfl | rfl <;> exact absurd h (by decide)

theorem isLineEnd_writeLabel {label : Value} (h : label.isNameOrNull = true) :
    ∀ c ∈ writeLabel label, isLineEnd c = false := by
  cases label with
  | null => simp [writeLabel]
  | text s =>
    have hname := (isName_iff.mp h).2
    have htext : writeLabel (.text s) = '#' :: s.toList ++ [' '] := rfl
    simp only [htext, List.cons_append, List.forall_mem_cons, List.forall_mem_append]
    exact ⟨by decide, fun c hc => isLineEnd_of_isWordChar (hname c hc), by decide, by simp⟩
  | bool _ | number _ | list _ | dict _ => exact absurd h Bool.false_ne_true

theorem isLineEnd_writeBody {i : Instruction} (hi : i.isWritable = true)
    (htext : ∀ s label, i ≠ .pushText s label) : ∀ c ∈ writeBody i, isLineEnd c = false := by
  intro c hc
  cases i with
  | pushText s label => exact absurd rfl (htext s label)
  | pushNumber n label =>
    have hn : n.isWritable = true := (Bool.and_eq_true_iff.mp hi).1
    exact isLineEnd_of_isWordChar (Number.isWordChar_render hn c hc)
  | invoke name label =>
    have hname := (Bool.and_eq_true_iff.mp (Bool.and_eq_true_iff.mp hi).1).1
    exact isLineEnd_of_isWordChar ((isName_iff.mp hname).2 c hc)

theorem not_mem_of_isLineEnd {cs : List Char} (h : ∀ c ∈ cs, isLineEnd c = false) {x : Char}
    (hx : isLineEnd x = true) : x ∉ cs := by
  intro hmem
  rw [h x hmem] at hx
  cases hx

theorem isLineEnd_writeInstruction {i : Instruction} (hi : i.isWritable = true)
    (htext : ∀ s label, i ≠ .pushText s label) : ∀ c ∈ writeInstruction i, isLineEnd c = false := by
  intro c hc
  rcases List.mem_append.mp hc with hc | hc
  · exact isLineEnd_writeLabel (Instruction.isNameOrNull_label hi) c hc
  · exact isLineEnd_writeBody hi htext c hc

theorem lineFeed_not_mem_writeInstruction {i : Instruction} (hi : i.isWritable = true) :
    '\n' ∉ writeInstruction i := by
  cases i with
  | pushText s label =>
    have hlabel := isLineEnd_writeLabel (Instruction.isNameOrNull_label hi)
    rw [writeInstruction, List.mem_append, not_or]
    exact ⟨not_mem_of_isLineEnd hlabel rfl, Quoted.lineFeed_not_mem_encode s.toList⟩
  | pushNumber n label | invoke name label =>
    refine not_mem_of_isLineEnd (isLineEnd_writeInstruction hi ?_) rfl
    intro s l h
    cases h

theorem mem_of_mem_intersperse {α : Type*} {x sep : α} : ∀ {xs : List α},
    x ∈ xs.intersperse sep → x ∈ xs ∨ x = sep
  | [], h => .inl h
  | [_], h => .inl h
  | y :: z :: xs, h => by
    rw [List.intersperse_cons_cons, List.mem_cons, List.mem_cons] at h
    rcases h with rfl | rfl | h
    · exact .inl (List.mem_cons_self ..)
    · exact .inr rfl
    · exact (mem_of_mem_intersperse h).imp_left (List.mem_cons_of_mem y)

theorem map_intersperse {α β : Type*} (f : α → β) (sep : α) : ∀ xs : List α,
    (xs.intersperse sep).map f = (xs.map f).intersperse (f sep)
  | [] => rfl
  | [_] => rfl
  | x :: y :: xs => by
    rw [List.intersperse_cons_cons, List.map_cons, List.map_cons, map_intersperse f sep (y :: xs)]
    rfl

theorem lineFeed_not_mem_write {is : List Instruction} (h : ∀ i ∈ is, i.isWritable = true) :
    '\n' ∉ write is := by
  intro hmem
  obtain ⟨t, ht, hmem⟩ := List.mem_flatten.mp hmem
  rcases mem_of_mem_intersperse ht with ht | rfl
  · obtain ⟨i, hi, rfl⟩ := List.mem_map.mp ht
    exact lineFeed_not_mem_writeInstruction (h i hi) hmem
  · exact absurd hmem (by decide)

/-! ## Reading from a file -/

theorem reads_map_writeInstruction {i : Instruction} (hi : i.isWritable = true) :
    Reads ((writeInstruction i).map toLineFeed) i.withLineFeeds := by
  cases i with
  | pushText s label =>
    have hlabel : label.isNameOrNull = true := hi
    have hreturn := not_mem_of_isLineEnd (isLineEnd_writeLabel hlabel) (x := '\r') rfl
    have hbody : (Quoted.encode s.toList).map toLineFeed =
        '"' :: ((s.toList.flatMap Quoted.escape).map toLineFeed ++ ['"']) := by
      simp [Quoted.encode, toLineFeed]
    rw [writeInstruction, List.map_append, Instruction.label,
      map_toLineFeed_eq_self_iff.mpr hreturn, writeBody, hbody]
    refine reads_writeLabel hlabel ?_
    intro position waiting hwaiting r _
    rw [readFrom_quotable position waiting (Quoted.quotable_map_escape _),
      Quoted.unescape_map_escape, hwaiting]
    rfl
  | pushNumber n label | invoke name label =>
    have hlines := isLineEnd_writeInstruction hi (by intro s l h; cases h)
    rw [map_toLineFeed_eq_self_iff.mpr (not_mem_of_isLineEnd hlines rfl)]
    exact reads_writeInstruction hi

theorem read_unifyNewlines_write {is : List Instruction} (h : ∀ i ∈ is, i.isWritable = true) :
    read (unifyNewlines (write is)) = .ok (is.map Instruction.withLineFeeds) := by
  have hlines : unifyNewlines (write is) =
      (((is.map writeInstruction).map (·.map toLineFeed)).intersperse [' ']).flatten := by
    rw [unifyNewlines_of_lineFeed_not_mem (lineFeed_not_mem_write h), write, List.map_flatten,
      map_intersperse]
    rfl
  rw [hlines]
  refine readFrom_intersperse ?_ .start
  rw [List.map_map, List.forall₂_map_left_iff, List.forall₂_map_right_iff, List.forall₂_same]
  intro i hi
  exact reads_map_writeInstruction (h i hi)

end Concise

namespace Files

section
variable {t t' : Files} {path : String} {is : List Instruction}
  (h : ∀ i ∈ is, i.isWritable = true)
  (hwrite : t.write path (Utf8.encode (Concise.write is)) = .ok t')
include h hwrite

theorem loadConcise_of_write : t'.loadConcise path = .ok (is.map Instruction.withLineFeeds) := by
  simp only [loadConcise, readText_of_write hwrite, bind, Except.bind, read_unifyNewlines_write h,
    mapError_ok]

/-- **Concise text in a file.** A program that is written to a file comes back with line feeds for
the carriage returns of its texts, so it comes back as it was exactly if no text holds one. -/
theorem loadConcise_eq_iff : t'.loadConcise path = .ok (is.map Instruction.withLineFeeds) ∧
    (t'.loadConcise path = .ok is ↔ ∀ s label, .pushText s label ∈ is → '\r' ∉ s.toList) := by
  have hload := loadConcise_of_write h hwrite
  have hself := List.map_inj_left (l := is) (f := Instruction.withLineFeeds) (g := id)
  rw [List.map_id] at hself
  refine ⟨hload, ?_⟩
  rw [hload, Except.ok.injEq, hself]
  constructor
  · intro hall s label hmem
    exact withLineFeeds_eq_self_iff.mp (hall _ hmem) s label rfl
  · intro hall i hi
    refine withLineFeeds_eq_self_iff.mpr fun s label hs => hall s label ?_
    rw [← hs]
    exact hi

end

theorem loadConcise_ne_of_carriageReturn :
    let is : List Instruction := [.pushText "a\rb" .null]
    let t' := Files.empty.put ["work", "p.tzoct"] (.file (Utf8.encode (Concise.write is)))
    (∀ i ∈ is, i.isWritable = true) ∧
      Files.empty.write "p.tzoct" (Utf8.encode (Concise.write is)) = .ok t' ∧
      t'.loadConcise "p.tzoct" = .ok [.pushText "a\nb" .null] ∧
      t'.loadConcise "p.tzoct" ≠ .ok is := by
  intro is t'
  have his : ∀ i ∈ is, i.isWritable = true := by decide
  have hwrite : Files.empty.write "p.tzoct" (Utf8.encode (Concise.write is)) = .ok t' := rfl
  have hload : t'.loadConcise "p.tzoct" = .ok [.pushText "a\nb" .null] :=
    loadConcise_of_write his hwrite
  refine ⟨his, hwrite, hload, ?_⟩
  rw [hload]
  simp [is]

theorem loadConcise_eq_iff_of_lineEnds :
    let is : List Instruction := [.pushText "\r\n\\\r" (.text "x"), .pushNumber (.int (-1)) .null,
      .invoke "concat" .null]
    let js : List Instruction := [.pushText "a\n\t\"" .null, .invoke "2x" (.text "7")]
    let t := Files.empty.put ["work", "i.tzoct"] (.file (Utf8.encode (Concise.write is)))
    let u := Files.empty.put ["work", "j.tzoct"] (.file (Utf8.encode (Concise.write js)))
    ((∀ i ∈ is, i.isWritable = true) ∧
      Files.empty.write "i.tzoct" (Utf8.encode (Concise.write is)) = .ok t ∧
      t.loadConcise "i.tzoct" = .ok (is.map Instruction.withLineFeeds)) ∧
    (∀ i ∈ js, i.isWritable = true) ∧
      Files.empty.write "j.tzoct" (Utf8.encode (Concise.write js)) = .ok u ∧
      u.loadConcise "j.tzoct" = .ok js := by
  intro is js t u
  have his : ∀ i ∈ is, i.isWritable = true := by decide
  have hjs : ∀ i ∈ js, i.isWritable = true := by decide
  have ht : Files.empty.write "i.tzoct" (Utf8.encode (Concise.write is)) = .ok t := rfl
  have hu : Files.empty.write "j.tzoct" (Utf8.encode (Concise.write js)) = .ok u := rfl
  have hnone : ∀ s label, .pushText s label ∈ js → '\r' ∉ s.toList := by
    intro s label hmem
    simp only [js, List.mem_cons, Instruction.pushText.injEq, reduceCtorEq, List.not_mem_nil,
      or_false] at hmem
    rw [hmem.1]
    decide
  exact ⟨⟨his, ht, (loadConcise_eq_iff his ht).1⟩, hjs, hu,
    (loadConcise_eq_iff hjs hu).2.mpr hnone⟩

end Files
end StackForest
