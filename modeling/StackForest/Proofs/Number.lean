import StackForest.Concise.Lexeme
import StackForest.Number
import StackForest.Proofs.Binary64.Text

/-!
# Reading a number back

A word is a numeral when its ASCII form is read as a decimal (`isNumeral_withSign`). The text of a
number is such a word (`isNumeral_render`, `read_render`).
-/

namespace StackForest

open Text Concise Binary64

/-! ## ASCII forms -/

namespace Number

theorem toAscii_of_lt {c : Char} (h : c.toNat < 0x80) : toAscii c = c := if_pos h

theorem isAsciiDigit_toAscii (c : Char) : Decimal.isAsciiDigit (toAscii c) = isDigit c := by
  by_cases hlt : c.toNat < 0x80
  · rw [toAscii_of_lt hlt, isDigit_of_lt hlt]
  have hne : Decimal.isAsciiDigit c = false := by
    rw [Bool.eq_false_iff, Ne, isAsciiDigit_iff]
    omega
  unfold toAscii
  rw [if_neg hlt]
  split
  · next hs =>
    have hd : isDigit c = false := by
      by_contra h
      rw [isSpace_of_isDigit (Bool.eq_true_of_not_eq_false h)] at hs
      exact Bool.false_ne_true hs
    rw [hd]
    rfl
  · cases hv : digitValue? c with
    | some d =>
      rw [isDigit, hv]
      exact isAsciiDigit_digitChar hv
    | none =>
      rw [isDigit, hv]
      exact hne

theorem toAscii_cases (c : Char) :
    toAscii c = c ∨ toAscii c = ' ' ∨ Decimal.isAsciiDigit (toAscii c) = true := by
  unfold toAscii
  split
  · exact .inl rfl
  split
  · exact .inr (.inl rfl)
  split
  · next d hd => exact .inr (.inr (isAsciiDigit_digitChar hd))
  · exact .inl rfl

theorem toAscii_eq_iff {c a : Char} (ha : a.toNat < 0x80) (hs : a ≠ ' ')
    (hd : Decimal.isAsciiDigit a = false) : toAscii c = a ↔ c = a := by
  constructor
  · rintro rfl
    rcases toAscii_cases c with h | h | h
    · exact h.symm
    · exact absurd h hs
    · rw [h] at hd
      cases hd
  · rintro rfl
    exact toAscii_of_lt ha

theorem takeWhile_map_toAscii (cs : List Char) :
    (cs.map toAscii).takeWhile Decimal.isAsciiDigit = (cs.takeWhile isDigit).map toAscii := by
  rw [List.takeWhile_map]
  congr 2
  exact funext isAsciiDigit_toAscii

theorem dropWhile_map_toAscii (cs : List Char) :
    (cs.map toAscii).dropWhile Decimal.isAsciiDigit = (cs.dropWhile isDigit).map toAscii := by
  rw [List.dropWhile_map]
  congr 2
  exact funext isAsciiDigit_toAscii

/-! ## Numerals -/

theorem toAscii_mark {c a : Char} (h : a = '.' ∨ a = 'e' ∨ a = 'E' ∨ a = '+' ∨ a = '-') :
    toAscii c = a ↔ c = a := by
  rcases h with rfl | rfl | rfl | rfl | rfl <;>
    exact toAscii_eq_iff (by decide) (by decide) (by decide)

def powerDigits : List Char → List Char
  | [] => []
  | s :: ds => if s = '+' ∨ s = '-' then ds else s :: ds

theorem splitSign_map_toAscii (cs : List Char) :
    (Decimal.splitSign (cs.map toAscii)).2 = (powerDigits cs).map toAscii := by
  cases cs with
  | nil => rfl
  | cons c cs =>
    by_cases h : c = '+' ∨ c = '-'
    · rw [powerDigits, if_pos h]
      rcases h with rfl | rfl <;> rfl
    · rw [powerDigits, if_neg h, splitSign_of_unsigned]
      intro a ha
      obtain rfl : toAscii c = a := by simpa using ha
      have hplus : toAscii c = '+' ↔ c = '+' := toAscii_mark (by decide)
      have hminus : toAscii c = '-' ↔ c = '-' := toAscii_mark (by decide)
      rw [Ne, Ne, hplus, hminus]
      exact ⟨fun h' => h (.inr h'), fun h' => h (.inl h')⟩

theorem isPower_cons (c : Char) (cs : List Char) :
    isPower (c :: cs) = ((c == 'e' || c == 'E') && !(powerDigits cs).isEmpty &&
      (powerDigits cs).all isDigit) := by
  cases cs <;> rfl

theorem isSome_exponent? (cs : List Char) :
    (Decimal.exponent? (cs.map toAscii)).isSome = isPower cs := by
  cases cs with
  | nil => rfl
  | cons c cs =>
    have he : toAscii c = 'e' ↔ c = 'e' := toAscii_mark (by decide)
    have hE : toAscii c = 'E' ↔ c = 'E' := toAscii_mark (by decide)
    have hall : ((powerDigits cs).map toAscii).all Decimal.isAsciiDigit =
        (powerDigits cs).all isDigit := by
      rw [List.all_map]
      exact congrArg (powerDigits cs).all (funext isAsciiDigit_toAscii)
    rw [isPower_cons, List.map_cons, Decimal.exponent?]
    simp only [splitSign_map_toAscii, he, hE, hall]
    generalize powerDigits cs = ds
    rw [Bool.eq_iff_iff]
    split
    · next h =>
      have hne : ds ≠ [] := fun h0 => h.2.1 (by rw [h0, List.map_nil])
      simp [h.1, h.2.2, hne]
    · next h => simpa [and_assoc] using h

def splitFraction (p : Char → Bool) : List Char → List Char × List Char
  | '.' :: r => (r.takeWhile p, r.dropWhile p)
  | r => ([], r)

theorem splitFraction_map_toAscii (cs : List Char) :
    splitFraction Decimal.isAsciiDigit (cs.map toAscii) =
      ((splitFraction isDigit cs).1.map toAscii, (splitFraction isDigit cs).2.map toAscii) := by
  cases cs with
  | nil => rfl
  | cons c r =>
    have hpoint : toAscii c = '.' ↔ c = '.' := toAscii_mark (by decide)
    by_cases hc : c = '.'
    · subst hc
      rw [splitFraction, ← takeWhile_map_toAscii, ← dropWhile_map_toAscii]
      rfl
    · rw [splitFraction, splitFraction]
      · rfl
      · intro r' h
        exact hc (List.cons.inj h).1
      · intro r' h
        exact hc (hpoint.mp (List.cons.inj h).1)

theorem readUnsigned?_eq (negative : Bool) (cs : List Char) :
    Decimal.readUnsigned? negative cs =
      (let whole := cs.takeWhile Decimal.isAsciiDigit
      let behind := splitFraction Decimal.isAsciiDigit (cs.dropWhile Decimal.isAsciiDigit)
      if whole = [] ∧ behind.1 = [] then none
      else (Decimal.exponent? behind.2).map fun e =>
        ⟨negative, Decimal.ofAscii (whole ++ behind.1), e - behind.1.length⟩) := rfl

theorem isSome_readUnsigned? (negative : Bool) (cs : List Char) :
    (Decimal.readUnsigned? negative cs).isSome =
      (let behind := splitFraction Decimal.isAsciiDigit (cs.dropWhile Decimal.isAsciiDigit)
      !((cs.takeWhile Decimal.isAsciiDigit).isEmpty && behind.1.isEmpty) &&
        (Decimal.exponent? behind.2).isSome) := by
  rw [readUnsigned?_eq]
  simp only
  generalize cs.takeWhile Decimal.isAsciiDigit = whole
  generalize splitFraction Decimal.isAsciiDigit (cs.dropWhile Decimal.isAsciiDigit) = behind
  split
  · next h => simp [h.1, h.2]
  · next h =>
    have hdigits : (whole.isEmpty && behind.1.isEmpty) = false := by
      rw [Bool.eq_false_iff, Ne, Bool.and_eq_true, List.isEmpty_iff, List.isEmpty_iff]
      exact h
    rw [Option.isSome_map, hdigits, Bool.not_false, Bool.true_and]

theorem isNumeral_minus (cs : List Char) :
    isNumeral ('-' :: cs) =
      (let behind := splitFraction isDigit (cs.dropWhile isDigit)
      !((cs.takeWhile isDigit).isEmpty && behind.1.isEmpty) && isPower behind.2) := by
  unfold isNumeral splitFraction
  simp only
  generalize cs.dropWhile isDigit = behind
  split
  · rfl
  · simp

theorem isNumeral_of_head {cs : List Char} (h : ∀ c ∈ cs.head?, c ≠ '-') :
    isNumeral cs = isNumeral ('-' :: cs) := by
  unfold isNumeral
  split
  · next h' => exact absurd rfl (h '-' rfl)
  · rfl

theorem isSome_readUnsigned?_map (negative : Bool) (cs : List Char) :
    (Decimal.readUnsigned? negative (cs.map toAscii)).isSome = isNumeral ('-' :: cs) := by
  rw [isNumeral_minus, isSome_readUnsigned?, dropWhile_map_toAscii, takeWhile_map_toAscii,
    splitFraction_map_toAscii]
  simp only [isSome_exponent?, List.isEmpty_map]

theorem isNumeral_withSign (negative : Bool) {cs : List Char} (h : ∀ c ∈ cs.head?, c ≠ '-') :
    isNumeral (withSign negative cs) =
      (Decimal.readUnsigned? negative (cs.map toAscii)).isSome := by
  rw [isSome_readUnsigned?_map]
  cases negative with
  | true => rfl
  | false => exact isNumeral_of_head h

/-! ## Integers -/

theorem integerDigits?_withSign (negative : Bool) {cs : List Char}
    (h : ∀ c ∈ cs.head?, c ≠ '-') :
    integerDigits? (withSign negative cs) =
      if cs ≠ [] ∧ cs.all isDigit then some (negative, cs.filterMap digitValue?) else none := by
  cases negative with
  | true => rfl
  | false =>
    unfold integerDigits? withSign
    rw [if_neg Bool.false_ne_true]
    split
    next h' =>
    split at h'
    · next h'' => exact absurd rfl (h '-' rfl)
    · cases h'
      rfl

theorem ofDigits_filterMap {cs : List Char} (h : ∀ c ∈ cs, Decimal.isAsciiDigit c = true) :
    Text.ofDigits (cs.filterMap digitValue?) = Decimal.ofAscii cs := by
  rw [filterMap_digitValue? h]
  rfl

theorem intText_eq (i : Int) :
    intText i = withSign (decide (i < 0)) (Nat.toDigits 10 i.natAbs) := by
  simp [intText, withSign]

theorem head?_toDigits (n : Nat) : ∀ c ∈ (Nat.toDigits 10 n).head?, c ≠ '-' ∧ c ≠ '+' :=
  fun _ hc => unsigned_of_digit (isAsciiDigit_of_mem_toDigits (List.mem_of_mem_head? hc))

theorem ofDigits?_toDigits {i : Int} (h : (Nat.toDigits 10 i.natAbs).length ≤ digitLimit) :
    ofDigits? (decide (i < 0)) ((Nat.toDigits 10 i.natAbs).filterMap digitValue?) =
      .ok (.int i) := by
  have hascii : ∀ c ∈ Nat.toDigits 10 i.natAbs, Decimal.isAsciiDigit c = true :=
    fun _ hc => isAsciiDigit_of_mem_toDigits hc
  have hlen := (List.length_filterMap_le digitValue? (Nat.toDigits 10 i.natAbs)).trans h
  rw [ofDigits?, if_pos hlen, ofDigits_filterMap hascii, ofAscii_toDigits]
  congr 2
  simp only [decide_eq_true_eq]
  split <;> omega

theorem read_intText {i : Int} (h : (Nat.toDigits 10 i.natAbs).length ≤ digitLimit) :
    read (intText i) = .ok (.int i) := by
  have hall : (Nat.toDigits 10 i.natAbs).all isDigit = true :=
    List.all_eq_true.mpr fun c hc => isDigit_ascii (isAsciiDigit_of_mem_toDigits hc)
  rw [read, intText_eq, integerDigits?_withSign _ fun c hc => (head?_toDigits _ c hc).1,
    if_pos ⟨Nat.toDigits_ne_nil, hall⟩]
  exact ofDigits?_toDigits h

/-! ## Binary64 numbers -/

theorem toAscii_eq_self {cs : List Char} (h : ∀ c ∈ cs, isRealChar c = true) :
    cs.map toAscii = cs := by
  have hself : ∀ c ∈ cs, toAscii c = id c := by
    intro c hc
    have hlt : decide (c.toNat < 0x80) = true :=
      of_isRealChar (p := fun c => decide (c.toNat < 0x80)) (by decide) (h c hc)
    exact toAscii_of_lt (of_decide_eq_true hlt)
  rw [List.map_congr_left hself, List.map_id]

def isPlain (c : Char) : Bool := !isPadding c && c != '_' && c.toLower != 'n'

theorem isPlain_iff {c : Char} :
    isPlain c = true ↔ isPadding c = false ∧ c ≠ '_' ∧ c.toLower ≠ 'n' := by
  simp [isPlain, and_assoc]

theorem dropWhile_isPadding {cs : List Char} (h : ∀ c ∈ cs, isPlain c = true) :
    cs.dropWhile isPadding = cs := by
  cases cs with
  | nil => rfl
  | cons c cs =>
    have hc := (isPlain_iff.mp (h c (by simp))).1
    rw [List.dropWhile_cons_of_neg (by simp [hc])]

theorem trim_eq_self {cs : List Char} (h : ∀ c ∈ cs, isPlain c = true) : trim cs = cs := by
  have hrev : ∀ c ∈ cs.reverse, isPlain c = true := fun c hc => h c (List.mem_reverse.mp hc)
  rw [trim, dropWhile_isPadding h, dropWhile_isPadding hrev, List.reverse_reverse]

theorem dropUnderscores?_eq_self {cs : List Char} (h : ∀ c ∈ cs, isPlain c = true)
    (afterDigit : Bool) : dropUnderscores? afterDigit cs = some cs := by
  induction cs generalizing afterDigit with
  | nil => rfl
  | cons c cs ih =>
    rw [List.forall_mem_cons] at h
    have hc : c ≠ '_' := (isPlain_iff.mp h.1).2.1
    rw [dropUnderscores?, if_neg hc, ih h.2, Option.map_some]
    exact fun _ _ hc' => absurd hc' hc

theorem splitSign_subset (cs : List Char) : (Decimal.splitSign cs).2 ⊆ cs := by
  unfold Decimal.splitSign
  split
  · exact List.subset_cons_self _ _
  · exact List.subset_cons_self _ _
  · exact List.Subset.refl _

theorem ofName?_eq_none {cs : List Char} (h : ∀ c ∈ cs, isPlain c = true) : ofName? cs = none := by
  have hn : 'n' ∉ (Decimal.splitSign cs).2.map Char.toLower := by
    rw [List.mem_map]
    rintro ⟨c, hc, hlower⟩
    exact (isPlain_iff.mp (h c (splitSign_subset cs hc))).2.2 hlower
  unfold ofName?
  simp only
  rw [if_neg, if_neg]
  · intro hname
    exact hn (by rw [hname]; decide)
  · rintro (hname | hname) <;> exact hn (by rw [hname]; decide)

theorem real?_of_read? {cs : List Char} {d : Decimal}
    (h : ∀ c ∈ cs.map toAscii, isPlain c = true)
    (hd : Decimal.read? (cs.map toAscii) = some d) : real? cs = some (ofDecimal d) := by
  rw [real?, trim_eq_self h, dropUnderscores?_eq_self h]
  simp only
  rw [ofName?_eq_none h]
  simp only
  rw [hd, Option.map_some]

theorem isRealChar_withSign (negative : Bool) {cs : List Char} (h : ∀ c ∈ cs, isRealChar c = true) :
    ∀ c ∈ withSign negative cs, isRealChar c = true := by
  cases negative with
  | false => exact h
  | true =>
    rw [withSign, if_pos rfl, List.forall_mem_cons]
    exact ⟨by decide, h⟩

theorem real?_withSign (negative : Bool) {cs : List Char} {d : Decimal} (h : IsRealText cs)
    (hd : Decimal.readUnsigned? negative cs = some d) :
    real? (withSign negative cs) = some (ofDecimal d) := by
  have hchars := isRealChar_withSign negative h.chars
  have hself := toAscii_eq_self hchars
  refine real?_of_read? ?_ ?_
  · rw [hself]
    exact fun c hc => of_isRealChar (by decide) (hchars c hc)
  · rw [hself, Decimal.read?, splitSign_withSign negative h.unsigned]
    exact hd

theorem integerDigits?_eq_none (negative : Bool) {cs : List Char} (h : IsRealText cs) :
    integerDigits? (withSign negative cs) = none := by
  rw [integerDigits?_withSign negative fun c hc => (h.unsigned c hc).1]
  refine if_neg fun hall => ?_
  obtain ⟨c, hc, hmark⟩ := h.marked
  have hdigit := List.all_eq_true.mp hall.2 c hc
  rcases hmark with rfl | rfl <;> exact absurd hdigit (by decide)

/-! ## Reading back -/

/-- The numbers that concise text can hold. -/
def isWritable : Number → Bool
  | int i => (Nat.toDigits 10 i.natAbs).length ≤ digitLimit
  | real (.finite _ _) => true
  | real _ => false

theorem render_real (negative : Bool) (rank : Fin rankCount) :
    (real (.finite negative rank)).render = withSign negative (magnitudeText rank) := rfl

theorem read_render {n : Number} (h : n.isWritable = true) : read n.render = .ok n := by
  cases n with
  | int i => exact read_intText (of_decide_eq_true h)
  | real x =>
    cases x with
    | finite negative rank =>
      obtain ⟨d, hd, hx⟩ := readUnsigned?_magnitudeText negative rank.isLt
      have htext := isRealText_magnitudeText rank
      rw [read, render_real, integerDigits?_eq_none negative htext]
      simp only
      rw [real?_withSign negative htext hd]
      simp only
      rw [hx, ofRank_of_lt]
    | infinite negative => exact absurd h Bool.false_ne_true
    | nan => exact absurd h Bool.false_ne_true

theorem isNumeral_render {n : Number} (h : n.isWritable = true) : isNumeral n.render = true := by
  cases n with
  | int i =>
    have hascii : ∀ c ∈ Nat.toDigits 10 i.natAbs, Decimal.isAsciiDigit c = true :=
      fun _ hc => isAsciiDigit_of_mem_toDigits hc
    have hread := Decimal.readUnsigned?_whole (decide (i < 0)) [] hascii Nat.toDigits_ne_nil
      (by simp) (by simp)
    rw [List.append_nil] at hread
    rw [render, intText_eq, isNumeral_withSign _ fun c hc => (head?_toDigits _ c hc).1,
      toAscii_eq_self fun c hc => isRealChar_of_digit (hascii c hc), hread]
    rfl
  | real x =>
    cases x with
    | finite negative rank =>
      obtain ⟨d, hd, -⟩ := readUnsigned?_magnitudeText negative rank.isLt
      have htext := isRealText_magnitudeText rank
      rw [render_real, isNumeral_withSign negative fun c hc => (htext.unsigned c hc).1,
        toAscii_eq_self htext.chars, hd]
      rfl
    | infinite negative => exact absurd h Bool.false_ne_true
    | nan => exact absurd h Bool.false_ne_true

theorem isRealChar_render {n : Number} (h : n.isWritable = true) :
    ∀ c ∈ n.render, isRealChar c = true := by
  cases n with
  | int i =>
    rw [render, intText_eq]
    exact isRealChar_withSign _ fun c hc => isRealChar_of_digit (isAsciiDigit_of_mem_toDigits hc)
  | real x =>
    cases x with
    | finite negative rank =>
      rw [render_real]
      exact isRealChar_withSign negative (isRealText_magnitudeText rank).chars
    | infinite negative => exact absurd h Bool.false_ne_true
    | nan => exact absurd h Bool.false_ne_true

theorem isWordChar_render {n : Number} (h : n.isWritable = true) :
    ∀ c ∈ n.render, isWordChar c = true :=
  fun c hc => of_isRealChar (by decide) (isRealChar_render h c hc)

theorem render_ne_nil {n : Number} (h : n.isWritable = true) : n.render ≠ [] := by
  intro h0
  have hnil := isNumeral_render h
  rw [h0] at hnil
  exact absurd hnil (by decide)

end Number
end StackForest
