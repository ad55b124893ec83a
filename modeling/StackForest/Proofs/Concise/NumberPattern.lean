import StackForest.Failure
import StackForest.Proofs.Concise.Passage
import StackForest.Proofs.Concise.Pattern
import StackForest.Proofs.Number.Grammar

/-!
# The pattern of numbers

What the pattern matches is a whole word that is an integer or a binary64 text
(`read_of_matches`).
-/

namespace StackForest

open Text Binary64 Number

namespace Concise

def digitPattern : Language Char := {cs | ∃ c, cs = [c] ∧ isDigit c = true}

def digitsPattern : Language Char := digitPattern * KStar.kstar digitPattern

def mantissaPattern : Language Char :=
  digitsPattern * (1 + {['.']}) * KStar.kstar digitPattern + {['.']} * digitsPattern

def powerPattern : Language Char :=
  ({['e']} + {['E']}) * (1 + ({['+']} + {['-']})) * digitsPattern

def numberPattern : Language Char := (1 + {['-']}) * mantissaPattern * (1 + powerPattern)

/-- The pattern matches `cs` in front of `r`, where the word must not go on. -/
def Matches (cs r : List Char) : Prop :=
  cs ∈ numberPattern ∧ ∀ c ∈ r.head?, isWordChar c = false

/-! ## What matches -/

theorem mem_kstar_digitPattern {cs : List Char} :
    cs ∈ KStar.kstar digitPattern ↔ ∀ c ∈ cs, isDigit c = true := by
  constructor
  · intro h
    obtain ⟨ws, rfl, hws⟩ := Language.mem_kstar.mp h
    intro c hc
    obtain ⟨w, hw, hcw⟩ := List.mem_flatten.mp hc
    obtain ⟨d, rfl, hd⟩ := hws w hw
    rw [List.mem_singleton.mp hcw]
    exact hd
  · intro h
    induction cs with
    | nil => exact Language.nil_mem_kstar _
    | cons c cs ih =>
      rw [List.forall_mem_cons] at h
      have hc : [c] ∈ digitPattern := ⟨c, rfl, h.1⟩
      exact cons_mem_kstar hc (ih h.2)

theorem mem_digitsPattern {cs : List Char} : cs ∈ digitsPattern ↔ IsDigits cs := by
  rw [digitsPattern, Language.mem_mul]
  constructor
  · rintro ⟨_, ⟨c, rfl, hc⟩, ds, hds, rfl⟩
    exact ⟨by simp, List.forall_mem_cons.mpr ⟨hc, mem_kstar_digitPattern.mp hds⟩⟩
  · intro h
    obtain ⟨c, ds, rfl, hc⟩ := h.exists_cons
    have hds := (List.forall_mem_cons.mp h.2).2
    exact ⟨[c], ⟨c, rfl, hc⟩, ds, mem_kstar_digitPattern.mpr hds, rfl⟩

theorem mem_mantissaPattern {cs : List Char} : cs ∈ mantissaPattern ↔ Mantissa cs := by
  simp only [mantissaPattern, Language.mem_add, Language.mem_mul, mem_digitsPattern,
    mem_kstar_digitPattern]
  constructor
  · rintro (⟨_, ⟨ds, hds, point, hpoint, rfl⟩, es, hes, rfl⟩ | ⟨_, rfl, es, hes, rfl⟩)
    · rcases hpoint with rfl | rfl
      · rw [List.append_nil]
        exact .whole ⟨by simp [hds.1], List.forall_mem_append.mpr ⟨hds.2, hes⟩⟩
      · rw [List.append_assoc]
        exact .point hds hes
    · exact .fraction hes
  · intro h
    cases h with
    | whole hds => exact .inl ⟨_, ⟨_, hds, [], .inl rfl, rfl⟩, [], by simp, by simp⟩
    | point hds hes => exact .inl ⟨_, ⟨_, hds, ['.'], .inr rfl, rfl⟩, _, hes, by simp⟩
    | fraction hes => exact .inr ⟨_, rfl, _, hes, rfl⟩

theorem mem_optional_powerPattern {cs : List Char} : cs ∈ 1 + powerPattern ↔ Power cs := by
  simp only [powerPattern, Language.mem_add, Language.mem_mul, mem_digitsPattern]
  constructor
  · rintro (rfl | ⟨_, ⟨_, he, sign, hs, rfl⟩, ds, hds, rfl⟩)
    · exact .nil
    · rcases he with rfl | rfl
      · exact .cons (.inl rfl) hs hds
      · exact .cons (.inr rfl) hs hds
  · intro h
    cases h with
    | nil => exact .inl rfl
    | cons he hs hds =>
      rcases he with rfl | rfl
      · exact .inr ⟨_, ⟨_, .inl rfl, _, hs, rfl⟩, _, hds, rfl⟩
      · exact .inr ⟨_, ⟨_, .inr rfl, _, hs, rfl⟩, _, hds, rfl⟩

theorem mem_numberPattern {cs : List Char} : cs ∈ numberPattern ↔ Numeral cs := by
  simp only [numberPattern, Language.mem_mul, mem_optional_powerPattern, mem_mantissaPattern]
  constructor
  · rintro ⟨_, ⟨sign, hs, m, hm, rfl⟩, p, hp, rfl⟩
    rw [List.append_assoc]
    exact .mk hs hm hp
  · rintro ⟨hs, hm, hp⟩
    exact ⟨_, ⟨_, hs, _, hm, rfl⟩, _, hp, List.append_assoc ..⟩

theorem split_of_matches {cs r : List Char} (h : Matches cs r) : Lexeme.split (cs ++ r) =
    (⟨.word, cs⟩ :: (Lexeme.split r).1, (Lexeme.split r).2) := by
  have hnumeral := mem_numberPattern.mp h.1
  have hne : cs ≠ [] := by
    rintro rfl
    exact absurd (isNumeral_iff.mpr hnumeral) (by decide)
  obtain ⟨c, cs, rfl⟩ := List.exists_cons_of_ne_nil hne
  exact Lexeme.split_append (.word (isWordChar_of_numeral hnumeral)) h.2

/-! ## What is read -/

theorem realText_of_numeral {cs : List Char} (h : Numeral cs) : RealText cs := by
  have hplain : PlainText cs := by
    obtain ⟨hs, hm, hp⟩ := h
    exact .number (hs.imp id .inr) hm hp
  refine realText_iff.mpr ⟨cs, hplain, unspaced_self fun c hc => ?_⟩
  rintro rfl
  exact absurd (isNumeralChar_of_mem h '_' hc) (by decide)

/-- What a numeral is read as. -/
structure ReadsAs (cs : List Char) (n : Number) : Prop where
  isInteger_iff : (∃ i, n = .int i) ↔ IsInteger cs
  integer : ∀ minus ds, cs = withSign minus ds → IsDigits ds →
    n = .int (if minus then -(baseTen ds : Int) else baseTen ds)
  real : ¬IsInteger cs → RealText cs ∧
    ∃ d, Writes cs d ∧ real? cs = some (ofDecimal d) ∧ n = .real (ofDecimal d)

theorem exists_readsAs {cs : List Char} (h : Numeral cs) (hfit : Fits cs) :
    ∃ n, Number.read cs = .ok n ∧ ReadsAs cs n := by
  by_cases hi : IsInteger cs
  · obtain ⟨minus, ds, rfl, hds⟩ := hi
    have hread := read_integer minus hds
    rw [if_pos (length_le_of_fits hfit hds)] at hread
    refine ⟨_, hread, ⟨fun _ => ⟨minus, ds, rfl, hds⟩, fun _ => ⟨_, rfl⟩⟩, ?_, ?_⟩
    · intro minus' ds' heq hds'
      have hread' := read_integer minus' hds'
      rw [← heq, if_pos (length_le_of_fits (heq ▸ hfit) hds')] at hread'
      exact Except.ok.inj (hread.symm.trans hread')
    · intro hnot
      exact absurd ⟨minus, ds, rfl, hds⟩ hnot
  · obtain ⟨d, hd⟩ := exists_writes h
    have hreal := real?_of_writes hd
    refine ⟨_, read_of_not_isInteger hi hreal, ⟨?_, fun hint => absurd hint hi⟩, ?_, ?_⟩
    · rintro ⟨i, h⟩
      cases h
    · intro minus ds heq hds
      exact absurd ⟨minus, ds, heq, hds⟩ hi
    · exact fun _ => ⟨realText_of_numeral h, d, hd, hreal, rfl⟩

/-! ## Numbers that are too long -/

/-- A word of the text is an integer of `n` digits, which are too many. -/
def Oversized (cs : List Char) (n : Nat) : Prop :=
  ∃ minus ds, ⟨.word, withSign minus ds⟩ ∈ (Lexeme.split cs).1 ∧ IsDigits ds ∧ ds.length = n ∧
    digitLimit < n

theorem exists_of_ofWord_eq_error {t : List Char} {label : Value} {f : Number.Fault}
    (h : ofWord t label = .error f) : ∃ minus ds, t = withSign minus ds ∧ IsDigits ds ∧
      digitLimit < ds.length ∧ f = .tooLong ds.length := by
  unfold ofWord at h
  split at h
  · next hw =>
    have hread : Number.read t = .error f := map_eq_error_iff.mp h
    by_cases hi : IsInteger t
    · obtain ⟨minus, ds, rfl, hds⟩ := hi
      rw [read_integer minus hds] at hread
      by_cases hlen : ds.length ≤ digitLimit
      · rw [if_pos hlen] at hread
        cases hread
      · rw [if_neg hlen] at hread
        cases hread
        exact ⟨minus, ds, rfl, hds, Nat.lt_of_not_le hlen, rfl⟩
    · obtain ⟨d, hd⟩ := exists_writes (isNumeral_iff.mp hw)
      rw [read_of_not_isInteger hi (real?_of_writes hd)] at hread
      cases hread
  · cases h

theorem numberFault_cases (f : Number.Fault) (ls : List Lexeme) (rest : List Char)
    (position : Position) : numberFault f ls rest position = .number f ∨
      ∃ c p, numberFault f ls rest position = .unknownCharacter c p := by
  unfold numberFault
  cases rest with
  | nil => exact .inl rfl
  | cons c rest =>
    simp only
    split
    · exact .inr ⟨_, _, rfl⟩
    · exact .inl rfl

theorem exists_of_read_eq_error {cs : List Char} {fault : Fault} (h : read cs = .error fault) :
    (∃ n, fault = .number (.tooLong n) ∧ Oversized cs n) ∨
      Failure.ofConcise fault = .concise fault := by
  cases hsplit : Lexeme.split cs with
  | mk ls rest =>
    obtain ⟨front, back, is, w, rfl, hfront, hback⟩ :=
      exists_passes (wellFormed_of_split hsplit) .start none
    rw [read_of_split hsplit, assemble_of_passes hfront, map_eq_error_iff] at h
    cases hback with
    | done =>
      cases rest with
      | cons c rest =>
        cases h
        exact .inr rfl
      | nil =>
        cases w with
        | none => cases h
        | some w =>
          cases h
          exact .inr rfl
    | label hw =>
      obtain ⟨w, rfl⟩ := Option.isSome_iff_exists.mp hw
      cases h
      exact .inr rfl
    | @number t ls f hf =>
      simp only [assemble, hf, Except.error.injEq] at h
      obtain ⟨minus, ds, rfl, hds, hlong, rfl⟩ := exists_of_ofWord_eq_error hf
      -- Where no lexeme follows, the character there is reported in place of the number.
      rcases numberFault_cases (.tooLong ds.length) ls rest _ with hfault | ⟨c, p, hfault⟩
      · rw [hfault] at h
        refine .inl ⟨ds.length, h.symm, minus, ds, ?_, hds, rfl, hlong⟩
        simp [hsplit]
      · rw [hfault] at h
        rw [← h]
        exact .inr rfl

theorem numeral_withSign (minus : Bool) {ds : List Char} (h : IsDigits ds) :
    Numeral (withSign minus ds) := by
  rw [← List.append_nil ds]
  cases minus with
  | false => exact @Numeral.mk [] ds [] (.inl rfl) (.whole h) .nil
  | true => exact @Numeral.mk ['-'] ds [] (.inr rfl) (.whole h) .nil

theorem read_of_tooLong (minus : Bool) {ds : List Char} (h : IsDigits ds)
    (hlong : digitLimit < ds.length) :
    read (withSign minus ds) = .error (.number (.tooLong ds.length)) := by
  have hnumeral := numeral_withSign minus h
  have hsplit := split_of_matches (r := []) ⟨mem_numberPattern.mpr hnumeral, by simp⟩
  have hword : ofWord (withSign minus ds) (labelOf none) = .error (.tooLong ds.length) := by
    rw [ofWord, if_pos (isNumeral_iff.mpr hnumeral), read_integer minus h,
      if_neg (Nat.not_le.mpr hlong)]
    rfl
  rw [List.append_nil] at hsplit
  rw [read_of_split hsplit]
  simp only [assemble, hword]
  rw [Lexeme.split]
  rfl

/-- **Numbers.** What the pattern matches is a whole lexeme and is read as a number, unless it is an
integer that is too long. No other number makes a text fail. -/
theorem read_of_matches :
    (∀ cs r, Matches cs r →
      Lexeme.split (cs ++ r) = (⟨.word, cs⟩ :: (Lexeme.split r).1, (Lexeme.split r).2) ∧
        (Fits cs → ∃ n, Number.read cs = .ok n ∧ ReadsAs cs n)) ∧
      (∀ cs, (∃ x, real? cs = some x) ↔ ∃ l m r, cs = l ++ (m ++ r) ∧
        (∀ c ∈ l, isMargin c = true) ∧ (∀ c ∈ r, isMargin c = true) ∧ RealText m) ∧
      (∀ cs fault, read cs = .error fault →
        (∃ n, fault = .number (.tooLong n) ∧ Oversized cs n) ∨
          Failure.ofConcise fault = .concise fault) ∧
      ∀ minus ds, IsDigits ds → digitLimit < ds.length →
        read (withSign minus ds) = .error (.number (.tooLong ds.length)) := by
  refine ⟨fun cs r h => ⟨split_of_matches h, ?_⟩, fun cs => exists_real?_iff, ?_, ?_⟩
  · exact exists_readsAs (mem_numberPattern.mp h.1)
  · exact fun cs fault => exists_of_read_eq_error
  · exact fun minus ds => read_of_tooLong minus

theorem read_of_matches_of_scripts :
    let real := ['-', '٣', '.', 'e', '٢']
    let integer := ['-', '०', '४', '२']
    let long := List.replicate 4301 '7'
    Matches real [';'] ∧ Fits real ∧
      Number.read real = .ok (.real (ofDecimal ⟨true, 3, 2⟩)) ∧
      Matches integer [] ∧ Fits integer ∧ Number.read integer = .ok (.int (-42)) ∧
      read long = .error (.number (.tooLong 4301)) ∧ Oversized long 4301 := by
  intro real integer long
  obtain ⟨hread, -, hfault, hlong⟩ := read_of_matches
  have hreal : Matches real [';'] :=
    ⟨mem_numberPattern.mpr (by decide), fun c hc => by cases hc; decide⟩
  have hinteger : Matches integer [] := ⟨mem_numberPattern.mpr (by decide), by simp⟩
  have hrealFits : Fits real := fits_of_length (by decide)
  have hintegerFits : Fits integer := fits_of_length (by decide)
  have hvalue : real? real = some (ofDecimal ⟨true, 3, 2⟩) := by
    have hdigit : IsDigits ['٣'] := ⟨by decide, List.forall_mem_singleton.mpr (by decide)⟩
    have hpower : IsDigits ['٢'] := ⟨by decide, List.forall_mem_singleton.mpr (by decide)⟩
    exact real?_of_writes (@Writes.mk true _ _ _ _ _
      (@WritesMantissa.point ['٣'] [] hdigit (by simp)) (.plus (.inl rfl) (.inl rfl) hpower))
  have hpoint : ¬IsInteger real := by
    rintro ⟨minus, ds, heq, hds⟩
    have hmem : '.' ∈ ds := by
      cases minus with
      | false =>
        rw [withSign, if_neg Bool.false_ne_true] at heq
        rw [← heq]
        decide
      | true =>
        rw [← (List.cons.inj heq).2]
        decide
    exact absurd (hds.2 '.' hmem) (by decide)
  have hlength : long.length = 4301 := List.length_replicate
  have hlongDigits : IsDigits long := by
    refine ⟨fun h => ?_, fun c hc => ?_⟩
    · rw [h] at hlength
      exact absurd hlength (by decide)
    · rw [List.eq_of_mem_replicate hc]
      decide
  have hlongRead : read long = .error (.number (.tooLong 4301)) := by
    have h := hlong false long hlongDigits (by rw [hlength]; decide)
    rwa [withSign, if_neg Bool.false_ne_true, hlength] at h
  refine ⟨hreal, hrealFits, ?_, hinteger, hintegerFits, ?_, hlongRead, ?_⟩
  · obtain ⟨n, hn, hreads⟩ := (hread _ _ hreal).2 hrealFits
    obtain ⟨-, d, -, hd, rfl⟩ := hreads.real hpoint
    rw [hn, ← Option.some.inj (hvalue.symm.trans hd)]
  · obtain ⟨n, hn, hreads⟩ := (hread _ _ hinteger).2 hintegerFits
    have hdigits : IsDigits ['०', '४', '२'] :=
      ⟨by decide, List.all_eq_true.mp (by decide)⟩
    rw [hn, hreads.integer true _ rfl hdigits]
    rfl
  · obtain ⟨n, h, hover⟩ | h := hfault _ _ hlongRead
    · cases h
      exact hover
    · cases h

end Concise
end StackForest
