import StackForest.Proofs.Concise.Lexeme
import StackForest.Proofs.Number

/-!
# Numerals

The grammar of the words that are numerals, in the digits of any script. `isNumeral` decides it
(`isNumeral_iff`).
-/

namespace StackForest

open Text Binary64

namespace Concise

def IsDigits (cs : List Char) : Prop := cs ≠ [] ∧ ∀ c ∈ cs, isDigit c = true

inductive Mantissa : List Char → Prop
  | whole {ds} : IsDigits ds → Mantissa ds
  | point {ds es} : IsDigits ds → (∀ c ∈ es, isDigit c = true) → Mantissa (ds ++ '.' :: es)
  | fraction {ds} : IsDigits ds → Mantissa ('.' :: ds)

inductive Power : List Char → Prop
  | nil : Power []
  | cons {e sign ds} : e = 'e' ∨ e = 'E' → sign = [] ∨ sign = ['+'] ∨ sign = ['-'] →
    IsDigits ds → Power (e :: (sign ++ ds))

inductive Numeral : List Char → Prop
  | mk {sign m p} : sign = [] ∨ sign = ['-'] → Mantissa m → Power p → Numeral (sign ++ (m ++ p))

/-! ## Deciding the grammar -/

theorem head?_ne {a : Char} {cs : List Char} (h : ¬∃ r, cs = a :: r) : ∀ c ∈ cs.head?, c ≠ a := by
  rintro c hc rfl
  cases cs with
  | nil => cases hc
  | cons b r =>
    cases hc
    exact h ⟨r, rfl⟩

theorem IsDigits.exists_cons {ds : List Char} (h : IsDigits ds) :
    ∃ c r, ds = c :: r ∧ isDigit c = true := by
  obtain ⟨c, r, rfl⟩ := List.exists_cons_of_ne_nil h.1
  exact ⟨c, r, rfl, h.2 c (by simp)⟩

theorem IsDigits.unsigned {ds : List Char} (h : IsDigits ds) (r : List Char) :
    ∀ c ∈ (ds ++ r).head?, c ≠ '-' ∧ c ≠ '+' := by
  obtain ⟨d, ds, rfl, hd⟩ := h.exists_cons
  rintro c ⟨⟩
  constructor <;> (rintro rfl; exact absurd hd (by decide))

theorem powerDigits_append {sign cs : List Char} (hs : sign = [] ∨ sign = ['+'] ∨ sign = ['-'])
    (hcs : ∀ c ∈ cs.head?, c ≠ '-' ∧ c ≠ '+') : Number.powerDigits (sign ++ cs) = cs := by
  rcases hs with rfl | rfl | rfl
  · cases cs with
    | nil => rfl
    | cons c r =>
      obtain ⟨hminus, hplus⟩ := hcs c rfl
      rw [List.nil_append, Number.powerDigits, if_neg (not_or.mpr ⟨hplus, hminus⟩)]
  · rfl
  · rfl

theorem exists_sign (cs : List Char) :
    ∃ sign, (sign = [] ∨ sign = ['+'] ∨ sign = ['-']) ∧ cs = sign ++ Number.powerDigits cs := by
  cases cs with
  | nil => exact ⟨[], .inl rfl, rfl⟩
  | cons c r =>
    by_cases h : c = '+' ∨ c = '-'
    · rw [Number.powerDigits, if_pos h]
      rcases h with rfl | rfl
      · exact ⟨['+'], .inr (.inl rfl), rfl⟩
      · exact ⟨['-'], .inr (.inr rfl), rfl⟩
    · rw [Number.powerDigits, if_neg h]
      exact ⟨[], .inl rfl, rfl⟩

theorem isPower_iff {cs : List Char} : isPower cs = true ↔ Power cs := by
  constructor
  · intro h
    cases cs with
    | nil => exact .nil
    | cons c r =>
      simp only [Number.isPower_cons, Bool.and_eq_true, Bool.or_eq_true, beq_iff_eq,
        Bool.not_eq_true', List.isEmpty_eq_false_iff, List.all_eq_true] at h
      obtain ⟨⟨he, hne⟩, hds⟩ := h
      obtain ⟨sign, hs, hr⟩ := exists_sign r
      rw [hr]
      exact .cons he hs ⟨hne, hds⟩
  · intro h
    cases h with
    | nil => rfl
    | @cons e sign ds he hs hds =>
      have hunsigned := hds.unsigned []
      rw [List.append_nil] at hunsigned
      simp only [Number.isPower_cons, powerDigits_append hs hunsigned, Bool.and_eq_true,
        Bool.or_eq_true, beq_iff_eq, Bool.not_eq_true', List.isEmpty_eq_false_iff,
        List.all_eq_true]
      exact ⟨⟨he, hds.1⟩, hds.2⟩

theorem head?_power {p : List Char} (h : Power p) : ∀ c ∈ p.head?, c = 'e' ∨ c = 'E' := by
  intro c hc
  cases h with
  | nil => cases hc
  | cons he _ _ =>
    cases hc
    exact he

theorem isDigit_head?_power {p : List Char} (h : Power p) : ∀ c ∈ p.head?, isDigit c = false := by
  intro c hc
  rcases head?_power h c hc with rfl | rfl <;> decide

def isUnsigned (cs : List Char) : Bool :=
  let behind := Number.splitFraction isDigit (cs.dropWhile isDigit)
  !((cs.takeWhile isDigit).isEmpty && behind.1.isEmpty) && isPower behind.2

theorem splitFraction_of_ne {cs : List Char} (h : ∀ c ∈ cs.head?, c ≠ '.') :
    Number.splitFraction isDigit cs = ([], cs) := by
  unfold Number.splitFraction
  split
  · exact absurd rfl (h '.' rfl)
  · rfl

theorem isDigit_point (cs : List Char) : ∀ c ∈ ('.' :: cs).head?, isDigit c = false := by
  rw [List.head?_cons]
  rintro c ⟨⟩
  decide

theorem isUnsigned_append {m p : List Char} (hm : Mantissa m) (hp : Power p) :
    isUnsigned (m ++ p) = true := by
  have hpower := isPower_iff.mpr hp
  have hdigit := isDigit_head?_power hp
  unfold isUnsigned
  cases hm with
  | whole hds =>
    have hpoint : ∀ c ∈ p.head?, c ≠ '.' := by
      intro c hc
      rcases head?_power hp c hc with rfl | rfl <;> decide
    rw [takeWhile_run hds.2 hdigit, dropWhile_run hds.2 hdigit, splitFraction_of_ne hpoint]
    simp [hds.1, hpower]
  | @point ds es hds hes =>
    rw [List.append_assoc, List.cons_append, takeWhile_run hds.2 (isDigit_point _),
      dropWhile_run hds.2 (isDigit_point _), Number.splitFraction, takeWhile_run hes hdigit,
      dropWhile_run hes hdigit]
    simp [hds.1, hpower]
  | @fraction ds hds =>
    have hnone : ∀ c ∈ ([] : List Char), isDigit c = true := by simp
    have htake := takeWhile_run hnone (isDigit_point (ds ++ p))
    have hdrop := dropWhile_run hnone (isDigit_point (ds ++ p))
    rw [List.nil_append] at htake hdrop
    rw [List.cons_append, htake, hdrop, Number.splitFraction, takeWhile_run hds.2 hdigit,
      dropWhile_run hds.2 hdigit]
    simp [hds.1, hpower]

theorem exists_mantissa {cs : List Char} (h : isUnsigned cs = true) :
    ∃ m p, cs = m ++ p ∧ Mantissa m ∧ Power p := by
  obtain ⟨whole, behind, rfl, hwhole, hbehind⟩ := exists_run isDigit cs
  rw [isUnsigned, takeWhile_run hwhole hbehind, dropWhile_run hwhole hbehind, Bool.and_eq_true,
    isPower_iff] at h
  obtain ⟨hdigits, hpower⟩ := h
  by_cases hpoint : ∃ r, behind = '.' :: r
  · obtain ⟨r, rfl⟩ := hpoint
    obtain ⟨fraction, p, rfl, hfraction, hp⟩ := exists_run isDigit r
    rw [Number.splitFraction, takeWhile_run hfraction hp] at hdigits
    rw [Number.splitFraction, dropWhile_run hfraction hp] at hpower
    by_cases hw : whole = []
    · have hne : fraction ≠ [] := by simpa [hw] using hdigits
      exact ⟨'.' :: fraction, p, by simp [hw], .fraction ⟨hne, hfraction⟩, hpower⟩
    · exact ⟨whole ++ '.' :: fraction, p, by simp, .point ⟨hw, hwhole⟩ hfraction, hpower⟩
  · rw [splitFraction_of_ne (head?_ne hpoint)] at hdigits hpower
    have hw : whole ≠ [] := by simpa using hdigits
    exact ⟨whole, behind, rfl, .whole ⟨hw, hwhole⟩, hpower⟩

theorem head?_mantissa {m p : List Char} (h : Mantissa m) :
    ∀ c ∈ (m ++ p).head?, c ≠ '-' ∧ c ≠ '+' := by
  cases h with
  | whole hds => exact hds.unsigned _
  | point hds _ =>
    rw [List.append_assoc]
    exact hds.unsigned _
  | fraction _ =>
    rintro c ⟨⟩
    decide

theorem isNumeral_iff {cs : List Char} : isNumeral cs = true ↔ Numeral cs := by
  constructor
  · intro h
    by_cases hm : ∃ r, cs = '-' :: r
    · obtain ⟨r, rfl⟩ := hm
      obtain ⟨m, p, rfl, hm, hp⟩ := exists_mantissa ((Number.isNumeral_minus r).symm.trans h)
      exact @Numeral.mk ['-'] m p (.inr rfl) hm hp
    · rw [Number.isNumeral_of_head (head?_ne hm), Number.isNumeral_minus] at h
      obtain ⟨m, p, rfl, hm, hp⟩ := exists_mantissa h
      exact @Numeral.mk [] m p (.inl rfl) hm hp
  · rintro ⟨hs, hm, hp⟩
    have hunsigned := isUnsigned_append hm hp
    rcases hs with rfl | rfl
    · rw [List.nil_append, Number.isNumeral_of_head fun c hc => (head?_mantissa hm c hc).1,
        Number.isNumeral_minus]
      exact hunsigned
    · rw [List.singleton_append, Number.isNumeral_minus]
      exact hunsigned

instance : DecidablePred Numeral := fun _ => decidable_of_iff _ isNumeral_iff

/-! ## The characters of a numeral -/

def isNumeralChar (c : Char) : Bool :=
  isDigit c || c == '.' || c == 'e' || c == 'E' || c == '+' || c == '-'

theorem isNumeralChar_of_isDigit {c : Char} (h : isDigit c = true) : isNumeralChar c = true := by
  simp [isNumeralChar, h]

theorem isNumeralChar_of_mem {cs : List Char} (h : Numeral cs) :
    ∀ c ∈ cs, isNumeralChar c = true := by
  have hdigits : ∀ {ds : List Char}, (∀ c ∈ ds, isDigit c = true) →
      ∀ c ∈ ds, isNumeralChar c = true := fun h c hc => isNumeralChar_of_isDigit (h c hc)
  obtain ⟨hs, hm, hp⟩ := h
  rw [List.forall_mem_append, List.forall_mem_append]
  refine ⟨?_, ?_, ?_⟩
  · rcases hs with rfl | rfl
    · simp
    · exact List.forall_mem_singleton.mpr (by decide)
  · cases hm with
    | whole hds => exact hdigits hds.2
    | point hds hes =>
      rw [List.forall_mem_append, List.forall_mem_cons]
      exact ⟨hdigits hds.2, by decide, hdigits hes⟩
    | fraction hds =>
      rw [List.forall_mem_cons]
      exact ⟨by decide, hdigits hds.2⟩
  · cases hp with
    | nil => simp
    | cons he hs hds =>
      rw [List.forall_mem_cons, List.forall_mem_append]
      refine ⟨?_, ?_, hdigits hds.2⟩
      · rcases he with rfl | rfl <;> decide
      · rcases hs with rfl | rfl | rfl
        · simp
        · exact List.forall_mem_singleton.mpr (by decide)
        · exact List.forall_mem_singleton.mpr (by decide)

theorem of_isNumeralChar {P : Char → Prop} (hdigit : ∀ c, isDigit c = true → P c)
    (hmark : ∀ c ∈ ['.', 'e', 'E', '+', '-'], P c) {c : Char} (h : isNumeralChar c = true) :
    P c := by
  simp only [isNumeralChar, Bool.or_eq_true, beq_iff_eq] at h
  rcases h with ((((h | rfl) | rfl) | rfl) | rfl) | rfl
  · exact hdigit c h
  all_goals exact hmark _ (by simp)

theorem isWordChar_of_isDigit {c : Char} (h : isDigit c = true) : isWordChar c = true := by
  rw [isWordChar_iff]
  refine ⟨isSpace_of_isDigit h, ?_, ?_, ?_⟩
  all_goals
    rintro rfl
    exact absurd h (by decide)

theorem isWordChar_of_numeral {cs : List Char} (h : Numeral cs) : ∀ c ∈ cs, isWordChar c = true :=
  fun c hc => of_isNumeralChar (fun _ => isWordChar_of_isDigit)
    (List.all_eq_true.mp (by decide)) (isNumeralChar_of_mem h c hc)

/-! ## Reading a numeral -/

theorem isPlain_toAscii {c : Char} (h : isNumeralChar c = true) :
    Number.isPlain (Number.toAscii c) = true := by
  have hmark : ∀ c ∈ ['.', 'e', 'E', '+', '-'], Number.isPlain (Number.toAscii c) = true :=
    List.all_eq_true.mp (by decide)
  refine of_isNumeralChar (fun c hc => ?_) hmark h
  have hascii : Decimal.isAsciiDigit (Number.toAscii c) = true := by
    rw [Number.isAsciiDigit_toAscii, hc]
  exact of_isRealChar (by decide) (isRealChar_of_digit hascii)

theorem isPlain_of_numeral {cs : List Char} (h : Numeral cs) :
    ∀ c ∈ cs.map Number.toAscii, Number.isPlain c = true := by
  simp only [List.mem_map]
  rintro _ ⟨c, hc, rfl⟩
  exact isPlain_toAscii (isNumeralChar_of_mem h c hc)

/-- Whether an integer has no more digits than can be read. -/
def Fits (cs : List Char) : Prop :=
  ∀ ds, cs = ds ∨ cs = '-' :: ds → (∀ c ∈ ds, isDigit c = true) → ds.length ≤ Number.digitLimit

theorem fits_of_length {cs : List Char} (h : cs.length ≤ Number.digitLimit) : Fits cs := by
  rintro ds (rfl | rfl) -
  · exact h
  · rw [List.length_cons] at h
    omega

theorem exists_integerDigits {cs : List Char} {minus : Bool} {vs : List Nat}
    (h : Number.integerDigits? cs = some (minus, vs)) :
    ∃ ds, cs = withSign minus ds ∧ IsDigits ds ∧ vs = ds.filterMap digitValue? := by
  unfold Number.integerDigits? at h
  split at h
  next sign ds hsplit =>
  split at h
  · next hds =>
    cases h
    refine ⟨ds, ?_, ⟨hds.1, List.all_eq_true.mp hds.2⟩, rfl⟩
    split at hsplit
    · cases hsplit
      rfl
    · cases hsplit
      rfl
  · cases h

theorem length_le_of_fits {minus : Bool} {ds : List Char} (h : Fits (withSign minus ds))
    (hds : IsDigits ds) : ds.length ≤ Number.digitLimit := by
  cases minus with
  | false => exact h ds (.inl rfl) hds.2
  | true => exact h ds (.inr rfl) hds.2

end Concise
end StackForest
