import StackForest.Binary64.Shortest
import StackForest.Proofs.Binary64.Rounding
import StackForest.Proofs.Text.Run

/-!
# Reading the text of a binary64 number

A layout of digits is read as the decimal that it lays out (`readUnsigned?_layout`). The text of a
number was tried and reads back, or is the exact expansion (`readsAs_positiveText`).
-/

namespace StackForest

open Text

/-! ## Decimals -/

namespace Decimal

section
variable (negative : Bool) {whole fraction : List Char} (rest : List Char)

theorem readUnsigned?_whole (hw : ∀ c ∈ whole, isAsciiDigit c = true) (hne : whole ≠ [])
    (hr : ∀ c ∈ rest.head?, isAsciiDigit c = false) (hp : ∀ c ∈ rest.head?, c ≠ '.') :
    readUnsigned? negative (whole ++ rest) =
      (exponent? rest).map fun e => ⟨negative, ofAscii whole, e⟩ := by
  simp only [readUnsigned?, takeWhile_run hw hr, dropWhile_run hw hr]
  split
  · next r => exact absurd rfl (hp '.' rfl)
  · simp [hne]

theorem readUnsigned?_around (hw : ∀ c ∈ whole, isAsciiDigit c = true)
    (hf : ∀ c ∈ fraction, isAsciiDigit c = true) (hne : ¬(whole = [] ∧ fraction = []))
    (hr : ∀ c ∈ rest.head?, isAsciiDigit c = false) :
    readUnsigned? negative (whole ++ '.' :: (fraction ++ rest)) =
      (exponent? rest).map fun e =>
        ⟨negative, ofAscii (whole ++ fraction), e - fraction.length⟩ := by
  have hd : ∀ c ∈ ('.' :: (fraction ++ rest)).head?, isAsciiDigit c = false := by
    simp only [List.head?_cons, Option.mem_some_iff, forall_eq']
    decide
  simp only [readUnsigned?, takeWhile_run hw hd, dropWhile_run hw hd, takeWhile_run hf hr,
    dropWhile_run hf hr, hne, if_false]

theorem readUnsigned?_point (hw : ∀ c ∈ whole, isAsciiDigit c = true)
    (hf : ∀ c ∈ fraction, isAsciiDigit c = true) (hne : fraction ≠ [])
    (hr : ∀ c ∈ rest.head?, isAsciiDigit c = false) :
    readUnsigned? negative (whole ++ '.' :: (fraction ++ rest)) =
      (exponent? rest).map fun e => ⟨negative, ofAscii (whole ++ fraction), e - fraction.length⟩ :=
  readUnsigned?_around negative rest hw hf (fun h => hne h.2) hr

theorem readUnsigned?_fraction (hw : ∀ c ∈ whole, isAsciiDigit c = true)
    (hf : ∀ c ∈ fraction, isAsciiDigit c = true) (hne : fraction ≠ []) :
    readUnsigned? negative (whole ++ '.' :: fraction) =
      some ⟨negative, ofAscii (whole ++ fraction), -fraction.length⟩ := by
  have h := readUnsigned?_point negative [] hw hf hne (by simp)
  rw [List.append_nil, exponent?, Option.map_some, Int.zero_sub] at h
  exact h

end

theorem exponent?_of_splitSign {e : Char} {r ds : List Char} {minus : Bool}
    (he : e = 'e' ∨ e = 'E') (hr : splitSign r = (minus, ds)) (hne : ds ≠ [])
    (hds : ∀ c ∈ ds, isAsciiDigit c = true) :
    exponent? (e :: r) = some (if minus then -(ofAscii ds : Int) else ofAscii ds) := by
  rw [exponent?, hr]
  exact if_pos ⟨he, hne, List.all_eq_true.mpr hds⟩

theorem exponent?_power {ds : List Char} (hne : ds ≠ []) (hds : ∀ c ∈ ds, isAsciiDigit c = true)
    (minus : Bool) : exponent? ('e' :: (if minus then '-' else '+') :: ds) =
      some (if minus then -(ofAscii ds : Int) else ofAscii ds) := by
  refine exponent?_of_splitSign (.inl rfl) ?_ hne hds
  cases minus <;> rfl

end Decimal

namespace Binary64

theorem isAsciiDigit_zero : ∀ c ∈ ['0'], Decimal.isAsciiDigit c = true :=
  List.forall_mem_singleton.mpr (by decide)

theorem isAsciiDigit_of_mem_zeros {n : Nat} {c : Char} (h : c ∈ zeros n) :
    Decimal.isAsciiDigit c = true := by
  rw [List.eq_of_mem_replicate h]
  decide

def powerText (power : Int) : List Char :=
  'e' :: (if power < 0 then '-' else '+') ::
    (zeros (2 - (Nat.toDigits 10 power.natAbs).length) ++ Nat.toDigits 10 power.natAbs)

theorem exponent?_powerText (power : Int) : Decimal.exponent? (powerText power) = some power := by
  unfold powerText
  generalize hn : 2 - (Nat.toDigits 10 power.natAbs).length = n
  have hne : zeros n ++ Nat.toDigits 10 power.natAbs ≠ [] := by simp [Nat.toDigits_ne_nil]
  have hall : ∀ c ∈ zeros n ++ Nat.toDigits 10 power.natAbs, Decimal.isAsciiDigit c = true := by
    rw [List.forall_mem_append]
    exact ⟨fun _ => isAsciiDigit_of_mem_zeros, fun _ => isAsciiDigit_of_mem_toDigits⟩
  have hval : Decimal.ofAscii (zeros n ++ Nat.toDigits 10 power.natAbs) = power.natAbs := by
    rw [ofAscii_append, zeros, ofAscii_zeros, Nat.zero_mul, Nat.zero_add, ofAscii_toDigits]
  by_cases hp : power < 0
  · have h := Decimal.exponent?_power hne hall true
    rw [if_pos rfl, if_pos rfl, hval] at h
    rw [if_pos hp, h]
    congr 1; omega
  · have h := Decimal.exponent?_power hne hall false
    rw [if_neg Bool.false_ne_true, if_neg Bool.false_ne_true, hval] at h
    rw [if_neg hp, h]
    congr 1; omega

def mantissa : List Char → List Char
  | [] => []
  | d :: r => if r = [] then [d] else d :: '.' :: r

/-- The four shapes of a layout: behind `0.`, in front of `.0`, around a point, or with a power
of ten. -/
theorem layout_cases (ds : List Char) (point : Int) :
    (point ≤ 0 ∧ layout ds point = ['0'] ++ '.' :: (zeros (-point).toNat ++ ds)) ∨
    (0 < point ∧ ds.length ≤ point.toNat ∧
      layout ds point = ds ++ zeros (point.toNat - ds.length) ++ '.' :: ['0']) ∨
    (0 < point ∧ point.toNat < ds.length ∧
      layout ds point = ds.take point.toNat ++ '.' :: ds.drop point.toNat) ∨
    layout ds point = mantissa ds ++ powerText (point - 1) := by
  unfold layout
  split
  · simp only
    split
    · next hp => exact .inl ⟨hp, rfl⟩
    next hp =>
    split
    · next hl => exact .inr (.inl ⟨Int.not_le.mp hp, hl, rfl⟩)
    · next hl => exact .inr (.inr (.inl ⟨Int.not_le.mp hp, Nat.lt_of_not_le hl, rfl⟩))
  · refine .inr (.inr (.inr ?_))
    cases ds <;> simp [mantissa, powerText]

theorem head?_powerText (power : Int) : (powerText power).head? = some 'e' := rfl

section
variable {ds : List Char} (hds : ∀ c ∈ ds, Decimal.isAsciiDigit c = true) (negative : Bool)
include hds

theorem readUnsigned?_small {point : Int} (hne : ds ≠ []) (h : point ≤ 0) :
    Decimal.readUnsigned? negative (['0'] ++ '.' :: (zeros (-point).toNat ++ ds)) =
      some ⟨negative, Decimal.ofAscii ds, point - ds.length⟩ := by
  have hf : ∀ c ∈ zeros (-point).toNat ++ ds, Decimal.isAsciiDigit c = true := by
    rw [List.forall_mem_append]
    exact ⟨fun _ => isAsciiDigit_of_mem_zeros, hds⟩
  have hval : Decimal.ofAscii (['0'] ++ (zeros (-point).toNat ++ ds)) = Decimal.ofAscii ds := by
    rw [ofAscii_append, ofAscii_append, zeros, ofAscii_zeros]
    simp [Decimal.ofAscii, ofDigits]
  have hlen : -((zeros (-point).toNat ++ ds).length : Int) = point - ds.length := by
    simp only [List.length_append, zeros, List.length_replicate]
    omega
  rw [Decimal.readUnsigned?_fraction negative isAsciiDigit_zero hf (by simp [hne]), hval, hlen]

theorem readUnsigned?_large (n : Nat) :
    Decimal.readUnsigned? negative (ds ++ zeros n ++ '.' :: ['0']) =
      some ⟨negative, Decimal.ofAscii ds * 10 ^ (n + 1), -1⟩ := by
  have hw : ∀ c ∈ ds ++ zeros n, Decimal.isAsciiDigit c = true := by
    rw [List.forall_mem_append]
    exact ⟨hds, fun _ => isAsciiDigit_of_mem_zeros⟩
  have hval : Decimal.ofAscii (ds ++ zeros n ++ ['0']) = Decimal.ofAscii ds * 10 ^ (n + 1) := by
    rw [ofAscii_append, ofAscii_append, zeros, ofAscii_zeros, List.length_replicate,
      Nat.add_zero, Nat.pow_succ, Nat.mul_assoc]
    rfl
  have h := Decimal.readUnsigned?_fraction negative hw isAsciiDigit_zero (List.cons_ne_nil '0' [])
  rw [hval] at h
  exact h

theorem readUnsigned?_inner {n : Nat} (hn : n < ds.length) :
    Decimal.readUnsigned? negative (ds.take n ++ '.' :: ds.drop n) =
      some ⟨negative, Decimal.ofAscii ds, n - ds.length⟩ := by
  have hw : ∀ c ∈ ds.take n, Decimal.isAsciiDigit c = true :=
    fun c hc => hds c (List.mem_of_mem_take hc)
  have hf : ∀ c ∈ ds.drop n, Decimal.isAsciiDigit c = true :=
    fun c hc => hds c (List.mem_of_mem_drop hc)
  have h := Decimal.readUnsigned?_fraction negative hw hf (by simp [hn])
  rw [List.take_append_drop] at h
  rw [h, List.length_drop]
  congr 2; omega

theorem readUnsigned?_scientific (hne : ds ≠ []) (power : Int) :
    Decimal.readUnsigned? negative (mantissa ds ++ powerText power) =
      some ⟨negative, Decimal.ofAscii ds, power - (ds.length - 1)⟩ := by
  have hr : ∀ c ∈ (powerText power).head?, Decimal.isAsciiDigit c = false := by
    simp only [head?_powerText, Option.mem_some_iff, forall_eq']
    decide
  have hp : ∀ c ∈ (powerText power).head?, c ≠ '.' := by simp [head?_powerText]
  obtain ⟨d, r, rfl⟩ := List.exists_cons_of_ne_nil hne
  rw [mantissa]
  by_cases h0 : r = []
  · subst h0
    rw [if_pos rfl, Decimal.readUnsigned?_whole negative _ hds hne hr hp, exponent?_powerText]
    simp
  · rw [if_neg h0]
    have hw : ∀ c ∈ [d], Decimal.isAsciiDigit c = true := by
      intro c hc
      exact hds c (List.mem_cons.mpr (.inl (List.mem_singleton.mp hc)))
    have hf : ∀ c ∈ r, Decimal.isAsciiDigit c = true := fun c hc => hds c (by simp [hc])
    have h := Decimal.readUnsigned?_point negative _ hw hf h0 hr
    rw [exponent?_powerText] at h
    simpa using h

theorem readUnsigned?_layout (hne : ds ≠ []) (point : Int) :
    ∃ k : Nat, Decimal.readUnsigned? negative (layout ds point) =
      some ⟨negative, Decimal.ofAscii ds * 10 ^ k, point - ds.length - k⟩ := by
  rcases layout_cases ds point with ⟨hp, h⟩ | ⟨hp, hlen, h⟩ | ⟨hp, hlen, h⟩ | h
  · refine ⟨0, ?_⟩
    rw [h, readUnsigned?_small hds negative hne hp]
    simp
  · refine ⟨point.toNat - ds.length + 1, ?_⟩
    rw [h, readUnsigned?_large hds negative]
    congr 2; omega
  · refine ⟨0, ?_⟩
    rw [h, readUnsigned?_inner hds negative hlen]
    simp; omega
  · refine ⟨0, ?_⟩
    rw [h, readUnsigned?_scientific hds negative hne]
    simp

end

/-! ## The characters of a layout -/

def isRealChar (c : Char) : Bool :=
  Decimal.isAsciiDigit c || c == '.' || c == 'e' || c == '+' || c == '-'

def realChars : List Char :=
  ['0', '1', '2', '3', '4', '5', '6', '7', '8', '9', '.', 'e', '+', '-']

theorem mem_realChars {c : Char} (h : isRealChar c = true) : c ∈ realChars := by
  have hdigits : ∀ n ≤ 0x39, 0x30 ≤ n → Char.ofNat n ∈ realChars := by decide
  simp only [isRealChar, Bool.or_eq_true, beq_iff_eq, isAsciiDigit_iff] at h
  rcases h with (((⟨hl, hu⟩ | rfl) | rfl) | rfl) | rfl
  · rw [← Char.ofNat_toNat c]
    exact hdigits c.toNat hu hl
  all_goals decide

theorem of_isRealChar {p : Char → Bool} (hp : realChars.all p = true) {c : Char}
    (h : isRealChar c = true) : p c = true :=
  List.all_eq_true.mp hp c (mem_realChars h)

/-- What every layout of digits is: digits with a point or a power of ten, and no sign in front. -/
structure IsRealText (cs : List Char) : Prop where
  chars : ∀ c ∈ cs, isRealChar c = true
  unsigned : ∀ c ∈ cs.head?, c ≠ '-' ∧ c ≠ '+'
  marked : ∃ c ∈ cs, c = '.' ∨ c = 'e'

theorem isRealChar_of_digit {c : Char} (h : Decimal.isAsciiDigit c = true) :
    isRealChar c = true := by
  simp [isRealChar, h]

theorem isRealChar_zero : ∀ c ∈ ['0'], isRealChar c = true :=
  List.forall_mem_singleton.mpr (by decide)

theorem unsigned_of_digit {c : Char} (h : Decimal.isAsciiDigit c = true) : c ≠ '-' ∧ c ≠ '+' := by
  constructor <;> (rintro rfl; revert h; decide)

theorem isRealText_append {ds r : List Char} {c : Char}
    (hds : ∀ x ∈ ds, Decimal.isAsciiDigit x = true) (hc : c = '.' ∨ c = 'e')
    (hr : ∀ x ∈ r, isRealChar x = true) : IsRealText (ds ++ c :: r) where
  chars := by
    intro x hx
    rcases List.mem_append.mp hx with hx | hx
    · exact isRealChar_of_digit (hds x hx)
    rcases List.mem_cons.mp hx with rfl | hx
    · rcases hc with rfl | rfl <;> decide
    · exact hr x hx
  unsigned := by
    cases ds with
    | nil =>
      rcases hc with rfl | rfl <;> simp
    | cons d ds =>
      simpa using unsigned_of_digit (hds d (by simp))
  marked := ⟨c, by simp, hc⟩

theorem isRealChar_of_mem_power {power : Int} {c : Char} (h : c ∈ powerText power) :
    isRealChar c = true := by
  simp only [powerText, List.mem_cons, List.mem_append] at h
  rcases h with rfl | rfl | h | h
  · decide
  · split <;> decide
  · exact isRealChar_of_digit (isAsciiDigit_of_mem_zeros h)
  · exact isRealChar_of_digit (isAsciiDigit_of_mem_toDigits h)

theorem isRealText_layout {ds : List Char} (hds : ∀ c ∈ ds, Decimal.isAsciiDigit c = true)
    (point : Int) : IsRealText (layout ds point) := by
  have hreal : ∀ c ∈ ds, isRealChar c = true := fun c hc => isRealChar_of_digit (hds c hc)
  rcases layout_cases ds point with ⟨-, h⟩ | ⟨-, -, h⟩ | ⟨-, -, h⟩ | h
  · rw [h]
    refine isRealText_append isAsciiDigit_zero (.inl rfl) (List.forall_mem_append.mpr ⟨?_, hreal⟩)
    exact fun c hc => isRealChar_of_digit (isAsciiDigit_of_mem_zeros hc)
  · rw [h]
    refine isRealText_append (List.forall_mem_append.mpr ⟨hds, ?_⟩) (.inl rfl) isRealChar_zero
    exact fun c hc => isAsciiDigit_of_mem_zeros hc
  · rw [h]
    exact isRealText_append (fun c hc => hds c (List.mem_of_mem_take hc)) (.inl rfl)
      fun c hc => hreal c (List.mem_of_mem_drop hc)
  · rw [h]
    have hpower : ∀ c ∈ (powerText (point - 1)).tail, isRealChar c = true :=
      fun c hc => isRealChar_of_mem_power (List.mem_of_mem_tail hc)
    cases ds with
    | nil => exact isRealText_append hds (.inr rfl) hpower
    | cons d r =>
      rw [List.forall_mem_cons] at hds hreal
      have hd : ∀ c ∈ [d], Decimal.isAsciiDigit c = true := List.forall_mem_singleton.mpr hds.1
      rw [mantissa]
      by_cases h0 : r = []
      · rw [if_pos h0]
        exact isRealText_append hd (.inr rfl) hpower
      · rw [if_neg h0]
        show IsRealText ([d] ++ '.' :: (r ++ powerText (point - 1)))
        refine isRealText_append hd (.inl rfl) (List.forall_mem_append.mpr ⟨hreal.2, ?_⟩)
        exact fun c hc => isRealChar_of_mem_power hc

/-! ## The text of a number -/

theorem exists_zeros (cs : List Char) :
    ∃ z, cs = (cs.reverse.dropWhile (· == '0')).reverse ++ zeros z := by
  have hz : cs.reverse.takeWhile (· == '0') =
      zeros (cs.reverse.takeWhile (· == '0')).length := by
    refine List.eq_replicate_of_mem fun c hc => ?_
    simpa using List.all_eq_true.mp List.all_takeWhile c hc
  refine ⟨(cs.reverse.takeWhile (· == '0')).length, ?_⟩
  have h := congrArg List.reverse
    (List.takeWhile_append_dropWhile (p := (· == '0')) (l := cs.reverse))
  rw [List.reverse_append, List.reverse_reverse, hz, zeros, List.reverse_replicate] at h
  rw [zeros]
  exact h.symm

theorem isAsciiDigit_of_mem_significant {n : Nat} {c : Char}
    (h : c ∈ ((Nat.toDigits 10 n).reverse.dropWhile (· == '0')).reverse) :
    Decimal.isAsciiDigit c = true := by
  have h' := (List.dropWhile_sublist _).subset (List.mem_reverse.mp h)
  exact isAsciiDigit_of_mem_toDigits (List.mem_reverse.mp h')

theorem isRealText_decimalText (n : Nat) (e : Int) : IsRealText (decimalText n e) :=
  isRealText_layout (fun _ hc => isAsciiDigit_of_mem_significant hc) _

theorem readUnsigned?_decimalText {n : Nat} (hn : 0 < n) (e : Int) (negative : Bool) :
    ∃ d, Decimal.readUnsigned? negative (decimalText n e) = some d ∧ d.negative = negative ∧
      unitsOfDecimal d = n * 10 ^ e * unitsPerOne := by
  unfold decimalText
  simp only
  obtain ⟨z, hz⟩ := exists_zeros (Nat.toDigits 10 n)
  have hsig : ∀ c ∈ ((Nat.toDigits 10 n).reverse.dropWhile (· == '0')).reverse,
      Decimal.isAsciiDigit c = true := fun _ hc => isAsciiDigit_of_mem_significant hc
  generalize ((Nat.toDigits 10 n).reverse.dropWhile (· == '0')).reverse = ds at hz hsig
  have hval : n = Decimal.ofAscii ds * 10 ^ z := by
    rw [← ofAscii_toDigits n, hz, ofAscii_append, zeros, ofAscii_zeros, List.length_replicate,
      Nat.add_zero]
  have hne : ds ≠ [] := by
    rintro rfl
    simp [Decimal.ofAscii, ofDigits] at hval
    omega
  have hlen : (Nat.toDigits 10 n).length = ds.length + z := by
    rw [hz, List.length_append, zeros, List.length_replicate]
  obtain ⟨k, hk⟩ := readUnsigned?_layout hsig negative hne ((Nat.toDigits 10 n).length + e)
  refine ⟨_, hk, rfl, ?_⟩
  have hexp : ((Nat.toDigits 10 n).length : Int) + e - ds.length - k = z + e - k := by omega
  rw [unitsOfDecimal, hexp, hval]
  push_cast
  rw [zpow_sub₀ (by norm_num), zpow_add₀ (by norm_num), zpow_natCast, zpow_natCast]
  field_simp

theorem splitSign_of_unsigned {cs : List Char} (h : ∀ c ∈ cs.head?, c ≠ '-' ∧ c ≠ '+') :
    Decimal.splitSign cs = (false, cs) := by
  unfold Decimal.splitSign
  split
  · exact absurd rfl (h _ rfl).1
  · exact absurd rfl (h _ rfl).2
  · rfl

/-- Units of `2 ^ (-n)` are, each of them, `5 ^ n` units of `10 ^ (-n)`. -/
theorem exact_expansion (units n : Nat) :
    ((units * Nat.pow 5 n : Nat) : ℚ) * (10 : ℚ) ^ (-n : Int) * 2 ^ n = units := by
  have h10 : (10 : ℚ) ^ n = 5 ^ n * 2 ^ n := by
    rw [← mul_pow]
    norm_num
  rw [zpow_neg, zpow_natCast, h10, Nat.pow_eq]
  push_cast
  field_simp

/-- The exact expansion reads back. How many powers of two the units are below one is left open,
so that no step computes them. -/
theorem readsAs_expansion {rank n : Nat} {e : Int} (h0 : 0 < rank) (hr : rank < rankCount)
    (hone : (unitsPerOne : ℚ) = 2 ^ n) (he : e = -n) :
    readsAs rank (decimalText (unitsOfRank rank * Nat.pow 5 n) e) = true := by
  have hpos : 0 < unitsOfRank rank * Nat.pow 5 n :=
    Nat.mul_pos (unitsOfRank_pos h0) (Nat.pow_pos (by decide))
  obtain ⟨d, hd, hneg, hunits⟩ := readUnsigned?_decimalText hpos e false
  have hround : ofDecimal d = ofRank false rank := by
    rw [← hneg]
    refine ofDecimal_of_units hr (hunits.trans ?_)
    rw [hone, he]
    exact exact_expansion _ n
  have hread : Decimal.read? (decimalText (unitsOfRank rank * Nat.pow 5 n) e) = some d := by
    rw [Decimal.read?, splitSign_of_unsigned (isRealText_decimalText _ e).unsigned]
    exact hd
  rw [readsAs, hread]
  simp [hround]

theorem readsAs_positiveText {rank : Nat} (h0 : 0 < rank) (hr : rank < rankCount) :
    readsAs rank (positiveText rank) = true := by
  unfold positiveText
  simp only
  split
  · next cs h => exact List.find?_some h
  · generalize hn : 1074 = n
    have hone : (unitsPerOne : ℚ) = 2 ^ n := by rw [← hn, cast_unitsPerOne]
    have he : (-1074 : Int) = -n := by rw [← hn]; rfl
    exact readsAs_expansion h0 hr hone he

theorem isRealText_positiveText (rank : Nat) : IsRealText (positiveText rank) := by
  unfold positiveText
  simp only
  split
  · next cs h =>
    obtain ⟨c, -, rfl⟩ := List.mem_map.mp (List.mem_of_find?_eq_some h)
    exact isRealText_decimalText c.1 c.2
  · exact isRealText_decimalText _ _

/-! ## Signs -/

def withSign (negative : Bool) (cs : List Char) : List Char :=
  if negative then '-' :: cs else cs

theorem splitSign_withSign (negative : Bool) {cs : List Char}
    (h : ∀ c ∈ cs.head?, c ≠ '-' ∧ c ≠ '+') :
    Decimal.splitSign (withSign negative cs) = (negative, cs) := by
  cases negative with
  | false => exact splitSign_of_unsigned h
  | true => rfl

theorem readUnsigned?_sign (negative : Bool) (cs : List Char) :
    Decimal.readUnsigned? negative cs =
      (Decimal.readUnsigned? false cs).map fun d => { d with negative := negative } := by
  unfold Decimal.readUnsigned?
  simp only
  split
  all_goals
    split
    · rfl
    · rw [Option.map_map]
      rfl

theorem ofRank_of_lt (negative : Bool) {rank : Nat} (h : rank < rankCount) :
    ofRank negative rank = finite negative ⟨rank, h⟩ := dif_pos h

theorem infinite_eq_ofRank (negative : Bool) : infinite negative = ofRank negative rankCount := by
  rw [ofRank, dif_neg (Nat.lt_irrefl _)]

theorem exists_rank (d : Decimal) :
    ∃ rank, ∀ negative, ofDecimal { d with negative := negative } = ofRank negative rank := by
  unfold ofDecimal
  simp only
  split
  · exact ⟨0, fun _ => rfl⟩
  split
  · exact ⟨rankCount, infinite_eq_ofRank⟩
  split
  · exact ⟨0, fun _ => rfl⟩
  split
  · exact ⟨_, fun _ => rfl⟩
  · exact ⟨_, fun _ => rfl⟩

theorem ofRank_injective {negative : Bool} {r s : Nat} (hs : s < rankCount)
    (h : ofRank negative r = ofRank negative s) : r = s := by
  rw [ofRank_of_lt negative hs] at h
  unfold ofRank at h
  split at h
  · injection h with _ h
    injection h
  · cases h

theorem ofDecimal_sign {d : Decimal} {rank : Nat} (hr : rank < rankCount)
    (h : ofDecimal { d with negative := false } = ofRank false rank) (negative : Bool) :
    ofDecimal { d with negative := negative } = ofRank negative rank := by
  obtain ⟨r, hd⟩ := exists_rank d
  rw [hd] at h ⊢
  rw [ofRank_injective hr h]

def magnitudeText (rank : Nat) : List Char :=
  if rank = 0 then ['0', '.', '0'] else positiveText rank

theorem isRealText_magnitudeText (rank : Nat) : IsRealText (magnitudeText rank) := by
  unfold magnitudeText
  split
  · exact isRealText_append isAsciiDigit_zero (.inl rfl) isRealChar_zero
  · exact isRealText_positiveText rank

theorem readUnsigned?_magnitudeText (negative : Bool) {rank : Nat} (hr : rank < rankCount) :
    ∃ d, Decimal.readUnsigned? negative (magnitudeText rank) = some d ∧
      ofDecimal d = ofRank negative rank := by
  unfold magnitudeText
  split
  · next h0 =>
    subst h0
    exact ⟨⟨negative, 0, -1⟩, rfl, rfl⟩
  · next h0 =>
    have hreads := readsAs_positiveText (Nat.pos_of_ne_zero h0) hr
    rw [readsAs, Decimal.read?, splitSign_of_unsigned (isRealText_positiveText rank).unsigned]
      at hreads
    simp only at hreads
    -- the text is one of a positive number; the sign goes past the reading of its digits
    split at hreads
    · next d hd =>
      have hfalse := readUnsigned?_sign false (positiveText rank)
      rw [hd, Option.map_some, Option.some.injEq] at hfalse
      rw [readUnsigned?_sign, hd]
      refine ⟨_, rfl, ofDecimal_sign hr ?_ negative⟩
      rw [← hfalse]
      exact beq_iff_eq.mp hreads
    · exact absurd hreads Bool.false_ne_true

end Binary64
end StackForest
