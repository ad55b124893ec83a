import StackForest.Binary64.Decimal
import StackForest.Text.Space
import Mathlib.Algebra.Group.Nat.Defs

/-!
# Runs of characters

A run of one class of characters ends where the text behind it begins with another one.
-/

namespace StackForest.Text

section
variable {p : Char → Bool} {cs r : List Char}

theorem takeWhile_run (hcs : ∀ c ∈ cs, p c = true) (hr : ∀ c ∈ r.head?, p c = false) :
    (cs ++ r).takeWhile p = cs := by
  rw [List.takeWhile_append_of_pos hcs]
  cases r with
  | nil => simp
  | cons c r => rw [List.takeWhile_cons_of_neg (by simp [hr c rfl]), List.append_nil]

theorem dropWhile_run (hcs : ∀ c ∈ cs, p c = true) (hr : ∀ c ∈ r.head?, p c = false) :
    (cs ++ r).dropWhile p = r := by
  rw [List.dropWhile_append_of_pos hcs]
  cases r with
  | nil => rfl
  | cons c r => rw [List.dropWhile_cons_of_neg (by simp [hr c rfl])]

end

theorem exists_run (p : Char → Bool) (cs : List Char) :
    ∃ run r, cs = run ++ r ∧ (∀ c ∈ run, p c = true) ∧ ∀ c ∈ r.head?, p c = false := by
  refine ⟨cs.takeWhile p, cs.dropWhile p, List.takeWhile_append_dropWhile.symm, ?_, ?_⟩
  · exact fun c hc => List.all_eq_true.mp List.all_takeWhile c hc
  · intro c hc
    have h := List.head?_dropWhile_not p cs
    rw [Option.mem_def.mp hc] at h
    simpa using h

theorem take_drop_run (p : Char → Bool) (cs : List Char) :
    (∀ c ∈ cs.take (cs.takeWhile p).length, p c = true) ∧
      ∀ c ∈ (cs.drop (cs.takeWhile p).length).head?, p c = false := by
  obtain ⟨run, r, rfl, hrun, hr⟩ := exists_run p cs
  rw [takeWhile_run hrun hr, List.take_left, List.drop_left]
  exact ⟨hrun, hr⟩

/-! ## Digits -/

theorem isAsciiDigit_iff {c : Char} :
    Decimal.isAsciiDigit c = true ↔ 0x30 ≤ c.toNat ∧ c.toNat ≤ 0x39 := by
  simp [Decimal.isAsciiDigit]

theorem isAsciiDigit_eq (c : Char) : Decimal.isAsciiDigit c = c.isDigit := by
  rw [Bool.eq_iff_iff, isAsciiDigit_iff]
  simp [Char.isDigit, UInt32.le_iff_toNat_le]

theorem digitValue?_ascii {c : Char} (h : Decimal.isAsciiDigit c = true) :
    digitValue? c = some (c.toNat - 0x30) := by
  rw [isAsciiDigit_iff] at h
  simp [digitValue?, digitZeros, h]

theorem isDigit_ascii {c : Char} (h : Decimal.isAsciiDigit c = true) : isDigit c = true := by
  rw [isDigit, digitValue?_ascii h]
  rfl

theorem isDigit_iff {c : Char} :
    isDigit c = true ↔ ∃ z ∈ digitZeros, z ≤ c.toNat ∧ c.toNat ≤ z + 9 := by
  simp [isDigit, digitValue?]

theorem isDigit_of_lt {c : Char} (h : c.toNat < 0x80) : isDigit c = Decimal.isAsciiDigit c := by
  have hzeros : ∀ z ∈ digitZeros, z < 0x80 → z = 0x30 := by decide
  rw [Bool.eq_iff_iff, isDigit_iff, isAsciiDigit_iff]
  constructor
  · rintro ⟨z, hz, hl, hu⟩
    obtain rfl := hzeros z hz (by omega)
    exact ⟨hl, hu⟩
  · intro hc
    exact ⟨0x30, by decide, hc⟩

theorem isSpace_of_isDigit {c : Char} (h : isDigit c = true) : isSpace c = false := by
  have hapart : ∀ z ∈ digitZeros, ∀ r ∈ spaceRanges, r.2 < z ∨ z + 9 < r.1 := by decide
  obtain ⟨z, hz, hl, hu⟩ := isDigit_iff.mp h
  refine List.any_eq_false.mpr fun r hr => ?_
  have := hapart z hz r hr
  simp only [Bool.and_eq_true, decide_eq_true_eq]
  omega

theorem isAsciiDigit_digitChar {c : Char} {d : Nat} (h : digitValue? c = some d) :
    Decimal.isAsciiDigit (digitChar d) = true := by
  have hdigits : ∀ d < 10, Decimal.isAsciiDigit (digitChar d) = true := by decide
  obtain ⟨z, hz, rfl⟩ := Option.map_eq_some_iff.mp h
  have hz' := List.find?_some hz
  simp only [Bool.and_eq_true, decide_eq_true_eq] at hz'
  exact hdigits _ (by omega)

/-! ## Numbers in digits -/

theorem ofAscii_eq (cs : List Char) : Decimal.ofAscii cs = Nat.ofDigitChars 10 cs 0 := by
  rw [Decimal.ofAscii, ofDigits, List.foldl_map, Nat.ofDigitChars_eq_foldl]
  rfl

theorem filterMap_digitValue? {cs : List Char} (h : ∀ c ∈ cs, Decimal.isAsciiDigit c = true) :
    cs.filterMap digitValue? = cs.map fun c => c.toNat - 0x30 := by
  induction cs with
  | nil => rfl
  | cons c cs ih =>
    rw [List.forall_mem_cons] at h
    rw [List.filterMap_cons, digitValue?_ascii h.1, ih h.2, List.map_cons]

theorem isAsciiDigit_of_mem_toDigits {n : Nat} {c : Char} (h : c ∈ Nat.toDigits 10 n) :
    Decimal.isAsciiDigit c = true := by
  rw [isAsciiDigit_eq]
  exact Nat.isDigit_of_mem_toDigits (by decide) (by decide) h

theorem ofAscii_toDigits (n : Nat) : Decimal.ofAscii (Nat.toDigits 10 n) = n := by
  rw [ofAscii_eq, Nat.ofDigitChars_ten_toDigits]

theorem ofAscii_append (cs ds : List Char) :
    Decimal.ofAscii (cs ++ ds) = Decimal.ofAscii cs * 10 ^ ds.length + Decimal.ofAscii ds := by
  rw [ofAscii_eq, Nat.ofDigitChars_append, Nat.ofDigitChars_eq_ofDigitChars_zero, Nat.mul_comm]
  simp only [ofAscii_eq]

theorem ofAscii_zeros (n : Nat) : Decimal.ofAscii (List.replicate n '0') = 0 := by
  rw [ofAscii_eq, Nat.ofDigitChars_replicate_zero, Nat.mul_zero]

end StackForest.Text
