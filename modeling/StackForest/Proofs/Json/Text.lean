import StackForest.Json.Lexeme
import StackForest.Json.Printer

/-!
# Reading a written JSON string

What `escape` writes for a character is read as parts that join to this character
(`exists_parts`).
-/

namespace StackForest.Json

open Text

/-! ## Four-digit escapes -/

theorem hexValue?_hexDigit {d : Nat} (h : d < 16) : hexValue? (hexDigit d) = some d := by
  have hdigits : ∀ d < 16, hexValue? (hexDigit d) = some d := by decide
  exact hdigits d h

theorem scanString_unicodeEscape (opening offset : Nat) (acc : List Part) {n : Nat}
    (hn : n < 0x10000) {r : List Char} (hr : r ≠ []) :
    scanString opening offset acc .plain (unicodeEscape n ++ r) =
      scanString opening (offset + (unicodeEscape n).length) (.unit n :: acc) .plain r := by
  have hdigit (k : Nat) : hexValue? (hexDigit (k % 16)) = some (k % 16) :=
    hexValue?_hexDigit (Nat.mod_lt k (by decide))
  have hvalue : 16 * (16 * (16 * (n / 16 / 16 / 16 % 16) + n / 16 / 16 % 16) + n / 16 % 16) +
      n % 16 = n := by omega
  simp [unicodeEscape, hex, scanString, hdigit, hr, hvalue]

theorem toNat_lt (c : Char) : c.toNat < 0x110000 := by
  have := c.valid
  simp only [UInt32.isValidChar, Nat.isValidChar] at this
  simp only [Char.toNat]
  omega

theorem joinParts?_unit {c : Char} (hc : c.toNat < 0x10000) (ps : List Part) :
    joinParts? (.unit c.toNat :: ps) = (joinParts? ps).map (c :: ·) := by
  have hvalid : c.toNat < 0xD800 ∨ 0xDFFF < c.toNat := by
    have := c.valid
    simp only [UInt32.isValidChar, Nat.isValidChar] at this
    simp only [Char.toNat]
    omega
  have hhigh : isHighSurrogate c.toNat = false := by simp [isHighSurrogate]; omega
  have hlow : isLowSurrogate c.toNat = false := by simp [isLowSurrogate]; omega
  have hunit : ofUnit? c.toNat = some c := by simp [ofUnit?, hhigh, hlow]
  cases ps with
  | nil => simp [joinParts?, hunit]
  | cons p ps =>
    cases p with
    | char d => simp [joinParts?, hunit]
    | unit low =>
      rw [joinParts?, hhigh, Bool.false_and, if_neg Bool.false_ne_true, hunit]
      rfl

theorem joinParts?_surrogates {c : Char} (hc : 0x10000 ≤ c.toNat) (ps : List Part) :
    joinParts? (.unit (0xD800 + (c.toNat - 0x10000) / 0x400) ::
      .unit (0xDC00 + c.toNat % 0x400) :: ps) = (joinParts? ps).map (c :: ·) := by
  have hlt := toNat_lt c
  have hhigh : isHighSurrogate (0xD800 + (c.toNat - 0x10000) / 0x400) = true := by
    simp [isHighSurrogate]; omega
  have hlow : isLowSurrogate (0xDC00 + c.toNat % 0x400) = true := by
    simp [isLowSurrogate]; omega
  have hvalue : 0x10000 + (0xD800 + (c.toNat - 0x10000) / 0x400 - 0xD800) * 0x400 +
      (0xDC00 + c.toNat % 0x400 - 0xDC00) = c.toNat := by omega
  rw [joinParts?, hhigh, hlow, Bool.and_self, if_pos rfl, hvalue, Char.ofNat_toNat]

/-! ## Characters and texts -/

theorem exists_parts (c : Char) : ∃ ps,
    (∀ opening offset acc r, r ≠ [] → scanString opening offset acc .plain (escape c ++ r) =
      scanString opening (offset + (escape c).length) (ps.reverse ++ acc) .plain r) ∧
    ∀ qs, joinParts? (ps ++ qs) = (joinParts? qs).map (c :: ·) := by
  have hshort (e : Char) (he : resolve? e = some c) (hu : e ≠ 'u') : ∃ ps,
      (∀ opening offset acc r, r ≠ [] → scanString opening offset acc .plain (['\\', e] ++ r) =
        scanString opening (offset + 2) (ps.reverse ++ acc) .plain r) ∧
      ∀ qs, joinParts? (ps ++ qs) = (joinParts? qs).map (c :: ·) :=
    ⟨[.char c], fun _ _ _ _ _ => by simp [scanString, he, hu], fun _ => by simp [joinParts?]⟩
  unfold escape
  simp only
  split
  · next h =>
    refine hshort c ?_ ?_
    · rcases h with rfl | rfl <;> rfl
    · rcases h with rfl | rfl <;> decide
  split
  · next h => exact hshort 'n' (h ▸ rfl) (by decide)
  split
  · next h => exact hshort 'r' (h ▸ rfl) (by decide)
  split
  · next h => exact hshort 't' (h ▸ rfl) (by decide)
  split
  · next h => exact hshort 'b' (h ▸ rfl) (by decide)
  split
  · next h => exact hshort 'f' (h ▸ rfl) (by decide)
  split
  · next hq _ _ _ _ _ h =>
    refine ⟨[.char c], fun opening offset acc r _ => ?_, fun _ => by simp [joinParts?]⟩
    rw [not_or] at hq
    rw [List.singleton_append, scanString, if_neg hq.1, if_neg hq.2, if_neg (by omega)]
    rfl
  split
  · next h =>
    refine ⟨[.unit c.toNat], fun opening offset acc r hr => ?_, joinParts?_unit h⟩
    exact scanString_unicodeEscape opening offset acc h hr
  · next h =>
    have hc : 0x10000 ≤ c.toNat := Nat.le_of_not_lt h
    have hlt := toNat_lt c
    refine ⟨[.unit (0xD800 + (c.toNat - 0x10000) / 0x400), .unit (0xDC00 + c.toNat % 0x400)],
      fun opening offset acc r hr => ?_, joinParts?_surrogates hc⟩
    rw [List.append_assoc, scanString_unicodeEscape opening offset acc (by omega) (by simp [hr]),
      scanString_unicodeEscape _ _ _ (by omega) hr, List.length_append, Nat.add_assoc]
    rfl

theorem exists_parts_flatMap (opening : Nat) (cs : List Char) : ∃ ps, joinParts? ps = some cs ∧
    ∀ offset acc r, scanString opening offset acc .plain (cs.flatMap escape ++ '"' :: r) =
      .ok (acc.reverse ++ ps, offset + (cs.flatMap escape).length + 1) := by
  induction cs with
  | nil => exact ⟨[], rfl, fun offset acc r => by simp [scanString]⟩
  | cons c cs ih =>
    obtain ⟨ps, hscan, hjoin⟩ := exists_parts c
    obtain ⟨qs, hqs, hrest⟩ := ih
    refine ⟨ps ++ qs, by rw [hjoin, hqs, Option.map_some], fun offset acc r => ?_⟩
    rw [List.flatMap_cons, List.append_assoc, hscan _ _ _ _ (by simp), hrest]
    simp [Nat.add_assoc]

theorem first_quote (s : String) (offset : Nat) (r : List Char) :
    first offset '"' (s.toList.flatMap escape ++ '"' :: r) =
      (.scalar (.text s), (s.toList.flatMap escape ++ ['"']).length) := by
  obtain ⟨ps, hjoin, hscan⟩ := exists_parts_flatMap offset s.toList
  rw [first, if_neg (by decide), if_pos rfl, hscan]
  simp only [List.reverse_nil, List.nil_append, ofParts, hjoin, String.ofList_toList]
  simp
  omega

end StackForest.Json
