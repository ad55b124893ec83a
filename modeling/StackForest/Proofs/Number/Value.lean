import StackForest.Proofs.Concise.Numeral
import Mathlib.Data.Nat.Digits.Defs

/-!
# What numerals write

A numeral in the digits of any script writes one decimal. Digits only are read as this integer,
unless they are too many (`read_integer`), and every numeral can be read as the binary64 number
nearest to its decimal (`real?_of_writes`).
-/

namespace StackForest

open Text Binary64 Concise

namespace Number

/-- The number that digits of any script write in base ten, the last one counting ones. -/
def baseTen (ds : List Char) : Nat := Nat.ofDigits 10 (ds.filterMap digitValue?).reverse

inductive WritesPower : List Char → Int → Prop
  | nil : WritesPower [] 0
  | plus {e sign ds} : e = 'e' ∨ e = 'E' → sign = [] ∨ sign = ['+'] → IsDigits ds →
    WritesPower (e :: (sign ++ ds)) (baseTen ds)
  | minus {e ds} : e = 'e' ∨ e = 'E' → IsDigits ds →
    WritesPower (e :: '-' :: ds) (-(baseTen ds : Int))

/-- The digits on both sides of the point, and how many stand behind it. -/
inductive WritesMantissa : List Char → List Char → Nat → Prop
  | whole {ds} : IsDigits ds → WritesMantissa ds ds 0
  | point {ds es} : IsDigits ds → (∀ c ∈ es, isDigit c = true) →
    WritesMantissa (ds ++ '.' :: es) (ds ++ es) es.length
  | fraction {es} : IsDigits es → WritesMantissa ('.' :: es) es es.length

inductive Writes : List Char → Decimal → Prop
  | mk {minus m ds places p e} : WritesMantissa m ds places → WritesPower p e →
    Writes (withSign minus (m ++ p)) ⟨minus, baseTen ds, e - places⟩

theorem exists_writesPower {p : List Char} (h : Power p) : ∃ e, WritesPower p e := by
  cases h with
  | nil => exact ⟨0, .nil⟩
  | cons he hs hds =>
    rcases hs with rfl | rfl | rfl
    · exact ⟨_, .plus he (.inl rfl) hds⟩
    · exact ⟨_, .plus he (.inr rfl) hds⟩
    · exact ⟨_, .minus he hds⟩

theorem power_of_writesPower {p : List Char} {e : Int} (h : WritesPower p e) : Power p := by
  cases h with
  | nil => exact .nil
  | plus he hs hds => exact .cons he (hs.imp id .inl) hds
  | minus he hds => exact @Power.cons _ ['-'] _ he (.inr (.inr rfl)) hds

theorem exists_writesMantissa {m : List Char} (h : Mantissa m) :
    ∃ ds places, WritesMantissa m ds places := by
  cases h with
  | whole hds => exact ⟨_, _, .whole hds⟩
  | point hds hes => exact ⟨_, _, .point hds hes⟩
  | fraction hes => exact ⟨_, _, .fraction hes⟩

theorem mantissa_of_writesMantissa {m ds : List Char} {places : Nat}
    (h : WritesMantissa m ds places) : Mantissa m := by
  cases h with
  | whole hds => exact .whole hds
  | point hds hes => exact .point hds hes
  | fraction hes => exact .fraction hes

theorem exists_writes {cs : List Char} (h : Numeral cs) : ∃ d, Writes cs d := by
  obtain @⟨sign, m, p, hs, hm, hp⟩ := h
  obtain ⟨ds, places, hm⟩ := exists_writesMantissa hm
  obtain ⟨e, hp⟩ := exists_writesPower hp
  rcases hs with rfl | rfl
  · exact ⟨_, @Writes.mk false m ds places p e hm hp⟩
  · exact ⟨_, @Writes.mk true m ds places p e hm hp⟩

theorem numeral_of_writes {cs : List Char} {d : Decimal} (h : Writes cs d) : Numeral cs := by
  obtain @⟨minus, m, ds, places, p, e, hm, hp⟩ := h
  have hm := mantissa_of_writesMantissa hm
  have hp := power_of_writesPower hp
  cases minus with
  | false => exact @Numeral.mk [] m p (.inl rfl) hm hp
  | true => exact @Numeral.mk ['-'] m p (.inr rfl) hm hp

/-! ## Digits -/

theorem ofDigits_eq (vs : List Nat) : Text.ofDigits vs = Nat.ofDigits 10 vs.reverse := by
  rw [Nat.ofDigits_eq_foldr, List.foldr_reverse, Text.ofDigits]
  congr 1
  funext n d
  exact Nat.add_comm _ _

theorem toNat_toAscii {c : Char} {d : Nat} (h : digitValue? c = some d) :
    (toAscii c).toNat = 0x30 + d := by
  have hdigit : isDigit c = true := by rw [isDigit, h]; rfl
  by_cases hlt : c.toNat < 0x80
  · have hascii : Decimal.isAsciiDigit c = true := by rw [← isDigit_of_lt hlt, hdigit]
    have hd := digitValue?_ascii hascii
    rw [h, Option.some.injEq] at hd
    rw [toAscii_of_lt hlt, hd]
    have := isAsciiDigit_iff.mp hascii
    omega
  · have hd : d < 10 := by
      obtain ⟨z, hz, rfl⟩ := Option.map_eq_some_iff.mp h
      have hz' := List.find?_some hz
      simp only [Bool.and_eq_true, decide_eq_true_eq] at hz'
      omega
    have hall : ∀ d < 10, (digitChar d).toNat = 0x30 + d := by decide
    have hspace : ¬isSpace c = true := by rw [isSpace_of_isDigit hdigit]; decide
    rw [toAscii, if_neg hlt, if_neg hspace, h]
    exact hall d hd

section
variable {ds : List Char} (h : ∀ c ∈ ds, isDigit c = true)
include h

theorem isAsciiDigit_map_toAscii : ∀ c ∈ ds.map toAscii, Decimal.isAsciiDigit c = true := by
  simp only [List.mem_map]
  rintro _ ⟨c, hc, rfl⟩
  rw [isAsciiDigit_toAscii]
  exact h c hc

theorem length_digitValues : (ds.filterMap digitValue?).length = ds.length :=
  List.filterMap_length_eq_length.mpr h

theorem ofAscii_map_toAscii : Decimal.ofAscii (ds.map toAscii) = baseTen ds := by
  have hvalues : (ds.map toAscii).map (fun c => c.toNat - 0x30) = ds.filterMap digitValue? := by
    induction ds with
    | nil => rfl
    | cons c ds ih =>
      rw [List.forall_mem_cons] at h
      obtain ⟨d, hd⟩ := Option.isSome_iff_exists.mp h.1
      rw [List.map_cons, List.map_cons, List.filterMap_cons_some hd, ih h.2, toNat_toAscii hd,
        Nat.add_sub_cancel_left]
  rw [Decimal.ofAscii, hvalues, ofDigits_eq, baseTen]

end

/-! ## Integers -/

def IsInteger (cs : List Char) : Prop := ∃ minus ds, cs = withSign minus ds ∧ IsDigits ds

theorem read_integer (minus : Bool) {ds : List Char} (h : IsDigits ds) :
    read (withSign minus ds) =
      if ds.length ≤ digitLimit then
        .ok (.int (if minus then -(baseTen ds : Int) else baseTen ds))
      else .error (.tooLong ds.length) := by
  have hhead : ∀ c ∈ ds.head?, c ≠ '-' := by
    have hunsigned := h.unsigned []
    rw [List.append_nil] at hunsigned
    exact fun c hc => (hunsigned c hc).1
  rw [read, integerDigits?_withSign minus hhead, if_pos ⟨h.1, List.all_eq_true.mpr h.2⟩]
  simp only
  rw [ofDigits?, length_digitValues h.2, ofDigits_eq]
  rfl

theorem read_of_not_isInteger {cs : List Char} (h : ¬IsInteger cs) {x : Binary64}
    (hx : real? cs = some x) : read cs = .ok (.real x) := by
  unfold read
  cases hi : integerDigits? cs with
  | some i =>
    obtain ⟨ds, hcs, hds, -⟩ := exists_integerDigits hi
    exact absurd ⟨i.1, ds, hcs, hds⟩ h
  | none => simp only [hx]

/-! ## Binary64 numbers -/

theorem unsigned_map_toAscii {cs : List Char} (h : ∀ c ∈ cs.head?, c ≠ '-' ∧ c ≠ '+') :
    ∀ c ∈ (cs.map toAscii).head?, c ≠ '-' ∧ c ≠ '+' := by
  intro a ha
  cases cs with
  | nil => cases ha
  | cons c cs =>
    cases ha
    have hminus : toAscii c = '-' ↔ c = '-' := toAscii_mark (by decide)
    have hplus : toAscii c = '+' ↔ c = '+' := toAscii_mark (by decide)
    rw [Ne, Ne, hminus, hplus]
    exact h c rfl

theorem exponent?_of_writesPower {p : List Char} {e : Int} (h : WritesPower p e) :
    Decimal.exponent? (p.map toAscii) = some e := by
  have hmark {e : Char} (he : e = 'e' ∨ e = 'E') : toAscii e = 'e' ∨ toAscii e = 'E' := by
    rcases he with rfl | rfl
    · exact .inl rfl
    · exact .inr rfl
  have hne {ds : List Char} (hds : IsDigits ds) : ds.map toAscii ≠ [] :=
    mt List.map_eq_nil_iff.mp hds.1
  cases h with
  | nil => rfl
  | @plus e sign ds he hs hds =>
    have hsign : Decimal.splitSign ((sign ++ ds).map toAscii) = (false, ds.map toAscii) := by
      rcases hs with rfl | rfl
      · have hunsigned := unsigned_map_toAscii (hds.unsigned [])
        rw [List.append_nil] at hunsigned
        exact splitSign_of_unsigned hunsigned
      · rfl
    rw [List.map_cons, Decimal.exponent?_of_splitSign (hmark he) hsign (hne hds)
      (isAsciiDigit_map_toAscii hds.2), ofAscii_map_toAscii hds.2]
    rfl
  | @minus e ds he hds =>
    have hsign : Decimal.splitSign (('-' :: ds).map toAscii) = (true, ds.map toAscii) := rfl
    rw [List.map_cons, Decimal.exponent?_of_splitSign (hmark he) hsign (hne hds)
      (isAsciiDigit_map_toAscii hds.2), ofAscii_map_toAscii hds.2]
    rfl

theorem head?_of_writesPower {p : List Char} {e : Int} (h : WritesPower p e) :
    ∀ c ∈ (p.map toAscii).head?, Decimal.isAsciiDigit c = false ∧ c ≠ '.' := by
  intro a ha
  cases p with
  | nil => cases ha
  | cons c p =>
    cases ha
    rcases head?_power (power_of_writesPower h) c rfl with rfl | rfl <;> decide

section
variable {p : List Char} {e : Int} (hp : WritesPower p e) (minus : Bool)
include hp

theorem readUnsigned?_map_around {ds es : List Char} (hds : ∀ c ∈ ds, isDigit c = true)
    (hes : ∀ c ∈ es, isDigit c = true) (hne : ds ++ es ≠ []) :
    Decimal.readUnsigned? minus ((ds ++ '.' :: (es ++ p)).map toAscii) =
      some ⟨minus, baseTen (ds ++ es), e - es.length⟩ := by
  have hall : ∀ c ∈ ds ++ es, isDigit c = true := List.forall_mem_append.mpr ⟨hds, hes⟩
  have hvalue := ofAscii_map_toAscii hall
  have hsome : ¬(ds.map toAscii = [] ∧ es.map toAscii = []) := by simpa using hne
  rw [List.map_append] at hvalue
  have hread := Decimal.readUnsigned?_around minus (p.map toAscii) (isAsciiDigit_map_toAscii hds)
    (isAsciiDigit_map_toAscii hes) hsome fun c hc => (head?_of_writesPower hp c hc).1
  rw [exponent?_of_writesPower hp, Option.map_some, hvalue, List.length_map] at hread
  rw [List.map_append, List.map_cons, List.map_append]
  exact hread

theorem readUnsigned?_of_writes {m ds : List Char} {places : Nat}
    (hm : WritesMantissa m ds places) :
    Decimal.readUnsigned? minus ((m ++ p).map toAscii) =
      some ⟨minus, baseTen ds, e - places⟩ := by
  cases hm with
  | whole hds =>
    have hne := mt (List.map_eq_nil_iff (f := toAscii)).mp hds.1
    rw [List.map_append, Decimal.readUnsigned?_whole minus _ (isAsciiDigit_map_toAscii hds.2) hne
      (fun c hc => (head?_of_writesPower hp c hc).1) fun c hc => (head?_of_writesPower hp c hc).2,
      exponent?_of_writesPower hp, ofAscii_map_toAscii hds.2, Option.map_some, Int.natCast_zero,
      Int.sub_zero]
  | @point ds es hds hes =>
    rw [List.append_assoc]
    exact readUnsigned?_map_around hp minus hds.2 hes (by simp [hds.1])
  | fraction hes => exact @readUnsigned?_map_around p e hp minus [] _ (by simp) hes.2 hes.1

end

theorem real?_of_writes {cs : List Char} {d : Decimal} (h : Writes cs d) :
    real? cs = some (ofDecimal d) := by
  have hplain := isPlain_of_numeral (numeral_of_writes h)
  refine real?_of_read? hplain ?_
  obtain @⟨minus, m, ds, places, p, e, hm, hp⟩ := h
  have hmap : (withSign minus (m ++ p)).map toAscii = withSign minus ((m ++ p).map toAscii) := by
    cases minus <;> rfl
  have hhead : ∀ c ∈ (m ++ p).head?, c ≠ '-' ∧ c ≠ '+' :=
    head?_mantissa (mantissa_of_writesMantissa hm)
  have hunsigned := unsigned_map_toAscii hhead
  rw [hmap, Decimal.read?, splitSign_withSign minus hunsigned]
  exact readUnsigned?_of_writes hp minus hm

theorem exists_read_of_numeral {cs : List Char} (h : Numeral cs) (hfit : Fits cs) :
    ∃ n, read cs = .ok n := by
  by_cases hi : IsInteger cs
  · obtain ⟨minus, ds, rfl, hds⟩ := hi
    rw [read_integer minus hds, if_pos (length_le_of_fits hfit hds)]
    exact ⟨_, rfl⟩
  · obtain ⟨d, hd⟩ := exists_writes h
    exact ⟨_, read_of_not_isInteger hi (real?_of_writes hd)⟩

end Number
end StackForest
