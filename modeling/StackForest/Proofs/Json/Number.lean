import StackForest.Json.Lexeme
import StackForest.Json.Printer
import StackForest.Proofs.Number

/-!
# Reading a written JSON number

A JSON number is a whole part without leading zeros, a fraction and a power of ten. What is written
for a number is read as this number (`scalar_writeNumber`).
-/

namespace StackForest

open Text Binary64

/-- The numbers that a JSON text can hold: NaN has no equal, and an integer is not too long. -/
def Number.isStorable : Number → Bool
  | int i => (Nat.toDigits 10 i.natAbs).length ≤ digitLimit
  | real .nan => false
  | real _ => true

namespace Json

def Ends (r : List Char) : Prop := ∀ c ∈ r.head?, isMark c = true ∨ isBlank c = true

def endChars : List Char := ['[', ']', '\x7b', '\x7d', ',', ':', ' ', '\t', '\n', '\r']

theorem head?_of_ends {p : Char → Bool} (hp : endChars.all p = true) {r : List Char}
    (h : Ends r) : ∀ c ∈ r.head?, p c = true := by
  intro c hc
  have hmem : c ∈ endChars := by
    have := h c hc
    simp only [isMark, isBlank, Bool.or_eq_true, beq_iff_eq, or_assoc] at this
    simpa [endChars] using this
  exact List.all_eq_true.mp hp c hmem

/-! ## The parts of a number -/

inductive IsWhole : List Char → Prop
  | zero : IsWhole ['0']
  | digits {c cs} : c ≠ '0' → (∀ x ∈ c :: cs, Decimal.isAsciiDigit x = true) → IsWhole (c :: cs)

inductive IsFraction : List Char → Prop
  | nil : IsFraction []
  | cons {ds} : ds ≠ [] → (∀ c ∈ ds, Decimal.isAsciiDigit c = true) → IsFraction ('.' :: ds)

inductive IsPower : List Char → Prop
  | nil : IsPower []
  | cons {sign ds} : sign = '+' ∨ sign = '-' → ds ≠ [] →
    (∀ c ∈ ds, Decimal.isAsciiDigit c = true) → IsPower ('e' :: sign :: ds)

theorem wholePart_append {w r : List Char} (hw : IsWhole w)
    (hr : ∀ c ∈ r.head?, Decimal.isAsciiDigit c = false) : wholePart (w ++ r) = w := by
  cases hw with
  | zero => rfl
  | digits hne hds =>
    rw [List.forall_mem_cons] at hds
    rw [List.cons_append, wholePart, if_neg hne, if_pos hds.1, takeWhile_run hds.2 hr]

theorem fractionPart_append {f r : List Char} (hf : IsFraction f)
    (hr : ∀ c ∈ r.head?, Decimal.isAsciiDigit c = false ∧ c ≠ '.') : fractionPart (f ++ r) = f := by
  cases hf with
  | nil =>
    cases r with
    | nil => rfl
    | cons c r =>
      rw [List.nil_append, fractionPart]
      intro _ h
      exact (hr c rfl).2 (List.cons.inj h).1
  | cons hne hds =>
    rw [List.cons_append, fractionPart, takeWhile_run hds fun c hc => (hr c hc).1, if_neg hne]

theorem powerPart_append {p r : List Char} (hp : IsPower p)
    (hr : ∀ c ∈ r.head?, Decimal.isAsciiDigit c = false ∧ c ≠ 'e' ∧ c ≠ 'E') :
    powerPart (p ++ r) = p := by
  cases hp with
  | nil =>
    cases r with
    | nil => rfl
    | cons c r =>
      have hc : ¬(c = 'e' ∨ c = 'E') := not_or.mpr (hr c rfl).2
      simp [powerPart, hc]
  | cons hsign hne hds =>
    have hrun := takeWhile_run hds fun c hc => (hr c hc).1
    simp [powerPart, hsign, hrun, hne]

theorem isAsciiDigit_of_mem_whole {w : List Char} (hw : IsWhole w) :
    ∀ c ∈ w, Decimal.isAsciiDigit c = true := by
  cases hw with
  | zero => exact isAsciiDigit_zero
  | digits _ hds => exact hds

theorem whole_ne_nil {w : List Char} (hw : IsWhole w) : w ≠ [] := by
  cases hw <;> exact List.cons_ne_nil _ _

section
variable {w f p r : List Char}

theorem head?_power_append (hp : IsPower p) (hr : Ends r) :
    ∀ c ∈ (p ++ r).head?, Decimal.isAsciiDigit c = false ∧ c ≠ '.' := by
  cases hp with
  | nil =>
    intro c hc
    simpa using
      head?_of_ends (p := fun c => !Decimal.isAsciiDigit c && c != '.') (by decide) hr c hc
  | cons _ _ _ =>
    rintro c ⟨⟩
    decide

theorem head?_fraction_append (hf : IsFraction f) (hp : IsPower p) (hr : Ends r) :
    ∀ c ∈ (f ++ (p ++ r)).head?, Decimal.isAsciiDigit c = false := by
  cases hf with
  | nil => exact fun c hc => (head?_power_append hp hr c hc).1
  | cons _ _ =>
    rintro c ⟨⟩
    decide

theorem withSign_eq (negative : Bool) (cs : List Char) :
    withSign negative cs = withSign negative [] ++ cs := by
  cases negative <;> rfl

theorem sign_append (negative : Bool) {cs : List Char} (h : cs.head? ≠ some '-') :
    (if (withSign negative [] ++ cs).head? = some '-' then ['-'] else []) =
      withSign negative [] := by
  cases negative with
  | true => rfl
  | false => exact if_neg h

theorem head?_whole_append (hw : IsWhole w) (cs : List Char) : (w ++ cs).head? ≠ some '-' := by
  obtain ⟨c, ds, rfl⟩ := List.exists_cons_of_ne_nil (whole_ne_nil hw)
  intro hc
  cases hc
  exact (unsigned_of_digit (isAsciiDigit_of_mem_whole hw '-' (by simp))).1 rfl

theorem number?_append (hw : IsWhole w) (hf : IsFraction f) (hp : IsPower p) (hr : Ends r)
    (negative : Bool) :
    number? (withSign negative (w ++ (f ++ p)) ++ r) =
      let length := (withSign negative (w ++ (f ++ p))).length
      if f = [] ∧ p = [] then
        some (Number.ofDigits? negative (w.map fun c => c.toNat - 0x30), length)
      else (Decimal.read? (withSign negative (w ++ (f ++ p)))).map fun d =>
        (.ok (.real (.ofDecimal d)), length) := by
  have hsign := sign_append negative (head?_whole_append hw (f ++ (p ++ r)))
  have hwhole := wholePart_append hw (head?_fraction_append hf hp hr)
  have hfraction := fractionPart_append hf (head?_power_append hp hr)
  have hpower := powerPart_append hp fun c hc => by
    simpa using head?_of_ends (p := fun c => !Decimal.isAsciiDigit c && (c != 'e' && c != 'E'))
      (by decide) hr c hc
  have hminus : decide (withSign negative [] ≠ []) = negative := by cases negative <;> rfl
  rw [withSign_eq negative (w ++ (f ++ p))]
  unfold number?
  simp only [List.append_assoc, Nat.add_assoc, List.drop_length_add_append, List.drop_left, hsign,
    hwhole, hfraction, hpower]
  rw [if_neg (whole_ne_nil hw), hminus]

end

/-! ## Integers -/

theorem head?_toDigits_ne_zero {n : Nat} (hn : 0 < n) :
    ∀ c ∈ (Nat.toDigits 10 n).head?, c ≠ '0' := by
  induction n using Nat.strongRecOn with
  | ind n ih =>
    by_cases h : n < 10
    · have hdigit : ∀ n < 10, 0 < n → Nat.digitChar n ≠ '0' := by decide
      rw [Nat.toDigits_of_lt_base h]
      rintro c ⟨⟩
      exact hdigit n h hn
    · rw [Nat.toDigits_of_base_le (by decide) (Nat.le_of_not_lt h),
        List.head?_append_of_ne_nil _ Nat.toDigits_ne_nil]
      exact ih (n / 10) (Nat.div_lt_self hn (by decide))
        (Nat.div_pos (Nat.le_of_not_lt h) (by decide))

theorem isWhole_toDigits (n : Nat) : IsWhole (Nat.toDigits 10 n) := by
  by_cases hn : n = 0
  · rw [hn]
    exact .zero
  · have hhead := head?_toDigits_ne_zero (Nat.pos_of_ne_zero hn)
    have hdigits : ∀ c ∈ Nat.toDigits 10 n, Decimal.isAsciiDigit c = true :=
      fun c hc => isAsciiDigit_of_mem_toDigits hc
    obtain ⟨c, cs, hcs⟩ := List.exists_cons_of_ne_nil (Nat.toDigits_ne_nil (b := 10) (n := n))
    rw [hcs] at hhead hdigits ⊢
    exact .digits (hhead c rfl) hdigits

theorem number?_intText {i : Int} (h : (Nat.toDigits 10 i.natAbs).length ≤ Number.digitLimit)
    {r : List Char} (hr : Ends r) :
    number? (Number.intText i ++ r) = some (.ok (.int i), (Number.intText i).length) := by
  have hread := number?_append (isWhole_toDigits i.natAbs) .nil .nil hr (decide (i < 0))
  simp only [List.append_nil, and_self, if_true] at hread
  have hascii : ∀ c ∈ Nat.toDigits 10 i.natAbs, Decimal.isAsciiDigit c = true :=
    fun _ hc => isAsciiDigit_of_mem_toDigits hc
  rw [Number.intText_eq, hread, ← filterMap_digitValue? hascii, Number.ofDigits?_toDigits h]

/-! ## Binary64 numbers -/

inductive IsReal : List Char → Prop
  | mk {w f p} : IsWhole w → IsFraction f → IsPower p → ¬(f = [] ∧ p = []) → IsReal (w ++ (f ++ p))

theorem isPower_powerText (power : Int) : IsPower (powerText power) := by
  unfold powerText
  refine .cons ?_ (by simp [Nat.toDigits_ne_nil]) ?_
  · split <;> simp
  · rw [List.forall_mem_append]
    exact ⟨fun _ => isAsciiDigit_of_mem_zeros, fun _ => isAsciiDigit_of_mem_toDigits⟩

theorem isReal_layout {d : Char} {ds : List Char} (hd : d ≠ '0')
    (hds : ∀ c ∈ d :: ds, Decimal.isAsciiDigit c = true) (point : Int) :
    IsReal (layout (d :: ds) point) := by
  rcases layout_cases (d :: ds) point with ⟨-, h⟩ | ⟨-, -, h⟩ | ⟨hpoint, hlen, h⟩ | h
  · have hfraction : IsFraction ('.' :: (zeros (-point).toNat ++ (d :: ds))) :=
      .cons (by simp) (List.forall_mem_append.mpr ⟨fun _ => isAsciiDigit_of_mem_zeros, hds⟩)
    rw [h]
    simpa using IsReal.mk .zero hfraction .nil (by simp)
  · have hwhole : IsWhole (d :: (ds ++ zeros (point.toNat - (d :: ds).length))) :=
      .digits hd (List.forall_mem_append.mpr ⟨hds, fun _ => isAsciiDigit_of_mem_zeros⟩)
    rw [h]
    simpa using IsReal.mk hwhole (.cons (by simp) isAsciiDigit_zero) .nil (by simp)
  · obtain ⟨n, hn⟩ : ∃ n, point.toNat = n + 1 := ⟨point.toNat - 1, by omega⟩
    have hwhole : IsWhole (d :: ds.take n) :=
      .digits hd fun c hc => hds c (List.mem_of_mem_take (i := n + 1) hc)
    have hfraction : IsFraction ('.' :: ds.drop n) := by
      refine .cons ?_ fun c hc => hds c (List.mem_cons_of_mem d (List.mem_of_mem_drop hc))
      rw [hn, List.length_cons] at hlen
      simp; omega
    rw [h, hn]
    simpa using IsReal.mk hwhole hfraction .nil (by simp)
  · have hpower := isPower_powerText (point - 1)
    have hwhole : IsWhole [d] :=
      .digits hd (List.forall_mem_singleton.mpr (hds d (by simp)))
    rw [h, mantissa]
    by_cases h0 : ds = []
    · rw [if_pos h0]
      exact .mk hwhole .nil hpower (by simp)
    · rw [if_neg h0]
      have hfraction : IsFraction ('.' :: ds) :=
        .cons h0 fun c hc => hds c (List.mem_cons_of_mem d hc)
      simpa using IsReal.mk hwhole hfraction hpower (by simp)

theorem isReal_decimalText {n : Nat} (hn : 0 < n) (e : Int) : IsReal (decimalText n e) := by
  unfold decimalText
  simp only
  obtain ⟨z, hz⟩ := exists_zeros (Nat.toDigits 10 n)
  have hsig : ∀ c ∈ ((Nat.toDigits 10 n).reverse.dropWhile (· == '0')).reverse,
      Decimal.isAsciiDigit c = true := fun _ hc => isAsciiDigit_of_mem_significant hc
  have hhead := head?_toDigits_ne_zero hn
  generalize ((Nat.toDigits 10 n).reverse.dropWhile (· == '0')).reverse = ds at hz hsig
  rw [hz] at hhead
  cases ds with
  | nil =>
    -- Without its zeros the number keeps its first digit.
    cases z with
    | zero => exact absurd hz Nat.toDigits_ne_nil
    | succ z => exact absurd rfl (hhead '0' rfl)
  | cons d ds => exact isReal_layout (hhead d rfl) hsig _

theorem digits_of_zeros {negative : Bool} {cs : List Char} {d : Decimal}
    (hcs : ∀ c ∈ cs, c = '0' ∨ c = '.') (h : Decimal.readUnsigned? negative cs = some d) :
    d.digits = 0 := by
  have hzero : ∀ c ∈ cs, Decimal.isAsciiDigit c = true → c = '0' := by
    intro c hc hdigit
    rcases hcs c hc with rfl | rfl
    · rfl
    · exact absurd hdigit (by decide)
  obtain ⟨whole, behind, rfl, hwhole, hbehind⟩ := exists_run Decimal.isAsciiDigit cs
  rw [Number.readUnsigned?_eq, takeWhile_run hwhole hbehind, dropWhile_run hwhole hbehind] at h
  simp only at h
  split at h
  · cases h
  obtain ⟨e, -, rfl⟩ := Option.map_eq_some_iff.mp h
  have hfraction : ∀ c ∈ (Number.splitFraction Decimal.isAsciiDigit behind).1, c = '0' := by
    unfold Number.splitFraction
    split
    · next r =>
      intro c hc
      have hr := (List.takeWhile_sublist _).subset hc
      exact hzero c (by simp [hr]) (List.all_eq_true.mp List.all_takeWhile c hc)
    · simp
  have hall := List.eq_replicate_of_mem (List.forall_mem_append.mpr
    ⟨fun c hc => hzero c (List.mem_append_left _ hc) (hwhole c hc), hfraction⟩)
  show Decimal.ofAscii _ = 0
  rw [hall, ofAscii_zeros]

theorem readUnsigned?_layout_nil {negative : Bool} {point : Int} {d : Decimal}
    (h : Decimal.readUnsigned? negative (layout [] point) = some d) : d.digits = 0 := by
  rcases layout_cases [] point with ⟨-, hl⟩ | ⟨-, -, hl⟩ | ⟨-, hlen, hl⟩ | hl
  · refine digits_of_zeros ?_ (hl ▸ h)
    simp [zeros]
  · refine digits_of_zeros ?_ (hl ▸ h)
    intro c hc
    simp only [zeros, List.nil_append, List.mem_append, List.mem_replicate, List.mem_cons,
      List.not_mem_nil, or_false] at hc
    rcases hc with ⟨-, rfl⟩ | rfl | rfl <;> simp
  · exact absurd hlen (Nat.not_lt_zero _)
  · rw [hl] at h
    cases h

theorem pos_of_readsAs {rank n : Nat} {e : Int} (h0 : 0 < rank) (hr : rank < rankCount)
    (h : readsAs rank (decimalText n e) = true) : 0 < n := by
  by_contra hn
  obtain rfl : n = 0 := by omega
  have htext : decimalText 0 e = layout [] (1 + e) := rfl
  rw [readsAs, Decimal.read?, splitSign_of_unsigned (isRealText_decimalText 0 e).unsigned] at h
  simp only at h
  split at h
  · next d hd =>
    rw [htext] at hd
    have hround : ofDecimal d = ofRank d.negative 0 :=
      if_pos (readUnsigned?_layout_nil hd)
    rw [hround, beq_iff_eq, ofRank_of_lt _ (h0.trans hr), ofRank_of_lt _ hr] at h
    injection h with _ h
    injection h with h
    omega
  · cases h

theorem isReal_positiveText {rank : Nat} (h0 : 0 < rank) (hr : rank < rankCount) :
    IsReal (positiveText rank) := by
  unfold positiveText
  simp only
  split
  · next cs h =>
    obtain ⟨c, -, rfl⟩ := List.mem_map.mp (List.mem_of_find?_eq_some h)
    exact isReal_decimalText (pos_of_readsAs h0 hr (List.find?_some h)) c.2
  · generalize 1074 = n
    exact isReal_decimalText (Nat.mul_pos (unitsOfRank_pos h0) (Nat.pow_pos (by decide))) _

theorem isReal_magnitudeText {rank : Nat} (hr : rank < rankCount) :
    IsReal (magnitudeText rank) := by
  unfold magnitudeText
  split
  · have hfraction : IsFraction ['.', '0'] := .cons (by simp) isAsciiDigit_zero
    exact .mk .zero hfraction .nil (by simp)
  · next h0 => exact isReal_positiveText (Nat.pos_of_ne_zero h0) hr

theorem number?_magnitudeText (negative : Bool) (rank : Fin rankCount) {r : List Char}
    (hr : Ends r) :
    number? (withSign negative (magnitudeText rank) ++ r) =
      some (.ok (.real (.finite negative rank)),
        (withSign negative (magnitudeText rank)).length) := by
  obtain ⟨d, hd, hx⟩ := readUnsigned?_magnitudeText negative rank.isLt
  have hread : Decimal.read? (withSign negative (magnitudeText rank)) = some d := by
    rw [Decimal.read?, splitSign_withSign negative (isRealText_magnitudeText rank).unsigned]
    exact hd
  have hreal := isReal_magnitudeText rank.isLt
  generalize magnitudeText rank = cs at hread hreal
  cases hreal with
  | mk hw hf hp hmark =>
    rw [number?_append hw hf hp hr]
    simp only
    rw [if_neg hmark, hread, Option.map_some, hx, ofRank_of_lt]

/-! ## Scalars -/

theorem find?_words (negative : Bool) {c : Char} (hc : Decimal.isAsciiDigit c = true)
    (cs : List Char) :
    words.find? (fun w => w.1.isPrefixOf (withSign negative (c :: cs))) = none := by
  have hne (d : Char) (hd : Decimal.isAsciiDigit d = false) : (d == c) = false := by
    rw [beq_eq_false_iff_ne]
    rintro rfl
    rw [hc] at hd
    cases hd
  refine List.find?_eq_none.mpr fun w hw => ?_
  simp only [words, List.mem_cons, List.not_mem_nil, or_false] at hw
  cases negative with
  | true =>
    rcases hw with rfl | rfl | rfl | rfl | rfl | rfl <;>
      simp [withSign, List.isPrefixOf, hne 'I' (by decide)]
  | false =>
    rcases hw with rfl | rfl | rfl | rfl | rfl | rfl <;>
      simp [withSign, List.isPrefixOf, hne 'n' (by decide), hne 't' (by decide),
        hne 'f' (by decide), hne 'N' (by decide), hne 'I' (by decide), hne '-' (by decide)]

theorem scalar_of_number? {negative : Bool} {cs r : List Char} {n : Number} {length : Nat}
    (hne : cs ≠ []) (hcs : ∀ c ∈ cs.head?, Decimal.isAsciiDigit c = true)
    (h : number? (withSign negative cs ++ r) = some (.ok n, length)) :
    scalar (withSign negative cs ++ r) = (.scalar (.number n), length) := by
  obtain ⟨c, cs, rfl⟩ := List.exists_cons_of_ne_nil hne
  have happend : withSign negative (c :: cs) ++ r = withSign negative (c :: (cs ++ r)) := by
    cases negative <;> rfl
  rw [happend] at h ⊢
  rw [scalar, find?_words negative (hcs c rfl), h]

theorem scalar_writeNumber {n : Number} (hn : n.isStorable = true) {r : List Char} (hr : Ends r) :
    scalar (writeNumber n ++ r) = (.scalar (.number n), (writeNumber n).length) := by
  cases n with
  | int i =>
    have hdigits : ∀ c ∈ (Nat.toDigits 10 i.natAbs).head?, Decimal.isAsciiDigit c = true :=
      fun c hc => isAsciiDigit_of_mem_toDigits (List.mem_of_mem_head? hc)
    have htext : writeNumber (.int i) =
        withSign (decide (i < 0)) (Nat.toDigits 10 i.natAbs) := Number.intText_eq i
    have hread := number?_intText (of_decide_eq_true hn) hr
    rw [Number.intText_eq] at hread
    rw [htext]
    exact scalar_of_number? Nat.toDigits_ne_nil hdigits hread
  | real x =>
    cases x with
    | finite negative rank =>
      have hread := number?_magnitudeText negative rank hr
      have htext : writeNumber (.real (.finite negative rank)) =
          withSign negative (magnitudeText rank) := rfl
      have hreal := isReal_magnitudeText rank.isLt
      rw [htext]
      generalize magnitudeText rank = cs at hread hreal
      cases hreal with
      | mk hw _ _ _ =>
        refine scalar_of_number? (by simp [whole_ne_nil hw]) ?_ hread
        rw [List.head?_append_of_ne_nil _ (whole_ne_nil hw)]
        exact fun c hc => isAsciiDigit_of_mem_whole hw c (List.mem_of_mem_head? hc)
    | infinite negative => cases negative <;> rfl
    | nan => cases hn

end Json
end StackForest
