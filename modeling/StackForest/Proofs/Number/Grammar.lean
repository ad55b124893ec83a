import StackForest.Proofs.Number.Underscore

/-!
# The grammar of binary64 texts

The texts of binary64 numbers, with digits of any script and single underscores between them.
`real?` accepts these, with white space around them, and no others (`exists_real?_iff`).
-/

namespace StackForest

open Text Binary64 Concise

namespace Number

def IsName (cs : List Char) : Prop :=
  cs.map Char.toLower ∈ ["inf".toList, "infinity".toList, "nan".toList]

inductive RealText : List Char → Prop
  | number {sign m p} : IsSign sign → PointPart m → ExponentPart p → RealText (sign ++ (m ++ p))
  | name {sign cs} : IsSign sign → IsName cs → RealText (sign ++ cs)

/-- White space other than the information separators, which may surround a number. -/
def isMargin (c : Char) : Bool := isSpace c && !(0x1C ≤ c.toNat && c.toNat ≤ 0x1F)

/-! ## Names -/

def nameChars : List Char := ['i', 'n', 'f', 't', 'y', 'a', 'I', 'N', 'F', 'T', 'Y', 'A']

theorem mem_nameChars_of_toLower {c : Char} (h : c.toLower ∈ nameChars) : c ∈ nameChars := by
  by_cases hc : c.toNat < 128
  · -- Only ASCII letters have another lower case, and these are few enough to try.
    have hall : ∀ n < 128, (Char.ofNat n).toLower ∈ nameChars → Char.ofNat n ∈ nameChars := by
      decide +kernel
    rw [← Char.ofNat_toNat c] at h ⊢
    exact hall _ hc h
  · have hself : c.toLower = c := by
      unfold Char.toLower
      rw [dif_neg]
      rintro ⟨-, hle⟩
      have : c.toNat ≤ 90 := hle
      omega
    rwa [hself] at h

theorem mem_nameChars_of_isName {cs : List Char} (h : IsName cs) : ∀ c ∈ cs, c ∈ nameChars := by
  have hnames : ["inf".toList, "infinity".toList, "nan".toList].all
      (fun name => name.all (· ∈ nameChars)) = true := by decide
  intro c hc
  have hlower := List.all_eq_true.mp (List.all_eq_true.mp hnames _ h) c.toLower
    (List.mem_map_of_mem hc)
  exact mem_nameChars_of_toLower (of_decide_eq_true hlower)

theorem of_isName {p : Char → Bool} (hp : nameChars.all p = true) {cs : List Char}
    (h : IsName cs) : ∀ c ∈ cs, p c = true :=
  fun c hc => List.all_eq_true.mp hp c (mem_nameChars_of_isName h c hc)

theorem toAscii_eq_nameChar {a : Char} (ha : a ∈ nameChars) (c : Char) :
    toAscii c = a ↔ c = a := by
  have hall : nameChars.all
      (fun a => a.toNat < 0x80 && a != ' ' && !Decimal.isAsciiDigit a) = true := by decide
  have h := List.all_eq_true.mp hall a ha
  simp only [Bool.and_eq_true, decide_eq_true_eq, bne_iff_ne, Bool.not_eq_true'] at h
  exact toAscii_eq_iff h.1.1 h.1.2 h.2

theorem isName_map_toAscii {cs : List Char} : IsName (cs.map toAscii) ↔ IsName cs := by
  have hself (h : ∀ c ∈ cs, toAscii c = c) : cs.map toAscii = cs := by
    rw [List.map_congr_left h, List.map_id']
  constructor
  · intro h
    rw [hself] at h
    · exact h
    · intro c hc
      have ha := mem_nameChars_of_isName h (toAscii c) (List.mem_map_of_mem hc)
      exact ((toAscii_eq_nameChar ha c).mp rfl).symm
  · intro h
    rw [hself]
    · exact h
    · intro c hc
      exact (toAscii_eq_nameChar (mem_nameChars_of_isName h c hc) c).mpr rfl

theorem exists_ofName? {cs : List Char} :
    (∃ x, ofName? cs = some x) ↔ IsName (Decimal.splitSign cs).2 := by
  unfold ofName? IsName
  simp only [List.mem_cons, List.not_mem_nil, or_false]
  generalize (Decimal.splitSign cs).2.map Char.toLower = name
  constructor
  · rintro ⟨x, h⟩
    split at h
    · next hinf => exact hinf.elim .inl fun h => .inr (.inl h)
    split at h
    · next hnan => exact .inr (.inr hnan)
    · cases h
  · intro h
    split
    · exact ⟨_, rfl⟩
    next hinf =>
    rw [if_pos]
    · exact ⟨_, rfl⟩
    · rcases h with h | h | h
      · exact absurd (.inl h) hinf
      · exact absurd (.inr h) hinf
      · exact h

theorem unsigned_of_isName {cs : List Char} (h : IsName cs) :
    ∀ c ∈ cs.head?, c ≠ '-' ∧ c ≠ '+' := by
  have hchars := of_isName (p := fun c => c != '-' && c != '+') (by decide) h
  intro c hc
  simpa using hchars c (List.mem_of_mem_head? hc)

/-! ## Texts without underscores -/

inductive PlainText : List Char → Prop
  | number {sign m p} : IsSign sign → Mantissa m → Power p → PlainText (sign ++ (m ++ p))
  | name {sign cs} : IsSign sign → IsName cs → PlainText (sign ++ cs)

theorem exists_ofName?_iff {ds : List Char} : (∃ x, ofName? (ds.map toAscii) = some x) ↔
    ∃ sign cs, IsSign sign ∧ IsName cs ∧ ds = sign ++ cs := by
  rw [exists_ofName?, splitSign_map_toAscii, isName_map_toAscii]
  constructor
  · intro h
    obtain ⟨sign, hs, hds⟩ := exists_sign ds
    exact ⟨sign, _, hs, h, hds⟩
  · rintro ⟨sign, cs, hs, h, rfl⟩
    rw [powerDigits_append hs (unsigned_of_isName h)]
    exact h

theorem exists_read?_iff {ds : List Char} :
    (∃ d, Decimal.read? (ds.map toAscii) = some d) ↔
      ∃ sign m p, IsSign sign ∧ Mantissa m ∧ Power p ∧ ds = sign ++ (m ++ p) := by
  have hsome : (Decimal.read? (ds.map toAscii)).isSome = isUnsigned (powerDigits ds) := by
    show (Decimal.readUnsigned? _ (Decimal.splitSign (ds.map toAscii)).2).isSome = _
    rw [splitSign_map_toAscii, isSome_readUnsigned?_map]
    exact isNumeral_minus _
  rw [← Option.isSome_iff_exists, hsome]
  constructor
  · intro h
    obtain ⟨sign, hs, hds⟩ := exists_sign ds
    obtain ⟨m, p, hmp, hm, hp⟩ := exists_mantissa h
    rw [hmp] at hds
    exact ⟨sign, m, p, hs, hm, hp, hds⟩
  · rintro ⟨sign, m, p, hs, hm, hp, rfl⟩
    rw [powerDigits_append hs (head?_mantissa hm)]
    exact isUnsigned_append hm hp

theorem plainText_iff {ds : List Char} : PlainText ds ↔
    (∃ x, ofName? (ds.map toAscii) = some x) ∨
      ∃ d, Decimal.read? (ds.map toAscii) = some d := by
  rw [exists_ofName?_iff, exists_read?_iff]
  constructor
  · intro h
    cases h with
    | number hs hm hp => exact .inr ⟨_, _, _, hs, hm, hp, rfl⟩
    | name hs h => exact .inl ⟨_, _, hs, h, rfl⟩
  · rintro (⟨sign, cs, hs, h, rfl⟩ | ⟨sign, m, p, hs, hm, hp, rfl⟩)
    · exact .name hs h
    · exact .number hs hm hp

theorem realText_iff {cs : List Char} :
    RealText cs ↔ ∃ ds, PlainText ds ∧ Unspaced false cs ds := by
  constructor
  · intro h
    cases h with
    | number hs hm hp =>
      obtain ⟨m, hm, hmu⟩ := pointPart_iff.mp hm
      obtain ⟨p, hp, hpu⟩ := exponentPart_iff.mp hp
      exact ⟨_, .number hs hm hp, unspaced_sign hs (hmu.append hpu)⟩
    | name hs h =>
      have hchars := of_isName (p := (· != '_')) (by decide) h
      refine ⟨_, .name hs h, unspaced_sign hs (unspaced_self fun c hc => ?_)⟩
      simpa using hchars c hc
  · rintro ⟨ds, hds, hu⟩
    cases hds with
    | number hs hm hp =>
      obtain ⟨r, rfl, hr⟩ := exists_of_unspaced_sign hs hu
      obtain ⟨front, back, rfl, hfront, hback⟩ := exists_of_unspaced (isDigit_head?_power hp) hr
      exact .number hs (pointPart_iff.mpr ⟨_, hm, hfront⟩) (exponentPart_iff.mpr ⟨_, hp, hback⟩)
    | name hs h =>
      obtain ⟨r, rfl, hr⟩ := exists_of_unspaced_sign hs hu
      have hchars := of_isName (p := (!isDigit ·)) (by decide) h
      rw [eq_of_unspaced hr fun c hc => ?_]
      · exact .name hs h
      · simpa using hchars c hc

/-! ## Margins -/

theorem isPadding_iff {c : Char} :
    isPadding c = true ↔ c.toNat = 0x20 ∨ 0x09 ≤ c.toNat ∧ c.toNat ≤ 0x0D := by
  have hblank : c = ' ' ↔ c.toNat = 0x20 := Char.toNat_inj.symm
  simp [isPadding, hblank]

theorem isMargin_iff {c : Char} :
    isMargin c = true ↔ isSpace c = true ∧ (c.toNat < 0x1C ∨ 0x1F < c.toNat) := by
  simp only [isMargin, Bool.and_eq_true, Bool.not_eq_true', Bool.and_eq_false_iff,
    decide_eq_false_iff_not, Nat.not_le]

theorem isPadding_toAscii (c : Char) : isPadding (toAscii c) = isMargin c := by
  rw [Bool.eq_iff_iff, isMargin_iff]
  by_cases hlt : c.toNat < 0x80
  · rw [toAscii_of_lt hlt, isPadding_iff]
    simp only [isSpace, spaceRanges, List.any_cons, List.any_nil, Bool.or_eq_true,
      Bool.and_eq_true, decide_eq_true_eq, Bool.false_eq_true, or_false]
    omega
  · rw [and_iff_left (.inr (by omega))]
    by_cases hs : isSpace c = true
    · rw [toAscii, if_neg hlt, if_pos hs]
      exact iff_of_true rfl hs
    · refine iff_of_false ?_ hs
      rw [isPadding_iff, toAscii, if_neg hlt, if_neg hs]
      cases hv : digitValue? c with
      | none =>
        simp only
        omega
      | some d =>
        have hd := isAsciiDigit_iff.mp (isAsciiDigit_digitChar hv)
        simp only
        omega

theorem trim_map_toAscii (cs : List Char) : trim (cs.map toAscii) =
    ((cs.dropWhile isMargin).reverse.dropWhile isMargin).reverse.map toAscii := by
  have hdrop (ds : List Char) :
      (ds.map toAscii).dropWhile isPadding = (ds.dropWhile isMargin).map toAscii := by
    rw [List.dropWhile_map]
    congr 2
    exact funext isPadding_toAscii
  rw [trim, hdrop, ← List.map_reverse, hdrop, ← List.map_reverse]

theorem exists_margins (cs : List Char) : ∃ l m r, cs = l ++ (m ++ r) ∧
    (∀ c ∈ l, isMargin c = true) ∧ (∀ c ∈ r, isMargin c = true) ∧
    trim (cs.map toAscii) = m.map toAscii := by
  obtain ⟨l, back, rfl, hl, hback⟩ := exists_run isMargin cs
  obtain ⟨r, m, hrm, hr, hm⟩ := exists_run isMargin back.reverse
  refine ⟨l, m.reverse, r.reverse, ?_, hl, fun c hc => hr c (List.mem_reverse.mp hc), ?_⟩
  · rw [← List.reverse_append, ← hrm, List.reverse_reverse]
  · rw [trim_map_toAscii, dropWhile_run hl hback, hrm, dropWhile_run hr hm]

theorem trim_of_margins {l m r : List Char} (hl : ∀ c ∈ l, isMargin c = true)
    (hr : ∀ c ∈ r, isMargin c = true) (hne : m ≠ []) (hm : ∀ c ∈ m, isMargin c = false) :
    trim ((l ++ (m ++ r)).map toAscii) = m.map toAscii := by
  have hfront : ∀ c ∈ (m ++ r).head?, isMargin c = false := by
    obtain ⟨d, ds, rfl⟩ := List.exists_cons_of_ne_nil hne
    intro c hc
    cases hc
    exact hm d (by simp)
  have hback : ∀ c ∈ m.reverse.head?, isMargin c = false := fun c hc =>
    hm c (List.mem_reverse.mp (List.mem_of_mem_head? hc))
  have hr' : ∀ c ∈ r.reverse, isMargin c = true := fun c hc => hr c (List.mem_reverse.mp hc)
  rw [trim_map_toAscii, dropWhile_run hl hfront, List.reverse_append, dropWhile_run hr' hback,
    List.reverse_reverse]

theorem isMargin_of_plainText {ds : List Char} (h : PlainText ds) :
    ∀ c ∈ ds, isMargin c = false := by
  have hsign {sign : List Char} (hs : IsSign sign) : ∀ c ∈ sign, isMargin c = false := by
    obtain rfl | rfl | rfl := hs
    · simp
    · exact List.forall_mem_singleton.mpr (by decide)
    · exact List.forall_mem_singleton.mpr (by decide)
  cases h with
  | @number sign m p hs hm hp =>
    have hdigit (c : Char) (hc : isDigit c = true) : isMargin c = false := by
      rw [isMargin, isSpace_of_isDigit hc, Bool.false_and]
    have hmark : ['.', 'e', 'E', '+', '-'].all (!isMargin ·) = true := by decide
    have hnumeral : Numeral (m ++ p) := @Numeral.mk [] m p (.inl rfl) hm hp
    rw [List.forall_mem_append]
    refine ⟨hsign hs, fun c hc => ?_⟩
    refine of_isNumeralChar hdigit (fun c hc => ?_) (isNumeralChar_of_mem hnumeral c hc)
    simpa using List.all_eq_true.mp hmark c hc
  | name hs h =>
    have hchars := of_isName (p := (!isMargin ·)) (by decide) h
    rw [List.forall_mem_append]
    refine ⟨hsign hs, fun c hc => ?_⟩
    simpa using hchars c hc

theorem not_plainText_nil : ¬PlainText [] := by
  rw [plainText_iff]
  rintro (⟨x, h⟩ | ⟨d, h⟩) <;> cases h

/-! ## The texts that are accepted -/

theorem isMargin_of_realText {cs : List Char} (h : RealText cs) :
    ∀ c ∈ cs, isMargin c = false := by
  obtain ⟨ds, hds, hu⟩ := realText_iff.mp h
  intro c hc
  obtain rfl | hc := eq_or_mem_of_unspaced hu c hc
  · decide
  · exact isMargin_of_plainText hds c hc

theorem ne_nil_of_realText {cs : List Char} (h : RealText cs) : cs ≠ [] := by
  obtain ⟨ds, hds, hu⟩ := realText_iff.mp h
  rintro rfl
  cases hu
  exact not_plainText_nil hds

theorem exists_real?_iff_trim {cs : List Char} : (∃ x, real? cs = some x) ↔
    ∃ plain, dropUnderscores? false (trim (cs.map toAscii)) = some plain ∧
      ((∃ x, ofName? plain = some x) ∨ ∃ d, Decimal.read? plain = some d) := by
  unfold real?
  cases dropUnderscores? false (trim (cs.map toAscii)) with
  | none => simp
  | some plain =>
    simp only [Option.some.injEq, exists_eq_left']
    cases hname : ofName? plain with
    | some x => simp
    | none => simp

theorem exists_real?_iff {cs : List Char} : (∃ x, real? cs = some x) ↔
    ∃ l m r, cs = l ++ (m ++ r) ∧ (∀ c ∈ l, isMargin c = true) ∧ (∀ c ∈ r, isMargin c = true) ∧
      RealText m := by
  rw [exists_real?_iff_trim]
  constructor
  · rintro ⟨plain, hplain, h⟩
    obtain ⟨l, m, r, rfl, hl, hr, hm⟩ := exists_margins cs
    rw [hm] at hplain
    obtain ⟨ds, hu, rfl⟩ := dropUnderscores?_eq_some_iff.mp hplain
    exact ⟨l, m, r, rfl, hl, hr, realText_iff.mpr ⟨ds, plainText_iff.mpr h, hu⟩⟩
  · rintro ⟨l, m, r, rfl, hl, hr, hm⟩
    obtain ⟨ds, hds, hu⟩ := realText_iff.mp hm
    rw [trim_of_margins hl hr (ne_nil_of_realText hm) (isMargin_of_realText hm)]
    exact ⟨_, dropUnderscores?_eq_some_iff.mpr ⟨ds, hu, rfl⟩, plainText_iff.mp hds⟩

end Number
end StackForest
