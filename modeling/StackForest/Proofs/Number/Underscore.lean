import StackForest.Proofs.Concise.Numeral

/-!
# Underscores in numbers

Without underscores the digits, the point and the power of ten are those of a numeral, and each part
can be found again in the text that has them
(`digitPart_iff`, `pointPart_iff`, `exponentPart_iff`).
-/

namespace StackForest

open Text Binary64 Concise

namespace Number

def IsSign (cs : List Char) : Prop := cs = [] ∨ cs = ['+'] ∨ cs = ['-']

inductive DigitPart : List Char → Prop
  | last {c} : isDigit c = true → DigitPart [c]
  | digit {c cs} : isDigit c = true → DigitPart cs → DigitPart (c :: cs)
  | underscore {c cs} : isDigit c = true → DigitPart cs → DigitPart (c :: '_' :: cs)

inductive PointPart : List Char → Prop
  | whole {ds} : DigitPart ds → PointPart ds
  | point {ds} : DigitPart ds → PointPart (ds ++ ['.'])
  | fraction {es} : DigitPart es → PointPart ('.' :: es)
  | both {ds es} : DigitPart ds → DigitPart es → PointPart (ds ++ '.' :: es)

inductive ExponentPart : List Char → Prop
  | nil : ExponentPart []
  | cons {e sign ds} : e = 'e' ∨ e = 'E' → IsSign sign → DigitPart ds →
    ExponentPart (e :: (sign ++ ds))

/-! ## Underscores -/

/-- `ds` is `cs` without its underscores, each of which stands between two digits. The flag tells
whether a digit stands in front. -/
inductive Unspaced : Bool → List Char → List Char → Prop
  | nil {b} : Unspaced b [] []
  | char {b c cs ds} : c ≠ '_' → Unspaced (isDigit c) cs ds → Unspaced b (c :: cs) (c :: ds)
  | underscore {c cs ds} : isDigit c = true → Unspaced true cs ds →
    Unspaced true ('_' :: c :: cs) (c :: ds)

theorem toAscii_eq_underscore {c : Char} : toAscii c = '_' ↔ c = '_' :=
  toAscii_eq_iff (by decide) (by decide) (by decide)

theorem dropUnderscores?_cons {c : Char} (hc : c ≠ '_') (b : Bool) (cs : List Char) :
    dropUnderscores? b ((c :: cs).map toAscii) =
      (dropUnderscores? (isDigit c) (cs.map toAscii)).map (toAscii c :: ·) := by
  have hascii : toAscii c ≠ '_' := mt toAscii_eq_underscore.mp hc
  rw [List.map_cons, dropUnderscores?, if_neg hascii, isAsciiDigit_toAscii]
  intro _ _ h
  exact absurd h hascii

theorem dropUnderscores?_underscore (b : Bool) (c : Char) (cs : List Char) :
    dropUnderscores? b (('_' :: c :: cs).map toAscii) =
      if b = true ∧ isDigit c = true then
        (dropUnderscores? true (cs.map toAscii)).map (toAscii c :: ·)
      else none := by
  rw [← isAsciiDigit_toAscii]
  rfl

theorem dropUnderscores?_of_unspaced {b : Bool} {cs ds : List Char} (h : Unspaced b cs ds) :
    dropUnderscores? b (cs.map toAscii) = some (ds.map toAscii) := by
  induction h with
  | nil => rfl
  | char hc _ ih =>
    rw [dropUnderscores?_cons hc, ih]
    rfl
  | underscore hd _ ih =>
    rw [dropUnderscores?_underscore, if_pos ⟨rfl, hd⟩, ih]
    rfl

theorem exists_unspaced : ∀ {b : Bool} {cs plain : List Char},
    dropUnderscores? b (cs.map toAscii) = some plain →
      ∃ ds, Unspaced b cs ds ∧ ds.map toAscii = plain
  | b, [], plain, h => by
    cases h
    exact ⟨[], .nil, rfl⟩
  | b, c :: cs, plain, h => by
    by_cases hc : c = '_'
    · subst hc
      cases cs with
      | nil => cases h
      | cons d cs =>
        rw [dropUnderscores?_underscore] at h
        split at h
        · next hb =>
          obtain ⟨p, hp, rfl⟩ := Option.map_eq_some_iff.mp h
          obtain ⟨ds, hds, rfl⟩ := exists_unspaced hp
          obtain ⟨rfl, hd⟩ := hb
          exact ⟨d :: ds, .underscore hd hds, rfl⟩
        · cases h
    · rw [dropUnderscores?_cons hc] at h
      obtain ⟨p, hp, rfl⟩ := Option.map_eq_some_iff.mp h
      obtain ⟨ds, hds, rfl⟩ := exists_unspaced hp
      exact ⟨c :: ds, .char hc hds, rfl⟩

theorem dropUnderscores?_eq_some_iff {b : Bool} {cs plain : List Char} :
    dropUnderscores? b (cs.map toAscii) = some plain ↔
      ∃ ds, Unspaced b cs ds ∧ ds.map toAscii = plain := by
  refine ⟨exists_unspaced, ?_⟩
  rintro ⟨ds, h, rfl⟩
  exact dropUnderscores?_of_unspaced h

section
variable {b : Bool} {cs ds : List Char}

theorem Unspaced.weaken (h : Unspaced false cs ds) : Unspaced b cs ds := by
  cases h with
  | nil => exact .nil
  | char hc h => exact .char hc h

theorem Unspaced.append {cs' ds' : List Char} (h : Unspaced b cs ds)
    (h' : Unspaced false cs' ds') : Unspaced b (cs ++ cs') (ds ++ ds') := by
  induction h with
  | nil => exact h'.weaken
  | char hc _ ih => exact .char hc ih
  | underscore hd _ ih => exact .underscore hd ih

theorem unspaced_self (h : ∀ c ∈ cs, c ≠ '_') : Unspaced b cs cs := by
  induction cs generalizing b with
  | nil => exact .nil
  | cons c cs ih =>
    rw [List.forall_mem_cons] at h
    exact .char h.1 (ih h.2)

theorem eq_of_unspaced (h : Unspaced b cs ds) (hds : ∀ c ∈ ds, isDigit c = false) : cs = ds := by
  induction h with
  | nil => rfl
  | char _ _ ih =>
    rw [List.forall_mem_cons] at hds
    rw [ih hds.2]
  | underscore hd _ _ =>
    rw [List.forall_mem_cons, hd] at hds
    exact absurd hds.1 (by decide)

theorem eq_or_mem_of_unspaced (h : Unspaced b cs ds) : ∀ c ∈ cs, c = '_' ∨ c ∈ ds := by
  induction h with
  | nil => simp
  | char _ _ ih =>
    rw [List.forall_mem_cons]
    exact ⟨.inr (by simp), fun c hc => (ih c hc).imp id (List.mem_cons_of_mem _)⟩
  | underscore _ _ ih =>
    rw [List.forall_mem_cons, List.forall_mem_cons]
    exact ⟨.inl rfl, .inr (by simp), fun c hc => (ih c hc).imp id (List.mem_cons_of_mem _)⟩

theorem eq_nil_of_unspaced (h : Unspaced b cs []) : cs = [] := by
  cases h
  rfl

theorem exists_of_unspaced {m p : List Char} (hp : ∀ c ∈ p.head?, isDigit c = false)
    (h : Unspaced b cs (m ++ p)) :
    ∃ front back, cs = front ++ back ∧ Unspaced b front m ∧ Unspaced false back p := by
  generalize hds : m ++ p = ds at h
  induction h generalizing m with
  | nil =>
    obtain ⟨rfl, rfl⟩ := List.append_eq_nil_iff.mp hds
    exact ⟨[], [], rfl, .nil, .nil⟩
  | @char b c cs ds hc h ih =>
    cases m with
    | nil =>
      rw [List.nil_append] at hds
      subst hds
      exact ⟨[], c :: cs, rfl, .nil, .char hc h⟩
    | cons d m =>
      obtain ⟨rfl, rfl⟩ := List.cons.inj hds
      obtain ⟨front, back, rfl, hfront, hback⟩ := ih rfl
      exact ⟨d :: front, back, rfl, .char hc hfront, hback⟩
  | @underscore c cs ds hd h ih =>
    cases m with
    | nil =>
      -- An underscore belongs to the digit behind it, so no cut can be between the two.
      rw [List.nil_append] at hds
      subst hds
      exact absurd (hp c rfl) (by simp [hd])
    | cons d m =>
      obtain ⟨rfl, rfl⟩ := List.cons.inj hds
      obtain ⟨front, back, rfl, hfront, hback⟩ := ih rfl
      exact ⟨'_' :: d :: front, back, rfl, .underscore hd hfront, hback⟩

theorem exists_of_unspaced_cons {c : Char} (hc : isDigit c = false)
    (h : Unspaced b cs (c :: ds)) : ∃ r, cs = c :: r ∧ Unspaced false r ds := by
  cases h with
  | char _ h =>
    rw [hc] at h
    exact ⟨_, rfl, h⟩
  | underscore hd _ =>
    rw [hc] at hd
    cases hd

/-! ## The parts of a number -/

theorem unspaced_digits (h : DigitPart cs) : ∃ ds, IsDigits ds ∧ Unspaced false cs ds := by
  have hne {c : Char} (hc : isDigit c = true) : c ≠ '_' := by
    rintro rfl
    exact absurd hc (by decide)
  induction h with
  | @last c hc => exact ⟨[c], ⟨by simp, by simpa using hc⟩, .char (hne hc) .nil⟩
  | @digit c cs hc _ ih =>
    obtain ⟨ds, hds, h⟩ := ih
    exact ⟨c :: ds, ⟨by simp, List.forall_mem_cons.mpr ⟨hc, hds.2⟩⟩, .char (hne hc) h.weaken⟩
  | @underscore c cs hc _ ih =>
    obtain ⟨ds, hds, h⟩ := ih
    refine ⟨c :: ds, ⟨by simp, List.forall_mem_cons.mpr ⟨hc, hds.2⟩⟩, .char (hne hc) ?_⟩
    rw [hc]
    cases h with
    | nil => exact absurd rfl hds.1
    | @char _ d cs ds hd h =>
      rw [hds.2 d (by simp)] at h
      exact .underscore (hds.2 d (by simp)) h

theorem digitPart_of_unspaced (h : Unspaced b cs ds) (hds : IsDigits ds) :
    DigitPart cs ∨ b = true ∧ ∃ r, cs = '_' :: r ∧ DigitPart r := by
  -- Both ways to go on, with a digit and with an underscore, leave a digit in front of the rest.
  have hcons {c : Char} {cs ds : List Char} (hc : isDigit c = true) (h : Unspaced true cs ds)
      (ih : IsDigits ds → DigitPart cs ∨ true = true ∧ ∃ r, cs = '_' :: r ∧ DigitPart r)
      (hds : ∀ d ∈ ds, isDigit d = true) : DigitPart (c :: cs) := by
    by_cases hnil : ds = []
    · subst hnil
      rw [eq_nil_of_unspaced h]
      exact .last hc
    · obtain hcs | ⟨-, r, rfl, hr⟩ := ih ⟨hnil, hds⟩
      · exact .digit hc hcs
      · exact .underscore hc hr
  induction h with
  | nil => exact absurd rfl hds.1
  | @char b c cs ds _ h ih =>
    obtain ⟨hc, hrest⟩ := List.forall_mem_cons.mp hds.2
    rw [hc] at h ih
    exact .inl (hcons hc h ih hrest)
  | @underscore c cs ds hc h ih =>
    exact .inr ⟨rfl, c :: cs, rfl, hcons hc h ih (List.forall_mem_cons.mp hds.2).2⟩

theorem digitPart_iff : DigitPart cs ↔ ∃ ds, IsDigits ds ∧ Unspaced false cs ds := by
  constructor
  · exact unspaced_digits
  · rintro ⟨ds, hds, h⟩
    obtain hcs | ⟨hb, -⟩ := digitPart_of_unspaced h hds
    · exact hcs
    · cases hb

theorem pointPart_iff : PointPart cs ↔ ∃ ds, Mantissa ds ∧ Unspaced false cs ds := by
  have hpoint : Unspaced false ['.'] ['.'] := .char (by decide) .nil
  have hnone : ∀ c ∈ ([] : List Char), isDigit c = true := by simp
  constructor
  · intro h
    cases h with
    | whole hw =>
      obtain ⟨ds, hds, h⟩ := digitPart_iff.mp hw
      exact ⟨ds, .whole hds, h⟩
    | point hw =>
      obtain ⟨ds, hds, h⟩ := digitPart_iff.mp hw
      exact ⟨ds ++ ['.'], .point hds hnone, h.append hpoint⟩
    | fraction hf =>
      obtain ⟨es, hes, h⟩ := digitPart_iff.mp hf
      exact ⟨'.' :: es, .fraction hes, hpoint.append h⟩
    | both hw hf =>
      obtain ⟨ds, hds, h⟩ := digitPart_iff.mp hw
      obtain ⟨es, hes, h'⟩ := digitPart_iff.mp hf
      exact ⟨ds ++ '.' :: es, .point hds hes.2, h.append (hpoint.append h')⟩
  · rintro ⟨ds, hds, h⟩
    cases hds with
    | whole hds => exact .whole (digitPart_iff.mpr ⟨_, hds, h⟩)
    | @point ds es hds hes =>
      obtain ⟨front, back, rfl, hfront, hback⟩ := exists_of_unspaced (isDigit_point es) h
      obtain ⟨r, rfl, hr⟩ := exists_of_unspaced_cons (by decide) hback
      have hw := digitPart_iff.mpr ⟨ds, hds, hfront⟩
      by_cases hnil : es = []
      · subst hnil
        rw [eq_nil_of_unspaced hr]
        exact .point hw
      · exact .both hw (digitPart_iff.mpr ⟨es, ⟨hnil, hes⟩, hr⟩)
    | @fraction es hes =>
      obtain ⟨r, rfl, hr⟩ := exists_of_unspaced_cons (by decide) h
      exact .fraction (digitPart_iff.mpr ⟨es, hes, hr⟩)

theorem unspaced_sign {sign : List Char} (hs : IsSign sign) (h : Unspaced false cs ds) :
    Unspaced false (sign ++ cs) (sign ++ ds) := by
  refine (unspaced_self ?_).append h
  obtain rfl | rfl | rfl := hs <;> simp

theorem exists_of_unspaced_sign {sign : List Char} (hs : IsSign sign)
    (h : Unspaced false cs (sign ++ ds)) : ∃ r, cs = sign ++ r ∧ Unspaced false r ds := by
  obtain rfl | rfl | rfl := hs
  · exact ⟨cs, rfl, h⟩
  · exact exists_of_unspaced_cons (by decide) h
  · exact exists_of_unspaced_cons (by decide) h

theorem isDigit_of_mark {e : Char} (he : e = 'e' ∨ e = 'E') : isDigit e = false := by
  obtain rfl | rfl := he <;> decide

theorem exponentPart_iff : ExponentPart cs ↔ ∃ ds, Power ds ∧ Unspaced false cs ds := by
  constructor
  · intro h
    cases h with
    | nil => exact ⟨[], .nil, .nil⟩
    | @cons e sign r he hs hr =>
      obtain ⟨ds, hds, h⟩ := digitPart_iff.mp hr
      have hne : e ≠ '_' := by obtain rfl | rfl := he <;> decide
      exact ⟨e :: (sign ++ ds), .cons he hs hds, .char hne (unspaced_sign hs h).weaken⟩
  · rintro ⟨ds, hds, h⟩
    cases hds with
    | nil =>
      rw [eq_nil_of_unspaced h]
      exact .nil
    | cons he hs hds =>
      obtain ⟨r, rfl, hr⟩ := exists_of_unspaced_cons (isDigit_of_mark he) h
      obtain ⟨q, rfl, hq⟩ := exists_of_unspaced_sign hs hr
      exact .cons he hs (digitPart_iff.mpr ⟨_, hds, hq⟩)

end

end Number
end StackForest
