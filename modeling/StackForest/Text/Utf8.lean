import StackForest.Text.Hex

/-!
# UTF-8

The byte form of a text. Reading is a machine over the bytes: between characters, or inside one
that still owes continuation bytes. It stops at the first byte that no UTF-8 text can hold there,
and says which bytes of the broken character it had already taken.
-/

namespace StackForest.Text.Utf8

/-! ## Writing -/

def encodeChar (c : Char) : List UInt8 :=
  let n := c.toNat
  let tail (k : Nat) : UInt8 := .ofNat (0x80 + k % 64)
  if n < 0x80 then [.ofNat n]
  else if n < 0x800 then [.ofNat (0xC0 + n / 64), tail n]
  else if n < 0x10000 then [.ofNat (0xE0 + n / 4096), tail (n / 64), tail n]
  else [.ofNat (0xF0 + n / 262144), tail (n / 4096), tail (n / 64), tail n]

def encode (cs : List Char) : List UInt8 :=
  cs.flatMap encodeChar

/-! ## Reading -/

inductive Reason where
  | invalidStart
  | invalidContinuation
  | unexpectedEnd
  deriving DecidableEq, Repr

/-- Bytes that are no character: `first` and `last` are their offsets, `byte` is the first one. -/
structure Fault where
  byte : UInt8
  first : Nat
  last : Nat
  reason : Reason
  deriving DecidableEq, Repr

def Reason.message : Reason → String
  | invalidStart => "invalid start byte"
  | invalidContinuation => "invalid continuation byte"
  | unexpectedEnd => "unexpected end of data"

def Fault.message (f : Fault) : String :=
  let place :=
    if f.first = f.last then
      "byte 0x" ++ .ofList (hex 2 f.byte.toNat) ++ s!" in position {f.first}"
    else s!"bytes in position {f.first}-{f.last}"
  "'utf-8' codec can't decode " ++ place ++ ": " ++ f.reason.message

/-- A character whose first byte was read: how many continuation bytes it still owes, the range
of the next one, the code point so far, and the bytes taken. -/
structure Pending where
  owed : Nat
  low : Nat
  high : Nat
  value : Nat
  first : UInt8
  taken : Nat

/-- What a first byte begins. The second byte's range keeps out overlong forms, surrogates and
everything beyond U+10FFFF. -/
def lead? (b : UInt8) : Option Pending :=
  let n := b.toNat
  if 0xC2 ≤ n ∧ n ≤ 0xDF then some ⟨1, 0x80, 0xBF, n - 0xC0, b, 1⟩
  else if n = 0xE0 then some ⟨2, 0xA0, 0xBF, 0, b, 1⟩
  else if n = 0xED then some ⟨2, 0x80, 0x9F, 0xD, b, 1⟩
  else if 0xE1 ≤ n ∧ n ≤ 0xEF then some ⟨2, 0x80, 0xBF, n - 0xE0, b, 1⟩
  else if n = 0xF0 then some ⟨3, 0x90, 0xBF, 0, b, 1⟩
  else if n = 0xF4 then some ⟨3, 0x80, 0x8F, 4, b, 1⟩
  else if 0xF1 ≤ n ∧ n ≤ 0xF3 then some ⟨3, 0x80, 0xBF, n - 0xF0, b, 1⟩
  else none

/-- The machine, in front of the byte at `offset`; `acc` holds the characters read, newest
first. -/
def run (offset : Nat) (acc : List Char) : Option Pending → List UInt8 → Except Fault (List Char)
  | none, [] => .ok acc.reverse
  | some p, [] => .error ⟨p.first, offset - p.taken, offset - 1, .unexpectedEnd⟩
  | none, b :: bs =>
    if b.toNat < 0x80 then run (offset + 1) (.ofNat b.toNat :: acc) none bs
    else match lead? b with
      | some p => run (offset + 1) acc (some p) bs
      | none => .error ⟨b, offset, offset, .invalidStart⟩
  | some p, b :: bs =>
    if p.low ≤ b.toNat ∧ b.toNat ≤ p.high then
      let value := 64 * p.value + (b.toNat - 0x80)
      if p.owed ≤ 1 then run (offset + 1) (.ofNat value :: acc) none bs
      else run (offset + 1) acc (some ⟨p.owed - 1, 0x80, 0xBF, value, p.first, p.taken + 1⟩) bs
    else .error ⟨p.first, offset - p.taken, offset - 1, .invalidContinuation⟩

def decode (bytes : List UInt8) : Except Fault (List Char) :=
  run 0 [] none bytes

/-! ## Reading back -/

theorem toNat_byte {n : Nat} (h : n < 256) : (UInt8.ofNat n).toNat = n :=
  UInt8.toNat_ofNat_of_lt h

theorem run_lead {offset : Nat} {acc : List Char} {b : UInt8} {bs : List UInt8} {p : Pending}
    (hb : 0x80 ≤ b.toNat) (h : lead? b = some p) :
    run offset acc none (b :: bs) = run (offset + 1) acc (some p) bs := by
  rw [run, if_neg (by omega), h]

theorem run_tail {offset n k owed low high : Nat} {acc : List Char} {first : UInt8} {taken : Nat}
    {bs : List UInt8} (hlow : low ≤ 0x80 + k % 64) (hhigh : 0x80 + k % 64 ≤ high) (ho : 1 < owed) :
    run offset acc (some ⟨owed, low, high, n, first, taken⟩) (.ofNat (0x80 + k % 64) :: bs) =
      run (offset + 1) acc (some ⟨owed - 1, 0x80, 0xBF, 64 * n + k % 64, first, taken + 1⟩) bs := by
  rw [run]
  simp only [toNat_byte (show 0x80 + k % 64 < 256 by omega)]
  rw [if_pos ⟨hlow, hhigh⟩, if_neg (by omega), Nat.add_sub_cancel_left]

theorem run_last {offset n k low high : Nat} {acc : List Char} {first : UInt8} {taken : Nat}
    {bs : List UInt8} (c : Char) (hlow : low ≤ 0x80 + k % 64) (hhigh : 0x80 + k % 64 ≤ high)
    (hc : 64 * n + k % 64 = c.toNat) :
    run offset acc (some ⟨1, low, high, n, first, taken⟩) (.ofNat (0x80 + k % 64) :: bs) =
      run (offset + 1) (c :: acc) none bs := by
  rw [run]
  simp only [toNat_byte (show 0x80 + k % 64 < 256 by omega)]
  rw [if_pos ⟨hlow, hhigh⟩, if_pos (by omega), Nat.add_sub_cancel_left, hc, Char.ofNat_toNat]

theorem lead?_two {k : Nat} (h₁ : 2 ≤ k) (h₂ : k < 32) :
    lead? (.ofNat (0xC0 + k)) = some ⟨1, 0x80, 0xBF, k, .ofNat (0xC0 + k), 1⟩ := by
  unfold lead?
  simp only [toNat_byte (show 0xC0 + k < 256 by omega)]
  rw [if_pos (by omega), Nat.add_sub_cancel_left]

/-- The second byte of a three-byte character is in the range that its first byte sets. -/
theorem lead?_three {k t : Nat} (hk : k < 16) (ht : t < 64) (h₀ : k = 0 → 32 ≤ t)
    (hd : k = 13 → t < 32) :
    ∃ low high, lead? (.ofNat (0xE0 + k)) = some ⟨2, low, high, k, .ofNat (0xE0 + k), 1⟩ ∧
      low ≤ 0x80 + t ∧ 0x80 + t ≤ high := by
  unfold lead?
  simp only [toNat_byte (show 0xE0 + k < 256 by omega)]
  rw [if_neg (by omega)]
  by_cases hz : k = 0
  · subst hz
    exact ⟨0xA0, 0xBF, rfl, by have := h₀ rfl; omega, by omega⟩
  · rw [if_neg (by omega)]
    by_cases hs : k = 13
    · subst hs
      exact ⟨0x80, 0x9F, rfl, by omega, by have := hd rfl; omega⟩
    · rw [if_neg (by omega), if_pos (by omega), Nat.add_sub_cancel_left]
      exact ⟨0x80, 0xBF, rfl, by omega, by omega⟩

theorem lead?_four {k t : Nat} (hk : k < 5) (ht : t < 64) (h₀ : k = 0 → 16 ≤ t)
    (h₄ : k = 4 → t < 16) :
    ∃ low high, lead? (.ofNat (0xF0 + k)) = some ⟨3, low, high, k, .ofNat (0xF0 + k), 1⟩ ∧
      low ≤ 0x80 + t ∧ 0x80 + t ≤ high := by
  unfold lead?
  simp only [toNat_byte (show 0xF0 + k < 256 by omega)]
  rw [if_neg (by omega), if_neg (by omega), if_neg (by omega), if_neg (by omega)]
  by_cases hz : k = 0
  · subst hz
    exact ⟨0x90, 0xBF, rfl, by have := h₀ rfl; omega, by omega⟩
  · rw [if_neg (by omega)]
    by_cases hs : k = 4
    · subst hs
      exact ⟨0x80, 0x8F, rfl, by omega, by have := h₄ rfl; omega⟩
    · rw [if_neg (by omega), if_pos (by omega), Nat.add_sub_cancel_left]
      exact ⟨0x80, 0xBF, rfl, by omega, by omega⟩

theorem run_encodeChar (offset : Nat) (acc : List Char) (c : Char) (bs : List UInt8) :
    run offset acc none (encodeChar c ++ bs) =
      run (offset + (encodeChar c).length) (c :: acc) none bs := by
  have hv := c.valid
  simp only [UInt32.isValidChar, Nat.isValidChar] at hv
  change c.toNat < 0xD800 ∨ 0xDFFF < c.toNat ∧ c.toNat < 0x110000 at hv
  unfold encodeChar
  simp only
  split
  · next h =>
    rw [List.singleton_append, run]
    simp only [toNat_byte (show c.toNat < 256 by omega)]
    rw [if_pos h, Char.ofNat_toNat]
    rfl
  · split
    · next h =>
      simp only [List.cons_append, List.nil_append, List.length_cons, List.length_nil]
      rw [run_lead (by rw [toNat_byte (by omega)]; omega) (lead?_two (by omega) (by omega)),
        run_last c (by omega) (by omega) (by omega)]
    · split
      · next h =>
        obtain ⟨low, high, hl, h₁, h₂⟩ := @lead?_three (c.toNat / 4096) (c.toNat / 64 % 64)
          (by omega) (by omega) (by omega) (by omega)
        simp only [List.cons_append, List.nil_append, List.length_cons, List.length_nil]
        rw [run_lead (by rw [toNat_byte (by omega)]; omega) hl, run_tail h₁ h₂ (by omega),
          run_last c (by omega) (by omega) (by omega)]
      · next h =>
        obtain ⟨low, high, hl, h₁, h₂⟩ := @lead?_four (c.toNat / 262144) (c.toNat / 4096 % 64)
          (by omega) (by omega) (by omega) (by omega)
        simp only [List.cons_append, List.nil_append, List.length_cons, List.length_nil]
        rw [run_lead (by rw [toNat_byte (by omega)]; omega) hl, run_tail h₁ h₂ (by omega),
          run_tail (by omega) (by omega) (by omega), run_last c (by omega) (by omega) (by omega)]

theorem run_encode (offset : Nat) (acc cs : List Char) :
    run offset acc none (encode cs) = .ok (acc.reverse ++ cs) := by
  induction cs generalizing offset acc with
  | nil => simp [encode, run]
  | cons c cs ih =>
    rw [encode, List.flatMap_cons, run_encodeChar]
    rw [encode] at ih
    rw [ih, List.reverse_cons, List.append_assoc, List.singleton_append]

/-- A text is read back from its bytes. -/
theorem decode_encode (cs : List Char) : decode (encode cs) = .ok cs :=
  run_encode 0 [] cs

end StackForest.Text.Utf8
