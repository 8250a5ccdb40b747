import CobolFlow.Json.Draft
import CobolFlow.Json.Value
import Mathlib.Data.List.Basic
import Mathlib.Data.Nat.Basic

/-!
# Written strings and numbers are read back

A character that is written with an escape is read back from the escape, and a natural number that
fits a 64-bit word from its digits.

## Main definitions

* `pieces`, `numeral` — as what a string and a number are read
* `Stops` — what may follow a number

## Main results

* `spell_pieces`, `value_numeral` — what is read stands for what was written
* `ofString_quote`, `scanNumber_toDigits` — what is written is read
-/

namespace CobolFlow.Json

/-! ### Strings -/

/-- A character stands for itself, or for a letter, or for its number. -/
theorem escape_cases (c : Char) :
    (escape c = [c] ∧ c ≠ '"' ∧ c ≠ '\\' ∧ 0x20 ≤ c.toNat) ∨
    (∃ letter, escape c = ['\\', letter] ∧ letter ≠ 'u' ∧ letterEscape? letter = some c) ∨
    (escape c = ['\\', 'u', '0', '0', hexDigit (c.toNat / 16), hexDigit c.toNat] ∧
      c.toNat < 0x20) := by
  unfold escape
  split
  · exact .inr (.inl ⟨_, rfl, by decide, rfl⟩)
  · exact .inr (.inl ⟨_, rfl, by decide, rfl⟩)
  · exact .inr (.inl ⟨_, rfl, by decide, rfl⟩)
  · exact .inr (.inl ⟨_, rfl, by decide, rfl⟩)
  · exact .inr (.inl ⟨_, rfl, by decide, rfl⟩)
  · exact .inr (.inl ⟨_, rfl, by decide, rfl⟩)
  · exact .inr (.inl ⟨_, rfl, by decide, rfl⟩)
  · next hquote hslash _ _ _ _ _ =>
    split
    · next hlow => exact .inr (.inr ⟨rfl, hlow⟩)
    · next hhigh => exact .inl ⟨rfl, hquote, hslash, not_lt.1 hhigh⟩

/-- The piece as which a character is read. -/
def piece (c : Char) : Piece := if (escape c).length = 6 then .unit c.toNat else .char c

theorem hexValue?_hexDigit (n : ℕ) : hexValue? (hexDigit n) = some (n % 16) := by
  have hall : ∀ m : Fin 16, hexValue? (Nat.digitChar m) = some m.val := by decide
  exact hall ⟨n % 16, Nat.mod_lt n (by decide)⟩

/-- A character that needs no escape. -/
theorem scanString_cons {c : Char} (hquote : c ≠ '"') (hslash : c ≠ '\\')
    (hhigh : 0x20 ≤ c.toNat) (cs : List Char) :
    scanString (c :: cs) = (.char c :: (scanString cs).1, (scanString cs).2) := by
  rw [scanString]
  · exact if_neg hhigh.not_gt
  · exact hquote
  · exact fun rest hc => absurd hc hslash
  · exact fun hc => absurd hc hslash
  · exact fun letter rest hc => absurd hc hslash

theorem scanString_escape (c : Char) (cs : List Char) :
    scanString (escape c ++ cs) = (piece c :: (scanString cs).1, (scanString cs).2) := by
  obtain ⟨h, hquote, hslash, hhigh⟩ | ⟨letter, h, hletter, hc⟩ | ⟨h, hlow⟩ := escape_cases c
  · rw [piece, h]
    exact scanString_cons hquote hslash hhigh cs
  · rw [piece, h]
    simp [scanString, hc]
  · have hvalue : c.toNat / 16 % 16 * 16 + c.toNat % 16 = c.toNat := by omega
    rw [piece, h]
    simp [scanString, hexValue?_hexDigit, hvalue, show hexValue? '0' = some 0 from rfl]

theorem scanString_flatMap (cs tail : List Char) :
    scanString (cs.flatMap escape ++ '"' :: tail) = (cs.map piece, .ok tail) := by
  induction cs with
  | nil => rw [List.flatMap_nil, List.nil_append, scanString, List.map_nil]
  | cons c cs ih => rw [List.flatMap_cons, List.append_assoc, scanString_escape, ih, List.map_cons]

theorem spell_map_piece (cs : List Char) : spell none (cs.map piece) = .ok cs := by
  induction cs with
  | nil => rfl
  | cons c cs ih =>
    rw [List.map_cons, piece]
    split
    · next hlength =>
      have hlow : c.toNat < 0x20 := by
        obtain ⟨h, -⟩ | ⟨letter, h, -⟩ | ⟨-, hlow⟩ := escape_cases c
        · simp [h] at hlength
        · simp [h] at hlength
        · exact hlow
      have htrailing : isTrailing c.toNat = false := by simp [isTrailing]; omega
      have hleading : isLeading c.toNat = false := by simp [isLeading]; omega
      rw [spell.eq_def]
      simp only [htrailing, hleading, ih, Char.ofNat_toNat, Bool.false_eq_true, if_false]
      rfl
    · rw [spell, ih]
      rfl

/-- The pieces as which a string is read. -/
def pieces (s : String) : List Piece := s.toList.map piece

theorem spell_pieces (s : String) : spell none (pieces s) = .ok s.toList := spell_map_piece s.toList

theorem ofString_quote (s : String) (tail : List Char) :
    Draft.ofString (s.toList.flatMap escape ++ '"' :: tail) = (.string (pieces s), some tail) := by
  rw [Draft.ofString, scanString_flatMap]
  rfl

/-! ### Numbers -/

/-- The numeral as which a natural number is read. -/
def numeral (n : ℕ) : Numeral where
  negative := false
  whole := Nat.toDigits 10 n

/-- Digits are taken in as long as the number fits a word. -/
theorem absorb_eq {cs : List Char} {n : ℕ} (h : Nat.ofDigitChars 10 cs n < UInt64.size) :
    Numeral.absorb n cs = (Nat.ofDigitChars 10 cs n, []) := by
  induction cs generalizing n with
  | nil => rfl
  | cons c cs ih =>
    have hgrows : ∀ (cs : List Char) (n : ℕ), n ≤ Nat.ofDigitChars 10 cs n := by
      intro cs
      induction cs with
      | nil => exact fun n => le_rfl
      | cons c cs ih => exact fun n => le_trans (by omega) (ih (10 * n + (c.toNat - '0'.toNat)))
    have hnext : 10 * n + Numeral.digitValue c < UInt64.size := lt_of_le_of_lt (hgrows cs _) h
    rw [Numeral.absorb]
    exact (if_pos hnext).trans (ih h)

theorem value_numeral {n : ℕ} (h : n < UInt64.size) : (numeral n).value = .natural n := by
  have hdigits : Nat.ofDigitChars 10 (Nat.toDigits 10 n) 0 = n :=
    Nat.ofDigitChars_ten_toDigits
  have habsorb : Numeral.absorb 0 (Nat.toDigits 10 n) = (n, []) := by
    rw [absorb_eq (hdigits.symm ▸ h), hdigits]
  simp [Numeral.value, numeral, habsorb]

/-- No number is written with a zero before other digits. -/
theorem head?_toDigits_ne {n : ℕ} (hn : n ≠ 0) : (Nat.toDigits 10 n).head? ≠ some '0' := by
  induction n using Nat.strong_induction_on with
  | _ n ih =>
    rw [Nat.toDigits_eq_if (by decide)]
    split
    · next hlt =>
      have hall : ∀ m : Fin 10, m.val ≠ 0 → [Nat.digitChar m].head? ≠ some '0' := by decide
      exact hall ⟨n, hlt⟩ hn
    · next hge =>
      have hdiv : n / 10 ≠ 0 := by omega
      have hne := ih (n / 10) (by omega) hdiv
      rwa [List.head?_append_of_ne_nil _ Nat.toDigits_ne_nil]

/-- What may follow a value. -/
def Stops (tail : List Char) : Prop :=
  ∀ c ∈ tail.head?, c = ',' ∨ c = ']' ∨ c = '}' ∨ isBlank c = true

theorem Stops.cons_cases {c : Char} {tail : List Char} (h : Stops (c :: tail)) :
    c.isDigit = false ∧ c ≠ '.' ∧ c ≠ 'e' ∧ c ≠ 'E' := by
  obtain rfl | rfl | rfl | hblank := h c rfl
  · decide
  · decide
  · decide
  · simp only [isBlank, Bool.or_eq_true, decide_eq_true_eq] at hblank
    obtain ((rfl | rfl) | rfl) | rfl := hblank <;> decide

theorem takeWhile_toDigits (n : ℕ) {tail : List Char} (h : Stops tail) :
    (Nat.toDigits 10 n ++ tail).takeWhile Char.isDigit = Nat.toDigits 10 n ∧
      (Nat.toDigits 10 n ++ tail).dropWhile Char.isDigit = tail := by
  have hdigits : ∀ c ∈ Nat.toDigits 10 n, c.isDigit = true := fun c hc =>
    Nat.isDigit_of_mem_toDigits (by decide) le_rfl hc
  have htail : tail.takeWhile Char.isDigit = [] ∧ tail.dropWhile Char.isDigit = tail := by
    cases tail with
    | nil => exact ⟨rfl, rfl⟩
    | cons c tail => simp [h.cons_cases.1]
  rw [List.takeWhile_append_of_pos hdigits, List.dropWhile_append_of_pos hdigits, htail.1, htail.2,
    List.append_nil]
  exact ⟨rfl, rfl⟩

theorem scanWhole_toDigits (n : ℕ) {tail : List Char} (h : Stops tail) :
    scanWhole (Nat.toDigits 10 n ++ tail) = .ok (Nat.toDigits 10 n, tail) := by
  obtain rfl | hn := eq_or_ne n 0
  · have hdigit : tail.head?.any Char.isDigit = false := by
      cases tail with
      | nil => rfl
      | cons c tail => exact h.cons_cases.1
    change (if tail.head?.any Char.isDigit then _ else _) = _
    rw [hdigit]
    rfl
  · obtain ⟨htake, hdrop⟩ := takeWhile_toDigits n h
    have hzero := head?_toDigits_ne hn
    have hdigit : ∀ c ∈ (Nat.toDigits 10 n).head?, c.isDigit = true := fun c hc =>
      Nat.isDigit_of_mem_toDigits (by decide) le_rfl (List.mem_of_mem_head? hc)
    cases hdigits : Nat.toDigits 10 n with
    | nil => exact absurd hdigits Nat.toDigits_ne_nil
    | cons c cs =>
      rw [hdigits] at htake hdrop hzero hdigit
      have hc : c ≠ '0' := fun hc => hzero (congrArg some hc)
      rw [List.cons_append] at htake hdrop ⊢
      rw [scanWhole]
      · rw [scanDigits, htake, hdrop]
        exact if_pos (hdigit c rfl)
      · exact fun rest hrest => absurd (List.cons.inj hrest).1 hc

theorem scanFraction_of_stops (n : Numeral) {tail : List Char} (h : Stops tail) :
    scanFraction n tail = .ok (n, tail) := by
  rw [scanFraction]
  rintro rest rfl
  exact h.cons_cases.2.1 rfl

theorem scanExponent_of_stops (n : Numeral) {tail : List Char} (h : Stops tail) :
    scanExponent n tail = .ok (n, tail) := by
  cases tail with
  | nil => rfl
  | cons c tail =>
    obtain ⟨-, -, hlower, hupper⟩ := h.cons_cases
    rw [scanExponent.eq_def]
    exact if_neg (by simp [hlower, hupper])

theorem scanNumber_toDigits (n : ℕ) {tail : List Char} (h : Stops tail) :
    scanNumber (Nat.toDigits 10 n ++ tail) = .ok (numeral n, tail) := by
  have hsign : ∀ rest, Nat.toDigits 10 n ++ tail ≠ '-' :: rest := by
    intro rest heq
    have hmem : '-' ∈ Nat.toDigits 10 n := by
      cases hdigits : Nat.toDigits 10 n with
      | nil => exact absurd hdigits Nat.toDigits_ne_nil
      | cons c cs =>
        rw [hdigits] at heq
        exact (List.cons.inj heq).1 ▸ List.mem_cons_self
    exact absurd (Nat.isDigit_of_mem_toDigits (by decide) le_rfl hmem) (by decide)
  rw [scanNumber]
  · change (scanWhole (Nat.toDigits 10 n ++ tail) >>= _) = _
    rw [scanWhole_toDigits n h]
    change (scanFraction (numeral n) tail >>= _) = _
    rw [scanFraction_of_stops _ h]
    exact scanExponent_of_stops _ h
  · exact hsign

end CobolFlow.Json
