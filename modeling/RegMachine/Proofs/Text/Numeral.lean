import RegMachine.Asm.Operand
import RegMachine.Proofs.Text.Lines

/-!
# Reading numbers back

Every notation that numbers are written in is read back to the same number:
plain decimals as registers and forward references are written in, decimals
behind a sign, and hexadecimal digits with and without `0x` in front.

All of them rest on one law of digits, `Text.readDigits?_toDigits`, which holds
in every base up to sixteen. What is left to see is that digits start with no
sign and with no `0x`, so that the optional parts of a reader do not touch
them.
-/

namespace RegMachine

namespace Text

/-! ## Digits -/

/-- **A digit is read back**, in every base up to sixteen. -/
theorem digit?_digitChar {base d : Nat} (hd : d < base) (hbase : base ≤ 16) :
    digit? base d.digitChar = some d := by
  have hvalue : ∀ d < 16,
      (('0' ≤ d.digitChar ∧ d.digitChar ≤ '9') ∧ d.digitChar.toNat - '0'.toNat = d)
        ∨ (¬ ('0' ≤ d.digitChar ∧ d.digitChar ≤ '9') ∧ ('a' ≤ d.digitChar ∧ d.digitChar ≤ 'z')
          ∧ d.digitChar.toNat - 'a'.toNat + 10 = d) := by
    decide
  unfold digit?
  rcases hvalue d (by omega) with ⟨hdec, hd'⟩ | ⟨hdec, hhex, hd'⟩
  · simp only [if_pos hdec, hd', if_pos hd]
  · simp only [if_neg hdec, if_pos hhex, hd', if_pos hd]

/-- Reading goes on behind digits that were read. -/
theorem readDigitsFrom?_append {base value : Nat} {cs : List Char} {n : Nat}
    (h : readDigitsFrom? base value cs = some n) (rest : List Char) :
    readDigitsFrom? base value (cs ++ rest) = readDigitsFrom? base n rest := by
  induction cs generalizing value with
  | nil =>
    cases h
    rfl
  | cons c cs ih =>
    rw [List.cons_append, readDigitsFrom?]
    rw [readDigitsFrom?] at h
    cases hc : digit? base c with
    | none =>
      rw [hc] at h
      exact nomatch h
    | some d =>
      rw [hc] at h
      exact ih h

theorem readDigitsFrom?_toDigits {base : Nat} (h₁ : 1 < base) (h₂ : base ≤ 16) (n : Nat) :
    readDigitsFrom? base 0 (Nat.toDigits base n) = some n := by
  induction n using Nat.strongRecOn with
  | ind n ih =>
    rw [Nat.toDigits_eq_if h₁]
    split
    next hlt =>
      rw [readDigitsFrom?, digit?_digitChar hlt h₂]
      show some (base * 0 + n) = some n
      rw [Nat.mul_zero, Nat.zero_add]
    next hge =>
      have hdiv : n / base < n := Nat.div_lt_self (by omega) h₁
      have hmod : n % base < base := Nat.mod_lt n (by omega)
      rw [readDigitsFrom?_append (ih _ hdiv), readDigitsFrom?, digit?_digitChar hmod h₂]
      show some (base * (n / base) + n % base) = some n
      rw [Nat.div_add_mod]

/-- **The digits of a number are read back**, in every base up to sixteen. -/
theorem readDigits?_toDigits {base : Nat} (h₁ : 1 < base) (h₂ : base ≤ 16) (n : Nat) :
    readDigits? base (Nat.toDigits base n) = some n := by
  rw [readDigits?, readDigitsFrom?_toDigits h₁ h₂]
  exact Nat.toDigits_ne_nil

/-- The characters that digits are written with. -/
def isDigitChar (c : Char) : Bool :=
  ('0' ≤ c && c ≤ '9') || ('a' ≤ c && c ≤ 'f')

theorem isDigitChar_of_mem_toDigits {base : Nat} (h₁ : 1 < base) (h₂ : base ≤ 16) {n : Nat}
    {c : Char} (hc : c ∈ Nat.toDigits base n) : isDigitChar c = true := by
  have hdigit : ∀ d < 16, isDigitChar d.digitChar = true := by decide
  induction n using Nat.strongRecOn with
  | ind n ih =>
    rw [Nat.toDigits_eq_if h₁] at hc
    split at hc
    next hlt =>
      rw [List.mem_singleton.mp hc]
      exact hdigit n (by omega)
    next hge =>
      have hdiv : n / base < n := Nat.div_lt_self (by omega) h₁
      have hmod : n % base < base := Nat.mod_lt n (by omega)
      rcases List.mem_append.mp hc with hc | hc
      · exact ih _ hdiv hc
      · rw [List.mem_singleton.mp hc]
        exact hdigit (n % base) (by omega)

/-- A character that is no digit stands nowhere among digits. -/
theorem not_mem_toDigits {base : Nat} (h₁ : 1 < base) (h₂ : base ≤ 16) {c : Char}
    (hc : isDigitChar c = false) (n : Nat) : c ∉ Nat.toDigits base n := fun hmem => by
  rw [isDigitChar_of_mem_toDigits h₁ h₂ hmem] at hc
  exact nomatch hc

/-- From the first digit to the last letter no character of ASCII is a
separator. -/
theorem isSeparator_eq_false {c : Char} (hlow : 48 ≤ c.toNat) (hhigh : c.toNat ≤ 122) :
    SourceLine.isSeparator c = false := by
  have hcomma : c ≠ ',' := by
    rintro rfl
    exact absurd hlow (by decide)
  simp only [SourceLine.isSeparator, hcomma, isBlank, decide_false, Bool.false_or,
    Bool.or_eq_false_iff, Bool.and_eq_false_iff, decide_eq_false_iff_not, beq_eq_false_iff_ne]
  omega

theorem isSeparator_of_isDigitChar {c : Char} (h : isDigitChar c = true) :
    SourceLine.isSeparator c = false := by
  have hle : ∀ a b : Char, a ≤ b ↔ a.toNat ≤ b.toNat := fun _ _ => Iff.rfl
  simp only [isDigitChar, Bool.or_eq_true, Bool.and_eq_true, decide_eq_true_eq, hle] at h
  simp only [Char.reduceToNat] at h
  exact isSeparator_eq_false (by omega) (by omega)

/-- Digits make a word. -/
theorem isWord_ofList_toDigits {base : Nat} (h₁ : 1 < base) (h₂ : base ≤ 16) (n : Nat) :
    IsWord (String.ofList (Nat.toDigits base n)) where
  ne_nil := by
    rw [String.toList_ofList]
    exact Nat.toDigits_ne_nil
  isSeparator := fun c hc => by
    rw [String.toList_ofList] at hc
    exact isSeparator_of_isDigitChar (isDigitChar_of_mem_toDigits h₁ h₂ hc)
  ne_semicolon := fun c hc => by
    rw [String.toList_ofList] at hc
    rintro rfl
    exact not_mem_toDigits h₁ h₂ (by decide) n hc

/-! ## Decimals -/

theorem toList_decimal (n : Nat) : (decimal n).toList = Nat.toDigits 10 n :=
  String.toList_ofList

theorem isWord_decimal (n : Nat) : IsWord (decimal n) :=
  isWord_ofList_toDigits (by decide) (by decide) n

/-- **A plain decimal is read back**, if it is in the reader's range. -/
theorem readUnsigned?_toDigits {limit n : Nat} (h : n < limit) :
    readUnsigned? limit (Nat.toDigits 10 n) = some n := by
  have hplus := not_mem_toDigits (show 1 < 10 by decide) (by decide)
    (show isDigitChar '+' = false by decide) n
  unfold readUnsigned?
  dsimp only
  split
  next rest hrest =>
    rw [hrest] at hplus
    exact absurd List.mem_cons_self hplus
  next => rw [readDigits?_toDigits (by decide) (by decide), Option.filter_some, if_pos (by simpa)]

/-- **Digits are read back as a signed number.** -/
theorem readSigned?_toDigits {base n : Nat} (h₁ : 1 < base) (h₂ : base ≤ 16)
    (hn : n < 0x8000000000000000) :
    readSigned? base (Nat.toDigits base n) = some (Int64.ofNat n) := by
  have hplus := not_mem_toDigits h₁ h₂ (show isDigitChar '+' = false by decide) n
  have hminus := not_mem_toDigits h₁ h₂ (show isDigitChar '-' = false by decide) n
  unfold readSigned?
  dsimp only
  split
  next rest hrest =>
    rw [hrest] at hplus
    exact absurd List.mem_cons_self hplus
  next rest hrest =>
    rw [hrest] at hminus
    exact absurd List.mem_cons_self hminus
  next =>
    rw [readDigits?_toDigits h₁ h₂, Option.map_some, Option.filter_some, if_pos, Option.map_some]
    · exact congrArg some Int64.ofInt_eq_ofNat
    · simp only [Bool.and_eq_true, decide_eq_true_eq, Int.ofNat_eq_natCast]
      omega

/-- **Digits behind a minus sign are read back as a signed number.** -/
theorem readSigned?_minus_toDigits {base n : Nat} (h₁ : 1 < base) (h₂ : base ≤ 16)
    (hn : n ≤ 0x8000000000000000) :
    readSigned? base ('-' :: Nat.toDigits base n) = some (Int64.ofInt (-(n : Int))) := by
  show (((readDigits? base (Nat.toDigits base n)).map fun n => -Int.ofNat n).filter _).map _ = _
  rw [readDigits?_toDigits h₁ h₂, Option.map_some, Option.filter_some, if_pos, Option.map_some]
  · rfl
  · simp only [Bool.and_eq_true, decide_eq_true_eq, Int.ofNat_eq_natCast]
    omega

theorem isWord_signedDecimal (value : Int) : IsWord (signedDecimal value) := by
  cases value with
  | ofNat n => exact isWord_decimal n
  | negSucc n => exact .append (by decide) (isWord_decimal (n + 1))

/-- **A signed decimal of 64 bits is read back.** -/
theorem readSigned?_signedDecimal (value : Int64) :
    readSigned? 10 (signedDecimal value.toInt).toList = some value := by
  have hle := Int64.le_toInt value
  have hlt := Int64.toInt_lt value
  have hword := Int64.ofInt_toInt value
  cases hvalue : value.toInt with
  | ofNat n =>
    rw [hvalue, Int.ofNat_eq_natCast] at hlt hword
    rw [signedDecimal, toList_decimal, readSigned?_toDigits (by decide) (by decide) (by omega),
      ← Int64.ofInt_eq_ofNat, hword]
  | negSucc n =>
    rw [hvalue] at hle hword
    rw [signedDecimal, String.toList_append, toList_decimal]
    show readSigned? 10 ('-' :: Nat.toDigits 10 (n + 1)) = _
    rw [readSigned?_minus_toDigits (by decide) (by decide) (by omega)]
    exact congrArg some hword

/-! ## Hexadecimal numbers -/

theorem toList_hexDigits (n : Nat) : (hexDigits n).toList = Nat.toDigits 16 n :=
  String.toList_ofList

theorem toList_hexAddress (address : UInt32) :
    (hexAddress address).toList = '0' :: 'x' :: Nat.toDigits 16 address.toNat := by
  rw [hexAddress, String.toList_append, toList_hexDigits]
  rfl

theorem isWord_hexDigits (n : Nat) : IsWord (hexDigits n) :=
  isWord_ofList_toDigits (by decide) (by decide) n

theorem isWord_hexAddress (address : UInt32) : IsWord (hexAddress address) :=
  .append (by decide) (isWord_hexDigits _)

end Text

/-- **Bare hexadecimal digits are read back.** They start with no sign and with
no `0x`. -/
theorem readHex?_toDigits {n : Nat} (hn : n < 0x8000000000000000) :
    readHex? (Nat.toDigits 16 n) = some (Int64.ofNat n) := by
  have hminus := Text.not_mem_toDigits (show 1 < 16 by decide) (by decide)
    (show Text.isDigitChar '-' = false by decide) n
  have hx := Text.not_mem_toDigits (show 1 < 16 by decide) (by decide)
    (show Text.isDigitChar 'x' = false by decide) n
  have hX := Text.not_mem_toDigits (show 1 < 16 by decide) (by decide)
    (show Text.isDigitChar 'X' = false by decide) n
  unfold readHex?
  dsimp only
  split
  next rest hrest =>
    rw [hrest] at hminus
    exact absurd List.mem_cons_self hminus
  next =>
    split
    next rest hrest =>
      rw [hrest] at hx
      exact absurd (List.mem_cons_of_mem _ List.mem_cons_self) hx
    next rest hrest =>
      rw [hrest] at hX
      exact absurd (List.mem_cons_of_mem _ List.mem_cons_self) hX
    next => exact Text.readSigned?_toDigits (by decide) (by decide) hn

/-- **An address is read back.** -/
theorem readHex?_hexAddress (address : UInt32) :
    readHex? (Text.hexAddress address).toList = some (Int64.ofNat address.toNat) := by
  have hlt := address.toNat_lt
  rw [Text.toList_hexAddress]
  exact Text.readSigned?_toDigits (by decide) (by decide) (by omega)

end RegMachine
