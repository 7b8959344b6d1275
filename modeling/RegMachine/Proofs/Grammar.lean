import Mathlib.Data.Nat.Digits.Defs
import RegMachine.Proofs.Text.Numeral

/-!
# The grammar of operands

Which texts are numbers, and of what value? A hexadecimal operand is documented as an optional
minus sign, an optional `0x` or `0X`, and digits; a register as an optional `r` and decimal
digits. The readers strip the optional parts and hand the rest to a general reader of numbers,
and that one takes a sign of its own in front of the digits. So the grammar that they accept
has one more place, between the mark and the digits, for a sign.

`IsHex` and `IsRegister` are the two grammars with this place as a parameter, and without a
sign in it they are the documented ones. `operands_read` says that the readers accept the
texts of the grammars and no others, with any sign a hexadecimal number and with no minus sign
a register. `signs_read` are texts that are read although they are not documented.

Two minus signs, one on each side of the mark, have a price: the number behind the second one
may be the least one of 64 bits, whose negation is not of 64 bits any more. There the words of
the machine wrap, and the least number is what is read.
-/

namespace RegMachine

namespace Text

/-! ## Digits -/

/-- **A digit of a base and its value.** Letters stand for the values from ten on, in either
case. -/
def IsDigit (base : Nat) (c : Char) (d : Nat) : Prop :=
  d < base ∧ (c = d.digitChar ∨ c = d.digitChar.toUpper)

/-- **A numeral**: a run of digits, at least one, and the number that they stand for, with the
most significant digit in front. -/
def IsNumeral (base : Nat) (cs : List Char) (n : Nat) : Prop :=
  ∃ digits : List Nat, digits ≠ [] ∧ List.Forall₂ (IsDigit base) cs digits
    ∧ n = Nat.ofDigits base digits.reverse

theorem digit?_toUpper_digitChar {base d : Nat} (hd : d < base) (hbase : base ≤ 16) :
    digit? base d.digitChar.toUpper = some d := by
  by_cases hdecimal : d < 10
  · have hsame : ∀ d < 10, d.digitChar.toUpper = d.digitChar := by decide
    rw [hsame d hdecimal, digit?_digitChar hd hbase]
  · have hvalue : ∀ d < 16, ¬ d < 10 →
        ¬ ('0' ≤ d.digitChar.toUpper ∧ d.digitChar.toUpper ≤ '9')
          ∧ ¬ ('a' ≤ d.digitChar.toUpper ∧ d.digitChar.toUpper ≤ 'z')
          ∧ ('A' ≤ d.digitChar.toUpper ∧ d.digitChar.toUpper ≤ 'Z')
          ∧ d.digitChar.toUpper.toNat - 'A'.toNat + 10 = d := by
      decide
    obtain ⟨hnot, hlower, hupper, hd'⟩ := hvalue d (by omega) hdecimal
    unfold digit?
    simp only [if_neg hnot, if_neg hlower, if_pos hupper, hd', if_pos hd]

/-- **The characters that are read as digits** are the digits, in every base up to sixteen. -/
theorem digit?_eq_some_iff {base : Nat} (hbase : base ≤ 16) {c : Char} {d : Nat} :
    digit? base c = some d ↔ IsDigit base c d := by
  constructor
  · intro h
    have hle : ∀ a b : Char, a ≤ b ↔ a.toNat ≤ b.toNat := fun _ _ => Iff.rfl
    have hdecimal : ∀ d < 10, Char.ofNat (d + 48) = d.digitChar := by decide
    have hlower : ∀ d < 16, 10 ≤ d → Char.ofNat (d + 87) = d.digitChar := by decide
    have hupper : ∀ d < 16, 10 ≤ d → Char.ofNat (d + 55) = d.digitChar.toUpper := by decide
    unfold digit? at h
    simp only [hle, Char.reduceToNat] at h
    -- the three rows of digits, by their places in the table of characters
    have hrows : d < base ∧ (d < 10 ∧ c.toNat = d + 48 ∨ 10 ≤ d ∧ c.toNat = d + 87
        ∨ 10 ≤ d ∧ c.toNat = d + 55) := by
      split_ifs at h <;> (cases h; omega)
    rw [← Char.ofNat_toNat c]
    obtain ⟨hd, ⟨hten, hc⟩ | ⟨hten, hc⟩ | ⟨hten, hc⟩⟩ := hrows
    · exact ⟨hd, .inl (hc ▸ hdecimal d hten)⟩
    · exact ⟨hd, .inl (hc ▸ hlower d (by omega) hten)⟩
    · exact ⟨hd, .inr (hc ▸ hupper d (by omega) hten)⟩
  · rintro ⟨hd, rfl | rfl⟩
    · exact digit?_digitChar hd hbase
    · exact digit?_toUpper_digitChar hd hbase

/-- Digits that continue a number shift it by their count. -/
theorem readDigitsFrom?_eq_some_iff {base : Nat} (hbase : base ≤ 16) {value n : Nat}
    {cs : List Char} :
    readDigitsFrom? base value cs = some n ↔
      ∃ digits : List Nat, List.Forall₂ (IsDigit base) cs digits
        ∧ n = base ^ digits.length * value + Nat.ofDigits base digits.reverse := by
  induction cs generalizing value with
  | nil =>
    constructor
    · rintro ⟨⟩
      exact ⟨[], .nil, by simp⟩
    · rintro ⟨_, ⟨⟩, rfl⟩
      simp [readDigitsFrom?]
  | cons c cs ih =>
    have hshift : ∀ (d : Nat) (digits : List Nat),
        base ^ digits.length * (base * value + d) + Nat.ofDigits base digits.reverse
          = base ^ (d :: digits).length * value + Nat.ofDigits base (d :: digits).reverse := by
      intro d digits
      rw [Nat.ofDigits_reverse_cons, List.length_cons, Nat.pow_succ]
      ring
    rw [readDigitsFrom?]
    constructor
    · intro h
      split at h
      next d hd =>
        obtain ⟨digits, hdigits, rfl⟩ := ih.mp h
        exact ⟨d :: digits, .cons ((digit?_eq_some_iff hbase).mp hd) hdigits, hshift d digits⟩
      next => cases h
    · rintro ⟨_, hdigits, rfl⟩
      cases hdigits with
      | @cons _ d _ digits hd hdigits =>
        rw [(digit?_eq_some_iff hbase).mpr hd]
        exact ih.mpr ⟨digits, hdigits, (hshift d digits).symm⟩

/-- **What is read as digits is a numeral**, and its number is read. -/
theorem readDigits?_eq_some_iff {base : Nat} (hbase : base ≤ 16) {cs : List Char} {n : Nat} :
    readDigits? base cs = some n ↔ IsNumeral base cs n := by
  cases cs with
  | nil =>
    constructor
    · rintro ⟨⟩
    · rintro ⟨_, hne, ⟨⟩, -⟩
      exact absurd rfl hne
  | cons c cs =>
    rw [readDigits?, readDigitsFrom?_eq_some_iff hbase]
    · constructor
      · rintro ⟨digits, hdigits, rfl⟩
        refine ⟨digits, ?_, hdigits, by rw [Nat.mul_zero, Nat.zero_add]⟩
        rintro rfl
        cases hdigits
      · rintro ⟨digits, -, hdigits, rfl⟩
        exact ⟨digits, hdigits, by rw [Nat.mul_zero, Nat.zero_add]⟩
    · exact List.cons_ne_nil c cs

/-- A character that is no digit stands nowhere in a numeral. -/
theorem IsNumeral.not_mem {base n : Nat} {cs : List Char} (h : IsNumeral base cs n)
    (hbase : base ≤ 16) {c : Char} (hc : digit? base c = none) : c ∉ cs := by
  obtain ⟨digits, -, hdigits, -⟩ := h
  induction hdigits with
  | nil => exact List.not_mem_nil
  | cons hd _ ih =>
    refine List.not_mem_cons_of_ne_of_not_mem ?_ ih
    rintro rfl
    rw [(digit?_eq_some_iff hbase).mpr hd] at hc
    cases hc

/-- No sign stands in a numeral. -/
theorem IsNumeral.sign_not_mem {base n : Nat} {cs : List Char} (h : IsNumeral base cs n)
    (hbase : base ≤ 16) : '+' ∉ cs ∧ '-' ∉ cs := by
  have hplus : digit? base '+' = none := if_neg (Nat.lt_irrefl base)
  have hminus : digit? base '-' = none := if_neg (Nat.lt_irrefl base)
  exact ⟨h.not_mem hbase hplus, h.not_mem hbase hminus⟩

/-! ## Signs -/

/-- A sign in front of digits, if any. -/
inductive Sign where
  | none
  | plus
  | minus
deriving DecidableEq

namespace Sign

/-- The sign as it is written. -/
def text : Sign → List Char
  | none => []
  | plus => ['+']
  | minus => ['-']

/-- The number that digits mean behind the sign. -/
def value : Sign → Nat → Int
  | none, n => n
  | plus, n => n
  | minus, n => -n

/-- Only a minus sign makes a number negative. -/
theorem eq_minus_of_value {sign : Sign} {n m : Nat} (hm : 0 < m) (h : sign.value n = -(m : Int)) :
    sign = .minus ∧ n = m := by
  cases sign with
  | minus => exact ⟨rfl, Int.ofNat.inj (Int.neg_inj.mp h)⟩
  | none =>
    rw [value] at h
    omega
  | plus =>
    rw [value] at h
    omega

/-- A character that is no digit and no sign stands nowhere in a signed numeral. -/
theorem not_mem_append {base n : Nat} {c : Char} {digits : List Char}
    (h : IsNumeral base digits n) (hbase : base ≤ 16) (hc : digit? base c = Option.none)
    (hplus : c ≠ '+') (hminus : c ≠ '-') (sign : Sign) : c ∉ sign.text ++ digits := by
  rw [List.mem_append, not_or]
  refine ⟨?_, h.not_mem hbase hc⟩
  cases sign with
  | none => exact List.not_mem_nil
  | plus => exact fun hmem => hplus (List.mem_singleton.mp hmem)
  | minus => exact fun hmem => hminus (List.mem_singleton.mp hmem)

end Sign

/-- The numbers of 64 bits. -/
def IsWide (value : Int) : Prop := -0x8000000000000000 ≤ value ∧ value < 0x8000000000000000

theorem isWide_toInt (value : Int64) : IsWide value.toInt :=
  ⟨value.le_toInt, value.toInt_lt⟩

/-- A number of 64 bits is that of its word. -/
theorem IsWide.toInt_ofInt {value : Int} (h : IsWide value) : (Int64.ofInt value).toInt = value :=
  Int64.toInt_ofInt_of_le h.1 h.2

/-- **What is read as a signed number** is a numeral behind an optional sign, and the word that is
read has its value. -/
theorem readSigned?_eq_some_iff {base : Nat} (hbase : base ≤ 16) {cs : List Char}
    {value : Int64} :
    readSigned? base cs = some value ↔
      ∃ (sign : Sign) (digits : List Char) (n : Nat), IsNumeral base digits n
        ∧ cs = sign.text ++ digits ∧ value.toInt = sign.value n := by
  have hread := @readDigits?_eq_some_iff base hbase
  unfold readSigned?
  simp only [Option.map_eq_some_iff, Option.filter_eq_some_iff, Bool.and_eq_true,
    decide_eq_true_eq]
  constructor
  · rintro ⟨value, ⟨h, hwide⟩, rfl⟩
    have hvalue := IsWide.toInt_ofInt hwide
    split at h
    next rest =>
      obtain ⟨n, hn, rfl⟩ := Option.map_eq_some_iff.mp h
      exact ⟨.plus, rest, n, hread.mp hn, rfl, hvalue⟩
    next rest =>
      obtain ⟨n, hn, rfl⟩ := Option.map_eq_some_iff.mp h
      exact ⟨.minus, rest, n, hread.mp hn, rfl, hvalue⟩
    next =>
      obtain ⟨n, hn, rfl⟩ := Option.map_eq_some_iff.mp h
      exact ⟨.none, cs, n, hread.mp hn, rfl, hvalue⟩
  · rintro ⟨sign, digits, n, hdigits, rfl, hvalue⟩
    have hwide := isWide_toInt value
    rw [hvalue] at hwide
    refine ⟨sign.value n, ⟨?_, hwide⟩, by rw [← hvalue, Int64.ofInt_toInt]⟩
    cases sign with
    | plus => exact Option.map_eq_some_iff.mpr ⟨n, hread.mpr hdigits, rfl⟩
    | minus => exact Option.map_eq_some_iff.mpr ⟨n, hread.mpr hdigits, rfl⟩
    | none =>
      -- a numeral starts with no sign
      rw [Sign.text, List.nil_append]
      split
      next => exact absurd List.mem_cons_self (hdigits.sign_not_mem hbase).1
      next => exact absurd List.mem_cons_self (hdigits.sign_not_mem hbase).2
      next => exact Option.map_eq_some_iff.mpr ⟨n, hread.mpr hdigits, rfl⟩

/-- **What is read as an unsigned number** is a numeral, perhaps behind a plus sign, of a number
below the limit. -/
theorem readUnsigned?_eq_some_iff {limit n : Nat} {cs : List Char} :
    readUnsigned? limit cs = some n ↔
      ∃ (sign : Sign) (digits : List Char), sign ≠ .minus ∧ IsNumeral 10 digits n
        ∧ cs = sign.text ++ digits ∧ n < limit := by
  have hread := @readDigits?_eq_some_iff 10 (by decide)
  unfold readUnsigned?
  simp only [Option.filter_eq_some_iff, decide_eq_true_eq]
  constructor
  · rintro ⟨h, hlimit⟩
    split at h
    next rest => exact ⟨.plus, rest, by decide, hread.mp h, rfl, hlimit⟩
    next => exact ⟨.none, cs, by decide, hread.mp h, rfl, hlimit⟩
  · rintro ⟨sign, digits, hsign, hdigits, rfl, hlimit⟩
    refine ⟨?_, hlimit⟩
    cases sign with
    | plus => exact hread.mpr hdigits
    | minus => exact absurd rfl hsign
    | none =>
      rw [Sign.text, List.nil_append]
      split
      next => exact absurd List.mem_cons_self (hdigits.sign_not_mem (by decide)).1
      next => exact hread.mpr hdigits

end Text

open Text (Sign IsNumeral IsWide)

/-! ## Hexadecimal numbers -/

/-- The marks of a hexadecimal number, of which the first is none at all. -/
def hexMarks : List (List Char) := [[], ['0', 'x'], ['0', 'X']]

/-- **A hexadecimal number and its value**: an optional minus sign, an optional mark, a sign of
the digits, and digits. A minus sign in front of everything is the first of the two signs. The
number behind the mark is of 64 bits. -/
def IsHex (sign : Sign) (t : List Char) (v : Int) : Prop :=
  ∃ (negative : Bool) (mark digits : List Char) (n : Nat),
    mark ∈ hexMarks ∧ IsNumeral 16 digits n
      ∧ t = (if negative then ['-'] else []) ++ (mark ++ (sign.text ++ digits))
      ∧ (sign = .minus → negative = true ∨ mark ≠ [])
      ∧ IsWide (sign.value n)
      ∧ v = if negative then -sign.value n else sign.value n

/-- The text behind a mark. -/
def afterMark : List Char → List Char
  | '0' :: 'x' :: rest => rest
  | '0' :: 'X' :: rest => rest
  | rest => rest

theorem readHex?_eq (cs : List Char) :
    readHex? cs = match cs with
      | '-' :: rest => (Text.readSigned? 16 (afterMark rest)).map fun v => -v
      | rest => Text.readSigned? 16 (afterMark rest) := rfl

theorem exists_mark (cs : List Char) : ∃ mark ∈ hexMarks, cs = mark ++ afterMark cs := by
  fun_cases afterMark cs with
  | case1 rest => exact ⟨['0', 'x'], by decide, rfl⟩
  | case2 rest => exact ⟨['0', 'X'], by decide, rfl⟩
  | case3 => exact ⟨[], by decide, rfl⟩

theorem afterMark_eq_self {cs : List Char} (hx : 'x' ∉ cs) (hX : 'X' ∉ cs) :
    afterMark cs = cs := by
  fun_cases afterMark cs with
  | case1 rest => exact absurd (List.mem_cons_of_mem _ List.mem_cons_self) hx
  | case2 rest => exact absurd (List.mem_cons_of_mem _ List.mem_cons_self) hX
  | case3 => rfl

theorem mem_hexMarks {mark : List Char} (h : mark ∈ hexMarks) :
    mark = [] ∨ mark = ['0', 'x'] ∨ mark = ['0', 'X'] := by
  simpa [hexMarks] using h

/-- **A signed number behind an optional mark.** -/
theorem readMarked_eq_some_iff {cs : List Char} {value : Int64} :
    Text.readSigned? 16 (afterMark cs) = some value ↔
      ∃ mark ∈ hexMarks, ∃ (sign : Sign) (digits : List Char) (n : Nat), IsNumeral 16 digits n
        ∧ cs = mark ++ (sign.text ++ digits) ∧ value.toInt = sign.value n := by
  constructor
  · intro h
    obtain ⟨mark, hmark, hcs⟩ := exists_mark cs
    obtain ⟨sign, digits, n, hdigits, hrest, hvalue⟩ :=
      (Text.readSigned?_eq_some_iff (by decide)).mp h
    rw [hrest] at hcs
    exact ⟨mark, hmark, sign, digits, n, hdigits, hcs, hvalue⟩
  · rintro ⟨mark, hmark, sign, digits, n, hdigits, rfl, hvalue⟩
    refine (Text.readSigned?_eq_some_iff (by decide)).mpr ⟨sign, digits, n, hdigits, ?_, hvalue⟩
    obtain rfl | rfl | rfl := mem_hexMarks hmark
    · -- the letters of a mark are neither digits nor signs
      have hx := Sign.not_mem_append (c := 'x') hdigits (by decide) (by decide) (by decide)
        (by decide) sign
      have hX := Sign.not_mem_append (c := 'X') hdigits (by decide) (by decide) (by decide)
        (by decide) sign
      exact afterMark_eq_self hx hX
    · rfl
    · rfl

/-- A number whose minus sign is its second one starts with no minus sign. -/
theorem front_ne_minus {mark digits : List Char} {sign : Sign} {n : Nat} (hmark : mark ∈ hexMarks)
    (hdigits : IsNumeral 16 digits n) (hsign : sign = .minus → mark ≠ []) (rest : List Char) :
    mark ++ (sign.text ++ digits) ≠ '-' :: rest := by
  intro hfront
  obtain rfl | rfl | rfl := mem_hexMarks hmark
  · cases sign with
    | none =>
      have hminus := (hdigits.sign_not_mem (by decide)).2
      rw [show digits = '-' :: rest from hfront] at hminus
      exact hminus List.mem_cons_self
    | plus => exact absurd (List.cons.inj hfront).1 (by decide)
    | minus => exact hsign rfl rfl
  · exact absurd (List.cons.inj hfront).1 (by decide)
  · exact absurd (List.cons.inj hfront).1 (by decide)

/-- **What is read as a hexadecimal number** is one, with any sign of its digits, and the word
that is read is that of its value. -/
theorem readHex?_eq_some_iff {t : List Char} {v : Int64} :
    readHex? t = some v ↔ ∃ sign value, IsHex sign t value ∧ v = Int64.ofInt value := by
  rw [readHex?_eq]
  constructor
  · intro h
    split at h
    next rest =>
      obtain ⟨word, hword, rfl⟩ := Option.map_eq_some_iff.mp h
      obtain ⟨mark, hmark, sign, digits, n, hdigits, rfl, hvalue⟩ :=
        readMarked_eq_some_iff.mp hword
      have hwide := hvalue ▸ Text.isWide_toInt word
      refine ⟨sign, _, ⟨true, mark, digits, n, hmark, hdigits, rfl, fun _ => .inl rfl, hwide,
        rfl⟩, ?_⟩
      rw [if_pos rfl, Int64.ofInt_neg, ← hvalue, Int64.ofInt_toInt]
    next hfront =>
      obtain ⟨mark, hmark, sign, digits, n, hdigits, rfl, hvalue⟩ := readMarked_eq_some_iff.mp h
      have hwide := hvalue ▸ Text.isWide_toInt v
      refine ⟨sign, _, ⟨false, mark, digits, n, hmark, hdigits, rfl, ?_, hwide, rfl⟩, ?_⟩
      · rintro rfl
        refine .inr ?_
        rintro rfl
        exact hfront digits rfl
      · rw [if_neg Bool.false_ne_true, ← hvalue, Int64.ofInt_toInt]
  · rintro ⟨sign, _, ⟨negative, mark, digits, n, hmark, hdigits, rfl, hsign, hwide, rfl⟩, rfl⟩
    have hread := readMarked_eq_some_iff.mpr
      ⟨mark, hmark, sign, digits, n, hdigits, rfl, hwide.toInt_ofInt⟩
    cases negative with
    | true => exact Option.map_eq_some_iff.mpr ⟨_, hread, (Int64.ofInt_neg _).symm⟩
    | false =>
      have hfront :=
        front_ne_minus hmark hdigits fun h => (hsign h).resolve_left Bool.false_ne_true
      split
      next rest heq => exact absurd heq (hfront rest)
      next => exact hread

/-- **A hexadecimal number is of 64 bits**, unless two minus signs take the least number to its
negation. -/
theorem IsHex.isWide_or {sign : Sign} {t : List Char} {v : Int} (h : IsHex sign t v) :
    IsWide v ∨ sign = .minus ∧ v = 0x8000000000000000 ∧ ∃ mark ∈ hexMarks, ∃ digits,
      IsNumeral 16 digits 0x8000000000000000 ∧ t = '-' :: (mark ++ '-' :: digits) := by
  obtain ⟨negative, mark, digits, n, hmark, hdigits, rfl, -, hwide, rfl⟩ := h
  cases negative with
  | false => exact .inl hwide
  | true =>
    by_cases hleast : sign.value n = -0x8000000000000000
    · right
      obtain ⟨rfl, rfl⟩ := Sign.eq_minus_of_value (m := 0x8000000000000000) (by decide) hleast
      exact ⟨rfl, rfl, mark, hmark, digits, hdigits, rfl⟩
    · left
      obtain ⟨hlow, hhigh⟩ := hwide
      rw [if_pos rfl]
      exact ⟨by omega, by omega⟩

/-- **The word of a hexadecimal number** has its value. Where no word has it, the word is the
least one. -/
theorem IsHex.eq_ofInt_iff {sign : Sign} {t : List Char} {value : Int} (h : IsHex sign t value)
    (v : Int64) :
    v = Int64.ofInt value ↔ v.toInt = value ∨ ¬ IsWide value ∧ v = Int64.minValue := by
  obtain hwide | ⟨-, rfl, -⟩ := h.isWide_or
  · rw [← Int64.toInt_inj, hwide.toInt_ofInt]
    exact ⟨.inl, fun hv => hv.resolve_right fun hnot => hnot.1 hwide⟩
  · have hnot : ¬ IsWide 0x8000000000000000 := fun hwide => absurd hwide.2 (by decide)
    have hleast : Int64.ofInt 0x8000000000000000 = Int64.minValue := by decide
    rw [hleast]
    refine ⟨fun hv => .inr ⟨hnot, hv⟩, fun hv => hv.elim (fun hv => ?_) And.right⟩
    exact absurd (hv ▸ Text.isWide_toInt v) hnot

/-! ## Registers -/

/-- **A register and its number**: an optional `r`, a sign of the digits, and decimal
digits. -/
def IsRegister (sign : Sign) (t : List Char) (n : Nat) : Prop :=
  ∃ (marked : Bool) (digits : List Char), IsNumeral 10 digits n
    ∧ t = (if marked then ['r'] else []) ++ (sign.text ++ digits)

/-- The text behind the `r` of a register. -/
def afterR : List Char → List Char
  | 'r' :: rest => rest
  | rest => rest

theorem exists_marked (cs : List Char) :
    ∃ marked : Bool, cs = (if marked then ['r'] else []) ++ afterR cs := by
  fun_cases afterR cs with
  | case1 rest => exact ⟨true, rfl⟩
  | case2 => exact ⟨false, rfl⟩

theorem afterR_eq_self {cs : List Char} (h : 'r' ∉ cs) : afterR cs = cs := by
  fun_cases afterR cs with
  | case1 rest => exact absurd List.mem_cons_self h
  | case2 => rfl

theorem readRegister_eq (line : Nat) (t : String) :
    readRegister line t = match Text.readUnsigned? UInt32.size (afterR t.toList) with
      | none => .error ⟨line, .invalidOperand t .notRegister⟩
      | some n => if n < 256 then .ok (UInt8.ofNat n) else .error ⟨line, .operandRange t⟩ := rfl

theorem readRegister_eq_ok_iff_readUnsigned? {line : Nat} {t : String} {n : UInt8} :
    readRegister line t = .ok n ↔
      Text.readUnsigned? UInt32.size (afterR t.toList) = some n.toNat := by
  rw [readRegister_eq]
  cases Text.readUnsigned? UInt32.size (afterR t.toList) with
  | none =>
    constructor
    · rintro ⟨⟩
    · rintro ⟨⟩
  | some m =>
    dsimp only
    split
    next hm =>
      rw [Except.ok.injEq, Option.some.injEq]
      constructor
      · rintro rfl
        exact (UInt8.toNat_ofNat_of_lt hm).symm
      · rintro rfl
        exact UInt8.ofNat_toNat
    next hm =>
      constructor
      · rintro ⟨⟩
      · rintro ⟨⟩
        exact absurd n.toNat_lt hm

/-- **What is read as a register** is one, without a minus sign. -/
theorem readRegister_eq_ok_iff {line : Nat} {t : String} {n : UInt8} :
    readRegister line t = .ok n ↔ ∃ sign, sign ≠ .minus ∧ IsRegister sign t.toList n.toNat := by
  rw [readRegister_eq_ok_iff_readUnsigned?, Text.readUnsigned?_eq_some_iff]
  constructor
  · rintro ⟨sign, digits, hsign, hdigits, hrest, -⟩
    obtain ⟨marked, ht⟩ := exists_marked t.toList
    rw [hrest] at ht
    exact ⟨sign, hsign, marked, digits, hdigits, ht⟩
  · rintro ⟨sign, hsign, marked, digits, hdigits, ht⟩
    have hlimit : n.toNat < UInt32.size := Nat.lt_trans n.toNat_lt (by decide)
    refine ⟨sign, digits, hsign, hdigits, ?_, hlimit⟩
    rw [ht]
    cases marked with
    | true => rfl
    | false =>
      exact afterR_eq_self (Sign.not_mem_append hdigits (by decide) (by decide) (by decide)
        (by decide) sign)

/-! ## Operands -/

/-- **The texts that are read as operands.** A text is read as a hexadecimal number exactly if it
is one, documented or with one more sign in front of its digits. What is read is the value of the
text, unless that is not of 64 bits; then the least word is read. The value is of 64 bits, unless
two minus signs take the least number to its negation. A text is read as a register exactly if it
is one, documented or with a plus sign in front of its digits, of a number that fits in a
byte. -/
theorem operands_read (t : String) :
    (∀ v, readHex? t.toList = some v ↔ ∃ sign value, IsHex sign t.toList value
        ∧ (v.toInt = value ∨ ¬ IsWide value ∧ v = Int64.minValue))
      ∧ (∀ sign value, IsHex sign t.toList value → IsWide value
        ∨ sign = .minus ∧ value = 0x8000000000000000 ∧ ∃ mark ∈ hexMarks, ∃ digits,
          IsNumeral 16 digits 0x8000000000000000 ∧ t.toList = '-' :: (mark ++ '-' :: digits))
      ∧ ∀ line n, readRegister line t = .ok n
        ↔ ∃ sign, sign ≠ .minus ∧ IsRegister sign t.toList n.toNat := by
  refine ⟨fun v => ?_, fun sign value h => h.isWide_or, fun line n => readRegister_eq_ok_iff⟩
  rw [readHex?_eq_some_iff]
  refine exists_congr fun sign => exists_congr fun value => and_congr_right fun h => ?_
  exact h.eq_ofInt_iff v

/-! ### What is not documented -/

/-- No documented number has a plus sign. -/
theorem IsHex.plus_not_mem {t : List Char} {v : Int} (h : IsHex .none t v) : '+' ∉ t := by
  obtain ⟨negative, mark, digits, n, hmark, hdigits, rfl, -⟩ := h
  have hfront : '+' ∉ (if negative then ['-'] else []) := by cases negative <;> decide
  have hmarks : ∀ mark ∈ hexMarks, '+' ∉ mark := by decide
  simp only [List.mem_append, not_or]
  exact ⟨hfront, hmarks mark hmark, by decide, (hdigits.sign_not_mem (by decide)).1⟩

/-- A documented number has no minus sign but the one in front. -/
theorem IsHex.minus_not_mem_tail {t : List Char} {v : Int} (h : IsHex .none t v) :
    '-' ∉ t.tail := by
  obtain ⟨negative, mark, digits, n, hmark, hdigits, rfl, -⟩ := h
  have hmarks : ∀ mark ∈ hexMarks, '-' ∉ mark := by decide
  have hrest : '-' ∉ mark ++ (Sign.none.text ++ digits) := by
    simp only [List.mem_append, not_or]
    exact ⟨hmarks mark hmark, by decide, (hdigits.sign_not_mem (by decide)).2⟩
  cases negative with
  | true => exact hrest
  | false => exact fun hmem => hrest (List.mem_of_mem_tail hmem)

/-- No documented register has a plus sign. -/
theorem IsRegister.plus_not_mem {t : List Char} {n : Nat} (h : IsRegister .none t n) :
    '+' ∉ t := by
  obtain ⟨marked, digits, hdigits, rfl⟩ := h
  have hfront : '+' ∉ (if marked then ['r'] else []) := by cases marked <;> decide
  simp only [List.mem_append, not_or]
  exact ⟨hfront, by decide, (hdigits.sign_not_mem (by decide)).1⟩

/-- **Signs that are read although they are not documented**: a plus sign in front of a
hexadecimal number, one behind the `r` of a register, and a second minus sign, here in front of
the least number of 64 bits. The text means the negation of that number, and the number itself is
read. -/
theorem signs_read :
    (readHex? "+5".toList = some 5 ∧ ∀ v, ¬ IsHex .none "+5".toList v)
      ∧ (readHex? "--8000000000000000".toList = some Int64.minValue
        ∧ IsHex .minus "--8000000000000000".toList 0x8000000000000000
        ∧ ∀ v, ¬ IsHex .none "--8000000000000000".toList v)
      ∧ (readRegister 1 "r+5" = .ok 5 ∧ ∀ n, ¬ IsRegister .none "r+5".toList n) := by
  have hdigits : IsNumeral 16 "8000000000000000".toList 0x8000000000000000 :=
    (Text.readDigits?_eq_some_iff (by decide)).mp (by decide +kernel)
  refine ⟨⟨by decide +kernel, fun v h => ?_⟩, ⟨by decide +kernel, ?_, fun v h => ?_⟩,
    by decide +kernel, fun n h => ?_⟩
  · exact h.plus_not_mem (by decide)
  · exact ⟨true, [], _, _, by decide, hdigits, by decide, fun _ => .inl rfl,
      ⟨by decide, by decide⟩, rfl⟩
  · exact h.minus_not_mem_tail (by decide)
  · exact h.plus_not_mem (by decide)

end RegMachine
