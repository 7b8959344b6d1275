/-!
# Numerals

How numbers are read and written. Digits are ASCII; letters of either case
stand for the digits from ten on. A reader takes the whole text or nothing:
an empty run of digits, a stray character and a value outside the reader's
range are all refused alike.

Both range-checked readers accept a single sign in front of the digits, the
unsigned one a plus sign only.
-/

namespace RegMachine.Text

/-- The value of a digit character in the given base. -/
def digit? (base : Nat) (c : Char) : Option Nat :=
  let value :=
    if '0' ≤ c ∧ c ≤ '9' then c.toNat - '0'.toNat
    else if 'a' ≤ c ∧ c ≤ 'z' then c.toNat - 'a'.toNat + 10
    else if 'A' ≤ c ∧ c ≤ 'Z' then c.toNat - 'A'.toNat + 10
    else base
  if value < base then some value else none

/-- The value of a run of digits that continues a number already read. -/
def readDigitsFrom? (base : Nat) : Nat → List Char → Option Nat
  | value, [] => some value
  | value, c :: cs =>
    match digit? base c with
    | some d => readDigitsFrom? base (base * value + d) cs
    | none => none

/-- **The value of a non-empty run of digits.** -/
def readDigits? (base : Nat) : List Char → Option Nat
  | [] => none
  | cs => readDigitsFrom? base 0 cs

/-- **An unsigned decimal number below `limit`**, with an optional plus
sign. -/
def readUnsigned? (limit : Nat) (cs : List Char) : Option Nat :=
  let digits := match cs with
    | '+' :: rest => rest
    | rest => rest
  (readDigits? 10 digits).filter (· < limit)

/-- **A signed number of 64 bits** in the given base, with an optional plus
or minus sign. -/
def readSigned? (base : Nat) (cs : List Char) : Option Int64 :=
  let value := match cs with
    | '+' :: rest => (readDigits? base rest).map Int.ofNat
    | '-' :: rest => (readDigits? base rest).map fun n => -Int.ofNat n
    | rest => (readDigits? base rest).map Int.ofNat
  (value.filter fun v => -0x8000000000000000 ≤ v && v < 0x8000000000000000).map Int64.ofInt

/-- The decimal digits of a number. -/
def decimal (n : Nat) : String :=
  String.ofList (Nat.toDigits 10 n)

/-- The decimal digits of a number behind its sign; only negative numbers
have one. -/
def signedDecimal : Int → String
  | .ofNat n => decimal n
  | .negSucc n => "-" ++ decimal (n + 1)

/-- The lower-case hexadecimal digits of a number. -/
def hexDigits (n : Nat) : String :=
  String.ofList (Nat.toDigits 16 n)

/-- **An address as it is written**: lower-case hexadecimal digits behind
`0x`. -/
def hexAddress (address : UInt32) : String :=
  "0x" ++ hexDigits address.toNat

/-- An empty text is no number. -/
@[simp]
theorem readDigits?_nil (base : Nat) : readDigits? base [] = none := rfl

end RegMachine.Text
