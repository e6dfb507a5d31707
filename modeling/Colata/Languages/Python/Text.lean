/-
# Python texts, as far as the scripts use them

Character classes of regular expressions, lines, and the integers that `int` reads with
base 0 and the `+#x` format writes. A text is a list of code points, and the classes are
those of Unicode.
-/

import Mathlib.Data.List.DropRight
import Mathlib.Data.Nat.Digits.Defs

namespace Colata.Python

abbrev Text := List Char

/-- `\s` and the characters that `strip` removes. -/
def isSpace (c : Char) : Bool :=
  (9 ≤ c.toNat && c.toNat ≤ 13) || (28 ≤ c.toNat && c.toNat ≤ 32) ||
    (0x2000 ≤ c.toNat && c.toNat ≤ 0x200a) ||
    [0x85, 0xa0, 0x1680, 0x2028, 0x2029, 0x202f, 0x205f, 0x3000].contains c.toNat

def strip (text : Text) : Text := (text.dropWhile isSpace).rdropWhile isSpace

/-- The characters that end a line for `splitlines`. -/
def isLineBoundary (c : Char) : Bool :=
  (10 ≤ c.toNat && c.toNat ≤ 13) || (28 ≤ c.toNat && c.toNat ≤ 30) ||
    [0x85, 0x2028, 0x2029].contains c.toNat

/-- `splitlines`, with the characters of the line that is being read. -/
def splitLinesFrom (line : Text) : Text → List Text
  | [] => if line = [] then [] else [line]
  | '\r' :: '\n' :: text => line :: splitLinesFrom [] text
  | c :: text =>
      if isLineBoundary c then line :: splitLinesFrom [] text
      else splitLinesFrom (line ++ [c]) text

def splitLines (text : Text) : List Text := splitLinesFrom [] text

/-- `[a-z]` without regard to case. Some letters that are not ASCII match too, since a
letter of ASCII is their other case. -/
def isLetter (c : Char) : Bool :=
  ('a' ≤ c && c ≤ 'z') || ('A' ≤ c && c ≤ 'Z') ||
    [0x130, 0x131, 0x17f, 0x212a].contains c.toNat

/-- `lower`, for the letters above and digits. -/
def lower (text : Text) : Text :=
  text.flatMap fun c =>
    if c.toNat = 0x130 then ['i', Char.ofNat 0x307]
    else if c.toNat = 0x212a then ['k']
    else [c.toLower]

/-- `[0-9]`. -/
def isDigit (c : Char) : Bool := '0' ≤ c && c ≤ '9'

/-- `[0-9a-f]`. -/
def isHexDigit (c : Char) : Bool := isDigit c || ('a' ≤ c && c ≤ 'f')

/-- `[0-9a-f]` without regard to case. -/
def isHexDigitIgnoringCase (c : Char) : Bool := isHexDigit c || ('A' ≤ c && c ≤ 'F')

/-- The digits zero of the scripts that have decimal digits. Nine more follow each. -/
def decimalZeros : List ℕ :=
  [0x30, 0x660, 0x6f0, 0x7c0, 0x966, 0x9e6, 0xa66, 0xae6, 0xb66, 0xbe6, 0xc66, 0xce6, 0xd66, 0xde6,
    0xe50, 0xed0, 0xf20, 0x1040, 0x1090, 0x17e0, 0x1810, 0x1946, 0x19d0, 0x1a80, 0x1a90, 0x1b50,
    0x1bb0, 0x1c40, 0x1c50, 0xa620, 0xa8d0, 0xa900, 0xa9d0, 0xa9f0, 0xaa50, 0xabf0, 0xff10, 0x104a0,
    0x10d30, 0x11066, 0x110f0, 0x11136, 0x111d0, 0x112f0, 0x11450, 0x114d0, 0x11650, 0x116c0,
    0x11730, 0x118e0, 0x11950, 0x11c50, 0x11d50, 0x11da0, 0x16a60, 0x16ac0, 0x16b50, 0x1d7ce,
    0x1d7d8, 0x1d7e2, 0x1d7ec, 0x1d7f6, 0x1e140, 0x1e2f0, 0x1e950, 0x1fbf0]

/-- The value of a decimal digit. -/
def decimalValue (c : Char) : Option ℕ :=
  (decimalZeros.find? fun start => start ≤ c.toNat && c.toNat ≤ start + 9).map (c.toNat - ·)

/-- `\d`. -/
def isDecimal (c : Char) : Bool := (decimalValue c).isSome

/-- The value of a digit of `0x…`. -/
def hexValue (c : Char) : ℕ :=
  if isDigit c then c.toNat - '0'.toNat else c.toNat - 'a'.toNat + 10

/-- `int(text, 0)` for decimal digits, where only zero may start with a zero. -/
def decimalToNat (text : Text) : Option ℕ :=
  let digits := text.filterMap decimalValue
  if digits.length = text.length ∧ digits ≠ [] ∧
      (digits.head? = some 0 → ∀ digit ∈ digits, digit = 0) then
    some (Nat.ofDigits 10 digits.reverse)
  else none

/-- `int(text, 0)` for the texts that `0x[0-9a-f]+` and `-?\d+` match. -/
def toInt : Text → Option ℤ
  | '0' :: 'x' :: digits => some (Nat.ofDigits 16 (digits.map hexValue).reverse)
  | '-' :: digits => (decimalToNat digits).map fun value => -(value : ℤ)
  | digits => (decimalToNat digits).map fun value => (value : ℤ)

/-- The format `+#x`. -/
def signedHex (x : ℤ) : Text :=
  (if 0 ≤ x then '+' else '-') :: '0' :: 'x' :: Nat.toDigits 16 x.natAbs

/-- The format `{n}d`. -/
def padNumber (width : ℕ) (number : ℕ) : Text :=
  (Nat.toDigits 10 number).leftpad width ' '

end Colata.Python
