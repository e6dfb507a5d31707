/-
# Java numbers, as far as the tools read them

`Long.parseLong`, `Integer.parseInt`, `Double.parseDouble` and `Math.round`. Parsing fails
with `none` where the library throws a `NumberFormatException`.
-/

import Colata.Languages.Java.Text
import Colata.Math.Binary64
import Mathlib.Data.Nat.Digits.Defs

namespace Colata.Java

open Colata.Math

/-- The digits zero of the scripts whose digits `Character.digit` knows. -/
def digitZeros : List ℕ :=
  [0x0030, 0x0660, 0x06f0, 0x07c0, 0x0966, 0x09e6, 0x0a66, 0x0ae6, 0x0b66, 0x0be6, 0x0c66,
    0x0ce6, 0x0d66, 0x0de6, 0x0e50, 0x0ed0, 0x0f20, 0x1040, 0x1090, 0x17e0, 0x1810, 0x1946,
    0x19d0, 0x1a80, 0x1a90, 0x1b50, 0x1bb0, 0x1c40, 0x1c50, 0xa620, 0xa8d0, 0xa900, 0xa9d0,
    0xa9f0, 0xaa50, 0xabf0, 0xff10]

/-- `Character.digit(c, 10)`. -/
def digit (c : Char) : Option ℕ :=
  (digitZeros.find? fun start => start ≤ c.toNat && c.toNat < start + 10).map fun start =>
    c.toNat - start

/-- Split off a sign. -/
def splitSign : List Char → Bool × List Char
  | '-' :: text => (true, text)
  | '+' :: text => (false, text)
  | text => (false, text)

def minLong : ℤ := -2 ^ 63
def maxLong : ℤ := 2 ^ 63 - 1

/-- `Long.parseLong(text)`. -/
def parseLong (text : String) : Option ℤ := do
  let (negative, body) := splitSign text.toList
  if body.isEmpty then none
  else
    let digits ← body.mapM digit
    let magnitude : ℤ := Nat.ofDigits 10 digits.reverse
    let value := if negative then -magnitude else magnitude
    if minLong ≤ value ∧ value ≤ maxLong then some value else none

/-- `Integer.parseInt(text)`. -/
def parseInt (text : String) : Option ℤ :=
  (parseLong text).filter fun value => -2 ^ 31 ≤ value ∧ value ≤ 2 ^ 31 - 1

/-- A digit of a floating-point literal, which is ASCII. -/
def isDigit (c : Char) : Bool := '0' ≤ c && c ≤ '9'

def hexDigit (c : Char) : Option ℕ :=
  if isDigit c then some (c.toNat - '0'.toNat)
  else if 'a' ≤ c && c ≤ 'f' then some (c.toNat - 'a'.toNat + 10)
  else if 'A' ≤ c && c ≤ 'F' then some (c.toNat - 'A'.toNat + 10)
  else none

/-- The value of a digit string in a base up to sixteen. -/
def digitsValue (base : ℕ) (digits : List Char) : ℕ :=
  Nat.ofDigits base (digits.filterMap hexDigit).reverse

/-- The value of the exponent after its letter, up to an optional `f` or `d`. -/
def parseExponent (text : List Char) : Option ℤ :=
  let (negative, body) := splitSign text
  let digits := body.takeWhile isDigit
  if digits.isEmpty || (body.dropWhile isDigit) ∉ [[], ['f'], ['F'], ['d'], ['D']] then none
  else some (if negative then -(digitsValue 10 digits : ℤ) else digitsValue 10 digits)

/-- The digits before and after the point, which may be missing, and the rest. -/
def splitSignificand (accepts : Char → Bool) (text : List Char) :
    List Char × List Char × List Char :=
  let whole := text.takeWhile accepts
  match text.dropWhile accepts with
  | '.' :: rest => (whole, rest.takeWhile accepts, rest.dropWhile accepts)
  | rest => (whole, [], rest)

/-- A decimal floating-point literal without its sign. -/
def parseDecimal (negative : Bool) (text : List Char) : Option Binary64 := do
  let (whole, fraction, rest) := splitSignificand isDigit text
  if whole.isEmpty && fraction.isEmpty then none
  else
    let exponent ← match rest with
      | 'e' :: rest | 'E' :: rest => parseExponent rest
      | rest => if rest ∈ [[], ['f'], ['F'], ['d'], ['D']] then some 0 else none
    some (.ofDecimal negative (digitsValue 10 (whole ++ fraction)) (exponent - fraction.length))

/-- A hexadecimal floating-point literal after its `0x`. -/
def parseHexadecimal (negative : Bool) (text : List Char) : Option Binary64 := do
  let (whole, fraction, rest) := splitSignificand (fun c => (hexDigit c).isSome) text
  if whole.isEmpty && fraction.isEmpty then none
  else
    let exponent ← match rest with
      | 'p' :: rest | 'P' :: rest => parseExponent rest
      | _ => none
    let scale := exponent - 4 * fraction.length
    let digits := digitsValue 16 (whole ++ fraction)
    some (.round negative (digits * 2 ^ scale.toNat * Binary64.one) (2 ^ (-scale).toNat))

/-- `Double.parseDouble(text)`. -/
def parseDouble (text : String) : Option Binary64 :=
  let (negative, body) := splitSign (trim text).toList
  if body = "NaN".toList then some .nan
  else if body = "Infinity".toList then some (.infinity negative)
  else
    match body with
    | '0' :: 'x' :: rest | '0' :: 'X' :: rest => parseHexadecimal negative rest
    | body => parseDecimal negative body

/-- `Math.round(x)`: ties go up, and what no `long` can hold is clamped. -/
def round : Binary64 → ℤ
  | .nan => 0
  | .infinity negative => if negative then minLong else maxLong
  | .finite negative magnitude _ =>
      max minLong (min maxLong
        ((2 * Binary64.signed negative magnitude + Binary64.one) / (2 * Binary64.one)))

example : (parseDouble "4897.299216").map round = some 4897 := by decide +kernel
example : parseDouble "1.5e1" = parseDouble "0xFp0" := by decide +kernel

end Colata.Java
