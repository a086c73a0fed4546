/-
Numbers of seconds as they are written on the command line, and the time budgets
they stand for.  A number counts as the binary floating-point number of double
precision that is nearest to it.
-/
namespace Tableau

inductive Seconds where
  | nan
  | infinite (negative : Bool)
  /-- The number `digits · 10 ^ exponent`, or its negative. -/
  | decimal (negative : Bool) (digits : Nat) (exponent : Int)

/-- How long a search may take. -/
inductive Budget where
  | unlimited
  | nanoseconds (count : Nat)
  /-- Too long to be counted in 64 bits of seconds. -/
  | uncountable
deriving DecidableEq

namespace Seconds

def digitValue (c : Char) : Nat := c.toNat - '0'.toNat

def digitsValue (digits : List Char) : Nat :=
  digits.foldl (fun value c => value * 10 + digitValue c) 0

/-- Splits off a leading sign, and tells whether it is a minus. -/
def splitSign : List Char → Bool × List Char
  | '-' :: rest => (true, rest)
  | '+' :: rest => (false, rest)
  | rest => (false, rest)

/-- The exponent behind the digits of a number, zero if there is none. -/
def exponent? : List Char → Option Int
  | [] => some 0
  | mark :: rest =>
      let (negative, digits) := splitSign rest
      if (mark = 'e' || mark = 'E') && !digits.isEmpty && digits.all Char.isDigit then
        let value : Int := digitsValue digits
        some (if negative then -value else value)
      else
        none

/-- Digits with at most one point among, before or behind them, and an
exponent. -/
def decimal? (negative : Bool) (cs : List Char) : Option Seconds :=
  let whole := cs.takeWhile Char.isDigit
  let rest := cs.dropWhile Char.isDigit
  let (fraction, rest) :=
    match rest with
    | '.' :: rest => (rest.takeWhile Char.isDigit, rest.dropWhile Char.isDigit)
    | rest => ([], rest)
  if whole.isEmpty && fraction.isEmpty then
    none
  else do
    let exponent ← exponent? rest
    return .decimal negative (digitsValue (whole ++ fraction)) (exponent - fraction.length)

/-- Reads a number, `inf`, `infinity` or `nan` in any case, with or without a
sign. -/
def parse? (text : String) : Option Seconds :=
  let (negative, cs) := splitSign text.toList
  let word := String.ofList (cs.map Char.toLower)
  if word = "nan" then some .nan
  else if word = "inf" || word = "infinity" then some (.infinite negative)
  else decimal? negative cs

/-- The quotient of two numbers, rounded to the nearest whole number, and to the
even one of two that are equally near. -/
def roundQuotient (num den : Nat) : Nat :=
  let quotient := num / den
  let twice := 2 * (num % den)
  if twice < den || (twice = den && quotient % 2 = 0) then quotient else quotient + 1

/-- The budget of `num / den` seconds: up to `2⁻¹⁰⁷⁵` the nearest double is zero,
from `2¹⁰²⁴ - 2⁹⁷⁰` on it is infinite, and from `2⁶⁴ - 2¹⁰` on it is at least
`2⁶⁴`. -/
def budgetOfQuotient (negative : Bool) (num den : Nat) : Budget :=
  if num * Nat.pow 2 1075 ≤ den then .nanoseconds 0
  else if negative then .unlimited
  else if (Nat.pow 2 1024 - Nat.pow 2 970) * den ≤ num then .unlimited
  else if (Nat.pow 2 64 - Nat.pow 2 10) * den ≤ num then .uncountable
  else .nanoseconds (roundQuotient (num * 1000000000) den)

/-- The time budget for a number of seconds: numbers below zero and those that
are not finite set no limit.  Numbers of far too many or too few digits are
sorted out first. -/
def budget : Seconds → Budget
  | nan | infinite _ => .unlimited
  | decimal negative digits exponent =>
      let magnitude : Int := (Nat.toDigits 10 digits).length + exponent
      if digits = 0 || magnitude < -330 then .nanoseconds 0
      else if magnitude > 310 then .unlimited
      else budgetOfQuotient negative (digits * Nat.pow 10 exponent.toNat)
        (Nat.pow 10 (-exponent).toNat)

end Seconds

end Tableau
