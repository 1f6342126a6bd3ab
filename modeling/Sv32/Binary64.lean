/-! # Binary floating-point numbers

The finite numbers of the 64-bit binary format, as sign, mantissa and exponent. Rounding takes an exact
rational to the nearest of them, a tie to the even mantissa. -/
namespace Sv32

/-- The integer nearest to a quotient; a tie goes to the even one. -/
def roundDiv (num den : Nat) : Nat :=
  let q := num / den
  let r := num % den
  if 2 * r < den then q
  else if den < 2 * r then q + 1
  else if q % 2 = 0 then q else q + 1

/-- Stands for the mantissa times a power of two. Below 2^52 the exponent is the least one. -/
structure Binary64 where
  negative : Bool
  mantissa : Nat
  exponent : Int
  deriving DecidableEq, Repr

namespace Binary64

def minExponent : Int := -1074

def zero : Binary64 := ⟨false, 0, minExponent⟩

def descale (num den : Nat) (exponent : Int) : Nat × Nat :=
  (num <<< (-exponent).toNat, den <<< exponent.toNat)

def leadingExponent (num den : Nat) : Int :=
  let k : Int := (num.log2 : Int) - den.log2
  let (n, d) := descale num den k
  if d ≤ n then k else k - 1

def ofRat (q : Rat) : Binary64 :=
  let num := q.num.natAbs
  if num = 0 then zero
  else
    let e := max (leadingExponent num q.den - 52) minExponent
    let (n, d) := descale num q.den e
    let m := roundDiv n d
    if m = 1 <<< 53 then ⟨q.num < 0, 1 <<< 52, e + 1⟩ else ⟨q.num < 0, m, e⟩

def ofNat (n : Nat) : Binary64 := ofRat n

def toRat (x : Binary64) : Rat :=
  let (n, d) := descale x.mantissa 1 (-x.exponent)
  mkRat (if x.negative then -n else n) d

def div (x y : Binary64) : Binary64 := ofRat (x.toRat / y.toRat)

def mulAdd (x y z : Binary64) : Binary64 := ofRat (x.toRat * y.toRat + z.toRat)

def bits (x : Binary64) : BitVec 64 :=
  let exponent : BitVec 11 :=
    if x.mantissa < 1 <<< 52 then 0 else BitVec.ofInt 11 (x.exponent - minExponent + 1)
  BitVec.ofBool x.negative ++ exponent ++ BitVec.ofNat 52 x.mantissa

/-- Decimal text with a fixed number of places, rounded from the exact value with ties to even. A
negative number keeps its sign even where all digits are zero. -/
def toFixed (places : Nat) (x : Binary64) : String :=
  let (n, d) := descale (x.mantissa * Nat.pow 10 places) 1 (-x.exponent)
  let digits := Nat.toDigits 10 (roundDiv n d)
  let digits := List.replicate (places + 1 - digits.length) '0' ++ digits
  let whole := digits.length - places
  String.ofList ((if x.negative then ['-'] else []) ++ digits.take whole ++ ['.'] ++ digits.drop whole)

end Binary64

end Sv32
