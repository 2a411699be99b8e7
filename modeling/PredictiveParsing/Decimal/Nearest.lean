/-!
# Nearest numbers

A natural number is read as the double-precision number that is nearest to it; halfway between two
of them it is read as the one whose last bit is zero.
-/

namespace PredictiveParsing.Decimal

/-- The quotient by `2 ^ s`, rounded to the nearest, a half to the even neighbour. -/
def roundShift (n s : Nat) : Nat :=
  let unit := Nat.pow 2 s
  let quotient := n / unit
  let rest := n % unit
  if 2 * rest < unit || (2 * rest == unit && quotient % 2 == 0) then quotient else quotient + 1

/-- All numbers from here on are read as infinity. -/
def overflow : Nat := Nat.pow 2 1024

def infinityBits : Nat := 2047 * Nat.pow 2 52

/-- The bits of the nearest number. A mantissa that is rounded up to `2 ^ 53` carries into the
exponent, as it should. -/
def nearestBits (n : Nat) : Nat :=
  if n = 0 then 0
  else
    let e := n.log2
    let mantissa := if e ≤ 52 then n * Nat.pow 2 (52 - e) else roundShift n (e - 52)
    min infinityBits ((e + 1022) * Nat.pow 2 52 + mantissa)

def nearest (n : Nat) : Float := Float.ofBits (nearestBits n).toUInt64

/-- The number that decimal digits stand for, as far as it matters to the nearest one. -/
def ofDigits (digits : List Char) : Nat :=
  digits.foldl (fun n d => min overflow (10 * n + (d.toNat - '0'.toNat))) 0

end PredictiveParsing.Decimal
