/-!
# Shortest decimals

A binary floating-point number stands for every real that rounds to it. Its shortest decimal is the
one with the fewest digits in that interval, and of two the nearer. Two that are equally near are
told apart by a `Tie`.
-/

namespace PredictiveParsing.Decimal

/-- The positive number `mantissa * 2 ^ exponent`, whose lower neighbour is only half as far away as
the upper one when `atPower` holds. -/
structure Binary where
  mantissa : Nat
  exponent : Int
  atPower : Bool

/-- The decimal `digits * 10 ^ exponent`. -/
structure Scaled where
  digits : Nat
  exponent : Int
deriving DecidableEq

/-- A ratio of naturals, for exact comparisons. -/
structure Ratio where
  num : Nat
  den : Nat

namespace Ratio

def le (a b : Ratio) : Bool := a.num * b.den ≤ b.num * a.den

def lt (a b : Ratio) : Bool := a.num * b.den < b.num * a.den

def distance (a b : Ratio) : Ratio where
  num := (a.num * b.den - b.num * a.den) + (b.num * a.den - a.num * b.den)
  den := a.den * b.den

/-- The ratio times a power of a base. -/
def scale (r : Ratio) (base : Nat) : Int → Ratio
  | .ofNat n => ⟨r.num * Nat.pow base n, r.den⟩
  | .negSucc n => ⟨r.num, r.den * Nat.pow base (n + 1)⟩

end Ratio

namespace Binary

def value (b : Binary) : Ratio := Ratio.scale ⟨b.mantissa, 1⟩ 2 b.exponent

/-- The midpoint towards the lower neighbour. -/
def lower (b : Binary) : Ratio :=
  if b.atPower then Ratio.scale ⟨4 * b.mantissa - 1, 1⟩ 2 (b.exponent - 2)
  else Ratio.scale ⟨2 * b.mantissa - 1, 1⟩ 2 (b.exponent - 1)

def upper (b : Binary) : Ratio := Ratio.scale ⟨2 * b.mantissa + 1, 1⟩ 2 (b.exponent - 1)

/-- Whether a real rounds to the number; the midpoints do when the mantissa is even. -/
def covers (b : Binary) (r : Ratio) : Bool :=
  if b.mantissa % 2 = 0 then b.lower.le r && r.le b.upper else b.lower.lt r && r.lt b.upper

end Binary

/-- Steps `k` up while `10 ^ (k + 1)` is at most the ratio, and down while `10 ^ k` exceeds it. -/
def magnitudeFrom (r : Ratio) : (fuel : Nat) → Int → Int
  | 0, k => k
  | fuel + 1, k =>
    if (Ratio.scale ⟨1, 1⟩ 10 (k + 1)).le r then magnitudeFrom r fuel (k + 1)
    else if r.lt (Ratio.scale ⟨1, 1⟩ 10 k) then magnitudeFrom r fuel (k - 1)
    else k

/-- Which of two neighbouring decimals stands for the number in the middle of them. -/
inductive Tie where
  | upper
  | even
deriving DecidableEq

/-- Whether the lower of two neighbours wins, which ends in the digits `below`. -/
def Tie.keepsLower (t : Tie) (below : Nat) : Bool :=
  match t with
  | .upper => false
  | .even => below % 2 == 0

/-- The nearer of the two neighbours of `b` on the grid of multiples of `10 ^ k` that round to it.
-/
def onGrid? (t : Tie) (b : Binary) (k : Int) : Option Scaled :=
  let scaled := Ratio.scale b.value 10 (-k)
  let below := scaled.num / scaled.den
  let point (n : Nat) : Ratio := Ratio.scale ⟨n, 1⟩ 10 k
  match b.covers (point below), b.covers (point (below + 1)) with
  | false, false => none
  | true, false => some ⟨below, k⟩
  | false, true => some ⟨below + 1, k⟩
  | true, true =>
    let toLower := b.value.distance (point below)
    let toUpper := b.value.distance (point (below + 1))
    if toLower.lt toUpper || (toLower.le toUpper && t.keepsLower below) then some ⟨below, k⟩
    else some ⟨below + 1, k⟩

/-- Tries finer and finer grids; a number with an empty interval on all of them has no digits. -/
def shortestFrom (t : Tie) (b : Binary) : (fuel : Nat) → Int → Scaled
  | 0, k => ⟨0, k⟩
  | fuel + 1, k => (onGrid? t b k).getD (shortestFrom t b fuel (k - 1))

/-- The shortest decimal that reads back as the number; 17 digits are always enough. -/
def shortest (t : Tie) (b : Binary) : Scaled :=
  shortestFrom t b 18 (magnitudeFrom b.value 400 0)

/-- What the bits of a double-precision number mean. -/
inductive Number where
  | finite (negative : Bool) (magnitude : Option Binary)
  | infinite (negative : Bool)
  | undefined

/-- Zero has no magnitude; the smallest numbers have no leading one bit. -/
def Number.ofFloat (x : Float) : Number :=
  let bits := x.toBits.toNat
  let negative := bits / Nat.pow 2 63 == 1
  let exponent : Nat := bits / Nat.pow 2 52 % 2048
  let fraction : Nat := bits % Nat.pow 2 52
  if exponent = 2047 then
    if fraction = 0 then .infinite negative else .undefined
  else if exponent = 0 then
    if fraction = 0 then .finite negative none else .finite negative (some ⟨fraction, -1074, false⟩)
  else
    .finite negative
      (some ⟨Nat.pow 2 52 + fraction, (exponent : Int) - 1075, fraction == 0 && exponent != 1⟩)

end PredictiveParsing.Decimal
