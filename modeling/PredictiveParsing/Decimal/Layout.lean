import PredictiveParsing.Decimal.Shortest

/-!
# Written numbers

How the shortest decimal of a number is laid out: positionally or with an exponent.
-/

namespace PredictiveParsing.Decimal

/-- The choices that a written form makes. A number whose first digit stands at `10 ^ p` is written
positionally when `lowest ≤ p < highest`, where a missing bound bounds nothing. -/
structure Layout where
  lowest : Option Int
  highest : Option Int
  /-- What follows a whole number that is written positionally. -/
  wholeEnd : String
  zero : String
  infinity : String
  undefined : String
  tie : Tie

/-- For people: never an exponent, and no point in a whole number. -/
def Layout.plain : Layout := ⟨none, none, "", "0", "inf", "NaN", .upper⟩

/-- For data: a point or an exponent in every number, and no numbers that are not finite. -/
def Layout.data : Layout := ⟨some (-5), some 16, ".0", "0.0", "null", "null", .even⟩

private def zeros (n : Nat) : String := String.ofList (List.replicate n '0')

/-- The digits of a natural without the zeros at its end, and how many those are. -/
def trimZeros : (fuel : Nat) → Nat → Nat → Nat × Nat
  | 0, n, dropped => (n, dropped)
  | fuel + 1, n, dropped =>
    if n % 10 = 0 && n != 0 then trimZeros fuel (n / 10) (dropped + 1) else (n, dropped)

/-- The digits with a point where `10 ^ 0` ends. -/
def positional (l : Layout) (digits : String) (exponent : Int) : String :=
  match exponent with
  | .ofNat n => digits ++ zeros n ++ l.wholeEnd
  | .negSucc n =>
    let places := n + 1
    if digits.length ≤ places then "0." ++ zeros (places - digits.length) ++ digits
    else
      let cut := digits.length - places
      String.ofList (digits.toList.take cut) ++ "." ++ String.ofList (digits.toList.drop cut)

/-- One digit, the others behind a point, and the exponent with its sign. -/
def exponential (digits : String) (leading : Int) : String :=
  let mantissa :=
    match digits.toList with
    | [] => "0"
    | [d] => String.singleton d
    | d :: ds => String.ofList (d :: '.' :: ds)
  let sign := if leading < 0 then "-" else "+"
  mantissa ++ "e" ++ sign ++ toString leading.natAbs

def Layout.renderMagnitude (l : Layout) : Option Binary → String
  | none => l.zero
  | some b =>
    let s := shortest l.tie b
    let (n, dropped) := trimZeros 20 s.digits 0
    let digits := toString n
    let exponent := s.exponent + dropped
    let leading := exponent + digits.length - 1
    if l.lowest.all (· ≤ leading) && l.highest.all (leading < ·) then positional l digits exponent
    else exponential digits leading

def Layout.render (l : Layout) (x : Float) : String :=
  match Number.ofFloat x with
  | .undefined => l.undefined
  | .infinite negative => (if negative && l.infinity != l.undefined then "-" else "") ++ l.infinity
  | .finite negative magnitude => (if negative then "-" else "") ++ l.renderMagnitude magnitude

end PredictiveParsing.Decimal
