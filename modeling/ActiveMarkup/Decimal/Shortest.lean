import ActiveMarkup.Decimal.Binary64
set_option autoImplicit false

/-!
The fewest decimal digits that read back as a given double. The reals that round to the double
form an interval around it, whose ends belong to it when the mantissa is even. For one digit,
two digits and so on the two neighbours of the value on that decimal grid are tried, and the
first grid with a neighbour inside the interval is taken; of two such neighbours the nearer one,
and the upper one if both are equally near. Seventeen digits always suffice.
-/

namespace ActiveMarkup.Decimal

/-- Decimal digits with the place of the point: `0.d₁d₂… * 10 ^ point`. -/
structure Digits where
  digits : List Char
  point : Int

structure Interval where
  value : Nat
  low : Nat
  high : Nat
  den : Nat
  closed : Bool

/-- The rounding interval of `mantissa * 2 ^ exponent`. Below a power of two the neighbour is
half as far away. -/
def Interval.ofParts (mantissa : Nat) (exponent : Int) : Interval :=
  let below := if mantissa == twoTo 52 then 1 else 2
  let scale : Nat × Nat :=
    match exponent - 2 with
    | .ofNat k => (twoTo k, 1)
    | .negSucc k => (1, twoTo (k + 1))
  { value := 4 * mantissa * scale.1
    low := (4 * mantissa - below) * scale.1
    high := (4 * mantissa + 2) * scale.1
    den := scale.2
    closed := mantissa % 2 == 0 }

def Interval.holds (i : Interval) (count step scale : Nat) : Bool :=
  let num := count * step * i.den
  if i.closed then i.low * scale ≤ num && num ≤ i.high * scale
  else i.low * scale < num && num < i.high * scale

def gridStep : Int → Nat × Nat
  | .ofNat k => (tenTo k, 1)
  | .negSucc k => (1, tenTo (k + 1))

def Interval.onGrid (i : Interval) (unit : Int) : Option Nat :=
  let (step, scale) := gridStep unit
  let down := i.value * scale / (i.den * step)
  let rest := i.value * scale % (i.den * step)
  let lower := i.holds down step scale
  let upper := i.holds (down + 1) step scale
  if upper && (!lower || 2 * rest ≥ i.den * step) then some (down + 1)
  else if lower then some down
  else none

/-- The least `k` from `guess` on with `num / den < 10 ^ k`, in at most `tries` steps. -/
def placesFrom (num den : Nat) : Nat → Int → Int
  | 0, guess => guess
  | tries + 1, guess =>
    let (step, scale) := gridStep guess
    if num * scale < den * step then guess else placesFrom num den tries (guess + 1)

def Interval.search (i : Interval) : Nat → Int → Digits
  | 0, unit => ⟨Nat.toDigits 10 (i.value / i.den), unit⟩
  | tries + 1, unit =>
    match i.onGrid unit with
    | some count =>
      let digits := Nat.toDigits 10 count
      ⟨(digits.reverse.dropWhile (· == '0')).reverse, unit + digits.length⟩
    | none => i.search tries (unit - 1)

def shortest (mantissa : Nat) (exponent : Int) : Digits :=
  let i := Interval.ofParts mantissa exponent
  -- 30103 / 100000 is the decimal logarithm of two
  let guess := ((i.value.log2 : Int) - (i.den.log2 : Int) - 1) * 30103 / 100000 - 1
  let places := placesFrom i.value i.den 6 guess
  i.search 18 (places - 1)

end ActiveMarkup.Decimal
