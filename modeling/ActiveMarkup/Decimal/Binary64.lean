set_option autoImplicit false

namespace ActiveMarkup.Decimal

def twoTo (k : Nat) : Nat := Nat.pow 2 k

def tenTo (k : Nat) : Nat := Nat.pow 10 k

/-- A finite double: `mantissa * 2 ^ exponent`, with a sign of its own so that both zeros exist. -/
structure Parts where
  negative : Bool
  mantissa : Nat
  exponent : Int

def signBit (x : Float) : Bool :=
  x.toBits.toNat / twoTo 63 == 1

def Parts.ofFloat? (x : Float) : Option Parts :=
  let bits : Nat := x.toBits.toNat
  let field : Nat := bits / twoTo 52 % twoTo 11
  let fraction : Nat := bits % twoTo 52
  if field == 2047 then none
  else if field == 0 then some ⟨signBit x, fraction, -1074⟩
  else some ⟨signBit x, fraction + twoTo 52, (field : Int) - 1075⟩

def infinityBits : Nat := 2047 * twoTo 52

def ofMagnitude (negative : Bool) (bits : Nat) : Float :=
  let bits := min bits infinityBits
  Float.ofBits (UInt64.ofNat (if negative then bits + twoTo 63 else bits))

def infinity : Float := ofMagnitude false infinityBits

def negativeInfinity : Float := ofMagnitude true infinityBits

def notANumber : Float := 0.0 / 0.0

/-- The quotient rounded to a natural number, a tie going to the even neighbour. -/
def roundQuotient (num den : Nat) : Nat :=
  let quotient := num / den
  let twice := 2 * (num % den)
  if twice > den || (twice == den && quotient % 2 == 1) then quotient + 1 else quotient

def inUnits (num den : Nat) (unit : Int) : Nat × Nat :=
  match unit with
  | .ofNat k => (num, den * twoTo k)
  | .negSucc k => (num * twoTo (k + 1), den)

def nearestBits (num den : Nat) : Nat :=
  if num == 0 then 0
  else
    -- the logarithms give the unit in which the count has 53 bits, or the one below it
    let guess := max ((num.log2 : Int) - (den.log2 : Int) - 53) (-1074)
    let scaled := inUnits num den guess
    let unit := if scaled.1 / scaled.2 < twoTo 53 then guess else guess + 1
    let scaled := inUnits num den unit
    roundQuotient scaled.1 scaled.2 + (unit + 1074).toNat * twoTo 52

def nearest (negative : Bool) (num den : Nat) : Float :=
  ofMagnitude negative (nearestBits num den)

/-- The double nearest to `digits * 10 ^ exponent`, with the given sign. Exponents beyond the
range of doubles are answered without computing the power. -/
def nearestDecimal (negative : Bool) (digits : Nat) (exponent : Int) : Float :=
  let places := (Nat.toDigits 10 digits).length
  if digits == 0 || exponent + places < -400 then ofMagnitude negative 0
  else if exponent + places > 400 then ofMagnitude negative infinityBits
  else
    match exponent with
    | .ofNat k => nearest negative (digits * tenTo k) 1
    | .negSucc k => nearest negative digits (tenTo (k + 1))

/-- The remainder of a division truncated toward zero: exact, and with the sign of the dividend.
Division by zero and of an infinity is no number. -/
def remainder (x y : Float) : Float :=
  match Parts.ofFloat? x with
  | none => notANumber
  | some a =>
    match Parts.ofFloat? y with
    | none => if y.isNaN then notANumber else x
    | some b =>
      if b.mantissa == 0 then notANumber
      else
        let unit := min a.exponent b.exponent
        let num := a.mantissa * twoTo (a.exponent - unit).toNat
        let den := b.mantissa * twoTo (b.exponent - unit).toNat
        match unit with
        | .ofNat k => nearest a.negative (num % den * twoTo k) 1
        | .negSucc k => nearest a.negative (num % den) (twoTo (k + 1))

def toNat? (x : Float) : Option Nat :=
  match Parts.ofFloat? x with
  | none => none
  | some a =>
    if a.mantissa == 0 then some 0
    else if a.negative then none
    else
      match a.exponent with
      | .ofNat k => some (a.mantissa * twoTo k)
      | .negSucc k =>
        if a.mantissa % twoTo (k + 1) == 0 then some (a.mantissa / twoTo (k + 1)) else none

end ActiveMarkup.Decimal
