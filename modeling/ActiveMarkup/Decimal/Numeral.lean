import ActiveMarkup.Decimal.Binary64
set_option autoImplicit false

namespace ActiveMarkup.Decimal

/-- A numeral taken apart; the exponent is that of the last digit of the fraction. -/
structure Numeral where
  negative : Bool
  whole : List Char
  fraction : List Char
  exponent : Int
deriving Repr, DecidableEq

def digitsValue (start : Nat) (cs : List Char) : Nat :=
  cs.foldl (fun n c => 10 * n + (c.toNat - '0'.toNat)) start

def Numeral.value (n : Numeral) : Float :=
  nearestDecimal n.negative (digitsValue 0 (n.whole ++ n.fraction))
    (n.exponent - n.fraction.length)

def takeSign : List Char → Bool × List Char
  | '+' :: cs => (false, cs)
  | '-' :: cs => (true, cs)
  | cs => (false, cs)

def takeDigits (cs : List Char) : List Char × List Char :=
  (cs.takeWhile Char.isDigit, cs.dropWhile Char.isDigit)

def takeExponent : List Char → Int × List Char
  | [] => (0, [])
  | c :: cs =>
    if c == 'e' || c == 'E' then
      let (negative, rest) := takeSign cs
      let (digits, rest) := takeDigits rest
      if digits.isEmpty then (0, c :: cs)
      else
        let size : Int := digitsValue 0 digits
        (if negative then -size else size, rest)
    else (0, c :: cs)

def takeFraction : List Char → List Char × List Char
  | '.' :: cs => takeDigits cs
  | cs => ([], cs)

/-- The longest numeral at the front of a text, and what follows it. A sign or a point without
digits is no numeral. -/
def Numeral.read? (cs : List Char) : Option (Numeral × List Char) :=
  let (negative, rest) := takeSign cs
  let (whole, rest) := takeDigits rest
  let (fraction, rest) := takeFraction rest
  if whole.isEmpty && fraction.isEmpty then none
  else
    let (exponent, rest) := takeExponent rest
    some (⟨negative, whole, fraction, exponent⟩, rest)

/-- The number that a whole text spells: a numeral, or one of the words `inf`, `infinity` and
`nan` in any case with an optional sign. -/
def readWhole? (cs : List Char) : Option Float :=
  let (negative, rest) := takeSign cs
  let word := String.ofList (rest.map Char.toLower)
  if word == "inf" || word == "infinity" then
    some (if negative then negativeInfinity else infinity)
  else if word == "nan" then some notANumber
  else
    match Numeral.read? cs with
    | some (n, []) => some n.value
    | _ => none

end ActiveMarkup.Decimal
