import ActiveMarkup.Value.Printer
import ActiveMarkup.Decimal.Numeral
import ActiveMarkup.Text.Blank
import ActiveMarkup.Text.Digit
set_option autoImplicit false

namespace ActiveMarkup.Value

/-- Digits in a base, summed up in doubles from the left; nothing if a character is no digit. -/
def sumDigits? (base : Nat) : Float → List Char → Option Float
  | sum, [] => some sum
  | sum, c :: cs => do
    let digit ← Text.digitIn? base c
    sumDigits? base (sum * Float.ofNat base + Float.ofNat digit) cs

def numberInBase (base : Nat) (cs : List Char) : Float :=
  if cs.isEmpty then Decimal.notANumber
  else (sumDigits? base 0.0 cs).getD Decimal.notANumber

/-- Whether a character keeps a text from being a decimal numeral whatever else it holds. -/
def isForeignLetter (c : Char) : Bool :=
  c.isAlpha && c != 'e' && c != 'E'

def numberOfWord (cs : List Char) : Float :=
  let word := String.ofList cs
  if word == "Infinity" || word == "+Infinity" then Decimal.infinity
  else if word == "-Infinity" then Decimal.negativeInfinity
  else if cs.any isForeignLetter then Decimal.notANumber
  else (Decimal.readWhole? cs).getD Decimal.notANumber

/-- The number of a whole text, blanks at its ends aside. The empty text is zero, and a zero with
a base letter in front selects the base. -/
def numberOfText (s : String) : Float :=
  match Text.trim s.toList with
  | [] => 0.0
  | '0' :: 'x' :: cs | '0' :: 'X' :: cs => numberInBase 16 cs
  | '0' :: 'o' :: cs | '0' :: 'O' :: cs => numberInBase 8 cs
  | '0' :: 'b' :: cs | '0' :: 'B' :: cs => numberInBase 2 cs
  | cs => numberOfWord cs

def leadingNumber (s : String) : Float :=
  let cs := Text.trimFront s.toList
  let (negative, rest) := Decimal.takeSign cs
  if "Infinity".toList.isPrefixOf rest then
    if negative then Decimal.negativeInfinity else Decimal.infinity
  else
    match Decimal.Numeral.read? cs with
    | some (numeral, _) => numeral.value
    | none => Decimal.notANumber

def toNumber : Value → Float
  | undefined => Decimal.notANumber
  | null => 0.0
  | bool b => if b then 1.0 else 0.0
  | number x => x
  | text s => numberOfText s
  | array ref items => numberOfText (toText (array ref items))
  | object .. | node _ => Decimal.notANumber

end ActiveMarkup.Value
