import ActiveMarkup.Decimal.Shortest
set_option autoImplicit false

namespace ActiveMarkup.Decimal

/-- How numbers are laid out. The exponent is written for values of at least `10 ^ large` and for
values below `10 ^ (small + 1)`, if bounds are given at all. -/
structure Layout where
  infinite : String
  signedZero : Bool
  bounds : Option (Int × Int)

def positional (d : Digits) : List Char :=
  match d.point with
  | .ofNat 0 => '0' :: '.' :: d.digits
  | .ofNat k =>
    if d.digits.length ≤ k then d.digits ++ List.replicate (k - d.digits.length) '0'
    else d.digits.take k ++ '.' :: d.digits.drop k
  | .negSucc k => '0' :: '.' :: (List.replicate (k + 1) '0' ++ d.digits)

def scientific (d : Digits) : List Char :=
  let power := d.point - 1
  let head :=
    match d.digits with
    | first :: second :: rest => first :: '.' :: second :: rest
    | digits => digits
  let sign := if power < 0 then '-' else '+'
  head ++ 'e' :: sign :: Nat.toDigits 10 power.natAbs

def Layout.writesPower (layout : Layout) (power : Int) : Bool :=
  match layout.bounds with
  | none => false
  | some (small, large) => power ≤ small || large ≤ power

def Layout.text (layout : Layout) (x : Float) : String :=
  match Parts.ofFloat? x with
  | none =>
    if x.isNaN then "NaN"
    else if signBit x then "-" ++ layout.infinite
    else layout.infinite
  | some a =>
    if a.mantissa == 0 then if a.negative && layout.signedZero then "-0" else "0"
    else
      let d := shortest a.mantissa a.exponent
      let body := if layout.writesPower (d.point - 1) then scientific d else positional d
      String.ofList (if a.negative then '-' :: body else body)

/-- Numbers shown to a reader: no signed zero, and the power of ten written from `1e+21` on and
from `1e-7` down. -/
def shown : Layout := ⟨"Infinity", false, some (-7, 21)⟩

def exactly : Layout := ⟨"Infinity", true, some (-7, 21)⟩

def literal : Layout := ⟨"inf", true, none⟩

end ActiveMarkup.Decimal
