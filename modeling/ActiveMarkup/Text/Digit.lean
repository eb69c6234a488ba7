set_option autoImplicit false

namespace ActiveMarkup.Text

def digitIn? (base : Nat) (c : Char) : Option Nat :=
  let n := c.toNat
  let digit? :=
    if '0' ≤ c && c ≤ '9' then some (n - '0'.toNat)
    else if 'a' ≤ c && c ≤ 'f' then some (n - 'a'.toNat + 10)
    else if 'A' ≤ c && c ≤ 'F' then some (n - 'A'.toNat + 10)
    else none
  digit?.filter (· < base)

def digitsIn? (base : Nat) : Nat → List Char → Option Nat
  | n, [] => some n
  | n, c :: cs => do digitsIn? base (base * n + (← digitIn? base c)) cs

/-- A number without a minus sign: digits, of which there is one at least, with an optional plus
sign in front. -/
def unsigned? (base : Nat) : List Char → Option Nat
  | '+' :: c :: cs => digitsIn? base 0 (c :: cs)
  | c :: cs => digitsIn? base 0 (c :: cs)
  | [] => none

end ActiveMarkup.Text
