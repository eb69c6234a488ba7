import ActiveMarkup.Text.Cut
import ActiveMarkup.Text.Digit
set_option autoImplicit false

namespace ActiveMarkup.Markup

inductive Place where
  | content
  | attribute
deriving DecidableEq, Repr

def escapeChar (place : Place) (c : Char) : List Char :=
  match place, c with
  | _, '&' => "&amp;".toList
  | .content, '<' => "&lt;".toList
  | .content, '>' => "&gt;".toList
  | .attribute, '"' => "&quot;".toList
  | _, c => [c]

def escape (place : Place) (cs : List Char) : List Char :=
  cs.flatMap (escapeChar place)

def charOfCode? (n : Nat) : Option Char :=
  if n.isValidChar then some (Char.ofNat n) else none

def referenced? (name : List Char) : Option Char :=
  match name with
  | ['a', 'm', 'p'] => some '&'
  | ['l', 't'] => some '<'
  | ['g', 't'] => some '>'
  | ['q', 'u', 'o', 't'] => some '"'
  | ['a', 'p', 'o', 's'] => some '\''
  | ['n', 'b', 's', 'p'] => some '\u00a0'
  | '#' :: 'x' :: digits | '#' :: 'X' :: digits => (Text.unsigned? 16 digits).bind charOfCode?
  | '#' :: digits => (Text.unsigned? 10 digits).bind charOfCode?
  | _ => none

/-- The most bytes from the ampersand of a reference to before its semicolon. -/
def referenceSpan : Nat := 10

/-- The character of a reference whose ampersand was read, and how many characters it takes. -/
def reference? (cs : List Char) : Option (Char × Nat) :=
  match Text.cutAt ';' (cs.take referenceSpan) with
  | none => none
  | some (name, _) =>
    if 1 + Text.byteSize name ≤ referenceSpan then
      (referenced? name).map fun c => (c, name.length + 1)
    else none

def decode : List Char → List Char
  | [] => []
  | c :: cs =>
    if c == '&' then
      match reference? cs with
      | some (found, size) => found :: decode (cs.drop size)
      | none => '&' :: decode cs
    else c :: decode cs
termination_by cs => cs.length
decreasing_by
  all_goals simp only [List.length_cons, List.length_drop]
  all_goals omega

end ActiveMarkup.Markup
