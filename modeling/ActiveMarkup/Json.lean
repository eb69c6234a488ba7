import ActiveMarkup.Value.Basic
import ActiveMarkup.Decimal.Numeral
import ActiveMarkup.Text.Digit
set_option autoImplicit false

/-!
A strict reader for JSON texts. At most 127 arrays and objects may be nested. A key that is
repeated keeps its first place and its last value. Characters below the space may not stand raw in
a string, and escapes of half a surrogate pair are refused.

A number is read in two parts. As many leading digits as fit a 64-bit word are taken as a whole
number, whose double is then scaled by powers of ten that are doubles themselves. So long
decimals may come out a unit away from the nearest double. A number too large for a double is
refused.
-/

namespace ActiveMarkup

inductive Json where
  | null
  | bool (b : Bool)
  | number (x : Float)
  | text (s : String)
  | array (items : List Json)
  | object (fields : List (String × Json))
deriving Inhabited

namespace Json

def isSpace (c : Char) : Bool :=
  c == ' ' || c == '\n' || c == '\t' || c == '\r'

def skipSpace (cs : List Char) : List Char :=
  cs.dropWhile isSpace

def powerOfTen (k : Nat) : Float :=
  Decimal.nearestDecimal false 1 k

def scale? (x : Float) (exponent : Int) : Nat → Option Float
  | 0 => some x
  | steps + 1 =>
    if exponent.natAbs ≤ 308 then
      if exponent ≥ 0 then
        let y := x * powerOfTen exponent.natAbs
        if y.isInf then none else some y
      else some (x / powerOfTen exponent.natAbs)
    else if x == 0.0 then some x
    else if exponent ≥ 0 then none
    else scale? (x / powerOfTen 308) (exponent + 308) steps

/-- The digits that fit a 64-bit word, as a number with the count of those taken, carrying on
from a number. -/
def takeWord (word count : Nat) : List Char → Nat × Nat
  | [] => (word, count)
  | c :: cs =>
    let next := 10 * word + (c.toNat - '0'.toNat)
    if next < UInt64.size then takeWord next (count + 1) cs else (word, count)

/-- The double of a number without a sign: whole digits, fraction digits and an exponent. Whole
digits beyond the word count as zeros, and fraction digits beyond it are left out. -/
def magnitude? (whole fraction : List Char) (exponent : Int) : Option Float :=
  let (word, count) := takeWord 0 0 whole
  let dropped := whole.length - count
  let (word, places) := takeWord word 0 fraction
  let exponent := exponent + dropped - places
  scale? (Float.ofNat word) exponent (exponent.natAbs / 308 + 2)

def takeFraction? : List Char → Option (List Char × List Char)
  | '.' :: cs =>
    let (digits, rest) := Decimal.takeDigits cs
    if digits.isEmpty then none else some (digits, rest)
  | cs => some ([], cs)

def takeExponent? : List Char → Option (Int × List Char)
  | [] => some (0, [])
  | c :: cs =>
    if c == 'e' || c == 'E' then
      let (exponent, rest) := Decimal.takeExponent (c :: cs)
      if rest.length == cs.length + 1 then none else some (exponent, rest)
    else some (0, c :: cs)

def readNumber? (negative : Bool) (cs : List Char) : Option (Json × List Char) := do
  let (whole, rest) := Decimal.takeDigits cs
  if whole.isEmpty || (whole.head? == some '0' && whole.length > 1) then none
  else
    let (fraction, rest) ← takeFraction? rest
    let (exponent, rest) ← takeExponent? rest
    let x ← magnitude? whole fraction exponent
    some (number (if negative then -x else x), rest)

def readUnit? : List Char → Option (Nat × List Char)
  | a :: b :: c :: d :: rest => (Text.digitsIn? 16 0 [a, b, c, d]).map fun unit => (unit, rest)
  | _ => none

/-- The character of a `\u` escape, whose second half has to follow if it is a surrogate. -/
def readEscape? (cs : List Char) : Option (Char × List Char) := do
  let (unit, rest) ← readUnit? cs
  if 0xd800 ≤ unit && unit < 0xdc00 then
    match rest with
    | '\\' :: 'u' :: rest => do
      let (low, rest) ← readUnit? rest
      if 0xdc00 ≤ low && low < 0xe000 then
        some (Char.ofNat (0x10000 + (unit - 0xd800) * 0x400 + (low - 0xdc00)), rest)
      else none
    | _ => none
  else if 0xdc00 ≤ unit && unit < 0xe000 then none
  else some (Char.ofNat unit, rest)

def shortEscape? (c : Char) : Option Char :=
  if c == '"' || c == '\\' || c == '/' then some c
  else if c == 'b' then some '\x08'
  else if c == 'f' then some '\x0c'
  else if c == 'n' then some '\n'
  else if c == 'r' then some '\r'
  else if c == 't' then some '\t'
  else none

def readString? : Nat → List Char → List Char → Option (String × List Char)
  | 0, _, _ => none
  | bound + 1, out, cs =>
    match cs with
    | [] => none
    | '"' :: rest => some (String.ofList out.reverse, rest)
    | '\\' :: 'u' :: rest => do
      let (c, rest) ← readEscape? rest
      readString? bound (c :: out) rest
    | '\\' :: c :: rest => do
      let c ← shortEscape? c
      readString? bound (c :: out) rest
    | c :: rest => if c.toNat < 0x20 || c == '\\' then none else readString? bound (c :: out) rest

def readText? (cs : List Char) : Option (String × List Char) :=
  readString? (cs.length + 1) [] cs

def expectWord? (word : String) (result : Json) (cs : List Char) : Option (Json × List Char) :=
  if word.toList.isPrefixOf cs then some (result, cs.drop word.length) else none

mutual

/-- A value at the front of a text, after insignificant characters. `room` is how many more arrays
and objects may be opened, and `bound` is on the number of characters. -/
def readValue? (bound room : Nat) (cs : List Char) : Option (Json × List Char) :=
  match bound with
  | 0 => none
  | bound + 1 =>
    match skipSpace cs with
    | 'n' :: rest => expectWord? "null" null ('n' :: rest)
    | 't' :: rest => expectWord? "true" (bool true) ('t' :: rest)
    | 'f' :: rest => expectWord? "false" (bool false) ('f' :: rest)
    | '"' :: rest => do
      let (s, rest) ← readText? rest
      some (text s, rest)
    | '[' :: rest =>
      match room with
      | 0 => none
      | room + 1 =>
        match skipSpace rest with
        | ']' :: rest => some (array [], rest)
        | rest => readItems? bound room [] rest
    | '\x7b' :: rest =>
      match room with
      | 0 => none
      | room + 1 =>
        match skipSpace rest with
        | '\x7d' :: rest => some (object [], rest)
        | rest => readFields? bound room [] rest
    | '-' :: rest => readNumber? true rest
    | rest => readNumber? false rest

def readItems? (bound room : Nat) (items : List Json) (cs : List Char) :
    Option (Json × List Char) :=
  match bound with
  | 0 => none
  | bound + 1 => do
    let (v, rest) ← readValue? bound room cs
    match skipSpace rest with
    | ']' :: rest => some (array (v :: items).reverse, rest)
    | ',' :: rest => readItems? bound room (v :: items) rest
    | _ => none

def readFields? (bound room : Nat) (fields : List (String × Json)) (cs : List Char) :
    Option (Json × List Char) :=
  match bound with
  | 0 => none
  | bound + 1 =>
    match skipSpace cs with
    | '"' :: rest => do
      let (key, rest) ← readText? rest
      match skipSpace rest with
      | ':' :: rest => do
        let (v, rest) ← readValue? bound room rest
        let fields := Table.insert fields key v
        match skipSpace rest with
        | '\x7d' :: rest => some (object fields, rest)
        | ',' :: rest => readFields? bound room fields rest
        | _ => none
      | _ => none
    | _ => none

end

def maxNesting : Nat := 127

def parse? (src : String) : Option Json := do
  let cs := src.toList
  -- each value and each item takes one unit of the bound, and a character of the text
  let (v, rest) ← readValue? (2 * cs.length + 2) maxNesting cs
  if (skipSpace rest).isEmpty then some v else none

end Json

namespace Value

mutual

/-- The value of a JSON value, with identities for its arrays and objects from `next` on, and the
next identity after them. -/
def ofJson (next : Ref) : Json → Value × Ref
  | .null => (null, next)
  | .bool b => (bool b, next)
  | .number x => (number x, next)
  | .text s => (text s, next)
  | .array items =>
    let (values, after) := ofJsonItems (next + 1) items
    (array next values, after)
  | .object fields =>
    let (values, after) := ofJsonFields (next + 1) fields
    (object next values, after)

def ofJsonItems (next : Ref) : List Json → List Value × Ref
  | [] => ([], next)
  | j :: rest =>
    let (v, after) := ofJson next j
    let (vs, last) := ofJsonItems after rest
    (v :: vs, last)

def ofJsonFields (next : Ref) : List (String × Json) → List (String × Value) × Ref
  | [] => ([], next)
  | (k, j) :: rest =>
    let (v, after) := ofJson next j
    let (vs, last) := ofJsonFields after rest
    ((k, v) :: vs, last)

end

end Value

end ActiveMarkup
