import MaterialModules.Decimal.Range
import MaterialModules.Toml.Value

set_option autoImplicit false

namespace MaterialModules.Toml

namespace Word

def isHex (c : Char) : Bool := c.isDigit || ('a' ≤ c && c ≤ 'f') || ('A' ≤ c && c ≤ 'F')

def joinDigits (digit : Char → Bool) : List Char → Option (List Char)
  | [] => none
  | [c] => if digit c then some [c] else none
  | c :: '_' :: r => if digit c then (joinDigits digit r).map (c :: ·) else none
  | c :: r => if digit c then (joinDigits digit r).map (c :: ·) else none

def hexDigit (c : Char) : Nat :=
  if c.isDigit then c.toNat - '0'.toNat
  else if 'a' ≤ c then c.toNat - 'a'.toNat + 10
  else c.toNat - 'A'.toNat + 10

def number (base : Nat) (ds : List Char) : Nat := ds.foldl (fun n c => n * base + hexDigit c) 0

def cutSign : List Char → Bool × List Char
  | '-' :: r => (true, r)
  | '+' :: r => (false, r)
  | cs => (false, cs)

def decimalDigits (cs : List Char) : Option (List Char) :=
  match joinDigits Char.isDigit cs with
  | some ['0'] => some ['0']
  | some ('0' :: _) => none
  | other => other

def isInteger : List Char → Bool
  | '0' :: 'x' :: r => ((joinDigits isHex r).map (number 16)).any (· < 1 <<< 63)
  | '0' :: 'o' :: r =>
    ((joinDigits (fun c => '0' ≤ c && c ≤ '7') r).map (number 8)).any (· < 1 <<< 63)
  | '0' :: 'b' :: r => ((joinDigits (fun c => c = '0' || c = '1') r).map (number 2)).any (· < 1 <<< 63)
  | cs =>
    let (negative, body) := cutSign cs
    ((decimalDigits body).map (number 10)).any fun n => n < 1 <<< 63 || (negative && n = 1 <<< 63)

def exponent? : List Char → Option Int
  | [] => some 0
  | c :: r =>
    if c = 'e' || c = 'E' then
      let (negative, ds) := cutSign r
      (joinDigits Char.isDigit ds).map fun ds => if negative then -number 10 ds else number 10 ds
    else none

def decimal? (cs : List Char) : Option Decimal.Digits := do
  let isPlace (c : Char) := c.isDigit || c = '_'
  let whole ← decimalDigits (cs.takeWhile isPlace)
  match cs.dropWhile isPlace with
  | [] => none
  | '.' :: r =>
    let places ← joinDigits Char.isDigit (r.takeWhile isPlace)
    let e ← exponent? (r.dropWhile isPlace)
    pure ⟨number 10 (whole ++ places), e - places.length⟩
  | r =>
    let e ← exponent? r
    pure ⟨number 10 whole, e⟩

/-- Infinity has a word of its own. Of decimals, a negative one may be too large for a finite number, but
not a positive one. -/
def isFloat (cs : List Char) : Bool :=
  let (negative, body) := cutSign cs
  body = "inf".toList || body = "nan".toList ||
    (decimal? body).any fun d => negative || !d.overflows

def isPair (most : Nat) (a b : Char) : Bool :=
  a.isDigit && b.isDigit && number 10 [a, b] ≤ most

def daysIn (year month : Nat) : Nat :=
  if month = 2 then
    if year % 4 = 0 ∧ (year % 100 ≠ 0 ∨ year % 400 = 0) then 29 else 28
  else if month = 4 ∨ month = 6 ∨ month = 9 ∨ month = 11 then 30
  else 31

def isDate : List Char → Bool
  | [y₁, y₂, y₃, y₄, '-', m₁, m₂, '-', d₁, d₂] =>
    [y₁, y₂, y₃, y₄].all Char.isDigit && isPair 12 m₁ m₂ && isPair 31 d₁ d₂ &&
      let month := number 10 [m₁, m₂]
      let day := number 10 [d₁, d₂]
      1 ≤ month && 1 ≤ day && day ≤ daysIn (number 10 [y₁, y₂, y₃, y₄]) month
  | _ => false

def isOffset : List Char → Bool
  | [] | ['z'] | ['Z'] => true
  | [s, a, b, ':', c, d] => (s = '+' || s = '-') && isPair 23 a b && isPair 59 c d
  | _ => false

def isClock (offset : Bool) : List Char → Bool
  | a :: b :: ':' :: c :: d :: ':' :: e :: f :: r =>
    isPair 23 a b && isPair 59 c d && isPair 60 e f &&
      let rest :=
        match r with
        | '.' :: p :: places => if p.isDigit then places.dropWhile Char.isDigit else r
        | _ => r
      if offset then isOffset rest else rest.isEmpty
  | _ => false

def isTime (cs : List Char) : Bool :=
  isDate cs || isClock false cs ||
    (isDate (cs.take 10) &&
      match cs.drop 10 with
      | c :: r => (c = 'T' || c = 't' || c = ' ') && isClock true r
      | [] => false)

def value? (cs : List Char) : Option Value :=
  if cs = "true".toList then some (.boolean true)
  else if cs = "false".toList then some (.boolean false)
  else if isInteger cs then some (.integer (String.ofList cs))
  else if isFloat cs then some (.float (String.ofList cs))
  else if isTime cs then some (.time (String.ofList cs))
  else none

def isWordChar (c : Char) : Bool :=
  c.isAlphanum || c = '_' || c = '+' || c = '-' || c = '.' || c = ':'

/-- Takes a word off the text. A date may be followed by a blank and a time of day. -/
def read (cs : List Char) : Option (Value × List Char) :=
  let word := cs.takeWhile isWordChar
  let rest := cs.dropWhile isWordChar
  match isDate word, rest with
  | true, ' ' :: r =>
    let more := r.takeWhile isWordChar
    if isClock true more then
      (value? (word ++ ' ' :: more)).map fun v => (v, r.dropWhile isWordChar)
    else (value? word).map fun v => (v, rest)
  | _, _ => (value? word).map fun v => (v, rest)

end Word

end MaterialModules.Toml
