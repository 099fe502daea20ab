import MaterialModules.Decimal.Shortest

set_option autoImplicit false

namespace MaterialModules.Decimal

structure Layout where
  /-- The least and the greatest power of ten of a leading digit that still goes without an exponent;
  none if an exponent is never written. -/
  positional : Option (Int × Int)
  /-- Whether a whole number keeps a point and a zero. -/
  pointed : Bool
  deriving DecidableEq, Repr

namespace Layout

def plain (l : Layout) (ds : List Char) (exponent : Int) : List Char :=
  if 0 ≤ exponent then
    ds ++ List.replicate exponent.toNat '0' ++ (if l.pointed then ['.', '0'] else [])
  else
    let behind := (-exponent).toNat
    if behind < ds.length then
      ds.take (ds.length - behind) ++ '.' :: ds.drop (ds.length - behind)
    else '0' :: '.' :: List.replicate (behind - ds.length) '0' ++ ds

def scientific (ds : List Char) (leading : Int) : List Char :=
  let mantissa :=
    match ds with
    | [] => []
    | [d] => [d]
    | d :: rest => d :: '.' :: rest
  mantissa ++ 'e' :: (toString leading).toList

def decimal (l : Layout) (d : Digits) : List Char :=
  let ds := Nat.toDigits 10 d.digits
  let leading := d.exponent + ds.length - 1
  match l.positional with
  | none => l.plain ds d.exponent
  | some (least, greatest) =>
    if least ≤ leading ∧ leading ≤ greatest then l.plain ds d.exponent else scientific ds leading

/-- The text of a number given by its sign, biased exponent and fraction; the exponent `special` marks
the infinities and what is no number. -/
def fields (l : Layout) (width bias special : Nat) (negative : Bool) (biased fraction : Nat) :
    List Char :=
  let sign := if negative then ['-'] else []
  if biased = special then
    if fraction = 0 then sign ++ ['i', 'n', 'f'] else ['N', 'a', 'N']
  else if biased = 0 ∧ fraction = 0 then
    sign ++ if l.pointed then ['0', '.', '0'] else ['0']
  else sign ++ l.decimal (Reals.ofFields width bias biased fraction).shortest

def single (l : Layout) (x : Float32) : List Char :=
  let bits := x.toBits.toNat
  l.fields 23 127 255 (bits >>> 31 = 1) ((bits >>> 23) % 256) (bits % (1 <<< 23))

def double (l : Layout) (x : Float) : List Char :=
  let bits := x.toBits.toNat
  l.fields 52 1023 2047 (bits >>> 63 = 1) ((bits >>> 52) % 2048) (bits % (1 <<< 52))

end Layout

end MaterialModules.Decimal
