import LazyTensor.Double
import LazyTensor.Decimal.Shortest

/-!
Text of doubles: the shortest digits, written positionally or with an exponent.
-/
namespace LazyTensor.Decimal

/-- Digits `d * 10 ^ g` with a point where one is needed. -/
def positional (d : Nat) (g : Int) : String :=
  let digits := toString d
  if 0 ≤ g then digits ++ String.ofList (List.replicate g.toNat '0')
  else
    let places := (-g).toNat
    let padded := List.replicate (places + 1 - digits.length) '0' ++ digits.toList
    let whole := padded.length - places
    String.ofList (padded.take whole) ++ "." ++ String.ofList (padded.drop whole)

def exponential (d : Nat) (g : Int) : String :=
  match (toString d).toList with
  | [] => ""
  | [c] => String.ofList [c] ++ "e" ++ toString g
  | c :: cs =>
    String.ofList [c] ++ "." ++ String.ofList cs ++ "e" ++ toString (g + cs.length)

def withSign (negative : Bool) (text : String) : String := if negative then "-" ++ text else text

/-- Always positional, and without a point if the number is whole. -/
def plain (x : Double) : String :=
  match x.number with
  | .finite negative m e =>
    withSign negative (if m = 0 then "0" else
      let (d, g) := shortest .double m e
      positional d g)
  | .infinite negative => withSign negative "inf"
  | .nan _ _ => "NaN"

/-- A point at least, and an exponent from `1e16` on and below `1e-4`. -/
def pointed (x : Double) : String :=
  match x.number with
  | .finite negative m e =>
    withSign negative (if m = 0 then "0.0" else
      let (d, g) := shortest .double m e
      let top := g + digitCount d
      if 16 < top || top < -3 then exponential d g
      else if 0 ≤ g then positional d g ++ ".0"
      else positional d g)
  | .infinite negative => withSign negative "inf"
  | .nan _ _ => "NaN"

end LazyTensor.Decimal
