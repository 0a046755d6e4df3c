import LazyTensor.SymInt.Compare

/-!
Quotient and remainder by a constant. Both reduce the dividend and start again on what they
get, so they count down a number of steps that is computed from the size of the dividend and
of the divisor; running out of it is a failure of its own.
-/
namespace LazyTensor.SymInt

mutual

/-- Constructors, plus the binary length of every constant. -/
def weight : SymInt → Nat
  | num n => 1 + n.natAbs.log2
  | var _ => 1
  | mul a c | div a c | mod a c | lt a c => 1 + c.natAbs.log2 + a.weight
  | sum ps | conj ps => 1 + weightAll ps

def weightAll : List SymInt → Nat
  | [] => 0
  | p :: ps => p.weight + weightAll ps

end

def steps (e : SymInt) (b : Int) : Nat := 64 * Nat.pow (2 * e.weight + b.natAbs.log2 + 2) 3

/-- The terms of a sum, sorted for a division by `b`. -/
structure Split where
  /-- Quotients of the terms that `b` divides. -/
  whole : List SymInt := []
  rest : List SymInt := []
  /-- Common divisor of `b` and the coefficients in `rest`. -/
  factor : Int
  /-- The first coefficient in `rest` that divides `b`. -/
  divisor : Int := 1

namespace Split

def addOther (s : Split) (x : SymInt) : Split :=
  { s with rest := s.rest ++ [x], factor := 1 }

def add (b : Int) (s : Split) (x : SymInt) : Checked Split :=
  match x with
  | num n => do
    if (← Checked.floorMod n b) = 0 then
      let q ← Checked.floorDiv n b
      pure { s with whole := s.whole ++ [SymInt.num q] }
    else
      let g ← Checked.gcd s.factor n
      pure { s with rest := s.rest ++ [x], factor := g }
  | mul a c => do
    if (← Checked.floorMod c b) = 0 then
      let q ← a.times (← Checked.floorDiv c b)
      pure { s with whole := s.whole ++ [q] }
    else
      let g ← Checked.gcd s.factor c
      let divides ←
        if s.divisor = 1 then do pure ((← Checked.floorMod b c) = 0 : Bool) else pure false
      let divisor := if divides then c else s.divisor
      pure { s with rest := s.rest ++ [x], factor := g, divisor }
  | x => .ok (s.addOther x)

end Split

/-- A term of a sum with its constant reduced modulo `b`. -/
def reduceTerm (b : Int) : SymInt → Checked SymInt
  | num n => return num (← Checked.floorMod n b)
  | mul a c => do a.times (← Checked.floorMod c b)
  | e => .ok e

mutual

def quotientIn : Nat → SymInt → Int → Bool → Checked SymInt
  | 0, _, _, _ => .error .unfinished
  | n + 1, e, b, factoring =>
    if b = 0 then .error (.divisionByZero e.render)
    else match e with
      | num k => return num (← Checked.floorDiv k b)
      | mul a c => do
        if (← Checked.floorMod c b) = 0 then a.times (← Checked.floorDiv c b)
        else
          let r ← Checked.floorMod b c
          if r = 0 ∧ 0 < c then
            let q ← Checked.floorDiv b c
            quotientIn n a q true
          else quotientPlain n e b
      | div a c => do
        let d ← Checked.mul c b
        quotientIn n a d true
      | mod a c => do
        if (← Checked.floorMod c b) = 0 then
          let q ← quotientIn n a b true
          let d ← Checked.floorDiv c b
          remainderIn n q d
        else quotientPlain n e b
      | lt a c => do
        let q ← quotientIn n a b true
        q.lessThan (← Checked.floorDiv c b)
      | conj ps => do
        let qs ← ps.mapM (fun p => quotientIn n p b true)
        pure (conjunction qs)
      | sum _ => quotientSum n e b factoring
      | var _ => quotientPlain n e b

/-- A dividend that may be negative is shifted by a multiple of `b` first. -/
def quotientPlain : Nat → SymInt → Int → Checked SymInt
  | 0, _, _ => .error .unfinished
  | n + 1, e, b =>
    if b < 0 then do
      let c ← Checked.neg b
      let q ← quotientIn n e c true
      q.times (-1)
    else if b = 1 then .ok e
    else if e.lo < 0 then do
      let offset ← Checked.floorDiv e.lo b
      let shift ← Checked.mul (← Checked.neg offset) b
      let moved ← e.plusInt shift
      let q ← quotientIn n moved b false
      q.plusInt offset
    else .ok (div e b).collapse

/-- Terms that `b` divides leave the dividend; a common factor of the rest is divided out. -/
def quotientSum : Nat → SymInt → Int → Bool → Checked SymInt
  | 0, _, _, _ => .error .unfinished
  | n + 1, e, b, factoring =>
    if b < 0 ∨ factoring = false then quotientPlain n e b
    else if b = 1 then .ok e
    else do
      let s ← e.terms.foldlM (Split.add b) { factor := b }
      let whole ← total s.whole
      let rest ← total s.rest
      if 1 < s.factor then
        let p ← quotientIn n rest s.factor true
        let q ← quotientIn n p (b.tdiv s.factor) true
        whole.plus q
      else if 1 < s.divisor then
        let p ← quotientIn n rest s.divisor true
        let q ← quotientIn n p (b.tdiv s.divisor) true
        whole.plus q
      else
        let q ← quotientPlain n rest b
        whole.plus q

def remainderIn : Nat → SymInt → Int → Checked SymInt
  | 0, _, _ => .error .unfinished
  | n + 1, e, b =>
    if b ≤ 0 then .error (.badModulus b e.render)
    else match e with
      | mul a c => do
        let r ← a.times (← Checked.floorMod c b)
        remainderPlain n r b
      | mod a c => do
        let g ← Checked.gcd c b
        if g = b then remainderIn n a b else remainderPlain n e b
      | sum ps => do
        let r ← total (← ps.mapM (reduceTerm b))
        remainderPlain n r b
      | e => remainderPlain n e b

/-- Where the quotient is the same for the whole range, the remainder is a difference. -/
def remainderPlain : Nat → SymInt → Int → Checked SymInt
  | 0, _, _ => .error .unfinished
  | n + 1, e, b =>
    if b = 1 then .ok (num 0)
    else if 0 ≤ e.lo ∧ e.hi < b then .ok e
    else do
      let first ← Checked.floorDiv e.lo b
      let last ← Checked.floorDiv e.hi b
      if first = last then e.minus (num (← Checked.mul b first))
      else if e.lo < 0 then
        let moved ← e.minus (num (← Checked.mul first b))
        remainderIn n moved b
      else
        let _ ← Checked.sub e.hi e.lo
        pure (mod e b).collapse

end

/-- Quotient by a nonzero constant, rounded toward negative infinity. -/
def quotient (e : SymInt) (b : Int) : Checked SymInt := quotientIn (steps e b) e b true

def remainder (e : SymInt) (b : Int) : Checked SymInt := remainderIn (steps e b) e b

end LazyTensor.SymInt
