import LazyTensor.SymInt.Substitute

/-!
Addressing of images. A flat index becomes the coordinates of a texel, and the parts of the
validity condition that an outside coordinate covers anyway are dropped, because a read outside
an image gives zero.
-/
namespace LazyTensor.Texture

structure Texel where
  x : SymInt
  y : SymInt
  valid : SymInt
  deriving Repr

/-- Above this many assignments nothing is tried by enumeration. -/
def defaultLimit : Nat := 16384

/-- Narrow the range of the only variable of a comparison `a < b`. -/
def narrowBy (a : SymInt) (b : Int) (range : Int × Int) : Checked (Int × Int) :=
  match a with
  | .mul _ m =>
    if m < 0 then
      return (max range.1 (← Checked.add (← Checked.floorDiv b m) 1), range.2)
    else if 0 < m then do
      let q ← Checked.floorDiv b m
      let hi ← if (← Checked.truncMod b m) = 0 then Checked.sub q 1 else pure q
      pure (range.1, min range.2 hi)
    else .ok range
  | .var _ => return (range.1, min range.2 (← Checked.sub b 1))
  | _ => .ok range

def narrowStep (ranges : VarMap (Int × Int)) (condition : SymInt) :
    Checked (VarMap (Int × Int)) :=
  match condition with
  | .lt a b =>
    match condition.vars with
    | [v] =>
      match VarMap.value? ranges v with
      | some range => return VarMap.put ranges v (← narrowBy a b range)
      | none => .ok ranges
    | _ => .ok ranges
  | _ => .ok ranges

/-- Variables whose range the conditions narrow, with the narrowed ones. -/
def narrowed (valid : SymInt) : Checked (VarMap SymInt) := do
  let ranges := VarMap.ofEntries (valid.vars.map (fun v => (v, (v.lo, v.hi))))
  let ranges ← valid.conditions.foldlM narrowStep ranges
  let changed := ranges.filter (fun (v, lo, hi) => lo < hi && (lo, hi) != (v.lo, v.hi))
  changed.mapM (fun (v, lo, hi) => return (v, ← SymInt.counter v.name lo hi))

def splitConstant (e : SymInt) : Checked (SymInt × Int) :=
  match e with
  | .sum ps => do
    let c ← Checked.sum (ps.filterMap SymInt.num?)
    return (← SymInt.total (ps.filter (fun p => !p.isNum)), c)
  | .num n => .ok (.num 0, n)
  | e => .ok (e, 0)

/-- Failing the condition already puts the coordinate outside `[0, dim)`. -/
def isBound (condition coordinate : SymInt) (dim : Int) : Checked Bool :=
  match condition with
  | .lt a b => do
    let (symbolic, c) ← splitConstant coordinate
    if symbolic.isNum then pure false
    else if a == symbolic then return (← Checked.add b c) == dim
    else if (← a.negate) == symbolic then return (← Checked.add (← Checked.sub c b) 1) == 0
    else pure false
  | _ => .ok false

/-- Number of assignments, at most the greatest 64-bit natural number. -/
def assignments (vars : List Variable) : Checked Nat :=
  vars.foldlM (fun n v => do
    let size ← Checked.add (← Checked.sub v.hi v.lo) 1
    pure (min (n * size.toNat) 18446744073709551615)) 1

def isOutside (height width : Int) (p : Int × Int) : Bool :=
  p.1 < 0 || width ≤ p.1 || p.2 < 0 || height ≤ p.2

/-- All invalid points lie outside, and none of them shares its texel with a valid one. -/
def redundant (height width : Int) (points : List (SymInt × Int × Int)) : Bool :=
  let valid := (points.filter (fun p => p.1.lo ≠ 0)).map (·.2)
  let invalid := (points.filter (fun p => p.1.lo = 0)).map (·.2)
  let beyond := valid.filter (isOutside height width)
  invalid.all (fun p => isOutside height width p && !beyond.contains p)

/-- Conditions that the image does not cover by its edges. -/
def dropBounds (height width : Int) (t : Texel) : Checked SymInt := do
  let kept ← t.valid.conditions.filterM (fun c => do
    if ← isBound c t.x width then pure false
    else return !(← isBound c t.y height))
  pure (SymInt.conjunction kept)

def isMod : SymInt → Bool
  | .mod _ _ => true
  | _ => false

/-- The condition, unless enumeration shows that it is redundant. -/
def dropRedundant (height width : Int) (limit : Nat) (t : Texel) : Checked SymInt := do
  let more := (VarMap.ofEntries (t.x.vars.map (·, ()))).map (·.1)
    ++ (VarMap.ofEntries (t.y.vars.map (·, ()))).map (·.1)
  let vars := more.foldl (fun vs v => if vs.contains v then vs else vs ++ [v]) t.valid.vars
  if (← assignments vars) ≤ limit then
    let vs ← t.valid.expand vars
    let xs ← t.x.expand vars
    let ys ← t.y.expand vars
    let points := (vs.zip (xs.zip ys)).map (fun (v, x, y) => (v, x.lo, y.lo))
    pure (if redundant height width points then .num 1 else t.valid)
  else pure t.valid

/-- The texel of a flat index into an image of `height` rows of `width` texels. -/
def locate (height width : Int) (index valid : SymInt) (limit : Nat) : Checked Texel := do
  let sub ← if valid.lo = 0 then narrowed valid else pure []
  let valid ← if sub.isEmpty then pure valid else valid.substitute sub
  let index ← if sub.isEmpty then pure index else index.substitute sub
  let x ← (← index.quotient 4).remainder width
  let y ← index.quotient (← Checked.mul 4 width)
  let apart := x.vars.all (fun v => !y.vars.contains v)
  let valid ← if valid.lo = 0 && apart then dropBounds height width { x, y, valid }
    else pure valid
  let valid ← if valid.lo = 0 && !isMod x then dropRedundant height width limit { x, y, valid }
    else pure valid
  pure { x, y, valid }

end LazyTensor.Texture
