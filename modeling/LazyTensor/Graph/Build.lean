import LazyTensor.Graph.Movement

/-!
Making tensors. The rules for elementwise operations, reduces and movements call each other:
each of them is written against a function that performs the calls it makes, and `perform` ties
the knot.
-/
namespace LazyTensor

inductive Call where
  | elementwise (op : Op) (srcs : List Nat) (arg : OpArg)
  | reduce (op : ReduceOp) (x : Nat) (target : Shape)
  | move (m : Movement) (x : Nat)

namespace Graph

open GraphM

def load (op : LoadOp) (shape : Shape) (element : Element) (device : String) (arg : OpArg := .none)
    (src : Option Nat := none) (vals : Bindings := []) : GraphM Nat := do
  discard (liftM ((← get).device device) : GraphM Device)
  if let some src := src then discard (lookup src)
  let layout ← Layout.ofShape shape
  create device layout { op := .load op, arg, srcs := (src.map Source.buffer).toList }
    element vals none

/-- A contiguous copy, unless the tensor is one that is not realized yet. -/
def contiguous (x : Nat) : GraphM Nat := do
  let t ← lookup x
  if ((← see (·.pending? x)).map (·.op)) == some (.load .contiguous) then pure x
  else
    let vals ← see (·.vals x)
    load .contiguous t.shape (← see (·.element x)) t.device .none (some x) vals

def copyTo (x : Nat) (device : String) : GraphM Nat := do
  let src ← contiguous x
  let shape ← see (·.shape x)
  load .copy shape (← see (·.element x)) device .none (some src)

def ofBytes (device : String) (shape : List Int) (element : Element) (contents : List UInt8) :
    GraphM Nat := do
  let g ← get
  let d ← g.device device
  let (raw, memory) ← d.upload g.memory contents element
  modify (fun g => { g with memory })
  let shape := Shape.ofInts shape
  let size ← (liftM shape.product : GraphM SymInt)
  if !size.is raw.size then throw (.error (.movement "from_host" shape (.elementCount raw.size)))
  let layout ← Layout.ofShape shape
  insert { device, layout, kind := .load, op := none, element := raw.element, realized := some raw }

def ofValues (device : String) (shape : List Int) (element : Element) (values : List Double) :
    GraphM Nat :=
  ofBytes device shape element (element.encode values)

/-- Operations that do not give zero for zeros. A pad cannot be moved below them. -/
def breaksPads (op : Op) : Bool :=
  op == .binary .div || op == .binary .cmpLt || op == .unary .log2 || op == .unary .exp2
    || op == .unary .recip

/-- The movements that lead to a tensor, the first one first, and where they start. -/
def movesWithin (g : Graph) : Nat → Nat → List Movement → Checked (List Movement × Nat)
  | 0, _, _ => .error .unfinished
  | n + 1, x, moves => do
    match ← g.pendingMove? x with
    | none => pure (moves, x)
    | some (src, m) =>
      let stops := m.op = .expand || (m.op = .pad && !g.config.shufflePads)
      if stops || 1 < (← g.childCount x) then pure (moves, x)
      else g.movesWithin n src (m :: moves)

/-- The elementwise tree below movements that can be done on its leaves instead. -/
def pushable? (g : Graph) (x : Nat) : Checked (Option (List Movement × OpTree)) := do
  let (moves, start) ← g.movesWithin g.limit x []
  if moves.isEmpty then pure none
  else match ← g.pending? start with
    | none => pure none
    | some op =>
      if op.op.isElementwise && (← g.childCount start) ≤ 1 then
        let pads := moves.any (·.op = .pad)
        let breaks := op.trees.any (fun t => breaksPads t.op)
        pure (if pads && breaks then none else some (moves, op))
      else pure none

/-- The source of a copy that is not realized, if nothing else reads it. -/
def pushableCopy? (g : Graph) (x : Nat) : Checked (Option Nat) := do
  match ← g.pending? x with
  | some { op := .load .contiguous, srcs := [], .. } => .error .bounds
  | some { op := .load .contiguous, srcs := .buffer src :: _, .. } =>
    return if (← g.childCount src) ≤ 1 then some src else none
  | _ => pure none

/-- How an elementwise operation reads a source: as a part of its own tree if nothing else does. -/
def elementwiseSource (g : Graph) (x : Nat) : Checked Source := do
  let t ← g.tensor x
  match t.op with
  | some op =>
    if g.config.mergeElementwise && t.kind = .elementwise && t.children.isEmpty
      && !(← g.isRealized x) then pure (.ofTree op)
    else pure (.buffer x)
  | none => pure (.buffer x)

def elementwiseType (g : Graph) (op : Op) (arg : OpArg) (srcs : List Nat) : Checked Element := do
  match op, arg with
  | .unary .cast, .cast e _ => pure e
  | _, _ =>
    match ← srcs.mapM g.element with
    | [] => pure .float32
    | e :: es => pure (es.foldl Element.join e)

/-- Bind the one variable of a new shape to what is left of the old one. -/
def bindTarget (x : Nat) (shape target : Shape) : GraphM Unit := do
  let symbolic := target.filter (fun d => d.num?.isNone)
  if symbolic.isEmpty || !shape.allInt then return
  match symbolic.map SymInt.var? with
  | [some v] =>
    let total ← Checked.product (shape.filterMap SymInt.num?)
    let rest ← Checked.product (target.filterMap SymInt.num?)
    let refuse : GraphM Unit := throw (.error (.movement "reshape" shape (.indivisible total rest)))
    if rest = 0 then refuse
    else if (← Checked.truncMod total rest) ≠ 0 then refuse
    else
      let value ← Checked.truncDiv total rest
      let base ← see (·.baseOf x)
      match VarMap.value? (← see (·.tensor base)).vals v with
      | none =>
        if v.lo ≤ value ∧ value ≤ v.hi then
          change base (fun t => { t with vals := VarMap.put t.vals v value })
        else throw (.error (.badVariable v.name v.lo v.hi (.outOfRange value)))
      | some was => if was ≠ value then throw (.error (.conflict v.name was value))
  | _ =>
    let names := ",".intercalate (symbolic.map SymInt.render)
    throw (.error (.badVariable names 0 0 .manyNewVariables))

structure Cut where
  score : Double
  divisor : Int
  axis : Nat

def Cut.beats (a b : Cut) : Bool :=
  b.score < a.score || (a.score == b.score &&
    (b.divisor < a.divisor || (a.divisor == b.divisor && b.axis < a.axis)))

def bestCut (split : Split) : List ((Int × Int × Option Int) × Nat) → Option Cut →
    Checked (Option Cut)
  | [], best => .ok best
  | ((old, new, stride), axis) :: rest, best => do
    if old = new then bestCut split rest best
    else
      let divisor ← Checked.gcd split.gcdBase old
      let score := match stride with
        | some s => if s = 0 then 0.0 else Double.ofInt divisor / Double.ofInt s
        | none => 0.0
      let cut : Cut := { score, divisor, axis }
      bestCut split rest (if best.all cut.beats then some cut else best)

def cut? (g : Graph) (x : Nat) (shape target : Shape) : Checked (Option (List Int × Cut)) := do
  match g.config.split, shape.ints?, target.ints? with
  | some split, some old, some new =>
    let size ← Checked.product new
    if size = 0 then pure none
    else if (← Checked.truncDiv (← Checked.product old) size) < split.minWork then pure none
    else
      let strides ← (← g.tensor x).layout.realStrides false
      match ← bestCut split (old.zip (new.zip strides)).zipIdx none with
      | none => pure none
      | some cut =>
        if cut.divisor < split.minDivisor || cut.score < split.minScore then pure none
        else pure (some (old, cut))
  | _, _, _ => pure none

/-- The shape with the axis of the cut divided, and `inner` behind it. -/
def cutShape (old : List Int) (cut : Cut) (inner : List Int) : Checked Shape := do
  let outer ← Checked.truncDiv (← nth old cut.axis) cut.divisor
  pure (Shape.ofInts (old.take cut.axis ++ outer :: inner ++ old.drop (cut.axis + 1)))

namespace Rules

abbrev Performer := Call → GraphM Nat

mutual

def pushInto (perform : Performer) (moves : List Movement) : Source → GraphM Nat
  | .buffer b => moves.foldlM (fun y m => perform (.move m y)) b
  | .apply op arg srcs => do
    if !op.isElementwise then throw (.abort (.notPushable op.text))
    let srcs ← pushIntoAll perform moves srcs
    perform (.elementwise op srcs arg)

def pushIntoAll (perform : Performer) (moves : List Movement) : List Source → GraphM (List Nat)
  | [] => pure []
  | s :: ss => do
    let x ← pushInto perform moves s
    return x :: (← pushIntoAll perform moves ss)

end

/-- A source with its movements pushed below the elementwise operations that they move. -/
def pushMoves (perform : Performer) (x : Nat) : GraphM Nat := do
  match ← see (·.pushable? x) with
  | some (moves, op) => pushInto perform moves (.ofTree op)
  | none => pure x

def skipCopy (x : Nat) : GraphM Nat := do
  match ← see (·.pushableCopy? x) with
  | some src =>
    removeChild src x
    pure src
  | none => pure x

def checkShapes (op : Op) (shape : Shape) (srcs : List Nat) : GraphM Unit :=
  srcs.forM (fun s => do
    let other ← see (·.shape s)
    if !(other == shape) then throw (.error (.movement op.text shape (.sourceShape other))))

def elementwise (perform : Performer) (op : Op) (srcs : List Nat) (arg : OpArg) : GraphM Nat := do
  if !op.isElementwise then throw (.abort (.notElementwise op.text))
  match srcs with
  | [] => throw (.error (.movement op.text [] .noSources))
  | first :: others =>
    srcs.forM (fun s => discard (lookup s))
    let shape ← see (·.shape first)
    checkShapes op shape others
    let vals ← see (·.vals first)
    let config := (← get).config
    let srcs ← if config.shuffleMovements then srcs.mapM (pushMoves perform) else pure srcs
    let device := (← see (fun g => do g.tensor (← nth srcs 0))).device
    let element ← see (·.elementwiseType op arg srcs)
    let copies ←
      if config.pushCopies then
        see (fun g => srcs.anyM (fun x => return (← g.pushableCopy? x).isSome))
      else pure false
    if copies then
      let srcs ← srcs.mapM skipCopy
      contiguous (← perform (.elementwise op srcs arg))
    else
      let lazySrcs ← see (fun g => srcs.mapM g.elementwiseSource)
      let layout ← Layout.ofShape shape
      create device layout { op, arg, srcs := lazySrcs } element vals none

def reduceOnce (perform : Performer) (op : ReduceOp) (x : Nat) (target : Shape) : GraphM Nat := do
  if (← see (·.shape x)) == target then pure x
  else
    let src ← if (← get).config.shuffleMovements then pushMoves perform x else pure x
    let device := (← see (·.tensor x)).device
    let vals ← see (·.vals x)
    let layout ← Layout.ofShape target
    let tree : OpTree := { op := .reduce op, arg := .shape target, srcs := [.buffer src] }
    create device layout tree (← see (·.element x)) vals none

def reduce (perform : Performer) (op : ReduceOp) (x : Nat) (target : Shape) : GraphM Nat := do
  let shape := (← lookup x).shape
  let reduces := shape.length == target.length &&
    (shape.zip target).all (fun (o, n) => o == n || n.is 1)
  if !reduces then throw (.error (.movement "reduce" shape (.cannotReduce target)))
  match ← see (·.cut? x shape target) with
  | none => reduceOnce perform op x target
  | some (old, cut) =>
    let a ← perform (.move (.reshape (← cutShape old cut [cut.divisor])) x)
    let b ← reduceOnce perform op a (← cutShape old cut [1])
    let c ← perform (.move (.reshape (← cutShape old cut [])) b)
    reduceOnce perform op c target

/-- The movement is done on the leaves of the tree `op` instead of its result. -/
def shuffles (m : Movement) (op : Op) : Bool :=
  match m, op with
  | .shrink _, _ | .stride _, _ | .permute _, _ => true
  | .reshape _, .unary _ => true
  | _, _ => false

def place (perform : Performer) (x : Nat) (m : Movement) : GraphM Nat := do
  let t ← see (·.tensor x)
  let layout ← m.apply t.layout
  let realized ← see (·.isRealized x)
  let config := (← get).config
  let inner := t.op.filter (fun op => config.shuffleMovements && t.kind = .elementwise && !realized
    && t.children.isEmpty && shuffles m op.op)
  match inner with
  | some op => pushInto perform [m] (.ofTree op)
  | none =>
    let root ←
      if config.dropMovementNops && !realized && layout.contiguous then
        see (fun g => do
          let root ← g.movementRoot x false
          let r ← g.tensor root
          if root != x && r.layout.contiguous then
            return if (← layout.shape.product) == (← r.shape.product) then some root else none
          else pure none)
      else pure none
    match root with
    | some root => perform (.move (.reshape layout.shape) root)
    | none =>
      let base ← see (·.baseOf x)
      let vals ← see (·.vals x)
      create t.device layout (m.tree x) (← see (·.element x)) vals (some base)

def reordered (shape : Shape) (axes : List Nat) : Checked Shape := axes.mapM (nth shape)

def pushPermute (perform : Performer) (x : Nat) (shape : Shape) (axes : List Nat) :
    GraphM (Option Nat) := do
  let push := (← get).config.pushPermutes
  match ← see (·.pending? x) with
  | none => pure none
  | some op =>
    match op.op, op.arg, (← nth op.srcs 0).buffer? with
    | .reduce r, .shape target, some src =>
      if push then
        let target ← reordered target axes
        removeChild src x
        let p ← perform (.move (.permute axes) src)
        some <$> perform (.reduce r p target)
      else pure none
    | .movement .expand, .shape target, some src =>
      let target ← reordered target axes
      let p ← perform (.move (.permute axes) src)
      some <$> perform (.move (.expand target) p)
    | .movement .reshape, _, some src =>
      if push then
        let old ← see (·.shape src)
        match ← (liftM (Shape.contraction? old shape) : GraphM (Option (List (List Nat)))) with
        | none => pure none
        | some groups =>
          removeChild src x
          let flat ← (axes.mapM (nth groups) : Checked (List (List Nat)))
          let p ← perform (.move (.permute flat.flatten) src)
          some <$> perform (.move (.reshape (← reordered shape axes)) p)
      else pure none
    | _, _, _ => pure none

def isPermutation (axes : List Nat) : Bool :=
  (List.range axes.length).all (fun i => axes.contains i)

/-- Moving only axes of length one about is a reshape. -/
def permutesOnes (shape : Shape) (axes : List Nat) : Fallible Bool := do
  if shape.allInt then
    return (← (← Layout.ofShape shape).permute axes).contiguous
  else pure false

def permute (perform : Performer) (x : Nat) (shape : Shape) (axes : List Nat) : GraphM Nat := do
  if ← permutesOnes shape axes then perform (.move (.reshape (← reordered shape axes)) x)
  else match ← see (·.merged? x (.permute axes)) with
    | some (src, m) => perform (.move m src)
    | none =>
      match ← pushPermute perform x shape axes with
      | some y => pure y
      | none => place perform x (.permute axes)

def reshape (perform : Performer) (x : Nat) (shape target : Shape) : GraphM Nat := do
  bindTarget x shape target
  match ← see (·.merged? x (.reshape target)) with
  | some (src, m) =>
    removeChild src x
    perform (.move m src)
  | none => place perform x (.reshape target)

def move (perform : Performer) (m : Movement) (x : Nat) : GraphM Nat := do
  let shape := (← lookup x).shape
  m.checkRank shape
  match m with
  | .permute axes =>
    if !isPermutation axes then throw (.error (.movement "permute" shape (.notPermutation axes)))
  | _ => pure ()
  if ← m.isTrivial shape then pure x
  else match m with
    | .reshape target => reshape perform x shape target
    | .permute axes => permute perform x shape axes
    | m =>
      match ← see (·.merged? x m) with
      | some (src, m) => perform (.move m src)
      | none => place perform x m

def apply (perform : Performer) : Call → GraphM Nat
  | .elementwise op srcs arg => elementwise perform op srcs arg
  | .reduce op x target => reduce perform op x target
  | .move m x => move perform m x

end Rules

def performWithin : Nat → Call → GraphM Nat
  | 0, _ => throw (.abort .unfinished)
  | n + 1, call => Rules.apply (performWithin n) call

def perform (call : Call) : GraphM Nat := do performWithin (← get).limit call

def elementwise (op : Op) (srcs : List Nat) (arg : OpArg := .none) : GraphM Nat :=
  perform (.elementwise op srcs arg)

def cast (x : Nat) (e : Element) (bitcast : Bool) : GraphM Nat :=
  elementwise (.unary .cast) [x] (.cast e bitcast)

def reduce (op : ReduceOp) (x : Nat) (target : Shape) : GraphM Nat := perform (.reduce op x target)

def move (m : Movement) (x : Nat) : GraphM Nat := perform (.move m x)

def full (device : String) (shape : Shape) (element : Element) (value : Double) : GraphM Nat := do
  let scalar ← load .const [] element.scalar.element device (.const value)
  let ones ← move (.reshape (shape.map (fun _ => .num 1))) scalar
  move (.expand shape) ones

def constLike (x : Nat) (value : Double) : GraphM Nat := do
  let t ← lookup x
  full t.device t.shape (← see (·.element x)) value

end Graph

end LazyTensor
