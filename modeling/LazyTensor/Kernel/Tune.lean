import LazyTensor.Kernel.Axes

/-!
The default choice of splits and upcasts for a target.
-/
namespace LazyTensor.Kernel

/-- The axis of an image buffer along which its texels lie gets upcasted by four. -/
def upcastImage (early : Bool) (k : Kernel) (i : Nat) : Checked Kernel := do
  let slot ← nth k.slots i
  if !slot.element.isImage || (early && !k.early.contains slot) then pure k
  else
    let l ← k.layout i
    let axes ← (← l.unitStrideAxes true).filterM (fun x => do
      return (← nth l.shape x).isConcrete (fun n => n.tmod 4 == 0))
    match axes with
    | [] => .error (.noUnitStride i)
    | first :: _ =>
      let start ← k.upcastStart
      let wanted ← andThen (pure (axes.all (· < start))) (do
        return !(← k.middleAxes).contains first)
      if wanted then (← k.shift first 4 false none).upcast else pure k

/-- Steps without which images cannot be addressed. -/
def require (k : Kernel) (early : Bool) : Checked Kernel :=
  (List.range k.slots.length).foldlM (upcastImage early) k

def outputCount (k : Kernel) : Checked (Option Int) := do
  Shape.count? (← slice (← k.outputShape) 0 (← k.firstReduce))

def divides (n : Int) (d : SymInt) : Bool := d.isConcrete (fun s => s.tmod n == 0)

/-- Few outputs: several threads share one reduce. -/
def groupReduce (k : Kernel) : Checked Kernel := do
  let count ← k.outputCount
  let wanted ← andThen (pure k.target.locals) <|
    andThen (do return (← k.vectorAxes 0).isEmpty) <|
    andThen (do return decide ((← k.firstReduce) ≤ 2)) <|
    andThen (do return decide ((← k.firstReduce) < (← k.rank))) <|
    pure (count.any (· ≤ 2048))
  if wanted then
    let sizes : List Int := if count.any (· ≤ 32) then [256, 16] else [16]
    let fr ← k.firstReduce
    let fitting ← sizes.findM? (fun n => k.layouts.allM (fun l => do
      let d ← nth l.shape fr
      pure (divides n d || d.is 1)))
    match fitting with
    | some n =>
      let k ← k.shift fr n true (some (fr + k.groups.length))
      pure { k with groups := k.groups ++ [n] }
    | none => pure k
  else pure k

/-- A grouped reduce into an image writes four lanes at a time. -/
def groupImage (k : Kernel) : Checked Kernel := do
  let out ← nth k.slots 0
  let wanted ← andThen (pure out.element.isImage) <|
    andThen (do return (← k.vectorAxes 0).isEmpty) <|
    andThen (pure !k.groups.isEmpty) <|
    andThen (do return decide ((← k.firstReduce) ≤ 2)) (do
      return (← Shape.count? (← k.outputShape)).any (1 < ·))
  if wanted then
    let l ← k.layout 0
    match ← l.unitStrideAxes false with
    | [axis] =>
      if divides 4 (← nth l.shape axis) then
        let place := (← k.firstReduce) + k.groups.length
        let k ← k.shift axis 4 false (some place)
        pure { k with groups := k.groups ++ [4] }
      else pure k
    | axes => .error (.unitStrideCount (Text.nats axes))
  else pure k

/-- Give an image output a row axis of its own, if there is room. -/
def splitRows (k : Kernel) : Checked Kernel := do
  match (← nth k.slots 0).element.imageShape? with
  | some (h :: w :: _) =>
    if (← k.firstReduce) + k.groups.length < 3 then
      match (← nth (← k.outputShape) 0).num? with
      | some n =>
        let fits ← andThen
          (do return (← Checked.truncMod (← Checked.mul h w) n) == 0)
          (do return (← Checked.truncDiv n h) != 0)
        if fits then
          let k ← k.reshapeAll (fun shape => do
            let first ← (← nth shape 0).concrete
            return [.num h, .num (← Checked.truncDiv first h)] ++ shape.drop 1)
          k.withoutOnes
        else pure k
      | none => pure k
    else pure k
  | _ => pure k

def topStride (l : Layout) (axis : Nat) : Checked Int := nth l.top.strides axis

structure Candidate where
  moving : Nat
  strides : Int
  axis : Nat
  amount : Int

def Candidate.before (a b : Candidate) : Bool :=
  if a.moving ≠ b.moving then a.moving < b.moving
  else if a.strides ≠ b.strides then a.strides < b.strides
  else if a.axis ≠ b.axis then a.axis < b.axis
  else a.amount < b.amount

def least : List Candidate → Option Candidate
  | [] => none
  | c :: cs => some (cs.foldl (fun best c => if c.before best then c else best) c)

/-- Some buffer does not move along the axis and has no such axis upcasted yet. -/
def isBroadcast (k : Kernel) (axis : Nat) : Checked Bool :=
  (List.range k.layouts.length).anyM (fun b => do
    andThen (do return (← topStride (← k.layout b) axis) == 0)
      (do return !(← k.upcastLanes b).any (fun l => l.stride == some 0)))

def candidate? (k : Kernel) (used : List Nat) (axis : Nat) (amount : Int) :
    Checked (Option Candidate) := do
  match (← nth (← k.fullShape) axis).num? with
  | none => pure none
  | some size =>
    if used.contains axis || size.tmod amount != 0 then pure none
    else if ← k.isBroadcast axis then
      let strides ← k.layouts.mapM (topStride · axis)
      pure (some ⟨strides.countP (0 < ·), ← Checked.sum strides, axis, amount⟩)
    else pure none

def candidates (k : Kernel) (used : List Nat) : Checked (List Candidate) := do
  let axes := List.range (← k.firstReduce)
  let found ← axes.mapM (fun axis => ([3, 4] : List Int).mapM (k.candidate? used axis))
  pure (found.flatten.filterMap id)

/-- Upcast broadcast axes while there are many outputs. Every round uses up an axis. -/
def upcastBroadcasts : Nat → List Nat → Kernel → Checked Kernel
  | 0, _, _ => .error .unfinished
  | n + 1, used, k => do
    if (← k.outputCount).any (1024 ≤ ·) then
      match least (← k.candidates used) with
      | none => pure k
      | some c =>
        let k ← k.shift c.axis c.amount false none
        let k ← k.upcast
        let k ← k.withoutOnes
        upcastBroadcasts n (used ++ [c.axis]) k
    else pure k

def hasLoop (k : Kernel) : Checked Bool := return decide ((← k.firstReduce) < (← k.upcastStart))

/-- Unroll a reduce that is short, or the last four of a longer one. -/
def unrollReduce (k : Kernel) : Checked Kernel := do
  let wanted ← andThen k.hasLoop (do
    if (← k.lanes k.fullIndex).length ≤ 4 then pure true
    else return !(← k.upcastLanes k.fullIndex).any (·.reduced))
  if wanted then
    let shape ← k.loopShape
    let last ← Checked.subNat shape.length 1
    match (← nth shape last).num? with
    | some s =>
      if s ≤ 32 then
        let k ← k.upcast
        let again ← andThen k.hasLoop <| andThen (pure (decide (s ≤ 3))) (do
          return (← k.loopShape).getLast?.any (fun d => d.isConcrete (· ≤ 3)))
        if again then k.upcast else pure k
      else if s.tmod 4 = 0 then (← k.shift last 4 false (some (last + 1))).upcast
      else pure k
    | none => pure k
  else pure k

def upcastLast (k : Kernel) : Checked Kernel := do
  if k.upcasted = 0 then
    let shape ← k.loopShape
    match shape.getLast? with
    | some d =>
      if divides 4 d then
        let last := shape.length - 1
        (← k.shift last 4 false (some (last + 1))).upcast
      else pure k
    | none => pure k
  else pure k

/-- Turn part of an axis of length `size` into a local one, if some buffer is broadcast along it
or if it is the last chance. -/
def localize (k : Kernel) (limit : Int) (axis : Nat) (size : Int) : Checked Kernel := do
  let fr ← k.firstReduce
  let first ← Checked.subNat fr k.localDims
  let used := (← Shape.count? (← slice (← k.fullShape) first fr)).getD limit
  let lastTry := k.localDims == 0 && axis == 0
  let still ← k.layouts.anyM (fun l => return (← topStride l axis) == 0)
  if still || lastTry then
    let sizes : List Int := if lastTry then [32, 16, 8, 4, 3] else [16, 8, 4, 3]
    let fitting ← sizes.findM? (fun n => do
      if size.tmod n = 0 then return decide ((← Checked.mul used n) ≤ limit) else pure false)
    match fitting with
    | some n =>
      let k ← k.shift axis n false (some first)
      pure { k with localDims := k.localDims + 1 }
    | none => pure k
  else pure k

def localizeFrom (limit : Int) : List Nat → Kernel → Checked Kernel
  | [], k => .ok k
  | axis :: axes, k => do
    match (← nth (← k.fullShape) axis).num? with
    | none => localizeFrom limit axes k
    | some size =>
      if size = 1 then localizeFrom limit axes k
      else
        let k ← k.localize limit axis size
        if 3 ≤ k.localDims then pure k else localizeFrom limit axes k

def localizeAll (k : Kernel) : Checked Kernel := do
  if k.target.locals then
    let limit ← k.target.localLimit
    let top ← Checked.subNat (← k.firstReduce) k.localDims
    localizeFrom limit (List.range top).reverse k
  else pure k

def tune (k : Kernel) : Checked Kernel := do
  let k ← k.require true
  let k ← k.withoutOnes
  let k ← k.groupReduce
  let k ← k.groupImage
  let k ← k.require false
  let k ← k.withoutOnes
  let k ← k.splitRows
  if k.groups.isEmpty then
    let k ← upcastBroadcasts ((← k.firstReduce) + 1) [] k
    let k ← k.unrollReduce
    let k ← k.upcastLast
    let k ← k.localizeAll
    k.withoutOnes
  else pure k

end LazyTensor.Kernel
