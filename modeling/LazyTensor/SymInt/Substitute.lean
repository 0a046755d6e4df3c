import LazyTensor.SymInt.Quotient

/-!
Replacing variables. `substitute` puts expressions in their place and simplifies again,
`eval` computes the value under bindings, `expand` runs an expression through every value of
chosen variables.
-/
namespace LazyTensor.SymInt

mutual

def substitute (m : VarMap SymInt) : SymInt → Checked SymInt
  | num n => .ok (num n)
  | var v => .ok ((VarMap.value? m v).getD (var v))
  | mul a c => do (← a.substitute m).times c
  | div a c => do (← a.substitute m).quotient c
  | mod a c => do (← a.substitute m).remainder c
  | lt a c => do (← a.substitute m).lessThan c
  | sum ps => do total (← substituteAll m ps)
  | conj ps => do
    match ← substituteConj m ps with
    | some qs => pure (conjunction qs)
    | none => pure (num 0)

def substituteAll (m : VarMap SymInt) : List SymInt → Checked (List SymInt)
  | [] => .ok []
  | p :: ps => return (← p.substitute m) :: (← substituteAll m ps)

/-- `none` as soon as one condition becomes zero. -/
def substituteConj (m : VarMap SymInt) : List SymInt → Checked (Option (List SymInt))
  | [] => .ok (some [])
  | p :: ps => do
    let q ← p.substitute m
    if q.is 0 then pure none
    else return (← substituteConj m ps).map (q :: ·)

end

def bindVars (e : SymInt) (vals : Bindings) : Checked SymInt :=
  e.substitute (vals.map (fun (v, n) => (v, num n)))

mutual

/-- Value under bindings, `none` if a variable is unbound. -/
def eval (vals : Bindings) : SymInt → Checked (Option Int)
  | num n => .ok (some n)
  | var v => .ok (VarMap.value? vals v)
  | mul a c => do (← a.eval vals).mapM (Checked.mul · c)
  | div a c => do (← a.eval vals).mapM (Checked.floorDiv · c)
  | mod a c => do (← a.eval vals).mapM (Checked.floorMod · c)
  | lt a c => return (← a.eval vals).map (fun n => if n < c then 1 else 0)
  | sum ps => evalSum vals 0 ps
  | conj ps => return (← evalAll vals true ps).map (fun b => if b then 1 else 0)

def evalSum (vals : Bindings) (acc : Int) : List SymInt → Checked (Option Int)
  | [] => .ok (some acc)
  | p :: ps => do
    match ← p.eval vals with
    | some n => evalSum vals (← Checked.add acc n) ps
    | none => pure none

def evalAll (vals : Bindings) (acc : Bool) : List SymInt → Checked (Option Bool)
  | [] => .ok (some acc)
  | p :: ps => do
    match ← p.eval vals with
    | some n => evalAll vals (acc && n != 0) ps
    | none => pure none

end

/-- The anonymous variable that gets unrolled. -/
def unrolled? (e : SymInt) : Option Variable := e.vars.find? Variable.isAnonymous

/-- One expression for each choice of values, the first variable moving fastest. -/
def expand (e : SymInt) (vars : List Variable) : Checked (List SymInt) :=
  (choices (vars.map (fun v => (v.lo, v.hi)))).mapM (fun values =>
    e.substitute (VarMap.ofEntries (vars.zip (values.map num))))

def unroll (e : SymInt) : Checked (List SymInt) :=
  match e.unrolled? with
  | some v => e.expand [v]
  | none => .ok [e]

end LazyTensor.SymInt
