import LazyTensor.Program.Instr

/-!
The text of a program in a C-like language. Values that are read at most once stand where they
are read; the others get a variable.
-/
namespace LazyTensor

structure Dialect where
  kernel : String := "__kernel "
  buffer : String := "__global "
  shared : String := "__local "
  barrier : String := "barrier(CLK_LOCAL_MEM_FENCE);"
  groupIds : List String := ["get_group_id(0)", "get_group_id(1)", "get_group_id(2)"]
  localIds : List String := ["get_local_id(0)", "get_local_id(1)", "get_local_id(2)"]

namespace SourceCode

def codeFor (op : Op) (args : List String) : Checked String :=
  match op, args with
  | .unary .neg, [x] => .ok s!"(-{x})"
  | .unary .exp2, [x] => .ok s!"exp2({x})"
  | .unary .log2, [x] => .ok s!"log2({x})"
  | .unary .sin, [x] => .ok s!"sin({x})"
  | .unary .sqrt, [x] => .ok s!"sqrt({x})"
  | .unary .recip, [x] => .ok s!"(1.0f/{x})"
  | .unary .noop, [x] | .unary .cast, [x] => .ok x
  | .binary .add, [x, y] => .ok s!"({x}+{y})"
  | .binary .sub, [x, y] => .ok s!"({x}-{y})"
  | .binary .mul, [x, y] => .ok s!"({x}*{y})"
  | .binary .div, [x, y] => .ok s!"({x}/{y})"
  | .binary .max, [x, y] => .ok s!"max({x},{y})"
  | .binary .mod, [x, y] => .ok s!"({x}%{y})"
  | .binary .cmpLt, [x, y] => .ok s!"({x}<{y})"
  | .ternary .mulAcc, [x, y, z] => .ok s!"(({x}*{y})+{z})"
  | .ternary .select, [x, y, z] => .ok s!"({x}!=0?{y}:{z})"
  | op, args => .error (.noCode op.text args.length)

def isBalanced : Int → List Char → Bool
  | _, [] => true
  | depth, c :: cs =>
    let depth := if c = '(' then depth + 1 else if c = ')' then depth - 1 else depth
    0 ≤ depth && isBalanced depth cs

/-- Without the parentheses around the whole text, if they belong together. -/
def stripParens (s : String) : String :=
  match s.toList with
  | '(' :: cs =>
    if cs.getLast? = some ')' && isBalanced 0 cs.dropLast then String.ofList cs.dropLast else s
  | _ => s

def castText (args : List String) (element : Element) : String :=
  "(" ++ element.name ++ ")(" ++ ",".intercalate args ++ ")"

def constText (x : Double) (element : Element) : String :=
  let text :=
    if x.isNaN then "NAN"
    else if x == Double.infinity then "INFINITY"
    else if x == -Double.infinity then "-INFINITY"
    else if element.isFloat then Decimal.pointed x ++ "f"
    else toString (x.toWord)
  if 1 < element.lanes then castText (List.replicate element.lanes text) element else text

structure Writer where
  lines : Array String := #[]
  params : List (String × String) := []
  depth : Nat := 1
  counts : List (String × Nat) := []
  values : Array String

abbrev Write := StateT Writer Checked

structure Text where
  dialect : Dialect
  code : Array Instr
  readers : Array Nat

def line (s : String) : Write Unit :=
  modify (fun w => { w with lines := w.lines.push (LazyTensor.Text.indent w.depth ++ s) })

def fresh (stem : String) : Write String := do
  let w ← get
  let n := (w.counts.lookup stem).getD 0
  set { w with counts := (stem, n + 1) :: w.counts }
  pure s!"{stem}{n}"

def value (i : Nat) : Write String := do
  match (← get).values[i]? with
  | some s => pure s
  | none => throw .bounds

def setValue (i : Nat) (s : String) : Write Unit :=
  modify (fun w => { w with values := w.values.setIfInBounds i s })

def bind (i : Nat) (stem type text : String) : Write Unit := do
  let v ← fresh stem
  setValue i v
  line (type ++ " " ++ v ++ " = " ++ text ++ ";")

def instr (t : Text) (i : Nat) : Checked Instr :=
  match t.code[i]? with
  | some u => .ok u
  | none => .error .bounds

def typeName (u : Instr) : String := u.elementOr.name

def operand (u : Instr) (k : Nat) : Write String := do value (← nth u.inputs k)

def aluText (t : Text) (u : Instr) (op : Op) : Write String := do
  let args ← u.inputs.mapM value
  let first ← instr t (← nth u.inputs 0)
  let chained := first.kind == .alu && first.arg == u.arg &&
    (op == .binary .add || op == .binary .sub || op == .binary .mul)
  match args with
  | a :: rest => codeFor op ((if chained then stripParens a else a) :: rest)
  | [] => codeFor op []

def space (t : Text) (buffer : Instr) : String :=
  if buffer.kind == .defineLocal then t.dialect.shared else t.dialect.buffer

def loadText (t : Text) (u : Instr) : Write String := do
  let buffer ← instr t (← nth u.inputs 0)
  let element := u.elementOr
  let place := stripParens (← operand u 1)
  let base ← operand u 0
  let text :=
    if buffer.elementOr.isImage then s!"read_imagef({base}, smp, {place})"
    else if 1 < element.lanes then
      "*((" ++ space t buffer ++ element.name ++ s!"*)({base}+{place}))"
    else s!"{base}[{place}]"
  if 4 ≤ u.inputs.length then
    let gate ← operand u 2
    let other ← operand u 3
    pure s!"({gate})?({text}):{other}"
  else pure text

def storeText (t : Text) (u : Instr) : Write String := do
  let buffer ← instr t (← nth u.inputs 0)
  let stored ← instr t (← nth u.inputs 2)
  let base ← operand u 0
  let place := stripParens (← operand u 1)
  let v ← operand u 2
  let element := stored.elementOr
  if buffer.element.any Element.isImage then pure s!"write_imagef({base}, {place}, {v});"
  else if 1 < element.lanes then
    pure ("*((" ++ space t buffer ++ element.name ++ s!"*)({base}+{place})) = {v};")
  else pure s!"{base}[{place}] = {v};"

def paramType (t : Text) (slot : Nat) (element : Element) : String :=
  if element.isImage then (if 0 < slot then "read_only" else "write_only") ++ " image2d_t"
  else (if 0 < slot then "const " else "") ++ t.dialect.buffer ++ element.name ++ "*"

def addParam (i : Nat) (name type : String) : Write Unit := do
  setValue i name
  modify (fun w => { w with params := w.params ++ [(name, type)] })

def laneLetter (n : Nat) : Checked String := nth ["x", "y", "z", "w"] n

def write (t : Text) (i : Nat) (u : Instr) : Write Unit := do
  let once := t.readers.getD i 0 ≤ 1
  match u.kind, u.arg with
  | .loop, _ =>
    let v ← fresh "ridx"
    setValue i v
    let start ← operand u 0
    let stop ← operand u 1
    line (s!"for (int {v} = {start}; {v} < {stop}; ++{v}) " ++ "\x7b")
    modify (fun w => { w with depth := w.depth + 1 })
  | .endLoop, _ =>
    let w ← get
    let depth ← Checked.subNat w.depth 1
    set { w with depth }
    line "\x7d"
  | .barrier, _ => line t.dialect.barrier
  | .alu, .alu op =>
    let text ← aluText t u op
    if once || u.element.any Element.isInt then setValue i text else bind i "alu" (typeName u) text
  | .defineAcc, .value x => bind i "acc" (typeName u) (constText x u.elementOr)
  | .special, .special dim name size =>
    let ids := if name.startsWith "g" then t.dialect.groupIds else t.dialect.localIds
    line ("int " ++ name ++ " = " ++ (← nth ids dim) ++ "; /* " ++ size.render ++ " */")
    setValue i name
  | .const, .value x =>
    let text := constText x u.elementOr
    setValue i (if x < 0.0 then "(" ++ text ++ ")" else text)
  | .load, _ => do bind i "val" (typeName u) (← loadText t u)
  | .store, _ =>
    if u.inputs.length = 2 then
      let target ← operand u 0
      let v ← operand u 1
      line s!"{target} = {v};"
    else line (← storeText t u)
  | .cast, .cast bitcast =>
    let args ← u.inputs.mapM value
    let text ←
      if bitcast then do pure ("as_" ++ typeName u ++ "(" ++ (← nth args 0) ++ ")")
      else pure (castText args u.elementOr)
    if once then setValue i text else bind i "cast" (typeName u) text
  | .defineLocal, .shared name size =>
    line (t.dialect.shared ++ typeName u ++ s!" {name}[{size}];")
    setValue i name
  | .defineGlobal, .global slot element => addParam i s!"data{slot}" (paramType t slot element)
  | .defineGlobal, .var v => addParam i v.name "const int"
  | .lane, .lane n => do
    let v ← operand u 0
    setValue i ("(" ++ v ++ ")." ++ (← laneLetter n))
  | kind, arg => throw (.noRendering kind.text arg.text)

def countReaders (code : List Instr) : Checked (Array Nat) :=
  (code.flatMap (·.inputs)).foldlM (fun counts i =>
    match counts[i]? with
    | some n => .ok (counts.setIfInBounds i (n + 1))
    | none => .error .bounds) (Array.replicate code.length 0)

def sampler : String :=
  "const sampler_t smp = CLK_NORMALIZED_COORDS_FALSE | CLK_ADDRESS_CLAMP | CLK_FILTER_NEAREST;\n"

def assemble (d : Dialect) (name : String) (w : Writer) : String :=
  let head := if w.params.any (fun p => p.2.endsWith "image2d_t") then sampler else ""
  let params := LazyTensor.Text.commas (w.params.map (fun (n, type) => type ++ " " ++ n))
  head ++ d.kernel ++ "void " ++ name ++ "(" ++ params ++ ") \x7b\n"
    ++ "\n".intercalate w.lines.toList ++ "\n\x7d"

end SourceCode

def Program.source (p : Program) (d : Dialect) : Checked String := do
  let readers ← SourceCode.countReaders p.code
  let t : SourceCode.Text := { dialect := d, code := p.code.toArray, readers }
  let all := p.code.zipIdx.forM (fun (u, i) => SourceCode.write t i u)
  let (_, w) ← all.run { values := Array.replicate p.code.length "" }
  pure (SourceCode.assemble d p.name w)

end LazyTensor
