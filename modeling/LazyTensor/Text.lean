/-!
Text of lists, pairs and optional values, as they stand inside longer descriptions.
-/
namespace LazyTensor.Text

def commas (parts : List String) : String := ", ".intercalate parts

def brackets (parts : List String) : String := "[" ++ commas parts ++ "]"

def parens (parts : List String) : String := "(" ++ commas parts ++ ")"

def braces (name : String) (fields : List String) : String :=
  name ++ " \x7b " ++ commas fields ++ " \x7d"

def ints (xs : List Int) : String := brackets (xs.map toString)

def nats (xs : List Nat) : String := brackets (xs.map toString)

def pairs (xs : List (Int × Int)) : String :=
  brackets (xs.map (fun p => parens [toString p.1, toString p.2]))

def flag (b : Bool) : String := if b then "true" else "false"

def optional (x : Option String) : String :=
  match x with
  | some s => "Some(" ++ s ++ ")"
  | none => "None"

def indent (depth : Nat) : String := String.join (List.replicate depth "  ")

end LazyTensor.Text
