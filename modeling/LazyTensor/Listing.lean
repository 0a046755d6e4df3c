import LazyTensor.Program.Instr

/-!
Tables of text: a line of titles, a rule below it, and a line for each row.
-/
namespace LazyTensor

structure Column where
  title : String
  /-- Cells stand at the right end of the column, the title at the left. -/
  right : Bool := false

namespace Listing

def blanks (n : Nat) : String := String.ofList (List.replicate n ' ')

def widen (widths : List Nat) (row : List String) : List Nat :=
  List.zipWith (fun w cell => max w cell.length) widths row

/-- A cell and the blank after it. The last cell of a line is not filled up. -/
def cell (right last : Bool) (width : Nat) (s : String) : String :=
  let gap := blanks (width - s.length)
  if right then gap ++ s ++ " " else if last then s ++ " " else s ++ gap ++ " "

def line (aligned : List Bool) (widths : List Nat) (row : List String) : String :=
  let cells := (row.zip (aligned.zip widths)).zipIdx.map (fun ((s, right, width), i) =>
    cell right (i + 1 == row.length) width s)
  " ".intercalate cells ++ "\n"

def rule (widths : List Nat) : String :=
  " ".intercalate (widths.map (fun w => String.ofList (List.replicate (w + 1) '─'))) ++ "\n"

end Listing

open Listing in
def table (columns : List Column) (rows : List (List String)) : String :=
  let titles := columns.map (·.title)
  let widths := rows.foldl widen (titles.map String.length)
  line (columns.map (fun _ => false)) widths titles ++ rule widths
    ++ String.join (rows.map (line (columns.map (·.right)) widths))

def Program.listing (p : Program) : String :=
  table [⟨"#", true⟩, ⟨"uop", false⟩, ⟨"dtype", false⟩, ⟨"vin", false⟩,
      ⟨"arg", false⟩]
    (p.code.zipIdx.map (fun (u, i) =>
      [toString i, u.kind.text, (u.element.map Element.text).getD "", Text.nats u.inputs,
        u.arg.text]))

end LazyTensor
