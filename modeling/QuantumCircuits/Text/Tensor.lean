import QuantumCircuits.Scalar.Machine
import QuantumCircuits.State.Vector

/-!
# Text — Tensor

The texts of arrays, states and operators.  An array is written in brackets, its entries aligned and
its rows broken to the width of a line.
-/

namespace QuantumCircuits

namespace Tensor

def pointed (x : Float) : String :=
  let s := Decimal.text x
  if s.endsWith ".0" then (s.dropEnd 1).toString else s

def halves (s : String) : Nat × Nat :=
  let before := (s.toList.takeWhile (· != '.')).length
  (before, s.length - before - 1)

/-- Blanks around a number, so that the points of all numbers are aligned. -/
def align (before after : Nat) (s : String) : String :=
  let (b, a) := halves s
  String.ofList (List.replicate (before - b) ' ') ++ s ++ String.ofList (List.replicate (after - a) ' ')

def alignAll (xs : List String) : List String :=
  let before := xs.foldl (fun m s => max m (halves s).1) 0
  let after := xs.foldl (fun m s => max m (halves s).2) 0
  xs.map (align before after)

def signed (x : Float) : String :=
  let s := pointed x
  if s.startsWith "-" then s else "+" ++ s

/-- The mark of an imaginary part, put before the blanks at its end. -/
def markImaginary (s : String) : String :=
  let blanks := (s.toList.reverse.takeWhile (· == ' ')).length
  String.ofList (s.toList.take (s.length - blanks)) ++ "j" ++ String.ofList (List.replicate blanks ' ')

def alignRight (xs : List String) : List String :=
  let width := xs.foldl (fun m s => max m s.length) 0
  xs.map fun s => String.ofList (List.replicate (width - s.length) ' ') ++ s

def entryTexts (t : Tensor Float) : List String :=
  match t.element with
  | .int => alignRight (t.entries.toList.map fun z => toString (Scalar.truncate z.re))
  | .real => alignAll (t.entries.toList.map fun z => pointed z.re)
  | .complex =>
    let res := alignAll (t.entries.toList.map fun z => pointed z.re)
    let ims := alignAll (t.entries.toList.map fun z => signed z.im)
    res.zipWith (fun r i => r ++ markImaginary i) ims

def lineWidth : Nat := 75

/-- Words separated by blanks, broken into lines that begin with the given indent. -/
def fill (width : Nat) (indent : String) (words : List String) : String :=
  let step (acc : String × String) (word : String) : String × String :=
    let (done, line) := acc
    let start := if line.isEmpty then indent else line ++ " "
    if width < start.length + word.length ∧ indent.length < start.length then
      (done ++ line ++ "\n", indent ++ word)
    else (done, start ++ word)
  let (done, line) := words.foldl step ("", "")
  String.ofList ((done ++ line).toList.drop indent.length)

def bracket : List Nat → Nat → String → List String → String
  | [], _, _, words => words.headD ""
  | [_], width, indent, words => "[" ++ fill (width - 1) indent words ++ "]"
  | n :: rest, width, indent, words =>
    let step := rest.foldl (· * ·) 1
    let rows := (List.range n).map fun i =>
      bracket rest (width - 1) (indent ++ " ") ((words.drop (i * step)).take step)
    let gap := String.ofList (List.replicate rest.length '\n') ++ indent
    "[" ++ gap.intercalate rows ++ "]"

def text (t : Tensor Float) : String := bracket t.shape lineWidth " " t.entryTexts

end Tensor

namespace StateVector

def describe (v : StateVector Float) : String :=
  (match v.kind with
    | .ket => "Ket"
    | .bra => "Bra") ++ "(data=" ++ v.data.text ++ ", label=" ++ v.label ++ ")"

end StateVector

namespace UnitaryOperator

def describe (u : UnitaryOperator Float) : String := "Operator(data=" ++ u.data.text ++ ")"

end UnitaryOperator

end QuantumCircuits
