import QuantumCircuits.Datum.Basic

/-!
# Datum — Reader

Reading data from text.  The reader takes one character at a time: `Lexeme` is the word or text it
is in the middle of, and a stack of `Frame`s holds the lists and records that are still open.  A
number is whole unless it is written with a point or an exponent.
-/

namespace QuantumCircuits.Datum

variable {α : Type}

/-- What the reader is in the middle of; characters are held latest first. -/
inductive Lexeme where
  | between
  /-- A number or one of the words `true`, `false` and `null`. -/
  | word (cs : List Char)
  /-- A text, as code units. -/
  | text (units : List Nat)
  /-- A text, after a backslash. -/
  | escape (units : List Nat)
  /-- A text, in the hexadecimal digits of a code unit. -/
  | code (units : List Nat) (count value : Nat)

/-- A list or record that is still open; its items are held latest first. -/
inductive Frame (α : Type) where
  | list (items : List (Datum α))
  | record (fields : List (String × Datum α)) (key : Option String)

/-- The state of the reader. -/
structure Reader (α : Type) where
  lexeme : Lexeme
  stack : List (Frame α)
  /-- The last datum that was read outside of all lists and records. -/
  done : Datum α

def hexValue (c : Char) : Nat :=
  if c.isDigit then c.toNat - 48
  else if 'a' ≤ c ∧ c ≤ 'f' then c.toNat - 87
  else c.toNat - 55

/-- The characters of code units: a high and a low surrogate make one character. -/
def ofUnits : List Nat → List Char
  | [] => []
  | [u] => [Char.ofNat u]
  | u :: v :: rest =>
    if 0xD800 ≤ u ∧ u < 0xDC00 ∧ 0xDC00 ≤ v ∧ v < 0xE000 then
      Char.ofNat (0x10000 + (u - 0xD800) * 1024 + (v - 0xDC00)) :: ofUnits rest
    else Char.ofNat u :: ofUnits (v :: rest)

def unescape (c : Char) : Nat :=
  match c with
  | 'n' => 10
  | 't' => 9
  | 'r' => 13
  | 'b' => 8
  | 'f' => 12
  | c => c.toNat

def ofDigits (ds : List Char) : Nat := ds.foldl (fun n c => n * 10 + (c.toNat - 48)) 0

/-- Takes a sign off the front: whether it was a minus, and the rest. -/
def takeSign : List Char → Bool × List Char
  | '-' :: r => (true, r)
  | '+' :: r => (false, r)
  | r => (false, r)

def takeExponent : List Char → Option Int
  | [] => none
  | _ :: r =>
    let (negative, ds) := takeSign r
    let n : Int := ofDigits (ds.takeWhile Char.isDigit)
    some (if negative then -n else n)

def ofNumeral [Scalar α] (cs : List Char) : Datum α :=
  let (negative, cs) := takeSign cs
  let whole := cs.takeWhile Char.isDigit
  let rest := cs.dropWhile Char.isDigit
  let (fraction, rest, pointed) := match rest with
    | '.' :: r => (r.takeWhile Char.isDigit, r.dropWhile Char.isDigit, true)
    | r => ([], r, false)
  match takeExponent rest, pointed with
  | none, false =>
    let n : Int := ofDigits whole
    .int (if negative then -n else n)
  | exponent, _ =>
    let e := exponent.getD 0 - fraction.length
    let x : α := OfScientific.ofScientific (ofDigits (whole ++ fraction)) (decide (e < 0)) e.natAbs
    .real (if negative then -x else x)

def ofWord [Scalar α] (cs : List Char) : Datum α :=
  match String.ofList cs with
  | "true" => .bool true
  | "false" => .bool false
  | "null" => .null
  | _ => ofNumeral cs

namespace Reader

variable [Scalar α]

/-- Puts a datum where it belongs: into the innermost list or record. -/
def place (d : Datum α) (r : Reader α) : Reader α :=
  match r.stack with
  | [] => { r with done := d }
  | .list xs :: rest => { r with stack := .list (d :: xs) :: rest }
  | .record fs none :: rest => { r with stack := .record fs (some d.words) :: rest }
  | .record fs (some k) :: rest => { r with stack := .record ((k, d) :: fs) none :: rest }

def finish (r : Reader α) : Reader α :=
  match r.lexeme with
  | .word cs => place (ofWord cs.reverse) { r with lexeme := .between }
  | _ => r

def close (r : Reader α) : Reader α :=
  match r.stack with
  | [] => r
  | .list xs :: rest => place (.list xs.reverse) { r with stack := rest }
  | .record fs _ :: rest => place (.record fs.reverse) { r with stack := rest }

def punctuate (r : Reader α) (c : Char) : Reader α :=
  match c with
  | '"' => { r.finish with lexeme := .text [] }
  | '[' => { r.finish with stack := .list [] :: r.finish.stack }
  | '\x7b' => { r.finish with stack := .record [] none :: r.finish.stack }
  | ']' => r.finish.close
  | '\x7d' => r.finish.close
  | ',' => r.finish
  | ':' => r.finish
  | c =>
    if c.isWhitespace then r.finish
    else match r.lexeme with
      | .word cs => { r with lexeme := .word (c :: cs) }
      | _ => { r with lexeme := .word [c] }

def step (r : Reader α) (c : Char) : Reader α :=
  match r.lexeme with
  | .text units =>
    if c = '"' then
      place (.text (String.ofList (ofUnits units.reverse))) { r with lexeme := .between }
    else if c = '\\' then { r with lexeme := .escape units }
    else { r with lexeme := .text (c.toNat :: units) }
  | .escape units =>
    if c = 'u' then { r with lexeme := .code units 0 0 }
    else { r with lexeme := .text (unescape c :: units) }
  | .code units count value =>
    let value := value * 16 + hexValue c
    if count = 3 then { r with lexeme := .text (value :: units) }
    else { r with lexeme := .code units (count + 1) value }
  | _ => r.punctuate c

end Reader

def read [Scalar α] (s : String) : Datum α :=
  (s.toList.foldl Reader.step ⟨.between, [], .null⟩).finish.done

end QuantumCircuits.Datum
