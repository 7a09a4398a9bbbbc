import QuantumCircuits.Scalar.Basic

/-!
# Text — Numeral

Numbers read from text.  `takeReal` takes a decimal numeral, or a word for an infinite or undefined
number, off the front of a text; `Cplx.ofText?` reads a whole text as a complex number, its parts
written like `1.5-2j`.
-/

namespace QuantumCircuits.Numeral

variable {α : Type} [Scalar α]

def dropSeparators : List Char → List Char
  | c :: '_' :: d :: rest =>
    if c.isDigit && d.isDigit then c :: dropSeparators (d :: rest)
    else c :: '_' :: dropSeparators (d :: rest)
  | c :: rest => c :: dropSeparators rest
  | [] => []

def ofDigits (ds : List Char) : Nat := ds.foldl (fun n c => n * 10 + (c.toNat - 48)) 0

def takeExponent (cs : List Char) : Int × List Char :=
  match cs with
  | e :: rest =>
    if e != 'e' && e != 'E' then (0, cs)
    else
      let (sign, ds) : Int × List Char := match rest with
        | '-' :: r => (-1, r)
        | '+' :: r => (1, r)
        | r => (1, r)
      let digits := ds.takeWhile Char.isDigit
      if digits.isEmpty then (0, cs) else (sign * ofDigits digits, ds.dropWhile Char.isDigit)
  | [] => (0, cs)

/-- The decimal numeral without a sign at the front, and the rest. -/
def takeDecimal (cs : List Char) : Option (α × List Char) :=
  let whole := cs.takeWhile Char.isDigit
  let rest := cs.dropWhile Char.isDigit
  let (fraction, rest) := match rest with
    | '.' :: r => (r.takeWhile Char.isDigit, r.dropWhile Char.isDigit)
    | r => ([], r)
  if whole.isEmpty && fraction.isEmpty then none
  else
    let (e, rest) := takeExponent rest
    let e := e - fraction.length
    some (OfScientific.ofScientific (ofDigits (whole ++ fraction)) (decide (e < 0)) e.natAbs, rest)

def takeWord (word : String) (cs : List Char) : Option (List Char) :=
  let n := word.length
  if (cs.take n).map Char.toLower = word.toList then some (cs.drop n) else none

def takeMagnitude (cs : List Char) : Option (α × List Char) :=
  match takeWord "infinity" cs, takeWord "inf" cs, takeWord "nan" cs with
  | some r, _, _ | none, some r, _ => some (1.0 / 0.0, r)
  | none, none, some r => some (0.0 / 0.0, r)
  | none, none, none => takeDecimal cs

def takeReal (cs : List Char) : Option (α × List Char) :=
  match cs with
  | '-' :: r => (takeMagnitude r).map fun (x, rest) => (-x, rest)
  | '+' :: r => takeMagnitude r
  | r => takeMagnitude r

def isUnit (cs : List Char) : Bool := cs == ['j'] || cs == ['J']

/-- The imaginary part that the text is, which may be the unit alone. -/
def imaginary? (cs : List Char) : Option α :=
  match takeReal cs with
  | some (y, rest) => if isUnit rest then some y else none
  | none => match cs with
    | '-' :: r => if isUnit r then some (-1.0) else none
    | '+' :: r => if isUnit r then some 1.0 else none
    | r => if isUnit r then some 1.0 else none

def complex? (cs : List Char) : Option (Cplx α) :=
  match takeReal cs with
  | some (x, []) => some ⟨x, 0.0⟩
  | some (x, '+' :: r) => (imaginary? ('+' :: r)).map (⟨x, ·⟩)
  | some (x, '-' :: r) => (imaginary? ('-' :: r)).map (⟨x, ·⟩)
  | _ => (imaginary? cs).map (⟨0.0, ·⟩)

def strip (cs : List Char) : List Char :=
  ((cs.dropWhile Char.isWhitespace).reverse.dropWhile Char.isWhitespace).reverse

def unwrap (cs : List Char) : List Char :=
  match cs with
  | '(' :: r => match r.getLast? with
    | some ')' => strip r.dropLast
    | _ => cs
  | cs => cs

end QuantumCircuits.Numeral

namespace QuantumCircuits.Cplx

def ofText? {α : Type} [Scalar α] (s : String) : Option (Cplx α) :=
  Numeral.complex? (Numeral.dropSeparators (Numeral.unwrap (Numeral.strip s.toList)))

end QuantumCircuits.Cplx
