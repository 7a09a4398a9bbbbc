import QuantumCircuits.Datum.Basic

/-!
# Datum — Writer

Writing data as text.  How real numbers are written is left to the caller; they are written as
texts, so that also numbers without digits have a place.
-/

namespace QuantumCircuits.Datum

variable {α : Type}

def hexDigit (n : Nat) : Char := if n < 10 then Char.ofNat (48 + n) else Char.ofNat (87 + n)

def escaped (c : Char) : List Char :=
  match c with
  | '"' => ['\\', '"']
  | '\\' => ['\\', '\\']
  | '\n' => ['\\', 'n']
  | '\t' => ['\\', 't']
  | '\r' => ['\\', 'r']
  | c =>
    if c.toNat < 32 then ['\\', 'u', '0', '0', hexDigit (c.toNat / 16), hexDigit (c.toNat % 16)]
    else [c]

def quote (s : String) : String := "\"" ++ String.ofList (s.toList.flatMap escaped) ++ "\""

mutual

def write (real : α → String) : Datum α → String
  | .null => "null"
  | .bool b => if b then "true" else "false"
  | .int i => toString i
  | .real x => quote (real x)
  | .text s => quote s
  | .list xs => "[" ++ ",".intercalate (writeItems real xs) ++ "]"
  | .record fs => "\x7b" ++ ",".intercalate (writeFields real fs) ++ "\x7d"

def writeItems (real : α → String) : List (Datum α) → List String
  | [] => []
  | x :: xs => write real x :: writeItems real xs

def writeFields (real : α → String) : List (String × Datum α) → List String
  | [] => []
  | (k, x) :: fs => (quote k ++ ":" ++ write real x) :: writeFields real fs

end

end QuantumCircuits.Datum
