import MiniC.Bytes
/-!
The values of literals: integers in four radixes, and bytes behind escapes.
-/
namespace MiniC.Literal

def isSuffix (c : Char) : Bool := c = 'u' || c = 'U' || c = 'l' || c = 'L'

def isOctal (c : Char) : Bool := '0' ≤ c && c ≤ '7'

def isBinary (c : Char) : Bool := c = '0' || c = '1'

def isHex (c : Char) : Bool :=
  c.isDigit || ('a' ≤ c && c ≤ 'f') || ('A' ≤ c && c ≤ 'F')

/-- The value of a digit, in any radix up to sixteen. -/
def digit (c : Char) : Nat :=
  if c.isDigit then c.toNat - '0'.toNat
  else if 'a' ≤ c then c.toNat - 'a'.toNat + 10
  else c.toNat - 'A'.toNat + 10

def ofDigits (radix : Nat) (ds : List Char) : Nat :=
  ds.foldl (fun n c => radix * n + digit c) 0

/-- A number that fits an unsigned word, read as a signed one. -/
def word? (n : Nat) : Option Int64 :=
  if n < Bytes.range 8 then some (Int64.ofNat n) else none

/-- The value of the digits of a literal, prefix included. -/
def integer? (ds : List Char) : Option Int64 :=
  match ds with
  | '0' :: x :: rest =>
    if x = 'x' || x = 'X' then word? (ofDigits 16 rest)
    else if x = 'b' || x = 'B' then word? (ofDigits 2 rest)
    else if (x :: rest).all isOctal then word? (ofDigits 8 (x :: rest))
    else word? (ofDigits 10 ds)
  | _ => word? (ofDigits 10 ds)

def backslash : UInt8 := 92

/-- Escapes of one letter; any other byte stands for itself. -/
def plainEscape (b : UInt8) : UInt8 :=
  match Char.ofNat b.toNat with
  | 'n' => 10
  | 'r' => 13
  | 't' => 9
  | 'a' => 7
  | 'b' => 8
  | 'f' => 12
  | 'v' => 11
  | _ => b

def byteChar (b : UInt8) : Char := Char.ofNat b.toNat

/-- The longest run of bytes at the front that satisfies a test, no longer than `limit`. -/
def run (p : Char → Bool) (limit : Nat) (bytes : List UInt8) : List Char :=
  ((bytes.take limit).takeWhile (p ∘ byteChar)).map byteChar

/-- The byte of the escape after a backslash, and how many bytes spell it. -/
def escape? : List UInt8 → Option (UInt8 × Nat)
  | [] => none
  | b :: rest =>
    if byteChar b = 'x' then
      let ds := run isHex rest.length rest
      if ds.isEmpty then none else some (UInt8.ofNat (ofDigits 16 ds), ds.length)
    else if isOctal (byteChar b) then
      let ds := run isOctal 2 rest
      some (UInt8.ofNat (ofDigits 8 (byteChar b :: ds)), ds.length)
    else some (plainEscape b, 0)

/-- The bytes that the inside of a literal spells. -/
def unescape? : List UInt8 → Option (List UInt8)
  | [] => some []
  | b :: rest =>
    if b = backslash then
      match escape? rest with
      | none => none
      | some (byte, extra) => (unescape? ((rest.drop 1).drop extra)).map (byte :: ·)
    else (unescape? rest).map (b :: ·)
termination_by bytes => bytes.length
decreasing_by all_goals simp only [List.length_drop, List.length_cons]; omega

def bytesOf (body : List Char) : List UInt8 := (String.ofList body).toUTF8.toList

/-- A character literal holds exactly one byte. -/
def character? (body : List Char) : Option UInt8 :=
  match unescape? (bytesOf body) with
  | some [b] => some b
  | _ => none

def string? (body : List Char) : Option String :=
  (unescape? (bytesOf body)).map fun bytes => String.ofList (bytes.map byteChar)

end MiniC.Literal
