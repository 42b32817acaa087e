/-!
Quoted text. `quote` is the form used in dumps of tokens and trees, `escaped` the stricter form of
string data in listings, where everything outside printable ASCII is written as a number.
-/
namespace MiniC.Text

def hex (n : Nat) : String := String.ofList (Nat.toDigits 16 n)

/-- A character by its number. -/
def numbered (c : Char) : String := "\\u\x7b" ++ hex c.toNat ++ "\x7d"

/-- Controls, the no-break space and the soft hyphen have no glyph of their own. -/
def isInvisible (c : Char) : Bool :=
  c.toNat < 0x20 || (0x7f ≤ c.toNat && c.toNat ≤ 0xa0) || c.toNat = 0xad

def quoteChar (c : Char) : String :=
  if c = '"' then "\\\""
  else if c = '\\' then "\\\\"
  else if c = '\n' then "\\n"
  else if c = '\r' then "\\r"
  else if c = '\t' then "\\t"
  else if c = '\x00' then "\\0"
  else if isInvisible c then numbered c
  else c.toString

def quote (s : String) : String :=
  "\"" ++ String.join (s.toList.map quoteChar) ++ "\""

/-- One character between single quotes, which change places with the double ones. -/
def quoteOne (c : Char) : String :=
  if c = '\x27' then "'\\''"
  else if c = '"' then "'\"'"
  else "'" ++ quoteChar c ++ "'"

def escapeChar (c : Char) : String :=
  if c = '\t' then "\\t"
  else if c = '\r' then "\\r"
  else if c = '\n' then "\\n"
  else if c = '\x27' then "\\'"
  else if c = '"' then "\\\""
  else if c = '\\' then "\\\\"
  else if 0x20 ≤ c.toNat && c.toNat < 0x7f then c.toString
  else numbered c

def escaped (s : String) : String :=
  String.join (s.toList.map escapeChar)

end MiniC.Text
