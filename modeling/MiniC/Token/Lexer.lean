import MiniC.Token.Kind
import MiniC.Token.Literal
/-!
Lexical analysis. A lexeme is the longest text that a rule accepts; where none accepts, the error
covers the characters that cannot be part of any token and the rest is read on.
-/
namespace MiniC

structure LexError where
  text : String
  span : Span
  deriving DecidableEq, Repr, Inhabited

/-- What is wrong shows in the first character. -/
def LexError.message (e : LexError) : String :=
  match e.text.toList with
  | '\x27' :: _ => s!"invalid character literal {e.text}"
  | '"' :: _ => s!"invalid string literal {e.text}"
  | c :: _ =>
    if c.isDigit then s!"invalid integer literal '{e.text}'"
    else s!"unexpected character '{e.text}'"
  | [] => "unexpected character ''"

namespace Lexer

/-- One lexeme: what it is, and how many characters it has after its first. -/
structure Lexeme where
  /-- Nothing for blanks and comments, an error for what is no token. -/
  reading : Option (Except Unit TokenKind)
  extra : Nat
  deriving Repr

def Lexeme.blank (extra : Nat) : Lexeme := ⟨none, extra⟩

def Lexeme.token (kind : TokenKind) (extra : Nat) : Lexeme := ⟨some (.ok kind), extra⟩

def Lexeme.invalid (extra : Nat) : Lexeme := ⟨some (.error ()), extra⟩

/-- A token whose text may turn out to have no value. -/
def Lexeme.valued (kind : Option TokenKind) (extra : Nat) : Lexeme :=
  match kind with
  | some kind => .token kind extra
  | none => .invalid extra

def isBlank (c : Char) : Bool :=
  c = ' ' || c = '\t' || c = '\n' || c = '\r' || c = '\x0c'

def isWordStart (c : Char) : Bool :=
  ('a' ≤ c && c ≤ 'z') || ('A' ≤ c && c ≤ 'Z') || c = '_'

def isWordRest (c : Char) : Bool := isWordStart c || c.isDigit

/-- The length of the run of characters at the front that satisfy a test. -/
def runLength (p : Char → Bool) (cs : List Char) : Nat := (cs.takeWhile p).length

/-- How many characters close a block comment, counted from after its opening. -/
def commentRest? : List Char → Option Nat
  | '*' :: '/' :: _ => some 2
  | _ :: rest => (commentRest? rest).map (· + 1)
  | [] => none

/-- The complete characters and escapes inside a quoted literal, and whether the quote is closed.
A backslash before a line's end is no escape. -/
def quotedRest (quote : Char) : List Char → Nat × Bool
  | [] => (0, false)
  | c :: rest =>
    if c = quote then (0, true)
    else if c = '\\' then
      match rest with
      | [] => (0, false)
      | d :: rest =>
        if d = '\n' then (0, false)
        else
          let (n, closed) := quotedRest quote rest
          (n + 2, closed)
    else
      let (n, closed) := quotedRest quote rest
      (n + 1, closed)

def quoted (quote : Char) (value : List Char → Option TokenKind) (rest : List Char) : Lexeme :=
  let (n, closed) := quotedRest quote rest
  if closed then .valued (value (rest.take n)) (n + 1) else .invalid n

/-- An exponent, if one is spelled out. -/
def exponentLength : List Char → Nat
  | e :: rest =>
    if e = 'e' || e = 'E' then
      match rest with
      | s :: digits =>
        if s = '+' || s = '-' then
          let n := runLength Char.isDigit digits
          if n = 0 then 0 else n + 2
        else
          let n := runLength Char.isDigit rest
          if n = 0 then 0 else n + 1
      | [] => 0
    else 0
  | [] => 0

def realSuffixLength : List Char → Nat
  | c :: _ => if c = 'f' || c = 'F' || c = 'l' || c = 'L' then 1 else 0
  | [] => 0

/-- What may follow the digits behind a decimal point. -/
def realTail (cs : List Char) : Nat :=
  let n := exponentLength cs
  n + realSuffixLength (cs.drop n)

/-- The number of characters of an integer literal in front of its suffix. -/
def integerLength (cs : List Char) : Nat :=
  match cs with
  | '0' :: x :: rest =>
    let n :=
      if x = 'x' || x = 'X' then runLength Literal.isHex rest
      else if x = 'b' || x = 'B' then runLength Literal.isBinary rest
      else 0
    if n = 0 then runLength Char.isDigit cs else n + 2
  | _ => runLength Char.isDigit cs

def number (c : Char) (rest : List Char) : Lexeme :=
  let cs := c :: rest
  let digits := runLength Char.isDigit cs
  match cs.drop digits with
  | '.' :: fraction =>
    let n := runLength Char.isDigit fraction
    let total := digits + 1 + n + realTail (fraction.drop n)
    .token (.real (String.ofList (cs.take total))) (total - 1)
  | _ =>
    let n := integerLength cs
    let total := n + runLength Literal.isSuffix (cs.drop n)
    .valued ((Literal.integer? (cs.take n)).map .integer) (total - 1)

def word (s : String) : TokenKind :=
  match Keyword.ofText? s with
  | some k => .keyword k
  | none => if reservedWords.contains s then .reserved s else .identifier s

def punct (cs : List Char) : Lexeme :=
  match Punct.ofChars? cs with
  | some p => .token (.punct p) (p.chars.length - 1)
  | none => .invalid 0

/-- The lexeme that starts with `c`, when `rest` follows. -/
def lexeme (c : Char) (rest : List Char) : Lexeme :=
  if isBlank c then .blank (runLength isBlank rest)
  else if isWordStart c then
    let n := runLength isWordRest rest
    .token (word (String.ofList (c :: rest.take n))) n
  else if c.isDigit then number c rest
  else if c = '\x27' then quoted c (fun body => (Literal.character? body).map .character) rest
  else if c = '"' then quoted c (fun body => (Literal.string? body).map .string) rest
  else
    match c, rest with
    | '/', '/' :: line => .blank (1 + runLength (· != '\n') line)
    | '/', '*' :: body =>
      match commentRest? body with
      | some n => .blank (1 + n)
      | none => .invalid rest.length
    | '.', d :: _ =>
      if d.isDigit then
        let n := runLength Char.isDigit rest
        let total := n + realTail (rest.drop n)
        .token (.real (String.ofList (c :: rest.take total))) total
      else punct (c :: rest)
    | _, _ => punct (c :: rest)

abbrev Step := Except LexError Token

/-- Every token and error of a text that starts at byte `pos`; the end of file is the last token. -/
def stepsFrom (pos : Nat) : List Char → List Step
  | [] => [.ok ⟨.eof, ⟨pos, pos⟩⟩]
  | c :: rest =>
    let l := lexeme c rest
    let text := c :: rest.take l.extra
    let stop := pos + Bytes.lengthOf text
    let later := stepsFrom stop (rest.drop l.extra)
    match l.reading with
    | none => later
    | some (.ok kind) => .ok ⟨kind, ⟨pos, stop⟩⟩ :: later
    | some (.error ()) => .error ⟨String.ofList text, ⟨pos, stop⟩⟩ :: later
termination_by cs => cs.length
decreasing_by simp only [List.length_drop, List.length_cons]; omega

def steps (source : String) : List Step := stepsFrom 0 source.toList

/-- All tokens of a text, or its first error. -/
def tokens (source : String) : Except LexError (List Token) := (steps source).mapM id

/-- What is left to read. Behind the last step there is always the end of file. -/
structure Cursor where
  pending : List Step
  stop : Token
  deriving Repr, Inhabited

namespace Cursor

def ofSource (source : String) : Cursor :=
  let n := source.utf8ByteSize
  ⟨steps source, ⟨.eof, ⟨n, n⟩⟩⟩

def next (c : Cursor) : Step × Cursor :=
  match c.pending with
  | [] => (.ok c.stop, c)
  | s :: rest => (s, { c with pending := rest })

/-- A token stays to be read; an error does not. -/
def peek (c : Cursor) : Step × Cursor :=
  match c.pending with
  | [] => (.ok c.stop, c)
  | .ok t :: _ => (.ok t, c)
  | .error e :: rest => (.error e, { c with pending := rest })

end Cursor
end Lexer
end MiniC
