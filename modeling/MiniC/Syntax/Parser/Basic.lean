import MiniC.CompileError
import MiniC.Syntax.Tree
import MiniC.Token.Lexer
/-!
What the grammar is written with: a token of lookahead, the span of the last token read, and a
depth that every nested construct raises. A construct gives its depth back however it ends, and a
loop goes on only after a round that has read a token.
-/
namespace MiniC.Syntax

/-- The deepest nesting of expressions, statements and struct bodies. -/
def maxNesting : Nat := 128

inductive SyntaxCause where
  | expected (what : String) (found : TokenKind)
  | unsupported (what : String)
  | nesting
  /-- Calls that nest without end, or a loop whose rounds read nothing. -/
  | exhausted
  | emptyDeclaration
  | mixedStruct
  | specifiers (words : List Keyword)
  | negativeSize
  | variableSize
  | misplacedDeclaration
  | unexpected (found : TokenKind)
  deriving DecidableEq, Repr, Inhabited

def SyntaxCause.message : SyntaxCause → String
  | expected what found => s!"expected {what}, found {found.describe}"
  | unsupported what => s!"{what} is not supported"
  | nesting => s!"nesting exceeds {maxNesting} levels"
  | exhausted => "parsing does not come to an end"
  | emptyDeclaration => "declaration does not declare anything"
  | mixedStruct => "struct cannot be combined with other type specifiers"
  | specifiers words =>
    "invalid type specifier combination: " ++ " ".intercalate (words.map Keyword.text)
  | negativeSize => "array size is negative"
  | variableSize => "array size must be an integer constant"
  | misplacedDeclaration => "a declaration is not allowed here; wrap it in braces"
  | unexpected found => s!"unexpected token in expression: {found.describe}"

inductive ParseError where
  | lexical (error : LexError)
  | grammar (cause : SyntaxCause) (span : Span)
  deriving DecidableEq, Repr, Inhabited

def ParseError.toCompileError : ParseError → CompileError
  | lexical e => .lexer e.message e.span
  | grammar cause span => .parser cause.message span

structure ParseState where
  cursor : Lexer.Cursor
  current : Token
  /-- The span of the token read last. -/
  previous : Span
  nextStruct : Nat
  depth : Nat
  depth_le : depth ≤ maxNesting

/-- The number of tokens behind the current one. -/
def ParseState.unread (s : ParseState) : Nat := s.cursor.pending.length

abbrev Parser := EStateM ParseError ParseState

namespace Parser

def failAt (cause : SyntaxCause) (span : Span) : Parser α := fun s =>
  .error (.grammar cause span) s

/-- The current token is what is wrong. -/
def fail (cause : SyntaxCause) : Parser α := fun s =>
  .error (.grammar cause s.current.span) s

def kind : Parser TokenKind := fun s => .ok s.current.kind s

def span : Parser Span := fun s => .ok s.current.span s

/-- From a start through the token read last. -/
def spanFrom (start : Span) : Parser Span := fun s => .ok (start.cover s.previous) s

def advance : Parser Token := fun s =>
  match s.cursor.next with
  | (.error e, cursor) => .error (.lexical e) { s with cursor }
  | (.ok t, cursor) => .ok s.current { s with cursor, current := t, previous := s.current.span }

/-- The kind of the token after the current one. -/
def peekKind : Parser TokenKind := fun s =>
  match s.cursor.peek with
  | (.error e, cursor) => .error (.lexical e) { s with cursor }
  | (.ok t, cursor) => .ok t.kind { s with cursor }

def atKind (k : TokenKind) : Parser Bool := fun s => .ok (s.current.kind == k) s

def atPunct (p : Punct) : Parser Bool := atKind (.punct p)

def atEnd : Parser Bool := atKind .eof

def accept (p : Punct) : Parser Bool := do
  if ← atPunct p then
    let _ ← advance
    return true
  else return false

def acceptKeyword (k : Keyword) : Parser Bool := do
  if ← atKind (.keyword k) then
    let _ ← advance
    return true
  else return false

def expectKind (k : TokenKind) : Parser Token := do
  let found ← kind
  if found == k then advance else fail (.expected k.describe found)

def expect (p : Punct) : Parser Token := expectKind (.punct p)

def expectKeyword (k : Keyword) : Parser Token := expectKind (.keyword k)

def expectName (what : String) : Parser (String × Span) := do
  match ← kind with
  | .identifier name =>
    let t ← advance
    return (name, t.span)
  | found => fail (.expected what found)

def unsupported (what : String) : Parser α := fail (.unsupported what)

def exhausted : Parser α := fail .exhausted

/-- Runs a construct that may raise the depth, and restores it. -/
def chain (p : Parser α) : Parser α := fun s =>
  match p s with
  | .ok a s' => .ok a { s' with depth := s.depth, depth_le := s.depth_le }
  | .error e s' => .error e { s' with depth := s.depth, depth_le := s.depth_le }

/-- One level deeper, if there is one. -/
def link : Parser PUnit := fun s =>
  if h : s.depth < maxNesting then .ok ⟨⟩ { s with depth := s.depth + 1, depth_le := h }
  else .error (.grammar .nesting s.current.span) s

def nested (p : Parser α) : Parser α := chain do
  link
  p

def freshStruct : Parser Nat := fun s => .ok s.nextStruct { s with nextStruct := s.nextStruct + 1 }

/-- Repeats a step while it asks for more; a round that does has read a token. -/
def loop (step : β → Parser (β × Bool)) : (limit : Nat) → β → Parser β
  | 0, _ => exhausted
  | limit + 1, b => fun s =>
    match step b s with
    | .error e s' => .error e s'
    | .ok (b', more) s' =>
      if !more then .ok b' s'
      else if s'.unread < s.unread then loop step limit b' s'
      else exhausted s'

/-- There are fewer tokens to read after every round, so this limit is never met. -/
def iterate (step : β → Parser (β × Bool)) (b : β) : Parser β := fun s =>
  loop step (s.unread + 1) b s

/-- Items up to a closing brace or the end of the source. -/
def untilBrace (item : Parser α) : Parser (List α) := do
  let items ← iterate (fun acc => do
    if (← atPunct .rBrace) || (← atEnd) then return (acc, false)
    return (acc.push (← item), true)) #[]
  return items.toList

/-- One or more items with commas between them. -/
def separated (item : Parser α) : Parser (List α) := do
  let items ← iterate (fun acc => do
    let a ← item
    return (acc.push a, ← accept .comma)) #[]
  return items.toList

end Parser
end MiniC.Syntax
