import MiniC.Source.Span
import MiniC.Text.Quoted
/-!
Tokens. Every keyword and every punctuator has one spelling; `Punct.all` lists longer spellings
first, so that the first one that fits is the longest.
-/
namespace MiniC

inductive Keyword where
  | break_ | char | const | continue_ | do_ | else_ | for_ | if_ | int | long | return_ | short
  | signed | sizeof | struct | unsigned | void | volatile | while_ | alignof
  deriving DecidableEq, Repr, Inhabited

namespace Keyword

def text : Keyword → String
  | break_ => "break" | char => "char" | const => "const" | continue_ => "continue"
  | do_ => "do" | else_ => "else" | for_ => "for" | if_ => "if" | int => "int" | long => "long"
  | return_ => "return" | short => "short" | signed => "signed" | sizeof => "sizeof"
  | struct => "struct" | unsigned => "unsigned" | void => "void" | volatile => "volatile"
  | while_ => "while" | alignof => "_Alignof"

def dumpName : Keyword → String
  | break_ => "Break" | char => "Char" | const => "Const" | continue_ => "Continue"
  | do_ => "Do" | else_ => "Else" | for_ => "For" | if_ => "If" | int => "Int" | long => "Long"
  | return_ => "Return" | short => "Short" | signed => "Signed" | sizeof => "Sizeof"
  | struct => "Struct" | unsigned => "Unsigned" | void => "Void" | volatile => "Volatile"
  | while_ => "While" | alignof => "Alignof"

def all : List Keyword :=
  [break_, char, const, continue_, do_, else_, for_, if_, int, long, return_, short,
    signed, sizeof, struct, unsigned, void, volatile, while_, alignof]

def ofText? (s : String) : Option Keyword := all.find? (·.text == s)

def isTypeSpecifier : Keyword → Bool
  | void | char | short | int | long | signed | unsigned | struct => true
  | _ => false

def isTypeQualifier : Keyword → Bool
  | const | volatile => true
  | _ => false

def startsDeclaration (k : Keyword) : Bool := k.isTypeSpecifier || k.isTypeQualifier

theorem mem_all (k : Keyword) : k ∈ all := by
  cases k <;> decide

end Keyword

/-- Keywords of the language outside the accepted subset. -/
def reservedWords : List String :=
  ["auto", "case", "default", "double", "enum", "extern", "float", "goto", "register", "static",
    "switch", "typedef", "union", "_Bool"]

inductive Punct where
  | ellipsis | ltLtEq | gtGtEq
  | plusPlus | minusMinus | eqEq | notEq | ltEq | gtEq | ampAmp | pipePipe | ltLt | gtGt
  | plusEq | minusEq | starEq | slashEq | percentEq | ampEq | pipeEq | caretEq | arrow
  | plus | minus | star | slash | percent | lt | gt | bang | amp | pipe | caret | tilde | eq
  | lParen | rParen | lBracket | rBracket | lBrace | rBrace | semi | comma | dot | colon | question
  deriving DecidableEq, Repr, Inhabited

namespace Punct

def chars : Punct → List Char
  | ellipsis => ['.', '.', '.'] | ltLtEq => ['<', '<', '='] | gtGtEq => ['>', '>', '=']
  | plusPlus => ['+', '+'] | minusMinus => ['-', '-'] | eqEq => ['=', '='] | notEq => ['!', '=']
  | ltEq => ['<', '='] | gtEq => ['>', '='] | ampAmp => ['&', '&'] | pipePipe => ['|', '|']
  | ltLt => ['<', '<'] | gtGt => ['>', '>'] | plusEq => ['+', '='] | minusEq => ['-', '=']
  | starEq => ['*', '='] | slashEq => ['/', '='] | percentEq => ['%', '='] | ampEq => ['&', '=']
  | pipeEq => ['|', '='] | caretEq => ['^', '='] | arrow => ['-', '>']
  | plus => ['+'] | minus => ['-'] | star => ['*'] | slash => ['/'] | percent => ['%']
  | lt => ['<'] | gt => ['>'] | bang => ['!'] | amp => ['&'] | pipe => ['|'] | caret => ['^']
  | tilde => ['~'] | eq => ['='] | lParen => ['('] | rParen => [')'] | lBracket => ['[']
  | rBracket => [']'] | lBrace => ['\x7b'] | rBrace => ['\x7d'] | semi => [';'] | comma => [',']
  | dot => ['.'] | colon => [':'] | question => ['?']

def text (p : Punct) : String := String.ofList p.chars

def dumpName : Punct → String
  | ellipsis => "Ellipsis" | ltLtEq => "LtLtEq" | gtGtEq => "GtGtEq" | plusPlus => "PlusPlus"
  | minusMinus => "MinusMinus" | eqEq => "EqEq" | notEq => "NotEq" | ltEq => "LtEq"
  | gtEq => "GtEq" | ampAmp => "AmpAmp" | pipePipe => "PipePipe" | ltLt => "LtLt"
  | gtGt => "GtGt" | plusEq => "PlusEq" | minusEq => "MinusEq" | starEq => "StarEq"
  | slashEq => "SlashEq" | percentEq => "PercentEq" | ampEq => "AmpEq" | pipeEq => "PipeEq"
  | caretEq => "CaretEq" | arrow => "Arrow" | plus => "Plus" | minus => "Minus" | star => "Star"
  | slash => "Slash" | percent => "Percent" | lt => "Lt" | gt => "Gt" | bang => "Bang"
  | amp => "Amp" | pipe => "Pipe" | caret => "Caret" | tilde => "Tilde" | eq => "Eq"
  | lParen => "LParen" | rParen => "RParen" | lBracket => "LBracket" | rBracket => "RBracket"
  | lBrace => "LBrace" | rBrace => "RBrace" | semi => "Semi" | comma => "Comma" | dot => "Dot"
  | colon => "Colon" | question => "Question"

def all : List Punct :=
  [ellipsis, ltLtEq, gtGtEq,
    plusPlus, minusMinus, eqEq, notEq, ltEq, gtEq, ampAmp, pipePipe, ltLt, gtGt,
    plusEq, minusEq, starEq, slashEq, percentEq, ampEq, pipeEq, caretEq, arrow,
    plus, minus, star, slash, percent, lt, gt, bang, amp, pipe, caret, tilde, eq,
    lParen, rParen, lBracket, rBracket, lBrace, rBrace, semi, comma, dot, colon, question]

/-- The longest punctuator that a text starts with. -/
def ofChars? (cs : List Char) : Option Punct := all.find? (·.chars.isPrefixOf cs)

/-- How tightly a binary operator binds; assignment, the conditional and the comma are not here. -/
def precedence? : Punct → Option Nat
  | pipePipe => some 1
  | ampAmp => some 2
  | pipe => some 3
  | caret => some 4
  | amp => some 5
  | eqEq | notEq => some 6
  | lt | gt | ltEq | gtEq => some 7
  | ltLt | gtGt => some 8
  | plus | minus => some 9
  | star | slash | percent => some 10
  | _ => none

theorem mem_all (p : Punct) : p ∈ all := by
  cases p <;> decide

end Punct

inductive TokenKind where
  | keyword (k : Keyword)
  | reserved (word : String)
  | identifier (name : String)
  | integer (value : Int64)
  | real (text : String)
  | character (value : UInt8)
  /-- One character for each byte. -/
  | string (text : String)
  | punct (p : Punct)
  | eof
  deriving DecidableEq, Repr, Inhabited

namespace TokenKind

/-- How a token is named in a message. -/
def describe : TokenKind → String
  | keyword k => s!"'{k.text}'"
  | reserved word => s!"keyword '{word}'"
  | identifier name => s!"identifier '{name}'"
  | integer value => s!"integer '{value.toInt}'"
  | real text => s!"float '{text}'"
  | character value => "char " ++ Text.quoteOne (Char.ofNat value.toNat)
  | string text => "string " ++ Text.quote text
  | punct p => s!"'{p.text}'"
  | eof => "end of file"

def dump : TokenKind → String
  | keyword k => k.dumpName
  | reserved word => s!"Reserved({Text.quote word})"
  | identifier name => s!"Identifier({Text.quote name})"
  | integer value => s!"IntLiteral({value.toInt})"
  | real text => s!"FloatLiteral({Text.quote text})"
  | character value => s!"CharLiteral({value.toNat})"
  | string text => s!"StringLiteral({Text.quote text})"
  | punct p => p.dumpName
  | eof => "Eof"

def precedence? : TokenKind → Option Nat
  | punct p => p.precedence?
  | _ => none

def startsDeclaration : TokenKind → Bool
  | keyword k => k.startsDeclaration
  | _ => false

end TokenKind

structure Token where
  kind : TokenKind
  span : Span
  deriving DecidableEq, Repr, Inhabited

def Token.dump (t : Token) : String :=
  s!"Token \x7b kind: {t.kind.dump}, span: {t.span.describe} \x7d"

end MiniC
