/-!
The lines of a source text. A line ends before its line feed, so a text has one line more than it
has line feeds, and every byte offset belongs to one line.
-/
namespace MiniC

structure Line where
  /-- The byte at which the line begins. -/
  start : Nat
  text : String
  deriving DecidableEq, Repr, Inhabited

namespace Source

def linesFrom (start : Nat) : List String → List Line
  | [] => []
  | text :: rest => ⟨start, text⟩ :: linesFrom (start + text.utf8ByteSize + 1) rest

def lines (source : String) : Array Line := (linesFrom 0 (source.splitOn "\n")).toArray

/-- The line to which a byte offset belongs; what lies past the end belongs to the last line. -/
def lineIndex (lines : Array Line) (offset : Nat) : Nat :=
  lines.toList.countP (·.start ≤ offset) - 1

/-- The characters that end at or before a byte offset of their line. -/
def charsBefore (offset : Nat) : List Char → Nat
  | [] => 0
  | c :: cs =>
    if c.utf8Size ≤ offset then charsBefore (offset - c.utf8Size) cs + 1 else 0

/-- Counted from one, in characters. -/
def column (line : Line) (offset : Nat) : Nat :=
  charsBefore (offset - line.start) line.text.toList + 1

end Source

/-- What is shown of a line. -/
def Line.shown (l : Line) : String :=
  String.ofList (l.text.toList.reverse.dropWhile (fun c => c == '\r' || c == '\x00')).reverse

end MiniC
