import MiniC.Bytes
import MiniC.Text.Width
/-!
One source line of a report, with the marks below it. Ranges within the line are underlined. A range
over several lines has a column of its own in the gutter, where a line runs from its top to its
bottom.
-/
namespace MiniC.Report

open Text (Glyph)

/-- A labelled range of bytes within a line. -/
structure Mark where
  primary : Bool
  start : Nat
  stop : Nat
  message : String
  deriving DecidableEq, Repr, Inhabited

/-- What a range over several lines has to do with one of them. -/
inductive Edge where
  | top (start : Nat)
  | middle
  | bottom (stop : Nat) (message : String)
  deriving DecidableEq, Repr, Inhabited

/-- The gutter column of a range over several lines, at one line. -/
structure Track where
  primary : Bool
  edge : Option Edge
  deriving DecidableEq, Repr, Inhabited

structure Row where
  number : Nat
  text : String
  marks : List Mark
  tracks : List Track
  deriving DecidableEq, Repr, Inhabited

def fill (c : Char) (n : Nat) : String := String.ofList (List.replicate n c)

/-- Where the line number would be. `pad` is the width of the largest one. -/
def margin (pad : Nat) : String := fill ' ' pad ++ " "

def border (pad : Nat) : String := margin pad ++ "│"

def numbered (pad n : Nat) : String :=
  let digits := toString n
  fill ' ' (pad - digits.length) ++ digits ++ " │"

/-- How a track passes a line of marks. -/
def Track.beside (t : Track) : String :=
  match t.edge with
  | some .middle | some (.bottom ..) => " │"
  | some (.top _) | none => "  "

def gutter (tracks : List Track) : String := String.join (tracks.map Track.beside)

/-- A range that begins in the blanks at the front of its line needs no line for its top. -/
def beginsInFront (text : String) (start : Nat) : Bool :=
  start ≤ Bytes.lengthOf (text.toList.takeWhile Text.isBlank)

def Track.beforeText (text : String) (t : Track) : String :=
  match t.edge with
  | some (.top start) => if beginsInFront text start then " ╭" else "  "
  | _ => t.beside

def display (g : Glyph) : String :=
  if g.char = '\t' then fill ' ' g.width else g.char.toString

namespace Mark

def overlaps (m : Mark) (start stop : Nat) : Bool := max m.start start < min m.stop stop

def caret (m : Mark) : Char := if m.primary then '^' else '-'

/-- The sign under the bytes of a glyph; a primary mark hides others. -/
def signAt (marks : List Mark) (start stop : Nat) : Option Char :=
  let here := marks.filter (·.overlaps start stop)
  if here.any (·.primary) then some '^' else here.head?.map caret

def lastStop (marks : List Mark) : Nat := (marks.map stop).foldl max 0

def lastStart (marks : List Mark) : Nat := (marks.map start).foldl max 0

/-- The last of the marks that reach furthest. -/
def furthest (marks : List Mark) : Option (Mark × Nat) :=
  (marks.zipIdx.filter (·.1.stop = lastStop marks)).getLast?

/-- The label that goes on the line of carets, and the marks whose labels hang below it. -/
def split (marks : List Mark) : Option Mark × List Mark :=
  match furthest marks with
  | none => (none, [])
  | some (m, i) =>
    let others := marks.eraseIdx i
    if m.message.isEmpty || others.any (·.overlaps m.start m.stop) then
      (none, marks.filter (!·.message.isEmpty))
    else (some m, others.filter (!·.message.isEmpty))

end Mark

namespace Row

variable (pad : Nat) (r : Row)

def glyphs : List Glyph := Text.glyphs r.text

def source : String :=
  numbered pad r.number ++ String.join (r.tracks.map (Track.beforeText r.text)) ++ " "
    ++ String.join (r.glyphs.map display) ++ "\n"

/-- A line below the source line, beside the gutter. -/
def below (text : String) : String := border pad ++ gutter r.tracks ++ text ++ "\n"

/-- One column past the end of the line can be marked as well. -/
def caretCells : List (Nat × Nat × Nat) :=
  r.glyphs.map (fun g => (g.offset, g.stop, g.width))
    ++ [(r.text.utf8ByteSize, r.text.utf8ByteSize + 1, 1)]

def carets : String :=
  let stop := Mark.lastStop r.marks
  String.join (r.caretCells.map fun (start, next, width) =>
    match Mark.signAt r.marks start next with
    | some sign => fill sign width
    | none => if start < stop then fill ' ' width else "")

/-- Lines from the hanging labels up to their marks. -/
def pointers (hanging : List Mark) (glyphs : List Glyph) : String :=
  let limit := Mark.lastStart r.marks
  String.join (glyphs.map fun g =>
    let points := hanging.any fun m => g.offset ≤ m.start && m.start < g.stop
    let room := if points then g.width - 1 else g.width
    (if points then "│" else "") ++ if g.offset ≤ limit then fill ' ' room else "")

def hangingLabels (hanging : List Mark) : String :=
  if hanging.isEmpty then ""
  else
    r.below pad (" " ++ r.pointers hanging r.glyphs)
      ++ String.join (hanging.reverse.map fun m =>
        r.below pad (" " ++ r.pointers hanging (r.glyphs.takeWhile (·.offset < m.start))
          ++ m.message))

def underlines : String :=
  if r.marks.isEmpty then ""
  else
    let (trailing, hanging) := Mark.split r.marks
    let label := match trailing with
      | some m => " " ++ m.message
      | none => ""
    r.below pad (" " ++ r.carets ++ label) ++ r.hangingLabels pad hanging

/-- A gutter column on the line that draws the top or bottom of column `current`. Ranges that began
earlier go on to its left; to its right the drawn line passes. -/
def crossing (current column : Nat) (corner : String) (t : Track) : String :=
  let line := if current < column then "─│" else " │"
  let free := if current < column then "──" else "  "
  if column = current then corner
  else
    match t.edge with
    | some .middle => line
    | some (.top _) => if column < current then line else free
    | some (.bottom ..) => if current < column then line else free
    | none => free

def crossings (current : Nat) (corner : String) : String :=
  String.join (r.tracks.zipIdx.map fun (t, column) => crossing current column corner t)

/-- A line as wide as the text before a byte offset. -/
def dashes (offset : Nat) : String :=
  String.join ((r.glyphs.takeWhile (·.offset < offset)).map fun g => fill '─' g.width)

def edgeLine (current : Nat) (t : Track) : String :=
  let caret := if t.primary then "^" else "\x27"
  match t.edge with
  | some (.top start) =>
    if beginsInFront r.text start then ""
    else border pad ++ r.crossings current " ╭" ++ r.dashes (start + 1) ++ caret ++ "\n"
  | some (.bottom stop message) =>
    let label := if message.isEmpty then "" else " " ++ message
    border pad ++ r.crossings current " ╰" ++ r.dashes stop ++ caret ++ label ++ "\n"
  | _ => ""

def edgeLines : String :=
  String.join (r.tracks.zipIdx.map fun (t, column) => r.edgeLine pad column t)

def render : String := r.source pad ++ r.underlines pad ++ r.edgeLines pad

end Row
end MiniC.Report
