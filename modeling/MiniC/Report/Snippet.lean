import MiniC.Report.Diagnostic
import MiniC.Report.Row
import MiniC.Source.Lines
/-!
Reports of errors with the source lines that they are about. Of a range over many lines only the
ends are shown, with a few lines of context; where lines are left out, a break is drawn.
-/
namespace MiniC.Report

open Source

/-- A label with the lines on which it begins and ends. -/
structure Placed where
  label : Label
  first : Nat
  last : Nat
  deriving DecidableEq, Repr, Inhabited

namespace Placed

def ofLabel (lines : Array Line) (l : Label) : Placed :=
  ⟨l, lineIndex lines l.span.start, lineIndex lines l.span.stop⟩

def inOneLine (p : Placed) : Bool := p.first = p.last

/-- Lines shown after the first line of a range. -/
def contextAfter : Nat := 3

/-- Lines shown before the last line of a range. -/
def contextBefore : Nat := 1

def covers (p : Placed) (i : Nat) : Bool := p.first < i && i < p.last

def shows (p : Placed) (i : Nat) : Bool :=
  i = p.first || i = p.last
    || (p.covers i && (i - p.first ≤ contextAfter || p.last - i ≤ contextBefore))

/-- At least one column is marked. -/
def mark (p : Placed) (line : Line) : Mark :=
  let start := p.label.span.start - line.start
  ⟨p.label.primary, start, max (p.label.span.stop - line.start) (start + 1), p.label.message⟩

def edge? (p : Placed) (line : Line) (i : Nat) : Option Edge :=
  if i = p.first then some (.top (p.label.span.start - line.start))
  else if i = p.last then some (.bottom (p.label.span.stop - line.start) p.label.message)
  else if p.covers i then some .middle
  else none

def track (line : Line) (i : Nat) (p : Placed) : Track := ⟨p.label.primary, p.edge? line i⟩

end Placed

/-- From left to right; of equal ranges the later label comes first. -/
def insertMark (m : Mark) : List Mark → List Mark
  | [] => [m]
  | n :: ns =>
    if n.start < m.start || (n.start = m.start && n.stop < m.stop) then n :: insertMark m ns
    else m :: n :: ns

structure Snippet where
  lines : Array Line
  placed : List Placed
  /-- The width of the largest line number. -/
  pad : Nat
  deriving Repr, Inhabited

namespace Snippet

def ofLabels (source : String) (labels : List Label) : Snippet :=
  let lines := Source.lines source
  let placed := labels.map (Placed.ofLabel lines)
  let highest := (placed.map fun p => max p.first p.last).foldl max 0
  ⟨lines, placed, (toString (highest + 1)).length⟩

variable (s : Snippet)

def line (i : Nat) : Line := s.lines.getD i default

def long : List Placed := s.placed.filter (!·.inOneLine)

def marksAt (i : Nat) : List Mark :=
  (s.placed.filter fun p => p.inOneLine && p.first = i).foldl
    (fun marks p => insertMark (p.mark (s.line i)) marks) []

def row (i : Nat) : Row :=
  ⟨i + 1, (s.line i).shown, s.marksAt i, s.long.map (Placed.track (s.line i) i)⟩

def shownLines : List Nat :=
  (List.range s.lines.size).filter fun i => s.placed.any (·.shows i)

/-- What stands between two lines that are shown: nothing, the one line, or a break. -/
def between (i j : Nat) : String :=
  if j = i + 1 then ""
  else if j = i + 2 then (s.row (i + 1)).render s.pad
  else margin s.pad ++ "·" ++ gutter (s.row i).tracks ++ "\n"

def rows : List Nat → String
  | [] => ""
  | [i] => (s.row i).render s.pad
  | i :: j :: rest => (s.row i).render s.pad ++ s.between i j ++ rows (j :: rest)

/-- The place that is named on top: that of the first primary label. -/
def origin? : Option Placed :=
  match s.placed.find? (·.label.primary) with
  | some p => some p
  | none => s.placed.head?

def locus (file : String) (p : Placed) : String :=
  s!"{margin s.pad}┌─ {file}:{p.first + 1}:{column (s.line p.first) p.label.span.start}\n"

def render (file : String) : String :=
  match s.origin? with
  | none => ""
  | some p =>
    s.locus file p ++ border s.pad ++ fill ' ' (2 * s.long.length) ++ "\n" ++ s.rows s.shownLines

end Snippet

def Diagnostic.render (file source : String) (d : Diagnostic) : String :=
  d.header ++ (Snippet.ofLabels source d.labels).render file ++ "\n"

/-- The report of an error against the source it was found in; several errors follow each other. -/
def render (file source : String) (e : CompileError) : String :=
  String.join (e.leaves.map fun leaf => (Diagnostic.ofError leaf).render file source)

end MiniC.Report
