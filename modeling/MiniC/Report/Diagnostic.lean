import MiniC.CompileError
/-!
Errors as they are shown to a reader: a title, and labels on the source text. An error that has no
place in the source has no labels.
-/
namespace MiniC.Report

/-- A mark on a range of the source. The primary one says where the error is. -/
structure Label where
  primary : Bool
  span : Span
  message : String
  deriving DecidableEq, Repr, Inhabited

structure Diagnostic where
  code : Option String
  title : String
  labels : List Label
  deriving DecidableEq, Repr, Inhabited

namespace Diagnostic

def labelled (title message : String) (span : Span) : Diagnostic :=
  ⟨none, title, [⟨true, span, message⟩]⟩

def previousMember : LayoutError → List Label
  | .duplicateMember _ _ previous => [⟨false, previous, "previous declaration is here"⟩]
  | _ => []

/-- The diagnostic of a single error. -/
def ofError : CompileError → Diagnostic
  | .lexer message span => labelled "Lexer error" message span
  | .parser message span => labelled "Syntax error" message span
  | .semantic message span => labelled "Semantic error" message span
  | .type message span => labelled "Type error" message span
  | .layout e => ⟨some e.code, e.message, ⟨true, e.span, ""⟩ :: previousMember e⟩
  | e => ⟨none, e.message, []⟩

def header (d : Diagnostic) : String :=
  let code := match d.code with
    | some code => s!"[{code}]"
    | none => ""
  s!"error{code}: {d.title}\n"

end Diagnostic
end MiniC.Report
