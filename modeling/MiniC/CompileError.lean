import MiniC.Layout.Error
import MiniC.Machine.Fault
/-!
Everything that can stop a compilation or the run of its result. Several errors may be reported at
once; `leaves` lists the single ones in order.
-/
namespace MiniC

inductive CompileError where
  | lexer (message : String) (span : Span)
  | parser (message : String) (span : Span)
  | semantic (message : String) (span : Span)
  | type (message : String) (span : Span)
  | layout (error : LayoutError)
  | codegen (message : String)
  | runtime (fault : Machine.Fault)
  | multiple (errors : List CompileError)
  | io (message : String)
  deriving Repr, Inhabited

namespace CompileError

/-- A single error stands for itself. -/
def ofList : List CompileError → CompileError
  | [e] => e
  | es => multiple es

mutual

def leaves : CompileError → List CompileError
  | multiple es => leavesAll es
  | e => [e]

def leavesAll : List CompileError → List CompileError
  | [] => []
  | e :: es => e.leaves ++ leavesAll es

end

/-- The text of an error; of several, their number and the text of the first. -/
def message : CompileError → String
  | lexer text span => s!"Lexer error at {span.describe}: {text}"
  | parser text span => s!"Parser error at {span.describe}: {text}"
  | semantic text span => s!"Semantic error at {span.describe}: {text}"
  | type text span => s!"Type error at {span.describe}: {text}"
  | layout e => s!"Layout error [{e.code}] at {e.span.describe}: {e.message}"
  | codegen text => s!"Code generation error: {text}"
  | runtime fault => s!"Runtime error: {fault.message}"
  | multiple [] => "0 errors; first: "
  | multiple (e :: es) => s!"{es.length + 1} errors; first: {e.message}"
  | io text => s!"IO error: {text}"

end CompileError
end MiniC
