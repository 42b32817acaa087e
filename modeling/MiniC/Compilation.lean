import MiniC.Code.Optimize
import MiniC.Lowering.Unit
import MiniC.Machine.Run
import MiniC.Source.Language
import MiniC.Syntax.Parser.Grammar
import MiniC.Typing.Analysis
/-!
From source text to code, and to the result of running it. The first stage that fails decides the
error; analysis reports all it found.
-/
namespace MiniC

structure Settings where
  layout : Layout.Config
  /-- Zero keeps the code as it was lowered. -/
  level : Nat
  deriving DecidableEq, Repr, Inhabited

/-- Code, and the types that it was made with. -/
structure Compilation where
  code : Code.Module
  registry : Registry

def languageOf (file : String) : Except CompileError Language :=
  match Language.ofFile? file with
  | some language => .ok language
  | none => .error (.codegen s!"no frontend found for file: {file}")

def tokensOf (source : String) : Except CompileError (List Token) :=
  (Lexer.tokens source).mapError fun e => (Syntax.ParseError.lexical e).toCompileError

def parse (source : String) : Except CompileError Syntax.CompilationUnit :=
  (Syntax.CompilationUnit.parse source).mapError Syntax.ParseError.toCompileError

/-- The annotated tree with its types, if nothing is wrong with it. -/
def check (layout : Layout.Config) (u : Syntax.CompilationUnit) :
    Except CompileError (Syntax.CompilationUnit × Registry) :=
  let analyzed := Typing.analyze layout u
  match analyzed.failure? with
  | some e => .error e
  | none => .ok (analyzed.tree, analyzed.registry)

namespace Compilation

def ofSource (s : Settings) (source file : String) : Except CompileError Compilation := do
  let _ ← languageOf file
  let parsed ← parse source
  let (tree, registry) ← check s.layout parsed
  let code ← (Lowering.lower registry tree).mapError LoweringError.toCompileError
  return ⟨code.optimize s.level, registry⟩

/-- The layouts of all structs, in order of declaration. -/
def layouts (c : Compilation) : String := String.join c.registry.describeStructs

def entry : String := "main"

/-- The result of the entry function on a fresh machine. -/
def run (c : Compilation) (limits : Machine.Limits) : Except CompileError Int64 :=
  match Machine.load c.code limits with
  | .error fault => .error (.runtime fault)
  | .ok loaded => (loaded.call entry []).1.mapError .runtime

end Compilation

def runSource (s : Settings) (limits : Machine.Limits) (source file : String) :
    Except CompileError Int64 := do
  (← Compilation.ofSource s source file).run limits

end MiniC
