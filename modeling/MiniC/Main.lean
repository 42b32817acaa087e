import MiniC.Code.Listing
import MiniC.Options
import MiniC.Report.Snippet
import MiniC.Syntax.Dump
/-!
The command line tool: compiles one file, writes what was asked for, and runs the result.
-/
namespace MiniC

/-- A dump between two headings, on the error stream. -/
def dump (title text : String) : IO Unit := do
  IO.eprintln s!"=== {title} ==="
  IO.eprint text
  IO.eprintln s!"=== End {title} ===\n"

def dumpInput (o : Options) (source : String) : ExceptT CompileError IO Unit := do
  if o.dumpTokens then
    let tokens ← tokensOf source
    dump "C Tokens" (String.join (tokens.map fun t => t.dump ++ "\n"))
  if o.dumpTree then
    dump "C AST" ((← parse source).dump ++ "\n")

/-- Says what could not be done when a file is the reason. -/
def attempt (what file : String) (act : IO α) : IO α := do
  try act catch e => throw (IO.userError s!"cannot {what} {file}: {e}")

def writeResults (o : Options) (c : Compilation) : IO Unit := do
  if o.dumpLayout then IO.print c.layouts
  if o.dumpCode then dump "IR" (c.code.render ++ "\n")
  if let some path := o.output then
    attempt "write" path (IO.FS.writeFile path c.code.render)

/-- The exit code is the low word of the result, if the program is run. -/
def process (o : Options) (source file : String) : ExceptT CompileError IO UInt32 := do
  let _ ← languageOf file
  dumpInput o source
  let c ← Compilation.ofSource o.settings source file
  writeResults o c
  if o.run then
    let result ← c.run {}
    return result.toUInt64.toUInt32
  return 0

def compileFile (o : Options) (file : String) : IO UInt32 := do
  let source ← attempt "read" file (IO.FS.readFile file)
  match ← (process o source file).run with
  | .ok code => return code
  | .error e =>
    IO.eprint (Report.render file source e)
    return 1

end MiniC

def main (args : List String) : IO UInt32 := do
  match MiniC.Options.parse args with
  | .error e =>
    IO.eprintln s!"error: {e.message}"
    return 2
  | .ok o =>
    try MiniC.compileFile o (o.input.getD "")
    catch e =>
      IO.eprintln s!"error: {e}"
      return 1
