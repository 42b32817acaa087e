import MiniC.Compilation
/-!
The command line. An option is written in full after two dashes, or as one letter after one dash;
its value follows in the same argument or in the next one.
-/
namespace MiniC

structure Options where
  input : Option String := none
  output : Option String := none
  model : DataModel := .lp64
  maxDepth : Nat := Layout.defaultMaxDepth
  level : Nat := 0
  dumpTokens : Bool := false
  dumpTree : Bool := false
  dumpCode : Bool := false
  dumpLayout : Bool := false
  run : Bool := false
  verbose : Bool := false
  quiet : Bool := false
  deriving Repr, Inhabited

inductive UsageError where
  | unknown (option : String)
  | missingValue (option : String)
  | invalidValue (option value : String)
  | unexpected (argument : String)
  | noInput
  | verboseAndQuiet
  deriving DecidableEq, Repr, Inhabited

def UsageError.message : UsageError → String
  | unknown option => s!"unexpected option '{option}'"
  | missingValue option => s!"a value is required for '{option}'"
  | invalidValue option value => s!"invalid value '{value}' for '{option}'"
  | unexpected argument => s!"unexpected argument '{argument}'"
  | noInput => "an input file is required"
  | verboseAndQuiet => "'--quiet' cannot be used with '--verbose'"

namespace Options

/-- Options without a value. -/
def flag? (name : String) (o : Options) : Option Options :=
  match name with
  | "--dump-tokens" => some { o with dumpTokens := true }
  | "--dump-ast" => some { o with dumpTree := true }
  | "--dump-ir" => some { o with dumpCode := true }
  | "--dump-layout" => some { o with dumpLayout := true }
  | "--run" => some { o with run := true }
  | "--verbose" | "-v" => some { o with verbose := true }
  | "--quiet" | "-q" => some { o with quiet := true }
  | _ => none

def takesValue (name : String) : Bool :=
  ["--output", "-o", "--target", "-t", "--max-type-depth", "--optimize", "-O"].contains name

def number (name value : String) (limit : Nat) : Except UsageError Nat :=
  match value.toNat? with
  | some n => if n < limit then .ok n else .error (.invalidValue name value)
  | none => .error (.invalidValue name value)

def withValue (name value : String) (o : Options) : Except UsageError Options :=
  match name with
  | "--output" | "-o" => .ok { o with output := some value }
  | "--target" | "-t" =>
    match value with
    | "lp64" => .ok { o with model := .lp64 }
    | "m68k" => .ok { o with model := .m68k }
    | _ => .error (.invalidValue name value)
  | "--max-type-depth" =>
    (number name value Layout.addressSpace).map fun n => { o with maxDepth := n }
  | "--optimize" | "-O" => (number name value 256).map fun n => { o with level := n }
  | _ => .error (.unknown name)

/-- The name of an option, and the value that is attached to it. -/
def attached (arg : String) : String × Option String :=
  if arg.startsWith "--" then
    match arg.splitOn "=" with
    | name :: value :: rest => (name, some ("=".intercalate (value :: rest)))
    | _ => (arg, none)
  else
    let name := String.ofList (arg.toList.take 2)
    match arg.toList.drop 2 with
    | [] => (name, none)
    | '=' :: value => (name, some (String.ofList value))
    | value => (name, some (String.ofList value))

def positional (arg : String) (o : Options) : Except UsageError Options :=
  match o.input with
  | none => .ok { o with input := some arg }
  | some _ => .error (.unexpected arg)

def isOption (arg : String) : Bool := arg.startsWith "-" && arg != "-"

/-- Letters that share one dash. -/
def flags (o : Options) : List Char → Except UsageError Options
  | [] => .ok o
  | c :: cs =>
    match flag? (String.ofList ['-', c]) o with
    | some o => flags o cs
    | none => .error (.unknown (String.ofList ['-', c]))

def option (arg : String) (o : Options) : Except UsageError Options :=
  match flag? arg o with
  | some o => .ok o
  | none =>
    if arg.startsWith "--" then .error (.unknown arg) else flags o (arg.toList.drop 1)

/-- One argument. Without a value of its own an option that needs one leaves its name behind. -/
def argument (arg : String) (o : Options) : Except UsageError (Options × Option String) := do
  if !isOption arg then return (← positional arg o, none)
  match attached arg with
  | (name, value) =>
    if !takesValue name then return (← option arg o, none)
    match value with
    | some value => return (← withValue name value o, none)
    | none => return (o, some name)

/-- Reads arguments; `pending` is the option whose value comes next. -/
def read (o : Options) (pending : Option String) : List String → Except UsageError Options
  | [] =>
    match pending with
    | none => .ok o
    | some name => .error (.missingValue name)
  | arg :: rest => do
    match pending with
    | some name => read (← withValue name arg o) none rest
    | none =>
      let (o, pending) ← argument arg o
      read o pending rest

def parse (args : List String) : Except UsageError Options := do
  let o ← read {} none args
  if o.input.isNone then throw .noInput
  if o.verbose && o.quiet then throw .verboseAndQuiet
  return o

def settings (o : Options) : Settings :=
  ⟨({ model := o.model } : Layout.Config).withMaxDepth o.maxDepth, o.level⟩

end Options
end MiniC
