import MiniC.Layout.Registry
/-!
Names in scope. Ordinary names and struct tags are separate; within one frame a name is defined
once, and an inner frame hides the frames around it.
-/
namespace MiniC

/-- A function's parameters, whether it takes more, whether its body was seen, and whether the
machine provides it. -/
structure Signature where
  params : List TypeId
  variadic : Bool
  defined : Bool
  builtin : Bool
  deriving DecidableEq, Repr, Inhabited

/-- Two declarations may name the same function. -/
def Signature.compatible (a b : Signature) : Bool :=
  a.params == b.params && a.variadic == b.variadic

inductive SymbolKind where
  | variable (isGlobal : Bool)
  | parameter
  | function (sig : Signature)
  deriving DecidableEq, Repr, Inhabited

/-- The type of a function symbol is its return type. -/
structure Symbol where
  name : String
  kind : SymbolKind
  ty : TypeId
  span : Span
  deriving DecidableEq, Repr, Inhabited

structure StructTag where
  name : String
  ty : TypeId
  span : Span
  deriving DecidableEq, Repr, Inhabited

structure ScopeFrame where
  symbols : List Symbol
  tags : List StructTag
  deriving DecidableEq, Repr, Inhabited

namespace ScopeFrame

def empty : ScopeFrame := ⟨[], []⟩

def symbol? (f : ScopeFrame) (name : String) : Option Symbol := f.symbols.find? (·.name == name)

def tag? (f : ScopeFrame) (name : String) : Option StructTag := f.tags.find? (·.name == name)

/-- A later entry hides an earlier one of the same name. -/
def put (f : ScopeFrame) (s : Symbol) : ScopeFrame := { f with symbols := s :: f.symbols }

def putTag (f : ScopeFrame) (t : StructTag) : ScopeFrame := { f with tags := t :: f.tags }

@[simp] theorem symbol?_put (f : ScopeFrame) (s : Symbol) (name : String) :
    (f.put s).symbol? name = if s.name = name then some s else f.symbol? name := by
  by_cases h : s.name = name <;> simp [put, symbol?, h]

@[simp] theorem tag?_putTag (f : ScopeFrame) (t : StructTag) (name : String) :
    (f.putTag t).tag? name = if t.name = name then some t else f.tag? name := by
  by_cases h : t.name = name <;> simp [putTag, tag?, h]

end ScopeFrame

/-- The innermost frame and the frames around it. -/
structure Scope where
  inner : ScopeFrame
  outer : List ScopeFrame
  deriving DecidableEq, Repr, Inhabited

/-- The text says what was defined twice. -/
inductive ScopeError where
  | redefinedName (name : String)
  | redefinedTag (name : String)
  deriving DecidableEq, Repr, Inhabited

def ScopeError.message : ScopeError → String
  | redefinedName name => s!"redefinition of '{name}'"
  | redefinedTag name => s!"redefinition of 'struct {name}'"

namespace Scope

def empty : Scope := ⟨ScopeFrame.empty, []⟩

def isGlobal (s : Scope) : Bool := s.outer.isEmpty

def push (s : Scope) : Scope := ⟨ScopeFrame.empty, s.inner :: s.outer⟩

/-- The scope around the innermost frame, if there is one. -/
def pop? (s : Scope) : Option Scope :=
  match s.outer with
  | [] => none
  | f :: fs => some ⟨f, fs⟩

/-- Leaves the innermost frame; the global one stays. -/
def pop (s : Scope) : Scope := s.pop?.getD s

def replace (s : Scope) (symbol : Symbol) : Scope := { s with inner := s.inner.put symbol }

def define (s : Scope) (symbol : Symbol) : Except ScopeError Scope :=
  match s.inner.symbol? symbol.name with
  | some _ => .error (.redefinedName symbol.name)
  | none => .ok (s.replace symbol)

def defineTag (s : Scope) (tag : StructTag) : Except ScopeError Scope :=
  match s.inner.tag? tag.name with
  | some _ => .error (.redefinedTag tag.name)
  | none => .ok { s with inner := s.inner.putTag tag }

def local? (s : Scope) (name : String) : Option Symbol := s.inner.symbol? name

def lookup (s : Scope) (name : String) : Option Symbol :=
  (s.inner :: s.outer).findSome? (·.symbol? name)

def lookupTag (s : Scope) (name : String) : Option TypeId :=
  ((s.inner :: s.outer).findSome? (·.tag? name)).map (·.ty)

@[simp] theorem pop_push (s : Scope) : s.push.pop = s := rfl

theorem lookup_push (s : Scope) (name : String) : s.push.lookup name = s.lookup name := by
  simp [lookup, push, ScopeFrame.symbol?, ScopeFrame.empty, List.findSome?_cons]

end Scope
end MiniC
