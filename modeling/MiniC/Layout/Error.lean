import MiniC.Source.Span
/-!
What can be wrong with a type or with a path into one. The layout engine knows no source ranges, so
its errors start out nowhere and `place` gives them the range of the offending construct.
-/
namespace MiniC

inductive LayoutError where
  | duplicateMember (name : String) (span previous : Span)
  | unknownMember (member type : String) (span : Span)
  | notAStruct (type : String) (span : Span)
  | indexOnNonArray (type : String) (span : Span)
  | typeTooDeep (limit : Nat) (span : Span)
  | typeTooLarge (span : Span)
  deriving DecidableEq, Repr, Inhabited

namespace LayoutError

def code : LayoutError → String
  | duplicateMember .. => "E0101"
  | unknownMember .. => "E0102"
  | notAStruct .. => "E0103"
  | indexOnNonArray .. => "E0104"
  | typeTooDeep .. => "E0105"
  | typeTooLarge .. => "E0106"

def message : LayoutError → String
  | duplicateMember name _ _ => s!"duplicate member '{name}'"
  | unknownMember member type _ => s!"no member named '{member}' in '{type}'"
  | notAStruct type _ => s!"member reference base type '{type}' is not a struct"
  | indexOnNonArray type _ => s!"subscripted value of type '{type}' is not an array or pointer"
  | typeTooDeep limit _ => s!"type nesting exceeds the limit of {limit} levels"
  | typeTooLarge _ => "type size overflows the address space"

def span : LayoutError → Span
  | duplicateMember _ span _ => span
  | unknownMember _ _ span => span
  | notAStruct _ span => span
  | indexOnNonArray _ span => span
  | typeTooDeep _ span => span
  | typeTooLarge span => span

def withSpan (s : Span) : LayoutError → LayoutError
  | duplicateMember name _ previous => duplicateMember name s previous
  | unknownMember member type _ => unknownMember member type s
  | notAStruct type _ => notAStruct type s
  | indexOnNonArray type _ => indexOnNonArray type s
  | typeTooDeep limit _ => typeTooDeep limit s
  | typeTooLarge _ => typeTooLarge s

/-- A range that is already known stays. -/
def place (e : LayoutError) (s : Span) : LayoutError :=
  if e.span = Span.nowhere then e.withSpan s else e

@[simp] theorem span_withSpan (s : Span) (e : LayoutError) : (e.withSpan s).span = s := by
  cases e <;> rfl

theorem span_place (e : LayoutError) (s : Span) :
    (e.place s).span = if e.span = Span.nowhere then s else e.span := by
  unfold place; split <;> simp

end LayoutError
end MiniC
