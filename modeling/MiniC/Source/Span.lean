/-!
Byte ranges of a source text. `Span.cover` joins two ranges, and the empty range at zero stands for
"no place known yet".
-/
namespace MiniC

structure Span where
  start : Nat
  stop : Nat
  deriving DecidableEq, Repr, Inhabited

namespace Span

/-- The range of a thing that has not been placed in a source. -/
def nowhere : Span := ⟨0, 0⟩

/-- The smallest range that holds both. -/
def cover (a b : Span) : Span :=
  ⟨min a.start b.start, max a.stop b.stop⟩

def describe (s : Span) : String :=
  s!"Span \x7b start: {s.start}, end: {s.stop} \x7d"

theorem cover_start_le (a b : Span) : (a.cover b).start ≤ a.start ∧ (a.cover b).start ≤ b.start :=
  ⟨Nat.min_le_left _ _, Nat.min_le_right _ _⟩

theorem le_cover_stop (a b : Span) : a.stop ≤ (a.cover b).stop ∧ b.stop ≤ (a.cover b).stop :=
  ⟨Nat.le_max_left _ _, Nat.le_max_right _ _⟩

end Span
end MiniC
