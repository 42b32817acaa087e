import MiniC.Code.Fold
import MiniC.Code.Prune
/-!
Optimization: the passes are run over each function in turn until a round changes nothing or the
round limit is met. Level zero leaves the code as it was lowered.
-/
namespace MiniC.Code

inductive Pass where
  | fold
  | prune
  deriving DecidableEq, Repr, Inhabited

namespace Pass

def name : Pass → String
  | fold => "constant-folding"
  | prune => "dead-code-elimination"

def body : Pass → List Inst → List Inst × Bool
  | fold, b => Fold.body b
  | prune, b => Prune.body b

def run (p : Pass) (f : Function) : Function × Bool :=
  let (b, changed) := p.body f.body
  ({ f with body := b }, changed)

/-- Runs every pass once. -/
def round : List Pass → Function → Function × Bool
  | [], f => (f, false)
  | p :: ps, f =>
    let (f, changed) := p.run f
    let (f, more) := round ps f
    (f, changed || more)

def maxRounds : Nat := 16

def rounds (ps : List Pass) : (limit : Nat) → Function → Function
  | 0, f => f
  | limit + 1, f =>
    let (f, changed) := round ps f
    if changed then rounds ps limit f else f

def ofLevel (level : Nat) : List Pass := if level = 0 then [] else [fold, prune]

end Pass

def Module.optimize (level : Nat) (m : Module) : Module :=
  m.mapFunctions (Pass.rounds (Pass.ofLevel level) Pass.maxRounds)

end MiniC.Code
