/-!
The language of a file, by the extension of its name. A name without an extension is taken for C.
-/
namespace MiniC

namespace FileName

/-- The parts of a path, the last one first. A trailing separator or "." names nothing. -/
def parts (path : String) : List (List Char) :=
  ((path.toList.splitOn '/').reverse).dropWhile fun p => p == [] || p == ['.']

/-- What follows the last dot of the last part, unless that dot begins the part. -/
def extension? (path : String) : Option String :=
  match parts path with
  | [] | ['.', '.'] :: _ => none
  | part :: _ =>
    let after := part.reverse.takeWhile (· != '.')
    if after.length + 1 < part.length then some (String.ofList after.reverse) else none

end FileName

structure Language where
  name : String
  extensions : List String
  deriving DecidableEq, Repr, Inhabited

namespace Language

def c : Language := ⟨"c", [".c", ".h"]⟩

def all : List Language := [c]

def ofFile? (path : String) : Option Language :=
  match FileName.extension? path with
  | none => some c
  | some ext => all.find? (·.extensions.contains ("." ++ ext))

end Language
end MiniC
