/-!
Indented outlines of trees: every part of a group stands on a line of its own and ends with a comma.
-/
namespace MiniC.Text

inductive Outline where
  | atom (text : String)
  | labelled (label : String) (value : Outline)
  | group (opening closing : String) (parts : List Outline)
  deriving Repr, Inhabited

namespace Outline

def unit : String := "    "

mutual

/-- Appends an outline to a text that has reached column `pad`. -/
def write (pad out : String) : Outline → String
  | atom text => out ++ text
  | labelled label value => value.write pad (out ++ label ++ ": ")
  | group opening closing parts =>
    if parts.isEmpty then out ++ opening ++ closing
    else writeParts (pad ++ unit) (out ++ opening ++ "\n") parts ++ pad ++ closing

def writeParts (pad out : String) : List Outline → String
  | [] => out
  | part :: parts => writeParts pad (part.write pad (out ++ pad) ++ ",\n") parts

end

def render (o : Outline) : String := o.write "" ""

def record (name : String) (fields : List (String × Outline)) : Outline :=
  group (name ++ " \x7b") "\x7d" (fields.map fun (label, value) => labelled label value)

def tuple (name : String) (parts : List Outline) : Outline := group (name ++ "(") ")" parts

def list (parts : List Outline) : Outline := group "[" "]" parts

def option : Option Outline → Outline
  | none => atom "None"
  | some o => tuple "Some" [o]

def bool (b : Bool) : Outline := atom (if b then "true" else "false")

def nat (n : Nat) : Outline := atom (toString n)

end Outline
end MiniC.Text
