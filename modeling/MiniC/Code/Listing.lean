import MiniC.Code.Inst
import MiniC.Text.Quoted
/-!
Listings of code. One instruction is one line, without the line's end.
-/
namespace MiniC.Code

def Temp.render (t : Temp) : String := s!"t{t}"

def Operand.render : Operand → String
  | .temp t => t.render
  | .const n => toString n.toInt
  | .data label => "&" ++ label

def widthName (a : Access) : String :=
  let letter := if a.signed then "i" else "u"
  s!"{letter}{a.size * 8}"

namespace Inst

def render : Inst → String
  | label name => name ++ ":"
  | copy dst src => s!"  {dst.render} = {src.render}"
  | unary dst op src => s!"  {dst.render} = {op.symbol}{src.render}"
  | binary dst op left right => s!"  {dst.render} = {left.render} {op.symbol} {right.render}"
  | cast dst src access => s!"  {dst.render} = cast.{widthName access} {src.render}"
  | load dst base offset access =>
    s!"  {dst.render} = load.{widthName access} [{base.render} + {offset.toInt}]"
  | store base offset src size =>
    s!"  store.{size * 8} [{base.render} + {offset.toInt}], {src.render}"
  | jump target => s!"  jump {target}"
  | branchIf cond target => s!"  if {cond.render} goto {target}"
  | branchUnless cond target => s!"  ifnot {cond.render} goto {target}"
  | call dst callee args =>
    let list := ", ".intercalate (args.map Operand.render)
    match dst with
    | some dst => s!"  {dst.render} = call {callee}({list})"
    | none => s!"  call {callee}({list})"
  | ret (some value) => s!"  return {value.render}"
  | ret none => "  return"
  | alloca dst size align => s!"  {dst.render} = alloca {size}, align {align}"
  | addressOf dst name => s!"  {dst.render} = &{name}"
  | param dst index => s!"  {dst.render} = param #{index}"
  | comment text => "  ; " ++ text

end Inst

def Function.render (f : Function) : String :=
  let params := ", ".intercalate (f.params.map (·.name))
  s!"function {f.name}({params}):\n" ++ String.join (f.body.map fun i => i.render ++ "\n")

def byteHex (b : UInt8) : String :=
  String.ofList [Nat.digitChar (b.toNat / 16), Nat.digitChar (b.toNat % 16)]

def Global.render (g : Global) : String :=
  let image := match g.image with
    | none => ""
    | some bytes => " = [" ++ " ".intercalate (bytes.map byteHex) ++ "]"
  s!"global {g.name}: size {g.size}, align {g.align}{image}\n"

def Datum.render (d : Datum) : String :=
  s!"{d.label}: \"{Text.escaped d.text}\"\n"

def Module.render (m : Module) : String :=
  String.join (m.globals.map Global.render) ++ String.join (m.data.map Datum.render)
    ++ String.join (m.functions.map fun f => "\n" ++ f.render)

end MiniC.Code
