import MiniC.Proofs.Compilation.Addresses
import MiniC.Proofs.Compilation.Ranges
import MiniC.Proofs.Layout.Calls
import MiniC.Proofs.Machine.Loading
import MiniC.Proofs.Simulation.Parameters
/-!
Structs that are copied, and passed. Main statement: a copy moves exactly the members; so a call works on a
copy of the struct that it was passed, and what it stores there never gets to that struct, if this is an
object that is there when the call begins.
-/
namespace MiniC

open Code (Function Inst Temp)
open Evaluation (Program Room)
open Lowering (Crosses Hosts Lies bind_eq_ok map_eq_ok pure_eq_ok slot?)
open Machine (Activation Frame Homed Loaded Overflows Poised Reaches Reserves Routine Separate Transfers next
  visited)
open Registry (Reachable)
open Simulation (Housed Lends Receives Stand)
open Syntax (BinaryOp CompilationUnit Expr ExprKind)
open Typing (HasType Node)

/-- The variable of which an expression names the whole, or a member of a member. -/
def Syntax.Expr.variable? : Expr → Option (String × TypeId)
  | ⟨.name name, _, ty⟩ => ty.map (name, ·)
  | ⟨.member object _ _, _, _⟩ => object.variable?
  | _ => none

/-- What an expression stores to. -/
def Syntax.ExprKind.target? : ExprKind → Option Expr
  | .assign _ target _ => some target
  | .step operand _ _ => some operand
  | _ => none

namespace Lowering

/-- The code from `s₂` to `s₃` stores to what the lvalue `e` names, whose place was found at `s`. -/
inductive Writes (c : Context) (e : Expr) (s s₂ s₃ : State) : Prop where
  | scalar {place : Place} {s₁ : State} {v : Code.Operand}
      (found : placeOf e (expr c e) s = .ok (place, s₁))
      (stored : place.store c.registry v s₂ = .ok ((), s₃))
  | whole {place source : Place} {s₁ : State} (found : placeOf e (expr c e) s = .ok (place, s₁))
      (copied : place.copy c.registry source s₂ = .ok ((), s₃))

section Paths

variable {E : Typing.Env} {c : Context} {s s' s₂ s₃ : State} {e : Expr} {ty T : TypeId} {x : String} {t : Temp}

theorem expr_name {name : String} {span : Span} (ht : slot? s.slots name = some t) :
    expr c ⟨.name name, span, some ty⟩ s = .ok (.place ⟨.temp t, 0, ty⟩, s) := by
  rw [expr, exprKind]
  refine bind_eq_ok.mpr ⟨.temp t, s, ?_, rfl⟩
  show (variableAddress name) s = _
  unfold variableAddress
  refine bind_eq_ok.mpr ⟨s, s, rfl, ?_⟩
  simp only [ht]
  rfl

/-- A path of members is a place inside the variable's storage, for which there is no code. -/
theorem place_of_variable (hc : E.registry.Consistent) (ht : slot? s.slots x = some t) {C : Typing.Site}
    (he : HasType E C e ty) (hvariable : e.variable? = some (x, T)) :
    ∃ o, expr c e s = .ok (.place ⟨.temp t, Int64.ofNat o, ty⟩, s) ∧
      o + E.registry.sizeOf ty ≤ E.registry.sizeOf T := by
  fun_induction Expr.variable? e generalizing ty with
  | case1 name span annotation =>
    obtain rfl : annotation = some ty := he.ty_eq
    cases hvariable
    exact ⟨0, expr_name ht, by rw [Nat.zero_add]⟩
  | case2 object field resolved span annotation ih =>
    cases he with
    | @member _ _ _ _ o m hobject hmember =>
      obtain ⟨k, hplace, hinside⟩ := ih hobject hvariable
      obtain ⟨-, hfits⟩ := hc.inside_of_member hmember
      refine ⟨k + m.offset, ?_, by omega⟩
      rw [expr, exprKind]
      refine bind_eq_ok.mpr ⟨m, s, rfl, map_eq_ok.mpr ⟨⟨.temp t, Int64.ofNat (k + m.offset), m.ty⟩, ?_, rfl⟩⟩
      refine bind_eq_ok.mpr ⟨_, s, hplace, ?_⟩
      rw [Int64.ofNat_add]
      rfl
  | case3 => cases hvariable

/-- An instruction that stores, if at all, inside the object of so many bytes whose address is in a
temporary. -/
inductive Confined (t : Temp) (size : Nat) : Inst → Prop
  | load (dst : Temp) (base : Code.Operand) (offset : Int64) (access : Access) :
      Confined t size (.load dst base offset access)
  | store {offset width : Nat} (inside : offset + width ≤ size) (v : Code.Operand) :
      Confined t size (.store (.temp t) (Int64.ofNat offset) v width)

/-- The code from one state to another consists of such instructions. -/
def Confines (t : Temp) (size : Nat) (s s' : State) : Prop :=
  ∃ new, s'.code.toList = s.code.toList ++ new ∧ ∀ i ∈ new, Confined t size i

theorem confines_copyMoves {o size : Nat} {source : Place} {ms : List ScalarMove}
    (hs : Place.copyMoves ⟨.temp t, Int64.ofNat o, ty⟩ source ms s = .ok ((), s'))
    (hms : ∀ move ∈ ms, o + (move.offset + move.access.size) ≤ size) : Confines t size s s' := by
  induction ms generalizing s with
  | nil =>
    obtain ⟨-, rfl⟩ := pure_eq_ok.mp hs
    exact ⟨[], (List.append_nil _).symm, nofun⟩
  | cons move ms ih =>
    obtain ⟨v, s₁, hload, hs⟩ := bind_eq_ok.mp hs
    obtain ⟨⟨⟩, s₂, hstore, hs⟩ := bind_eq_ok.mp hs
    obtain ⟨hmove, hms⟩ := List.forall_mem_cons.mp hms
    obtain ⟨new, hcode, hnew⟩ := ih hs hms
    cases hload
    obtain rfl := emit_eq_ok.mp hstore
    refine ⟨.load s.temps source.base (source.offset + Int64.ofNat move.offset) move.access ::
      .store (.temp t) (Int64.ofNat (o + move.offset)) (.temp s.temps) move.access.size :: new, ?_, ?_⟩
    · simp [hcode, Int64.ofNat_add]
    · exact List.forall_mem_cons.mpr ⟨.load .., List.forall_mem_cons.mpr ⟨.store (by omega) _, hnew⟩⟩

/-- What stores to a variable or a member stores inside the variable. -/
theorem Writes.confines (h : Writes c e s s₂ s₃) (hregistry : c.registry = E.registry)
    (hc : E.registry.Consistent) (ht : slot? s.slots x = some t) {C : Typing.Site} (he : HasType E C e ty)
    (hvariable : e.variable? = some (x, T)) : Confines t (E.registry.sizeOf T) s₂ s₃ := by
  obtain ⟨o, hplace, hinside⟩ := place_of_variable (c := c) hc ht he hvariable
  have hfound {place : Place} {s₁ : State} (hfound : placeOf e (expr c e) s = .ok (place, s₁)) :
      place = ⟨.temp t, Int64.ofNat o, ty⟩ := by
    obtain ⟨l, s', hl, hfound⟩ := bind_eq_ok.mp hfound
    rw [hplace] at hl
    cases hl
    exact (pure_eq_ok.mp hfound).1.symm
  cases h with
  | scalar found stored =>
    obtain rfl := hfound found
    rw [hregistry] at stored
    obtain ⟨access, s₁, hneed, hemit⟩ := bind_eq_ok.mp stored
    obtain ⟨haccess, rfl⟩ := need_eq_ok.mp hneed
    obtain rfl := emit_eq_ok.mp hemit
    have hsize : access.size = E.registry.sizeOf ty := (hc.access_size haccess).1
    refine ⟨[_], Array.toList_push, fun i hi => ?_⟩
    obtain rfl := List.mem_singleton.mp hi
    exact .store (by omega) _
  | whole found copied =>
    obtain rfl := hfound found
    rw [hregistry] at copied
    refine confines_copyMoves copied fun move hmove => ?_
    have hlt := hc.move_inside ty hmove
    omega

/-- Every assignment and every step has such a part. -/
theorem exists_writes {kind : ExprKind} {span : Span} {l : Lowered}
    (h : expr c ⟨kind, span, some ty⟩ s = .ok (l, s')) (htarget : kind.target? = some e) :
    ∃ s₁ s₂ s₃, s₁.slots = s.slots ∧ Writes c e s₁ s₂ s₃ ∧ s.code.toList <+: s₂.code.toList ∧
      s₃.code.toList <+: s'.code.toList := by
  rw [expr] at h
  cases kind with
  | assign op target source =>
    obtain rfl := Option.some.inj htarget
    have hplaces : Grows id _ := grows_placeOf target (grows_expr c target)
    have hvalues : Grows id _ := grows_valueOf c.registry (grows_expr c source)
    rw [exprKind.eq_def] at h
    by_cases hstruct : c.registry.isStruct ty = true
    · simp only [hstruct, if_true] at h
      obtain ⟨v, h, -⟩ := map_eq_ok.mp h
      obtain ⟨v, s₁, hvalue, h⟩ := bind_eq_ok.mp h
      obtain ⟨place, s₂, hplace, h⟩ := bind_eq_ok.mp h
      obtain ⟨⟨⟩, s₃, hcopy, h⟩ := bind_eq_ok.mp h
      have hfirst := Grows.extends_of hvalues hvalue
      exact ⟨s₁, s₂, s₃, hfirst.slots, .whole hplace hcopy,
        hfirst.code.trans (Grows.extends_of hplaces hplace).code,
        (Grows.extends_of (grows_address _) h).code⟩
    simp only [hstruct] at h
    cases op with
    | none =>
      obtain ⟨v, h, -⟩ := map_eq_ok.mp h
      obtain ⟨v, s₁, hvalue, h⟩ := bind_eq_ok.mp h
      obtain ⟨w, s₂, hconvert, h⟩ := bind_eq_ok.mp h
      obtain ⟨place, s₃, hplace, h⟩ := bind_eq_ok.mp h
      obtain ⟨⟨⟩, s₄, hstore, h⟩ := bind_eq_ok.mp h
      obtain ⟨-, rfl⟩ := pure_eq_ok.mp h
      have hfirst := (Grows.extends_of hvalues hvalue).trans
        (Grows.extends_of (grows_convert _ _ _) hconvert)
      exact ⟨s₂, s₃, s₄, hfirst.slots, .scalar hplace hstore,
        hfirst.code.trans (Grows.extends_of hplaces hplace).code, List.prefix_rfl⟩
    | some op =>
      obtain ⟨v, h, -⟩ := map_eq_ok.mp h
      obtain ⟨place, s₁, hplace, h⟩ := bind_eq_ok.mp h
      obtain ⟨old, s₂, hold, h⟩ := bind_eq_ok.mp h
      obtain ⟨v, s₃, hvalue, h⟩ := bind_eq_ok.mp h
      obtain ⟨t, s₄, htype, h⟩ := bind_eq_ok.mp h
      obtain ⟨w, s₅, hop, h⟩ := bind_eq_ok.mp h
      obtain ⟨⟨⟩, s₆, hstore, h⟩ := bind_eq_ok.mp h
      obtain ⟨-, rfl⟩ := pure_eq_ok.mp h
      obtain ⟨-, rfl⟩ := need_eq_ok.mp htype
      exact ⟨s, s₅, s₆, rfl, .scalar hplace hstore, (((Grows.extends_of hplaces hplace).code.trans
        (Grows.extends_of (grows_load _ _) hold).code).trans (Grows.extends_of hvalues hvalue).code).trans
        (Grows.extends_of (grows_arithmetic _ _ _ _ _ _ _) hop).code, List.prefix_rfl⟩
  | step operand decrement yieldsOld =>
    obtain rfl := Option.some.inj htarget
    rw [exprKind] at h
    obtain ⟨v, h, -⟩ := map_eq_ok.mp h
    obtain ⟨place, s₁, hplace, h⟩ := bind_eq_ok.mp h
    obtain ⟨old, s₂, hold, h⟩ := bind_eq_ok.mp h
    obtain ⟨new, s₃, hnew, h⟩ := bind_eq_ok.mp h
    obtain ⟨new', s₄, hconvert, h⟩ := bind_eq_ok.mp h
    obtain ⟨⟨⟩, s₅, hstore, h⟩ := bind_eq_ok.mp h
    obtain ⟨-, rfl⟩ := pure_eq_ok.mp h
    have hcode := (Grows.extends_of (grows_placeOf operand (grows_expr c operand)) hplace).code
    exact ⟨s, s₄, s₅, rfl, .scalar hplace hstore, ((hcode.trans
      (Grows.extends_of (grows_load _ _) hold).code).trans (Grows.extends_of (.define _) hnew).code).trans
      (Grows.extends_of (grows_convert _ _ _) hconvert).code, List.prefix_rfl⟩
  | _ => cases htarget

end Paths
end Lowering

namespace Machine

/-- No byte changes outside of the object. -/
theorem bytes_of_confined {p : Machine.Program} {r : Routine} {f g : Frame} {s u : State} {t : Temp}
    {start size j : Nat} {i : Inst} (hi : Lowering.Confined t size i) (hf : Homed t (Int64.ofNat start) f)
    (hwords : start + size ≤ Layout.maxObjectSize) (hn : next p r f s i = .go g u)
    (hj : j < start ∨ start + size ≤ j) : u.memory.bytes[j]? = s.memory.bytes[j]? := by
  cases hi with
  | load dst base offset access =>
    simp only [next, step] at hn
    unfold assign at hn
    split at hn
    · cases hn
    · cases hn
      rfl
  | @store offset width inside v =>
    have hbase : f.temps.getD t 0 + Int64.ofNat offset = Int64.ofNat (start + offset) := by
      rw [hf.temp, Int64.ofNat_add]
    simp only [next, step, storeTo, value_goto] at hn
    simp only [value, hbase] at hn
    split at hn
    · cases hn
    · rename_i w hw
      split at hn
      · cases hn
      · rename_i pos hpos
        cases hn
        have hword : start + offset ≤ Layout.maxObjectSize := by omega
        obtain ⟨rfl, -⟩ := locate_ofNat (Nat.lt_of_le_of_lt hword (by decide)) hpos
        show (s.memory.put (start + offset) width w).bytes[j]? = _
        rw [Memory.put, Bytes.writeWord_eq]
        refine Bytes.getElem?_writeList_of_outside ?_
        rw [Bytes.length_ofWord]
        omega

end Machine

namespace Lowering

section Functions

variable {r : Registry} {s s' : State} {g : Function}

/-- A function is made of the code that receives its parameters and of that of its body, which writes no
temporary of the former. -/
theorem entry_of_function {f : Syntax.FuncDecl} {body : Syntax.Block}
    (h : function r f body s = .ok (g, s')) :
    ∃ entry, receiveAll r 0 g.params { s with code := #[], temps := 0, slots := [[]] } = .ok ((), entry) ∧
      g.body = s'.code.toList ∧ g.temps = s'.temps ∧ Extends List.tail entry s' ∧
      ∃ new, s'.code.toList = entry.code.toList ++ new ∧
        ∀ i ∈ new, ∀ t, i.dst? = some t → entry.temps ≤ t := by
  obtain ⟨returns, s₁, hreturns, h⟩ := bind_eq_ok.mp h
  obtain ⟨qs, s₂, hparams, h⟩ := bind_eq_ok.mp h
  obtain ⟨⟨⟩, s₃, henter, h⟩ := bind_eq_ok.mp h
  obtain ⟨⟨⟩, entry, hreceive, h⟩ := bind_eq_ok.mp h
  obtain ⟨⟨⟩, s₅, hitems, h⟩ := bind_eq_ok.mp h
  obtain ⟨⟨⟩, s₆, hret, h⟩ := bind_eq_ok.mp h
  obtain ⟨s₇, _, hget, h⟩ := bind_eq_ok.mp h
  obtain ⟨rfl, rfl⟩ := pure_eq_ok.mp h
  cases hget
  cases henter
  obtain ⟨-, rfl⟩ := need_eq_ok.mp hreturns
  obtain ⟨-, rfl⟩ := lift_eq_ok.mp hparams
  have hbody : Spares ∅ (do
      blockItems ⟨r, returns, none, none⟩ body.items
      emit (.ret (fallthrough r returns))) :=
    ((nested_spares ∅).blockItems _ _).bind fun _ => .emit rfl
  obtain ⟨-, new, hcode, hnew⟩ := hbody _ _ _ (bind_eq_ok.mpr ⟨(), s₅, hitems, hret⟩)
  refine ⟨entry, hreceive, rfl, rfl, ?_, new, hcode, fun i hi t ht => ?_⟩
  · exact (grows_blockItems _ _ _ _ _ hitems).trans (Grows.emit _ _ _ _ hret)
  · exact ((hnew i hi t ht).resolve_left (Set.notMem_empty t)).1

theorem functions_of_topDecls {ds : List Syntax.TopDecl} {functions : List Function}
    {gs : List Code.Global} (h : topDecls r ds s = .ok ((functions, gs), s')) :
    s.data.toList <+: s'.data.toList ∧ ∀ g ∈ functions, ∃ f body s₁ s₂,
      function r f body s₁ = .ok (g, s₂) ∧ s₂.data.toList <+: s'.data.toList := by
  induction ds generalizing s functions gs with
  | nil =>
    rw [topDecls] at h
    obtain ⟨heq, rfl⟩ := pure_eq_ok.mp h
    cases heq
    exact ⟨List.prefix_rfl, List.forall_mem_nil _⟩
  | cons d ds ih =>
    cases d with
    | declaration d =>
      rw [topDecls] at h
      obtain ⟨here, s₁, hhere, h₁⟩ := bind_eq_ok.mp h
      obtain ⟨-, rfl⟩ := lift_eq_ok.mp hhere
      obtain ⟨⟨functions', later⟩, s₂, hlater, h₂⟩ := bind_eq_ok.mp h₁
      obtain ⟨heq, rfl⟩ := pure_eq_ok.mp h₂
      cases heq
      exact ih hlater
    | function f =>
      rw [topDecls] at h
      cases hbody : f.body with
      | none =>
        simp only [hbody] at h
        exact ih h
      | some body =>
        simp only [hbody] at h
        obtain ⟨here, s₁, hhere, h⟩ := bind_eq_ok.mp h
        obtain ⟨⟨functions', later⟩, s₂, hlater, h⟩ := bind_eq_ok.mp h
        obtain ⟨heq, rfl⟩ := pure_eq_ok.mp h
        cases heq
        obtain ⟨hdata, hrest⟩ := ih hlater
        obtain ⟨entry, hreceive, -, -, hextends, -⟩ := entry_of_function hhere
        have hreceived := (grows_receiveAll 0 here.params _ _ _ hreceive).data
        refine ⟨(hreceived.trans hextends.data).trans hdata, List.forall_mem_cons.mpr ⟨?_, hrest⟩⟩
        exact ⟨f, body, _, _, hhere, hdata⟩

end Functions
end Lowering

namespace Simulation

/-- The beginning of a function: each parameter has its slot, which nothing else is written to, and the
machine gets there unless the stack is full. -/
structure Begins (m : Code.Module) (r : Registry) (g : Function) (entry : Lowering.State) (ts : List Temp) :
    Prop extends Stand m g entry where
  slots : entry.slots = [((g.params.map (·.name)).zip ts).reverse]
  length : ts.length = g.params.length
  reserved : ∀ t ∈ ts, ∀ i ∈ g.body, Reserves t i
  enters : ∀ (p : Machine.Program) (args : List Int64) (s : Machine.State) (here : Nat → Nat),
    args.length = g.params.length → Poised s → Lends r g.params args here s →
    let ρ := Routine.ofFunction g
    Overflows p ρ (Frame.enter ρ args) s ∨ ∃ f n, Reaches p ρ (Frame.enter ρ args) s f n ∧
      f.pc = entry.code.size ∧ n.stack ≤ n.memory.size ∧ n.memory.size = s.memory.size ∧
      Receives r g.params ts here s f n

theorem exists_begins {r : Registry} (hc : r.Consistent) {tree : CompilationUnit} {code : Code.Module}
    (hcode : Lowering.lower r tree = .ok code) {g : Function} (hg : g ∈ code.functions) :
    ∃ entry ts, Begins code r g entry ts := by
  unfold Lowering.lower at hcode
  cases hrun : (Lowering.topDecls r tree.decls).run Lowering.State.initial with
  | error e => rw [hrun] at hcode; cases hcode
  | ok result =>
    rw [hrun] at hcode
    obtain ⟨⟨functions, gs⟩, s⟩ := result
    cases hcode
    obtain ⟨f, body, s₁, s₂, hfunction, hdata⟩ := (Lowering.functions_of_topDecls hrun).2 g hg
    obtain ⟨entry, hreceive, hbody, htemps, hextends, new, hnew, hwritten⟩ :=
      Lowering.entry_of_function hfunction
    obtain ⟨ts, hbound, -, hruns⟩ := enters_receiveAll hc hreceive
    refine ⟨entry, ts, ⟨hbody ▸ hextends.code, htemps ▸ hextends.temps, hextends.data.trans hdata⟩, ?_,
      hbound.length, ?_, ?_⟩
    · simpa using hbound.slots [] [] rfl
    · intro t ht i hi hdst
      obtain ⟨received, hreceived, hreserves⟩ := hbound.code
      rw [hbody, hnew, hreceived] at hi
      rcases List.mem_append.mp hi with hi | hi
      · exact (hreserves i (by simpa using hi)).2 t ht hdst
      · exact absurd (hbound.inside t ht).2 (hwritten i hi t hdst).not_gt
    · intro p args s here hlength hs hlends ρ
      have hhosts : Lowering.Hosts ρ (Frame.enter ρ args) entry := by
        refine ⟨by simpa [ρ, Routine.ofFunction, hbody] using hextends.code, ?_⟩
        simpa [ρ, Routine.ofFunction, Frame.enter, htemps] using hextends.temps
      rcases hruns (p := p) hhosts rfl (by simp [ρ, Frame.enter])
        (fun t _ => by
          simp only [ρ, Frame.enter, Array.getD_eq_getD_getElem?, Array.getElem?_replicate]
          split <;> rfl)
        (by rw [Nat.zero_add]; exact hlength) hs hlends with hfull | ⟨f, n, henters, hreceives⟩
      · exact .inl hfull
      · exact .inr ⟨f, n, henters.path, henters.pc, henters.fits, henters.size, hreceives⟩

/-- Wherever the activation that goes on from there comes to the code from one state to another, its next
instruction changes no byte outside of the object. -/
def StoresInside (p : Machine.Program) (r : Routine) (f : Frame) (n : Machine.State) (s s' : Lowering.State)
    (start size : Nat) : Prop :=
  ∀ fuel callers blocks, ∀ k ∈ visited p fuel callers ⟨r, f, blocks⟩ n, ∀ b, k.live = b :: callers →
    s.code.size ≤ b.frame.pc → b.frame.pc < s'.code.size →
    ∀ i g u, b.routine.body[b.frame.pc]? = some i → next p b.routine b.frame k.state i = .go g u →
      ∀ j, j < start ∨ start + size ≤ j → u.memory.bytes[j]? = k.state.memory.bytes[j]?

theorem storesInside_of_confines {p : Machine.Program} {g : Function} {m : Code.Module} {f : Frame}
    {n : Machine.State} {s s' : Lowering.State} {t : Temp} {start size : Nat}
    (hcode : Lowering.Confines t size s s') (hstand : Stand m g s') (hreserved : ∀ i ∈ g.body, Reserves t i)
    (hhome : Homed t (Int64.ofNat start) f) (hwords : start + size ≤ Layout.maxObjectSize) :
    StoresInside p (Routine.ofFunction g) f n s s' start size := by
  intro fuel callers blocks k hk b hb hle hlt i g' u hat hn j hj
  obtain ⟨hroutine, hhomed⟩ := hhome.visited (a := ⟨Routine.ofFunction g, f, blocks⟩)
    (fun i hi => hreserved i (List.mem_toArray.mp hi)) hk hb
  obtain ⟨new, hnew, hconfined⟩ := hcode
  have hbody : (s.code.toList ++ new)[b.frame.pc]? = some i := by
    have hprefix := hnew ▸ hstand.code
    rw [hroutine] at hat
    obtain ⟨rest, hrest⟩ := hprefix
    have hlength : b.frame.pc < (s.code.toList ++ new).length := by
      rw [← hnew]
      simpa using hlt
    have hlonger : (s.code.toList ++ new ++ rest)[b.frame.pc]? = _ := List.getElem?_append_left hlength
    rw [← hlonger, hrest]
    simpa [Routine.ofFunction] using hat
  rw [List.getElem?_append_right (by simpa using hle)] at hbody
  exact Machine.bytes_of_confined (hconfined i (List.mem_of_getElem? hbody)) hhomed hwords hn hj

end Simulation

/-- The code of a copy, for any type of a registry that calls lead to: between objects that are apart or the
same, it gives each scalar of the target the bytes that the source had, and changes no other byte. So where
a function of an accepted source is called with the addresses of objects that are there, the machine gets to
its body, unless the stack is full, with each parameter of struct type in storage of its own, above all
that was there; its scalars have the bytes that the argument's had when the call began. And whatever the
activation does then, code that stores to the parameter, or to a member of a member of it, changes no byte
outside of that storage, so none of the argument. -/
theorem Compilation.structs_copied {layout : Layout.Config} {source : String} {tree : CompilationUnit}
    {registry : Registry} {code : Code.Module} (h : (do check layout (← parse source)) = .ok (tree, registry))
    (hcode : Lowering.lower registry tree = .ok code) {g : Function} (hg : g ∈ code.functions) :
    (∀ model limit r, Reachable model limit r → ∀ (target source : Lowering.Place) s,
      ∃ s', target.copy r source s = .ok ((), s') ∧
        ∀ p ρ f m start here, Hosts ρ f s' → f.pc = s.code.size → Lies p s.temps target f start →
          Lies p s.temps source f here → Room m.memory start (r.sizeOf target.ty) →
          Room m.memory here (r.sizeOf target.ty) → Separate here start (r.sizeOf target.ty) →
          ∃ f' m', Crosses p ρ s s' f m f' m' ∧
            Transfers (r.IsLeaf target.ty) here start m.memory m'.memory) ∧
    ∃ entry ts, Stand code g entry ∧ ts.length = g.params.length ∧
      entry.slots = [((g.params.map (·.name)).zip ts).reverse] ∧
      ∀ p args m here, args.length = g.params.length → Poised m → Lends registry g.params args here m →
        let ρ := Routine.ofFunction g
        Overflows p ρ (Frame.enter ρ args) m ∨
        ∃ f n, Reaches p ρ (Frame.enter ρ args) m f n ∧ f.pc = entry.code.size ∧
          ∀ i q t, g.params[i]? = some q → ts[i]? = some t → registry.isStruct q.ty = true →
            ∃ start, Housed registry q.ty t (here i) start m f n ∧
              here i + registry.sizeOf q.ty ≤ start ∧
              ∀ c : Lowering.Context, c.registry = registry → ∀ e, .expr e ∈ Node.ofUnit tree →
                ∀ x, e.variable? = some (x, q.ty) → ∀ s s₂ s₃, slot? s.slots x = some t →
                  Lowering.Writes c e s s₂ s₃ → Stand code g s₃ →
                  Simulation.StoresInside p ρ f n s₂ s₃ start (registry.sizeOf q.ty) := by
  obtain ⟨u, -, hcheck⟩ := Machine.except_bind_eq_ok.mp h
  obtain ⟨herrors, rfl, rfl⟩ := accepted_of_check hcheck
  obtain ⟨G, hsound, hunit⟩ := Typing.judged_of_analyze herrors
  have hc := hsound.consistent
  refine ⟨fun model limit r hr target source s => ?_, ?_⟩
  · obtain ⟨s', hs'⟩ := Lowering.copyMoves_total target source (r.moves target.ty) s
    exact ⟨s', hs', fun p ρ f m start here hhosts hpc htarget hsource hto hfrom hseparate =>
      Lowering.crosses_copy hr.consistent hs' hhosts hpc htarget hsource hto hfrom hseparate⟩
  obtain ⟨entry, ts, hbegins⟩ := Simulation.exists_begins hc hcode hg
  refine ⟨entry, ts, hbegins.toStand, hbegins.length, hbegins.slots, fun p args m here hlength hm hlends => ?_⟩
  refine (hbegins.enters p args m here hlength hm hlends).imp_right ?_
  rintro ⟨f, n, hpath, hpc, hfits, hsize, hreceives⟩
  refine ⟨f, n, hpath, hpc, fun i q t hq ht hstruct => ?_⟩
  obtain ⟨start, hhoused⟩ := hreceives i q t hq ht hstruct
  obtain ⟨arg, -, hlent⟩ := hlends i q hq hstruct
  refine ⟨start, hhoused, hlent.below.trans hhoused.above, ?_⟩
  intro c hregistry e he x hx s s₂ s₃ hslot hwrites hstand
  obtain ⟨C, ty, hty⟩ := Typing.sensible_unit hunit _ he
  exact Simulation.storesInside_of_confines (hwrites.confines hregistry hc hslot hty hx) hstand
    (hbegins.reserved t (List.mem_of_getElem? ht)) hhoused.home
    (((hhoused.below.trans hfits).trans hsize.le).trans hm.words)

/-- A global that is passed to a function. -/
theorem Compilation.passed_struct_copied :
    ∃ tree registry code l g o, (do check ⟨.lp64, 64⟩ (← parse
        "struct p { int x; int y; } s; int f(struct p v) { v.x = 99; return v.y; }")) = .ok (tree, registry) ∧
      Lowering.lower registry tree = .ok code ∧ Machine.load code ⟨128, 4, 1000⟩ = .ok l ∧
      g ∈ code.functions ∧ o ∈ Machine.objects ⟨128, 4, 1000⟩ code ∧ o.name = "s" ∧
      let ρ := Routine.ofFunction g
      let m := Machine.deeper l.state
      (Overflows l.program ρ (Frame.enter ρ [Int64.ofNat o.start]) m ∨
        ∃ f n start, Reaches l.program ρ (Frame.enter ρ [Int64.ofNat o.start]) m f n ∧ o.stop ≤ start ∧
          ∀ i < 8, n.memory.bytes[start + i]? = l.state.memory.bytes[o.start + i]?) := by
  let isPair (r : Registry) (q : Code.Param) : Bool :=
    decide (r.isStruct q.ty = true ∧ r.sizeOf q.ty = 8 ∧
      (r.moves q.ty).map (fun m => (m.offset, m.access.size)) = [(0, 4), (4, 4)])
  have hrun : ((do check ⟨.lp64, 64⟩ (← parse
      "struct p { int x; int y; } s; int f(struct p v) { v.x = 99; return v.y; }")).toOption.bind
        fun x : CompilationUnit × Registry => (Lowering.lower x.2 x.1).toOption.bind fun code : Code.Module =>
          (Machine.load code ⟨128, 4, 1000⟩).toOption.map fun _ : Loaded =>
            (code.functions.map fun g : Function => g.params.map (isPair x.2),
              code.globals.map fun v : Code.Global => (v.name, v.size))) =
      some ([[true]], [("s", 8)]) := by decide +kernel
  obtain ⟨⟨tree, registry⟩, hcheck, hrun⟩ := Option.bind_eq_some_iff.mp hrun
  obtain ⟨code, hcode, hrun⟩ := Option.bind_eq_some_iff.mp hrun
  obtain ⟨l, hload, hshape⟩ := Option.map_eq_some_iff.mp hrun
  replace hcheck := ok_of_toOption hcheck
  replace hcode := ok_of_toOption hcode
  replace hload := ok_of_toOption hload
  obtain ⟨hfunctions, hglobals⟩ := Prod.mk.inj hshape
  obtain ⟨g, hg, hparams⟩ := List.map_eq_singleton_iff.mp hfunctions
  obtain ⟨q, hq, hparam⟩ := List.map_eq_singleton_iff.mp hparams
  obtain ⟨hstruct, hwidth, hmoves⟩ := of_decide_eq_true hparam
  obtain ⟨v, hv, hextent⟩ := List.map_eq_singleton_iff.mp hglobals
  obtain ⟨hname, hsize⟩ := Prod.mk.inj hextent
  have hmem : g ∈ code.functions := hg ▸ List.mem_cons_self
  obtain ⟨hnames, hsizes, -⟩ := Machine.objects_of_load hload
  rw [hv] at hnames hsizes
  obtain ⟨o, rest, hobjects, hs, -⟩ := List.map_eq_cons_iff.mp hnames
  rw [hobjects] at hsizes
  have ho : o ∈ Machine.objects ⟨128, 4, 1000⟩ code := hobjects ▸ List.mem_cons_self
  refine ⟨tree, registry, code, l, g, o, hcheck, hcode, hload, hmem, ho, hs.trans hname, ?_⟩
  have hstop : o.start + registry.sizeOf q.ty = o.stop := by
    rw [hwidth, ← hsize]
    exact congrArg (o.start + ·) (List.cons.inj hsizes).1.symm
  obtain ⟨hguard, hstack, hroom⟩ := Machine.guarded_of_load hload
  obtain ⟨hbelow, hinside, -⟩ := Machine.stack_of_load hload
  obtain ⟨-, entry, ts, -, hlength, -, hcalls⟩ := structs_copied hcheck hcode hmem
  have hpoised : Poised (Machine.deeper l.state) :=
    ⟨hstack, hinside, hroom.le.trans (by decide)⟩
  have hlends : Lends registry g.params [Int64.ofNat o.start] (fun _ => o.start) (Machine.deeper l.state) := by
    intro i q' hq' _
    rw [hq] at hq'
    cases i with
    | zero =>
      obtain rfl := Option.some.inj hq'
      exact ⟨_, rfl, rfl, hguard o ho, hstop.le.trans (hbelow o ho)⟩
    | succ i => cases hq'
  refine (hcalls l.program _ _ _ (by rw [hq]; rfl) hpoised hlends).imp_right ?_
  rintro ⟨f, n, hpath, -, hreceived⟩
  rw [hq] at hlength
  obtain ⟨t, rfl⟩ := List.length_eq_one_iff.mp hlength
  obtain ⟨start, hhoused, hapart, -⟩ := hreceived 0 q t (by rw [hq]; rfl) rfl hstruct
  refine ⟨f, n, start, hpath, hstop ▸ hapart, fun i hi => hhoused.leaves i ?_⟩
  have hleaf {k : Nat} (hk : (k, 4) ∈ [(0, 4), (4, 4)]) (hle : k ≤ i) (hlt : i < k + 4) :
      registry.IsLeaf q.ty i := by
    obtain ⟨move, hmove, heq⟩ := List.mem_map.mp (hmoves ▸ hk)
    obtain ⟨rfl, hfour⟩ := Prod.mk.inj heq
    exact ⟨move, hmove, hle, hfour ▸ hlt⟩
  by_cases hfirst : i < 4
  · exact hleaf (k := 0) (by decide) (Nat.zero_le i) hfirst
  · exact hleaf (k := 4) (by decide) (Nat.le_of_not_lt hfirst) hi

/-- A struct that a function has returned the address of, with zero in it: its storage is allocated again
when it is passed, and what is stored to the parameter is read back through that address. -/
theorem Compilation.returned_struct_changed :
    ∃ tree registry code limits l, (do check ⟨.lp64, 64⟩ (← parse
        ("struct p { int x; }; struct p *g(void) { struct p l; return &l; } " ++
        "void f(struct p v) { v.x = 9; } int h(void) { f(*g()); return g()->x; }"))) = .ok (tree, registry) ∧
      Lowering.lower registry tree = .ok code ∧ Machine.load code limits = .ok l ∧
      (Machine.call l.program l.state "h" []).1 = .ok 9 := by
  have hrun : ((do check ⟨.lp64, 64⟩ (← parse
      ("struct p { int x; }; struct p *g(void) { struct p l; return &l; } " ++
      "void f(struct p v) { v.x = 9; } int h(void) { f(*g()); return g()->x; }"))).toOption.bind
        fun x => (Lowering.lower x.2 x.1).toOption.bind fun code =>
          (Machine.load code ⟨64, 4, 1000⟩).toOption.map fun l =>
            ((Program.ofLoaded x.2 x.1 l).evaluate 0 l.state "h" []).bind (·.1.toOption)) =
      some (some 9) := by decide +kernel
  obtain ⟨⟨tree, registry⟩, hcheck, hrun⟩ := Option.bind_eq_some_iff.mp hrun
  obtain ⟨code, hcode, hrun⟩ := Option.bind_eq_some_iff.mp hrun
  obtain ⟨l, hload, heval⟩ := Option.map_eq_some_iff.mp hrun
  replace hcheck := ok_of_toOption hcheck
  replace hcode := ok_of_toOption hcode
  obtain ⟨x, heval, hx⟩ := Option.bind_eq_some_iff.mp heval
  obtain ⟨steps, l', hload', hcall⟩ := exists_call_of_evaluate hcheck hcode (ok_of_toOption hload)
    (by rw [heval, Option.map_some, ok_of_toOption hx])
  exact ⟨tree, registry, code, _, l', hcheck, hcode, hload', hcall⟩

end MiniC
