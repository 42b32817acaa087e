import MiniC.Proofs.Lowering.Growth
import MiniC.Proofs.Lowering.Reach
import MiniC.Proofs.Typing.Globals
import MiniC.Typing.Analysis
/-!
The scopes of analysis and those of lowering, side by side. A part of a tree is analyzed in some state; its
own parts are reached from there, each in the state that is left by what is analyzed before it, and they are
numbered by where they stand in the tree. Analysis introduces a symbol for each local and each parameter,
lowering provides a slot. Main statements: whatever is analyzed and lowered in between, both have the same
declarations in scope, in the same order.
-/
namespace MiniC.Typing

open Syntax Check

/-- A part of a tree, with what is handed down to its analysis. -/
inductive Part where
  | expr (e : Expr)
  | values (last : TypeId) (es : List Expr)
  | arguments (params : List TypeId) (es : List Expr)
  | items (recover : Bool) (is : List BlockItem)
  | stmt (s : Stmt)
  | vars (vs : List VarDecl)
  | init (t : TypeId) (isGlobal : Bool) (i : Initializer)
  | elements (element : TypeId) (isGlobal : Bool) (is : List Initializer)
  | members (types : List TypeId) (isGlobal : Bool) (is : List Initializer)
  | scalar (t : TypeId) (isGlobal : Bool) (is : List Initializer)
  | decls (ds : List TopDecl)

/-- One step down, into the part of that number, as long as nothing fails. -/
inductive Enters : Part → State → Nat → Part → State → Prop
  | left {s span ty left right op} :
      Enters (.expr ⟨.binary op left right, span, ty⟩) s 0 (.expr left) s
  | right {s s₁ span ty left left' right t op} : value left s = ((left', .ok t), s₁) →
      Enters (.expr ⟨.binary op left right, span, ty⟩) s 1 (.expr right) s₁
  | unary {s span ty operand op} :
      Enters (.expr ⟨.unary op operand, span, ty⟩) s 0 (.expr operand) s
  | target {s span ty target source op} :
      Enters (.expr ⟨.assign op target source, span, ty⟩) s 0 (.expr target) s
  | source {s s₁ s₂ span ty target target' source t op u} : expr target s = ((target', .ok t), s₁) →
      outcome (checkTarget target' t) s₁ = (.ok u, s₂) →
      Enters (.expr ⟨.assign op target source, span, ty⟩) s 1 (.expr source) s₂
  | condition {s span ty cond yes no} :
      Enters (.expr ⟨.conditional cond yes no, span, ty⟩) s 0 (.expr cond) s
  | yes {s s₁ span ty cond cond' yes no u} : condition cond s = ((cond', .ok u), s₁) →
      Enters (.expr ⟨.conditional cond yes no, span, ty⟩) s 1 (.expr yes) s₁
  | no {s s₁ s₂ span ty cond cond' yes yes' no t u} : condition cond s = ((cond', .ok u), s₁) →
      value yes s₁ = ((yes', .ok t), s₂) →
      Enters (.expr ⟨.conditional cond yes no, span, ty⟩) s 2 (.expr no) s₂
  | arguments {s s₁ s₂ span ty callee args ret sig u} :
      outcome (calledFunction callee) s = (.ok (ret, sig), s₁) →
      outcome (checkArgumentCount sig args.length span) s₁ = (.ok u, s₂) →
      Enters (.expr ⟨.call callee args, span, ty⟩) s 0 (.arguments sig.params args) s₂
  | array {s span ty array subscript} :
      Enters (.expr ⟨.index array subscript, span, ty⟩) s 0 (.expr array) s
  | subscript {s s₁ span ty array array' subscript t} : expr array s = ((array', .ok t), s₁) →
      Enters (.expr ⟨.index array subscript, span, ty⟩) s 1 (.expr subscript) s₁
  | object {s span ty object field m} :
      Enters (.expr ⟨.member object field m, span, ty⟩) s 0 (.expr object) s
  | pointer {s span ty pointer field m} :
      Enters (.expr ⟨.pointerMember pointer field m, span, ty⟩) s 0 (.expr pointer) s
  | cast {s s₁ span ty operand t written} : outcome (resolve written) s = (.ok t, s₁) →
      Enters (.expr ⟨.cast written operand, span, ty⟩) s 0 (.expr operand) s₁
  | query {s span ty operand q} : Enters (.expr ⟨.query q operand, span, ty⟩) s 0 (.expr operand) s
  | addressOf {s span ty operand} :
      Enters (.expr ⟨.addressOf operand, span, ty⟩) s 0 (.expr operand) s
  | deref {s span ty operand} : Enters (.expr ⟨.deref operand, span, ty⟩) s 0 (.expr operand) s
  | step {s span ty operand decrement yieldsOld} :
      Enters (.expr ⟨.step operand decrement yieldsOld, span, ty⟩) s 0 (.expr operand) s
  | comma {s span ty es} : Enters (.expr ⟨.comma es, span, ty⟩) s 0 (.values Registry.void es) s
  | block {s span ty b} :
      Enters (.expr ⟨.block b, span, ty⟩) s 0 (.items false b.items)
        { s with scope := s.scope.push }
  | value {s last e es} : Enters (.values last (e :: es)) s 0 (.expr e) s
  | moreValues {s s₁ last e e' es t} : value e s = ((e', .ok t), s₁) →
      Enters (.values last (e :: es)) s 1 (.values t es) s₁
  | argument {s e es params} : Enters (.arguments params (e :: es)) s 0 (.expr e) s
  | moreArguments {s s₁ s₂ e e' es t params u} : value e s = ((e', .ok t), s₁) →
      outcome (checkArgument params.head? t e') s₁ = (.ok u, s₂) →
      Enters (.arguments params (e :: es)) s 1 (.arguments params.tail es) s₂
  | statement {s recover items st} :
      Enters (.items recover (.statement st :: items)) s 0 (.stmt st) s
  | declaration {s span recover items vs} :
      Enters (.items recover (.declaration ⟨.vars vs, span⟩ :: items)) s 0 (.vars vs) s
  | moreItems {s s₁ recover item item' items u} : blockItem item s = ((item', .ok u), s₁) →
      Enters (.items recover (item :: items)) s 1 (.items recover items) s₁
  | exprStmt {s span e} : Enters (.stmt ⟨.expr e, span⟩) s 0 (.expr e) s
  | blockStmt {s span b} :
      Enters (.stmt ⟨.block b, span⟩) s 0 (.items true b.items) { s with scope := s.scope.push }
  | ifCondition {s span cond st other} :
      Enters (.stmt ⟨.if_ cond st other, span⟩) s 0 (.expr cond) s
  | ifYes {s s₁ span cond cond' st other u} : condition cond s = ((cond', .ok u), s₁) →
      Enters (.stmt ⟨.if_ cond st other, span⟩) s 1 (.stmt st) s₁
  | ifNo {s s₁ s₂ span cond cond' st st' other u w} : condition cond s = ((cond', .ok u), s₁) →
      stmt st s₁ = ((st', .ok w), s₂) →
      Enters (.stmt ⟨.if_ cond st (some other), span⟩) s 2 (.stmt other) s₂
  | firstClause {s span e body kind test update} :
      Enters (.stmt ⟨.loop kind (some (.expr e)) test update body, span⟩) s 0 (.expr e)
        { s with scope := s.scope.push }
  | firstDeclaration {s span span' body vs kind test update} :
      Enters (.stmt ⟨.loop kind (some (.declaration ⟨.vars vs, span'⟩)) test update body, span⟩) s
        0 (.vars vs) { s with scope := s.scope.push }
  | loopCondition {s s₁ span cond body kind init init' update u} :
      loopInit? init { s with scope := s.scope.push } = ((init', .ok u), s₁) →
      Enters (.stmt ⟨.loop kind init (some cond) update body, span⟩) s 1 (.expr cond) s₁
  | update {s s₁ s₂ span e body kind init init' test test' u w} :
      loopInit? init { s with scope := s.scope.push } = ((init', .ok u), s₁) →
      condition? test s₁ = ((test', .ok w), s₂) →
      Enters (.stmt ⟨.loop kind init test (some e) body, span⟩) s 2 (.expr e) s₂
  | body {s s₁ s₂ s₃ span body kind init init' test test' update update' u w x} :
      loopInit? init { s with scope := s.scope.push } = ((init', .ok u), s₁) →
      condition? test s₁ = ((test', .ok w), s₂) → expr? update s₂ = ((update', .ok x), s₃) →
      Enters (.stmt ⟨.loop kind init test update body, span⟩) s 3 (.stmt body)
        { s₃ with loopDepth := s₃.loopDepth + 1 }
  | result {s span e} : s.returns.isSome = true →
      Enters (.stmt ⟨.return_ (some e), span⟩) s 0 (.expr e) s
  | initializer {s s₁ s₂ v vs i t u} : outcome (checkVariable v) s = (.ok t, s₁) →
      outcome (define ⟨v.name, .variable s₁.scope.isGlobal, t, v.span⟩) s₁ = (.ok u, s₂) →
      v.init = some i → Enters (.vars (v :: vs)) s 0 (.init t s₁.scope.isGlobal i) s₂
  | moreVars {s s₁ v v' vs u} : varDecl v s = ((v', .ok u), s₁) →
      Enters (.vars (v :: vs)) s 1 (.vars vs) s₁
  | initialValue {s e isGlobal t} : Enters (.init t isGlobal (.expr e)) s 0 (.expr e) s
  | elements {s s₁ span isGlobal is t element length u} :
      listTarget s.registry t = .elements element length →
      outcome (checkExcess .excessInArray is length) s = (.ok u, s₁) →
      Enters (.init t isGlobal (.list is span)) s 0 (.elements element isGlobal is) s₁
  | members {s s₁ span isGlobal is t types u} : listTarget s.registry t = .members types →
      outcome (checkExcess .excessInStruct is types.length) s = (.ok u, s₁) →
      Enters (.init t isGlobal (.list is span)) s 0 (.members types isGlobal is) s₁
  | scalar {s span isGlobal is t} : listTarget s.registry t = .scalar →
      Enters (.init t isGlobal (.list is span)) s 0 (.scalar t isGlobal is) s
  | element {s isGlobal i is element} :
      Enters (.elements element isGlobal (i :: is)) s 0 (.init element isGlobal i) s
  | moreElements {s s₁ isGlobal i i' is element u} :
      initializer element isGlobal i s = ((i', .ok u), s₁) →
      Enters (.elements element isGlobal (i :: is)) s 1 (.elements element isGlobal is) s₁
  | member {s isGlobal i is t types} :
      Enters (.members (t :: types) isGlobal (i :: is)) s 0 (.init t isGlobal i) s
  | moreMembers {s s₁ isGlobal i i' is t types u} : initializer t isGlobal i s = ((i', .ok u), s₁) →
      Enters (.members (t :: types) isGlobal (i :: is)) s 1 (.members types isGlobal is) s₁
  | scalarValue {s e isGlobal t} :
      Enters (.scalar t isGlobal [.expr e]) s 0 (.init t isGlobal (.expr e)) s
  | globals {s span vs ds} : Enters (.decls (.declaration ⟨.vars vs, span⟩ :: ds)) s 0 (.vars vs) s
  /-- The parameters are defined in the scope of the body. -/
  | function {s s₁ s₂ s₃ s₄ ret ps f ts body ds u w} :
      outcome (checkResult f.returns) s = (.ok ret, s₁) →
      params f.body.isSome f.params s₁ = ((ps, .ok ts), s₂) →
      outcome (declareFunction f.name ret ⟨ts, f.variadic, f.isDefinition, false⟩ f.span) s₂
        = (.ok u, s₃) →
      f.body = some body →
      outcome (defineParams ps) { s₃ with returns := some ret, scope := s₃.scope.push }
        = (.ok w, s₄) →
      Enters (.decls (.function f :: ds)) s 0 (.items true body.items) s₄
  | moreDecls {s s₁ d d' ds u} : topDecl d s = ((d', .ok u), s₁) →
      Enters (.decls (d :: ds)) s 1 (.decls ds) s₁

/-- The part at the end of a path, and the state in which it is analyzed. -/
inductive Visits (config : Layout.Config) (u : CompilationUnit) : List Nat → Part → State → Prop
  | unit : Visits config u [] (.decls u.decls) (State.initial config)
  | enter {path p s n p' s'} : Visits config u path p s → Enters p s n p' s' →
      Visits config u (path ++ [n]) p' s'

end MiniC.Typing

namespace MiniC

open Code (Temp)
open Syntax

/-- Where a name is declared: the path to its declaration, or to its function and its place there. -/
inductive Origin where
  | variable (path : List Nat)
  | parameter (path : List Nat) (index : Nat)

/-- The symbol that analysis introduces for a declaration. -/
inductive Typing.Introduces (config : Layout.Config) (u : CompilationUnit) : Origin → Symbol → Prop
  | variable {path v vs s t s₁ x s₂} : Visits config u path (.vars (v :: vs)) s →
      outcome (checkVariable v) s = (.ok t, s₁) →
      outcome (Check.define ⟨v.name, .variable s₁.scope.isGlobal, t, v.span⟩) s₁ = (.ok x, s₂) →
      Introduces config u (.variable path) ⟨v.name, .variable s₁.scope.isGlobal, t, v.span⟩
  | parameter {path f ds s ret s₁ ps ts s₂ index p name t} :
      Visits config u path (.decls (.function f :: ds)) s →
      outcome (checkResult f.returns) s = (.ok ret, s₁) →
      params f.body.isSome f.params s₁ = ((ps, .ok ts), s₂) →
      ps[index]? = some p → p.name = some name → p.resolved = some t →
      Introduces config u (.parameter path index) ⟨name, .parameter, t, p.span⟩

/-- The name and the slot that lowering provides for a declaration. -/
inductive Lowering.Provides (r : Registry) (tree : CompilationUnit) : Origin → String → Temp → Prop
  | variable {path c v vs s t slot s'} : Visits r tree path (.vars c (v :: vs)) s →
      v.resolved = some t → allocate c.registry t s = .ok (slot, s') →
      Provides r tree (.variable path) v.name slot
  | parameter {path f ds s ps index p slot s'} :
      Visits r tree path (.decls r (.function f :: ds)) s → params f.params = .ok ps →
      ps[index]? = some p →
      (do
        modify fun s => { s with code := #[], temps := 0, slots := [[]] }
        receiveAll r 0 (ps.take index)
        let _ ← define (.param · index)
        allocate r p.ty : Lower Temp) s = .ok (slot, s') →
      Provides r tree (.parameter path index) p.name slot

/-- A global that lowering makes. -/
inductive Lowering.Makes (r : Registry) (tree : CompilationUnit) : Origin → VarDecl → Prop
  | variable {path v vs s} : Visits r tree path (.globals r (v :: vs)) s →
      Makes r tree (.variable path) v

/-- A declaration that is in scope, with what analysis and lowering have made of it. -/
structure Entry where
  origin : Origin
  symbol : Symbol
  slot : Temp

def Entry.binding (d : Entry) : String × Temp := (d.symbol.name, d.slot)

/-- The declarations in scope, innermost scope and newest first. -/
abbrev Entries := List (List Entry)

def Entries.find? (Δ : Entries) (name : String) : Option Entry :=
  Δ.findSome? (·.find? (·.symbol.name == name))

/-- Analysis finds the symbol of what is found here. -/
theorem Entries.symbol?_eq (Δ : Entries) (name : String) :
    Typing.Frames.symbol? (Δ.map (·.map Entry.symbol)) name = (Δ.find? name).map (·.symbol) := by
  induction Δ with
  | nil => rfl
  | cons frame outer ih =>
    unfold Typing.Frames.symbol? find? at ih ⊢
    have hframe : (frame.map Entry.symbol).find? (·.name == name) =
        (frame.find? (·.symbol.name == name)).map (·.symbol) := List.find?_map ..
    rw [List.map_cons, List.findSome?_cons, List.findSome?_cons, hframe, ih]
    cases frame.find? (·.symbol.name == name) <;> rfl

theorem lookup_bindings (frame : List Entry) (name : String) :
    (frame.map Entry.binding).lookup name =
      (frame.find? (·.symbol.name == name)).map (·.slot) := by
  induction frame with
  | nil => rfl
  | cons d frame ih =>
    rw [List.map_cons, Entry.binding, List.lookup_cons, List.find?_cons, ih, BEq.comm]
    cases d.symbol.name == name <;> rfl

/-- Lowering finds its slot. -/
theorem Entries.slot?_eq (Δ : Entries) (name : String) :
    Lowering.slot? (Δ.map (·.map Entry.binding)) name = (Δ.find? name).map (·.slot) := by
  induction Δ with
  | nil => rfl
  | cons frame outer ih =>
    unfold Lowering.slot? find? at ih ⊢
    rw [List.map_cons, List.findSome?_cons, List.findSome?_cons, lookup_bindings, ih]
    cases frame.find? (·.symbol.name == name) <;> rfl

def Entries.declare (Δ : Entries) (d : Entry) : Entries :=
  match Δ with
  | [] => []
  | frame :: outer => (d :: frame) :: outer

section

variable (config : Layout.Config) (u : CompilationUnit) (r : Registry) (tree : CompilationUnit)

/-- Both have met the declaration. -/
structure Entry.Known (d : Entry) : Prop where
  introduced : Typing.Introduces config u d.origin d.symbol
  provided : Lowering.Provides r tree d.origin d.symbol.name d.slot

/-- The objects among the symbols of the global frame are those of globals. -/
def KnownGlobals (G : List Symbol) : Prop :=
  ∀ sym ∈ G, sym.IsObject → ∃ o v, Typing.Introduces config u o sym ∧
    Lowering.Makes r tree o v ∧ v.name = sym.name

/-- Analysis and lowering have the same declarations in scope, inside a function. -/
structure Follows (C : Typing.Site) (G : List Symbol) (Δ : Entries) (s : Typing.State)
    (l : Lowering.State) : Prop where
  ready : Typing.Ready C G s
  inside : Δ ≠ []
  frames : C.frames = Δ.map (·.map Entry.symbol)
  slots : l.slots = Δ.map (·.map Entry.binding)
  known : ∀ frame ∈ Δ, ∀ d ∈ frame, d.Known config u r tree
  fresh : ∀ frame ∈ Δ, ∀ d ∈ frame, d.slot < l.temps
  distinct : (Δ.flatten.map Entry.slot).Nodup
  globals : KnownGlobals config u r tree G

end

namespace Follows

variable {config : Layout.Config} {u : CompilationUnit} {r : Registry} {tree : CompilationUnit}
  {C : Typing.Site} {G G' : List Symbol} {Δ : Entries} {s s' : Typing.State} {l l' : Lowering.State}

theorem not_isGlobal (h : Follows config u r tree C G Δ s l) : C.isGlobal = false := by
  have hframes : C.frames ≠ [] := by
    rw [h.frames]
    simpa using h.inside
  simpa [Typing.Site.isGlobal] using hframes

theorem analyzed (h : Follows config u r tree C G Δ s l) (hready : Typing.Ready C G' s')
    (hG : G' ⊆ G) : Follows config u r tree C G' Δ s' l :=
  { h with
    ready := hready
    globals := fun sym hsym => h.globals sym (hG hsym) }

theorem lowered (h : Follows config u r tree C G Δ s l) (hl : Lowering.Extends id l l') :
    Follows config u r tree C G Δ s l' :=
  { h with
    slots := hl.slots.trans h.slots
    fresh := fun frame hframe d hd => Nat.lt_of_lt_of_le (h.fresh frame hframe d hd) hl.temps }

theorem push (h : Follows config u r tree C G Δ s l) :
    Follows config u r tree C.inner G ([] :: Δ) { s with scope := s.scope.push }
      { l with slots := [] :: l.slots } where
  ready := h.ready.push
  inside := by simp
  frames := congrArg ([] :: ·) h.frames
  slots := congrArg ([] :: ·) h.slots
  known := List.forall_mem_cons.mpr ⟨List.forall_mem_nil _, h.known⟩
  fresh := List.forall_mem_cons.mpr ⟨List.forall_mem_nil _, h.fresh⟩
  distinct := h.distinct
  globals := h.globals

theorem inLoop (h : Follows config u r tree C G Δ s l) :
    Follows config u r tree C.inLoop G Δ { s with loopDepth := s.loopDepth + 1 } l :=
  { h with ready := h.ready.enterLoop }

/-- One more declaration is in scope. -/
theorem declare {d : Entry} (h : Follows config u r tree C G Δ s l)
    (hready : Typing.Ready (C.declare d.symbol) G' s') (hG : G' ⊆ G)
    (hknown : d.Known config u r tree) (hfresh : l.temps ≤ d.slot) (hslot : d.slot < l'.temps)
    (hslots : l'.slots = (Δ.declare d).map (·.map Entry.binding)) :
    Follows config u r tree (C.declare d.symbol) G' (Δ.declare d) s' l' := by
  obtain ⟨-, hinside, hframes, -, hknowns, hfreshs, hdistinct, hglobals⟩ := h
  cases Δ with
  | nil => exact absurd rfl hinside
  | cons frame outer =>
    have hall {P : Entry → Prop} (hd : P d) (hold : ∀ f ∈ frame :: outer, ∀ d ∈ f, P d) :
        ∀ f ∈ (d :: frame) :: outer, ∀ d ∈ f, P d := by
      rw [List.forall_mem_cons] at hold ⊢
      exact ⟨List.forall_mem_cons.mpr ⟨hd, hold.1⟩, hold.2⟩
    refine ⟨hready, List.cons_ne_nil _ _, ?_, hslots, hall hknown hknowns, hall hslot fun f hf e he =>
      ?_, ?_, fun sym hsym => hglobals sym (hG hsym)⟩
    · simp only [Typing.Site.declare, hframes]
      rfl
    · exact Nat.lt_trans (Nat.lt_of_lt_of_le (hfreshs f hf e he) hfresh) hslot
    · refine List.nodup_cons.mpr ⟨fun hmem => ?_, hdistinct⟩
      obtain ⟨e, he, hsame⟩ := List.mem_map.mp hmem
      have hflat : e ∈ (frame :: outer).flatten := he
      obtain ⟨f, hf, hef⟩ := List.mem_flatten.mp hflat
      have hbefore : e.slot < d.slot := Nat.lt_of_lt_of_le (hfreshs f hf e hef) hfresh
      exact absurd hsame (Nat.ne_of_lt hbefore)

end Follows

end MiniC
