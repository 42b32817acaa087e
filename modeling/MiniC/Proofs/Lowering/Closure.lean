import MiniC.Lowering.Unit
/-!
How lowering puts actions together. Main statement: a property that all basic actions have, and that is
kept when actions follow one another, is one of the code of every tree; what binds names may have a
weaker one.
-/
namespace MiniC.Lowering

open Syntax
open Code (Inst Label Operand Temp)

/-- The property is one of the basic actions, and is kept when actions are put together. An instruction
on its own writes no temporary or a new one; the two shapes that write one temporary on either way are
taken as a whole. -/
structure Closed (P : ∀ {α : Type}, Lower α → Prop) : Prop where
  pure : ∀ {α : Type} (a : α), P (pure a : Lower α)
  throw : ∀ {α : Type} (e : LoweringError), P (throw e : Lower α)
  bind : ∀ {α β : Type} {x : Lower α} {k : α → Lower β}, P x → (∀ a, P (k a)) → P (x >>= k)
  map : ∀ {α β : Type} {x : Lower α} {f : α → β}, P x → P (f <$> x)
  of_map : ∀ {α β : Type} {x : Lower α} {f : α → β}, P (f <$> x) → P x
  emit : ∀ {i : Inst}, i.dst? = none → P (emit i)
  define : ∀ {make : Temp → Inst}, (∀ t, (make t).dst? = some t) → P (define make)
  freshLabel : ∀ kind, P (freshLabel kind)
  addText : ∀ text, P (addText text)
  allocate : ∀ r ty, P (allocate r ty)
  variableAddress : ∀ name, P (variableAddress name)
  conditional : ∀ {cond yes no : Lower Operand}, P cond → P yes → P no → P (conditional cond yes no)
  logical : ∀ {isAnd : Bool} {left right : Lower Operand}, P left → P right →
    P (logical isAnd left right)

/-- `P` is the property of what binds nothing, and `Q` that of what binds names in the innermost
scope. -/
structure Nested (P Q : ∀ {α : Type}, Lower α → Prop) : Prop where
  inner : Closed P
  outer : Closed Q
  weaken : ∀ {α : Type} {x : Lower α}, P x → Q x
  inScope : ∀ {α : Type} {x : Lower α}, Q x → P (inScope x)
  bindName : ∀ name slot, Q (bind name slot)

namespace Closed

variable {P : ∀ {α : Type}, Lower α → Prop}

theorem ite {α : Type} {c : Prop} [Decidable c] {x y : Lower α} (hx : P x) (hy : P y) :
    P (if c then x else y) := by
  split
  · exact hx
  · exact hy

variable (h : Closed P) (r : Registry)

include h

theorem need {α : Type} (e : LoweringError) (o : Option α) : P (need e o) := by
  cases o with
  | none => exact h.throw e
  | some a => exact h.pure a

/-! Arithmetic and places. -/

theorem convert (v : Operand) (ty : TypeId) : P (convert r v ty) := by
  unfold Lowering.convert
  split
  · exact h.pure v
  · split
    · exact h.pure v
    · split
      · exact h.pure _
      · exact h.define fun _ => rfl

theorem scale (v : Operand) (stride : Int64) : P (scale v stride) := by
  unfold Lowering.scale
  split
  · exact h.pure v
  · split
    · exact h.pure _
    · exact h.define fun _ => rfl

theorem arithmetic (op : BinaryOp) (left : Operand) (leftTy : TypeId) (right : Operand)
    (rightTy result : TypeId) : P (arithmetic r op left leftTy right rightTy result) := by
  fun_cases Lowering.arithmetic r op left leftTy right rightTy result
  · exact h.bind (h.scale _ _) fun _ => h.define fun _ => rfl
  · exact h.bind (h.scale _ _) fun _ => h.define fun _ => rfl
  · exact h.bind (h.scale _ _) fun _ => h.define fun _ => rfl
  · exact h.bind (h.define fun _ => rfl) fun _ => ite (h.define fun _ => rfl) (h.pure _)
  · exact ite (h.define fun _ => rfl) (h.bind (h.define fun _ => rfl) fun _ => h.convert r _ _)

theorem address (p : Place) : P p.address := by
  unfold Place.address
  split
  · exact h.pure _
  · split
    · exact h.pure _
    · exact h.define fun _ => rfl

theorem load (p : Place) : P (p.load r) := by
  unfold Place.load
  split
  · exact h.address p
  · split
    · exact h.define fun _ => rfl
    · exact h.pure _

theorem store (p : Place) (v : Operand) : P (p.store r v) :=
  h.bind (h.need _ _) fun _ => h.emit rfl

theorem copyMoves (dst src : Place) (ms : List ScalarMove) : P (Place.copyMoves dst src ms) := by
  induction ms with
  | nil => exact h.pure ()
  | cons m ms ih => exact h.bind (h.define fun _ => rfl) fun _ => h.bind (h.emit rfl) fun _ => ih

theorem copy (dst src : Place) : P (Place.copy r dst src) := h.copyMoves dst src _

theorem zeroMoves (p : Place) (ms : List ScalarMove) : P (Place.zeroMoves p ms) := by
  induction ms with
  | nil => exact h.pure ()
  | cons m ms ih => exact h.bind (h.emit rfl) fun _ => ih

theorem zero (p : Place) : P (p.zero r) := h.zeroMoves p _

theorem storeBytes (p : Place) (bs : List UInt8) : P (p.storeBytes bs) := by
  induction bs generalizing p with
  | nil => exact h.pure ()
  | cons b bs ih => exact h.bind (h.emit rfl) fun _ => ih _

/-! Shapes of control. -/

theorem ifOnly {cond : Lower Operand} {yes : Lower Unit} (hc : P cond) (hy : P yes) :
    P (ifOnly cond yes) :=
  h.bind hc fun _ => h.bind (h.freshLabel _) fun _ => h.bind (h.freshLabel _) fun _ =>
    h.bind (h.emit rfl) fun _ => h.bind hy fun _ => h.emit rfl

theorem ifElse {cond : Lower Operand} {yes no : Lower Unit} (hc : P cond) (hy : P yes) (hn : P no) :
    P (ifElse cond yes no) :=
  h.bind hc fun _ => h.bind (h.freshLabel _) fun _ => h.bind (h.freshLabel _) fun _ =>
    h.bind (h.emit rfl) fun _ => h.bind hy fun _ => h.bind (h.emit rfl) fun _ =>
    h.bind (h.emit rfl) fun _ => h.bind hn fun _ => h.emit rfl

theorem loop {testsFirst : Bool} {test : Label → Lower Unit} {body : Label → Label → Lower Unit}
    {update : Lower Unit} (ht : ∀ l, P (test l)) (hb : ∀ l m, P (body l m)) (hu : P update) :
    P (loop testsFirst test body update) := by
  have hround : ∀ top entry next stop, P (do
      Lowering.emit (.label top); test stop; Lowering.emit (.label entry); body stop next
      Lowering.emit (.label next); update; Lowering.emit (.jump top)
      Lowering.emit (.label stop)) := fun top entry next stop =>
    h.bind (h.emit rfl) fun _ => h.bind (ht stop) fun _ => h.bind (h.emit rfl) fun _ =>
      h.bind (hb stop next) fun _ => h.bind (h.emit rfl) fun _ => h.bind hu fun _ =>
      h.bind (h.emit rfl) fun _ => h.emit rfl
  exact h.bind (h.freshLabel _) fun _ => h.bind (h.freshLabel _) fun _ =>
    h.bind (h.freshLabel _) fun _ => h.bind (h.freshLabel _) fun _ =>
    ite (h.bind (h.emit rfl) fun _ => hround _ _ _ _) (hround _ _ _ _)

theorem leave (target : Option Label) : P (leave target) := by
  cases target with
  | none => exact h.pure ()
  | some l => exact h.emit rfl

/-! Forms of expressions. -/

variable {code : Lower Lowered}

theorem valueOf (hcode : P code) : P (valueOf r code) :=
  h.bind hcode fun l =>
    match l with
    | .place p => h.load r p
    | .value _ => h.pure _

theorem placeOf (e : Expr) (hcode : P code) : P (placeOf e code) :=
  h.bind hcode fun l =>
    match l with
    | .place _ => h.pure _
    | .value _ => h.throw _

theorem storageOf (hcode : P code) (offset : Int64) (ty : TypeId) : P (storageOf code offset ty) :=
  h.bind hcode fun l =>
    match l with
    | .place _ => h.pure _
    | .value _ => h.pure _

theorem typeOf (e : Expr) : P (typeOf e) := h.need _ _

theorem subscript (element : Place) (stride : Int64) (constant : Option Int64)
    {index : Lower Operand} (hi : P index) : P (subscript element stride constant index) := by
  cases constant with
  | some i => exact h.pure _
  | none =>
    exact h.bind hi fun _ => h.bind (h.define fun _ => rfl) fun _ =>
      h.bind (h.define fun _ => rfl) fun _ => h.pure _

variable {ty : TypeId} {source : Lower Operand} {target : Lower Place}

theorem assignStruct (hs : P source) (ht : P target) : P (assignStruct r ty source target) :=
  h.bind hs fun _ => h.bind ht fun _ => h.bind (h.copy r _ _) fun _ => h.address _

theorem assignScalar (hs : P source) (ht : P target) : P (assignScalar r ty source target) :=
  h.bind hs fun _ => h.bind (h.convert r _ _) fun _ => h.bind ht fun _ =>
    h.bind (h.store r _ _) fun _ => h.pure _

theorem assignCompound (op : BinaryOp) (e : Expr) (hs : P source) (ht : P target) :
    P (assignCompound r op ty e source target) :=
  h.bind ht fun _ => h.bind (h.load r _) fun _ => h.bind hs fun _ => h.bind (h.typeOf e) fun _ =>
    h.bind (h.arithmetic r _ _ _ _ _ _) fun _ => h.bind (h.store r _ _) fun _ => h.pure _

theorem step (decrement yieldsOld : Bool) (ht : P target) :
    P (step r ty decrement yieldsOld target) :=
  h.bind ht fun _ => h.bind (h.load r _) fun _ =>
    h.bind (h.define fun _ => by cases decrement <;> rfl) fun _ =>
    h.bind (h.convert r _ _) fun _ => h.bind (h.store r _ _) fun _ => h.pure _

theorem call (callee : Expr) {args : Lower (List Operand)} (ha : P args) :
    P (call r ty callee args) := by
  unfold Lowering.call
  split
  · exact h.bind ha fun _ =>
      ite (h.bind (h.emit rfl) fun _ => h.pure _) (h.define fun _ => rfl)
  · exact h.throw _

theorem cast (v : Operand) : P (cast r ty v) := ite (h.pure _) (h.convert r v ty)

end Closed

/-! Trees. -/

theorem blockValue_cons (c : Context) (i : BlockItem) (is : List BlockItem) :
    (blockValue c (i :: is) = do blockItem c i; blockValue c is) ∨
      ∃ e span, i = .statement ⟨.expr e, span⟩ ∧ is = [] ∧
        blockValue c (i :: is) = valueOf c.registry (expr c e) := by
  rw [blockValue.eq_def]
  split
  · contradiction
  · rename_i e span h
    obtain ⟨rfl, rfl⟩ := List.cons.inj h
    exact .inr ⟨e, span, rfl, rfl, rfl⟩
  · rename_i h
    obtain ⟨rfl, rfl⟩ := List.cons.inj h
    exact .inl rfl

namespace Nested

variable {P Q : ∀ {α : Type}, Lower α → Prop} (h : Nested P Q)

include h

mutual

theorem expr (c : Context) : ∀ e, P (expr c e)
  | ⟨_, _, none⟩ => by rw [Lowering.expr]; exact h.inner.throw _
  | ⟨kind, _, some ty⟩ => by rw [Lowering.expr]; exact exprKind c ty kind

theorem exprKind (c : Context) (ty : TypeId) : ∀ k, P (exprKind c ty k)
  | .integer n => by rw [Lowering.exprKind]; exact h.inner.pure _
  | .character b => by rw [Lowering.exprKind]; exact h.inner.pure _
  | .string text => by
    rw [Lowering.exprKind]
    exact h.inner.bind (h.inner.addText _) fun _ => h.inner.pure _
  | .name name => by
    rw [Lowering.exprKind]
    exact h.inner.bind (h.inner.variableAddress _) fun _ => h.inner.pure _
  | .binary op left right => by
    have hl := h.inner.valueOf c.registry (expr c left)
    have hr := h.inner.valueOf c.registry (expr c right)
    rw [Lowering.exprKind]
    exact Closed.ite (h.inner.map (h.inner.logical hl hr)) (h.inner.bind hl fun _ =>
      h.inner.bind hr fun _ => h.inner.bind (h.inner.typeOf _) fun _ =>
      h.inner.bind (h.inner.typeOf _) fun _ => h.inner.map (h.inner.arithmetic _ _ _ _ _ _ _))
  | .unary op operand => by
    rw [Lowering.exprKind]
    exact h.inner.bind (h.inner.valueOf _ (expr c operand)) fun _ =>
      h.inner.bind (h.inner.define fun _ => rfl) fun _ => h.inner.map (h.inner.convert _ _ _)
  | .assign op target source => by
    have hs := h.inner.valueOf c.registry (expr c source)
    have ht := h.inner.placeOf target (expr c target)
    cases op with
    | none =>
      rw [Lowering.exprKind]
      exact Closed.ite (h.inner.map (h.inner.assignStruct _ hs ht))
        (h.inner.map (h.inner.assignScalar _ hs ht))
    | some op =>
      rw [Lowering.exprKind]
      exact Closed.ite (h.inner.map (h.inner.assignStruct _ hs ht))
        (h.inner.map (h.inner.assignCompound _ op source hs ht))
  | .conditional cond yes no => by
    rw [Lowering.exprKind]
    exact h.inner.map (h.inner.conditional (h.inner.valueOf _ (expr c cond))
      (h.inner.bind (h.inner.valueOf _ (expr c yes)) fun _ => h.inner.convert _ _ _)
      (h.inner.bind (h.inner.valueOf _ (expr c no)) fun _ => h.inner.convert _ _ _))
  | .call callee args => by
    rw [Lowering.exprKind]
    exact h.inner.map (h.inner.call _ callee (values c args))
  | .index array index => by
    have ha := expr c array
    have hi := h.inner.valueOf c.registry (expr c index)
    rw [Lowering.exprKind]
    refine h.inner.bind (h.inner.typeOf _) fun _ => Closed.ite ?_ ?_
    · exact h.inner.bind (h.inner.storageOf ha 0 ty) fun _ => h.inner.map (h.inner.subscript _ _ _ hi)
    · exact h.inner.bind (h.inner.valueOf _ ha) fun _ => h.inner.bind (h.inner.pure _) fun _ =>
        h.inner.map (h.inner.subscript _ _ _ hi)
  | .member object field resolved => by
    rw [Lowering.exprKind]
    exact h.inner.bind (h.inner.need _ _) fun _ =>
      h.inner.map (h.inner.storageOf (expr c object) _ _)
  | .pointerMember pointer field resolved => by
    rw [Lowering.exprKind]
    exact h.inner.bind (h.inner.need _ _) fun _ =>
      h.inner.bind (h.inner.valueOf _ (expr c pointer)) fun _ => h.inner.pure _
  | .cast _ operand => by
    rw [Lowering.exprKind]
    exact h.inner.bind (h.inner.valueOf _ (expr c operand)) fun _ => h.inner.map (h.inner.cast _ _)
  | .query _ _ => by rw [Lowering.exprKind]; exact h.inner.throw _
  | .typeQuery _ _ => by rw [Lowering.exprKind]; exact h.inner.throw _
  | .addressOf operand => by
    rw [Lowering.exprKind]
    exact h.inner.bind (h.inner.placeOf operand (expr c operand)) fun _ =>
      h.inner.map (h.inner.address _)
  | .deref pointer => by
    rw [Lowering.exprKind]
    exact h.inner.bind (h.inner.valueOf _ (expr c pointer)) fun _ => h.inner.pure _
  | .step operand decrement yieldsOld => by
    rw [Lowering.exprKind]
    exact h.inner.map (h.inner.step _ _ _ (h.inner.placeOf operand (expr c operand)))
  | .comma items => by
    rw [Lowering.exprKind]
    exact h.inner.map (lastValue c (.const 0) items)
  | .block ⟨items, _⟩ => by
    rw [Lowering.exprKind]
    exact h.inner.map (h.inScope (blockValue c items))

theorem values (c : Context) : ∀ es, P (values c es)
  | [] => by rw [Lowering.values]; exact h.inner.pure _
  | e :: es => by
    rw [Lowering.values]
    exact h.inner.bind (h.inner.valueOf _ (expr c e)) fun _ =>
      h.inner.bind (values c es) fun _ => h.inner.pure _

theorem lastValue (c : Context) (last : Operand) : ∀ es, P (lastValue c last es)
  | [] => by rw [Lowering.lastValue]; exact h.inner.pure _
  | e :: es => by
    rw [Lowering.lastValue]
    exact h.inner.bind (h.inner.valueOf _ (expr c e)) fun v => lastValue c v es

theorem blockValue (c : Context) : ∀ is, Q (blockValue c is)
  | [] => by rw [Lowering.blockValue]; exact h.outer.pure _
  | [.statement ⟨.expr e, _⟩] => by
    rw [Lowering.blockValue]
    exact h.weaken (h.inner.valueOf _ (expr c e))
  | i :: is => by
    have hi := blockItem c i
    have his := blockValue c is
    rcases blockValue_cons c i is with heq | ⟨e, span, rfl, rfl, heq⟩
    · rw [heq]
      exact h.outer.bind hi fun _ => his
    · rw [heq]
      rw [Lowering.blockItem, Lowering.stmt, Lowering.stmtKind] at hi
      exact h.outer.of_map hi

theorem blockItems (c : Context) : ∀ is, Q (blockItems c is)
  | [] => by rw [Lowering.blockItems]; exact h.outer.pure _
  | i :: is => by
    rw [Lowering.blockItems]
    exact h.outer.bind (blockItem c i) fun _ => blockItems c is

theorem blockItem (c : Context) : ∀ i, Q (blockItem c i)
  | .statement s => by rw [Lowering.blockItem]; exact h.weaken (stmt c s)
  | .declaration d => by rw [Lowering.blockItem]; exact declaration c d

theorem stmt (c : Context) : ∀ s, P (stmt c s)
  | ⟨.expr e, _⟩ => by
    rw [Lowering.stmt, stmtKind]
    exact h.inner.map (h.inner.valueOf _ (expr c e))
  | ⟨.empty, _⟩ => by rw [Lowering.stmt, stmtKind]; exact h.inner.pure _
  | ⟨.block ⟨items, _⟩, _⟩ => by
    rw [Lowering.stmt, stmtKind]
    exact h.inScope (blockItems c items)
  | ⟨.if_ cond yes none, _⟩ => by
    rw [Lowering.stmt, stmtKind]
    exact h.inner.ifOnly (h.inner.valueOf _ (expr c cond)) (stmt c yes)
  | ⟨.if_ cond yes (some no), _⟩ => by
    rw [Lowering.stmt, stmtKind]
    exact h.inner.ifElse (h.inner.valueOf _ (expr c cond)) (stmt c yes) (stmt c no)
  | ⟨.loop kind init cond update body, _⟩ => by
    rw [Lowering.stmt, stmtKind]
    exact h.inScope (h.outer.bind (loopInit c init) fun _ => h.weaken
      (h.inner.loop (test c cond) (fun _ _ => stmt _ body) (effect c update)))
  | ⟨.break_, _⟩ => by rw [Lowering.stmt, stmtKind]; exact h.inner.leave _
  | ⟨.continue_, _⟩ => by rw [Lowering.stmt, stmtKind]; exact h.inner.leave _
  | ⟨.return_ none, _⟩ => by rw [Lowering.stmt, stmtKind]; exact h.inner.emit rfl
  | ⟨.return_ (some e), _⟩ => by
    rw [Lowering.stmt, stmtKind]
    exact h.inner.bind (h.inner.valueOf _ (expr c e)) fun _ =>
      h.inner.bind (h.inner.convert _ _ _) fun _ => h.inner.emit rfl

theorem loopInit (c : Context) : ∀ i, Q (loopInit c i)
  | none => by rw [Lowering.loopInit]; exact h.outer.pure _
  | some (.expr e) => by rw [Lowering.loopInit]; exact h.weaken (h.inner.map (h.inner.valueOf _ (expr c e)))
  | some (.declaration d) => by rw [Lowering.loopInit]; exact declaration c d

theorem test (c : Context) : ∀ e l, P (test c e l)
  | none, _ => by rw [Lowering.test]; exact h.inner.pure _
  | some e, l => by
    rw [Lowering.test]
    exact h.inner.bind (h.inner.valueOf _ (expr c e)) fun _ => h.inner.emit rfl

theorem effect (c : Context) : ∀ e, P (effect c e)
  | none => by rw [Lowering.effect]; exact h.inner.pure _
  | some e => by rw [Lowering.effect]; exact h.inner.map (h.inner.valueOf _ (expr c e))

theorem declaration (c : Context) : ∀ d, Q (declaration c d)
  | ⟨.vars vars, _⟩ => by rw [Lowering.declaration]; exact varDecls c vars
  | ⟨.struct _, _⟩ => by rw [Lowering.declaration]; exact h.outer.pure _

theorem varDecls (c : Context) : ∀ vs, Q (varDecls c vs)
  | [] => by rw [Lowering.varDecls]; exact h.outer.pure _
  | v :: vs => by
    rw [Lowering.varDecls]
    exact h.outer.bind (localVar c v) fun _ => varDecls c vs

theorem localVar (c : Context) : ∀ v, Q (localVar c v)
  | ⟨name, _, init, _, resolved⟩ => by
    rw [Lowering.localVar]
    refine h.outer.bind (h.outer.need _ _) fun ty => h.outer.bind (h.outer.allocate _ _) fun slot =>
      h.outer.bind (h.bindName _ _) fun _ => ?_
    cases init with
    | none => exact h.outer.pure _
    | some i =>
      have hi := h.weaken (initializer c ⟨.temp slot, 0, ty⟩ i)
      exact Closed.ite (h.outer.bind (h.outer.zero _ _) fun _ => hi) hi

theorem initializer (c : Context) (target : Place) : ∀ i, P (initializer c target i)
  | .expr e => by
    have he := h.inner.valueOf c.registry (expr c e)
    rw [Lowering.initializer]
    split
    · exact h.inner.storeBytes _ _
    · exact h.inner.bind he fun _ => h.inner.copy _ _ _
    · exact h.inner.bind he fun _ => h.inner.bind (h.inner.convert _ _ _) fun _ =>
        h.inner.store _ _ _
  | .list items _ => by
    rw [Lowering.initializer]
    split
    · exact elements c _ target items
    · exact members c target _ items
    · exact firstItem c target items

theorem elements (c : Context) (element : TypeId) (target : Place) :
    ∀ is, P (elements c element target is)
  | [] => by rw [Lowering.elements]; exact h.inner.pure _
  | i :: is => by
    rw [Lowering.elements]
    exact h.inner.bind (initializer c _ i) fun _ => elements c element _ is

theorem members (c : Context) (target : Place) (ms : List Member) :
    ∀ is, P (members c target ms is)
  | [] => by rw [Lowering.members]; exact h.inner.pure _
  | i :: is => by
    cases ms with
    | nil => rw [Lowering.members]; exact h.inner.pure _
    | cons m ms =>
      rw [Lowering.members]
      exact h.inner.bind (initializer c _ i) fun _ => members c target ms is

theorem firstItem (c : Context) (target : Place) : ∀ is, P (firstItem c target is)
  | [] => by rw [Lowering.firstItem]; exact h.inner.pure _
  | i :: _ => by rw [Lowering.firstItem]; exact initializer c target i

end

end Nested

end MiniC.Lowering
