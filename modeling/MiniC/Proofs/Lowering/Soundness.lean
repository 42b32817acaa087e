import MiniC.Proofs.Lowering.Shapes
/-!
The code for trees keeps the invariant. Main statements: the code for an expression, a statement or
a declaration whose names mean something is sound, with the labels of the innermost loop as targets.
-/
namespace MiniC.Lowering

open Code (Inst Label Names Operand Temp)
open Syntax

/-- Where a break or a continue goes. -/
def Context.targets (c : Context) : Set Label := {l | c.breakTo = some l ∨ c.continueTo = some l}

def Lowered.operands : Lowered → List Operand
  | .place p => [p.base]
  | .value v => [v]

/-! Forms of expressions. -/

section Forms

variable {N : Names} {T : Set Label} {L : Locals} {os : List Operand} (r : Registry)
  {code : Lower Lowered} {ty : TypeId} {source : Lower Operand} {target : Lower Place}

theorem sound_valueOf (h : Sound N T L L os code Lowered.operands) :
    Sound N T L L os (valueOf r code) fun v => [v] :=
  h.bind fun l =>
    match l with
    | .place _ => sound_load r (has_self _ _)
    | .value _ => .give (has_self _ _) rfl

theorem sound_placeOf (e : Expr) (h : Sound N T L L os code Lowered.operands) :
    Sound N T L L os (placeOf e code) fun p => [p.base] :=
  h.bind fun l =>
    match l with
    | .place _ => .give (has_self _ _) rfl
    | .value _ => .throw _

theorem sound_storageOf (h : Sound N T L L os code Lowered.operands) (offset : Int64)
    (ty : TypeId) : Sound N T L L os (storageOf code offset ty) fun p => [p.base] :=
  h.bind fun l =>
    match l with
    | .place _ => .give (has_self _ _) rfl
    | .value _ => .give (has_self _ _) rfl

/-- What a pointer points to. -/
theorem sound_base {v : Operand} (hv : Has os v) :
    Sound N T L L os (pure ⟨v, 0, ty⟩) fun p => [Place.base p] :=
  .give hv rfl

theorem sound_subscript {element : Place} (he : Has os element.base) (stride : Int64)
    (constant : Option Int64) {index : Lower Operand}
    (h : Sound N T L L os index fun v => [v]) :
    Sound N T L L os (subscript element stride constant index) fun p => [p.base] := by
  cases constant with
  | some i => exact .give he rfl
  | none =>
    exact h.bind fun _ => (sound_binary _ (has_self _ _) (has_const _ _)).bind fun _ =>
      (sound_binary _ ((he.append [_]).append [_]) (has_self _ _)).bind fun _ =>
      .give (has_self _ _) rfl

variable (hs : ∀ os, Sound N T L L os source fun v => [v])
  (ht : ∀ os, Sound N T L L os target fun p => [p.base])

include hs ht in
theorem sound_assignStruct :
    Sound N T L L os (assignStruct r ty source target) fun v => [v] :=
  (hs _).bind fun _ => (ht _).bind fun _ =>
    (sound_copy r (has_self _ _) ((has_self _ _).tail _)).bind fun _ =>
    sound_address (has_self _ _)

include hs ht in
theorem sound_assignScalar :
    Sound N T L L os (assignScalar r ty source target) fun v => [v] :=
  (hs _).bind fun _ => (sound_convert r (has_self _ _) _).bind fun _ => (ht _).bind fun _ =>
    (sound_store r (has_self _ _) ((has_self _ _).tail _)).bind fun _ =>
    .give ((has_self _ _).tail _) rfl

include hs ht in
theorem sound_assignCompound (op : BinaryOp) (e : Expr) :
    Sound N T L L os (assignCompound r op ty e source target) fun v => [v] :=
  (ht _).bind fun _ => (sound_load r (has_self _ _)).bind fun _ => (hs _).bind fun _ =>
    (Sound.need _ _).bind fun _ =>
    (sound_arithmetic r op ((has_self _ _).tail _) (has_self _ _) _ _ _).bind fun _ =>
    (sound_store r ((((has_self _ _).tail _).tail _).tail _) (has_self _ _)).bind fun _ =>
    .give (has_self _ _) rfl

include ht in
theorem sound_step (decrement yieldsOld : Bool) :
    Sound N T L L os (step r ty decrement yieldsOld target) fun v => [v] := by
  refine (ht _).bind fun _ => (sound_load r (has_self _ _)).bind fun _ =>
    (sound_binary _ (has_self _ _) (has_const _ _)).bind fun _ =>
    (sound_convert r (has_self _ _) _).bind fun _ =>
    (sound_store r ((((has_self _ _).tail _).tail _).tail _) (has_self _ _)).bind fun _ => ?_
  cases yieldsOld
  · exact .give (has_self _ _) rfl
  · exact .give (((has_self _ _).tail _).tail _) rfl

theorem sound_call (callee : Expr) {args : Lower (List Operand)} {count : Nat}
    (hfits : Scoped.fitsCall N callee count) (hcount : ∀ s vs s', args s = .ok (vs, s') → vs.length = count)
    (ha : Sound N T L L os args fun vs => vs) :
    Sound N T L L os (call r ty callee args) fun v => [v] := by
  unfold call
  split
  · rename_i name hname
    have hreads (vs : List Operand) : ∀ o ∈ vs, Has (vs ++ os) o :=
      fun o ho => .inl (List.mem_append_left _ ho)
    refine ha.bind_of hcount fun vs hvs => ?_
    have hfits' : N.fits name vs.length := hvs ▸ hfits name hname
    have hemit : Sound N T L L (vs ++ os) (emit (.call none name vs)) fun _ => [] :=
      .emit rfl rfl rfl rfl hfits' (hreads vs)
    exact .ite (hemit.bind fun _ =>
        .give (has_const _ _) rfl)
      (.define (fun _ => rfl) (fun _ => rfl) (fun _ => rfl) (fun _ => rfl) (fun _ => hfits')
        fun _ => hreads vs)
  · exact .throw _

theorem sound_cast {v : Operand} (hv : Has os v) : Sound N T L L os (cast r ty v) fun w => [w] :=
  .ite (.give (has_const _ _) rfl) (sound_convert r hv _)

theorem sound_leave {target : Option Label} (h : ∀ l, target = some l → l ∈ T) :
    Sound N T L L os (leave target) fun _ => [] := by
  cases target with
  | none => exact .pure nofun
  | some l => exact .jump rfl (h l rfl) nofun

end Forms

theorem length_values (c : Context) : ∀ (es : List Expr) s vs s',
    values c es s = .ok (vs, s') → vs.length = es.length
  | [], s, vs, s', h => by
    rw [values] at h
    obtain ⟨rfl, rfl⟩ := pure_eq_ok.mp h
    rfl
  | e :: es, s, vs, s', h => by
    rw [values] at h
    obtain ⟨v, t, -, h⟩ := bind_eq_ok.mp h
    obtain ⟨vs, u, hvs, h⟩ := bind_eq_ok.mp h
    obtain ⟨rfl, rfl⟩ := pure_eq_ok.mp h
    exact congrArg (· + 1) (length_values c es t vs u hvs)

/-! Trees. -/

section Trees

variable {N : Names}

mutual

theorem sound_expr (c : Context) (L : Locals) : ∀ e, Scoped.expr N L e → ∀ os,
    Sound N c.targets L L os (expr c e) Lowered.operands
  | ⟨_, _, none⟩, _, _ => by rw [expr]; exact .throw _
  | ⟨kind, _, some ty⟩, h, os => by
    rw [expr]
    rw [Scoped.expr] at h
    exact sound_exprKind c L ty kind h os

theorem sound_exprKind (c : Context) (L : Locals) (ty : TypeId) : ∀ k, Scoped.exprKind N L k →
    ∀ os, Sound N c.targets L L os (exprKind c ty k) Lowered.operands
  | .integer n, _, _ => by
    rw [exprKind]
    exact .give (has_const _ _) rfl
  | .character b, _, _ => by
    rw [exprKind]
    exact .give (has_const _ _) rfl
  | .string text, _, _ => by
    rw [exprKind]
    exact (Sound.addText _).bind fun _ => .give (has_self _ _) rfl
  | .name name, h, _ => by
    rw [exprKind]
    rw [Scoped.exprKind] at h
    exact (sound_variableAddress h).bind fun _ =>
      .give (has_self _ _) rfl
  | .binary op left right, h, os => by
    rw [Scoped.exprKind] at h
    have hl (os) := sound_valueOf c.registry (sound_expr c L left h.1 os)
    have hr (os) := sound_valueOf c.registry (sound_expr c L right h.2 os)
    have hlg : Grows id _ := grows_valueOf c.registry (grows_expr c left)
    have hrg : Grows id _ := grows_valueOf c.registry (grows_expr c right)
    rw [exprKind]
    refine .ite ((sound_logical _ (hl os) hlg (hr os) hrg).map fun _ => rfl) ?_
    exact (hl os).bind fun _ => (hr _).bind fun _ => (Sound.need _ _).bind fun _ =>
      (Sound.need _ _).bind fun _ =>
      (sound_arithmetic _ op ((has_self _ _).tail _) (has_self _ _) _ _ _).map fun _ => rfl
  | .unary op operand, h, os => by
    rw [exprKind]
    rw [Scoped.exprKind] at h
    exact (sound_valueOf _ (sound_expr c L operand h os)).bind fun _ =>
      (sound_unary _ (has_self _ _)).bind fun _ => (sound_convert _ (has_self _ _) _).map fun _ => rfl
  | .assign op target source, h, os => by
    rw [Scoped.exprKind] at h
    have hs (os) := sound_valueOf c.registry (sound_expr c L source h.2 os)
    have ht (os) := sound_placeOf target (sound_expr c L target h.1 os)
    cases op with
    | none =>
      rw [exprKind]
      exact .ite ((sound_assignStruct _ hs ht).map fun _ => rfl)
        ((sound_assignScalar _ hs ht).map fun _ => rfl)
    | some op =>
      rw [exprKind]
      exact .ite ((sound_assignStruct _ hs ht).map fun _ => rfl)
        ((sound_assignCompound _ hs ht op source).map fun _ => rfl)
  | .conditional cond yes no, h, os => by
    rw [Scoped.exprKind] at h
    rw [exprKind]
    exact (sound_conditional (sound_valueOf _ (sound_expr c L cond h.1 os))
      ((sound_valueOf _ (sound_expr c L yes h.2.1 os)).bind fun _ =>
        sound_convert _ (has_self _ _) _)
      ((grows_valueOf _ (grows_expr c yes)).bind fun _ => grows_convert _ _ _)
      ((sound_valueOf _ (sound_expr c L no h.2.2 os)).bind fun _ =>
        sound_convert _ (has_self _ _) _)
      ((grows_valueOf _ (grows_expr c no)).bind fun _ => grows_convert _ _ _)).map fun _ => rfl
  | .call callee args, h, os => by
    rw [exprKind]
    rw [Scoped.exprKind] at h
    exact (sound_call _ callee h.1 (length_values c args) (sound_values c L args h.2 os)).map
      fun _ => rfl
  | .index array index, h, os => by
    rw [Scoped.exprKind] at h
    have ha (os) := sound_expr c L array h.1 os
    have hi (os) := sound_valueOf c.registry (sound_expr c L index h.2 os)
    rw [exprKind]
    refine (Sound.need _ _).bind fun _ => .ite ?_ ?_
    · exact (sound_storageOf (ha _) 0 ty).bind fun _ =>
        (sound_subscript (has_self _ _) _ _ (hi _)).map fun _ => rfl
    · exact (sound_valueOf _ (ha _)).bind fun v =>
        (sound_base (has_self _ _)).bind fun _ =>
        (sound_subscript (has_self _ _) _ _ (hi _)).map fun _ => rfl
  | .member object field resolved, h, os => by
    rw [exprKind]
    rw [Scoped.exprKind] at h
    exact (Sound.need _ _).bind fun _ =>
      (sound_storageOf (sound_expr c L object h _) _ _).map fun _ => rfl
  | .pointerMember pointer field resolved, h, os => by
    rw [exprKind]
    rw [Scoped.exprKind] at h
    exact (Sound.need _ _).bind fun _ => (sound_valueOf _ (sound_expr c L pointer h _)).bind fun _ =>
      .give (has_self _ _) rfl
  | .cast _ operand, h, os => by
    rw [exprKind]
    rw [Scoped.exprKind] at h
    exact (sound_valueOf _ (sound_expr c L operand h _)).bind fun _ =>
      (sound_cast _ (has_self _ _)).map fun _ => rfl
  | .query _ _, _, _ => by rw [exprKind]; exact .throw _
  | .typeQuery _ _, _, _ => by rw [exprKind]; exact .throw _
  | .addressOf operand, h, os => by
    rw [exprKind]
    rw [Scoped.exprKind] at h
    exact (sound_placeOf operand (sound_expr c L operand h _)).bind fun _ =>
      (sound_address (has_self _ _)).map fun _ => rfl
  | .deref pointer, h, os => by
    rw [exprKind]
    rw [Scoped.exprKind] at h
    exact (sound_valueOf _ (sound_expr c L pointer h _)).bind fun _ =>
      .give (has_self _ _) rfl
  | .step operand decrement yieldsOld, h, os => by
    rw [exprKind]
    rw [Scoped.exprKind] at h
    exact (sound_step _ (fun os => sound_placeOf operand (sound_expr c L operand h os)) _ _).map
      fun _ => rfl
  | .comma items, h, os => by
    rw [exprKind]
    rw [Scoped.exprKind] at h
    exact (sound_lastValue c L (.const 0) items h os (has_const _ _)).map fun _ => rfl
  | .block ⟨items, _⟩, h, os => by
    rw [exprKind]
    rw [Scoped.exprKind] at h
    exact (Sound.inScope (sound_blockValue c _ items h os)
      (BlockItem.tail_localsAfter _ _)).map fun _ => rfl

theorem sound_values (c : Context) (L : Locals) : ∀ es, Scoped.exprs N L es → ∀ os,
    Sound N c.targets L L os (values c es) fun vs => vs
  | [], _, _ => by rw [values]; exact .pure nofun
  | e :: es, h, os => by
    rw [values]
    rw [Scoped.exprs] at h
    refine (sound_valueOf _ (sound_expr c L e h.1 os)).bind fun v =>
      (sound_values c L es h.2 _).bind fun vs => .pure ?_
    intro o ho
    rcases List.mem_cons.mp ho with rfl | ho
    · exact (has_self _ _).append _
    · exact .inl (List.mem_append_left _ ho)

theorem sound_lastValue (c : Context) (L : Locals) (last : Operand) : ∀ es,
    Scoped.exprs N L es → ∀ os, Has os last →
    Sound N c.targets L L os (lastValue c last es) fun v => [v]
  | [], _, _, hlast => by rw [lastValue]; exact .give hlast rfl
  | e :: es, h, os, _ => by
    rw [lastValue]
    rw [Scoped.exprs] at h
    exact (sound_valueOf _ (sound_expr c L e h.1 os)).bind fun v =>
      sound_lastValue c L v es h.2 _ (has_self _ _)

theorem sound_blockValue (c : Context) (L : Locals) : ∀ is, Scoped.blockItems N L is → ∀ os,
    Sound N c.targets L (BlockItem.localsAfter L is) os (blockValue c is) fun v => [v]
  | [], _, _ => by rw [blockValue]; exact .give (has_const _ _) rfl
  | i :: is, h, os => by
    rw [Scoped.blockItems] at h
    have hi := sound_blockItem c L i h.1 os
    have his := sound_blockValue c (i.locals L) is h.2 os
    have hlast (e : Expr) (span : Span) (heq : i = .statement ⟨.expr e, span⟩) :
        Sound N c.targets L L os (valueOf c.registry (expr c e)) fun v => [v] :=
      match i, heq, h.1 with
      | .statement ⟨.expr e', _⟩, heq, h => by
        rw [Scoped.blockItem, Scoped.stmt, Scoped.stmtKind] at h
        have he := sound_valueOf c.registry (sound_expr c L e' h os)
        cases heq
        exact he
    rcases blockValue_cons c i is with hcode | ⟨e, span, rfl, rfl, hcode⟩
    · rw [hcode]
      exact hi.bind fun _ => his
    · rw [hcode]
      exact hlast e span rfl

theorem sound_blockItems (c : Context) (L : Locals) : ∀ is, Scoped.blockItems N L is → ∀ os,
    Sound N c.targets L (BlockItem.localsAfter L is) os (blockItems c is) fun _ => []
  | [], _, _ => by rw [blockItems]; exact .pure nofun
  | i :: is, h, os => by
    rw [blockItems]
    rw [Scoped.blockItems] at h
    exact (sound_blockItem c L i h.1 os).bind fun _ => sound_blockItems c _ is h.2 os

theorem sound_blockItem (c : Context) (L : Locals) : ∀ i, Scoped.blockItem N L i → ∀ os,
    Sound N c.targets L (i.locals L) os (blockItem c i) fun _ => []
  | .statement s, h, os => by
    rw [blockItem]
    rw [Scoped.blockItem] at h
    exact sound_stmt c L s h os
  | .declaration d, h, os => by
    rw [blockItem]
    rw [Scoped.blockItem] at h
    exact sound_declaration c L d h os

theorem sound_stmt (c : Context) (L : Locals) : ∀ s, Scoped.stmt N L s → ∀ os,
    Sound N c.targets L L os (stmt c s) fun _ => []
  | ⟨kind, _⟩, h, os => by
    rw [stmt]
    rw [Scoped.stmt] at h
    exact sound_stmtKind c L kind h os

theorem sound_stmtKind (c : Context) (L : Locals) : ∀ k, Scoped.stmtKind N L k → ∀ os,
    Sound N c.targets L L os (stmtKind c k) fun _ => []
  | .expr e, h, os => by
    rw [stmtKind]
    rw [Scoped.stmtKind] at h
    exact (sound_valueOf _ (sound_expr c L e h os)).discard
  | .empty, _, _ => by rw [stmtKind]; exact .pure nofun
  | .block ⟨items, _⟩, h, os => by
    rw [stmtKind]
    rw [Scoped.stmtKind] at h
    exact Sound.inScope (sound_blockItems c _ items h os) (BlockItem.tail_localsAfter _ _)
  | .if_ cond yes none, h, os => by
    rw [stmtKind]
    rw [Scoped.stmtKind] at h
    exact sound_ifOnly (sound_valueOf _ (sound_expr c L cond h.1 os)) (sound_stmt c L yes h.2.1 os)
      (grows_stmt c yes)
  | .if_ cond yes (some no), h, os => by
    rw [stmtKind]
    rw [Scoped.stmtKind, Scoped.stmt?] at h
    exact sound_ifElse (sound_valueOf _ (sound_expr c L cond h.1 os)) (sound_stmt c L yes h.2.1 os)
      (grows_stmt c yes) (sound_stmt c L no h.2.2 os) (grows_stmt c no)
  | .loop kind init cond update body, h, os => by
    rw [stmtKind]
    rw [Scoped.stmtKind] at h
    obtain ⟨hinit, hcond, hupdate, hbody⟩ := h
    refine Sound.inScope ((sound_loopInit c _ init hinit os).bind fun _ =>
      sound_loop _ (sound_test c _ cond hcond os) (grows_test c cond) ?_
        (fun _ _ => grows_stmt _ body) (sound_effect c _ update hupdate os) (grows_effect c update))
      (LoopInit.tail_locals _ _)
    intro stop next
    refine (sound_stmt { c with breakTo := some stop, continueTo := some next } _ body hbody
      os).targets_mono ?_
    rintro l (hl | hl)
    · cases hl
      exact .inl rfl
    · cases hl
      exact .inr rfl
  | .break_, _, _ => by rw [stmtKind]; exact sound_leave fun l hl => .inl hl
  | .continue_, _, _ => by rw [stmtKind]; exact sound_leave fun l hl => .inr hl
  | .return_ none, _, _ => by rw [stmtKind]; exact .ret nofun
  | .return_ (some e), h, os => by
    rw [stmtKind]
    rw [Scoped.stmtKind, Scoped.expr?] at h
    refine (sound_valueOf _ (sound_expr c L e h os)).bind fun _ =>
      (sound_convert _ (has_self _ _) _).bind fun v => .ret ?_
    intro o ho
    cases ho
    exact has_self _ _

theorem sound_loopInit (c : Context) (L : Locals) : ∀ i, Scoped.loopInit N L i → ∀ os,
    Sound N c.targets L (LoopInit.locals L i) os (loopInit c i) fun _ => []
  | none, _, _ => by rw [loopInit]; exact .pure nofun
  | some (.expr e), h, os => by
    rw [loopInit]
    rw [Scoped.loopInit] at h
    exact (sound_valueOf _ (sound_expr c L e h os)).discard
  | some (.declaration d), h, os => by
    rw [loopInit]
    rw [Scoped.loopInit] at h
    exact sound_declaration c L d h os

theorem sound_test (c : Context) (L : Locals) : ∀ e, Scoped.expr? N L e → ∀ os l,
    Sound N (insert l c.targets) L L os (test c e l) fun _ => []
  | none, _, _, _ => by rw [test]; exact .pure nofun
  | some e, h, os, l => by
    rw [test]
    rw [Scoped.expr?] at h
    exact ((sound_valueOf _ (sound_expr c L e h os)).targets_mono (Set.subset_insert _ _)).bind
      fun v => .jump rfl (Set.mem_insert _ _) (by simpa [Inst.operands] using has_self _ _)

theorem sound_effect (c : Context) (L : Locals) : ∀ e, Scoped.expr? N L e → ∀ os,
    Sound N c.targets L L os (effect c e) fun _ => []
  | none, _, _ => by rw [effect]; exact .pure nofun
  | some e, h, os => by
    rw [effect]
    rw [Scoped.expr?] at h
    exact (sound_valueOf _ (sound_expr c L e h os)).discard

theorem sound_declaration (c : Context) (L : Locals) : ∀ d, Scoped.declaration N L d → ∀ os,
    Sound N c.targets L (d.locals L) os (declaration c d) fun _ => []
  | ⟨.vars vars, _⟩, h, os => by
    rw [declaration]
    rw [Scoped.declaration] at h
    exact sound_varDecls c L vars h os
  | ⟨.struct _, _⟩, _, _ => by rw [declaration]; exact .pure nofun

theorem sound_varDecls (c : Context) (L : Locals) : ∀ vs, Scoped.varDecls N L vs → ∀ os,
    Sound N c.targets L (L.declareAll vs) os (varDecls c vs) fun _ => []
  | [], _, _ => by rw [varDecls]; exact .pure nofun
  | v :: vs, h, os => by
    rw [varDecls]
    rw [Scoped.varDecls] at h
    exact (sound_localVar c L v h.1 os).bind fun _ => sound_varDecls c _ vs h.2 os

theorem sound_localVar (c : Context) (L : Locals) : ∀ v, Scoped.varDecl N L v → ∀ os,
    Sound N c.targets L (L.declare v.name) os (localVar c v) fun _ => []
  | ⟨name, _, init, _, resolved⟩, h, os => by
    rw [localVar]
    rw [Scoped.varDecl] at h
    refine (Sound.need _ _).bind fun ty => (sound_allocate _ _).bind fun slot =>
      (Sound.bindName name (has_self _ _)).bind fun _ => ?_
    cases init with
    | none => exact .pure nofun
    | some i =>
      rw [Scoped.initializer?] at h
      have hi (os) (hslot : Has os (.temp slot)) :=
        sound_initializer c _ ⟨.temp slot, 0, ty⟩ i h os hslot
      exact .ite ((sound_zero _ (has_self _ _)).bind fun _ => hi _ (has_self _ _))
        (hi _ (has_self _ _))

theorem sound_initializer (c : Context) (L : Locals) (target : Place) : ∀ i,
    Scoped.initializer N L i → ∀ os, Has os target.base →
    Sound N c.targets L L os (initializer c target i) fun _ => []
  | .expr e, h, os, htarget => by
    rw [Scoped.initializer] at h
    have he := sound_valueOf c.registry (sound_expr c L e h os)
    rw [initializer]
    split
    · exact sound_storeBytes htarget _
    · exact he.bind fun _ => sound_copy _ (htarget.append _) (has_self _ _)
    · exact he.bind fun _ => (sound_convert _ (has_self _ _) _).bind fun _ =>
        sound_store _ ((htarget.append [_]).append [_]) (has_self _ _)
  | .list items _, h, os, htarget => by
    rw [Scoped.initializer] at h
    rw [initializer]
    split
    · exact sound_elements c L _ target items h os htarget
    · exact sound_members c L target _ items h os htarget
    · exact sound_firstItem c L target items h os htarget

theorem sound_elements (c : Context) (L : Locals) (element : TypeId) (target : Place) : ∀ is,
    Scoped.initializers N L is → ∀ os, Has os target.base →
    Sound N c.targets L L os (elements c element target is) fun _ => []
  | [], _, _, _ => by rw [elements]; exact .pure nofun
  | i :: is, h, os, htarget => by
    rw [elements]
    rw [Scoped.initializers] at h
    exact (sound_initializer c L { target with ty := element } i h.1 os htarget).bind fun _ =>
      sound_elements c L element (target.further _ target.ty) is h.2 os htarget

theorem sound_members (c : Context) (L : Locals) (target : Place) (ms : List Member) : ∀ is,
    Scoped.initializers N L is → ∀ os, Has os target.base →
    Sound N c.targets L L os (members c target ms is) fun _ => []
  | [], _, _, _ => by rw [members]; exact .pure nofun
  | i :: is, h, os, htarget => by
    rw [Scoped.initializers] at h
    cases ms with
    | nil => rw [members]; exact .pure nofun
    | cons m ms =>
      rw [members]
      exact (sound_initializer c L (target.further _ m.ty) i h.1 os htarget).bind fun _ =>
        sound_members c L target ms is h.2 os htarget

theorem sound_firstItem (c : Context) (L : Locals) (target : Place) : ∀ is,
    Scoped.initializers N L is → ∀ os, Has os target.base →
    Sound N c.targets L L os (firstItem c target is) fun _ => []
  | [], _, _, _ => by rw [firstItem]; exact .pure nofun
  | i :: _, h, os, htarget => by
    rw [firstItem]
    rw [Scoped.initializers] at h
    exact sound_initializer c L target i h.1 os htarget

end

end Trees

end MiniC.Lowering
