import MiniC.Proofs.Evaluation.Tree
/-!
What calls come to. The only way out of a function from within its body is a return statement, and
that converts its value to the type of the function. Main statement: a call of a function yields zero
or a value that was converted to the type which the function returns.
-/
namespace MiniC.Evaluation

open Machine (Fault)
open Syntax

/-- What the action returns from its function, if it does, satisfies `P`. -/
def Returning {α : Type} (P : Int64 → Prop) (act : Action α) : Prop :=
  ∀ ⦃st v st'⦄, act st = .error (.returned v) st' → P v

namespace Returning

variable {α β : Type} {P : Int64 → Prop} {act : Action α} {r : Registry}

theorem pure (a : α) : Returning P (Pure.pure a : Action α) := by
  intro st v st' hrun
  cases hrun

theorem bind {k : α → Action β} (h : Returning P act) (hk : ∀ a, Returning P (k a)) :
    Returning P (act >>= k) := by
  intro st v st' hrun
  replace hrun : EStateM.bind act k st = .error (.returned v) st' := hrun
  unfold EStateM.bind at hrun
  cases hact : act st with
  | ok a s =>
    rw [hact] at hrun
    exact hk a hrun
  | error e s =>
    rw [hact] at hrun
    cases hrun
    exact h hact

theorem map (φ : α → β) (h : Returning P act) : Returning P (φ <$> act) := by
  intro st v st' hrun
  replace hrun : EStateM.map φ act st = .error (.returned v) st' := hrun
  unfold EStateM.map at hrun
  cases hact : act st with
  | ok a s =>
    rw [hact] at hrun
    cases hrun
  | error e s =>
    rw [hact] at hrun
    cases hrun
    exact h hact

theorem ret {v : Int64} (h : P v) : Returning P (throw (.returned v) : Action α) := by
  intro st w st' hrun
  cases hrun
  exact h

theorem fault (e : Fault) : Returning P (throw (.fault e) : Action α) := by
  intro st v st' hrun
  cases hrun

theorem stuck : Returning P (throw .stuck : Action α) := by
  intro st v st' hrun
  cases hrun

theorem broke : Returning P (throw .broke : Action α) := by
  intro st v st' hrun
  cases hrun

theorem continued : Returning P (throw .continued : Action α) := by
  intro st v st' hrun
  cases hrun

theorem unfinished : Returning P (throw .unfinished : Action α) := by
  intro st v st' hrun
  cases hrun

theorem get : Returning P (MonadState.get : Action Store) := by
  intro st v st' hrun
  cases hrun

theorem modifying (f : Store → Store) : Returning P (modify f : Action Unit) := by
  intro st v st' hrun
  cases hrun

theorem ite {b : Prop} [Decidable b] {act' : Action α} (h : Returning P act)
    (h' : Returning P act') : Returning P (if b then act else act') := by
  by_cases hb : b
  · rwa [if_pos hb]
  · rwa [if_neg hb]

theorem lift (x : Except Fault α) : Returning P (lift x) := by
  cases x with
  | ok a => exact .pure a
  | error e => exact .fault e

theorem need (x : Option α) : Returning P (need x) := by
  cases x with
  | some a => exact .pure a
  | none => exact .stuck

/-! Memory. -/

theorem read (address : Int64) (access : Access) : Returning P (read address access) :=
  .bind .get fun _ => .lift _

theorem write (address : Int64) (size : Nat) (v : Int64) : Returning P (write address size v) :=
  .bind .get fun _ => .bind (.lift _) fun _ => .modifying _

theorem reside (j size align : Nat) : Returning P (reside j size align) := by
  refine .bind .get fun st => ?_
  split
  · exact .pure _
  · split
    · exact .fault _
    · exact .ite (.bind (.modifying fun _ => _) fun _ => .pure _) (.fault _)

theorem home (j : Nat) : Returning P (home j) := by
  refine .bind .get fun st => ?_
  split
  · exact .pure _
  · exact .stuck

theorem load (ty : TypeId) (address : Int64) : Returning P (load r ty address) := by
  refine .ite (.pure _) ?_
  split
  · exact .read _ _
  · exact .pure _

theorem store (ty : TypeId) (address v : Int64) : Returning P (store r ty address v) := by
  unfold Evaluation.store
  split
  · exact .write _ _ _
  · exact .stuck

theorem copy (ty : TypeId) (target source : Int64) : Returning P (copy r ty target source) := by
  unfold Evaluation.copy
  induction r.moves ty with
  | nil => exact .pure _
  | cons m ms ih => exact .bind (.read _ _) fun _ => .bind (.write _ _ _) fun _ => ih

theorem zero (ty : TypeId) (target : Int64) : Returning P (zero r ty target) := by
  unfold Evaluation.zero
  induction r.moves ty with
  | nil => exact .pure _
  | cons m ms ih => exact .bind (.write _ _ _) fun _ => ih

theorem storeBytes (bytes : List UInt8) (target : Int64) : Returning P (storeBytes target bytes) := by
  induction bytes generalizing target with
  | nil => exact .pure _
  | cons b bs ih => exact .bind (.write _ _ _) fun _ => ih _

/-! Expressions. -/

theorem valueOf {act : Action Denoted} (h : Returning P act) : Returning P (valueOf r act) := by
  refine h.bind fun d => ?_
  cases d with
  | object ty address => exact .load ty address
  | value v => exact .pure v

theorem placeOf {act : Action Denoted} (h : Returning P act) : Returning P (placeOf act) := by
  refine h.bind fun d => ?_
  cases d with
  | object ty address => exact .pure _
  | value v => exact .stuck

theorem storageOf {act : Action Denoted} (h : Returning P act) : Returning P (storageOf act) := by
  refine h.bind fun d => ?_
  cases d with
  | object ty address => exact .pure _
  | value v => exact .pure v

theorem elementsOf {act : Action Denoted} (ty : Option TypeId) (h : Returning P act) :
    Returning P (elementsOf r ty act) :=
  .bind (.need ty) fun _ => .ite h.storageOf h.valueOf

section Operands

variable {left right : Action Int64} {target : Action (TypeId × Int64)} (hl : Returning P left)
  (hr : Returning P right) (ht : Returning P target)

include hl hr in
theorem subscript (stride : Int64) : Returning P (subscript stride left right) :=
  hl.bind fun _ => hr.bind fun _ => .pure _

include hl in
theorem converted (ty : TypeId) : Returning P (converted r ty left) := hl.bind fun _ => .pure _

include hl in
theorem ret_converted {ty : TypeId} (h : ∀ v, P (convert r v ty)) :
    Returning P (do throw (.returned (← Evaluation.converted r ty left)) : Action α) := by
  unfold Evaluation.converted
  rw [bind_assoc]
  exact hl.bind fun v => .ret (h v)

include hl in
theorem unary (op : UnaryOp) (ty : TypeId) : Returning P (unary r op ty left) :=
  hl.bind fun _ => .pure _

include hl hr in
theorem binary (op : BinaryOp) (leftTy rightTy : Option TypeId) (ty : TypeId) :
    Returning P (binary r op leftTy rightTy ty left right) :=
  hl.bind fun _ => hr.bind fun _ => .bind (.need _) fun _ => .bind (.need _) fun _ => .lift _

include hl in
theorem cast (ty : TypeId) : Returning P (cast r ty left) := hl.bind fun _ => .pure _

include hl hr in
theorem logical (isAnd : Bool) : Returning P (logical isAnd left right) :=
  hl.bind fun _ => .ite (hr.bind fun _ => .pure _) (.pure _)

include hl in
theorem conditional {yes no : Action α} (hyes : Returning P yes) (hno : Returning P no) :
    Returning P (conditional left yes no) :=
  hl.bind fun _ => .ite hyes hno

include hl ht in
theorem assignStruct : Returning P (assignStruct r left target) :=
  hl.bind fun _ => ht.bind fun _ => .bind (.copy _ _ _) fun _ => .pure _

include hl ht in
theorem assignScalar (ty : TypeId) : Returning P (assignScalar r ty left target) :=
  .bind (hl.converted ty) fun _ => ht.bind fun _ => .bind (.store _ _ _) fun _ => .pure _

include hl ht in
theorem assignCompound (op : BinaryOp) (ty : TypeId) (sourceTy : Option TypeId) :
    Returning P (assignCompound r op ty sourceTy left target) :=
  ht.bind fun _ => .bind (.load _ _) fun _ => hl.bind fun _ => .bind (.need _) fun _ =>
    .bind (.lift _) fun _ => .bind (.store _ _ _) fun _ => .pure _

include ht in
theorem step (ty : TypeId) (decrement yieldsOld : Bool) :
    Returning P (step r ty decrement yieldsOld target) :=
  ht.bind fun _ => .bind (.load _ _) fun _ => .bind (.store _ _ _) fun _ => .pure _

end Operands

/-! Loops. -/

section Loops

variable {test : Action Bool} {body update : Action Unit} (htest : Returning P test)
  (hbody : Returning P body) (hupdate : Returning P update)

include hbody in
theorem caught : Returning P (caught body) := by
  intro st v st' hrun
  unfold Evaluation.caught at hrun
  split at hrun
  · cases hrun
  · cases hrun
  · cases hrun
  · rename_i hact
    cases hrun
    exact hbody hact

include hbody hupdate in
theorem round {again : Action Unit} (h : Returning P again) :
    Returning P (round body update again) :=
  hbody.caught.bind fun _ => .ite (hupdate.bind fun _ => h) (.pure _)

include htest hbody hupdate in
theorem rounds (n : Nat) : Returning P (rounds test body update n) := by
  induction n with
  | zero => exact .unfinished
  | succ n ih => exact htest.bind fun _ => .ite (hbody.round hupdate ih) (.pure _)

include htest hbody hupdate in
theorem loop (testsFirst : Bool) (n : Nat) : Returning P (loop testsFirst test body update n) :=
  .ite (htest.rounds hbody hupdate n) (hbody.round hupdate (htest.rounds hbody hupdate n))

end Loops

end Returning

/-- Whatever the counters are, what is found out satisfies `Q`. -/
def Finds {α : Type} (Q : α → Prop) (sem : Resolve α) : Prop := ∀ k, Q (sem k).1

namespace Finds

variable {α β : Type} {Q : α → Prop} {Q' : β → Prop} {sem : Resolve α} {P : Int64 → Prop}

theorem pure {a : α} (h : Q a) : Finds Q (Pure.pure a) := fun _ => h

theorem bind {f : α → Resolve β} (h : Finds Q sem) (hf : ∀ a, Q a → Finds Q' (f a)) :
    Finds Q' (sem >>= f) :=
  fun k => hf _ (h k) _

theorem map {φ : α → β} (h : Finds Q sem) (hφ : ∀ a, Q a → Q' (φ a)) : Finds Q' (φ <$> sem) :=
  fun k => hφ _ (h k)

theorem any (sem : Resolve α) : Finds (fun _ => True) sem := fun _ => trivial

theorem valueOf {sem : Resolve (Action Denoted)} (h : Finds (Returning P) sem) (r : Registry) :
    Finds (Returning P) (valueOf r <$> sem) :=
  h.map fun _ hact => hact.valueOf

theorem placeOf {sem : Resolve (Action Denoted)} (h : Finds (Returning P) sem) :
    Finds (Returning P) (placeOf <$> sem) :=
  h.map fun _ hact => hact.placeOf

end Finds

/-- What the functions around satisfy: calls return nothing from their caller, and `P` holds of zero
and of what is converted to the type of the function. -/
structure Context.Returns (c : Context) (P : Int64 → Prop) : Prop where
  zero : P 0
  converted : ∀ v, P (convert c.registry v c.returns)
  call : ∀ name vs, Returning P (c.call name vs)

namespace Context.Returns

variable {c : Context} {P : Int64 → Prop}

theorem inScopes (h : c.Returns P) (scopes : Scopes) : { c with scopes }.Returns P :=
  ⟨h.zero, h.converted, h.call⟩

theorem inLoop (h : c.Returns P) (scopes : Scopes) : { c with scopes, inLoop := true }.Returns P :=
  ⟨h.zero, h.converted, h.call⟩

theorem named (ty : TypeId) (name : String) : Returning P (c.named ty name) := by
  unfold Context.named
  split
  · exact .bind (.home _) fun _ => .pure _
  · split
    · exact .pure _
    · exact .fault _

theorem callOf (h : c.Returns P) (ty : TypeId) (callee : Expr) {args : Action (List Int64)}
    (hargs : Returning P args) : Returning P (c.callOf ty callee args) := by
  unfold Context.callOf
  split
  · exact hargs.bind fun vs => .bind (h.call _ vs) fun _ => .pure _
  · exact .stuck

end Context.Returns

/-! Trees. Expressions have statements in them, so that one may return as well. -/

section Trees

variable {P : Int64 → Prop}

mutual

theorem returning_expr {c : Context} (h : c.Returns P) : ∀ e, Finds (Returning P) (expr c e)
  | ⟨_, _, none⟩ => by
    rw [expr]
    exact .pure .stuck
  | ⟨kind, _, some ty⟩ => by
    rw [expr]
    exact returning_exprKind h ty kind

theorem returning_exprKind {c : Context} (h : c.Returns P) (ty : TypeId) : ∀ kind,
    Finds (Returning P) (exprKind c ty kind)
  | .integer _ | .character _ => by
    rw [exprKind]
    exact .pure (.pure _)
  | .string _ => by
    rw [exprKind]
    exact .bind (.any _) fun _ _ => .pure (.pure _)
  | .name name => by
    rw [exprKind]
    exact .pure (Context.Returns.named ty name)
  | .binary op left right => by
    rw [exprKind]
    refine ((returning_expr h left).valueOf _).bind fun l hl =>
      ((returning_expr h right).valueOf _).bind fun r hr => ?_
    split
    · exact .pure ((hl.logical hr _).map _)
    · exact .pure ((hl.binary hr _ _ _ _).map _)
  | .unary op operand => by
    rw [exprKind]
    exact ((returning_expr h operand).valueOf _).bind fun v hv => .pure ((hv.unary _ _).map _)
  | .assign none target source => by
    rw [exprKind]
    refine ((returning_expr h source).valueOf _).bind fun v hv =>
      (returning_expr h target).placeOf.bind fun p hp => ?_
    split
    · exact .pure ((hv.assignStruct hp).map _)
    · exact .pure ((hv.assignScalar hp _).map _)
  | .assign (some op) target source => by
    rw [exprKind]
    split
    · exact ((returning_expr h source).valueOf _).bind fun v hv =>
        (returning_expr h target).placeOf.bind fun p hp => .pure ((hv.assignStruct hp).map _)
    · exact (returning_expr h target).placeOf.bind fun p hp =>
        ((returning_expr h source).valueOf _).bind fun v hv =>
          .pure ((hv.assignCompound hp _ _ _).map _)
  | .conditional cond yes no => by
    rw [exprKind]
    exact ((returning_expr h cond).valueOf _).bind fun b hb =>
      ((returning_expr h yes).valueOf _).bind fun v hv =>
        ((returning_expr h no).valueOf _).bind fun w hw =>
          .pure ((hb.conditional (hv.converted _) (hw.converted _)).map _)
  | .call callee args => by
    rw [exprKind]
    exact (returning_values h args).bind fun vs hvs => .pure ((h.callOf ty callee hvs).map _)
  | .index array index => by
    rw [exprKind]
    refine ((returning_expr h array).map fun _ hact => hact.elementsOf _).bind fun base hbase => ?_
    split
    · exact .pure ((hbase.subscript (.pure _) _).map _)
    · exact ((returning_expr h index).valueOf _).bind fun i hi =>
        .pure ((hbase.subscript hi _).map _)
  | .member object _ resolved => by
    rw [exprKind]
    exact ((returning_expr h object).map fun _ hact => hact.storageOf).bind fun o ho =>
      .pure (.bind (.need _) fun _ => ho.bind fun _ => .pure _)
  | .pointerMember pointer _ resolved => by
    rw [exprKind]
    exact ((returning_expr h pointer).valueOf _).bind fun p hp =>
      .pure (.bind (.need _) fun _ => hp.bind fun _ => .pure _)
  | .cast _ operand => by
    rw [exprKind]
    exact ((returning_expr h operand).valueOf _).bind fun v hv => .pure ((hv.cast _).map _)
  | .query .. | .typeQuery .. => by
    rw [exprKind]
    exact .pure .stuck
  | .addressOf operand => by
    rw [exprKind]
    exact (returning_expr h operand).placeOf.bind fun p hp => .pure (hp.map _)
  | .deref pointer => by
    rw [exprKind]
    exact ((returning_expr h pointer).valueOf _).bind fun p hp => .pure (hp.map _)
  | .step operand decrement yieldsOld => by
    rw [exprKind]
    exact (returning_expr h operand).placeOf.bind fun p hp => .pure ((hp.step _ _ _).map _)
  | .comma items => by
    rw [exprKind]
    exact (returning_lastValue h items).bind fun last hlast => .pure ((hlast 0).map _)
  | .block ⟨items, _⟩ => by
    rw [exprKind]
    exact (returning_blockValue (h.inScopes _) items).bind fun last hlast => .pure (hlast.map _)

theorem returning_values {c : Context} (h : c.Returns P) : ∀ es, Finds (Returning P) (values c es)
  | [] => by
    rw [values]
    exact .pure (.pure _)
  | e :: es => by
    rw [values]
    exact ((returning_expr h e).valueOf _).bind fun v hv => (returning_values h es).bind fun vs hvs =>
      .pure (hv.bind fun _ => hvs.bind fun _ => .pure _)

theorem returning_lastValue {c : Context} (h : c.Returns P) : ∀ es,
    Finds (fun last => ∀ v, Returning P (last v)) (lastValue c es)
  | [] => by
    rw [lastValue]
    exact .pure fun _ => .pure _
  | e :: es => by
    rw [lastValue]
    exact ((returning_expr h e).valueOf _).bind fun v hv =>
      (returning_lastValue h es).bind fun rest hrest => .pure fun _ => hv.bind hrest

theorem returning_blockValue {c : Context} (h : c.Returns P) : ∀ is,
    Finds (Returning P) (blockValue c is)
  | [] => by
    rw [blockValue]
    exact .pure (.pure _)
  | i :: is => by
    have hitem := returning_blockItem h i
    have hrest (scopes : Scopes) := returning_blockValue (h.inScopes scopes) is
    have hlast := @returning_itemValue c h i
    rcases blockValue_cons c i is with hcons | ⟨e, span, rfl, rfl⟩
    · rw [hcons]
      exact hitem.bind fun x hfirst => (hrest x.2).bind fun rest hlast =>
        .pure (hfirst.bind fun _ => hlast)
    · rw [blockValue]
      exact hlast rfl

/-- The last item of a block, if it is an expression. -/
theorem returning_itemValue {c : Context} (h : c.Returns P) : ∀ (i : BlockItem) {e span},
    i = .statement ⟨.expr e, span⟩ → Finds (Returning P) (valueOf c.registry <$> expr c e)
  | .statement ⟨.expr e, _⟩, _, _, rfl => (returning_expr h e).valueOf _

theorem returning_blockItems {c : Context} (h : c.Returns P) : ∀ is,
    Finds (Returning P) (blockItems c is)
  | [] => by
    rw [blockItems]
    exact .pure (.pure _)
  | i :: is => by
    rw [blockItems]
    exact (returning_blockItem h i).bind fun x hfirst =>
      (returning_blockItems (h.inScopes x.2) is).bind fun rest hrest =>
        .pure (hfirst.bind fun _ => hrest)

theorem returning_blockItem {c : Context} (h : c.Returns P) : ∀ i,
    Finds (fun x => Returning P x.1) (blockItem c i)
  | .statement s => by
    rw [blockItem]
    exact (returning_stmt h s).bind fun act hact => .pure hact
  | .declaration d => by
    rw [blockItem]
    exact returning_declaration h d

theorem returning_stmt {c : Context} (h : c.Returns P) : ∀ s, Finds (Returning P) (stmt c s)
  | ⟨kind, _⟩ => by
    rw [stmt]
    exact returning_stmtKind h kind

theorem returning_stmtKind {c : Context} (h : c.Returns P) : ∀ kind,
    Finds (Returning P) (stmtKind c kind)
  | .expr e => by
    rw [stmtKind]
    exact ((returning_expr h e).valueOf _).bind fun v hv => .pure (hv.map _)
  | .empty => by
    rw [stmtKind]
    exact .pure (.pure _)
  | .block ⟨items, _⟩ => by
    rw [stmtKind]
    exact returning_blockItems (h.inScopes _) items
  | .if_ cond yes none => by
    rw [stmtKind]
    exact ((returning_expr h cond).valueOf _).bind fun b hb => (returning_stmt h yes).bind
      fun yes hyes => .pure (hb.conditional hyes (.pure _))
  | .if_ cond yes (some no) => by
    rw [stmtKind]
    exact ((returning_expr h cond).valueOf _).bind fun b hb => (returning_stmt h yes).bind
      fun yes hyes => (returning_stmt h no).bind fun no hno => .pure (hb.conditional hyes hno)
  | .loop kind init cond update body => by
    rw [stmtKind]
    exact (returning_loopInit (h.inScopes _) init).bind fun x hinit =>
      (returning_test (h.inScopes x.2) cond).bind fun test htest =>
        (returning_stmt (h.inLoop x.2) body).bind fun body hbody =>
          (returning_effect (h.inScopes x.2) update).bind fun update hupdate =>
            .pure (hinit.bind fun _ => htest.loop hbody hupdate _ _)
  | .break_ => by
    rw [stmtKind]
    exact .pure (.ite .broke (.pure _))
  | .continue_ => by
    rw [stmtKind]
    exact .pure (.ite .continued (.pure _))
  | .return_ none => by
    rw [stmtKind]
    exact .pure (.ret h.zero)
  | .return_ (some e) => by
    rw [stmtKind]
    exact ((returning_expr h e).valueOf _).bind fun v hv => .pure (hv.ret_converted h.converted)

theorem returning_loopInit {c : Context} (h : c.Returns P) : ∀ init,
    Finds (fun x => Returning P x.1) (loopInit c init)
  | none => by
    rw [loopInit]
    exact .pure (.pure _)
  | some (.expr e) => by
    rw [loopInit]
    exact ((returning_expr h e).valueOf _).bind fun v hv => .pure (hv.map _)
  | some (.declaration d) => by
    rw [loopInit]
    exact returning_declaration h d

theorem returning_test {c : Context} (h : c.Returns P) : ∀ cond, Finds (Returning P) (test c cond)
  | none => by
    rw [test]
    exact .pure (.pure _)
  | some e => by
    rw [test]
    exact ((returning_expr h e).valueOf _).bind fun v hv => .pure (hv.map _)

theorem returning_effect {c : Context} (h : c.Returns P) : ∀ e, Finds (Returning P) (effect c e)
  | none => by
    rw [effect]
    exact .pure (.pure _)
  | some e => by
    rw [effect]
    exact ((returning_expr h e).valueOf _).bind fun v hv => .pure (hv.map _)

theorem returning_declaration {c : Context} (h : c.Returns P) : ∀ d,
    Finds (fun x => Returning P x.1) (declaration c d)
  | ⟨.vars vars, _⟩ => by
    rw [declaration]
    exact returning_varDecls h vars
  | ⟨.struct _, _⟩ => by
    rw [declaration]
    exact .pure (.pure _)

theorem returning_varDecls {c : Context} (h : c.Returns P) : ∀ vs,
    Finds (fun x => Returning P x.1) (varDecls c vs)
  | [] => by
    rw [varDecls]
    exact .pure (.pure _)
  | v :: vs => by
    rw [varDecls]
    exact (returning_localVar h v).bind fun x hfirst =>
      (returning_varDecls (h.inScopes x.2) vs).bind fun y hrest =>
        .pure (hfirst.bind fun _ => hrest)

theorem returning_localVar {c : Context} (h : c.Returns P) : ∀ v,
    Finds (fun x => Returning P x.1) (localVar c v)
  | ⟨_, _, _, _, none⟩ => by
    rw [localVar]
    exact .pure .stuck
  | ⟨name, _, none, _, some ty⟩ => by
    rw [localVar]
    exact .bind (.any _) fun j _ => .pure ((Returning.reside j _ _).map _)
  | ⟨name, _, some i, _, some ty⟩ => by
    rw [localVar]
    refine .bind (.any _) fun j _ => (returning_initializer (h.inScopes _) ty i).bind fun fill hfill =>
      .pure (.bind (.reside j _ _) fun address => ?_)
    exact .ite (.bind (.zero _ _) fun _ => hfill address) (hfill address)

theorem returning_initializer {c : Context} (h : c.Returns P) (ty : TypeId) : ∀ i,
    Finds (fun fill => ∀ address, Returning P (fill address)) (initializer c ty i)
  | .expr e => by
    have he := (returning_expr h e).valueOf c.registry
    rw [initializer]
    split
    · exact .pure fun address => .storeBytes _ _
    · exact he.bind fun v hv => .pure fun address => hv.bind fun _ => .copy _ _ _
    · exact he.bind fun v hv => .pure fun address => (hv.converted _).bind fun _ => .store _ _ _
  | .list items _ => by
    have hfirst := returning_firstItem h ty items
    have helements (element : TypeId) := returning_elements h element items
    have hmembers (ms : List Member) := returning_members h ms items
    rw [initializer]
    split
    · exact helements _
    · exact hmembers _
    · exact hfirst

theorem returning_elements {c : Context} (h : c.Returns P) (element : TypeId) : ∀ is,
    Finds (fun fill => ∀ address, Returning P (fill address)) (elements c element is)
  | [] => by
    rw [elements]
    exact .pure fun _ => .pure _
  | i :: is => by
    rw [elements]
    exact (returning_initializer h element i).bind fun first hfirst =>
      (returning_elements h element is).bind fun rest hrest =>
        .pure fun address => (hfirst address).bind fun _ => hrest _

theorem returning_members {c : Context} (h : c.Returns P) (ms : List Member) : ∀ is,
    Finds (fun fill => ∀ address, Returning P (fill address)) (members c ms is)
  | [] => by
    rw [members]
    exact .pure fun _ => .pure _
  | i :: is => by
    cases ms with
    | nil =>
      rw [members]
      exact .pure fun _ => .pure _
    | cons m ms =>
      rw [members]
      exact (returning_initializer h m.ty i).bind fun first hfirst =>
        (returning_members h ms is).bind fun rest hrest =>
          .pure fun address => (hfirst _).bind fun _ => hrest _

theorem returning_firstItem {c : Context} (h : c.Returns P) (ty : TypeId) : ∀ is,
    Finds (fun fill => ∀ address, Returning P (fill address)) (firstItem c ty is)
  | [] => by
    rw [firstItem]
    exact .pure fun _ => .pure _
  | i :: _ => by
    rw [firstItem]
    exact returning_initializer h ty i

end

end Trees

/-! Units. -/

/-- Zero, or a value that was converted to a type. -/
def ZeroOrConverted (r : Registry) (ty : TypeId) (v : Int64) : Prop := v = 0 ∨ ∃ w, v = convert r w ty

theorem returning_receive {P : Int64 → Prop} (r : Registry) (ty : TypeId) (j : Nat) (arg : Int64) :
    Returning P (receive r ty j arg) :=
  .bind (.reside _ _ _) fun _ => .ite (.copy _ _ _) (.store _ _ _)

theorem returning_receiveAll {P : Int64 → Prop} (c : Context) (ps : List ParamDecl) :
    Finds (fun x => ∀ args, Returning P (x.1 args)) (receiveAll c ps) := by
  induction ps generalizing c with
  | nil => exact .pure fun _ => .pure _
  | cons p ps ih =>
    refine .bind (.any _) fun j _ => (ih _).bind fun x hrest => .pure fun args => ?_
    exact .bind (.need _) fun arg => .bind (.need _) fun ty =>
      .bind (returning_receive _ _ _ _) fun _ => hrest _

/-- A procedure is that of a function, and returns what the function may return. -/
def OfFunction (r : Registry) (ds : List TopDecl) (q : Procedure) : Prop :=
  ∃ f, .function f ∈ ds ∧ f.name = q.name ∧
    ∀ args, Returning (ZeroOrConverted r (f.resolvedReturn.getD Registry.void)) (q.body args)

theorem ofFunction_procedure {c : Context} {f : FuncDecl} {ds : List TopDecl}
    (hcall : ∀ P name vs, Returning P (c.call name vs)) (hf : .function f ∈ ds) (body : Block) :
    Finds (OfFunction c.registry ds) (procedure c f body) := by
  let P := ZeroOrConverted c.registry (f.resolvedReturn.getD Registry.void)
  refine .bind (.any _) fun _ _ => (returning_receiveAll (P := P) _ f.params).bind fun x hkeep => ?_
  let inside : Context :=
    { c with returns := f.resolvedReturn.getD Registry.void, scopes := x.2 }
  have hinside : inside.Returns P := ⟨.inl rfl, fun v => .inr ⟨v, rfl⟩, hcall P⟩
  exact (returning_blockItems hinside body.items).bind fun items hitems =>
    .pure ⟨f, hf, rfl, fun args => (hkeep args).bind fun _ => hitems⟩

theorem ofFunction_procedures {c : Context} {ds' : List TopDecl}
    (hcall : ∀ P name vs, Returning P (c.call name vs)) {ds : List TopDecl} (h : ds ⊆ ds') :
    Finds (fun qs => ∀ q ∈ qs, OfFunction c.registry ds' q) (procedures c ds) := by
  induction ds with
  | nil => exact .pure (List.forall_mem_nil _)
  | cons d ds ih =>
    obtain ⟨hd, hds⟩ := List.cons_subset.mp h
    cases d with
    | declaration d =>
      rw [procedures]
      exact ih hds
    | function f =>
      rw [procedures]
      split
      · exact ih hds
      · exact (ofFunction_procedure hcall hd _).bind fun q hq => (ih hds).bind fun qs hqs =>
          .pure (List.forall_mem_cons.mpr ⟨hq, hqs⟩)

section Calls

variable {P : Int64 → Prop} {body : Action Unit}

/-- What a body returns, its activation yields. -/
theorem activate_eq_ok (h : Returning P body) (hzero : P 0) {st st' : Store} {v : Int64}
    (hrun : activate body st = .ok v st') : P v := by
  unfold activate at hrun
  split at hrun
  · cases hrun
    exact hzero
  · rename_i hbody
    cases hrun
    exact h hbody
  all_goals cases hrun

theorem returning_activate : Returning P (activate body) := by
  intro st v st' hrun
  unfold activate at hrun
  split at hrun <;> cases hrun

end Calls

namespace Program

variable (p : Program)

/-- What a call of that name may yield. -/
def Answers (name : String) (v : Int64) : Prop :=
  v = 0 ∨ ∃ f, .function f ∈ p.unit.decls ∧ f.name = name ∧
    ∃ w, v = convert p.registry w (f.resolvedReturn.getD Registry.void)

variable {p} {qs : List Procedure} {room : Bool} {name : String} {args : List Int64}

theorem returning_answer {P : Int64 → Prop} : Returning P (p.answer qs room name args) := by
  refine .ite (.lift _) ?_
  split
  · exact .fault _
  · exact .ite (.fault _) (.ite returning_activate (.fault _))

theorem answers_answer (hqs : ∀ q ∈ qs, OfFunction p.registry p.unit.decls q) {st st' : Store}
    {v : Int64} (hrun : p.answer qs room name args st = .ok v st') : p.Answers name v := by
  unfold answer at hrun
  by_cases hassert : name = Machine.assertName
  · rw [if_pos hassert] at hrun
    unfold Machine.runAssert at hrun
    split at hrun
    · split at hrun <;> cases hrun
      exact .inl rfl
    · cases hrun
  rw [if_neg hassert] at hrun
  cases hfind : qs.reverse.find? (·.name == name) with
  | none =>
    rw [hfind] at hrun
    cases hrun
  | some q =>
    obtain ⟨f, hf, hname, hreturning⟩ := hqs q (List.mem_reverse.mp (List.mem_of_find?_eq_some hfind))
    have hsame := List.find?_some hfind
    simp only [hfind] at hrun
    by_cases hlength : args.length ≠ q.arity
    · rw [if_pos hlength] at hrun
      cases hrun
    rw [if_neg hlength] at hrun
    by_cases hroom : room = true
    · rw [if_pos hroom] at hrun
      exact (activate_eq_ok (hreturning args) (.inl rfl) hrun).imp_right fun hconverted =>
        ⟨f, hf, hname.trans (beq_iff_eq.mp hsame), hconverted⟩
    · rw [if_neg hroom] at hrun
      cases hrun

theorem returning_invoke {P : Int64 → Prop} (rounds room : Nat) :
    Returning P (p.invoke rounds room name args) := by
  cases room with
  | zero => exact returning_answer
  | succ room => exact returning_answer

/-- At every depth a call yields zero, or a value of the type that a function of its name returns. -/
theorem answers_invoke {rounds room : Nat} {st st' : Store} {v : Int64}
    (hrun : p.invoke rounds room name args st = .ok v st') : p.Answers name v := by
  cases room with
  | zero =>
    refine answers_answer (ofFunction_procedures (fun P name vs => .stuck) (List.Subset.refl _) _) hrun
  | succ room =>
    refine answers_answer (ofFunction_procedures (fun P name vs => ?_) (List.Subset.refl _) _) hrun
    exact returning_invoke rounds room

theorem answers_evaluate {rounds : Nat} {s : Machine.State} {v : Int64} {memory : Machine.Memory}
    (heval : p.evaluate rounds s name args = some (.ok v, memory)) : p.Answers name v := by
  unfold evaluate at heval
  split at heval
  · rename_i hrun
    cases heval
    exact answers_invoke hrun
  · cases heval
  · cases heval

end Program

end MiniC.Evaluation
