import MiniC.Proofs.Lowering.Functions
import MiniC.Proofs.Lowering.Reach
import MiniC.Proofs.Machine.Image
/-!
What is reached is lowered. Main statement: if lowering succeeds, it gets to every part that can be
reached in that very state, and the globals that are reached are those of the module.
-/
namespace MiniC.Lowering

open Syntax
open Code (Global Label Operand)

def Succeeds {α : Type} (act : Lower α) (s : State) : Prop := ∃ y, act s = .ok y

namespace Succeeds

variable {α β : Type} {s s' : State} {r : Registry}

theorem first {x : Lower α} {k : α → Lower β} (h : Succeeds (x >>= k) s) : Succeeds x s := by
  obtain ⟨⟨b, t⟩, h⟩ := h
  obtain ⟨a, s₁, hx, -⟩ := bind_eq_ok.mp h
  exact ⟨_, hx⟩

theorem next {x : Lower α} {k : α → Lower β} {a : α} (h : Succeeds (x >>= k) s)
    (hx : x s = .ok (a, s')) : Succeeds (k a) s' := by
  obtain ⟨⟨b, t⟩, h⟩ := h
  obtain ⟨a', s₁, hx', hk⟩ := bind_eq_ok.mp h
  cases hx.symm.trans hx'
  exact ⟨_, hk⟩

theorem of_map {x : Lower α} {f : α → β} (h : Succeeds (f <$> x) s) : Succeeds x s := by
  obtain ⟨⟨b, t⟩, h⟩ := h
  obtain ⟨a, hx, -⟩ := map_eq_ok.mp h
  exact ⟨_, hx⟩

theorem inside {act : Lower α} (h : Succeeds (inScope act) s) :
    Succeeds act { s with slots := [] :: s.slots } := by
  obtain ⟨⟨b, t⟩, h⟩ := h
  obtain ⟨t, hact, -⟩ := inScope_eq_ok.mp h
  exact ⟨_, hact⟩

theorem valueOf {code : Lower Lowered} (h : Succeeds (valueOf r code) s) : Succeeds code s := h.first

theorem placeOf {code : Lower Lowered} {e : Expr} (h : Succeeds (placeOf e code) s) :
    Succeeds code s := h.first

/-! Operands of shapes. -/

variable {o : α} {isAnd : Bool} {cond left right yes no : Lower Operand}

theorem logicalLeft {o : Label × Code.Temp} (h : Succeeds (logical isAnd left right) s)
    (hrun : logicalStart s = .ok (o, s')) : Succeeds left s' := by
  cases hrun
  exact (((h.next rfl).next rfl).next rfl).first

theorem logicalRight {o : Unit} (h : Succeeds (logical isAnd left right) s)
    (hrun : logicalMiddle isAnd left s = .ok (o, s')) : Succeeds right s' := by
  obtain ⟨⟨short, result⟩, s₁, hstart, hmiddle⟩ := bind_eq_ok.mp hrun
  obtain ⟨v, s₂, hleft, hemit⟩ := bind_eq_ok.mp hmiddle
  cases hstart
  exact (((((h.next rfl).next rfl).next rfl).next hleft).next hemit).first

theorem conditionalYes {o : Label × Label × Code.Temp} (h : Succeeds (conditional cond yes no) s)
    (hrun : conditionalYes cond s = .ok (o, s')) : Succeeds yes s' := by
  obtain ⟨v, s₁, hcond, hlabels⟩ := bind_eq_ok.mp hrun
  cases hlabels
  exact (((((h.next hcond).next rfl).next rfl).next rfl).next rfl).first

theorem conditionalNo {o : Unit} (h : Succeeds (conditional cond yes no) s)
    (hrun : conditionalNo cond yes s = .ok (o, s')) : Succeeds no s' := by
  obtain ⟨⟨other, stop, result⟩, s₁, hstart, hrest⟩ := bind_eq_ok.mp hrun
  obtain ⟨v, s₂, hcond, hlabels⟩ := bind_eq_ok.mp hstart
  obtain ⟨w, s₃, hyes, hemits⟩ := bind_eq_ok.mp hrest
  cases hlabels
  cases hemits
  exact (((((((((h.next hcond).next rfl).next rfl).next rfl).next rfl).next hyes).next rfl).next
    rfl).next rfl).first

variable {once twice : Lower Unit}

theorem ifOnlyYes {o : Label × Label} (h : Succeeds (ifOnly cond once) s)
    (hrun : ifYes cond s = .ok (o, s')) : Succeeds once s' := by
  obtain ⟨v, s₁, hcond, hlabels⟩ := bind_eq_ok.mp hrun
  cases hlabels
  exact ((((h.next hcond).next rfl).next rfl).next rfl).first

theorem ifElseYes {o : Label × Label} (h : Succeeds (ifElse cond once twice) s)
    (hrun : ifYes cond s = .ok (o, s')) : Succeeds once s' := by
  obtain ⟨v, s₁, hcond, hlabels⟩ := bind_eq_ok.mp hrun
  cases hlabels
  exact ((((h.next hcond).next rfl).next rfl).next rfl).first

theorem ifElseNo {o : Unit} (h : Succeeds (ifElse cond once twice) s)
    (hrun : ifNo cond once s = .ok (o, s')) : Succeeds twice s' := by
  obtain ⟨⟨other, stop⟩, s₁, hstart, hrest⟩ := bind_eq_ok.mp hrun
  obtain ⟨v, s₂, hcond, hlabels⟩ := bind_eq_ok.mp hstart
  obtain ⟨_, s₃, hyes, hemits⟩ := bind_eq_ok.mp hrest
  cases hlabels
  cases hemits
  exact (((((((h.next hcond).next rfl).next rfl).next rfl).next hyes).next rfl).next rfl).first

variable {testsFirst : Bool} {init update : Lower Unit} {test : Label → Lower Unit}
  {body : Label → Label → Lower Unit}

/-- A loop from its test on. -/
theorem loopRest {entry next stop : Label} (h : Succeeds (do init; loop testsFirst test body update) s)
    (hrun : loopTest testsFirst init s = .ok ((entry, next, stop), s')) :
    ∃ top, Succeeds (do
      test stop
      emit (.label entry)
      body stop next
      emit (.label next)
      update
      emit (.jump top)
      emit (.label stop)) s' := by
  obtain ⟨_, s₁, hinit, hlabels⟩ := bind_eq_ok.mp hrun
  have hloop := (((((h.next hinit).next rfl).next rfl).next rfl).next rfl)
  cases testsFirst with
  | true =>
    cases hlabels
    exact ⟨_, hloop.next rfl⟩
  | false =>
    cases hlabels
    exact ⟨_, (hloop.next rfl).next rfl⟩

theorem loopCondition {o : Label × Label × Label}
    (h : Succeeds (do init; loop testsFirst test body update) s)
    (hrun : loopTest testsFirst init s = .ok (o, s')) : Succeeds (test o.2.2) s' := by
  obtain ⟨entry, next, stop⟩ := o
  obtain ⟨top, h⟩ := h.loopRest hrun
  exact h.first

theorem loopBody {stop next : Label} (h : Succeeds (do init; loop testsFirst test body update) s)
    (hrun : loopBody testsFirst init test s = .ok ((stop, next), s')) :
    Succeeds (body stop next) s' := by
  obtain ⟨⟨entry, next, stop⟩, s₁, hstart, hrest⟩ := bind_eq_ok.mp hrun
  obtain ⟨_, s₂, htest, hentry⟩ := bind_eq_ok.mp hrest
  obtain ⟨top, h⟩ := h.loopRest hstart
  cases hentry
  exact ((h.next htest).next rfl).first

theorem loopUpdate {o : Unit} (h : Succeeds (do init; loop testsFirst test body update) s)
    (hrun : loopUpdate testsFirst init test body s = .ok (o, s')) : Succeeds update s' := by
  obtain ⟨⟨stop, next⟩, s₁, hbefore, hafter⟩ := bind_eq_ok.mp hrun
  obtain ⟨_, s₂, hbody, hnext⟩ := bind_eq_ok.mp hafter
  obtain ⟨⟨entry, next, stop⟩, s₃, hstart, hrest⟩ := bind_eq_ok.mp hbefore
  obtain ⟨_, s₄, htest, hentry⟩ := bind_eq_ok.mp hrest
  obtain ⟨top, h⟩ := h.loopRest hstart
  cases hentry
  cases hnext
  exact ((((h.next htest).next rfl).next hbody).next rfl).first

end Succeeds

/-! Parts. -/

/-- Code is found for a part in a state; it is part of that of a whole with these globals. -/
def Part.Lowers (all : List Global) (s : State) : Part → Prop
  | .expr c e => Succeeds (Lowering.expr c e) s
  | .values c es => Succeeds (Lowering.values c es) s ∨ ∃ last, Succeeds (lastValue c last es) s
  | .items c is => Succeeds (blockItems c is) s ∨ Succeeds (blockValue c is) s
  | .stmt c st => Succeeds (Lowering.stmt c st) s
  | .vars c vs => Succeeds (varDecls c vs) s
  | .init c p i => Succeeds (initializer c p i) s
  | .elements c element p is => Succeeds (Lowering.elements c element p is) s
  | .members c p ms is => Succeeds (Lowering.members c p ms is) s
  | .first c p is => Succeeds (firstItem c p is) s
  | .globals r vs => ∃ gs, vs.mapM (globalOf r) = .ok gs ∧ gs ⊆ all
  | .decls r ds => ∃ fs gs s', topDecls r ds s = .ok ((fs, gs), s') ∧ gs ⊆ all

theorem index_eq (c : Context) (ty : TypeId) (array index : Expr) :
    exprKind c ty (.index array index) = (do
      let arrayTy ← typeOf array
      let place ← element c ty arrayTy array
      .place <$> subscript place (Int64.ofNat (c.registry.sizeOf ty)) index.constant?
        (valueOf c.registry (expr c index))) := by
  rw [exprKind]
  refine bind_congr fun arrayTy => ?_
  unfold element
  split
  · rfl
  · rw [bind_assoc]

theorem Succeeds.element {c : Context} {ty arrayTy : TypeId} {array : Expr} {s : State}
    (h : Succeeds (element c ty arrayTy array) s) : Succeeds (expr c array) s := by
  unfold Lowering.element at h
  split at h
  · exact h.first
  · exact h.first.valueOf

theorem Part.Lowers.expr {all : List Global} {c : Context} {e : Expr} {m : Part} {i : Nat}
    {s s' : State} (h : Succeeds (Lowering.expr c e) s) (he : Enters (.expr c e) s i m s') : m.Lowers all s' := by
  cases he with
  | left hop =>
    rw [Lowering.expr, exprKind, if_neg (by simp [hop])] at h
    exact h.first.valueOf
  | right hop hrun =>
    rw [Lowering.expr, exprKind, if_neg (by simp [hop])] at h
    exact (h.next hrun).first.valueOf
  | logicalLeft hop hrun =>
    rw [Lowering.expr, exprKind, if_pos hop] at h
    exact (h.of_map.logicalLeft hrun).valueOf
  | logicalRight hop hrun =>
    rw [Lowering.expr, exprKind, if_pos hop] at h
    exact (h.of_map.logicalRight hrun).valueOf
  | unary =>
    rw [Lowering.expr, exprKind] at h
    exact h.first.valueOf
  | @structSource _ _ _ _ _ _ op hstruct =>
    cases op <;> rw [Lowering.expr, exprKind, if_pos hstruct] at h <;> exact h.of_map.first.valueOf
  | @structTarget _ _ _ _ _ _ _ op _ hstruct hrun =>
    cases op <;> rw [Lowering.expr, exprKind, if_pos hstruct] at h <;>
      exact (h.of_map.next hrun).first.placeOf
  | source hstruct =>
    rw [Lowering.expr, exprKind, if_neg (by simp [hstruct])] at h
    exact h.of_map.first.valueOf
  | target hstruct hrun =>
    rw [Lowering.expr, exprKind, if_neg (by simp [hstruct])] at h
    obtain ⟨v, s₁, hvalue, hconvert⟩ := bind_eq_ok.mp hrun
    exact ((h.of_map.next hvalue).next hconvert).first.placeOf
  | compoundTarget hstruct =>
    rw [Lowering.expr, exprKind, if_neg (by simp [hstruct])] at h
    exact h.of_map.first.placeOf
  | compoundSource hstruct hrun =>
    rw [Lowering.expr, exprKind, if_neg (by simp [hstruct])] at h
    obtain ⟨p, s₁, hplace, hload⟩ := bind_eq_ok.mp hrun
    exact ((h.of_map.next hplace).next hload).first.valueOf
  | condition =>
    rw [Lowering.expr, exprKind] at h
    exact h.of_map.first.valueOf
  | yes hrun =>
    rw [Lowering.expr, exprKind] at h
    exact (h.of_map.conditionalYes hrun).first.valueOf
  | no hrun =>
    rw [Lowering.expr, exprKind] at h
    exact (h.of_map.conditionalNo hrun).first.valueOf
  | arguments hname =>
    rw [Lowering.expr, exprKind] at h
    replace h := h.of_map
    rw [call, hname] at h
    exact .inl h.first
  | array =>
    rw [Lowering.expr, index_eq] at h
    obtain ⟨⟨arrayTy, s₁⟩, hty⟩ := h.first
    obtain ⟨-, rfl⟩ := need_eq_ok.mp hty
    exact (h.next hty).first.element
  | index hconstant hty hrun =>
    rw [Lowering.expr, index_eq] at h
    replace h := ((h.next (need_eq_ok.mpr ⟨hty, rfl⟩)).next hrun).of_map
    rw [hconstant, subscript] at h
    exact h.first.valueOf
  | object =>
    rw [Lowering.expr, exprKind] at h
    exact (h.next rfl).of_map.first
  | pointer =>
    rw [Lowering.expr, exprKind] at h
    exact (h.next rfl).first.valueOf
  | cast =>
    rw [Lowering.expr, exprKind] at h
    exact h.first.valueOf
  | addressOf =>
    rw [Lowering.expr, exprKind] at h
    exact h.first.placeOf
  | deref =>
    rw [Lowering.expr, exprKind] at h
    exact h.first.valueOf
  | step =>
    rw [Lowering.expr, exprKind] at h
    exact h.of_map.first.placeOf
  | comma =>
    rw [Lowering.expr, exprKind] at h
    exact .inr ⟨_, h.of_map⟩
  | @block _ _ _ _ b =>
    obtain ⟨items, span⟩ := b
    rw [Lowering.expr, exprKind] at h
    exact .inr h.of_map.inside

theorem Part.Lowers.stmt {all : List Global} {c : Context} {st : Stmt} {m : Part} {i : Nat}
    {s s' : State} (h : Succeeds (Lowering.stmt c st) s) (he : Enters (.stmt c st) s i m s') :
    m.Lowers all s' := by
  cases he with
  | exprStmt =>
    rw [Lowering.stmt, stmtKind] at h
    exact h.of_map.valueOf
  | @blockStmt _ _ _ b =>
    obtain ⟨items, span⟩ := b
    rw [Lowering.stmt, stmtKind] at h
    exact .inl h.inside
  | @ifCondition _ _ _ _ _ other =>
    cases other <;> rw [Lowering.stmt, stmtKind] at h <;> exact h.first.valueOf
  | @ifYes _ _ _ _ _ _ other _ hrun =>
    cases other with
    | none =>
      rw [Lowering.stmt, stmtKind] at h
      exact h.ifOnlyYes hrun
    | some other =>
      rw [Lowering.stmt, stmtKind] at h
      exact h.ifElseYes hrun
  | ifNo hrun =>
    rw [Lowering.stmt, stmtKind] at h
    exact h.ifElseNo hrun
  | firstClause =>
    rw [Lowering.stmt, stmtKind] at h
    replace h := h.inside.first
    rw [loopInit] at h
    exact h.of_map.valueOf
  | firstDeclaration =>
    rw [Lowering.stmt, stmtKind] at h
    replace h := h.inside.first
    rw [loopInit, declaration] at h
    exact h
  | loopCondition hrun =>
    rw [Lowering.stmt, stmtKind] at h
    replace h := h.inside.loopCondition hrun
    rw [test] at h
    exact h.first.valueOf
  | body hrun =>
    rw [Lowering.stmt, stmtKind] at h
    exact h.inside.loopBody hrun
  | update hrun =>
    rw [Lowering.stmt, stmtKind] at h
    replace h := h.inside.loopUpdate hrun
    rw [effect] at h
    exact h.of_map.valueOf
  | result =>
    rw [Lowering.stmt, stmtKind] at h
    exact h.first.valueOf

theorem Part.Lowers.items {all : List Global} {c : Context} {is : List BlockItem} {m : Part} {i : Nat}
    {s s' : State} (h : Succeeds (blockItems c is) s ∨ Succeeds (blockValue c is) s)
    (he : Enters (.items c is) s i m s') : m.Lowers all s' := by
  have hcons {item : BlockItem} {items : List BlockItem}
      (h : Succeeds (blockItems c (item :: items)) s ∨ Succeeds (blockValue c (item :: items)) s) :
      Succeeds (blockItem c item) s ∧ ∀ s₁ o, blockItem c item s = .ok (o, s₁) →
        Succeeds (blockItems c items) s₁ ∨ Succeeds (blockValue c items) s₁ := by
    rcases h with h | h
    · rw [blockItems] at h
      exact ⟨h.first, fun s₁ o hrun => .inl (h.next hrun)⟩
    · rcases blockValue_cons c item items with hcode | ⟨e, span, rfl, rfl, hcode⟩
      · rw [hcode] at h
        exact ⟨h.first, fun s₁ o hrun => .inr (h.next hrun)⟩
      · rw [hcode] at h
        obtain ⟨⟨v, s₁⟩, hvalue⟩ := h
        refine ⟨⟨((), s₁), ?_⟩, fun s₁ o _ => .inl ⟨((), s₁), ?_⟩⟩
        · rw [blockItem, Lowering.stmt, stmtKind]
          exact map_eq_ok.mpr ⟨v, hvalue, rfl⟩
        · rw [blockItems]
          rfl
  cases he with
  | statement =>
    have h := (hcons h).1
    rw [blockItem] at h
    exact h
  | declaration =>
    have h := (hcons h).1
    rw [blockItem, Lowering.declaration] at h
    exact h
  | moreItems hrun => exact (hcons h).2 _ _ hrun

theorem Part.Lowers.values {all : List Global} {c : Context} {es : List Expr} {m : Part} {i : Nat}
    {s s' : State} (h : Succeeds (Lowering.values c es) s ∨ ∃ last, Succeeds (lastValue c last es) s)
    (he : Enters (.values c es) s i m s') : m.Lowers all s' := by
  cases he with
  | value =>
    rcases h with h | ⟨last, h⟩
    · rw [Lowering.values] at h
      exact h.first.valueOf
    · rw [lastValue] at h
      exact h.first.valueOf
  | moreValues hrun =>
    rcases h with h | ⟨last, h⟩
    · rw [Lowering.values] at h
      exact .inl (h.next hrun).first
    · rw [lastValue] at h
      exact .inr ⟨_, h.next hrun⟩

theorem Part.Lowers.vars {all : List Global} {c : Context} {vs : List VarDecl} {m : Part} {i : Nat}
    {s s' : State} (h : Succeeds (varDecls c vs) s) (he : Enters (.vars c vs) s i m s') :
    m.Lowers all s' := by
  cases he with
  | @initializer _ _ _ t v _ i p hresolved hinit hstart =>
    rw [varDecls] at h
    replace h := h.first
    obtain ⟨name, ty, init, span, resolved⟩ := v
    obtain rfl : resolved = some t := hresolved
    obtain rfl : init = some i := hinit
    rw [localVar] at h
    obtain ⟨slot, s₁, halloc, hstart⟩ := bind_eq_ok.mp hstart
    obtain ⟨_, s₂, hbind, hstart⟩ := bind_eq_ok.mp hstart
    replace h := ((h.next rfl).next halloc).next hbind
    by_cases hzero : needsZeros c.registry t i = true
    · simp only [hzero, if_true] at hstart h
      obtain ⟨_, s₃, hzeroed, hstart⟩ := bind_eq_ok.mp hstart
      obtain ⟨rfl, rfl⟩ := pure_eq_ok.mp hstart
      exact h.next hzeroed
    · simp only [hzero] at hstart h
      obtain ⟨rfl, rfl⟩ := pure_eq_ok.mp hstart
      exact h
  | moreVars hrun =>
    rw [varDecls] at h
    exact h.next hrun

theorem Part.Lowers.init {all : List Global} {c : Context} {p : Place} {j : Initializer} {m : Part}
    {i : Nat} {s s' : State} (h : Succeeds (initializer c p j) s) (he : Enters (.init c p j) s i m s') :
    m.Lowers all s' := by
  cases he with
  | initialValue htext =>
    rw [initializer] at h
    split at h
    · rename_i hty hkind
      exact absurd hkind (htext _ _ _ hty)
    · exact h.first.valueOf
    · exact h.first.valueOf
  | elements hty =>
    rw [initializer, hty] at h
    exact h
  | members hty =>
    rw [initializer, hty] at h
    exact h
  | scalar harray hstruct =>
    rw [initializer] at h
    split at h
    · rename_i hty
      exact absurd hty (harray _ _)
    · rename_i hty
      exact absurd hty (hstruct _)
    · exact h

/-- A function begins with its parameters, and then its body is lowered. -/
theorem exists_functionStart {r : Registry} {f : FuncDecl} {body : Block} {g : Code.Function}
    {s s' : State} (h : function r f body s = .ok (g, s')) :
    ∃ c s₁, functionStart r f s = .ok (c, s₁) ∧ Succeeds (blockItems c body.items) s₁ := by
  obtain ⟨returns, s₂, hreturns, h⟩ := bind_eq_ok.mp h
  obtain ⟨ps, s₃, hparams, h⟩ := bind_eq_ok.mp h
  obtain ⟨_, s₄, hmodify, h⟩ := bind_eq_ok.mp h
  obtain ⟨_, s₅, hreceive, h⟩ := bind_eq_ok.mp h
  obtain ⟨_, s₆, hitems, -⟩ := bind_eq_ok.mp h
  refine ⟨⟨r, returns, none, none⟩, s₅, ?_, _, hitems⟩
  exact bind_eq_ok.mpr ⟨_, _, hreturns, bind_eq_ok.mpr ⟨_, _, hparams, bind_eq_ok.mpr
    ⟨_, _, hmodify, bind_eq_ok.mpr ⟨_, _, hreceive, rfl⟩⟩⟩⟩

theorem Part.Lowers.decls {all : List Global} {r : Registry} {ds : List TopDecl} {m : Part} {i : Nat}
    {s s' : State} (h : (Part.decls r ds).Lowers all s) (he : Enters (.decls r ds) s i m s') :
    m.Lowers all s' := by
  obtain ⟨fs, gs, s₁, hrun, hgs⟩ := h
  cases he with
  | globals =>
    obtain ⟨here, s₂, hhere, hrun⟩ := bind_eq_ok.mp hrun
    obtain ⟨⟨functions, later⟩, s₃, hlater, hrun⟩ := bind_eq_ok.mp hrun
    obtain ⟨h, rfl⟩ := pure_eq_ok.mp hrun
    cases h
    exact ⟨here, (lift_eq_ok.mp hhere).1, List.Subset.trans (List.subset_append_left _ _) hgs⟩
  | afterDeclaration hglobals =>
    obtain ⟨here, s₂, hhere, hafter⟩ := bind_eq_ok.mp hrun
    obtain ⟨⟨functions, later⟩, s₃, hlater, hpure⟩ := bind_eq_ok.mp hafter
    obtain ⟨-, rfl⟩ := lift_eq_ok.mp hhere
    obtain ⟨h, rfl⟩ := pure_eq_ok.mp hpure
    cases h
    exact ⟨_, _, _, hlater, List.Subset.trans (List.subset_append_right _ _) hgs⟩
  | @function _ _ _ _ _ f block hbody hstart =>
    rw [topDecls, hbody] at hrun
    obtain ⟨g, s₂, hfunction, -⟩ := bind_eq_ok.mp hrun
    obtain ⟨c, s₃, hstart', hitems⟩ := exists_functionStart hfunction
    cases hstart.symm.trans hstart'
    exact .inl hitems
  | moreFunctions hbody hfunction =>
    rw [topDecls, hbody] at hrun
    obtain ⟨g, s₂, hfunction', hrun⟩ := bind_eq_ok.mp hrun
    cases hfunction.symm.trans hfunction'
    obtain ⟨⟨functions, globals⟩, s₃, hlater, hrun⟩ := bind_eq_ok.mp hrun
    obtain ⟨h, rfl⟩ := pure_eq_ok.mp hrun
    cases h
    exact ⟨_, _, _, hlater, hgs⟩
  | afterPrototype hbody =>
    rw [topDecls, hbody] at hrun
    exact ⟨_, _, _, hrun, hgs⟩

/-- The step lemma: what is entered is lowered where the whole is. -/
theorem Part.Lowers.enters {all : List Global} {m m' : Part} {i : Nat} {s s' : State}
    (h : m.Lowers all s) (he : Enters m s i m' s') : m'.Lowers all s' := by
  cases m with
  | expr c e => exact Lowers.expr h he
  | values c es => exact Lowers.values h he
  | items c is => exact Lowers.items h he
  | stmt c st => exact Lowers.stmt h he
  | vars c vs => exact Lowers.vars h he
  | init c p j => exact Lowers.init h he
  | elements c element p is =>
    replace h : Succeeds (Lowering.elements c element p is) s := h
    cases he with
    | element =>
      rw [Lowering.elements] at h
      exact h.first
    | moreElements hrun =>
      rw [Lowering.elements] at h
      exact h.next hrun
  | members c p ms is =>
    replace h : Succeeds (Lowering.members c p ms is) s := h
    cases he with
    | member =>
      rw [Lowering.members] at h
      exact h.first
    | moreMembers hrun =>
      rw [Lowering.members] at h
      exact h.next hrun
  | first c p is =>
    replace h : Succeeds (firstItem c p is) s := h
    cases he with
    | first =>
      rw [firstItem] at h
      exact h
  | globals r vs =>
    obtain ⟨gs, hgs, hsub⟩ := h
    cases he with
    | moreGlobals _ =>
      rw [List.mapM_cons] at hgs
      obtain ⟨g', hg', h⟩ := Machine.except_bind_eq_ok.mp hgs
      obtain ⟨gs', hgs', h⟩ := Machine.except_bind_eq_ok.mp h
      cases h
      exact ⟨gs', hgs', List.Subset.trans (List.subset_cons_self _ _) hsub⟩
  | decls r ds => exact Lowers.decls h he

/-- Every part that can be reached is lowered, from the state in which it is reached. -/
theorem Visits.lowers {r : Registry} {u : CompilationUnit} {code : Code.Module} {path : List Nat}
    {m : Part} {s : State} (hlower : lower r u = .ok code) (h : Visits r u path m s) :
    m.Lowers code.globals s := by
  induction h with
  | unit =>
    obtain ⟨⟨⟨fs, gs⟩, s'⟩, hrun, hmodule⟩ := Machine.except_bind_eq_ok.mp hlower
    cases hmodule
    exact ⟨fs, gs, s', hrun, List.Subset.refl _⟩
  | enter _ he ih => exact ih.enters he

end MiniC.Lowering
