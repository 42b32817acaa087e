import MiniC.Proofs.Compilation.Definitions
import MiniC.Proofs.Lowering.Reached
/-!
Analysis and lowering agree on names. Lowering gets to the parts of a tree in an order of its own, but
wherever it gets, analysis has been, with the same declarations in scope. Main statement: a name is
lowered to the storage of the declaration whose symbol analysis has found.
-/
namespace MiniC

open Code (Temp)
open Syntax
open Typing (Passed Ready)
open Lowering (Extends Grows)

def Lowering.Part.inits? : Part → Option (List Initializer)
  | .elements _ _ _ is | .members _ _ _ is | .first _ _ is => some is
  | _ => none

/-- Analysis of the one part has passed, and the other is what came of it. -/
inductive AnalyzedTo : Typing.Part → Typing.State → Lowering.Part → Prop
  | expr {e s e' t s' c} : Passed (Typing.expr e) s e' t s' → AnalyzedTo (.expr e) s (.expr c e')
  | values {last es s es' t s' c} : s.registry.Valid last →
      Passed (Typing.values last es) s es' t s' → AnalyzedTo (.values last es) s (.values c es')
  | arguments {params es s es' x s' c} : (∀ p ∈ params, s.registry.Valid p) →
      Passed (Typing.arguments params es) s es' x s' →
      AnalyzedTo (.arguments params es) s (.values c es')
  | items {recover is s is' x s' c} : Passed (Typing.blockItems recover is) s is' x s' →
      AnalyzedTo (.items recover is) s (.items c is')
  | stmt {st s st' x s' c} : Passed (Typing.stmt st) s st' x s' → AnalyzedTo (.stmt st) s (.stmt c st')
  | vars {vs s vs' x s' c} : Passed (Typing.varDecls vs) s vs' x s' →
      AnalyzedTo (.vars vs) s (.vars c vs')
  | init {t i s i' x s' c p} : s.registry.Valid t → s.registry.isVoid t = false →
      Passed (Typing.initializer t false i) s i' x s' → AnalyzedTo (.init t false i) s (.init c p i')
  | elements {element is s is' x s' m} : s.registry.Valid element →
      s.registry.isVoid element = false → m.inits? = some is' →
      Passed (Typing.elementInits element false is) s is' x s' →
      AnalyzedTo (.elements element false is) s m
  | members {types is s is' x s' m} : is.length ≤ types.length →
      (∀ t ∈ types, s.registry.Valid t ∧ s.registry.isVoid t = false) → m.inits? = some is' →
      Passed (Typing.memberInits types false is) s is' x s' → AnalyzedTo (.members types false is) s m
  | scalar {t e s e' x s' m} : s.registry.Valid t → s.registry.isVoid t = false →
      m.inits? = some [.expr e'] → Passed (Typing.initializer t false (.expr e)) s (.expr e') x s' →
      AnalyzedTo (.scalar t false [.expr e]) s m

section

variable {config : Layout.Config} {u : CompilationUnit} {r : Registry} {tree : CompilationUnit}
  {C : Typing.Site} {G : List Symbol} {Δ : Entries} {s s' : Typing.State} {l l' : Lowering.State}

/-- Lowering has got to a part, and analysis to the same. -/
inductive Met (config : Layout.Config) (u : CompilationUnit) (r : Registry) (tree : CompilationUnit)
    (path : List Nat) (m : Lowering.Part) (l : Lowering.State) : Prop
  | intro {n s C G Δ} : Typing.Visits config u path n s → Follows config u r tree C G Δ s l →
      AnalyzedTo n s m → Met config u r tree path m l
  | outside {ds ds' s s' G} : Typing.Visits config u path (.decls ds) s →
      Ready Typing.Site.outermost G s → KnownGlobals config u r tree G →
      Typing.topDecls ds s = (ds', s') → s'.errors = #[] → m = .decls r ds' →
      Met config u r tree path m l
  | globals {vs} : m = .globals r vs → Met config u r tree path m l
  /-- There are no more initializers. -/
  | rest : m.inits? = some [] → Met config u r tree path m l

section Expressions

variable {path : List Nat} {i : Nat} {m' : Lowering.Part} {c : Lowering.Context}

theorem grows_logicalStart : Grows id Lowering.logicalStart :=
  Grows.freshTemp.bind fun _ => (Grows.freshLabel _).bind fun _ => (Grows.freshLabel _).bind fun _ =>
    .pure _

theorem grows_conditionalYes {cond : Lowering.Lower Code.Operand} (h : Grows id cond) :
    Grows id (Lowering.conditionalYes cond) :=
  h.bind fun _ => (Grows.freshLabel _).bind fun _ => (Grows.freshLabel _).bind fun _ =>
    Grows.freshTemp.bind fun _ => (Grows.emit _).bind fun _ => .pure _

theorem grows_element (c : Lowering.Context) (t arrayTy : TypeId) (array : Expr) :
    Grows id (Lowering.element c t arrayTy array) :=
  .ite (Lowering.grows_storageOf (Lowering.grows_expr c array) _ _)
    ((Lowering.grows_valueOf _ (Lowering.grows_expr c array)).bind fun _ => .pure _)

theorem met_expr {kind : ExprKind} {span : Span} {ty : Option TypeId} {e' : Expr} {t : TypeId}
    (hn : Typing.Visits config u path (.expr ⟨kind, span, ty⟩) s)
    (hf : Follows config u r tree C G Δ s l) (hp : Passed (Typing.exprKind span ty kind) s e' t s')
    (he : Lowering.Enters (.expr c e') l i m' l') : Met config u r tree (path ++ [i]) m' l' := by
  have hvalue (e : Expr) : Grows id (Lowering.valueOf c.registry (Lowering.expr c e)) :=
    Lowering.grows_valueOf _ (Lowering.grows_expr c e)
  cases kind with
  | integer n =>
    rw [Typing.exprKind] at hp
    obtain rfl := hp.typed
    cases he
  | character b =>
    rw [Typing.exprKind] at hp
    obtain rfl := hp.typed
    cases he
  | string text =>
    rw [Typing.exprKind] at hp
    obtain rfl := hp.typed
    cases he
  | name name =>
    rw [Typing.exprKind] at hp
    obtain rfl := hp.typed
    cases he
  | binary op left right =>
    obtain ⟨a, at', s₁, b, bt, s₂, ha, hb, rfl⟩ := hp.binary
    obtain ⟨_, _, ha'⟩ := ha.value
    obtain ⟨_, _, hb'⟩ := hb.value
    cases he with
    | left _ => exact .intro (hn.enter .left) hf (.expr ha')
    | logicalLeft _ hrun =>
      exact .intro (hn.enter .left) (hf.lowered (grows_logicalStart _ _ _ hrun)) (.expr ha')
    | right _ hrun =>
      obtain ⟨G', hf', -⟩ := hf.value ha (hvalue _ _ _ _ hrun)
      exact .intro (hn.enter (.right ha.run)) hf' (.expr hb')
    | logicalRight _ hrun =>
      have hgrows : Grows id (Lowering.logicalMiddle (op == .logAnd)
          (Lowering.valueOf c.registry (Lowering.expr c a))) :=
        grows_logicalStart.bind fun _ => (hvalue a).bind fun _ => .emit _
      obtain ⟨G', hf', -⟩ := hf.value ha (hgrows _ _ _ hrun)
      exact .intro (hn.enter (.right ha.run)) hf' (.expr hb')
  | unary op operand =>
    obtain ⟨o, ot, s₁, ho, rfl⟩ := hp.unary
    obtain ⟨_, _, ho'⟩ := ho.value
    cases he with
    | unary => exact .intro (hn.enter .unary) hf (.expr ho')
  | assign op target source =>
    obtain ⟨g, gt, s₁, x, s₂, v, vt, s₃, hg, hx, hv, rfl⟩ := hp.assign
    obtain ⟨_, _, hv'⟩ := hv.value
    have hplace : Grows id (Lowering.placeOf g (Lowering.expr c g)) :=
      Lowering.grows_placeOf g (Lowering.grows_expr c g)
    have htarget {l' : Lowering.State} (hl : Extends id l l') :
        Met config u r tree (path ++ [0]) (.expr c g) l' :=
      .intro (hn.enter .target) (hf.lowered hl) (.expr hg)
    have hsource {l' : Lowering.State} (hl : Extends id l l') :
        Met config u r tree (path ++ [1]) (.expr c v) l' := by
      obtain ⟨G₁, hf₁, hjudged⟩ := hf.expr hg hl
      obtain ⟨hf₂, -, -⟩ := hf₁.check (Typing.checks_checkTarget (K := Typing.Later (s₁.env G₁))
        (fun E _ hE => hE.registry.valid hjudged.valid) fun E _ hE hlvalue =>
          (hE.registry.isVoid_eq hjudged.valid).trans (hjudged.object hlvalue)) (fun _ hE => hE) hx
      exact .intro (hn.enter (.source hg.run hx)) hf₂ (.expr hv')
    cases he with
    | structSource _ => exact hsource (.refl _ _)
    | structTarget _ hrun => exact htarget (hvalue v _ _ _ hrun)
    | source _ => exact hsource (.refl _ _)
    | target _ hrun =>
      exact htarget ((hvalue v).bind (fun _ => Lowering.grows_convert _ _ _) _ _ _ hrun)
    | compoundTarget _ => exact htarget (.refl _ _)
    | compoundSource _ hrun =>
      exact hsource (hplace.bind (fun _ => Lowering.grows_load _ _) _ _ _ hrun)
  | conditional cond yes no =>
    obtain ⟨a, x, s₁, y, yt, s₂, n, nt, s₃, ha, hy, hno, rfl⟩ := hp.conditional
    obtain ⟨_, _, ha'⟩ := ha.condition
    obtain ⟨_, _, hy'⟩ := hy.value
    obtain ⟨_, _, hno'⟩ := hno.value
    cases he with
    | condition => exact .intro (hn.enter .condition) hf (.expr ha')
    | yes hrun =>
      obtain ⟨G', hf'⟩ := hf.condition ha (grows_conditionalYes (hvalue a) _ _ _ hrun)
      exact .intro (hn.enter (.yes ha.run)) hf' (.expr hy')
    | no hrun =>
      have hgrows : Grows id (Lowering.conditionalNo
          (Lowering.valueOf c.registry (Lowering.expr c a)) (do
            Lowering.convert c.registry (← Lowering.valueOf c.registry (Lowering.expr c y)) t)) :=
        (grows_conditionalYes (hvalue a)).bind fun _ =>
          ((hvalue y).bind fun _ => Lowering.grows_convert _ _ _).bind fun _ =>
            (Grows.emit _).bind fun _ => (Grows.emit _).bind fun _ => .emit _
      obtain ⟨G₁, hf₁⟩ := hf.condition ha (.refl _ _)
      obtain ⟨G₂, hf₂, -⟩ := hf₁.value hy (hgrows _ _ _ hrun)
      exact .intro (hn.enter (.no ha.run hy.run)) hf₂ (.expr hno')
  | call callee args =>
    obtain ⟨ret, sig, s₁, x, s₂, es, w, s₃, hcalled, hcount, hes, rfl⟩ := hp.call
    cases he with
    | arguments _ =>
      obtain ⟨hf₁, hcalls, -⟩ := hf.check
        (Typing.checks_calledFunction (K := fun _ => True) callee) (fun _ _ => trivial) hcalled
      obtain ⟨hf₂, -, hgrows⟩ := hf₁.check (Typing.checks_checkArgumentCount (K := fun _ => True)
        sig args.length span) (fun _ _ => trivial) hcount
      exact .intro (hn.enter (.arguments hcalled hcount)) hf₂
        (.arguments (fun p hp => hgrows.valid (hcalls.params p hp)) hes)
  | index array subscript =>
    obtain ⟨a, at', s₁, b, bt, s₂, ha, hb, rfl⟩ := hp.index
    obtain ⟨_, _, hb'⟩ := hb.value
    cases he with
    | array => exact .intro (hn.enter .array) hf (.expr ha)
    | index _ _ hrun =>
      obtain ⟨G', hf', -⟩ := hf.expr ha (grows_element c _ _ _ _ _ _ hrun)
      exact .intro (hn.enter (.subscript ha.run)) hf' (.expr hb')
  | member object field old =>
    obtain ⟨o, ot, s₁, m, ho, rfl⟩ := hp.member
    cases he with
    | object => exact .intro (hn.enter .object) hf (.expr ho)
  | pointerMember pointer field old =>
    obtain ⟨o, ot, s₁, m, ho, rfl⟩ := hp.pointerMember
    obtain ⟨_, _, ho'⟩ := ho.value
    cases he with
    | pointer => exact .intro (hn.enter .pointer) hf (.expr ho')
  | cast written operand =>
    obtain ⟨w, s₁, o, ot, s₂, hw, ho, rfl⟩ := hp.cast
    obtain ⟨_, _, ho'⟩ := ho.value
    cases he with
    | cast =>
      obtain ⟨hf', -, -⟩ := hf.check (Typing.checks_resolveAt (fun _ => True) 1 written)
        (fun _ _ => trivial) hw
      exact .intro (hn.enter (.cast hw)) hf' (.expr ho')
  | query q operand =>
    obtain ⟨n, rfl⟩ := hp.query
    cases he
  | typeQuery q written =>
    obtain ⟨n, rfl⟩ := hp.typeQuery
    cases he
  | addressOf operand =>
    obtain ⟨o, ot, s₁, ho, rfl⟩ := hp.addressOf
    cases he with
    | addressOf => exact .intro (hn.enter .addressOf) hf (.expr ho)
  | deref operand =>
    obtain ⟨o, ot, s₁, ho, rfl⟩ := hp.deref
    obtain ⟨_, _, ho'⟩ := ho.value
    cases he with
    | deref => exact .intro (hn.enter .deref) hf (.expr ho')
  | step operand decrement yieldsOld =>
    obtain ⟨o, ot, s₁, ho, rfl⟩ := hp.step
    cases he with
    | step => exact .intro (hn.enter .step) hf (.expr ho)
  | comma items =>
    obtain ⟨is, last, s₁, his, rfl⟩ := hp.comma
    cases he with
    | comma =>
      exact .intro (hn.enter .comma) hf (.values hf.ready.sound.consistent.valid_void his)
  | block b =>
    obtain ⟨b', x, s₁, hb, rfl⟩ := hp.block
    cases he with
    | block => exact .intro (hn.enter .block) hf.push (.items hb)

theorem met_values {last : TypeId} {es es' : List Expr} {t : TypeId}
    (hn : Typing.Visits config u path (.values last es) s)
    (hf : Follows config u r tree C G Δ s l) (hp : Passed (Typing.values last es) s es' t s')
    (he : Lowering.Enters (.values c es') l i m' l') : Met config u r tree (path ++ [i]) m' l' := by
  cases es with
  | nil =>
    rw [Typing.values] at hp
    obtain ⟨rfl, -, -⟩ := hp.pure
    cases he
  | cons e es =>
    obtain ⟨a, at', s₁, as, ha, has, rfl⟩ := hp.values
    obtain ⟨_, _, ha'⟩ := ha.value
    cases he with
    | value => exact .intro (hn.enter .value) hf (.expr ha')
    | moreValues hrun =>
      obtain ⟨G', hf', hvalid, -⟩ :=
        hf.value ha (Lowering.grows_valueOf _ (Lowering.grows_expr c a) _ _ _ hrun)
      exact .intro (hn.enter (.moreValues ha.run)) hf' (.values hvalid has)

theorem met_arguments {params : List TypeId} {es es' : List Expr} {x : Unit}
    (hparams : ∀ p ∈ params, s.registry.Valid p)
    (hn : Typing.Visits config u path (.arguments params es) s)
    (hf : Follows config u r tree C G Δ s l) (hp : Passed (Typing.arguments params es) s es' x s')
    (he : Lowering.Enters (.values c es') l i m' l') : Met config u r tree (path ++ [i]) m' l' := by
  cases es with
  | nil =>
    rw [Typing.arguments] at hp
    obtain ⟨rfl, -, -⟩ := hp.pure
    cases he
  | cons e es =>
    obtain ⟨a, at', s₁, w, s₂, as, ha, hw, has, rfl⟩ := hp.arguments
    obtain ⟨_, _, ha'⟩ := ha.value
    cases he with
    | value => exact .intro (hn.enter .argument) hf (.expr ha')
    | moreValues hrun =>
      obtain ⟨G₁, hf₁, hvalid, hgrows₁⟩ :=
        hf.value ha (Lowering.grows_valueOf _ (Lowering.grows_expr c a) _ _ _ hrun)
      have hhead : ∀ p ∈ params.head?, s₁.registry.Valid p := fun p hp =>
        hgrows₁.valid (hparams p (List.mem_of_mem_head? hp))
      obtain ⟨hf₂, -, hgrows₂⟩ := hf₁.check (Typing.checks_checkArgument
        (K := Typing.Later (s₁.env G₁)) (fun E _ hE => hE.registry.valid hvalid)
        fun E _ hE p hp => hE.registry.valid (hhead p hp)) (fun _ hE => hE) hw
      refine .intro (hn.enter (.moreArguments ha.run hw)) hf₂ (.arguments (fun p hp => ?_) has)
      exact hgrows₂.valid (hgrows₁.valid (hparams p (List.mem_of_mem_tail hp)))

end Expressions

section Statements

variable {path : List Nat} {i : Nat} {m' : Lowering.Part} {c : Lowering.Context} {x : Unit}

theorem met_items {recover : Bool} {is is' : List BlockItem}
    (hn : Typing.Visits config u path (.items recover is) s)
    (hm : Lowering.Visits r tree path (.items c is') l) (hf : Follows config u r tree C G Δ s l)
    (hp : Passed (Typing.blockItems recover is) s is' x s')
    (he : Lowering.Enters (.items c is') l i m' l') : Met config u r tree (path ++ [i]) m' l' := by
  cases is with
  | nil =>
    rw [Typing.blockItems] at hp
    obtain ⟨rfl, -, -⟩ := hp.pure
    cases he
  | cons item items =>
    obtain ⟨item', w, s₁, items', hitem, hitems, rfl⟩ := hp.moreItems
    cases he with
    | statement =>
      cases item with
      | declaration D =>
        obtain ⟨D', -, h⟩ := hitem.declaration
        cases h
      | statement st =>
        obtain ⟨st', hst, h⟩ := hitem.statement
        cases h
        exact .intro (hn.enter .statement) hf (.stmt hst)
    | declaration =>
      cases item with
      | statement st =>
        obtain ⟨st', -, h⟩ := hitem.statement
        cases h
      | declaration D =>
        obtain ⟨D', hD, h⟩ := hitem.declaration
        cases h
        obtain ⟨kind, span⟩ := D
        cases kind with
        | struct spec =>
          obtain ⟨h, -⟩ := hD.struct
          cases h
        | vars vs =>
          obtain ⟨vs', hvs, h⟩ := hD.vars
          cases h
          exact .intro (hn.enter .declaration) hf (.vars hvs)
    | moreItems hrun =>
      obtain ⟨C', G', Δ', hf'⟩ := hf.item hn hm hitem hrun
      exact .intro (hn.enter (.moreItems hitem.run)) hf' (.items hitems)

theorem Lowering.loopTest_eq_ok {testsFirst : Bool} {init : Lower Unit}
    {o : Code.Label × Code.Label × Code.Label} (h : loopTest testsFirst init l = .ok (o, l')) :
    ∃ y l₁, init l = .ok (y, l₁) ∧ Extends id l₁ l' := by
  obtain ⟨y, l₁, hinit, h⟩ := bind_eq_ok.mp h
  refine ⟨y, l₁, hinit, (?_ : Grows id _) _ _ _ h⟩
  exact (Grows.freshLabel _).bind fun _ => (Grows.freshLabel _).bind fun _ =>
    (Grows.freshLabel _).bind fun _ => (Grows.freshLabel _).bind fun _ =>
      .ite ((Grows.emit _).bind fun _ => (Grows.emit _).bind fun _ => .pure _)
        ((Grows.emit _).bind fun _ => .pure _)

theorem Lowering.loopBody_eq_ok {testsFirst : Bool} {init : Lower Unit}
    {test : Code.Label → Lower Unit} {o : Code.Label × Code.Label} (ht : ∀ stop, Grows id (test stop))
    (h : loopBody testsFirst init test l = .ok (o, l')) :
    ∃ y l₁, init l = .ok (y, l₁) ∧ Extends id l₁ l' := by
  obtain ⟨⟨entry, next, stop⟩, l₁, htest, h⟩ := bind_eq_ok.mp h
  obtain ⟨y, l₂, hinit, hl⟩ := loopTest_eq_ok htest
  refine ⟨y, l₂, hinit, hl.trans ((?_ : Grows id _) _ _ _ h)⟩
  exact (ht stop).bind fun _ => (Grows.emit _).bind fun _ => .pure _

theorem Lowering.loopUpdate_eq_ok {testsFirst : Bool} {init : Lower Unit}
    {test : Code.Label → Lower Unit} {body : Code.Label → Code.Label → Lower Unit} {o : Unit}
    (ht : ∀ stop, Grows id (test stop)) (hb : ∀ stop next, Grows id (body stop next))
    (h : loopUpdate testsFirst init test body l = .ok (o, l')) :
    ∃ y l₁, init l = .ok (y, l₁) ∧ Extends id l₁ l' := by
  obtain ⟨⟨stop, next⟩, l₁, hbody, h⟩ := bind_eq_ok.mp h
  obtain ⟨y, l₂, hinit, hl⟩ := loopBody_eq_ok ht hbody
  refine ⟨y, l₂, hinit, hl.trans ((?_ : Grows id _) _ _ _ h)⟩
  exact (hb stop next).bind fun _ => .emit _

theorem grows_ifYes {cond : Lowering.Lower Code.Operand} (h : Grows id cond) :
    Grows id (Lowering.ifYes cond) :=
  h.bind fun _ => (Grows.freshLabel _).bind fun _ => (Grows.freshLabel _).bind fun _ =>
    (Grows.emit _).bind fun _ => .pure _

theorem grows_ifNo {cond : Lowering.Lower Code.Operand} {yes : Lowering.Lower Unit}
    (h : Grows id cond) (hy : Grows id yes) : Grows id (Lowering.ifNo cond yes) :=
  (grows_ifYes h).bind fun _ => hy.bind fun _ => (Grows.emit _).bind fun _ => .emit _

theorem met_stmt {st st' : Stmt} (hn : Typing.Visits config u path (.stmt st) s)
    (hm : Lowering.Visits r tree path (.stmt c st') l) (hf : Follows config u r tree C G Δ s l)
    (hp : Passed (Typing.stmt st) s st' x s') (he : Lowering.Enters (.stmt c st') l i m' l') :
    Met config u r tree (path ++ [i]) m' l' := by
  have hvalue (e : Expr) : Grows id (Lowering.valueOf c.registry (Lowering.expr c e)) :=
    Lowering.grows_valueOf _ (Lowering.grows_expr c e)
  obtain ⟨kind, span⟩ := st
  obtain ⟨kind', hk, rfl⟩ := hp.kind
  cases kind with
  | expr e =>
    obtain ⟨e', t, he', rfl⟩ := hk.exprStmt
    cases he with
    | exprStmt => exact .intro (hn.enter .exprStmt) hf (.expr he')
  | block b =>
    obtain ⟨b', s₁, hb, rfl⟩ := hk.blockStmt
    cases he with
    | blockStmt => exact .intro (hn.enter .blockStmt) hf.push (.items hb)
  | if_ cond yes no =>
    obtain ⟨a, w, s₁, y, z, s₂, n, z', ha, hy, hno, rfl⟩ := hk.if_
    obtain ⟨_, _, ha'⟩ := ha.condition
    cases he with
    | ifCondition => exact .intro (hn.enter .ifCondition) hf (.expr ha')
    | ifYes hrun =>
      obtain ⟨G', hf'⟩ := hf.condition ha (grows_ifYes (hvalue a) _ _ _ hrun)
      exact .intro (hn.enter (.ifYes ha.run)) hf' (.stmt hy)
    | ifNo hrun =>
      obtain ⟨G₁, hf₁⟩ := hf.condition ha (.refl _ _)
      obtain ⟨G₂, hf₂⟩ :=
        hf₁.stmt hy (grows_ifNo (hvalue a) (Lowering.grows_stmt c y) _ _ _ hrun)
      cases no with
      | none =>
        rw [Typing.stmt?] at hno
        cases hno.pure.1
      | some other =>
        obtain ⟨other', hother, h⟩ := hno.stmt?
        cases h
        exact .intro (hn.enter (.ifNo ha.run hy.run)) hf₂ (.stmt hother)
  | loop kind first cond update body =>
    obtain ⟨first', _, s₁, cond', _, s₂, update', _, s₃, body', _, s₄, hfirst, hcond, hupdate,
      hbody, rfl⟩ := hk.loop
    cases he with
    | firstClause =>
      cases first with
      | none =>
        rw [Typing.loopInit?] at hfirst
        cases hfirst.pure.1
      | some first =>
        cases first with
        | declaration D =>
          obtain ⟨D', w, -, h⟩ := hfirst.firstDeclaration
          cases h
        | expr e =>
          obtain ⟨e', t, he', h⟩ := hfirst.firstClause
          cases h
          exact .intro (hn.enter .firstClause) hf.push (.expr he')
    | firstDeclaration =>
      cases first with
      | none =>
        rw [Typing.loopInit?] at hfirst
        cases hfirst.pure.1
      | some first =>
        cases first with
        | expr e =>
          obtain ⟨e', t, -, h⟩ := hfirst.firstClause
          cases h
        | declaration D =>
          obtain ⟨D', w, hD, h⟩ := hfirst.firstDeclaration
          cases h
          obtain ⟨kind, span'⟩ := D
          cases kind with
          | struct spec =>
            obtain ⟨h, -⟩ := hD.struct
            cases h
          | vars vs =>
            obtain ⟨vs', hvs, h⟩ := hD.vars
            cases h
            exact .intro (hn.enter .firstDeclaration) hf.push (.vars hvs)
    | loopCondition hrun =>
      obtain ⟨y, l₁, hinit, hl⟩ := Lowering.loopTest_eq_ok hrun
      obtain ⟨C₁, G₁, Δ₁, hf₁⟩ := hf.loopInit hn hm hfirst hinit
      cases cond with
      | none =>
        rw [Typing.condition?] at hcond
        cases hcond.pure.1
      | some e =>
        obtain ⟨e', w, he', h⟩ := hcond.condition?
        cases h
        obtain ⟨_, _, he'⟩ := he'.condition
        exact .intro (hn.enter (.loopCondition hfirst.run)) (hf₁.lowered hl) (.expr he')
    | body hrun =>
      obtain ⟨y, l₁, hinit, hl⟩ :=
        Lowering.loopBody_eq_ok (fun stop => Lowering.grows_test c cond' stop) hrun
      obtain ⟨C₁, G₁, Δ₁, hf₁⟩ := hf.loopInit hn hm hfirst hinit
      obtain ⟨G₂, hf₂⟩ := hf₁.condition? hcond hl
      obtain ⟨G₃, hf₃⟩ := hf₂.expr? hupdate (.refl _ _)
      exact .intro (hn.enter (.body hfirst.run hcond.run hupdate.run)) hf₃.inLoop (.stmt hbody)
    | update hrun =>
      obtain ⟨y, l₁, hinit, hl⟩ := Lowering.loopUpdate_eq_ok
        (fun stop => Lowering.grows_test c cond' stop) (fun _ _ => Lowering.grows_stmt _ body') hrun
      obtain ⟨C₁, G₁, Δ₁, hf₁⟩ := hf.loopInit hn hm hfirst hinit
      obtain ⟨G₂, hf₂⟩ := hf₁.condition? hcond hl
      cases update with
      | none =>
        rw [Typing.expr?] at hupdate
        cases hupdate.pure.1
      | some e =>
        obtain ⟨e', t, he', h⟩ := hupdate.expr?
        cases h
        exact .intro (hn.enter (.update hfirst.run hcond.run)) hf₂ (.expr he')
  | return_ value =>
    cases value with
    | none =>
      obtain rfl := hk.returnNothing
      cases he
    | some e =>
      obtain ⟨hreturns, e', t, s₁, he', rfl⟩ := hk.return_
      obtain ⟨_, _, he'⟩ := he'.value
      cases he with
      | result => exact .intro (hn.enter (.result hreturns)) hf (.expr he')
  | empty =>
    rw [Typing.stmtKind] at hk
    obtain rfl : .empty = kind' := congrArg (·.1.1) hk.run
    cases he
  | break_ =>
    rw [Typing.stmtKind] at hk
    obtain rfl : .break_ = kind' := congrArg (·.1.1) hk.run
    cases he
  | continue_ =>
    rw [Typing.stmtKind] at hk
    obtain rfl : .continue_ = kind' := congrArg (·.1.1) hk.run
    cases he

theorem met_vars {vs vs' : List VarDecl} (hn : Typing.Visits config u path (.vars vs) s)
    (hm : Lowering.Visits r tree path (.vars c vs') l) (hf : Follows config u r tree C G Δ s l)
    (hp : Passed (Typing.varDecls vs) s vs' x s') (he : Lowering.Enters (.vars c vs') l i m' l') :
    Met config u r tree (path ++ [i]) m' l' := by
  cases vs with
  | nil =>
    rw [Typing.varDecls] at hp
    obtain ⟨rfl, -, -⟩ := hp.pure
    cases he
  | cons v vs =>
    obtain ⟨v', _, s₁, vs', hv, hvs, rfl⟩ := hp.moreVars
    cases he with
    | initializer hresolved hsome hstart =>
      obtain ⟨t, s₂, _, s₃, o, z, hcheck, hdefine, hinit, rfl⟩ := hv.variable
      obtain rfl := Option.some_inj.mp hresolved
      obtain rfl : o = _ := hsome
      obtain ⟨slot, l₁, hbinds, hl⟩ := Lowering.variableStart_eq_ok hstart
      obtain ⟨hglobal, hvalid, hvoid, d, hd⟩ :=
        hf.defines hn hm hcheck hdefine rfl rfl hbinds
      cases hv : v.init with
      | none =>
        rw [hv, Typing.initializer?] at hinit
        cases hinit.pure.1
      | some i₀ =>
        rw [hv] at hinit
        obtain ⟨i', hinit, h⟩ := hinit.initializer?
        cases h
        have hreach := hn.enter (.initializer hcheck hdefine hv)
        rw [hglobal] at hreach hinit
        exact .intro hreach (hd.lowered hl) (.init hvalid hvoid hinit)
    | moreVars hrun =>
      obtain ⟨G', d, hf'⟩ := hf.variable hn hm hv hrun
      exact .intro (hn.enter (.moreVars hv.run)) hf' (.vars hvs)

end Statements

section Initializers

variable {path : List Nat} {i : Nat} {m m' : Lowering.Part} {c : Lowering.Context} {x : Unit}
  {is is' : List Initializer} {t : TypeId}

/-- What a list of initializers consists of is the first and the others. -/
theorem Lowering.Enters.inits (h : Enters m l i m' l') (hm : m.inits? = some is') :
    ∃ j js, is' = j :: js ∧ ((i = 0 ∧ l' = l ∧ ∃ c p, m' = .init c p j) ∨
      i = 1 ∧ m'.inits? = some js ∧ Extends id l l') := by
  cases h with
  | element =>
    cases hm
    exact ⟨_, _, rfl, .inl ⟨rfl, rfl, _, _, rfl⟩⟩
  | moreElements hrun =>
    cases hm
    exact ⟨_, _, rfl, .inr ⟨rfl, rfl, grows_initializer _ _ _ _ _ _ hrun⟩⟩
  | member =>
    cases hm
    exact ⟨_, _, rfl, .inl ⟨rfl, rfl, _, _, rfl⟩⟩
  | moreMembers hrun =>
    cases hm
    exact ⟨_, _, rfl, .inr ⟨rfl, rfl, grows_initializer _ _ _ _ _ _ hrun⟩⟩
  | first =>
    cases hm
    exact ⟨_, _, rfl, .inl ⟨rfl, rfl, _, _, rfl⟩⟩
  | _ => cases hm

theorem met_elements (ht : s.registry.Valid t) (hvoid : s.registry.isVoid t = false)
    (hm : m.inits? = some is') (hn : Typing.Visits config u path (.elements t false is) s)
    (hf : Follows config u r tree C G Δ s l)
    (hp : Passed (Typing.elementInits t false is) s is' x s') (he : Lowering.Enters m l i m' l') :
    Met config u r tree (path ++ [i]) m' l' := by
  obtain ⟨j, js, rfl, hcases⟩ := he.inits hm
  cases is with
  | nil =>
    rw [Typing.elementInits] at hp
    cases hp.pure.1
  | cons k ks =>
    obtain ⟨j', w, s₁, js', hj, hjs, h⟩ := hp.elements
    cases h
    obtain ⟨rfl, rfl, c, p, rfl⟩ | ⟨rfl, hm', hl⟩ := hcases
    · exact .intro (hn.enter .element) hf (.init ht hvoid hj)
    · obtain ⟨G', hf', hgrows⟩ := hf.initializer ht hvoid hj hl
      exact .intro (hn.enter (.moreElements hj.run)) hf'
        (.elements (hgrows.valid ht) ((hgrows.isVoid_eq ht).trans hvoid) hm' hjs)

theorem met_members {types : List TypeId} (hlength : is.length ≤ types.length)
    (ht : ∀ t ∈ types, s.registry.Valid t ∧ s.registry.isVoid t = false)
    (hm : m.inits? = some is') (hn : Typing.Visits config u path (.members types false is) s)
    (hf : Follows config u r tree C G Δ s l)
    (hp : Passed (Typing.memberInits types false is) s is' x s') (he : Lowering.Enters m l i m' l') :
    Met config u r tree (path ++ [i]) m' l' := by
  obtain ⟨j, js, rfl, hcases⟩ := he.inits hm
  cases is with
  | nil =>
    rw [Typing.memberInits] at hp
    cases hp.pure.1
  | cons k ks =>
    cases types with
    | nil => cases hlength
    | cons t types =>
      obtain ⟨⟨hvalid, hvoid⟩, hmore⟩ := List.forall_mem_cons.mp ht
      have hlength := Nat.le_of_succ_le_succ hlength
      obtain ⟨j', w, s₁, js', hj, hjs, h⟩ := hp.members hlength
      cases h
      obtain ⟨rfl, rfl, c, p, rfl⟩ | ⟨rfl, hm', hl⟩ := hcases
      · exact .intro (hn.enter .member) hf (.init hvalid hvoid hj)
      · obtain ⟨G', hf', hgrows⟩ := hf.initializer hvalid hvoid hj hl
        refine .intro (hn.enter (.moreMembers hj.run)) hf'
          (.members hlength (fun t ht => ?_) hm' hjs)
        obtain ⟨hvalid, hvoid⟩ := hmore t ht
        exact ⟨hgrows.valid hvalid, (hgrows.isVoid_eq hvalid).trans hvoid⟩

theorem met_scalar {e e' : Expr} (ht : s.registry.Valid t) (hvoid : s.registry.isVoid t = false)
    (hm : m.inits? = some [.expr e']) (hn : Typing.Visits config u path (.scalar t false [.expr e]) s)
    (hf : Follows config u r tree C G Δ s l)
    (hp : Passed (Typing.initializer t false (.expr e)) s (.expr e') x s')
    (he : Lowering.Enters m l i m' l') : Met config u r tree (path ++ [i]) m' l' := by
  obtain ⟨j, js, h, hcases⟩ := he.inits hm
  cases h
  obtain ⟨rfl, rfl, c, p, rfl⟩ | ⟨rfl, hm', hl⟩ := hcases
  · exact .intro (hn.enter .scalarValue) hf (.init ht hvoid hp)
  · exact .rest hm'

theorem Typing.Ready.element_isObject {element : TypeId} {length : Nat} (h : Ready C G s)
    (htarget : Typing.listTarget s.registry t = .elements element length) :
    s.registry.Valid element ∧ s.registry.isVoid element = false := by
  unfold Typing.listTarget at htarget
  split at htarget
  · rename_i hty
    cases htarget
    exact ⟨h.sound.consistent.valid_ref hty (List.mem_singleton_self _),
      h.sound.solid.elements t element length hty⟩
  · cases htarget
  · cases htarget

theorem Typing.Ready.members_isObject {types : List TypeId} (h : Ready C G s)
    (ht : s.registry.Valid t) (htarget : Typing.listTarget s.registry t = .members types) :
    ∀ t ∈ types, s.registry.Valid t ∧ s.registry.isVoid t = false := by
  unfold Typing.listTarget at htarget
  split at htarget
  · cases htarget
  · rename_i id hty
    cases htarget
    have hbuilt := (h.sound.consistent.entry t ht).built
    rw [show (s.env G).registry.ty t = .struct id from hty] at hbuilt
    intro t' ht'
    refine ⟨h.sound.consistent.valid_ref hty ht', ?_⟩
    obtain ⟨m, hm, rfl⟩ := List.mem_map.mp ht'
    exact h.sound.solid.members id hbuilt.1 m hm
  · cases htarget

theorem met_init {j j' : Initializer} {p : Lowering.Place} (ht : s.registry.Valid t)
    (hvoid : s.registry.isVoid t = false) (hn : Typing.Visits config u path (.init t false j) s)
    (hf : Follows config u r tree C G Δ s l) (hp : Passed (Typing.initializer t false j) s j' x s')
    (he : Lowering.Enters (.init c p j') l i m' l') : Met config u r tree (path ++ [i]) m' l' := by
  cases j with
  | expr e =>
    obtain ⟨e', t', s₁, he', rfl⟩ := hp.initialValue
    cases he with
    | initialValue _ => exact .intro (hn.enter .initialValue) hf (.expr he')
  | list is span =>
    obtain ⟨is', rfl, hlist⟩ := hp.list
    have hinner {m : Lowering.Part} (hm : m.inits? = some is') :
        Met config u r tree (path ++ [0]) m l := by
      obtain ⟨element, length, w, s₁, y, htarget, hw, his⟩ | ⟨types, w, s₁, y, htarget, hw, his⟩ |
        ⟨e, e', y, htarget, rfl, rfl, hvalue⟩ := hlist
      · obtain ⟨hf₁, -, hgrows⟩ := hf.check (Typing.checks_checkExcess (K := fun _ => True) _ _ _)
          (fun _ _ => trivial) hw
        obtain ⟨hvalid, hobject⟩ := hf.ready.element_isObject htarget
        exact .intro (hn.enter (.elements htarget hw)) hf₁ (.elements (hgrows.valid hvalid)
          ((hgrows.isVoid_eq hvalid).trans hobject) hm his)
      · obtain ⟨hf₁, hlength, hgrows⟩ := hf.check
          (Typing.checks_checkExcess (K := fun _ => True) _ _ _) (fun _ _ => trivial) hw
        refine .intro (hn.enter (.members htarget hw)) hf₁ (.members hlength (fun t' ht' => ?_) hm his)
        obtain ⟨hvalid, hobject⟩ := hf.ready.members_isObject ht htarget t' ht'
        exact ⟨hgrows.valid hvalid, (hgrows.isVoid_eq hvalid).trans hobject⟩
      · exact .intro (hn.enter (.scalar htarget)) hf (.scalar ht hvoid hm hvalue)
    cases he with
    | elements _ => exact hinner rfl
    | members _ => exact hinner rfl
    | scalar _ _ => exact hinner rfl

end Initializers

section Units

variable {path : List Nat} {i : Nat} {m m' : Lowering.Part}

theorem met_decls {ds ds' : List TopDecl} (hn : Typing.Visits config u path (.decls ds) s)
    (hm : Lowering.Visits r tree path (.decls r ds') l) (hG : Ready Typing.Site.outermost G s)
    (hglobals : KnownGlobals config u r tree G) (hrun : Typing.topDecls ds s = (ds', s'))
    (herrors : s'.errors = #[]) (he : Lowering.Enters (.decls r ds') l i m' l') :
    Met config u r tree (path ++ [i]) m' l' := by
  cases ds with
  | nil =>
    rw [Typing.topDecls] at hrun
    cases hrun
    cases he
  | cons d ds =>
    obtain ⟨d', w, s₁, ds'', hd, hds, rfl⟩ := Typing.topDecls_eq hrun herrors
    have hmore := hn.enter (.moreDecls hd.run)
    cases d with
    | declaration D =>
      obtain ⟨D', rfl, hafter⟩ := hglobals.declaration hn hm hG hd
      cases he with
      | globals => exact .globals rfl
      | afterDeclaration hgs =>
        obtain ⟨G', hG', hglobals'⟩ := hafter _ hgs
        exact .outside hmore hG' hglobals' hds herrors rfl
    | function f =>
      obtain ⟨G', hG', hglobals'⟩ := hglobals.topFunction hG hd
      obtain ⟨g, -, rfl⟩ := hd.topFunction
      cases he with
      | function hbody hstart =>
        obtain ⟨is, s₂, y, s₃, C, G₂, Δ, hreach, hitems, hfollows⟩ :=
          Follows.ofFunction hn hm hG hglobals hd hbody hstart
        exact .intro hreach hfollows (.items hitems)
      | moreFunctions _ _ => exact .outside hmore hG' hglobals' hds herrors rfl
      | afterPrototype _ => exact .outside hmore hG' hglobals' hds herrors rfl

/-- The step lemma: wherever lowering goes, analysis has been. -/
theorem Met.enters (h : Met config u r tree path m l) (hm : Lowering.Visits r tree path m l)
    (he : Lowering.Enters m l i m' l') : Met config u r tree (path ++ [i]) m' l' := by
  cases h with
  | intro hn hf hy =>
    cases hy with
    | @expr e _ e' t _ c hp =>
      obtain ⟨kind, span, ty⟩ := e
      rw [Typing.expr] at hp
      exact met_expr hn hf hp he
    | values _ hp => exact met_values hn hf hp he
    | arguments hparams hp => exact met_arguments hparams hn hf hp he
    | items hp => exact met_items hn hm hf hp he
    | stmt hp => exact met_stmt hn hm hf hp he
    | vars hp => exact met_vars hn hm hf hp he
    | init ht hvoid hp => exact met_init ht hvoid hn hf hp he
    | elements ht hvoid his hp => exact met_elements ht hvoid his hn hf hp he
    | members hlength ht his hp => exact met_members hlength ht his hn hf hp he
    | scalar ht hvoid his hp => exact met_scalar ht hvoid his hn hf hp he
  | outside hn hG hglobals hrun herrors heq =>
    subst heq
    exact met_decls hn hm hG hglobals hrun herrors he
  | globals heq =>
    subst heq
    cases he with
    | moreGlobals _ => exact .globals rfl
  | rest hrest =>
    obtain ⟨j, js, h, -⟩ := he.inits hrest
    cases h

/-- The run lemma. -/
theorem Lowering.Visits.met {ds : List TopDecl} {s : Typing.State}
    (hrun : Typing.topDecls u.decls (Typing.State.initial config) = (ds, s)) (herrors : s.errors = #[])
    (h : Lowering.Visits r ⟨ds⟩ path m l) : Met config u r ⟨ds⟩ path m l := by
  induction h with
  | unit =>
    refine .outside .unit (Typing.ready_initial config) ?_ hrun herrors rfl
    exact KnownGlobals.function (G := []) (List.forall_mem_nil _) rfl fun _ hsym => hsym
  | enter hm he ih => exact ih.enters hm he

end Units

section Storage

variable (config u r tree)

/-- A symbol and storage are of one declaration: of a local or a parameter, whose slot is no other's
in scope, or of the only global of that name. -/
inductive SameDeclaration (code : Code.Module) (sym : Symbol) (l : Lowering.State) :
    Code.Operand → Lowering.State → Prop
  | slot {o slot} : Typing.Introduces config u o sym → Lowering.Provides r tree o sym.name slot →
      (l.slots.flatten.map (·.2)).Nodup → SameDeclaration code sym l (.temp slot) l
  | global {o v g} : Typing.Introduces config u o sym → Lowering.Makes r tree o v →
      v.name = sym.name → Lowering.globalOf r v = .ok g → g ∈ code.globals →
      (∀ g' ∈ code.globals, g'.name = sym.name → g' = g) →
      SameDeclaration code sym l (.temp l.temps)
        { l with code := l.code.push (.addressOf l.temps sym.name), temps := l.temps + 1 }

end Storage

theorem Lowering.variableAddress_eq (name : String) (l : State) :
    variableAddress name l = match slot? l.slots name with
      | some slot => .ok (.temp slot, l)
      | none => define (.addressOf · name) l := by
  unfold variableAddress
  show (match slot? l.slots name with
    | some slot => (pure (.temp slot) : Lower Code.Operand)
    | none => define (.addressOf · name)) l = _
  cases slot? l.slots name <;> rfl

/-- Both find the same declaration. -/
theorem Follows.sameDeclaration {code : Code.Module} {name : String} {sym : Symbol}
    (h : Follows config u r tree C G Δ s l) (hlower : Lowering.lower r tree = .ok code)
    (hdistinct : (code.globals.map (·.name)).Nodup) (hsym : s.scope.lookup name = some sym)
    (hobject : sym.IsObject) :
    sym.name = name ∧ ∃ operand l', Lowering.variableAddress name l = .ok (operand, l') ∧
      SameDeclaration config u r tree code sym l operand l' := by
  rw [h.ready.lookup_eq, h.frames, Entries.symbol?_eq] at hsym
  rw [Lowering.variableAddress_eq, h.slots, Entries.slot?_eq]
  cases hd : Δ.find? name with
  | some d =>
    rw [hd] at hsym
    obtain rfl : d.symbol = sym := Option.some_inj.mp hsym
    obtain ⟨frame, hframe, hfind⟩ := List.exists_of_findSome?_eq_some hd
    have hname : d.symbol.name = name := by simpa using List.find?_some hfind
    have hknown := h.known frame hframe d (List.mem_of_find?_eq_some hfind)
    refine ⟨hname, _, l, rfl, .slot hknown.introduced hknown.provided ?_⟩
    have hslots : l.slots.flatten.map (·.2) = Δ.flatten.map Entry.slot := by
      rw [h.slots, List.map_flatten, List.map_flatten, List.map_map]
      simp [Entry.binding, Function.comp_def]
    rw [hslots]
    exact h.distinct
  | none =>
    rw [hd] at hsym
    replace hsym : G.find? (·.name == name) = some sym := hsym
    obtain rfl : sym.name = name := by simpa using List.find?_some hsym
    obtain ⟨o, v, hintroduces, hmakes, hname⟩ :=
      h.globals sym (List.mem_of_find?_eq_some hsym) hobject
    refine ⟨rfl, _, _, rfl, ?_⟩
    obtain ⟨hreach⟩ := hmakes
    obtain ⟨gs, hgs, hsub⟩ := hreach.lowers hlower
    rw [List.mapM_cons] at hgs
    obtain ⟨g, hg, hgs⟩ := Machine.except_bind_eq_ok.mp hgs
    obtain ⟨gs', -, hgs⟩ := Machine.except_bind_eq_ok.mp hgs
    cases hgs
    have hmem := hsub (List.mem_cons_self ..)
    have hgname : g.name = sym.name := (Lowering.globalOf_eq_ok hg).trans hname
    exact .global hintroduces (.variable hreach) hname hg hmem fun g' hg' hsame =>
      List.inj_on_of_nodup_map hdistinct hg' hmem (hsame.trans hgname.symm)

end

/-- Analysis and lowering agree on names. Whatever a name stands for where lowering gets to it as an
expression, analysis has been there too, what it looked up is the symbol of the same declaration, and
the expression has its type. -/
theorem Compilation.same_declaration {layout : Layout.Config} {source : String}
    {tree : CompilationUnit} {registry : Registry} {code : Code.Module} {path : List Nat}
    {c : Lowering.Context} {name : String} {span : Span} {ty : Option TypeId} {l : Lowering.State}
    (hcheck : (do check layout (← parse source)) = .ok (tree, registry))
    (hlower : Lowering.lower registry tree = .ok code)
    (hreach : Lowering.Visits registry tree path (.expr c ⟨.name name, span, ty⟩) l) :
    ∃ u s old sym operand l', parse source = .ok u ∧
      Typing.Visits layout u path (.expr ⟨.name name, span, old⟩) s ∧
      s.scope.lookup name = some sym ∧ sym.name = name ∧ ty = some sym.ty ∧
      Lowering.expr c ⟨.name name, span, ty⟩ l = .ok (.place ⟨operand, 0, sym.ty⟩, l') ∧
      SameDeclaration layout u registry tree code sym l operand l' := by
  obtain ⟨u, hparse, hcheck⟩ := Machine.except_bind_eq_ok.mp hcheck
  obtain ⟨herrors, rfl, rfl⟩ := accepted_of_check hcheck
  have hdistinct := Typing.nodup_globals_of_analyze herrors
  obtain ⟨hglobals, -⟩ := Lowering.lower_eq_ok hlower (Typing.scoped_of_analyze herrors).2
  rw [← hglobals] at hdistinct
  obtain ⟨⟨ds, s₁⟩, hrun⟩ : ∃ y, Typing.topDecls u.decls (Typing.State.initial layout) = y := ⟨_, rfl⟩
  have hanalyze : Typing.analyze layout u = ⟨⟨ds⟩, s₁.registry, s₁.errors.toList⟩ := by
    unfold Typing.analyze
    rw [show (Typing.topDecls u.decls).run (Typing.State.initial layout) = (ds, s₁) from hrun]
  rw [hanalyze] at herrors hlower hreach ⊢
  have hmet := hreach.met hrun (Array.toList_eq_nil_iff.mp herrors)
  cases hmet with
  | @intro n s C G Δ hn hf hy =>
    cases hy with
    | @expr e _ _ t s' _ hp =>
      obtain ⟨⟨old, rfl⟩, hty, sym, hlookup, hobject, rfl⟩ := hp.name
      obtain ⟨hname, operand, l', haddress, hsame⟩ :=
        hf.sameDeclaration hlower hdistinct hlookup hobject
      refine ⟨u, s, old, sym, operand, l', hparse, hn, hlookup, hname, hty, ?_, hsame⟩
      rw [hty, Lowering.expr, Lowering.exprKind]
      exact Lowering.bind_eq_ok.mpr ⟨_, _, haddress, rfl⟩
    | elements _ _ hm _ => cases hm
    | members _ _ hm _ => cases hm
    | scalar _ _ hm _ => cases hm
  | outside _ _ _ _ _ hm => cases hm
  | globals hm => cases hm
  | rest hm => cases hm

/-- A parameter that hides a global. -/
theorem Compilation.same_declaration_of_parameter :
    ∃ tree registry code c name span ty l,
      (do check ⟨.lp64, 64⟩ (← parse "int n = 1; int f(int n) { n; }")) = .ok (tree, registry) ∧
      Lowering.lower registry tree = .ok code ∧
      Lowering.Visits registry tree [1, 0, 0, 0] (.expr c ⟨.name name, span, ty⟩) l ∧
      ∃ u s old sym operand l', parse "int n = 1; int f(int n) { n; }" = .ok u ∧
        Typing.Visits ⟨.lp64, 64⟩ u [1, 0, 0, 0] (.expr ⟨.name name, span, old⟩) s ∧
        s.scope.lookup name = some sym ∧ sym.name = name ∧ ty = some sym.ty ∧
        Lowering.expr c ⟨.name name, span, ty⟩ l = .ok (.place ⟨operand, 0, sym.ty⟩, l') ∧
        SameDeclaration ⟨.lp64, 64⟩ u registry tree code sym l operand l' := by
  have hshape : ((do check ⟨.lp64, 64⟩ (← parse "int n = 1; int f(int n) { n; }")).toOption.bind
      fun p => (Lowering.lower p.2 p.1).toOption.map fun _ => p.1.decls.map fun d =>
        TopDecl.casesOn d (fun _ => none) fun f => some (f.body.map fun b =>
          (b.items.length, b.trailing?.map fun e => e.kind.ctorIdx))) =
      some [none, some (some (1, some 3))] := by decide +kernel
  obtain ⟨⟨tree, registry⟩, hcheck, hshape⟩ := Option.bind_eq_some_iff.mp hshape
  obtain ⟨code, hlower, hshape⟩ := Option.map_eq_some_iff.mp hshape
  replace hcheck := ok_of_toOption hcheck
  replace hlower := ok_of_toOption hlower
  obtain ⟨ds⟩ := tree
  obtain ⟨d, ds, rfl, hd, hds⟩ := List.map_eq_cons_iff.mp hshape
  obtain ⟨d', ds, rfl, hd', hds⟩ := List.map_eq_cons_iff.mp hds
  obtain rfl := List.map_eq_nil_iff.mp hds
  cases d with
  | function f => cases hd
  | declaration D =>
    cases d' with
    | declaration D' => cases hd'
    | function f =>
      obtain ⟨b, hbody, hb⟩ := Option.map_eq_some_iff.mp (Option.some_inj.mp hd')
      obtain ⟨hlength, htrailing⟩ := Prod.mk.inj hb
      obtain ⟨e, htrailing, hkind⟩ := Option.map_eq_some_iff.mp htrailing
      obtain ⟨items, bodySpan⟩ := b
      obtain ⟨item, rfl⟩ := List.length_eq_one_iff.mp hlength
      unfold Block.trailing? at htrailing
      split at htrailing
      · rename_i e' statementSpan hlast
        cases htrailing
        obtain rfl : item = .statement ⟨.expr e, statementSpan⟩ := Option.some_inj.mp hlast
        obtain ⟨kind, span, ty⟩ := e
        cases kind with
        | name name =>
          have hdecls : Lowering.Visits registry ⟨[.declaration D, .function f]⟩ [] _ _ := .unit
          obtain ⟨fs, gs, l₁, hrun, -⟩ := hdecls.lowers hlower
          obtain ⟨here, l₂, hhere, hrun⟩ := Lowering.bind_eq_ok.mp hrun
          obtain ⟨hglobals, rfl⟩ := Lowering.lift_eq_ok.mp hhere
          obtain ⟨⟨fs', gs'⟩, l₃, hfunctions, -⟩ := Lowering.bind_eq_ok.mp hrun
          rw [Lowering.topDecls, hbody] at hfunctions
          obtain ⟨g, l₄, hfunction, -⟩ := Lowering.bind_eq_ok.mp hfunctions
          obtain ⟨c, l₅, hstart, -⟩ := Lowering.exists_functionStart hfunction
          have hreach := (((hdecls.enter (.afterDeclaration hglobals)).enter
            (.function hbody hstart)).enter .statement).enter .exprStmt
          exact ⟨_, registry, code, c, name, span, ty, l₅, hcheck, hlower, hreach,
            same_declaration hcheck hlower hreach⟩
        | _ => cases hkind
      · cases htrailing

end MiniC
