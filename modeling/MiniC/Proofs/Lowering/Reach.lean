import MiniC.Lowering.Unit
/-!
Where lowering gets to. As for analysis, a part of a tree is reached in the state that is left by
what is lowered before it; parts have the same numbers, although they come in another order. What
comes before a part is written as the beginning of the action that lowers the whole.
-/
namespace MiniC.Lowering

open Syntax
open Code (Global Label Operand Temp)

/-- A part of a tree, with what is handed down to its code. -/
inductive Part where
  | expr (c : Context) (e : Expr)
  | values (c : Context) (es : List Expr)
  | items (c : Context) (is : List BlockItem)
  | stmt (c : Context) (s : Stmt)
  | vars (c : Context) (vs : List VarDecl)
  | init (c : Context) (target : Place) (i : Initializer)
  | elements (c : Context) (element : TypeId) (target : Place) (is : List Initializer)
  | members (c : Context) (target : Place) (ms : List Member) (is : List Initializer)
  | first (c : Context) (target : Place) (is : List Initializer)
  | globals (r : Registry) (vs : List VarDecl)
  | decls (r : Registry) (ds : List TopDecl)

/-! The beginnings of actions. -/

def logicalStart : Lower (Label × Temp) := do
  let result ← freshTemp
  let short ← freshLabel "shortcircuit"
  let _ ← freshLabel "logend"
  return (short, result)

def logicalMiddle (isAnd : Bool) (left : Lower Operand) : Lower Unit := do
  let (short, _) ← logicalStart
  let l ← left
  emit (if isAnd then .branchUnless l short else .branchIf l short)

def conditionalYes (cond : Lower Operand) : Lower (Label × Label × Temp) := do
  let cond ← cond
  let other ← freshLabel "ternelse"
  let stop ← freshLabel "ternend"
  let result ← freshTemp
  branchUnless cond other
  return (other, stop, result)

def conditionalNo (cond yes : Lower Operand) : Lower Unit := do
  let (other, stop, result) ← conditionalYes cond
  emit (.copy result (← yes))
  emit (.jump stop)
  emit (.label other)

/-- What is subscripted. -/
def element (c : Context) (ty arrayTy : TypeId) (array : Expr) : Lower Place := do
  if c.registry.isArray arrayTy then storageOf (expr c array) 0 ty
  else return ⟨← valueOf c.registry (expr c array), 0, ty⟩

def ifYes (cond : Lower Operand) : Lower (Label × Label) := do
  let cond ← cond
  let other ← freshLabel "else"
  let stop ← freshLabel "endif"
  branchUnless cond other
  return (other, stop)

def ifNo (cond : Lower Operand) (yes : Lower Unit) : Lower Unit := do
  let (other, stop) ← ifYes cond
  yes
  emit (.jump stop)
  emit (.label other)

/-- The labels at which a loop is left and goes on. -/
def loopTest (testsFirst : Bool) (init : Lower Unit) : Lower (Label × Label × Label) := do
  init
  let top ← freshLabel "loop"
  let entry ← freshLabel "body"
  let next ← freshLabel "next"
  let stop ← freshLabel "endloop"
  if !testsFirst then emit (.jump entry)
  emit (.label top)
  return (entry, next, stop)

def loopBody (testsFirst : Bool) (init : Lower Unit) (test : (stop : Label) → Lower Unit) :
    Lower (Label × Label) := do
  let (entry, next, stop) ← loopTest testsFirst init
  test stop
  emit (.label entry)
  return (stop, next)

def loopUpdate (testsFirst : Bool) (init : Lower Unit) (test : (stop : Label) → Lower Unit)
    (body : (stop next : Label) → Lower Unit) : Lower Unit := do
  let (stop, next) ← loopBody testsFirst init test
  body stop next
  emit (.label next)

/-- A loop body knows where to go. -/
def Context.inLoop (c : Context) (stop next : Label) : Context :=
  { c with breakTo := some stop, continueTo := some next }

/-- Storage for a variable, bound to its name, and zeroed if its initializer needs that. -/
def variableStart (r : Registry) (name : String) (ty : TypeId) (i : Initializer) : Lower Place := do
  let slot ← allocate r ty
  bind name slot
  if needsZeros r ty i then Place.zero r ⟨.temp slot, 0, ty⟩
  return ⟨.temp slot, 0, ty⟩

/-- Storage for the parameters, bound to their names. -/
def functionStart (r : Registry) (f : FuncDecl) : Lower Context := do
  let returns ← need (.unresolved f.name) f.resolvedReturn
  let ps ← params f.params
  modify fun s => { s with code := #[], temps := 0, slots := [[]] }
  receiveAll r 0 ps
  return ⟨r, returns, none, none⟩

/-- One step down, into the part of that number. -/
inductive Enters : Part → State → Nat → Part → State → Prop
  | left {c s span t left right op} : op.isLogical = false →
      Enters (.expr c ⟨.binary op left right, span, some t⟩) s 0 (.expr c left) s
  | right {c s s' span t left right op o} : op.isLogical = false →
      valueOf c.registry (expr c left) s = .ok (o, s') →
      Enters (.expr c ⟨.binary op left right, span, some t⟩) s 1 (.expr c right) s'
  | logicalLeft {c s s' span t left right op o} : op.isLogical = true →
      logicalStart s = .ok (o, s') →
      Enters (.expr c ⟨.binary op left right, span, some t⟩) s 0 (.expr c left) s'
  | logicalRight {c s s' span t left right op o} : op.isLogical = true →
      logicalMiddle (op == .logAnd) (valueOf c.registry (expr c left)) s = .ok (o, s') →
      Enters (.expr c ⟨.binary op left right, span, some t⟩) s 1 (.expr c right) s'
  | unary {c s span t operand op} :
      Enters (.expr c ⟨.unary op operand, span, some t⟩) s 0 (.expr c operand) s
  | structSource {c s span t target source op} : c.registry.isStruct t = true →
      Enters (.expr c ⟨.assign op target source, span, some t⟩) s 1 (.expr c source) s
  | structTarget {c s s' span t target source op o} : c.registry.isStruct t = true →
      valueOf c.registry (expr c source) s = .ok (o, s') →
      Enters (.expr c ⟨.assign op target source, span, some t⟩) s 0 (.expr c target) s'
  | source {c s span t target source} : c.registry.isStruct t = false →
      Enters (.expr c ⟨.assign none target source, span, some t⟩) s 1 (.expr c source) s
  | target {c s s' span t target source o} : c.registry.isStruct t = false →
      (do convert c.registry (← valueOf c.registry (expr c source)) t) s = .ok (o, s') →
      Enters (.expr c ⟨.assign none target source, span, some t⟩) s 0 (.expr c target) s'
  | compoundTarget {c s span t target source op} : c.registry.isStruct t = false →
      Enters (.expr c ⟨.assign (some op) target source, span, some t⟩) s 0 (.expr c target) s
  | compoundSource {c s s' span t target source op o} : c.registry.isStruct t = false →
      (do (← placeOf target (expr c target)).load c.registry) s = .ok (o, s') →
      Enters (.expr c ⟨.assign (some op) target source, span, some t⟩) s 1 (.expr c source) s'
  | condition {c s span t cond yes no} :
      Enters (.expr c ⟨.conditional cond yes no, span, some t⟩) s 0 (.expr c cond) s
  | yes {c s s' span t cond yes no o} :
      conditionalYes (valueOf c.registry (expr c cond)) s = .ok (o, s') →
      Enters (.expr c ⟨.conditional cond yes no, span, some t⟩) s 1 (.expr c yes) s'
  | no {c s s' span t cond yes no o} :
      conditionalNo (valueOf c.registry (expr c cond))
        (do convert c.registry (← valueOf c.registry (expr c yes)) t) s = .ok (o, s') →
      Enters (.expr c ⟨.conditional cond yes no, span, some t⟩) s 2 (.expr c no) s'
  | arguments {c s span t es callee name} : callee.kind = .name name →
      Enters (.expr c ⟨.call callee es, span, some t⟩) s 0 (.values c es) s
  | array {c s span t array index} :
      Enters (.expr c ⟨.index array index, span, some t⟩) s 0 (.expr c array) s
  | index {c s s' span t array index arrayTy o} : index.constant? = none → array.ty = some arrayTy →
      element c t arrayTy array s = .ok (o, s') →
      Enters (.expr c ⟨.index array index, span, some t⟩) s 1 (.expr c index) s'
  | object {c s span t object field m} :
      Enters (.expr c ⟨.member object field (some m), span, some t⟩) s 0 (.expr c object) s
  | pointer {c s span t pointer field m} :
      Enters (.expr c ⟨.pointerMember pointer field (some m), span, some t⟩) s 0 (.expr c pointer) s
  | cast {c s span t operand written} :
      Enters (.expr c ⟨.cast written operand, span, some t⟩) s 0 (.expr c operand) s
  | addressOf {c s span t operand} :
      Enters (.expr c ⟨.addressOf operand, span, some t⟩) s 0 (.expr c operand) s
  | deref {c s span t operand} :
      Enters (.expr c ⟨.deref operand, span, some t⟩) s 0 (.expr c operand) s
  | step {c s span t operand decrement yieldsOld} :
      Enters (.expr c ⟨.step operand decrement yieldsOld, span, some t⟩) s 0 (.expr c operand) s
  | comma {c s span t es} : Enters (.expr c ⟨.comma es, span, some t⟩) s 0 (.values c es) s
  | block {c s span t b} :
      Enters (.expr c ⟨.block b, span, some t⟩) s 0 (.items c b.items)
        { s with slots := [] :: s.slots }
  | value {c s e es} : Enters (.values c (e :: es)) s 0 (.expr c e) s
  | moreValues {c s s' e es o} : valueOf c.registry (expr c e) s = .ok (o, s') →
      Enters (.values c (e :: es)) s 1 (.values c es) s'
  | statement {c s items st} : Enters (.items c (.statement st :: items)) s 0 (.stmt c st) s
  | declaration {c s span items vs} :
      Enters (.items c (.declaration ⟨.vars vs, span⟩ :: items)) s 0 (.vars c vs) s
  | moreItems {c s s' items item o} : blockItem c item s = .ok (o, s') →
      Enters (.items c (item :: items)) s 1 (.items c items) s'
  | exprStmt {c s span e} : Enters (.stmt c ⟨.expr e, span⟩) s 0 (.expr c e) s
  | blockStmt {c s span b} :
      Enters (.stmt c ⟨.block b, span⟩) s 0 (.items c b.items) { s with slots := [] :: s.slots }
  | ifCondition {c s span cond st other} :
      Enters (.stmt c ⟨.if_ cond st other, span⟩) s 0 (.expr c cond) s
  | ifYes {c s s' span cond st other o} : ifYes (valueOf c.registry (expr c cond)) s = .ok (o, s') →
      Enters (.stmt c ⟨.if_ cond st other, span⟩) s 1 (.stmt c st) s'
  | ifNo {c s s' span cond st other o} :
      ifNo (valueOf c.registry (expr c cond)) (stmt c st) s = .ok (o, s') →
      Enters (.stmt c ⟨.if_ cond st (some other), span⟩) s 2 (.stmt c other) s'
  | firstClause {c s span e body kind test update} :
      Enters (.stmt c ⟨.loop kind (some (.expr e)) test update body, span⟩) s 0 (.expr c e)
        { s with slots := [] :: s.slots }
  | firstDeclaration {c s span span' body vs kind test update} :
      Enters (.stmt c ⟨.loop kind (some (.declaration ⟨.vars vs, span'⟩)) test update body, span⟩)
        s 0 (.vars c vs) { s with slots := [] :: s.slots }
  | loopCondition {c s s' span cond body kind init update o} :
      loopTest kind.testsFirst (loopInit c init) { s with slots := [] :: s.slots } = .ok (o, s') →
      Enters (.stmt c ⟨.loop kind init (some cond) update body, span⟩) s 1 (.expr c cond) s'
  | body {c s s' span body kind init test update stop next} :
      loopBody kind.testsFirst (loopInit c init) (Lowering.test c test)
        { s with slots := [] :: s.slots } = .ok ((stop, next), s') →
      Enters (.stmt c ⟨.loop kind init test update body, span⟩) s 3
        (.stmt (c.inLoop stop next) body) s'
  | update {c s s' span e body kind init test o} :
      loopUpdate kind.testsFirst (loopInit c init) (Lowering.test c test)
        (fun stop next => stmt (c.inLoop stop next) body) { s with slots := [] :: s.slots } = .ok
        (o, s') →
      Enters (.stmt c ⟨.loop kind init test (some e) body, span⟩) s 2 (.expr c e) s'
  | result {c s span e} : Enters (.stmt c ⟨.return_ (some e), span⟩) s 0 (.expr c e) s
  | initializer {c s s' t v vs i p} : v.resolved = some t → v.init = some i →
      variableStart c.registry v.name t i s = .ok (p, s') →
      Enters (.vars c (v :: vs)) s 0 (.init c p i) s'
  | moreVars {c s s' v vs o} : localVar c v s = .ok (o, s') →
      Enters (.vars c (v :: vs)) s 1 (.vars c vs) s'
  /-- A text that fills an array is no expression. -/
  | initialValue {c s e p} : (∀ element length text, c.registry.ty p.ty = .array element length →
      e.kind ≠ .string text) → Enters (.init c p (.expr e)) s 0 (.expr c e) s
  | elements {c s span is p element length} : c.registry.ty p.ty = .array element length →
      Enters (.init c p (.list is span)) s 0 (.elements c element p is) s
  | members {c s span is p id} : c.registry.ty p.ty = .struct id →
      Enters (.init c p (.list is span)) s 0 (.members c p (c.registry.structType id).members is) s
  | scalar {c s span is p} : (∀ element length, c.registry.ty p.ty ≠ .array element length) →
      (∀ id, c.registry.ty p.ty ≠ .struct id) →
      Enters (.init c p (.list is span)) s 0 (.first c p is) s
  | element {c s i is p element} :
      Enters (.elements c element p (i :: is)) s 0 (.init c { p with ty := element } i) s
  | moreElements {c s s' i is p element o} :
      initializer c { p with ty := element } i s = .ok (o, s') →
      Enters (.elements c element p (i :: is)) s 1
        (.elements c element (p.further (Int64.ofNat (c.registry.sizeOf element)) p.ty) is) s'
  | member {c s i is p m ms} :
      Enters (.members c p (m :: ms) (i :: is)) s 0
        (.init c (p.further (Int64.ofNat m.offset) m.ty) i) s
  | moreMembers {c s s' i is p m ms o} :
      initializer c (p.further (Int64.ofNat m.offset) m.ty) i s = .ok (o, s') →
      Enters (.members c p (m :: ms) (i :: is)) s 1 (.members c p ms is) s'
  | first {c s i is p} : Enters (.first c p (i :: is)) s 0 (.init c p i) s
  | globals {r s span vs ds} :
      Enters (.decls r (.declaration ⟨.vars vs, span⟩ :: ds)) s 0 (.globals r vs) s
  | moreGlobals {r s v vs g} : globalOf r v = .ok g →
      Enters (.globals r (v :: vs)) s 1 (.globals r vs) s
  | function {c r s s' ds f block} : f.body = some block → functionStart r f s = .ok (c, s') →
      Enters (.decls r (.function f :: ds)) s 0 (.items c block.items) s'
  | moreFunctions {r s s' ds f block g} : f.body = some block → function r f block s = .ok (g, s') →
      Enters (.decls r (.function f :: ds)) s 1 (.decls r ds) s'
  | afterPrototype {r s ds f} : f.body = none →
      Enters (.decls r (.function f :: ds)) s 1 (.decls r ds) s
  | afterDeclaration {r s ds d gs} : Lowering.globals r d.kind = .ok gs →
      Enters (.decls r (.declaration d :: ds)) s 1 (.decls r ds) s

/-- The part at the end of a path, and the state in which it is lowered. -/
inductive Visits (r : Registry) (tree : CompilationUnit) : List Nat → Part → State → Prop
  | unit : Visits r tree [] (.decls r tree.decls) State.initial
  | enter {path p s n p' s'} : Visits r tree path p s → Enters p s n p' s' →
      Visits r tree (path ++ [n]) p' s'

end MiniC.Lowering
