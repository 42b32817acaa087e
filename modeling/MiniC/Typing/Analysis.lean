import MiniC.Typing.Resolve
/-!
Analysis of a syntax tree. Each function returns its tree with the types and members that were
found, also when it failed halfway, beside the outcome. In a function body a failing declaration or
statement is recorded, and the next one is looked at.
-/
namespace MiniC.Typing

open Syntax
open Check

abbrev Analysis := StateM State

/-- The outcome of a check, as a value. -/
def outcome (c : Check α) : Analysis (Verdict α) := c

/-- The next step, unless an earlier one failed: then its tree stays as it is. -/
def andThen (earlier : Verdict α) (tree : τ) (next : Analysis (τ × Verdict β)) :
    Analysis (τ × Verdict β) :=
  match earlier with
  | .ok _ => next
  | .error e => pure (tree, .error e)

/-- Both outcomes, the first failure if any. -/
def both (a : Verdict α) (b : Verdict β) : Verdict Unit := do
  let _ ← a
  let _ ← b

/-- An expression that got its type, or did not. -/
def typed (kind : ExprKind) (span : Span) (before : Option TypeId) (c : Check TypeId) :
    Analysis (Expr × Verdict TypeId) := do
  match ← outcome c with
  | .ok t => return (⟨kind, span, some t⟩, .ok t)
  | .error e => return (⟨kind, span, before⟩, .error e)

/-- Runs in a scope of its own. -/
def inScope (act : Analysis α) : Analysis α := do
  modify fun s => { s with scope := s.scope.push }
  let a ← act
  modify fun s => { s with scope := s.scope.pop }
  return a

/-- Runs as the body of a loop. -/
def inLoop (act : Analysis α) : Analysis α := do
  modify fun s => { s with loopDepth := s.loopDepth + 1 }
  let a ← act
  modify fun s => { s with loopDepth := s.loopDepth - 1 }
  return a

def record (e : TypingError) : Analysis Unit :=
  modify fun s => { s with errors := s.errors.push e }

/-- The type of a name that stands for an object. -/
def nameType (name : String) (span : Span) : Check TypeId := do
  match (← get).scope.lookup name with
  | some ⟨_, .function _, _, _⟩ => type (.functionAsValue name) span
  | some s => return s.ty
  | none => Check.name (.undeclared name) span

/-- The result type and signature of what is called. -/
def calledFunction (callee : Expr) : Check (TypeId × Signature) := do
  match callee.kind with
  | .name name =>
    match (← get).scope.lookup name with
    | some ⟨_, .function sig, ty, _⟩ => return (ty, sig)
    | some s => type (.calledObject ((← registry).display s.ty)) callee.span
    | none => Check.name (.undeclaredFunction name) callee.span
  | _ => type .calledNonFunction callee.span

def checkArgumentCount (sig : Signature) (got : Nat) (span : Span) : Check Unit := do
  let expected := sig.params.length
  if got < expected || (!sig.variadic && expected < got) then
    type (.argumentCount expected got) span

/-- An argument fits its parameter; past the parameters it is no struct. -/
def checkArgument (param : Option TypeId) (t : TypeId) (arg : Expr) : Check Unit := do
  match param with
  | some p => rule (checkAssignable · p t arg)
  | none => if (← registry).isStruct t then Check.name .structPastParameters arg.span

def checkTarget (target : Expr) (t : TypeId) : Check Unit := do
  if !isLvalue target then type .notAssignable target.span
  let r ← registry
  if r.isArray t then type (.arrayNotAssignable (r.display t)) target.span

def checkAssignment (op : Option BinaryOp) (t v : TypeId) (value : Expr) (span : Span) :
    Check TypeId := do
  match op with
  | none => rule (checkAssignable · t v value)
  | some op => rule (checkCompound · op t v span)
  return t

def checkStepped (operand : Expr) (t : TypeId) (span : Span) : Check TypeId := do
  let r ← registry
  if !isLvalue operand || !r.isScalar t then type .notAssignable operand.span
  if r.isPointer t then rule (checkStep · t span)
  return t

def checkIndex (base subscript : TypeId) (index : Expr) (span : Span) : Check TypeId := do
  if !(← registry).isInteger subscript then type .subscriptNotInteger index.span
  rule (elementType · base span)

def addressType (operand : Expr) (t : TypeId) (span : Span) : Check TypeId := do
  if !isLvalue operand then type .addressOfRvalue span
  pointerTo t span

/-- The value of a block expression is that of the expression statement at its end. -/
def blockType (b : Block) (span : Span) : Check TypeId := do
  match b.trailing?.bind (·.ty) with
  | some t => decay t span
  | none => return Registry.void

/-- A size query becomes the number it asks for. -/
def folded (kind : ExprKind) (span : Span) (before : Option TypeId) (c : Check Nat) :
    Analysis (Expr × Verdict TypeId) := do
  match ← outcome c with
  | .ok n =>
    let t := (← get).registry.cLong false
    return (⟨.integer (Int64.ofNat n), span, some t⟩, .ok t)
  | .error e => return (⟨kind, span, before⟩, .error e)

/-- What a resolved member leaves in the tree. -/
def memberExpr (kind : Option MemberRef → ExprKind) (span : Span) (before : Option TypeId)
    (old : Option MemberRef) (c : Check MemberRef) : Analysis (Expr × Verdict TypeId) := do
  match ← outcome c with
  | .ok m => return (⟨kind (some m), span, some m.ty⟩, .ok m.ty)
  | .error e => return (⟨kind old, span, before⟩, .error e)

def checkReturn (t : Verdict TypeId) (value : Expr) : Check Unit := do
  let t ← t
  match (← get).returns with
  | some ret =>
    if (← registry).isVoid ret then type .valueFromVoid value.span
    rule (checkAssignable · ret t value)
  | none => pure ()

/-- A string may initialize an array of bytes that has room for all but its NUL. -/
def checkStringInit (element : TypeId) (length : Nat) (text : String) (span : Span) :
    Check Unit := do
  let r ← registry
  if r.sizeOf element != 1 || !r.isInteger element then type .arrayNeedsList span
  if length < text.utf8ByteSize then type .stringTooLong span

def checkConstantInit (isGlobal : Bool) (e : Expr) : Check Unit := do
  if isGlobal && e.constant?.isNone then Check.name .notConstant e.span

/-- An element past the end of what is initialized is an error at that element. -/
def checkExcess (cause : TypeCause) (items : List Initializer) (length : Nat) : Check Unit := do
  match items[length]? with
  | some extra => type cause extra.span
  | none => pure ()

/-- What a list initializes: every element of an array, the members of a struct, or one scalar. -/
inductive ListTarget where
  | elements (element : TypeId) (length : Nat)
  | members (types : List TypeId)
  | scalar

def listTarget (r : Registry) (t : TypeId) : ListTarget :=
  match r.ty t with
  | .array element length => .elements element length
  | .struct s => .members ((r.structType s).members.map (·.ty))
  | _ => .scalar

def queryType (q : SizeQuery) (ty : TypeExpr) : Check Nat := do
  let t ← resolve ty
  rule (checkQuery · q t ty.span)

def checkVariable (v : VarDecl) : Check TypeId := do
  let t ← resolveObject v.ty v.init
  if (← registry).isVoid t then type (.voidVariable v.name) v.span
  return t

def checkStructDecl (spec : StructSpec) : Check Unit := do
  if spec.members.isNone then Check.name (.forwardStruct (spec.name.getD "")) spec.span
  let _ ← resolveSpec 1 spec

def inLoopOr (cause : NameCause) (span : Span) : Check Unit := do
  if (← get).loopDepth = 0 then Check.name cause span

mutual

def expr : Expr → Analysis (Expr × Verdict TypeId)
  | ⟨kind, span, ty⟩ => exprKind span ty kind

/-- The type of an expression in value context. -/
def value : Expr → Analysis (Expr × Verdict TypeId)
  | ⟨kind, span, ty⟩ => do
    let (e, t) ← exprKind span ty kind
    return (e, ← outcome (do decay (← t) span))

def exprKind (span : Span) (ty : Option TypeId) : ExprKind → Analysis (Expr × Verdict TypeId)
  | .integer n => typed (.integer n) span ty (pure (integerType n))
  | .character b => typed (.character b) span ty (pure Registry.cInt)
  | .string text =>
    typed (.string text) span ty (arrayOf Registry.cChar (text.utf8ByteSize + 1) span)
  | .name name => typed (.name name) span ty (nameType name span)
  | .binary op left right => do
    let (left, l) ← value left
    let (right, r) ← andThen l right (value right)
    typed (.binary op left right) span ty (do
      let l ← l
      let r ← r
      rule (binaryType · op l r span))
  | .unary op operand => do
    let (operand, t) ← value operand
    typed (.unary op operand) span ty (do
      let t ← t
      rule (unaryType · op t operand.span span))
  | .assign op target source => do
    let (target, t) ← expr target
    let checked ← outcome (do checkTarget target (← t))
    let (source, v) ← andThen checked source (value source)
    typed (.assign op target source) span ty (do
      checked
      checkAssignment op (← t) (← v) source span)
  | .conditional cond yes no => do
    let (cond, c) ← condition cond
    let (yes, y) ← andThen c yes (value yes)
    let (no, n) ← andThen (both c y) no (value no)
    typed (.conditional cond yes no) span ty (do
      c
      let y ← y
      let n ← n
      rule (conditionalType · y n yes no span))
  | .call callee args => do
    let f ← outcome (do
      let (ret, sig) ← calledFunction callee
      checkArgumentCount sig args.length span
      return (ret, sig))
    match f with
    | .error e => return (⟨.call callee args, span, ty⟩, .error e)
    | .ok (ret, sig) =>
      let (args, a) ← arguments sig.params args
      typed (.call callee args) span ty (do
        a
        return ret)
  | .index array subscript => do
    let (array, a) ← expr array
    let (subscript, i) ← andThen a subscript (value subscript)
    typed (.index array subscript) span ty (do checkIndex (← a) (← i) subscript span)
  | .member object field old => do
    let (object, o) ← expr object
    memberExpr (.member object field) span ty old (do
      let o ← o
      rule (memberOf · o field span))
  | .pointerMember pointer field old => do
    let (pointer, p) ← value pointer
    memberExpr (.pointerMember pointer field) span ty old (do
      let p ← p
      rule (pointerMemberOf · p field span))
  | .cast target operand => do
    let t ← outcome (resolve target)
    let (operand, s) ← andThen t operand (value operand)
    typed (.cast target operand) span ty (do
      let t ← t
      let s ← s
      rule (checkCast · t s operand.span span))
  | .query q operand => do
    let (operand, t) ← expr operand
    folded (.query q operand) span ty (do
      let t ← t
      rule (checkQuery · q t operand.span))
  | .typeQuery q target => folded (.typeQuery q target) span ty (queryType q target)
  | .addressOf operand => do
    let (operand, t) ← expr operand
    typed (.addressOf operand) span ty (do addressType operand (← t) span)
  | .deref operand => do
    let (operand, t) ← value operand
    typed (.deref operand) span ty (do
      let t ← t
      rule (derefType · t span))
  | .step operand decrement yieldsOld => do
    let (operand, t) ← expr operand
    typed (.step operand decrement yieldsOld) span ty (do checkStepped operand (← t) span)
  | .comma items => do
    let (items, last) ← values Registry.void items
    typed (.comma items) span ty (do return ← last)
  | .block b => do
    let (b, t) ← inScope (do
      let (b, done) ← block false b
      return (b, ← outcome (do
        done
        blockType b span)))
    typed (.block b) span ty (do return ← t)

/-- An expression that decides a branch. -/
def condition : Expr → Analysis (Expr × Verdict Unit)
  | ⟨kind, span, ty⟩ => do
    let (e, t) ← exprKind span ty kind
    return (e, ← outcome (do
      let t ← decay (← t) span
      rule (checkCondition · t span)))

/-- The type of the last value; `last` is that of an empty list. -/
def values (last : TypeId) : List Expr → Analysis (List Expr × Verdict TypeId)
  | [] => return ([], .ok last)
  | e :: es => do
    let (e, t) ← value e
    match t with
    | .error err => return (e :: es, .error err)
    | .ok t =>
      let (es, last) ← values t es
      return (e :: es, last)

def arguments (params : List TypeId) : List Expr → Analysis (List Expr × Verdict Unit)
  | [] => return ([], .ok ())
  | e :: es => do
    let (e, t) ← value e
    let checked ← outcome (do checkArgument params.head? (← t) e)
    let (es, rest) ← andThen checked es (arguments params.tail es)
    return (e :: es, rest)

def block (recover : Bool) : Block → Analysis (Block × Verdict Unit)
  | ⟨items, span⟩ => do
    let (items, done) ← blockItems recover items
    return (⟨items, span⟩, done)

/-- With `recover`, failures are recorded and never end the list. -/
def blockItems (recover : Bool) : List BlockItem → Analysis (List BlockItem × Verdict Unit)
  | [] => return ([], .ok ())
  | i :: is => do
    let (i, done) ← blockItem i
    match done with
    | .ok () =>
      let (is, rest) ← blockItems recover is
      return (i :: is, rest)
    | .error e =>
      if recover then
        record e
        let (is, rest) ← blockItems recover is
        return (i :: is, rest)
      else return (i :: is, .error e)

def blockItem : BlockItem → Analysis (BlockItem × Verdict Unit)
  | .statement s => do
    let (s, done) ← stmt s
    return (.statement s, done)
  | .declaration d => do
    let (d, done) ← declaration d
    return (.declaration d, done)

def stmt : Stmt → Analysis (Stmt × Verdict Unit)
  | ⟨kind, span⟩ => do
    let (kind, done) ← stmtKind span kind
    return (⟨kind, span⟩, done)

def stmtKind (span : Span) : StmtKind → Analysis (StmtKind × Verdict Unit)
  | .expr e => do
    let (e, t) ← expr e
    return (.expr e, t.map fun _ => ())
  | .empty => return (.empty, .ok ())
  | .block b => do
    let (b, done) ← inScope (block true b)
    return (.block b, done)
  | .if_ cond yes no => do
    let (cond, c) ← condition cond
    let (yes, y) ← andThen c yes (stmt yes)
    let (no, n) ← andThen (both c y) no (stmt? no)
    return (.if_ cond yes no, both c (both y n))
  | .loop kind init cond update body => inScope do
    let (init, i) ← loopInit? init
    let (cond, c) ← andThen i cond (condition? cond)
    let before := both i c
    let (update, u) ← andThen before update (expr? update)
    let before := both before u
    let (body, b) ← andThen before body (inLoop (stmt body))
    return (.loop kind init cond update body, both before b)
  | .break_ => return (.break_, ← outcome (inLoopOr .breakOutsideLoop span))
  | .continue_ => return (.continue_, ← outcome (inLoopOr .continueOutsideLoop span))
  | .return_ e => do
    if (← get).returns.isNone then
      return (.return_ e, .error (.name .returnOutsideFunction span))
    let (e, done) ← returned? e
    return (.return_ e, done)

def stmt? : Option Stmt → Analysis (Option Stmt × Verdict Unit)
  | none => return (none, .ok ())
  | some s => do
    let (s, done) ← stmt s
    return (some s, done)

def expr? : Option Expr → Analysis (Option Expr × Verdict Unit)
  | none => return (none, .ok ())
  | some e => do
    let (e, t) ← expr e
    return (some e, t.map fun _ => ())

def condition? : Option Expr → Analysis (Option Expr × Verdict Unit)
  | none => return (none, .ok ())
  | some e => do
    let (e, done) ← condition e
    return (some e, done)

def returned? : Option Expr → Analysis (Option Expr × Verdict Unit)
  | none => return (none, .ok ())
  | some e => do
    let (e, t) ← value e
    return (some e, ← outcome (checkReturn t e))

def loopInit? : Option LoopInit → Analysis (Option LoopInit × Verdict Unit)
  | none => return (none, .ok ())
  | some i => do
    let (i, done) ← loopInit i
    return (some i, done)

def loopInit : LoopInit → Analysis (LoopInit × Verdict Unit)
  | .expr e => do
    let (e, t) ← expr e
    return (.expr e, t.map fun _ => ())
  | .declaration d => do
    let (d, done) ← declaration d
    return (.declaration d, done)

def declaration : Declaration → Analysis (Declaration × Verdict Unit)
  | ⟨kind, span⟩ => do
    let (kind, done) ← declKind kind
    return (⟨kind, span⟩, done)

def declKind : DeclKind → Analysis (DeclKind × Verdict Unit)
  | .vars vars => do
    let (vars, done) ← varDecls vars
    return (.vars vars, done)
  | .struct spec => return (.struct spec, ← outcome (checkStructDecl spec))

def varDecls : List VarDecl → Analysis (List VarDecl × Verdict Unit)
  | [] => return ([], .ok ())
  | v :: vs => do
    let (v, done) ← varDecl v
    let (vs, rest) ← andThen done vs (varDecls vs)
    return (v :: vs, rest)

/-- A variable is in scope in its own initializer. -/
def varDecl : VarDecl → Analysis (VarDecl × Verdict Unit)
  | ⟨name, ty, init, span, resolved⟩ => do
    match ← outcome (checkVariable ⟨name, ty, init, span, resolved⟩) with
    | .error e => return (⟨name, ty, init, span, resolved⟩, .error e)
    | .ok t =>
      let isGlobal := (← get).scope.isGlobal
      let defined ← outcome (define ⟨name, .variable isGlobal, t, span⟩)
      let (init, done) ← andThen defined init (initializer? t isGlobal init)
      return (⟨name, ty, init, span, some t⟩, done)

def initializer? (t : TypeId) (isGlobal : Bool) :
    Option Initializer → Analysis (Option Initializer × Verdict Unit)
  | none => return (none, .ok ())
  | some i => do
    let (i, done) ← initializer t isGlobal i
    return (some i, done)

def initializer (t : TypeId) (isGlobal : Bool) :
    Initializer → Analysis (Initializer × Verdict Unit)
  | .expr e => do
    let (e, done) ← initialValue t isGlobal e
    return (.expr e, done)
  | .list items span => do
    match listTarget (← get).registry t with
    | .elements element length =>
      let few ← outcome (checkExcess .excessInArray items length)
      let (items, done) ← andThen few items (elementInits element isGlobal items)
      return (.list items span, done)
    | .members types =>
      let few ← outcome (checkExcess .excessInStruct items types.length)
      let (items, done) ← andThen few items (memberInits types isGlobal items)
      return (.list items span, done)
    | .scalar =>
      let (items, done) ← scalarInit t isGlobal span items
      return (.list items span, done)

/-- An initializer that is one expression. -/
def initialValue (t : TypeId) (isGlobal : Bool) : Expr → Analysis (Expr × Verdict Unit)
  | ⟨kind, span, ty⟩ => do
    match (← get).registry.ty t, kind with
    | .array element length, .string text =>
      match ← outcome (checkStringInit element length text span) with
      | .error e => return (⟨kind, span, ty⟩, .error e)
      | .ok () =>
        let (e, t) ← exprKind span ty kind
        return (e, t.map fun _ => ())
    | .array .., _ => return (⟨kind, span, ty⟩, .error (.type .arrayNeedsList span))
    | _, _ =>
      let (e, v) ← exprKind span ty kind
      return (e, ← outcome (do
        let v ← decay (← v) span
        rule (checkAssignable · t v e)
        checkConstantInit isGlobal e))

def elementInits (element : TypeId) (isGlobal : Bool) :
    List Initializer → Analysis (List Initializer × Verdict Unit)
  | [] => return ([], .ok ())
  | i :: is => do
    let (i, done) ← initializer element isGlobal i
    let (is, rest) ← andThen done is (elementInits element isGlobal is)
    return (i :: is, rest)

/-- Members without an initializer are left out. -/
def memberInits (types : List TypeId) (isGlobal : Bool) :
    List Initializer → Analysis (List Initializer × Verdict Unit)
  | [] => return ([], .ok ())
  | i :: is => do
    match types with
    | [] => return (i :: is, .ok ())
    | t :: ts =>
      let (i, done) ← initializer t isGlobal i
      let (is, rest) ← andThen done is (memberInits ts isGlobal is)
      return (i :: is, rest)

def scalarInit (t : TypeId) (isGlobal : Bool) (span : Span) :
    List Initializer → Analysis (List Initializer × Verdict Unit)
  | [.expr e] => do
    let (e, done) ← initialValue t isGlobal e
    return ([.expr e], done)
  | items => return (items, .error (.type .scalarList span))

end

/-! Functions and whole units. -/

def checkResult (returns : TypeExpr) : Check TypeId := do
  let t ← resolve returns
  let r ← registry
  if r.isStruct t then Check.name .structReturn returns.span
  if r.isArray t then type .arrayReturn returns.span
  return t

def checkParam (hasBody : Bool) (p : ParamDecl) : Check TypeId := do
  let t ← resolveParam p.ty
  if (← registry).isVoid t then type .voidParameter p.span
  if hasBody && p.name.isNone then Check.name .unnamedParameter p.span
  return t

/-- The parameters up to the first that fails get their types. -/
def params (hasBody : Bool) : List ParamDecl → Analysis (List ParamDecl × Verdict (List TypeId))
  | [] => return ([], .ok [])
  | p :: ps => do
    match ← outcome (checkParam hasBody p) with
    | .error e => return (p :: ps, .error e)
    | .ok t =>
      let (ps, ts) ← params hasBody ps
      return ({ p with resolved := some t } :: ps, ts.map (t :: ·))

/-- The signature that a declaration leaves, after earlier ones of the same name. -/
def mergeSignature (name : String) (ret : TypeId) (sig : Signature) (span : Span) :
    Option Symbol → Verdict Signature
  | none => .ok sig
  | some ⟨_, .function previous, previousRet, _⟩ =>
    if previous.builtin then .error (.name (.builtinRedefined name) span)
    else if previousRet != ret || !previous.compatible sig then
      .error (.type (.conflicting name) span)
    else if previous.defined && sig.defined then .error (.name (.functionRedefined name) span)
    else .ok { sig with defined := previous.defined || sig.defined }
  | some _ => .error (.name (.otherKind name) span)

def declareFunction (name : String) (ret : TypeId) (sig : Signature) (span : Span) :
    Check Unit := do
  let sig ← mergeSignature name ret sig span ((← get).scope.local? name)
  modify fun s => { s with scope := s.scope.replace ⟨name, .function sig, ret, span⟩ }

def defineParams : List ParamDecl → Check Unit
  | [] => pure ()
  | p :: ps => do
    match p.name, p.resolved with
    | some name, some t => define ⟨name, .parameter, t, p.span⟩
    | _, _ => pure ()
    defineParams ps

def functionBody (ret : TypeId) (ps : List ParamDecl) (body : Block) :
    Analysis (Block × Verdict Unit) := do
  modify ({ · with returns := some ret })
  let (body, done) ← inScope (do
    let defined ← outcome (defineParams ps)
    andThen defined body (block true body))
  modify ({ · with returns := none })
  return (body, done)

def function (f : FuncDecl) : Analysis (FuncDecl × Verdict Unit) := do
  match ← outcome (checkResult f.returns) with
  | .error e => return (f, .error e)
  | .ok ret =>
    let f := { f with resolvedReturn := some ret }
    let (ps, ts) ← params f.body.isSome f.params
    let f := { f with params := ps }
    let declared ← outcome (do
      declareFunction f.name ret ⟨← ts, f.variadic, f.isDefinition, false⟩ f.span)
    match declared, f.body with
    | .error e, _ => return (f, .error e)
    | .ok (), none => return (f, .ok ())
    | .ok (), some body =>
      let (body, done) ← functionBody ret ps body
      return ({ f with body := some body }, done)

def topDecl : TopDecl → Analysis (TopDecl × Verdict Unit)
  | .declaration d => do
    let (d, done) ← declaration d
    return (.declaration d, done)
  | .function f => do
    let (f, done) ← function f
    return (.function f, done)

def topDecls : List TopDecl → Analysis (List TopDecl)
  | [] => return []
  | d :: ds => do
    let (d, done) ← topDecl d
    match done with
    | .ok () => pure ()
    | .error e => record e
    return d :: (← topDecls ds)

/-- A unit with its annotations, its types, and everything that is wrong with it. -/
structure Analyzed where
  tree : CompilationUnit
  registry : Registry
  errors : List TypingError

def analyze (config : Layout.Config) (u : CompilationUnit) : Analyzed :=
  let (decls, s) := (topDecls u.decls).run (State.initial config)
  ⟨⟨decls⟩, s.registry, s.errors.toList⟩

def Analyzed.failure? (a : Analyzed) : Option CompileError :=
  match a.errors with
  | [] => none
  | es => some (.ofList (es.map TypingError.toCompileError))

end MiniC.Typing
