import MiniC.Proofs.Typing.Spared
import MiniC.Proofs.Typing.TwinTrees
/-!
The declarations of a unit in two runs. Main statements: from linked states declarations and functions
end in linked states, with the same failure if any, and so does a list of them. Two runs that part in
the body of one function are linked behind it, and what comes then has the same failures.
-/
namespace MiniC.Typing

open Registry (Akin At Fork Grows Kin Pair)
open Syntax Check

variable {W : Rift} {p q : Pair} {t t' u u' : TypeId}

/-! Signatures. -/

section Signatures

variable {F : Fork} (hA : Akin F p)
include hA

theorem kin_beq (h : Kin F p t t') (k : Kin F p u u') : (t == u) = (t' == u') := by
  rw [Bool.eq_iff_iff, beq_iff_eq, beq_iff_eq]
  exact h.eq_iff hA k

theorem kins_beq {ts ts' us us' : List TypeId} (h : List.Forall₂ (Kin F p) ts ts')
    (k : List.Forall₂ (Kin F p) us us') : (ts == us) = (ts' == us') := by
  induction h generalizing us us' with
  | nil => cases k <;> rfl
  | cons ht _ ih =>
    cases k with
    | nil => rfl
    | cons hu hus => rw [List.cons_beq_cons, List.cons_beq_cons, kin_beq hA ht hu, ih hus]

theorem KinSig.compatible_eq {f f' g g' : Signature} (h : KinSig F p f f') (k : KinSig F p g g') :
    f.compatible g = f'.compatible g' := by
  rw [Signature.compatible, Signature.compatible, kins_beq hA h.params k.params, h.variadic, k.variadic]

theorem both_mergeSignature (name : String) (ht : Kin F p t t') {g g' : Signature} (hg : KinSig F p g g')
    (span : Span) {x x' : Option Symbol} (hx : Option.Rel (KinSymbol F p) x x') :
    Both (KinSig F p) (mergeSignature name t g span x) (mergeSignature name t' g' span x') := by
  rcases hx with @⟨⟨_, kind, u, _⟩, ⟨_, kind', u', _⟩, hx⟩ | _
  · rcases hx.kind with isGlobal | _ | @⟨f, f', hf⟩
    · exact .error _
    · exact .error _
    · rw [mergeSignature, mergeSignature, hf.builtin, bne, bne, kin_beq hA hx.ty ht,
        hf.compatible_eq hA hg, hf.defined, hg.defined]
      split
      · exact .error _
      · split
        · exact .error _
        · split
          · exact .error _
          · exact .ok ⟨hg.params, hg.variadic, rfl, hg.builtin⟩
  · exact .ok hg

end Signatures

/-! Functions. -/

/-- Parameters of kin types. -/
structure KinParam (F : Fork) (p : Pair) (x x' : ParamDecl) : Prop where
  name : x.name = x'.name
  span : x.span = x'.span
  resolved : Option.Rel (Kin F p) x.resolved x'.resolved

theorem KinParam.mono {F : Fork} {x x' : ParamDecl} (h : KinParam F p x x') (hle : p ≤ q) :
    KinParam F q x x' :=
  ⟨h.name, h.span, rel_mono h.resolved fun _ _ ht => ht.mono hle⟩

instance (returns : TypeExpr) : Enlarges (outcome (checkResult returns)) := by
  unfold checkResult
  infer_instance

instance (hasBody : Bool) (x : ParamDecl) : Enlarges (outcome (checkParam hasBody x)) := by
  unfold checkParam
  infer_instance

instance (hasBody : Bool) (ps : List ParamDecl) : Enlarges (params hasBody ps) :=
  (walks_params [] hasBody ps).enlarges

instance (ret : TypeId) (ps : List ParamDecl) (body : Block) : Enlarges (functionBody ret ps body) :=
  (walks_functionBody [] ret ps body).enlarges

theorem twin_checkResult (returns : TypeExpr) (h : W.Clear returns.specs) :
    TwinCheck W p (checkResult returns) (checkResult returns) fun q => Kin W.fork q := by
  refine TwinCheck.bind (twin_resolveAt p 1 returns h) fun q _ _ t t' ht =>
    .registry_bind fun q₁ hle _ => ?_
  rw [(ht.mono hle).isStruct, (ht.mono hle).isArray]
  exact .guard Iff.rfl (.throw _) (.guard Iff.rfl (.throw _)
    (.pure fun _ hle' _ => ht.mono (hle.trans hle')))

theorem twin_checkParam (hasBody : Bool) (x : ParamDecl) (h : W.Clear x.ty.specs) :
    TwinCheck W p (checkParam hasBody x) (checkParam hasBody x) fun q => Kin W.fork q := by
  refine TwinCheck.bind (twin_resolveParam x.ty h) fun q _ _ t t' ht => .registry_bind fun q₁ hle _ => ?_
  rw [(ht.mono hle).isVoid]
  exact .guard Iff.rfl (.throw _) (.guard Iff.rfl (.throw _)
    (.pure fun _ hle' _ => ht.mono (hle.trans hle')))

theorem twin_params (p : Pair) (hasBody : Bool) : ∀ ps, W.Clear (scriptOfParams ps).specs →
    Twin W p (params hasBody ps) (params hasBody ps) (Agree fun q ps ts ps' ts' =>
      List.Forall₂ (KinParam W.fork q) ps ps' ∧ List.Forall₂ (Kin W.fork q) ts ts')
  | [], _ => .pure fun _ _ _ => .ok ⟨.nil, .nil⟩
  | x :: xs, h => by
    rw [params]
    rw [scriptOfParams, Script.specs_written] at h
    obtain ⟨hx, hxs⟩ := clear_append.mp h
    refine Twin.check (twin_checkParam hasBody x hx) (fun q _ _ t t' ht => ?_)
      fun _ _ => .still (fun _ => ⟨_, rfl⟩) fun _ => ⟨_, rfl⟩
    refine Twin.bind (twin_params q hasBody xs hxs) (fun q₁ hle _ ps ts ps' ts' h => ?_)
      fun _ _ _ e => .pure fun _ _ _ => .error e
    refine .pure fun q₂ hle' _ => .ok ⟨.cons ⟨rfl, rfl, .some (ht.mono (hle.trans hle'))⟩ ?_, ?_⟩
    · exact h.1.imp fun _ _ hx => hx.mono hle'
    · exact .cons (ht.mono (hle.trans hle')) (h.2.imp fun _ _ ht => ht.mono hle')

theorem twin_declareFunction (name : String) (ht : Kin W.fork p t t') {g g' : Signature}
    (hg : KinSig W.fork p g g') (span : Span) :
    TwinCheck W p (declareFunction name t g span) (declareFunction name t' g' span)
      fun _ _ _ => True := by
  refine .get_bind fun s s' hlinked hle => ?_
  have hmerge := both_mergeSignature hlinked.registry name (ht.mono hle) (hg.mono hle) span
    (hlinked.scope.inner.symbol? name)
  revert hmerge
  unfold Scope.local?
  generalize mergeSignature name t g span (s.scope.inner.symbol? name) = v
  generalize mergeSignature name t' g' span (s'.scope.inner.symbol? name) = v'
  rintro (@⟨f, f', hf⟩ | e)
  · refine .given fun s₁ s₁' hlinked₁ hle₁ => ?_
    have hsymbol : KinSymbol W.fork (s₁.with s₁') ⟨name, .function f, t, span⟩
        ⟨name, .function f', t', span⟩ :=
      ⟨rfl, .function (hf.mono hle₁), ht.mono (hle.trans hle₁), rfl⟩
    exact .inl ⟨{ hlinked₁ with scope := hlinked₁.scope.replace hsymbol }, le_rfl, .ok trivial⟩
  · exact .throw e

theorem twin_defineParams (p : Pair) : ∀ {ps ps' : List ParamDecl},
    List.Forall₂ (KinParam W.fork p) ps ps' →
    TwinCheck W p (defineParams ps) (defineParams ps') fun _ _ _ => True
  | [], _, .nil => .pure fun _ _ _ => trivial
  | x :: xs, x' :: xs', .cons hx hxs => by
    obtain ⟨name, ty, span, resolved⟩ := x
    obtain ⟨name', ty', span', resolved'⟩ := x'
    obtain ⟨hname, hspan, hresolved⟩ := hx
    obtain rfl : name = name' := hname
    obtain rfl : span = span' := hspan
    replace hresolved : Option.Rel (Kin W.fork p) resolved resolved' := hresolved
    unfold defineParams
    cases name with
    | none => exact twin_defineParams p hxs
    | some name =>
      cases hresolved with
      | none => exact twin_defineParams p hxs
      | @some t t' ht =>
        have hsymbol : KinSymbol W.fork p ⟨name, .parameter, t, span⟩ ⟨name, .parameter, t', span⟩ :=
          ⟨rfl, .parameter, ht, rfl⟩
        exact (TwinCheck.define hsymbol).bind fun q hle _ _ _ _ =>
          twin_defineParams q (hxs.imp fun _ _ hx => hx.mono hle)

/-- A function body, whatever its result is to be. -/
theorem Twin.inFunction {α : Type} {act act' : Analysis α} {R : Pair → α → α → Prop}
    (ht : Kin W.fork p t t') (h : Twin W p act act' R) :
    Twin W p
      (do
        modify ({ · with returns := some t })
        let x ← act
        modify ({ · with returns := none })
        return x)
      (do
        modify ({ · with returns := some t' })
        let x ← act'
        modify ({ · with returns := none })
        return x) R := fun s s' hlinked hle => by
  rcases h { s with returns := some t } { s' with returns := some t' }
    { hlinked with returns := .some (ht.mono hle) } hle with hm | hfull
  · exact .inl ⟨{ hm.linked with returns := .none }, hm.grows, hm.related⟩
  · exact .inr hfull

theorem twin_functionBody (ht : Kin W.fork p t t') {ps ps' : List ParamDecl}
    (hps : List.Forall₂ (KinParam W.fork p) ps ps') (body : Block) (h : W.Clear body.script.specs) :
    Twin W p (functionBody t ps body) (functionBody t' ps' body) (Agree Any) :=
  .inFunction ht (.inScope (Twin.check (twin_defineParams p hps)
    (fun q _ _ _ _ _ => (twin_block q true body h).mono fun _ _ _ _ _ hr => by
      cases hr with
      | ok => exact .ok trivial
      | error e => exact .error e)
    fun _ _ => .still (fun _ => ⟨_, rfl⟩) fun _ => ⟨_, rfl⟩))

/-- A function up to its body: it is declared, and the result type of the body is known. -/
def opening (f : FuncDecl) : Analysis (FuncDecl × Verdict TypeId) := do
  match ← outcome (checkResult f.returns) with
  | .error e => return (f, .error e)
  | .ok ret =>
    let (ps, ts) ← params f.body.isSome f.params
    let declared ← outcome (do
      declareFunction f.name ret ⟨← ts, f.variadic, f.isDefinition, false⟩ f.span)
    return ({ f with params := ps, resolvedReturn := some ret }, declared.map fun _ => ret)

/-- The body of a function that was declared. -/
def closing (f : FuncDecl) (ret : Verdict TypeId) : Analysis (FuncDecl × Verdict Unit) := do
  match ret, f.body with
  | .error e, _ => return (f, .error e)
  | .ok _, none => return (f, .ok ())
  | .ok ret, some body =>
    let (body, done) ← functionBody ret f.params body
    return ({ f with body := some body }, done)

theorem function_eq (f : FuncDecl) : function f = opening f >>= fun x => closing x.1 x.2 := by
  obtain ⟨name, returns, ps, variadic, body, span, resolved⟩ := f
  unfold function opening
  rw [bind_assoc]
  refine bind_congr fun v => ?_
  cases v with
  | error e => rfl
  | ok ret =>
    simp only [bind_assoc]
    refine bind_congr fun x => bind_congr fun v => ?_
    cases v <;> cases body <;> rfl

/-- A function whose parameters and result are known. -/
structure KinFunc (F : Fork) (q : Pair) (f : FuncDecl) (t : TypeId) (f' : FuncDecl) (t' : TypeId) :
    Prop where
  body : f.body = f'.body
  params : List.Forall₂ (KinParam F q) f.params f'.params
  returns : Kin F q t t'

instance (f : FuncDecl) : Enlarges (opening f) := by
  unfold opening
  exact .check (fun _ => inferInstance) fun _ => inferInstance

instance (f : FuncDecl) (ret : Verdict TypeId) : Enlarges (closing f ret) := by
  unfold closing
  split <;> infer_instance

theorem twin_opening (f : FuncDecl)
    (h : W.Clear (f.returns.specs ++ (scriptOfParams f.params).specs)) :
    Twin W p (opening f) (opening f)
      (Agree fun q g t g' t' => KinFunc W.fork q g t g' t' ∧ g.body = f.body) := by
  obtain ⟨hreturns, hparams⟩ := clear_append.mp h
  unfold opening
  refine Twin.check (twin_checkResult f.returns hreturns) (fun q hq _ t t' ht => ?_)
    fun _ e => .pure fun _ _ _ => .error e
  refine (twin_params q f.body.isSome f.params hparams).bind (fun q₁ hle _ ps ts ps' ts' h => ?_)
    fun q₁ ps ps' e => .still (fun _ => ⟨_, rfl⟩) fun _ => ⟨_, rfl⟩
  have hsig : KinSig W.fork q₁ ⟨ts, f.variadic, f.isDefinition, false⟩
      ⟨ts', f.variadic, f.isDefinition, false⟩ := ⟨h.2, rfl, rfl, rfl⟩
  refine Twin.check (.given (twin_declareFunction f.name (ht.mono hle) hsig f.span))
    (fun q₂ hle' _ _ _ _ => .pure fun q₃ hle'' _ => .ok ⟨⟨rfl, ?_, ?_⟩, rfl⟩)
    fun _ e => .pure fun _ _ _ => .error e
  · exact h.1.imp fun _ _ hx => hx.mono (hle'.trans hle'')
  · exact ht.mono (hle.trans (hle'.trans hle''))

theorem twin_closing {f f' : FuncDecl} (h : KinFunc W.fork p f t f' t')
    (hclear : ∀ b, f.body = some b → W.Clear b.script.specs) :
    Twin W p (closing f (.ok t)) (closing f' (.ok t')) (Agree Any) := by
  obtain ⟨name, returns, ps, variadic, body, span, resolved⟩ := f
  obtain ⟨name', returns', ps', variadic', body', span', resolved'⟩ := f'
  obtain rfl : body = body' := h.body
  cases body with
  | none => exact .pure fun _ _ _ => .ok trivial
  | some b =>
    exact (twin_functionBody h.returns h.params b (hclear b rfl)).bind
      (fun _ _ _ _ _ _ _ _ => .pure fun _ _ _ => .ok trivial)
      fun _ _ _ e => .pure fun _ _ _ => .error e

theorem twin_function (p : Pair) (f : FuncDecl) (h : W.Clear f.script.specs) :
    Twin W p (function f) (function f) (Agree Any) := by
  rw [FuncDecl.script, Script.specs_written, Script.specs_append, ← List.append_assoc] at h
  obtain ⟨hhead, hbody⟩ := clear_append.mp h
  rw [function_eq]
  refine (twin_opening f hhead).bind (fun q _ _ g t g' t' hg => twin_closing hg.1 fun b hb => ?_)
    fun q g g' e => .still (fun _ => ⟨_, rfl⟩) fun _ => ⟨_, rfl⟩
  rw [← hg.2, hb, Option.elim_some, Script.specs_scope] at hbody
  exact (clear_append.mp hbody).1

theorem twin_topDecl (p : Pair) : ∀ d, W.Clear d.script.specs →
    Twin W p (topDecl d) (topDecl d) (Agree Any)
  | .declaration d, h => (twin_declaration p d h).bind
      (fun _ _ _ _ _ _ _ _ => .pure fun _ _ _ => .ok trivial) fun _ _ _ e => .pure fun _ _ _ => .error e
  | .function f, h => (twin_function p f h).bind
      (fun _ _ _ _ _ _ _ _ => .pure fun _ _ _ => .ok trivial) fun _ _ _ e => .pure fun _ _ _ => .error e

instance (ds : List TopDecl) : Enlarges (topDecls ds) :=
  ⟨fun s => (walks_topDecls [] ds).enlarges.within s⟩

instance (d : TopDecl) : Enlarges (topDecl d) := (walks_topDecl [] d).enlarges

theorem twin_topDecls (p : Pair) : ∀ ds, W.Clear (scriptOfDecls ds).specs →
    Twin W p (topDecls ds) (topDecls ds) fun _ _ _ => True
  | [], _ => .pure fun _ _ _ => trivial
  | d :: ds, h => by
    rw [scriptOfDecls, Script.specs_append] at h
    obtain ⟨hd, hds⟩ := clear_append.mp h
    have hrest (q : Pair) (d d' : TopDecl) :
        Twin W q (topDecls ds >>= fun ds => pure (d :: ds)) (topDecls ds >>= fun ds => pure (d' :: ds))
          fun _ _ _ => True :=
      (twin_topDecls q ds hds).chain (fun _ => inferInstance) (fun _ => inferInstance)
        fun _ _ _ _ _ _ => .pure fun _ _ _ => trivial
    rw [topDecls]
    exact (twin_topDecl p d hd).bind (fun q _ _ d _ d' _ _ => hrest q d d')
      fun q d d' e => .recorded e (hrest q d d')

theorem topDecls_append (ds ds' : List TopDecl) (s : State) :
    (topDecls (ds ++ ds') s).2 = (topDecls ds' (topDecls ds s).2).2 := by
  induction ds generalizing s with
  | nil => rfl
  | cons d ds ih =>
    obtain ⟨⟨⟨d', v⟩, s₁⟩, hrun⟩ : ∃ y, topDecl d s = y := ⟨_, rfl⟩
    rw [List.cons_append, topDecls, topDecls, run_bind hrun, run_bind hrun]
    cases v with
    | ok => exact ih s₁
    | error e => exact ih { s₁ with errors := s₁.errors.push e }

/-! Two runs that part. -/

/-- Nothing is apart. -/
def Rift.whole : Rift := ⟨⟨0, 0, 0, le_rfl, le_rfl⟩, fun _ => False, [], []⟩

theorem clear_whole (L : List StructSpec) : Rift.whole.Clear L := fun _ _ => id

theorem linked_initial (config : Layout.Config) :
    Linked Rift.whole (State.initial config) (State.initial config) := by
  have hakin : Akin Rift.whole.fork ((State.initial config).with (State.initial config)) :=
    { left := Registry.consistent_initial config
      right := Registry.consistent_initial config
      config := rfl
      leftmost := Nat.zero_le _
      rightmost := Nat.zero_le _
      together := rfl
      structs := fun _ _ _ hlt => absurd hlt (Nat.not_lt_zero _) }
  have hlong := kin_cLong hakin true
  have hparams := List.Forall₂.cons hlong (.cons hlong .nil)
  refine ⟨hakin, ⟨⟨.cons ⟨rfl, .function ⟨hparams, rfl, rfl, rfl⟩, kin_cInt hakin, rfl⟩ .nil, .nil⟩, .nil⟩,
    fun id _ => ?_, ⟨[], rfl, rfl⟩, .none, rfl⟩
  show Option.Rel _ (∅ : Table Nat TypeId)[id]? (∅ : Table Nat TypeId)[id]?
  rw [Table.getElem?_empty]
  exact .none

/-- A state is behind another if it has come from there without changing what the scopes hold. -/
structure Behind (L : List StructSpec) (s s' : State) : Prop where
  consistent : s'.registry.Consistent
  grows : Grows s.registry s'.registry
  spared : Spared L s s'
  scope : s'.scope = s.scope
  returns : s'.returns = none

variable {s s₁ s₂ : State} {L L' : List StructSpec}

/-- The two runs part where the structs do that they have in common. -/
def rift (L L' : List StructSpec) (s s₁ s₂ : State) (h₁ : Grows s.registry s₁.registry)
    (h₂ : Grows s.registry s₂.registry) : Rift where
  fork := ⟨s.registry.structs.size, s₁.registry.structs.size, s₂.registry.structs.size,
    h₁.structs_size_le, h₂.structs_size_le⟩
  hidden id := ∃ spec ∈ L ++ L', spec.id = id
  before := s₁.errors.toList
  before' := s₂.errors.toList

theorem kin_rift (h : Linked Rift.whole s s) (h₁ : Grows s.registry s₁.registry)
    (h₂ : Grows s.registry s₂.registry) (ht : Kin Rift.whole.fork (s.with s) t t') :
    Kin (rift L L' s s₁ s₂ h₁ h₂).fork (s₁.with s₂) t t' := by
  induction ht with
  | void k k' => exact .void (k.mono h₁) (k'.mono h₂)
  | int k k' => exact .int (k.mono h₁) (k'.mono h₂)
  | pointer k k' _ ih => exact .pointer (k.mono h₁) (k'.mono h₂) ih
  | array k k' _ ih => exact .array (k.mono h₁) (k'.mono h₂) ih
  | @struct t t' i i' k k' hi =>
    have hbuilt := ((h.registry.left.entry _ k.1).built : s.registry.Built _)
    replace hbuilt : s.registry.Built (.struct i) := k.2 ▸ hbuilt
    refine .struct (k.mono h₁) (k'.mono h₂) (.inl ⟨?_, hbuilt.1⟩)
    obtain ⟨i⟩ := i
    obtain ⟨i'⟩ := i'
    rcases hi with ⟨heq, -⟩ | ⟨-, -, heq⟩
    · exact heq
    · exact congrArg StructId.mk heq

theorem linked_rift (h : Linked Rift.whole s s) (h₁ : Behind L s s₁) (h₂ : Behind L' s s₂) :
    Linked (rift L L' s s₁ s₂ h₁.grows h₂.grows) s₁ s₂ where
  registry :=
    { left := h₁.consistent
      right := h₂.consistent
      config := by
        show s₁.registry.config = s₂.registry.config
        rw [h₁.grows.config, h₂.grows.config]
      leftmost := le_rfl
      rightmost := le_rfl
      together := Nat.add_comm _ _
      structs := fun i i' hi hlt => by
        obtain ⟨rfl, hold⟩ : i = i' ∧ i.index < s.registry.structs.size := by
          rcases hi with hi | ⟨hle, -⟩
          · exact hi
          · exact absurd hle (Nat.not_le_of_lt hlt)
        have hstruct := h.registry.structs i i (.inr ⟨Nat.zero_le _, Nat.zero_le _, rfl⟩) hold
        show Registry.KinStruct _ _ (s₁.registry.structType i) (s₂.registry.structType i)
        rw [h₁.grows.structType_eq hold, h₂.grows.structType_eq hold]
        exact ⟨rfl, hstruct.members.imp fun _ _ hm =>
          ⟨hm.name, kin_rift h h₁.grows h₂.grows hm.ty, hm.offset, hm.span⟩, rfl, rfl, rfl⟩ }
  scope := by
    rw [h₁.scope, h₂.scope]
    exact h.scope.imp fun _ _ ht => kin_rift h h₁.grows h₂.grows ht
  specs id hid := by
    rw [h₁.spared.specs id fun spec hspec heq => hid ⟨spec, List.mem_append_left _ hspec, heq⟩,
      h₂.spared.specs id fun spec hspec heq => hid ⟨spec, List.mem_append_right _ hspec, heq⟩]
    exact rel_mono (h.specs id fun hfalse => hfalse) fun _ _ ht => kin_rift h h₁.grows h₂.grows ht
  errors := ⟨[], (List.append_nil _).symm, (List.append_nil _).symm⟩
  returns := by
    rw [h₁.returns, h₂.returns]
    exact .none
  loops := h₁.spared.loops.trans h₂.spared.loops.symm

/-- The failure of a declaration is recorded. -/
def noting (v : Verdict Unit) (s : State) : State :=
  match v with
  | .ok () => s
  | .error e => { s with errors := s.errors.push e }

theorem topDecls_function (f : FuncDecl) (s : State) :
    (topDecls [.function f] s).2 =
      let y := opening f s
      let z := closing y.1.1 y.1.2 y.2
      noting z.1.2 z.2 := by
  obtain ⟨⟨⟨g, v⟩, s₀⟩, hopen⟩ : ∃ y, opening f s = y := ⟨_, rfl⟩
  obtain ⟨⟨⟨g', v'⟩, s₁⟩, hclose⟩ : ∃ z, closing g v s₀ = z := ⟨_, rfl⟩
  have hrun : topDecl (.function f) s = ((.function g', v'), s₁) := by
    rw [topDecl, function_eq, bind_assoc, run_bind hopen, run_bind hclose]
    rfl
  rw [topDecls, run_bind hrun, hopen]
  simp only [hclose]
  cases v' <;> rfl

/-- The head of a function is analyzed alike, whatever its body is. -/
theorem opening_body {f g : FuncDecl} {b : Block} {v : Verdict TypeId} (hbody : f.body = some b)
    (b' : Block) (h : opening f s = ((g, v), s₁)) :
    g.body = some b ∧ opening { f with body := some b' } s = (({ g with body := some b' }, v), s₁) := by
  obtain ⟨name, returns, ps, variadic, body, span, resolved⟩ := f
  obtain rfl : body = some b := hbody
  obtain ⟨⟨v₁, s₂⟩, hresult⟩ : ∃ y, outcome (checkResult returns) s = y := ⟨_, rfl⟩
  unfold opening at h ⊢
  rw [run_bind hresult] at h ⊢
  cases v₁ with
  | error e =>
    cases h
    exact ⟨rfl, rfl⟩
  | ok ret =>
    obtain ⟨⟨⟨ps', ts⟩, s₃⟩, hparams⟩ : ∃ y, params true ps s₂ = y := ⟨_, rfl⟩
    simp only [Option.isSome_some, run_bind hparams] at h ⊢
    obtain ⟨⟨v₂, s₄⟩, hdeclared⟩ : ∃ y, outcome (do
        declareFunction name ret ⟨← ts, variadic, true, false⟩ span) s₃ = y := ⟨_, rfl⟩
    simp only [FuncDecl.isDefinition, Option.isSome_some, run_bind hdeclared] at h ⊢
    cases h
    exact ⟨rfl, rfl⟩

theorem behind_closing {f : FuncDecl} {t : TypeId} {b : Block} (hs : Linked Rift.whole s s)
    (hbody : f.body = some b) (h : KinFunc Rift.whole.fork (s.with s) f t f t) :
    Full (closing f (.ok t) s).2 ∨ Behind b.script.specs s (closing f (.ok t) s).2 := by
  obtain ⟨⟨⟨b₁, v⟩, s₁⟩, hrun⟩ : ∃ y, functionBody t f.params b s = y := ⟨_, rfl⟩
  have hclosing : (closing f (.ok t) s).2 = s₁ := by
    unfold closing
    rw [hbody]
    simp only [run_bind hrun]
    rfl
  have htwin := twin_functionBody h.returns h.params b (clear_whole _) s s hs le_rfl
  have hspared := spared_functionBody t f.params b s
  rw [hrun] at htwin hspared
  rw [hclosing]
  rcases htwin with hm | hfull
  · exact .inr ⟨hm.linked.registry.left, hm.grows.1, hspared.1, hspared.2.1, hspared.2.2⟩
  · exact .inl (hfull.elim id id)

theorem full_noting {v : Verdict Unit} (h : Full s) : Full (noting v s) := by
  cases v <;> exact h

theorem Behind.noting (h : Behind L s s₁) (v : Verdict Unit) : Behind L s (noting v s₁) := by
  cases v with
  | ok => exact h
  | error e =>
    exact ⟨h.consistent, h.grows, ⟨h.spared.specs, h.spared.outer, h.spared.loops, h.spared.returns⟩,
      h.scope, h.returns⟩

theorem Linked.noting (h : Linked Rift.whole s s) (v : Verdict Unit) :
    Linked Rift.whole (noting v s) (noting v s) := by
  cases v with
  | ok => exact h
  | error e => exact ⟨h.registry, h.scope, h.specs, ⟨_, rfl, rfl⟩, h.returns, h.loops⟩

/-- Behind a function that has one body or the other, the runs are linked. -/
theorem linked_function {f : FuncDecl} {b : Block} (hbody : f.body = some b) (b' : Block)
    (hs : Linked Rift.whole s s) (hroom : ¬ Full (topDecls [.function f] s).2)
    (hroom' : ¬ Full (topDecls [.function { f with body := some b' }] s).2) :
    ∃ W, Linked W (topDecls [.function f] s).2 (topDecls [.function { f with body := some b' }] s).2 ∧
      ∀ id, W.hidden id → ∃ spec ∈ b.script.specs ++ b'.script.specs, spec.id = id := by
  obtain ⟨⟨⟨g, v⟩, s₀⟩, hopen⟩ : ∃ y, opening f s = y := ⟨_, rfl⟩
  obtain ⟨hg, hopen'⟩ := opening_body hbody b' hopen
  have htwin := twin_opening f (clear_whole _) s s hs le_rfl
  rw [hopen] at htwin
  simp only [topDecls_function, hopen, hopen'] at hroom hroom' ⊢
  rcases htwin with hm | hfull
  · cases hrelated : hm.related with
    | error e => exact ⟨Rift.whole, hm.linked.noting (.error e), fun _ h => h.elim⟩
    | ok h =>
      rename_i t
      have hparts := behind_closing hm.linked hg h.1
      have hparts' := behind_closing (f := { g with body := some b' }) (b := b') hm.linked rfl
        ⟨rfl, h.1.params, h.1.returns⟩
      rcases hparts with hfull | hbehind
      · exact absurd (full_noting hfull) hroom
      rcases hparts' with hfull | hbehind'
      · exact absurd (full_noting hfull) hroom'
      exact ⟨_, linked_rift hm.linked (hbehind.noting _) (hbehind'.noting _), fun _ h => h⟩
  · exact absurd (full_noting (Full.mono (x := closing g v) (hfull.elim id id))) hroom

end MiniC.Typing
