import MiniC.Proofs.Typing.KinRules
import MiniC.Proofs.Typing.Walks
/-!
Two runs of an analysis on states that differ only in what was done apart from each other: types that
only one of them knows, struct specifiers that only one of them met, and failures recorded earlier.
Main statements, one for each way to put an analysis together: the runs stay linked, and come to related
results or to the same failure, as long as neither registry is full.
-/
namespace MiniC.Typing

open Registry (Akin Fork Kin KinDecl KinTy Pair Within)
open Syntax Check

/-! Linked states. -/

structure KinSig (F : Fork) (p : Pair) (g g' : Signature) : Prop where
  params : List.Forall₂ (Kin F p) g.params g'.params
  variadic : g.variadic = g'.variadic
  defined : g.defined = g'.defined
  builtin : g.builtin = g'.builtin

inductive KinKind (F : Fork) (p : Pair) : SymbolKind → SymbolKind → Prop
  | variable (isGlobal : Bool) : KinKind F p (.variable isGlobal) (.variable isGlobal)
  | parameter : KinKind F p .parameter .parameter
  | function {g g'} : KinSig F p g g' → KinKind F p (.function g) (.function g')

structure KinSymbol (F : Fork) (p : Pair) (x x' : Symbol) : Prop where
  name : x.name = x'.name
  kind : KinKind F p x.kind x'.kind
  ty : Kin F p x.ty x'.ty
  span : x.span = x'.span

structure KinTag (F : Fork) (p : Pair) (x x' : StructTag) : Prop where
  name : x.name = x'.name
  ty : Kin F p x.ty x'.ty

structure KinFrame (F : Fork) (p : Pair) (f f' : ScopeFrame) : Prop where
  symbols : List.Forall₂ (KinSymbol F p) f.symbols f'.symbols
  tags : List.Forall₂ (KinTag F p) f.tags f'.tags

structure KinScope (F : Fork) (p : Pair) (c c' : Scope) : Prop where
  inner : KinFrame F p c.inner c'.inner
  outer : List.Forall₂ (KinFrame F p) c.outer c'.outer

/-- What two runs do not share: how their structs correspond, the struct specifiers that only one of
them met, and the failures that each had recorded. -/
structure Rift where
  fork : Fork
  hidden : Nat → Prop
  before : List TypingError
  before' : List TypingError

def State.with (s s' : State) : Pair := ⟨s.registry, s'.registry⟩

structure Linked (W : Rift) (s s' : State) : Prop where
  registry : Akin W.fork (s.with s')
  scope : KinScope W.fork (s.with s') s.scope s'.scope
  specs : ∀ id, ¬ W.hidden id → Option.Rel (Kin W.fork (s.with s')) s.specs[id]? s'.specs[id]?
  errors : ∃ es, s.errors.toList = W.before ++ es ∧ s'.errors.toList = W.before' ++ es
  returns : Option.Rel (Kin W.fork (s.with s')) s.returns s'.returns
  loops : s.loopDepth = s'.loopDepth

section Change

variable {F F' : Fork} {p q : Pair}

theorem rel_mono {α β : Type} {R R' : α → β → Prop} {x : Option α} {y : Option β}
    (h : Option.Rel R x y) (hR : ∀ a b, R a b → R' a b) : Option.Rel R' x y := by
  cases h with
  | some h => exact .some (hR _ _ h)
  | none => exact .none

variable (hkin : ∀ t t', Kin F p t t' → Kin F' q t t')

section
include hkin

theorem KinSig.imp {g g' : Signature} (h : KinSig F p g g') : KinSig F' q g g' :=
  ⟨h.params.imp hkin, h.variadic, h.defined, h.builtin⟩

theorem KinKind.imp {k k' : SymbolKind} (h : KinKind F p k k') : KinKind F' q k k' := by
  rcases h with g | _ | hg
  · exact .variable g
  · exact .parameter
  · exact .function (hg.imp hkin)

theorem KinSymbol.imp {x x' : Symbol} (h : KinSymbol F p x x') : KinSymbol F' q x x' :=
  ⟨h.name, h.kind.imp hkin, hkin _ _ h.ty, h.span⟩

theorem KinTag.imp {x x' : StructTag} (h : KinTag F p x x') : KinTag F' q x x' :=
  ⟨h.name, hkin _ _ h.ty⟩

theorem KinFrame.imp {f f' : ScopeFrame} (h : KinFrame F p f f') : KinFrame F' q f f' :=
  ⟨h.symbols.imp fun _ _ hx => hx.imp hkin, h.tags.imp fun _ _ hx => hx.imp hkin⟩

theorem KinScope.imp {c c' : Scope} (h : KinScope F p c c') : KinScope F' q c c' :=
  ⟨h.inner.imp hkin, h.outer.imp fun _ _ hf => hf.imp hkin⟩

end

theorem KinSig.mono {g g' : Signature} (h : KinSig F p g g') (hle : p ≤ q) : KinSig F q g g' :=
  h.imp fun _ _ ht => ht.mono hle

theorem KinSymbol.mono {x x' : Symbol} (h : KinSymbol F p x x') (hle : p ≤ q) : KinSymbol F q x x' :=
  h.imp fun _ _ ht => ht.mono hle

theorem KinTag.mono {x x' : StructTag} (h : KinTag F p x x') (hle : p ≤ q) : KinTag F q x x' :=
  h.imp fun _ _ ht => ht.mono hle

theorem KinScope.mono {c c' : Scope} (h : KinScope F p c c') (hle : p ≤ q) : KinScope F q c c' :=
  h.imp fun _ _ ht => ht.mono hle

end Change

/-- More types alone leave states linked. -/
theorem Linked.grow {W : Rift} {s s' : State} (h : Linked W s s') {q : Pair} (hle : s.with s' ≤ q)
    (hq : Akin W.fork q) : Linked W { s with registry := q.left } { s' with registry := q.right } where
  registry := hq
  scope := h.scope.mono hle
  specs id hid := rel_mono (h.specs id hid) fun _ _ ht => ht.mono hle
  errors := h.errors
  returns := rel_mono h.returns fun _ _ ht => ht.mono hle
  loops := h.loops

/-! What is found in linked scopes. -/

section Lookup

variable {F : Fork} {p : Pair}

theorem KinFrame.symbol? {f f' : ScopeFrame} (h : KinFrame F p f f') (name : String) :
    Option.Rel (KinSymbol F p) (f.symbol? name) (f'.symbol? name) :=
  Registry.rel_find? h.symbols fun x y hxy => by rw [hxy.name]

theorem KinFrame.tag? {f f' : ScopeFrame} (h : KinFrame F p f f') (name : String) :
    Option.Rel (KinTag F p) (f.tag? name) (f'.tag? name) :=
  Registry.rel_find? h.tags fun x y hxy => by rw [hxy.name]

theorem rel_findSome? {α α' β β' : Type} {R : α → α' → Prop} {Q : β → β' → Prop} {f : α → Option β}
    {g : α' → Option β'} {xs : List α} {ys : List α'} (h : List.Forall₂ R xs ys)
    (hfg : ∀ x y, R x y → Option.Rel Q (f x) (g y)) :
    Option.Rel Q (xs.findSome? f) (ys.findSome? g) := by
  induction h with
  | nil => exact .none
  | @cons x y xs ys hxy _ ih =>
    have hfirst := hfg x y hxy
    rw [List.findSome?_cons, List.findSome?_cons]
    revert hfirst
    generalize f x = a
    generalize g y = b
    rintro (hab | _)
    · exact .some hab
    · exact ih

theorem KinScope.lookup {c c' : Scope} (h : KinScope F p c c') (name : String) :
    Option.Rel (KinSymbol F p) (c.lookup name) (c'.lookup name) :=
  rel_findSome? (.cons h.inner h.outer) fun _ _ hf => hf.symbol? name

theorem KinScope.lookupTag {c c' : Scope} (h : KinScope F p c c') (name : String) :
    Option.Rel (Kin F p) (c.lookupTag name) (c'.lookupTag name) := by
  have htag : Option.Rel (KinTag F p) ((c.inner :: c.outer).findSome? (·.tag? name))
      ((c'.inner :: c'.outer).findSome? (·.tag? name)) :=
    rel_findSome? (.cons h.inner h.outer) fun _ _ hf => hf.tag? name
  unfold Scope.lookupTag
  revert htag
  generalize (c.inner :: c.outer).findSome? (·.tag? name) = x
  generalize (c'.inner :: c'.outer).findSome? (·.tag? name) = x'
  rintro (ht | _)
  · exact .some ht.ty
  · exact .none

theorem KinScope.isGlobal {c c' : Scope} (h : KinScope F p c c') : c.isGlobal = c'.isGlobal := by
  obtain ⟨inner, outer⟩ := c
  obtain ⟨inner', outer'⟩ := c'
  obtain ⟨-, houter⟩ := h
  cases houter <;> rfl

theorem KinScope.push {c c' : Scope} (h : KinScope F p c c') : KinScope F p c.push c'.push :=
  ⟨⟨.nil, .nil⟩, .cons h.inner h.outer⟩

theorem KinScope.pop {c c' : Scope} (h : KinScope F p c c') : KinScope F p c.pop c'.pop := by
  obtain ⟨inner, outer⟩ := c
  obtain ⟨inner', outer'⟩ := c'
  obtain ⟨hinner, houter⟩ := h
  cases houter with
  | nil => exact ⟨hinner, .nil⟩
  | cons hf hfs => exact ⟨hf, hfs⟩

theorem KinScope.replace {c c' : Scope} (h : KinScope F p c c') {x x' : Symbol}
    (hx : KinSymbol F p x x') : KinScope F p (c.replace x) (c'.replace x') :=
  ⟨⟨.cons hx h.inner.symbols, h.inner.tags⟩, h.outer⟩

end Lookup

/-! Growth. -/

/-- An analysis only adds types. -/
class Enlarges {α : Type} (x : Analysis α) : Prop where
  within : ∀ s, Within s.registry (x s).2.registry

section Enlarges

variable {α β γ τ : Type}

instance (a : α) : Enlarges (pure a) := ⟨fun _ => .refl _⟩

instance {x : Analysis α} {k : α → Analysis β} [Enlarges x] [∀ a, Enlarges (k a)] :
    Enlarges (x >>= k) :=
  ⟨fun s => (Enlarges.within (x := x) s).trans (Enlarges.within (x := k (x s).1) (x s).2)⟩

instance {k : State → Analysis β} [∀ s, Enlarges (k s)] : Enlarges (get >>= k) :=
  ⟨fun s => Enlarges.within (x := k s) s⟩

instance {c : Check α} {k : α → Check β} [Enlarges (outcome c)] [∀ a, Enlarges (outcome (k a))] :
    Enlarges (outcome (c >>= k)) := ⟨fun s => by
  rw [outcome_bind]
  have hfirst := Enlarges.within (x := outcome c) s
  cases h : outcome c s with
  | mk v s₁ =>
    rw [h] at hfirst
    cases v with
    | ok a => exact hfirst.trans (Enlarges.within (x := outcome (k a)) s₁)
    | error e => exact hfirst⟩

theorem Idles.enlarges {c : Check α} (h : Idles c) : Enlarges (outcome c) :=
  ⟨fun s => (h s).registry.grows.toWithin⟩

instance (v : Verdict α) : Enlarges (outcome (liftM v : Check α)) := (Idles.lift v).enlarges

instance (a : α) : Enlarges (outcome (pure a : Check α)) := (Idles.pure a).enlarges

instance (e : TypingError) : Enlarges (outcome (throw e : Check α)) := (Idles.throw e).enlarges

instance (cause : TypeCause) (span : Span) : Enlarges (outcome (type cause span : Check α)) :=
  (Idles.throw _).enlarges

instance (cause : NameCause) (span : Span) : Enlarges (outcome (name cause span : Check α)) :=
  (Idles.throw _).enlarges

instance (f : Registry → Verdict α) : Enlarges (outcome (rule f)) := (Idles.rule f).enlarges

instance {k : Registry → Check β} [∀ r, Enlarges (outcome (k r))] :
    Enlarges (outcome (registry >>= k)) :=
  ⟨fun s => Enlarges.within (x := outcome (k s.registry)) s⟩

instance {k : State → Check β} [∀ s, Enlarges (outcome (k s))] : Enlarges (outcome (get >>= k)) :=
  ⟨fun s => Enlarges.within (x := outcome (k s)) s⟩

instance {P : Prop} [Decidable P] {c d : Check α} [Enlarges (outcome c)] [Enlarges (outcome d)] :
    Enlarges (outcome (if P then c else d)) := by
  split <;> assumption

instance {v : Verdict α} {t : τ} {next : Analysis (τ × Verdict β)} [Enlarges next] :
    Enlarges (andThen v t next) := by
  cases v with
  | ok a => assumption
  | error e => exact ⟨fun _ => .refl _⟩

instance {P : Prop} [Decidable P] {x y : Analysis α} [Enlarges x] [Enlarges y] :
    Enlarges (if P then x else y) := by
  split <;> assumption

instance (e : TypingError) : Enlarges (record e) := ⟨fun _ => .refl _⟩

/-- What is done with the outcome of a check. -/
theorem Enlarges.check {c : Check α} {k : Verdict α → Analysis β} [Enlarges (outcome c)]
    (hok : ∀ a, Enlarges (k (.ok a))) (herror : ∀ e, Enlarges (k (.error e))) :
    Enlarges (outcome c >>= k) := by
  have (v : Verdict α) : Enlarges (k v) := by
    cases v with
    | ok a => exact hok a
    | error e => exact herror e
  infer_instance

instance {kind : ExprKind} {span : Span} {before : Option TypeId} {c : Check TypeId}
    [Enlarges (outcome c)] : Enlarges (typed kind span before c) :=
  .check (fun _ => inferInstanceAs (Enlarges (pure _))) fun _ => inferInstanceAs (Enlarges (pure _))

end Enlarges

/-! Runs. -/

/-- No id is left for another type. -/
def Full (s : State) : Prop := Registry.capacity ≤ s.registry.types.size

/-- Where two runs end. -/
structure Meets {α : Type} (W : Rift) (p : Pair) (y y' : α × State) (R : Pair → α → α → Prop) : Prop where
  linked : Linked W y.2 y'.2
  grows : p ≤ y.2.with y'.2
  related : R (y.2.with y'.2) y.1 y'.1

/-- From linked states the runs end in linked states with related results, if no registry is full. -/
def Twin {α : Type} (W : Rift) (p : Pair) (x x' : Analysis α) (R : Pair → α → α → Prop) : Prop :=
  ∀ s s', Linked W s s' → p ≤ s.with s' →
    Meets W (s.with s') (x s) (x' s') R ∨ Full (x s).2 ∨ Full (x' s').2

/-- The same of two checks. -/
def TwinCheck {α : Type} (W : Rift) (p : Pair) (c c' : Check α) (Q : Pair → α → α → Prop) : Prop :=
  Twin W p (outcome c) (outcome c') fun q => Both (Q q)

/-- A tree with its verdict: related, or the same failure. -/
inductive Agree {τ β : Type} (Q : Pair → τ → β → τ → β → Prop) (q : Pair) :
    τ × Verdict β → τ × Verdict β → Prop
  | ok {t b t' b'} : Q q t b t' b' → Agree Q q (t, .ok b) (t', .ok b')
  | error {t t'} (e : TypingError) : Agree Q q (t, .error e) (t', .error e)

variable {α β γ δ τ σ : Type} {W : Rift} {p q : Pair}

theorem Full.mono {x : Analysis α} [Enlarges x] {s : State} (h : Full s) : Full (x s).2 :=
  Nat.le_trans h (Enlarges.within (x := x) s).size_le

namespace Twin

variable {x x' : Analysis α} {R R' : Pair → α → α → Prop} {S : Pair → γ → γ → Prop}

theorem pure {a a' : α} (h : ∀ q, p ≤ q → Akin W.fork q → R q a a') :
    Twin W p (Pure.pure a) (Pure.pure a') R :=
  fun _ _ hlinked hle => .inl ⟨hlinked, le_rfl, h _ hle hlinked.registry⟩

theorem akin (h : ∀ q, p ≤ q → Akin W.fork q → Twin W q x x' R) : Twin W p x x' R :=
  fun s s' hlinked hle => h _ hle hlinked.registry s s' hlinked le_rfl

theorem get_bind {k k' : State → Analysis γ}
    (h : ∀ s s', Linked W s s' → p ≤ s.with s' → Twin W (s.with s') (k s) (k' s') S) :
    Twin W p (get >>= k) (get >>= k') S :=
  fun s s' hlinked hle => h s s' hlinked hle s s' hlinked le_rfl

theorem later (h : Twin W p x x' R) (hle : p ≤ q) : Twin W q x x' R :=
  fun s s' hlinked hq => h s s' hlinked (hle.trans hq)

theorem mono (h : Twin W p x x' R) (hR : ∀ q a a', p ≤ q → Akin W.fork q → R q a a' → R' q a a') :
    Twin W p x x' R' := fun s s' hlinked hle =>
  (h s s' hlinked hle).imp_left fun hm =>
    ⟨hm.linked, hm.grows, hR _ _ _ (hle.trans hm.grows) hm.linked.registry hm.related⟩

theorem chain {k k' : α → Analysis γ} (hx : Twin W p x x' R) (henlarges : ∀ a, Enlarges (k a))
    (henlarges' : ∀ a, Enlarges (k' a))
    (hk : ∀ q, p ≤ q → Akin W.fork q → ∀ a a', R q a a' → Twin W q (k a) (k' a') S) :
    Twin W p (x >>= k) (x' >>= k') S := by
  intro s s' hlinked hle
  rcases hx s s' hlinked hle with hm | hfull | hfull
  · rcases hk _ (hle.trans hm.grows) hm.linked.registry _ _ hm.related _ _ hm.linked le_rfl with
      hm' | hfull
    · exact .inl ⟨hm'.linked, hm.grows.trans hm'.grows, hm'.related⟩
    · exact .inr hfull
  · have := henlarges (x s).1
    exact .inr (.inl (hfull.mono (x := k (x s).1)))
  · have := henlarges' (x' s').1
    exact .inr (.inr (hfull.mono (x := k' (x' s').1)))

/-- The next analysis, when both have got a tree with a verdict. -/
theorem bind {x x' : Analysis (τ × Verdict β)} {k k' : τ × Verdict β → Analysis γ}
    {Q : Pair → τ → β → τ → β → Prop} [hok : ∀ t b, Enlarges (k (t, .ok b))]
    [herror : ∀ t e, Enlarges (k (t, .error e))] [hok' : ∀ t b, Enlarges (k' (t, .ok b))]
    [herror' : ∀ t e, Enlarges (k' (t, .error e))] (hx : Twin W p x x' (Agree Q))
    (hk : ∀ q, p ≤ q → Akin W.fork q → ∀ t b t' b', Q q t b t' b' →
      Twin W q (k (t, .ok b)) (k' (t', .ok b')) S)
    (hf : ∀ q t t' e, Twin W q (k (t, .error e)) (k' (t', .error e)) S) :
    Twin W p (x >>= k) (x' >>= k') S := by
  refine hx.chain ?_ ?_ fun q hle hq a a' h => ?_
  · rintro ⟨t, e | b⟩
    · exact herror t e
    · exact hok t b
  · rintro ⟨t, e | b⟩
    · exact herror' t e
    · exact hok' t b
  · cases h with
    | ok h => exact hk q hle hq _ _ _ _ h
    | error e => exact hf q _ _ e

/-- The next analysis, when both have done a check. -/
theorem check {c c' : Check α} {k k' : Verdict α → Analysis γ} {Q : Pair → α → α → Prop}
    [hok : ∀ a, Enlarges (k (.ok a))] [herror : ∀ e, Enlarges (k (.error e))]
    [hok' : ∀ a, Enlarges (k' (.ok a))] [herror' : ∀ e, Enlarges (k' (.error e))]
    (hc : TwinCheck W p c c' Q)
    (hk : ∀ q, p ≤ q → Akin W.fork q → ∀ a a', Q q a a' → Twin W q (k (.ok a)) (k' (.ok a')) S)
    (hf : ∀ q e, Twin W q (k (.error e)) (k' (.error e)) S) :
    Twin W p (outcome c >>= k) (outcome c' >>= k') S := by
  refine Twin.chain hc ?_ ?_ fun q hle hq a a' h => ?_
  · rintro (e | a)
    · exact herror e
    · exact hok a
  · rintro (e | a)
    · exact herror' e
    · exact hok' a
  · cases h with
    | ok h => exact hk q hle hq _ _ h
    | error e => exact hf q e

/-- A failure that both record. -/
theorem recorded {k k' : PUnit → Analysis γ} (e : TypingError) (h : Twin W p (k ⟨⟩) (k' ⟨⟩) S) :
    Twin W p (record e >>= k) (record e >>= k') S := by
  intro s s' hlinked hle
  refine h { s with errors := s.errors.push e } { s' with errors := s'.errors.push e }
    { hlinked with errors := ?_ } hle
  obtain ⟨es, hes, hes'⟩ := hlinked.errors
  exact ⟨es ++ [e], by rw [Array.toList_push, hes, List.append_assoc],
    by rw [Array.toList_push, hes', List.append_assoc]⟩

/-- Nothing more is done after a failure. -/
theorem still {x x' : Analysis (τ × Verdict β)} {Q : Pair → τ → β → τ → β → Prop} {e : TypingError}
    (h : ∀ s, ∃ t, x s = ((t, .error e), s)) (h' : ∀ s, ∃ t, x' s = ((t, .error e), s)) :
    Twin W p x x' (Agree Q) := by
  intro s s' hlinked hle
  obtain ⟨t, ht⟩ := h s
  obtain ⟨t', ht'⟩ := h' s'
  rw [ht, ht']
  exact .inl ⟨hlinked, le_rfl, .error e⟩

end Twin

/-- The analysis that a sequence of checks stands for. -/
theorem outcome_bind_eq {c : Check α} {k : α → Check β} :
    outcome (c >>= k) = outcome c >>= fun v =>
      match v with
      | .ok a => outcome (k a)
      | .error e => Pure.pure (.error e) := by
  funext s
  obtain ⟨⟨v, s₁⟩, hrun⟩ : ∃ y, outcome c s = y := ⟨_, rfl⟩
  rw [outcome_bind, run_bind hrun, hrun]
  cases v <;> rfl

namespace TwinCheck

variable {c c' : Check α} {k k' : α → Check β} {Q : Pair → α → α → Prop} {S : Pair → β → β → Prop}

theorem pure {a a' : α} (h : ∀ q, p ≤ q → Akin W.fork q → Q q a a') :
    TwinCheck W p (Pure.pure a) (Pure.pure a') Q :=
  Twin.pure (a := Except.ok a) fun q hle hq => .ok (h q hle hq)

theorem throw (e : TypingError) : TwinCheck W p (throw e : Check α) (MonadExcept.throw e) Q :=
  Twin.pure (a := Except.error e) fun _ _ _ => .error e

theorem akin (h : ∀ q, p ≤ q → Akin W.fork q → TwinCheck W q c c' Q) : TwinCheck W p c c' Q :=
  Twin.akin h

theorem later (h : TwinCheck W p c c' Q) (hle : p ≤ q) : TwinCheck W q c c' Q := Twin.later h hle

theorem mono {Q' : Pair → α → α → Prop} (h : TwinCheck W p c c' Q) (hQ : ∀ q a a', Q q a a' → Q' q a a') :
    TwinCheck W p c c' Q' :=
  Twin.mono h fun q v v' _ _ hv => by
    cases hv with
    | ok hv => exact .ok (hQ q _ _ hv)
    | error e => exact .error e

theorem bind [Enlarges (outcome c)] [∀ a, Enlarges (outcome (k a))] [∀ a, Enlarges (outcome (k' a))]
    (hc : TwinCheck W p c c' Q)
    (hk : ∀ q, p ≤ q → Akin W.fork q → ∀ a a', Q q a a' → TwinCheck W q (k a) (k' a') S) :
    TwinCheck W p (c >>= k) (c' >>= k') S := by
  unfold TwinCheck
  rw [outcome_bind_eq, outcome_bind_eq]
  exact Twin.check hc hk fun q e => Twin.pure fun _ _ _ => .error e

theorem lift {v v' : Verdict α} (h : ∀ q, p ≤ q → Akin W.fork q → Both (Q q) v v') :
    TwinCheck W p (liftM v) (liftM v') Q := by
  intro s s' hlinked hle
  have hboth := h _ hle hlinked.registry
  left
  refine ⟨?_, ?_, ?_⟩
  all_goals cases hboth <;> first | exact hlinked | exact le_rfl | exact .ok ‹_› | exact .error _

/-- What was found earlier is taken up. -/
theorem given {a a' : α} (h : TwinCheck W p (k a) (k' a') S) :
    TwinCheck W p (liftM (.ok a : Verdict α) >>= k) (liftM (.ok a' : Verdict α) >>= k') S := h

theorem rule {f f' : Registry → Verdict α}
    (h : ∀ q, p ≤ q → Akin W.fork q → Both (Q q) (f q.left) (f' q.right)) :
    TwinCheck W p (rule f) (rule f') Q := by
  intro s s' hlinked hle
  rw [outcome_rule, outcome_rule]
  exact .inl ⟨hlinked, le_rfl, h _ hle hlinked.registry⟩

theorem get_bind {k k' : State → Check β}
    (h : ∀ s s', Linked W s s' → p ≤ s.with s' → TwinCheck W (s.with s') (k s) (k' s') S) :
    TwinCheck W p (get >>= k) (get >>= k') S :=
  fun s s' hlinked hle => h s s' hlinked hle s s' hlinked le_rfl

theorem registry_bind {k k' : Registry → Check β}
    (h : ∀ q, p ≤ q → Akin W.fork q → TwinCheck W q (k q.left) (k' q.right) S) :
    TwinCheck W p (registry >>= k) (registry >>= k') S :=
  fun s s' hlinked hle => h _ hle hlinked.registry s s' hlinked le_rfl

theorem ite {P P' : Prop} [Decidable P] [Decidable P'] {d d' : Check α} (h : P ↔ P')
    (hc : TwinCheck W p c c' Q) (hd : TwinCheck W p d d' Q) :
    TwinCheck W p (if P then c else d) (if P' then c' else d') Q := by
  by_cases hP : P
  · rwa [if_pos hP, if_pos (h.mp hP)]
  · rwa [if_neg hP, if_neg fun hP' => hP (h.mpr hP')]

/-- Past a test that only fails. -/
theorem guard {P P' : Prop} [Decidable P] [Decidable P'] {c c' : Check PUnit} {k k' : PUnit → Check β}
    [Enlarges (outcome c)] [∀ a, Enlarges (outcome (k a))] [∀ a, Enlarges (outcome (k' a))] (h : P ↔ P')
    (hc : TwinCheck W p c c' fun _ _ _ => True) (hk : TwinCheck W p (k ⟨⟩) (k' ⟨⟩) S) :
    TwinCheck W p (if P then c >>= k else k ⟨⟩) (if P' then c' >>= k' else k' ⟨⟩) S :=
  .ite h (hc.bind fun _ hle _ _ _ _ => hk.later hle) hk

end TwinCheck

end MiniC.Typing
