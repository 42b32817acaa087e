import MiniC.Proofs.Evaluation.Tree
/-!
Addresses of access paths. A path is a name with members and subscripts of objects, and with whatever
a pointer points to; what is no path has no address of its own, but a struct or array that is only a
value lies where that value says. Main statement: evaluation finds an object at its address.
-/
namespace MiniC.Evaluation

open Machine (Fault)
open Syntax

/-- Where the innermost local of that name lies, or else the global. -/
def Context.place (c : Context) (name : String) : Action Int64 :=
  match c.scopes.findSome? (·.lookup name) with
  | some j => home j
  | none =>
    match c.global name with
    | some address => return address
    | none => throw (.fault (.undefinedSymbol name))

def value (c : Context) (e : Expr) : Resolve (Action Int64) := valueOf c.registry <$> expr c e

/-- The value of a subscript: folded if it is constant, and evaluated if it is not. -/
def indexValue (c : Context) (index : Expr) : Resolve (Action Int64) :=
  match index.constant? with
  | some i => return return i
  | none => value c index

mutual

def address (c : Context) : Expr → Resolve (Action Int64)
  | ⟨_, _, none⟩ => return throw .stuck
  | ⟨kind, _, some ty⟩ => addressKind c ty kind

def addressKind (c : Context) (ty : TypeId) : ExprKind → Resolve (Action Int64)
  | .name name => return c.place name
  | .member object _ (some m) => do
    let a ← address c object
    return (· + Int64.ofNat m.offset) <$> a
  | .pointerMember pointer _ (some m) => do
    let p ← value c pointer
    return (· + Int64.ofNat m.offset) <$> p
  | .deref pointer => value c pointer
  | .index array index => do
    let first ← if array.ty.any c.registry.isArray then address c array else value c array
    let i ← indexValue c index
    return subscript (Int64.ofNat (c.registry.sizeOf ty)) first i
  | kind => valueOf c.registry <$> exprKind c ty kind

end

section Objects

variable {α β : Type} {c : Context} {ty : TypeId}

/-- Actions that do the same to every store are the same. -/
theorem action_ext {x y : Action α} (h : ∀ st, x st = y st) : x = y := funext h

theorem storageOf_object (x : Action Int64) : storageOf (.object ty <$> x) = x := by
  refine action_ext fun st => ?_
  show EStateM.bind (EStateM.map _ x) _ st = x st
  unfold EStateM.bind EStateM.map
  cases x st <;> rfl

theorem storageOf_named (c : Context) (ty : TypeId) (name : String) :
    storageOf (c.named ty name) = c.place name := by
  unfold Context.named Context.place
  cases c.scopes.findSome? (·.lookup name) with
  | some j => exact storageOf_object (home j)
  | none => cases c.global name <;> rfl

/-- Whatever comes of the action, it is no object. -/
def IsValue (act : Action Denoted) : Prop :=
  ∀ st ty a st', act st ≠ .ok (Denoted.object ty a) st'

theorem isValue_map (f : α → Int64) (x : Action α) : IsValue ((fun a => .value (f a)) <$> x) := by
  intro st ty a st' h
  replace h : EStateM.map _ x st = .ok (Denoted.object ty a) st' := h
  unfold EStateM.map at h
  cases hx : x st <;> rw [hx] at h <;> cases h

theorem isValue_pure (v : Int64) : IsValue (pure (.value v)) := by
  intro st ty a st' h
  cases h

theorem isValue_throw (e : Exit) : IsValue (throw e) := nofun

/-- What is a value in any case lies where the value says. -/
theorem storageOf_eq_valueOf {sem : Resolve (Action Denoted)} (h : ∀ k, IsValue (sem k).1) :
    storageOf <$> sem = valueOf c.registry <$> sem := by
  have heq {act : Action Denoted} (hact : IsValue act) : storageOf act = valueOf c.registry act := by
    refine action_ext fun st => ?_
    show EStateM.bind act _ st = EStateM.bind act _ st
    unfold EStateM.bind
    rcases hrun : act st with ⟨d, st'⟩ | ⟨e, st'⟩
    · cases d with
      | object ty a => exact absurd hrun (hact st ty a st')
      | value v => rfl
    · rfl
  funext k
  exact congrArg (·, (sem k).2) (heq (h k))

theorem storageOf_moved (x : Action Int64) (ty : TypeId) (distance : Int64) :
    storageOf (do return .object ty ((← x) + distance)) = (· + distance) <$> x := by
  refine action_ext fun st => ?_
  show EStateM.bind (EStateM.bind x _) _ st = EStateM.map _ x st
  unfold EStateM.bind EStateM.map
  cases x st <;> rfl

theorem elementsOf_eq (c : Context) (array : Expr) :
    elementsOf c.registry array.ty <$> expr c array =
      if array.ty.any c.registry.isArray then storageOf <$> expr c array else value c array := by
  obtain ⟨kind, span, ty⟩ := array
  cases ty with
  | none =>
    rw [expr]
    rfl
  | some ty =>
    show (fun act => if c.registry.isArray ty then storageOf act else valueOf c.registry act) <$> _ = _
    by_cases harray : c.registry.isArray ty
    · simp only [Option.any_some, harray, if_true]
    · simp only [Option.any_some, harray, Bool.false_eq_true, if_false]
      rfl

mutual

theorem address_eq (c : Context) : ∀ e, address c e = storageOf <$> expr c e
  | ⟨_, _, none⟩ => by
    rw [address, expr]
    rfl
  | ⟨kind, _, some ty⟩ => by
    rw [address, expr]
    exact addressKind_eq c ty kind

theorem addressKind_eq (c : Context) (ty : TypeId) : ∀ k,
    addressKind c ty k = storageOf <$> exprKind c ty k
  | .name name => by
    rw [addressKind, exprKind]
    funext k
    exact congrArg (·, k) (storageOf_named c ty name).symm
  | .member object field (some m) => by
    rw [addressKind, exprKind, address_eq c object]
    funext k
    exact congrArg (·, _) (storageOf_moved _ _ _).symm
  | .pointerMember pointer field (some m) => by
    rw [addressKind, exprKind]
    funext k
    exact congrArg (·, _) (storageOf_moved _ _ _).symm
  | .deref pointer => by
    rw [addressKind, exprKind]
    funext k
    exact congrArg (·, _) (storageOf_object _).symm
  | .index array index => by
    rw [addressKind, exprKind, address_eq c array, elementsOf_eq]
    funext k
    unfold indexValue value
    by_cases harray : array.ty.any c.registry.isArray
    · simp only [harray, if_true]
      cases index.constant? with
      | none => exact congrArg (·, _) (storageOf_object _).symm
      | some i => exact congrArg (·, _) (storageOf_object _).symm
    · simp only [harray, Bool.false_eq_true, if_false]
      cases index.constant? with
      | none => exact congrArg (·, _) (storageOf_object _).symm
      | some i => exact congrArg (·, _) (storageOf_object _).symm
  | .member object field none => by
    simp only [addressKind]
    rw [exprKind]
    exact (storageOf_eq_valueOf fun k => isValue_throw _).symm
  | .pointerMember pointer field none => by
    simp only [addressKind]
    rw [exprKind]
    exact (storageOf_eq_valueOf fun k => isValue_throw _).symm
  | .integer _ | .character _ | .string _ => by
    simp only [addressKind]
    rw [exprKind]
    exact (storageOf_eq_valueOf fun k => isValue_pure _).symm
  | .query .. | .typeQuery .. => by
    simp only [addressKind]
    rw [exprKind]
    exact (storageOf_eq_valueOf fun k => isValue_throw _).symm
  | .binary op left right => by
    simp only [addressKind]
    rw [exprKind]
    by_cases hop : op.isLogical
    · simp only [hop, if_true]
      exact (storageOf_eq_valueOf fun k => isValue_map id _).symm
    · simp only [hop, Bool.false_eq_true, if_false]
      exact (storageOf_eq_valueOf fun k => isValue_map id _).symm
  | .assign none target source => by
    simp only [addressKind]
    rw [exprKind]
    by_cases hstruct : c.registry.isStruct ty
    · simp only [hstruct, if_true]
      exact (storageOf_eq_valueOf fun k => isValue_map id _).symm
    · simp only [hstruct, Bool.false_eq_true, if_false]
      exact (storageOf_eq_valueOf fun k => isValue_map id _).symm
  | .assign (some op) target source => by
    simp only [addressKind]
    rw [exprKind]
    by_cases hstruct : c.registry.isStruct ty
    · simp only [hstruct, if_true]
      exact (storageOf_eq_valueOf fun k => isValue_map id _).symm
    · simp only [hstruct, Bool.false_eq_true, if_false]
      exact (storageOf_eq_valueOf fun k => isValue_map id _).symm
  | .unary .. | .conditional .. | .call .. | .cast .. | .step .. | .comma _ | .block ⟨_, _⟩ => by
    simp only [addressKind]
    rw [exprKind]
    exact (storageOf_eq_valueOf fun k => isValue_map id _).symm
  | .addressOf operand => by
    simp only [addressKind]
    rw [exprKind]
    exact (storageOf_eq_valueOf fun k => isValue_map Prod.snd _).symm

end

/-! Subscripts. -/

theorem address_subscript (c : Context) (array index : Expr) (span : Span) (ty : TypeId)
    (k : Counters) :
    address c ⟨.index array index, span, some ty⟩ k =
      let first := (elementsOf c.registry array.ty <$> expr c array) k
      let i := indexValue c index first.2
      (subscript (Int64.ofNat (c.registry.sizeOf ty)) first.1 i.1, i.2) := by
  rw [address, addressKind, address_eq, elementsOf_eq]
  by_cases harray : array.ty.any c.registry.isArray
  · simp only [harray, if_true]
    rfl
  · simp only [harray, Bool.false_eq_true, if_false]
    rfl

theorem subscript_eq_ok {stride a : Int64} {first index : Action Int64} {st st' : Store} :
    subscript stride first index st = .ok a st' ↔
      ∃ b i st₁, first st = .ok b st₁ ∧ index st₁ = .ok i st' ∧ b + i * stride = a := by
  show EStateM.bind first (fun b => EStateM.bind index fun i => pure (b + i * stride)) st = _ ↔ _
  unfold EStateM.bind
  constructor
  · intro h
    cases hfirst : first st with
    | error e st₁ =>
      rw [hfirst] at h
      cases h
    | ok b st₁ =>
      simp only [hfirst] at h
      cases hindex : index st₁ with
      | error e st₂ =>
        rw [hindex] at h
        cases h
      | ok i st₂ =>
        simp only [hindex] at h
        cases h
        exact ⟨b, i, st₁, rfl, hindex, rfl⟩
  · rintro ⟨b, i, st₁, hfirst, hindex, rfl⟩
    simp only [hfirst, hindex]
    rfl

/-- A literal subscript gives the address that any other subscript of that value gives. -/
theorem address_of_value {array literal other : Expr} {i a : Int64} {span span' : Span}
    {k : Counters} {st st₁ st₂ : Store} (hliteral : literal.constant? = some i)
    (hother : other.constant? = none)
    (haddress : (address c ⟨.index array literal, span, some ty⟩ k).1 st = .ok a st₁)
    (hvalue : (value c other (expr c array k).2).1 st₁ = .ok i st₂) :
    (address c ⟨.index array other, span', some ty⟩ k).1 st = .ok a st₂ := by
  rw [address_subscript] at haddress ⊢
  unfold indexValue at haddress ⊢
  rw [hliteral] at haddress
  rw [hother]
  obtain ⟨b, i', st', hfirst, hindex, rfl⟩ := subscript_eq_ok.mp haddress
  cases hindex
  exact subscript_eq_ok.mpr ⟨b, i, st₁, hfirst, hvalue, rfl⟩

end Objects

end MiniC.Evaluation
