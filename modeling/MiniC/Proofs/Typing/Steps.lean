import MiniC.Proofs.Layout.Consistency
import MiniC.Proofs.Syntax.Script
import MiniC.Proofs.Typing.Annotated
import MiniC.Proofs.Typing.Quiet
/-!
What an analysis does to struct types and scopes, step by step. A run resolves the types that are
written in its tree, records failures, and goes in and out of scopes and loops; whatever it does in
between is idle. Main statements: from any state a run leaves all but the innermost scope as it was,
and one without failures has resolved all that its tree has written, in order.
-/
namespace MiniC

open Registry (Grows)

/-- Pointers and arrays may have entered. -/
structure Registry.Interns (r r' : Registry) : Prop where
  grows : Grows r r'
  structs : r'.structs = r.structs
  ids : ∀ (ty : Ty) (id : TypeId), r.ids[ty]? = some id → r'.ids[ty]? = some id
  fresh : ∀ s : StructId, r.ids[Ty.struct s]? = none → r'.ids[Ty.struct s]? = none

namespace Registry.Interns

variable {r r' r'' : Registry}

theorem refl (r : Registry) : Interns r r := ⟨.refl r, rfl, fun _ _ h => h, fun _ h => h⟩

theorem trans (h : Interns r r') (k : Interns r' r'') : Interns r r'' :=
  ⟨h.grows.trans k.grows, k.structs.trans h.structs, fun ty id hid => k.ids ty id (h.ids ty id hid),
    fun s hs => k.fresh s (h.fresh s hs)⟩

theorem names (r : Registry) (names : Std.HashSet String) : Interns r { r with names } :=
  ⟨⟨⟨rfl, List.prefix_rfl⟩, List.prefix_rfl⟩, rfl, fun _ _ h => h, fun _ h => h⟩

theorem insert {info : TypeInfo} {id : TypeId} (h : r.insert info = .ok (id, r'))
    (hnew : r.ids[info.ty]? = none) (hty : ∀ s, info.ty ≠ .struct s) :
    Interns r r' ∧ r'.ids[info.ty]? = some id := by
  unfold Registry.insert at h
  split at h
  · cases h
    refine ⟨⟨⟨⟨rfl, ?_⟩, List.prefix_rfl⟩, rfl, fun ty id hid => ?_, fun s hs => ?_⟩, ?_⟩
    · simp
    · have hne : info.ty ≠ ty := by
        rintro rfl
        rw [hnew] at hid
        cases hid
      rwa [Table.getElem?_insert, if_neg (by simpa using hne)]
    · rwa [Table.getElem?_insert, if_neg (by simpa using hty s)]
    · rw [Table.getElem?_insert_self]
  · cases h

theorem intern {ty : Ty} {id : TypeId} (h : r.intern ty = .ok (id, r')) (hty : ∀ s, ty ≠ .struct s) :
    Interns r r' ∧ r'.ids[ty]? = some id := by
  unfold Registry.intern at h
  split at h
  · rename_i hfound
    cases h
    exact ⟨.refl r, hfound⟩
  · rename_i hnew
    split at h
    · cases h
    · rename_i info hmeasure
      split at h
      · cases h
      · obtain rfl : info.ty = ty := by
          unfold Registry.measure at hmeasure
          split at hmeasure
          any_goals cases hmeasure
          any_goals rfl
          simp only at hmeasure
          split at hmeasure
          · cases hmeasure
            rfl
          · cases hmeasure
        exact insert h hnew hty

end Registry.Interns

namespace Typing

open Syntax Check
open Registry (Interns)

/-- Nothing happened to struct types, tags, outer scopes and failures. -/
structure Idle (s s' : State) : Prop where
  registry : Interns s.registry s'.registry
  specs : s'.specs = s.specs
  tags : s'.scope.inner.tags = s.scope.inner.tags
  outer : s'.scope.outer = s.scope.outer
  errors : s'.errors = s.errors
  returns : s'.returns = s.returns
  loops : s'.loopDepth = s.loopDepth

theorem Idle.refl (s : State) : Idle s s := ⟨.refl _, rfl, rfl, rfl, rfl, rfl, rfl⟩

theorem Idle.trans {s s' s'' : State} (h : Idle s s') (k : Idle s' s'') : Idle s s'' :=
  ⟨h.registry.trans k.registry, k.specs.trans h.specs, k.tags.trans h.tags, k.outer.trans h.outer,
    k.errors.trans h.errors, k.returns.trans h.returns, k.loops.trans h.loops⟩

/-- A check in which nothing happens. -/
def Idles {α : Type} (c : Check α) : Prop := ∀ s, Idle s (outcome c s).2

namespace Idles

variable {α β : Type} {c : Check α}

theorem pure (a : α) : Idles (pure a : Check α) := Idle.refl

theorem throw (e : TypingError) : Idles (throw e : Check α) := Idle.refl

theorem lift (v : Verdict α) : Idles (liftM v : Check α) := by
  cases v <;> exact Idle.refl

theorem bind {k : α → Check β} (hc : Idles c) (hk : ∀ a, Idles (k a)) : Idles (c >>= k) := by
  intro s
  have hfirst := hc s
  rw [outcome_bind]
  cases h : outcome c s with
  | mk v s' =>
    rw [h] at hfirst
    cases v with
    | ok a => exact hfirst.trans (hk a s')
    | error e => exact hfirst

theorem get_bind {k : State → Check β} (hk : ∀ s, Idles (k s)) : Idles (get >>= k) := fun s => hk s s

theorem registry_bind {k : Registry → Check β} (hk : ∀ r, Idles (k r)) :
    Idles (Check.registry >>= k) := fun s => hk s.registry s

theorem ite {p : Prop} [Decidable p] {c d : Check α} (hc : Idles c) (hd : Idles d) :
    Idles (if p then c else d) := by
  split
  · exact hc
  · exact hd

/-- Past a test that only fails. -/
theorem guard {p : Prop} [Decidable p] {c : Check PUnit} {k : PUnit → Check β} (hc : Idles c)
    (hk : Idles (k ⟨⟩)) : Idles (if p then c >>= k else k ⟨⟩) :=
  .ite (hc.bind fun _ => hk) hk

theorem rule (f : Registry → Verdict α) : Idles (rule f) := fun s => by
  rw [outcome_rule]
  exact .refl s

theorem intern {ty : Ty} (hty : ∀ s, ty ≠ .struct s) (span : Span) :
    Idles (Check.intern (·.intern ty) span) := fun s => by
  rw [outcome_intern]
  cases h : s.registry.intern ty with
  | error e => exact .refl s
  | ok y => exact ⟨(Interns.intern h hty).1, rfl, rfl, rfl, rfl, rfl, rfl⟩

theorem pointerTo (t : TypeId) (span : Span) : Idles (pointerTo t span) :=
  .intern (fun _ h => by cases h) span

theorem arrayOf (t : TypeId) (length : Nat) (span : Span) : Idles (arrayOf t length span) :=
  .intern (fun _ h => by cases h) span

theorem decay (t : TypeId) (span : Span) : Idles (decay t span) := by
  refine registry_bind fun r => ?_
  split
  · exact pointerTo _ _
  · exact .pure _

/-- A symbol is no tag. -/
theorem define (sym : Symbol) : Idles (define sym) := fun s => by
  unfold Check.define
  rw [outcome_enter]
  unfold Scope.define
  cases s.scope.inner.symbol? sym.name with
  | some _ => exact .refl s
  | none => exact ⟨.refl _, rfl, rfl, rfl, rfl, rfl, rfl⟩

end Idles

/-! The checks that resolve nothing. -/

section Checks

theorem idles_checkWritten (depth : Nat) (span : Span) : Idles (checkWritten depth span) :=
  .registry_bind fun _ => .ite (.throw _) (.pure _)

theorem idles_checkElement (t : TypeId) (span : Span) : Idles (checkElement t span) :=
  .registry_bind fun _ => .ite (.throw _) (.pure _)

theorem idles_nameType (name : String) (span : Span) : Idles (nameType name span) := by
  refine .get_bind fun s => ?_
  split
  · exact .throw _
  · exact .pure _
  · exact .throw _

theorem idles_calledFunction (callee : Expr) : Idles (calledFunction callee) := by
  unfold calledFunction
  split
  · refine .get_bind fun s => ?_
    split
    · exact .pure _
    · exact .registry_bind fun _ => .throw _
    · exact .throw _
  · exact .throw _

theorem idles_checkArgumentCount (sig : Signature) (got : Nat) (span : Span) :
    Idles (checkArgumentCount sig got span) :=
  .ite (.throw _) (.pure _)

theorem idles_checkArgument (param : Option TypeId) (t : TypeId) (arg : Expr) :
    Idles (checkArgument param t arg) := by
  unfold checkArgument
  split
  · exact .rule _
  · exact .registry_bind fun _ => .ite (.throw _) (.pure _)

theorem idles_checkTarget (target : Expr) (t : TypeId) : Idles (checkTarget target t) :=
  .guard (.throw _) (.registry_bind fun _ => .ite (.throw _) (.pure _))

theorem idles_checkAssignment (op : Option BinaryOp) (t v : TypeId) (source : Expr) (span : Span) :
    Idles (checkAssignment op t v source span) := by
  unfold checkAssignment
  split
  · exact (Idles.rule _).bind fun _ => .pure _
  · exact (Idles.rule _).bind fun _ => .pure _

theorem idles_checkStepped (operand : Expr) (t : TypeId) (span : Span) :
    Idles (checkStepped operand t span) :=
  .registry_bind fun _ => .guard (.throw _) (.guard (.rule _) (.pure _))

theorem idles_checkIndex (base subscript : TypeId) (index : Expr) (span : Span) :
    Idles (checkIndex base subscript index span) :=
  .registry_bind fun _ => .guard (.throw _) (.rule _)

theorem idles_addressType (operand : Expr) (t : TypeId) (span : Span) :
    Idles (addressType operand t span) :=
  .guard (.throw _) (.pointerTo _ _)

theorem idles_blockType (b : Block) (span : Span) : Idles (blockType b span) := by
  unfold blockType
  split
  · exact .decay _ _
  · exact .pure _

theorem idles_checkReturn (t : Verdict TypeId) (e : Expr) : Idles (checkReturn t e) := by
  refine (Idles.lift t).bind fun t => .get_bind fun s => ?_
  split
  · exact .registry_bind fun _ => .guard (.throw _) (.rule _)
  · exact .pure _

theorem idles_checkStringInit (element : TypeId) (length : Nat) (text : String) (span : Span) :
    Idles (checkStringInit element length text span) :=
  .registry_bind fun _ => .guard (.throw _) (.ite (.throw _) (.pure _))

theorem idles_checkConstantInit (isGlobal : Bool) (e : Expr) : Idles (checkConstantInit isGlobal e) :=
  .ite (.throw _) (.pure _)

theorem idles_checkExcess (cause : TypeCause) (items : List Initializer) (length : Nat) :
    Idles (checkExcess cause items length) := by
  unfold checkExcess
  split
  · exact .throw _
  · exact .pure _

theorem idles_inLoopOr (cause : NameCause) (span : Span) : Idles (inLoopOr cause span) :=
  .get_bind fun _ => .ite (.throw _) (.pure _)

theorem idles_declareFunction (name : String) (ret : TypeId) (sig : Signature) (span : Span) :
    Idles (declareFunction name ret sig span) := by
  refine .get_bind fun s => (Idles.lift _).bind fun sig => ?_
  exact fun s => ⟨.refl _, rfl, rfl, rfl, rfl, rfl, rfl⟩

theorem idles_defineParams : ∀ ps, Idles (defineParams ps)
  | [] => .pure _
  | p :: ps => by
    unfold defineParams
    split
    · exact (Idles.define _).bind fun _ => idles_defineParams ps
    · exact idles_defineParams ps

end Checks

/-! Steps. -/

/-- The type that is found for what is written. -/
def findType : Written → Check TypeId
  | .value ty => resolve ty
  | .object ty init => resolveObject ty init
  | .param ty => resolveParam ty
  | .struct spec => resolveSpec 1 spec

/-- What a run has done: types it has found or has not found, failures it has recorded, and what it
has done in scopes, loops and functions. -/
inductive Trace where
  | done
  | found (x : Written) (t : TypeId) (rest : Trace)
  | failed (x : Written) (rest : Trace)
  | recorded (e : TypingError) (rest : Trace)
  | scope (inner rest : Trace)
  | loop (inner rest : Trace)
  | function (inner rest : Trace)

namespace Trace

def append : Trace → Trace → Trace
  | .done, tr => tr
  | .found x t rest, tr => .found x t (rest.append tr)
  | .failed x rest, tr => .failed x (rest.append tr)
  | .recorded e rest, tr => .recorded e (rest.append tr)
  | .scope inner rest, tr => .scope inner (rest.append tr)
  | .loop inner rest, tr => .loop inner (rest.append tr)
  | .function inner rest, tr => .function inner (rest.append tr)

/-- All that was looked for. -/
def all : Trace → List Written
  | .done => []
  | .found x _ rest | .failed x rest => x :: rest.all
  | .recorded _ rest => rest.all
  | .scope inner rest | .loop inner rest | .function inner rest => inner.all ++ rest.all

/-- All that was found. -/
def pairs : Trace → List (Written × TypeId)
  | .done => []
  | .found x t rest => (x, t) :: rest.pairs
  | .failed _ rest | .recorded _ rest => rest.pairs
  | .scope inner rest | .loop inner rest | .function inner rest => inner.pairs ++ rest.pairs

/-- All failures that were recorded. -/
def errors : Trace → List TypingError
  | .done => []
  | .found _ _ rest | .failed _ rest => rest.errors
  | .recorded e rest => e :: rest.errors
  | .scope inner rest | .loop inner rest | .function inner rest => inner.errors ++ rest.errors

variable (tr tr' : Trace)

@[simp]
theorem all_append : (tr.append tr').all = tr.all ++ tr'.all := by
  induction tr <;> simp_all [append, all]

@[simp]
theorem pairs_append : (tr.append tr').pairs = tr.pairs ++ tr'.pairs := by
  induction tr <;> simp_all [append, pairs]

@[simp]
theorem errors_append : (tr.append tr').errors = tr.errors ++ tr'.errors := by
  induction tr <;> simp_all [append, errors]

end Trace

/-- From one state to another in so many steps, with idleness between them. -/
inductive Steps : Trace → State → State → Prop
  | done {s s'} : Idle s s' → Steps .done s s'
  | found {x t rest s s₀ s₁ s'} : Idle s s₀ → outcome (findType x) s₀ = (.ok t, s₁) →
      Steps rest s₁ s' → Steps (.found x t rest) s s'
  | failed {x e rest s s₀ s₁ s'} : Idle s s₀ → outcome (findType x) s₀ = (.error e, s₁) →
      Steps rest s₁ s' → Steps (.failed x rest) s s'
  | recorded {e rest s s₀ s'} : Idle s s₀ →
      Steps rest { s₀ with errors := s₀.errors.push e } s' → Steps (.recorded e rest) s s'
  | scope {inner rest s s₀ s₁ s'} : Idle s s₀ → Steps inner { s₀ with scope := s₀.scope.push } s₁ →
      Steps rest { s₁ with scope := s₁.scope.pop } s' → Steps (.scope inner rest) s s'
  | loop {inner rest s s₀ s₁ s'} : Idle s s₀ →
      Steps inner { s₀ with loopDepth := s₀.loopDepth + 1 } s₁ →
      Steps rest { s₁ with loopDepth := s₁.loopDepth - 1 } s' → Steps (.loop inner rest) s s'
  | function {ret inner rest s s₀ s₁ s'} : Idle s s₀ →
      Steps inner { s₀ with returns := some ret } s₁ →
      Steps rest { s₁ with returns := none } s' → Steps (.function inner rest) s s'

namespace Steps

variable {tr tr' : Trace} {s s₁ s' : State}

theorem after (h : Steps tr s₁ s') (hi : Idle s s₁) : Steps tr s s' := by
  cases h with
  | done hi' => exact .done (hi.trans hi')
  | found hi' hfind hrest => exact .found (hi.trans hi') hfind hrest
  | failed hi' hfind hrest => exact .failed (hi.trans hi') hfind hrest
  | recorded hi' hrest => exact .recorded (hi.trans hi') hrest
  | scope hi' hinner hrest => exact .scope (hi.trans hi') hinner hrest
  | loop hi' hinner hrest => exact .loop (hi.trans hi') hinner hrest
  | function hi' hinner hrest => exact .function (hi.trans hi') hinner hrest

theorem append (h : Steps tr s s₁) (h' : Steps tr' s₁ s') : Steps (tr.append tr') s s' := by
  induction h with
  | done hi => exact h'.after hi
  | found hi hfind _ ih => exact .found hi hfind (ih h')
  | failed hi hfind _ ih => exact .failed hi hfind (ih h')
  | recorded hi _ ih => exact .recorded hi (ih h')
  | scope hi hinner _ _ ih => exact .scope hi hinner (ih h')
  | loop hi hinner _ _ ih => exact .loop hi hinner (ih h')
  | function hi hinner _ _ ih => exact .function hi hinner (ih h')

end Steps

theorem quiet_findType (x : Written) : Quiet (findType x) := by
  cases x with
  | value ty => exact quiet_resolveAt 1 ty
  | object ty init => exact quiet_resolveObject ty init
  | param ty => exact quiet_resolveParam ty
  | struct spec => exact quiet_resolveSpec 1 spec

/-- The failures of a run are those that it has recorded. -/
theorem Steps.errors {tr : Trace} {s s' : State} (h : Steps tr s s') :
    s'.errors.toList = s.errors.toList ++ tr.errors := by
  induction h with
  | done hi => rw [hi.errors, Trace.errors, List.append_nil]
  | @found x t rest s s₀ s₁ s' hi hfind _ ih =>
    have hsame := (quiet_findType x s₀).errors
    rw [hfind] at hsame
    rw [ih, hsame, hi.errors, Trace.errors]
  | @failed x e rest s s₀ s₁ s' hi hfind _ ih =>
    have hsame := (quiet_findType x s₀).errors
    rw [hfind] at hsame
    rw [ih, hsame, hi.errors, Trace.errors]
  | recorded hi _ ih =>
    rw [ih, Array.toList_push, hi.errors, Trace.errors, List.append_assoc, List.singleton_append]
  | scope hi _ _ ihi ih => rw [ih, ihi, hi.errors, Trace.errors, List.append_assoc]
  | loop hi _ _ ihi ih => rw [ih, ihi, hi.errors, Trace.errors, List.append_assoc]
  | function hi _ _ ihi ih => rw [ih, ihi, hi.errors, Trace.errors, List.append_assoc]

/-- The steps of a whole run are those that the script asks for. The condition of a loop comes before
its body, wherever it stands. -/
inductive Enacts : Trace → Script → Prop
  | done : Enacts .done .done
  | found {x t tr o} : Enacts tr o → Enacts (.found x t tr) (.written x o)
  | scope {inner tr i o} : Enacts inner i → Enacts tr o → Enacts (.scope inner tr) (.scope i o)
  | doWhile {tr body cond o} : Enacts tr (cond.append (body.append o)) →
      Enacts tr (.doWhile body cond o)
  | loop {inner tr i o} : Enacts inner i → Enacts tr o → Enacts (.loop inner tr) (i.append o)
  | function {inner tr i o} : Enacts inner i → Enacts tr o → Enacts (.function inner tr) (i.append o)

theorem Enacts.append {tr tr' : Trace} {o o' : Script} (h : Enacts tr o) (h' : Enacts tr' o') :
    Enacts (tr.append tr') (o.append o') := by
  induction h with
  | done => exact h'
  | found _ ih => exact .found ih
  | scope hinner _ _ ih => exact .scope hinner ih
  | doWhile _ ih =>
    rw [Script.append_assoc, Script.append_assoc] at ih
    exact .doWhile ih
  | loop hinner _ _ ih =>
    rw [Script.append_assoc]
    exact .loop hinner ih
  | function hinner _ _ ih =>
    rw [Script.append_assoc]
    exact .function hinner ih

end Typing
end MiniC
