import Mathlib.Data.Set.Insert
import MiniC.Proofs.Lowering.Closure
/-!
Lowering only adds: code, data, temporaries and labels grow at their ends, and the scopes around the
innermost one stay as they are. Main statements: what expressions and statements add leaves every
binding as it was, what block items add leaves the outer scopes as they were, and none of it writes a
temporary that there was before.
-/
namespace MiniC.Lowering

open Syntax
open Code (Inst Label Operand Temp)

/-! Running a sequence of actions. -/

section Running

variable {α β : Type} {s s' : State} {a : α} {b : β}

theorem bind_eq_ok {x : Lower α} {k : α → Lower β} :
    (x >>= k) s = .ok (b, s') ↔ ∃ a t, x s = .ok (a, t) ∧ k a t = .ok (b, s') := by
  show (x s >>= fun y => k y.1 y.2) = .ok (b, s') ↔ _
  cases hx : x s with
  | error e => simp [Bind.bind, Except.bind]
  | ok y =>
    obtain ⟨a, t⟩ := y
    simp only [Bind.bind, Except.bind, Except.ok.injEq, Prod.mk.injEq]
    constructor
    · intro h
      exact ⟨a, t, ⟨rfl, rfl⟩, h⟩
    · rintro ⟨a', t', ⟨rfl, rfl⟩, h⟩
      exact h

theorem map_eq_ok {x : Lower α} {f : α → β} :
    (f <$> x) s = .ok (b, s') ↔ ∃ a, x s = .ok (a, s') ∧ f a = b := by
  show (x s >>= fun y => .ok (f y.1, y.2)) = .ok (b, s') ↔ _
  cases hx : x s with
  | error e => simp [Bind.bind, Except.bind]
  | ok y =>
    obtain ⟨a, t⟩ := y
    simp only [Bind.bind, Except.bind, Except.ok.injEq, Prod.mk.injEq]
    constructor
    · rintro ⟨rfl, rfl⟩
      exact ⟨a, ⟨rfl, rfl⟩, rfl⟩
    · rintro ⟨a', ⟨rfl, rfl⟩, rfl⟩
      exact ⟨rfl, rfl⟩

theorem pure_eq_ok : (pure a : Lower α) s = .ok (b', s') ↔ a = b' ∧ s = s' := by
  show (Except.ok (a, s) : Except LoweringError (α × State)) = .ok (b', s') ↔ _
  rw [Except.ok.injEq, Prod.mk.injEq]

theorem throw_ne_ok {e : LoweringError} : (throw e : Lower α) s ≠ .ok (a, s') := nofun

theorem need_eq_ok {e : LoweringError} {o : Option α} :
    need e o s = .ok (a, s') ↔ o = some a ∧ s = s' := by
  cases o with
  | none => simp [need, throw_ne_ok]
  | some b => simp [need, pure_eq_ok]

theorem emit_eq_ok {i : Inst} {u : Unit} :
    emit i s = .ok (u, s') ↔ s' = { s with code := s.code.push i } := by
  simp [emit, eq_comm]

theorem define_eq_ok {make : Temp → Inst} {v : Operand} :
    define make s = .ok (v, s') ↔
      v = .temp s.temps ∧
        s' = { s with code := s.code.push (make s.temps), temps := s.temps + 1 } := by
  simp only [define, bind_eq_ok, emit_eq_ok, pure_eq_ok, freshTemp, Except.ok.injEq,
    Prod.mk.injEq]
  constructor
  · rintro ⟨t, s₁, ⟨rfl, rfl⟩, _, s₂, rfl, rfl, rfl⟩
    exact ⟨rfl, rfl⟩
  · rintro ⟨rfl, rfl⟩
    exact ⟨_, _, ⟨rfl, rfl⟩, (), _, rfl, rfl, rfl⟩

theorem inScope_eq_ok {act : Lower α} :
    inScope act s = .ok (a, s') ↔
      ∃ t, act { s with slots := [] :: s.slots } = .ok (a, t) ∧
        s' = { t with slots := t.slots.tail } := by
  simp only [inScope, bind_eq_ok, pure_eq_ok]
  constructor
  · rintro ⟨_, _, hpush, b, t, hact, _, _, hpop, rfl, rfl⟩
    cases hpush
    cases hpop
    exact ⟨t, hact, rfl⟩
  · rintro ⟨t, hact, rfl⟩
    exact ⟨(), _, rfl, a, t, hact, (), _, rfl, rfl, rfl⟩

end Running

abbrev Slots := List (List (String × Temp))

/-- The label of a text. -/
def textLabel (n : Nat) : Label := s!".Lstr{n}"

/-- `view` says how much of the scopes stays. -/
structure Extends (view : Slots → Slots) (s s' : State) : Prop where
  code : s.code.toList <+: s'.code.toList
  temps : s.temps ≤ s'.temps
  labels : s.labels ≤ s'.labels
  data : s.data.toList <+: s'.data.toList
  slots : view s'.slots = view s.slots
  texts : ∀ n d, s'.data[n]? = some d → s.data[n]? = some d ∨ d.label = textLabel n

theorem Extends.refl (view : Slots → Slots) (s : State) : Extends view s s :=
  ⟨List.prefix_rfl, Nat.le_refl _, Nat.le_refl _, List.prefix_rfl, rfl, fun _ _ hd => .inl hd⟩

theorem Extends.trans {view : Slots → Slots} {s t u : State} (h : Extends view s t)
    (k : Extends view t u) : Extends view s u where
  code := h.code.trans k.code
  temps := Nat.le_trans h.temps k.temps
  labels := Nat.le_trans h.labels k.labels
  data := h.data.trans k.data
  slots := k.slots.trans h.slots
  texts n d hd := (k.texts n d hd).elim (h.texts n d) .inr

theorem Extends.tail {s t : State} (h : Extends id s t) : Extends List.tail s t :=
  { h with slots := congrArg List.tail h.slots }

theorem Extends.size_le {view : Slots → Slots} {s t : State} (h : Extends view s t) :
    s.code.size ≤ t.code.size := by
  have hle := h.code.length_le
  rwa [Array.length_toList, Array.length_toList] at hle

def Grows (view : Slots → Slots) (act : Lower α) : Prop :=
  ∀ s a s', act s = .ok (a, s') → Extends view s s'

namespace Grows

variable {α β : Type} {view : Slots → Slots}

theorem extends_of {act : Lower α} (h : Grows id act) {s s' : State} {a : α}
    (hrun : act s = .ok (a, s')) : Extends id s s' :=
  h s a s' hrun

theorem tail {act : Lower α} (h : Grows id act) : Grows List.tail act :=
  fun s a s' hrun => (h s a s' hrun).tail

theorem pure (a : α) : Grows view (pure a : Lower α) := by
  intro s b s' h
  obtain ⟨rfl, rfl⟩ := pure_eq_ok.mp h
  exact Extends.refl view s

theorem bind {x : Lower α} {k : α → Lower β} (hx : Grows view x) (hk : ∀ a, Grows view (k a)) :
    Grows view (x >>= k) := by
  intro s b s' h
  obtain ⟨a, t, hrun, hrest⟩ := bind_eq_ok.mp h
  exact (hx s a t hrun).trans (hk a t b s' hrest)

theorem map {x : Lower α} {f : α → β} (hx : Grows view x) : Grows view (f <$> x) := by
  intro s b s' h
  obtain ⟨a, hrun, -⟩ := map_eq_ok.mp h
  exact hx s a s' hrun

theorem of_map {x : Lower α} {f : α → β} (h : Grows view (f <$> x)) : Grows view x :=
  fun s a s' hx => h s (f a) s' (map_eq_ok.mpr ⟨a, hx, rfl⟩)

theorem throw (e : LoweringError) : Grows view (throw e : Lower α) :=
  fun _ _ _ h => absurd h throw_ne_ok

theorem need (e : LoweringError) (o : Option α) : Grows view (need e o) := by
  intro s a s' h
  obtain ⟨-, rfl⟩ := need_eq_ok.mp h
  exact Extends.refl view s

theorem ite {c : Prop} [Decidable c] {x y : Lower α} (hx : Grows view x) (hy : Grows view y) :
    Grows view (if c then x else y) := by
  split
  · exact hx
  · exact hy

theorem emit (i : Inst) : Grows view (emit i) := by
  intro s u s' h
  obtain rfl := emit_eq_ok.mp h
  exact ⟨by simp, Nat.le_refl _, Nat.le_refl _, List.prefix_rfl, rfl, fun _ _ hd => .inl hd⟩

theorem freshTemp : Grows view freshTemp := by
  intro s t s' h
  cases h
  exact ⟨List.prefix_rfl, Nat.le_succ _, Nat.le_refl _, List.prefix_rfl, rfl, fun _ _ hd => .inl hd⟩

theorem freshLabel (kind : String) : Grows view (freshLabel kind) := by
  intro s l s' h
  cases h
  exact ⟨List.prefix_rfl, Nat.le_refl _, Nat.le_succ _, List.prefix_rfl, rfl, fun _ _ hd => .inl hd⟩

theorem addText (text : String) : Grows view (addText text) := by
  intro s l s' h
  cases h
  refine ⟨List.prefix_rfl, Nat.le_refl _, Nat.le_refl _, by simp, rfl, fun n d hd => ?_⟩
  rw [Array.getElem?_push] at hd
  by_cases hn : n = s.data.size
  · rw [if_pos hn] at hd
    obtain rfl := Option.some.inj hd
    exact .inr (by rw [hn]; rfl)
  · rw [if_neg hn] at hd
    exact .inl hd

theorem define (make : Temp → Inst) : Grows view (define make) :=
  freshTemp.bind fun _ => (emit _).bind fun _ => pure _

theorem bindName (name : String) (slot : Temp) : Grows List.tail (Lowering.bind name slot) := by
  intro s u s' h
  cases h
  refine ⟨List.prefix_rfl, Nat.le_refl _, Nat.le_refl _, List.prefix_rfl, ?_, fun _ _ hd => .inl hd⟩
  dsimp only
  split
  · next hslots => rw [hslots]
  · next hslots => rw [hslots]; rfl

theorem inScope {act : Lower α} (h : Grows List.tail act) : Grows id (inScope act) := by
  intro s a s' hrun
  obtain ⟨t, hact, rfl⟩ := inScope_eq_ok.mp hrun
  obtain ⟨hcode, htemps, hlabels, hdata, hslots, htexts⟩ := h _ _ _ hact
  exact ⟨hcode, htemps, hlabels, hdata, hslots, htexts⟩

theorem variableAddress (name : String) : Grows view (variableAddress name) := by
  intro s a s' h
  obtain ⟨_, _, hget, h⟩ := bind_eq_ok.mp h
  cases hget
  cases hslot : slot? s.slots name with
  | none =>
    simp only [hslot] at h
    exact define _ _ _ _ h
  | some slot =>
    simp only [hslot] at h
    exact pure _ _ _ _ h

end Grows

theorem grows_allocate {view : Slots → Slots} (r : Registry) (ty : TypeId) :
    Grows view (allocate r ty) :=
  Grows.freshTemp.bind fun _ => (Grows.emit _).bind fun _ => .pure _

theorem grows_conditional {view : Slots → Slots} {cond yes no : Lower Operand} (hc : Grows view cond)
    (hy : Grows view yes) (hn : Grows view no) : Grows view (conditional cond yes no) :=
  hc.bind fun _ => (Grows.freshLabel _).bind fun _ => (Grows.freshLabel _).bind fun _ =>
    Grows.freshTemp.bind fun _ => (Grows.emit _).bind fun _ => hy.bind fun _ =>
    (Grows.emit _).bind fun _ => (Grows.emit _).bind fun _ => (Grows.emit _).bind fun _ =>
    hn.bind fun _ => (Grows.emit _).bind fun _ => (Grows.emit _).bind fun _ => .pure _

theorem grows_logical {view : Slots → Slots} {isAnd : Bool} {left right : Lower Operand}
    (hl : Grows view left) (hr : Grows view right) : Grows view (logical isAnd left right) :=
  Grows.freshTemp.bind fun _ => (Grows.freshLabel _).bind fun _ =>
    (Grows.freshLabel _).bind fun _ => hl.bind fun _ => (Grows.emit _).bind fun _ =>
    hr.bind fun _ => (Grows.define _).bind fun _ => (Grows.emit _).bind fun _ =>
    (Grows.emit _).bind fun _ => (Grows.emit _).bind fun _ => (Grows.emit _).bind fun _ =>
    (Grows.emit _).bind fun _ => .pure _

theorem closed_grows (view : Slots → Slots) : Closed (Grows view) where
  pure := .pure
  throw := .throw
  bind := .bind
  map := .map
  of_map := .of_map
  emit _ := .emit _
  define _ := .define _
  freshLabel := .freshLabel
  addText := .addText
  allocate := grows_allocate
  variableAddress := .variableAddress
  conditional := grows_conditional
  logical := grows_logical

/-- What binds names leaves the scopes around the innermost one. -/
theorem nested_grows : Nested (Grows id) (Grows List.tail) where
  inner := closed_grows id
  outer := closed_grows List.tail
  weaken := .tail
  inScope := .inScope
  bindName := .bindName

/-! Arithmetic, places and forms of expressions. -/

section Parts

variable {view : Slots → Slots} (r : Registry)

theorem grows_convert (v : Operand) (ty : TypeId) : Grows view (convert r v ty) :=
  (closed_grows view).convert r v ty

theorem grows_scale (v : Operand) (stride : Int64) : Grows view (scale v stride) :=
  (closed_grows view).scale v stride

theorem grows_arithmetic (op : BinaryOp) (left : Operand) (leftTy : TypeId) (right : Operand)
    (rightTy result : TypeId) : Grows view (arithmetic r op left leftTy right rightTy result) :=
  (closed_grows view).arithmetic r op left leftTy right rightTy result

theorem grows_address (p : Place) : Grows view p.address := (closed_grows view).address p

theorem grows_load (p : Place) : Grows view (p.load r) := (closed_grows view).load r p

theorem grows_store (p : Place) (v : Operand) : Grows view (p.store r v) :=
  (closed_grows view).store r p v

theorem grows_copyMoves (dst src : Place) (ms : List ScalarMove) :
    Grows view (Place.copyMoves dst src ms) :=
  (closed_grows view).copyMoves dst src ms

theorem grows_copy (dst src : Place) : Grows view (Place.copy r dst src) :=
  grows_copyMoves dst src _

theorem grows_zeroMoves (p : Place) (ms : List ScalarMove) : Grows view (Place.zeroMoves p ms) :=
  (closed_grows view).zeroMoves p ms

theorem grows_zero (p : Place) : Grows view (p.zero r) := grows_zeroMoves p _

theorem grows_storeBytes (p : Place) (bs : List UInt8) : Grows view (p.storeBytes bs) :=
  (closed_grows view).storeBytes p bs

theorem grows_loop {testsFirst : Bool} {test : Label → Lower Unit}
    {body : Label → Label → Lower Unit} {update : Lower Unit} (ht : ∀ l, Grows view (test l))
    (hb : ∀ l m, Grows view (body l m)) (hu : Grows view update) :
    Grows view (loop testsFirst test body update) :=
  (closed_grows view).loop ht hb hu

variable {code : Lower Lowered}

theorem grows_valueOf (h : Grows view code) : Grows view (valueOf r code) :=
  (closed_grows view).valueOf r h

theorem grows_placeOf (e : Expr) (h : Grows view code) : Grows view (placeOf e code) :=
  (closed_grows view).placeOf e h

theorem grows_storageOf (h : Grows view code) (offset : Int64) (ty : TypeId) :
    Grows view (storageOf code offset ty) :=
  (closed_grows view).storageOf h offset ty

theorem grows_cast {ty : TypeId} (v : Operand) : Grows view (cast r ty v) :=
  (closed_grows view).cast r v

end Parts

/-! Trees. -/

theorem grows_expr (c : Context) (e : Expr) : Grows id (expr c e) := nested_grows.expr c e

theorem grows_blockValue (c : Context) (is : List BlockItem) : Grows List.tail (blockValue c is) :=
  nested_grows.blockValue c is

theorem grows_blockItems (c : Context) (is : List BlockItem) : Grows List.tail (blockItems c is) :=
  nested_grows.blockItems c is

theorem grows_stmt (c : Context) (s : Stmt) : Grows id (stmt c s) := nested_grows.stmt c s

theorem grows_loopInit (c : Context) (i : Option LoopInit) : Grows List.tail (loopInit c i) :=
  nested_grows.loopInit c i

theorem grows_test (c : Context) (e : Option Expr) (l : Label) : Grows id (test c e l) :=
  nested_grows.test c e l

theorem grows_effect (c : Context) (e : Option Expr) : Grows id (effect c e) :=
  nested_grows.effect c e

theorem grows_initializer (c : Context) (target : Place) (i : Initializer) :
    Grows id (initializer c target i) :=
  nested_grows.initializer c target i

/-! What code writes. -/

/-- Of the temporaries that there were before, the code writes at most those in `A`. -/
def Spares (A : Set Temp) (act : Lower α) : Prop :=
  ∀ s a s', act s = .ok (a, s') → s.temps ≤ s'.temps ∧
    ∃ new, s'.code.toList = s.code.toList ++ new ∧
      ∀ i ∈ new, ∀ t, i.dst? = some t → t ∈ A ∨ s.temps ≤ t ∧ t < s'.temps

namespace Spares

variable {α β : Type} {A : Set Temp}

/-- What adds no code. -/
theorem silent {act : Lower α} (h : ∀ s a s', act s = .ok (a, s') → s'.temps = s.temps ∧ s'.code = s.code) :
    Spares A act := by
  intro s a s' hrun
  obtain ⟨htemps, hcode⟩ := h s a s' hrun
  exact ⟨htemps.ge, [], by rw [hcode, List.append_nil], nofun⟩

theorem pure (a : α) : Spares A (pure a : Lower α) :=
  silent fun s b s' h => by
    obtain ⟨-, rfl⟩ := pure_eq_ok.mp h
    exact ⟨rfl, rfl⟩

theorem throw (e : LoweringError) : Spares A (throw e : Lower α) := fun _ _ _ h => absurd h throw_ne_ok

theorem bind {x : Lower α} {k : α → Lower β} (hx : Spares A x) (hk : ∀ a, Spares A (k a)) :
    Spares A (x >>= k) := by
  intro s b s' h
  obtain ⟨a, t, hrun, hrest⟩ := bind_eq_ok.mp h
  obtain ⟨hst, new, hcode, hnew⟩ := hx s a t hrun
  obtain ⟨hts, new', hcode', hnew'⟩ := hk a t b s' hrest
  refine ⟨hst.trans hts, new ++ new', by rw [hcode', hcode, List.append_assoc], fun i hi u hu => ?_⟩
  rcases List.mem_append.mp hi with hi | hi
  · exact (hnew i hi u hu).imp_right fun h => ⟨h.1, h.2.trans_le hts⟩
  · exact (hnew' i hi u hu).imp_right fun h => ⟨hst.trans h.1, h.2⟩

theorem map {x : Lower α} {f : α → β} (hx : Spares A x) : Spares A (f <$> x) := by
  intro s b s' h
  obtain ⟨a, hrun, -⟩ := map_eq_ok.mp h
  exact hx s a s' hrun

theorem of_map {x : Lower α} {f : α → β} (h : Spares A (f <$> x)) : Spares A x :=
  fun s a s' hx => h s (f a) s' (map_eq_ok.mpr ⟨a, hx, rfl⟩)

theorem mono {A' : Set Temp} {x : Lower α} (h : Spares A x) (hA : A ⊆ A') : Spares A' x := by
  intro s a s' hrun
  obtain ⟨htemps, new, hcode, hnew⟩ := h s a s' hrun
  exact ⟨htemps, new, hcode, fun i hi t ht => (hnew i hi t ht).imp_left (@hA t)⟩

theorem emits {i : Inst} (hi : ∀ t, i.dst? = some t → t ∈ A) : Spares A (emit i) := by
  intro s u s' h
  obtain rfl := emit_eq_ok.mp h
  refine ⟨Nat.le_refl _, [i], Array.toList_push, fun j hj t ht => .inl ?_⟩
  obtain rfl := List.mem_singleton.mp hj
  exact hi t ht

theorem emit {i : Inst} (hi : i.dst? = none) : Spares A (emit i) :=
  emits fun t ht => by
    rw [hi] at ht
    cases ht

theorem result {i : Inst} {t : Temp} (hi : i.dst? = some t) : Spares (insert t A) (Lowering.emit i) :=
  emits fun _ hu => .inl (Option.some.inj (hu.symm.trans hi))

/-- A new temporary may be written by what follows. -/
theorem freshTemp_bind {k : Temp → Lower β} (hk : ∀ t, Spares (insert t A) (k t)) :
    Spares A (freshTemp >>= k) := by
  intro s b s' h
  obtain ⟨t, u, hfresh, hrest⟩ := bind_eq_ok.mp h
  cases hfresh
  obtain ⟨htemps, new, hcode, hnew⟩ := hk s.temps _ b s' hrest
  simp only at htemps
  refine ⟨by omega, new, hcode, fun i hi u hu => ?_⟩
  rcases hnew i hi u hu with (rfl | hA) | ⟨hle, hlt⟩
  · exact .inr ⟨Nat.le_refl _, htemps⟩
  · exact .inl hA
  · exact .inr ⟨by simp only at hle; omega, hlt⟩

theorem define {make : Temp → Inst} (hmake : ∀ t, (make t).dst? = some t) : Spares A (define make) :=
  freshTemp_bind fun t => (result (hmake t)).bind fun _ => pure _

theorem freshLabel (kind : String) : Spares A (freshLabel kind) :=
  silent fun s l s' h => by
    cases h
    exact ⟨rfl, rfl⟩

theorem addText (text : String) : Spares A (addText text) :=
  silent fun s l s' h => by
    cases h
    exact ⟨rfl, rfl⟩

theorem bindName (name : String) (slot : Temp) : Spares A (Lowering.bind name slot) :=
  silent fun s u s' h => by
    cases h
    exact ⟨rfl, rfl⟩

theorem allocate (r : Registry) (ty : TypeId) : Spares A (allocate r ty) :=
  freshTemp_bind fun _ => (result rfl).bind fun _ => pure _

theorem variableAddress (name : String) : Spares A (variableAddress name) := by
  intro s a s' h
  obtain ⟨_, _, hget, h⟩ := bind_eq_ok.mp h
  cases hget
  cases hslot : slot? s.slots name with
  | none =>
    simp only [hslot] at h
    exact define (fun _ => rfl) _ _ _ h
  | some slot =>
    simp only [hslot] at h
    exact pure _ _ _ _ h

theorem inScope {act : Lower α} (h : Spares A act) : Spares A (inScope act) := by
  intro s a s' hrun
  obtain ⟨t, hact, rfl⟩ := inScope_eq_ok.mp hrun
  obtain ⟨htemps, hcode⟩ := h _ _ _ hact
  exact ⟨htemps, hcode⟩

theorem conditional {cond yes no : Lower Operand} (hc : Spares A cond) (hy : Spares A yes)
    (hn : Spares A no) : Spares A (conditional cond yes no) :=
  hc.bind fun _ => (freshLabel _).bind fun _ => (freshLabel _).bind fun _ => freshTemp_bind fun t =>
    (emit rfl).bind fun _ => (hy.mono (Set.subset_insert t A)).bind fun _ => (result rfl).bind fun _ =>
    (emit rfl).bind fun _ => (emit rfl).bind fun _ => (hn.mono (Set.subset_insert t A)).bind fun _ =>
    (result rfl).bind fun _ => (emit rfl).bind fun _ => pure _

theorem logical {isAnd : Bool} {left right : Lower Operand} (hl : Spares A left) (hr : Spares A right) :
    Spares A (logical isAnd left right) :=
  freshTemp_bind fun t => (freshLabel _).bind fun _ => (freshLabel _).bind fun _ =>
    (hl.mono (Set.subset_insert t A)).bind fun _ => (emit (by cases isAnd <;> rfl)).bind fun _ =>
    (hr.mono (Set.subset_insert t A)).bind fun _ => (define fun _ => rfl).bind fun _ =>
    (result rfl).bind fun _ => (emit rfl).bind fun _ => (emit rfl).bind fun _ => (result rfl).bind fun _ =>
    (emit rfl).bind fun _ => pure _

end Spares

theorem closed_spares (A : Set Temp) : Closed (Spares A) where
  pure := .pure
  throw := .throw
  bind := .bind
  map := .map
  of_map := .of_map
  emit := .emit
  define := .define
  freshLabel := .freshLabel
  addText := .addText
  allocate := .allocate
  variableAddress := .variableAddress
  conditional := .conditional
  logical := .logical

theorem nested_spares (A : Set Temp) : Nested (Spares A) (Spares A) where
  inner := closed_spares A
  outer := closed_spares A
  weaken := id
  inScope := .inScope
  bindName := .bindName

end MiniC.Lowering
