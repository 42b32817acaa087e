import Mathlib.Data.List.Forall2
import Mathlib.Data.List.Nodup
import MiniC.Proofs.Evaluation.Tree
import MiniC.Proofs.Lowering.Growth
/-!
Where the code of a function gets its storage. Every allocation writes a temporary of its own, so
the declarations of locals are numbered like the allocations in the code, and texts like the data.
Main statement: the straight parts of the code neither allocate nor add data.
-/
namespace MiniC.Lowering

open Code (Inst Operand Temp)
open Evaluation (Counters Scopes)
open Syntax

/-- The temporary that gets the address of new storage. -/
def allocated? : Inst → Option Temp
  | .alloca t _ _ => some t
  | _ => none

/-- In the order of the code. -/
def allocations (body : List Inst) : List Temp := body.filterMap allocated?

/-- The numbers that were given are those of the allocations and of the data. -/
structure Counted (k : Counters) (s : State) : Prop where
  locals : (allocations s.code.toList).length = k.locals
  texts : s.data.size = k.texts
  below : ∀ t ∈ allocations s.code.toList, t < s.temps
  nodup : (allocations s.code.toList).Nodup

/-- The same names are bound, and each to the temporary of its declaration. -/
def Bindings (slots : List Temp) : Scopes → Slots → Prop :=
  List.Forall₂ (List.Forall₂ fun x y => x.1 = y.1 ∧ slots[x.2]? = some y.2)

/-- The scopes and the numbers with which a tree is evaluated fit the state in which it is
lowered. -/
structure Agrees (scopes : Scopes) (k : Counters) (s : State) : Prop extends Counted k s where
  bindings : Bindings (allocations s.code.toList) scopes s.slots

section Scopes

variable {slots slots' : List Temp} {scopes : Scopes} {names : Slots} {scope : List (String × Nat)}
  {bound : List (String × Temp)} {name : String} {j : Nat} {t : Temp}

theorem getElem?_of_prefix {α : Type} {xs ys : List α} {i : Nat} {x : α} (h : xs <+: ys)
    (hx : xs[i]? = some x) : ys[i]? = some x := by
  obtain ⟨rest, rfl⟩ := h
  have hi : i < xs.length := (List.getElem?_eq_some_iff.mp hx).1
  rw [List.getElem?_append_left hi]
  exact hx

theorem Bindings.mono (h : Bindings slots scopes names) (hs : slots <+: slots') :
    Bindings slots' scopes names :=
  h.imp fun _ _ hscope => hscope.imp fun _ _ hx => ⟨hx.1, getElem?_of_prefix hs hx.2⟩

theorem lookup_bindings (name : String)
    (h : List.Forall₂ (fun x y => x.1 = y.1 ∧ slots[x.2]? = some y.2) scope bound) :
    match scope.lookup name with
    | some j => ∃ t, bound.lookup name = some t ∧ slots[j]? = some t
    | none => bound.lookup name = none := by
  induction h with
  | nil => rfl
  | @cons x y scope bound hxy _ ih =>
    obtain ⟨m, j⟩ := x
    obtain ⟨m', t⟩ := y
    obtain ⟨rfl, hj⟩ := hxy
    by_cases hm : name = m
    · subst hm
      simp only [List.lookup_cons, beq_self_eq_true]
      exact ⟨t, rfl, hj⟩
    · simpa only [List.lookup_cons, beq_eq_false_iff_ne.mpr hm, cond_false] using ih

/-- A name means the same local in the tree and in the code. -/
theorem Bindings.slot? (h : Bindings slots scopes names) (name : String) :
    match scopes.findSome? (·.lookup name) with
    | some j => ∃ t, Lowering.slot? names name = some t ∧ slots[j]? = some t
    | none => Lowering.slot? names name = none := by
  induction h with
  | nil => rfl
  | @cons scope bound scopes names hscope _ ih =>
    have hlookup := lookup_bindings name hscope
    unfold Lowering.slot? at ih ⊢
    rw [List.findSome?_cons, List.findSome?_cons]
    cases hj : scope.lookup name with
    | some j =>
      rw [hj] at hlookup
      obtain ⟨t, ht, hslot⟩ := hlookup
      rw [ht]
      exact ⟨t, rfl, hslot⟩
    | none =>
      rw [hj] at hlookup
      rw [hlookup]
      exact ih

end Scopes

/-! Code that gets no storage. -/

/-- An action that emits no allocation and adds no data. -/
def Plain (act : Lower α) : Prop :=
  ∀ s a s', act s = .ok (a, s') → s.temps ≤ s'.temps ∧ s'.data = s.data ∧ s'.slots = s.slots ∧
    allocations s'.code.toList = allocations s.code.toList

theorem Plain.agrees {α : Type} {act : Lower α} {s s' : State} {a : α} {scopes : Scopes}
    {k : Counters} (h : Plain act) (hrun : act s = .ok (a, s')) (hs : Agrees scopes k s) :
    Agrees scopes k s' := by
  obtain ⟨htemps, hdata, hslots, hcode⟩ := h s a s' hrun
  refine ⟨⟨?_, ?_, ?_, ?_⟩, ?_⟩
  · rw [hcode]
    exact hs.locals
  · rw [hdata]
    exact hs.texts
  · intro t ht
    rw [hcode] at ht
    exact Nat.lt_of_lt_of_le (hs.below t ht) htemps
  · rw [hcode]
    exact hs.nodup
  · rw [hcode, hslots]
    exact hs.bindings

namespace Plain

variable {α β : Type}

theorem pure (a : α) : Plain (pure a : Lower α) := by
  intro s b s' h
  obtain ⟨rfl, rfl⟩ := pure_eq_ok.mp h
  exact ⟨Nat.le_refl _, rfl, rfl, rfl⟩

theorem bind {x : Lower α} {k : α → Lower β} (hx : Plain x) (hk : ∀ a, Plain (k a)) :
    Plain (x >>= k) := by
  intro s b s' h
  obtain ⟨a, t, hrun, hrest⟩ := bind_eq_ok.mp h
  obtain ⟨htemps, hdata, hslots, hcode⟩ := hx s a t hrun
  obtain ⟨htemps', hdata', hslots', hcode'⟩ := hk a t b s' hrest
  exact ⟨Nat.le_trans htemps htemps', hdata'.trans hdata, hslots'.trans hslots,
    hcode'.trans hcode⟩

theorem need (e : LoweringError) (o : Option α) : Plain (need e o) := by
  intro s a s' h
  obtain ⟨-, rfl⟩ := need_eq_ok.mp h
  exact ⟨Nat.le_refl _, rfl, rfl, rfl⟩

theorem ite {c : Prop} [Decidable c] {x y : Lower α} (hx : Plain x) (hy : Plain y) :
    Plain (if c then x else y) := by
  split
  · exact hx
  · exact hy

theorem emit {i : Inst} (hi : allocated? i = none) : Plain (emit i) := by
  intro s u s' h
  obtain rfl := emit_eq_ok.mp h
  refine ⟨Nat.le_refl _, rfl, rfl, ?_⟩
  simp [allocations, hi]

theorem freshTemp : Plain freshTemp := by
  intro s t s' h
  cases h
  exact ⟨Nat.le_succ _, rfl, rfl, rfl⟩

theorem freshLabel (kind : String) : Plain (freshLabel kind) := by
  intro s l s' h
  cases h
  exact ⟨Nat.le_refl _, rfl, rfl, rfl⟩

theorem define {make : Temp → Inst} (hmake : ∀ t, allocated? (make t) = none) :
    Plain (define make) :=
  freshTemp.bind fun t => (emit (hmake t)).bind fun _ => pure _

theorem variableAddress (name : String) : Plain (variableAddress name) := by
  intro s a s' h
  obtain ⟨_, _, hget, h⟩ := bind_eq_ok.mp h
  cases hget
  cases hslot : slot? s.slots name with
  | none =>
    simp only [hslot] at h
    exact define (fun _ => rfl) _ _ _ h
  | some slot =>
    simp only [hslot] at h
    exact pure _ _ _ _ h

end Plain

section Parts

variable (r : Registry)

theorem plain_convert (v : Operand) (ty : TypeId) : Plain (convert r v ty) := by
  unfold convert
  split
  · exact .pure v
  · split
    · exact .pure v
    · split
      · exact .pure _
      · exact .define fun _ => rfl

theorem plain_scale (v : Operand) (stride : Int64) : Plain (scale v stride) := by
  unfold scale
  split
  · exact .pure v
  · split
    · exact .pure _
    · exact .define fun _ => rfl

theorem plain_arithmetic (op : BinaryOp) (left : Operand) (leftTy : TypeId) (right : Operand)
    (rightTy result : TypeId) : Plain (arithmetic r op left leftTy right rightTy result) := by
  fun_cases arithmetic r op left leftTy right rightTy result
  · exact (plain_scale _ _).bind fun _ => .define fun _ => rfl
  · exact (plain_scale _ _).bind fun _ => .define fun _ => rfl
  · exact (plain_scale _ _).bind fun _ => .define fun _ => rfl
  · exact (Plain.define fun _ => rfl).bind fun _ => .ite (.define fun _ => rfl) (.pure _)
  · exact .ite (.define fun _ => rfl) ((Plain.define fun _ => rfl).bind fun _ => plain_convert r _ _)

theorem plain_address (p : Place) : Plain p.address := by
  unfold Place.address
  split
  · exact .pure _
  · split
    · exact .pure _
    · exact .define fun _ => rfl

theorem plain_load (p : Place) : Plain (p.load r) := by
  unfold Place.load
  split
  · exact plain_address p
  · split
    · exact .define fun _ => rfl
    · exact .pure _

theorem plain_store (p : Place) (v : Operand) : Plain (p.store r v) :=
  (Plain.need _ _).bind fun _ => .emit rfl

theorem plain_copyMoves (dst src : Place) (ms : List ScalarMove) :
    Plain (Place.copyMoves dst src ms) := by
  induction ms with
  | nil => exact .pure ()
  | cons m ms ih => exact (Plain.define fun _ => rfl).bind fun _ => (Plain.emit rfl).bind fun _ => ih

theorem plain_zeroMoves (p : Place) (ms : List ScalarMove) : Plain (Place.zeroMoves p ms) := by
  induction ms with
  | nil => exact .pure ()
  | cons m ms ih => exact (Plain.emit rfl).bind fun _ => ih

theorem plain_storeBytes (p : Place) (bs : List UInt8) : Plain (p.storeBytes bs) := by
  induction bs generalizing p with
  | nil => exact .pure ()
  | cons b bs ih => exact (Plain.emit rfl).bind fun _ => ih _

end Parts

/-! Code that gets storage, and data. -/

section Storage

variable {scopes : Scopes} {k : Counters} {s s' : State}

theorem Agrees.allocate {r : Registry} {ty : TypeId} {t : Temp} (hs : Agrees scopes k s)
    (hrun : allocate r ty s = .ok (t, s')) :
    Agrees scopes { k with locals := k.locals + 1 } s' ∧
      (allocations s'.code.toList)[k.locals]? = some t := by
  obtain ⟨_, _, hfresh, h⟩ := bind_eq_ok.mp hrun
  obtain ⟨⟨⟩, _, hemit, h⟩ := bind_eq_ok.mp h
  obtain ⟨rfl, rfl⟩ := pure_eq_ok.mp h
  cases hfresh
  obtain rfl := emit_eq_ok.mp hemit
  have hcode : allocations (s.code.push (.alloca s.temps (r.sizeOf ty) (r.alignOf ty))).toList =
      allocations s.code.toList ++ [s.temps] := by
    simp [allocations, allocated?]
  refine ⟨⟨⟨?_, hs.texts, ?_, ?_⟩, ?_⟩, ?_⟩ <;> simp only [hcode]
  · rw [List.length_append, hs.locals, List.length_singleton]
  · intro t ht
    rcases List.mem_append.mp ht with ht | ht
    · exact Nat.lt_succ_of_lt (hs.below t ht)
    · rw [List.mem_singleton.mp ht]
      exact Nat.lt_succ_self _
  · refine List.nodup_append.mpr ⟨hs.nodup, List.nodup_singleton _, ?_⟩
    rintro t ht u hu rfl
    have hlt := hs.below t ht
    rw [List.mem_singleton.mp hu] at hlt
    exact Nat.lt_irrefl _ hlt
  · exact hs.bindings.mono (List.prefix_append _ _)
  · rw [← hs.locals, List.getElem?_concat_length]

theorem Agrees.addText {text : String} {l : Code.Label} (hs : Agrees scopes k s)
    (hrun : addText text s = .ok (l, s')) :
    Agrees scopes { k with texts := k.texts + 1 } s' ∧ l = textLabel k.texts ∧
      l ∈ s'.data.toList.map (·.label) := by
  cases hrun
  refine ⟨⟨⟨hs.locals, ?_, hs.below, hs.nodup⟩, hs.bindings⟩, ?_, ?_⟩
  · simp [hs.texts]
  · rw [hs.texts]
    rfl
  · simp

theorem Agrees.bind {name : String} {j : Nat} {t : Temp} {u : Unit} (hs : Agrees scopes k s)
    (hj : (allocations s.code.toList)[j]? = some t) (hrun : bind name t s = .ok (u, s')) :
    Agrees (scopes.declare name j) k s' := by
  cases hrun
  obtain ⟨code, temps, labels, data, slots⟩ := s
  obtain ⟨hcounted, hbindings⟩ := hs
  refine ⟨⟨hcounted.locals, hcounted.texts, hcounted.below, hcounted.nodup⟩, ?_⟩
  cases hbindings with
  | nil => exact .nil
  | cons hscope houter => exact .cons (.cons ⟨rfl, hj⟩ hscope) houter

theorem Agrees.push (hs : Agrees scopes k s) :
    Agrees ([] :: scopes) k { s with slots := [] :: s.slots } :=
  ⟨⟨hs.locals, hs.texts, hs.below, hs.nodup⟩, List.Forall₂.cons .nil hs.bindings⟩

end Storage

end MiniC.Lowering
