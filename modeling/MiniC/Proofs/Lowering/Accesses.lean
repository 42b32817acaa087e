import MiniC.Proofs.Lowering.Functions
import MiniC.Proofs.Lowering.Offsets
import MiniC.Proofs.Typing.Annotated
/-!
The accesses in lowered code. Main statement: if memory may be accessed inside the object of each access
path, at the sum for the path reduced to a word, and inside whatever is declared, then the code of a tree
accesses nothing else, and a path is lowered to the place at that sum.
-/
namespace MiniC

open Syntax
open Code (Inst Label Operand Temp)
open Layout (maxObjectSize)
open Typing (Env HasType Initializes Initializes? InitializesAll Node Sensible Site)

/-- The offset at which an instruction accesses memory, and how many bytes. -/
def Code.Inst.access? : Inst → Option (Int64 × Nat)
  | .load _ _ offset access => some (offset, access.size)
  | .store _ offset _ size => some (offset, size)
  | _ => none

namespace Lowering

/-- So many bytes may be accessed at an offset. -/
abbrev Grant := Int64 → Nat → Prop

section Actions

variable {A : Grant} {α β : Type}

def Grant.Allows (A : Grant) (i : Inst) : Prop := ∀ o n, i.access? = some (o, n) → A o n

/-- What the action writes accesses only what is granted, and its result is as `Q` says. -/
def Accesses (A : Grant) (act : Lower α) (Q : α → Prop) : Prop :=
  ∀ ⦃s a s'⦄, act s = .ok (a, s') → (∀ i ∈ s.code.toList, A.Allows i) →
    (∀ i ∈ s'.code.toList, A.Allows i) ∧ Q a

namespace Accesses

variable {act : Lower α} {k : α → Lower β} {Q : α → Prop} {R : β → Prop} {i : Inst}

theorem pure {a : α} (h : Q a) : Accesses A (Pure.pure a : Lower α) Q := by
  intro s b s' hrun hs
  obtain ⟨rfl, rfl⟩ := pure_eq_ok.mp hrun
  exact ⟨hs, h⟩

theorem throw {e : LoweringError} : Accesses A (throw e : Lower α) Q :=
  fun _ _ _ hrun _ => absurd hrun throw_ne_ok

theorem bind (h : Accesses A act Q) (hk : ∀ a, Q a → Accesses A (k a) R) : Accesses A (act >>= k) R := by
  intro s b s' hrun hs
  obtain ⟨a, t, hact, hrest⟩ := bind_eq_ok.mp hrun
  obtain ⟨ht, hQ⟩ := h hact hs
  exact hk a hQ hrest ht

theorem map {f : α → β} (h : Accesses A act Q) (hf : ∀ a, Q a → R (f a)) :
    Accesses A (f <$> act) R := by
  intro s b s' hrun hs
  obtain ⟨a, hact, rfl⟩ := map_eq_ok.mp hrun
  obtain ⟨hs', hQ⟩ := h hact hs
  exact ⟨hs', hf a hQ⟩

theorem mono {Q' : α → Prop} (h : Accesses A act Q) (hQ : ∀ a, Q a → Q' a) : Accesses A act Q' :=
  fun _ _ _ hrun hs => ⟨(h hrun hs).1, hQ _ (h hrun hs).2⟩

theorem any (h : Accesses A act Q) : Accesses A act fun _ => True := h.mono fun _ _ => trivial

theorem of_map {f : α → β} (h : Accesses A (f <$> act) fun _ => True) : Accesses A act fun _ => True :=
  fun _ a _ hrun hs => ⟨(h (map_eq_ok.mpr ⟨a, hrun, rfl⟩) hs).1, trivial⟩

/-- What is known of the first result is not needed. -/
theorem andThen (h : Accesses A act Q) (hk : ∀ a, Accesses A (k a) R) : Accesses A (act >>= k) R :=
  h.bind fun a _ => hk a

theorem ite {c : Prop} [Decidable c] {act' : Lower α} (h : c → Accesses A act Q)
    (h' : ¬ c → Accesses A act' Q) : Accesses A (if c then act else act') Q := by
  split
  · exact h ‹_›
  · exact h' ‹_›

theorem need {e : LoweringError} {o : Option α} (h : ∀ a, o = some a → Q a) :
    Accesses A (need e o) Q := by
  intro s a s' hrun hs
  obtain ⟨ha, rfl⟩ := need_eq_ok.mp hrun
  exact ⟨hs, h a ha⟩

/-- An action that writes no code. -/
theorem silent (h : ∀ s a s', act s = .ok (a, s') → s'.code = s.code) :
    Accesses A act fun _ => True :=
  fun s a s' hrun hs => ⟨h s a s' hrun ▸ hs, trivial⟩

theorem emit (h : A.Allows i) : Accesses A (emit i) fun _ => True := by
  intro s u s' hrun hs
  obtain rfl := emit_eq_ok.mp hrun
  refine ⟨fun j hj => ?_, trivial⟩
  rw [Array.toList_push] at hj
  rcases List.mem_append.mp hj with hj | hj
  · exact hs j hj
  · exact List.mem_singleton.mp hj ▸ h

theorem freshTemp : Accesses A freshTemp fun _ => True := silent fun _ _ _ h => by cases h; rfl

theorem freshLabel (kind : String) : Accesses A (freshLabel kind) fun _ => True :=
  silent fun _ _ _ h => by cases h; rfl

theorem addText (text : String) : Accesses A (addText text) fun _ => True :=
  silent fun _ _ _ h => by cases h; rfl

theorem bindName (name : String) (slot : Temp) : Accesses A (Lowering.bind name slot) fun _ => True :=
  silent fun _ _ _ h => by cases h; rfl

theorem define {make : Temp → Inst} (h : ∀ t, A.Allows (make t)) :
    Accesses A (define make) fun _ => True :=
  freshTemp.andThen fun t => (emit (h t)).andThen fun _ => pure trivial

theorem inScope (h : Accesses A act Q) : Accesses A (inScope act) Q := by
  intro s a s' hrun hs
  obtain ⟨t, hact, rfl⟩ := inScope_eq_ok.mp hrun
  obtain ⟨ht, hQ⟩ := h hact hs
  exact ⟨ht, hQ⟩

end Accesses

/-- An instruction that accesses no memory may be written. -/
theorem Grant.allows_of_none {i : Inst} (h : i.access? = none) : A.Allows i := fun _ _ ho => by
  rw [h] at ho
  cases ho

theorem accesses_emit {i : Inst} (h : i.access? = none) : Accesses A (emit i) fun _ => True :=
  .emit (Grant.allows_of_none h)

theorem accesses_define {make : Temp → Inst} (h : ∀ t, (make t).access? = none) :
    Accesses A (define make) fun _ => True :=
  .define fun t => Grant.allows_of_none (h t)

theorem accesses_variableAddress (name : String) :
    Accesses A (variableAddress name) fun _ => True := by
  unfold variableAddress
  refine Accesses.andThen (Q := fun _ => True) (.silent fun _ _ _ h => by cases h; rfl) fun s => ?_
  split
  · exact .pure trivial
  · exact accesses_define fun _ => rfl

theorem accesses_allocate (r : Registry) (ty : TypeId) : Accesses A (allocate r ty) fun _ => True :=
  Accesses.freshTemp.andThen fun _ => (accesses_emit rfl).andThen fun _ => .pure trivial

end Actions

/-! Arithmetic and control. -/

section Shapes

variable {A : Grant} {r : Registry} {cond yes no left right : Lower Operand}

theorem accesses_convert (v : Operand) (ty : TypeId) : Accesses A (convert r v ty) fun _ => True := by
  unfold convert
  split
  · exact .pure trivial
  · refine .ite (fun _ => .pure trivial) fun _ => ?_
    split
    · exact .pure trivial
    · exact accesses_define fun _ => rfl

theorem accesses_scale (v : Operand) (stride : Int64) : Accesses A (scale v stride) fun _ => True := by
  unfold scale
  refine .ite (fun _ => .pure trivial) fun _ => ?_
  split
  · exact .pure trivial
  · exact accesses_define fun _ => rfl

theorem accesses_arithmetic (op : BinaryOp) (l : Operand) (leftTy : TypeId) (v : Operand)
    (rightTy result : TypeId) : Accesses A (arithmetic r op l leftTy v rightTy result) fun _ => True := by
  have hdefine (make : Temp → Inst) (h : ∀ t, (make t).access? = none) :
      Accesses A (define make) fun _ => True := accesses_define h
  unfold arithmetic
  split
  · exact (accesses_scale v _).andThen fun _ => hdefine _ fun _ => rfl
  · exact (accesses_scale v _).andThen fun _ => hdefine _ fun _ => rfl
  · exact (accesses_scale l _).andThen fun _ => hdefine _ fun _ => rfl
  · exact (hdefine _ fun _ => rfl).andThen fun _ =>
      .ite (fun _ => hdefine _ fun _ => rfl) fun _ => .pure trivial
  · exact .ite (fun _ => hdefine _ fun _ => rfl) fun _ =>
      (hdefine _ fun _ => rfl).andThen fun _ => accesses_convert _ _

theorem accesses_cast (v : Operand) (ty : TypeId) : Accesses A (cast r ty v) fun _ => True :=
  .ite (fun _ => .pure trivial) fun _ => accesses_convert v ty

theorem accesses_conditional (hc : Accesses A cond fun _ => True) (hy : Accesses A yes fun _ => True)
    (hn : Accesses A no fun _ => True) : Accesses A (conditional cond yes no) fun _ => True :=
  hc.andThen fun _ => (Accesses.freshLabel _).andThen fun _ => (Accesses.freshLabel _).andThen fun _ =>
    Accesses.freshTemp.andThen fun _ => (accesses_emit rfl).andThen fun _ => hy.andThen fun _ =>
    (accesses_emit rfl).andThen fun _ => (accesses_emit rfl).andThen fun _ =>
    (accesses_emit rfl).andThen fun _ => hn.andThen fun _ => (accesses_emit rfl).andThen fun _ =>
    (accesses_emit rfl).andThen fun _ => .pure trivial

theorem accesses_logical (isAnd : Bool) (hl : Accesses A left fun _ => True)
    (hr : Accesses A right fun _ => True) : Accesses A (logical isAnd left right) fun _ => True :=
  Accesses.freshTemp.andThen fun _ => (Accesses.freshLabel _).andThen fun _ =>
    (Accesses.freshLabel _).andThen fun _ => hl.andThen fun _ =>
    (accesses_emit (by cases isAnd <;> rfl)).andThen fun _ => hr.andThen fun _ =>
    (accesses_define fun _ => rfl).andThen fun _ => (accesses_emit rfl).andThen fun _ =>
    (accesses_emit rfl).andThen fun _ => (accesses_emit rfl).andThen fun _ =>
    (accesses_emit rfl).andThen fun _ => (accesses_emit rfl).andThen fun _ => .pure trivial

theorem accesses_ifOnly {body : Lower Unit} (hc : Accesses A cond fun _ => True)
    (hy : Accesses A body fun _ => True) : Accesses A (ifOnly cond body) fun _ => True :=
  hc.andThen fun _ => (Accesses.freshLabel _).andThen fun _ => (Accesses.freshLabel _).andThen fun _ =>
    (accesses_emit rfl).andThen fun _ => hy.andThen fun _ => accesses_emit rfl

theorem accesses_ifElse {body other : Lower Unit} (hc : Accesses A cond fun _ => True)
    (hy : Accesses A body fun _ => True) (hn : Accesses A other fun _ => True) :
    Accesses A (ifElse cond body other) fun _ => True :=
  hc.andThen fun _ => (Accesses.freshLabel _).andThen fun _ => (Accesses.freshLabel _).andThen fun _ =>
    (accesses_emit rfl).andThen fun _ => hy.andThen fun _ => (accesses_emit rfl).andThen fun _ =>
    (accesses_emit rfl).andThen fun _ => hn.andThen fun _ => accesses_emit rfl

theorem accesses_loop {testsFirst : Bool} {test : Label → Lower Unit}
    {body : Label → Label → Lower Unit} {update : Lower Unit} (ht : ∀ l, Accesses A (test l) fun _ => True)
    (hb : ∀ l m, Accesses A (body l m) fun _ => True) (hu : Accesses A update fun _ => True) :
    Accesses A (loop testsFirst test body update) fun _ => True := by
  have hround (top entry next stop : Label) : Accesses A (do
      emit (.label top); test stop; emit (.label entry); body stop next
      emit (.label next); update; emit (.jump top); emit (.label stop)) fun _ => True :=
    (accesses_emit rfl).andThen fun _ => (ht stop).andThen fun _ => (accesses_emit rfl).andThen fun _ =>
      (hb stop next).andThen fun _ => (accesses_emit rfl).andThen fun _ => hu.andThen fun _ =>
      (accesses_emit rfl).andThen fun _ => accesses_emit rfl
  exact (Accesses.freshLabel _).andThen fun _ => (Accesses.freshLabel _).andThen fun _ =>
    (Accesses.freshLabel _).andThen fun _ => (Accesses.freshLabel _).andThen fun _ =>
    .ite (fun _ => (accesses_emit rfl).andThen fun _ => hround _ _ _ _) fun _ => hround _ _ _ _

theorem accesses_leave (target : Option Label) : Accesses A (leave target) fun _ => True := by
  cases target with
  | none => exact .pure trivial
  | some l => exact accesses_emit rfl

theorem accesses_call (ty : TypeId) (callee : Expr) {args : Lower (List Operand)}
    (h : Accesses A args fun _ => True) : Accesses A (call r ty callee args) fun _ => True := by
  unfold call
  split
  · exact h.andThen fun _ =>
      .ite (fun _ => (accesses_emit rfl).andThen fun _ => .pure trivial) fun _ =>
        accesses_define fun _ => rfl
  · exact .throw

end Shapes

/-! Places. -/

/-- The object at a place may be accessed. -/
def Grant.Covers (A : Grant) (r : Registry) (p : Place) : Prop :=
  ∀ k n, k + n ≤ r.sizeOf p.ty → A (p.offset + Int64.ofNat k) n

/-- Any object may be accessed from its own address on. -/
def Grant.Objects (A : Grant) : Prop := ∀ k n, k + n ≤ maxObjectSize → A (Int64.ofNat k) n

section Places

variable {A : Grant} {r : Registry} {p dst src : Place}

theorem Grant.Covers.first (h : A.Covers r p) {n : Nat} (hn : n ≤ r.sizeOf p.ty) : A p.offset n := by
  have hzero := h 0 n (by omega)
  rwa [show Int64.ofNat 0 = 0 from rfl, Int64.add_zero] at hzero

theorem Grant.Objects.covers (h : A.Objects) {d : Nat} (hd : d + r.sizeOf p.ty ≤ maxObjectSize)
    (hp : p.offset = Int64.ofNat d) : A.Covers r p := by
  intro k n hk
  rw [hp, ← Int64.ofNat_add]
  exact h (d + k) n (by omega)

theorem accesses_address (p : Place) : Accesses A p.address fun _ => True := by
  unfold Place.address
  refine .ite (fun _ => .pure trivial) fun _ => ?_
  split
  · exact .pure trivial
  · exact accesses_define fun _ => rfl

theorem accesses_load (hc : r.Consistent) (h : A.Covers r p) : Accesses A (p.load r) fun _ => True := by
  unfold Place.load
  refine .ite (fun _ => accesses_address p) fun _ => ?_
  split
  · rename_i access haccess
    refine .define fun t o n ho => ?_
    obtain ⟨rfl, rfl⟩ := Prod.mk.inj (Option.some.inj ho)
    exact h.first (hc.access_size haccess).1.le
  · exact .pure trivial

theorem accesses_store (hc : r.Consistent) (h : A.Covers r p) (v : Operand) :
    Accesses A (p.store r v) fun _ => True := by
  refine Accesses.bind (Q := fun a => r.access? p.ty = some a) (.need fun _ ha => ha) fun a ha => .emit ?_
  intro o n ho
  obtain ⟨rfl, rfl⟩ := Prod.mk.inj (Option.some.inj ho)
  exact h.first (hc.access_size ha).1.le

theorem accesses_copy (hc : r.Consistent) (hdst : A.Covers r dst) (hsrc : A.Covers r src)
    (hty : src.ty = dst.ty) : Accesses A (Place.copy r dst src) fun _ => True := by
  suffices h : ∀ ms : List ScalarMove, (∀ m ∈ ms, m.offset + m.access.size ≤ r.sizeOf dst.ty) →
      Accesses A (Place.copyMoves dst src ms) fun _ => True from h _ fun _ hm => hc.move_inside dst.ty hm
  intro ms hms
  induction ms with
  | nil => exact .pure trivial
  | cons m ms ih =>
    obtain ⟨hm, hms⟩ := List.forall_mem_cons.mp hms
    refine (Accesses.define fun t o n ho => ?_).andThen fun v => (Accesses.emit fun o n ho => ?_).andThen
      fun _ => ih hms
    · obtain ⟨rfl, rfl⟩ := Prod.mk.inj (Option.some.inj ho)
      exact hsrc _ _ (hty ▸ hm)
    · obtain ⟨rfl, rfl⟩ := Prod.mk.inj (Option.some.inj ho)
      exact hdst _ _ hm

theorem accesses_zero (hc : r.Consistent) (h : A.Covers r p) : Accesses A (p.zero r) fun _ => True := by
  suffices hmoves : ∀ ms : List ScalarMove, (∀ m ∈ ms, m.offset + m.access.size ≤ r.sizeOf p.ty) →
      Accesses A (Place.zeroMoves p ms) fun _ => True from hmoves _ fun _ hm => hc.move_inside p.ty hm
  intro ms hms
  induction ms with
  | nil => exact .pure trivial
  | cons m ms ih =>
    obtain ⟨hm, hms⟩ := List.forall_mem_cons.mp hms
    refine (Accesses.emit fun o n ho => ?_).andThen fun _ => ih hms
    obtain ⟨rfl, rfl⟩ := Prod.mk.inj (Option.some.inj ho)
    exact h _ _ hm

/-- Each byte of a text is stored one further on. -/
theorem accesses_storeBytes (hA : A.Objects) {d : Nat} (hp : p.offset = Int64.ofNat d) (bs : List UInt8)
    (hd : d + bs.length ≤ maxObjectSize) : Accesses A (p.storeBytes bs) fun _ => True := by
  induction bs generalizing p d with
  | nil => exact .pure trivial
  | cons b bs ih =>
    rw [List.length_cons] at hd
    refine (Accesses.emit fun o n ho => ?_).andThen fun _ => ih (d := d + 1) ?_ (by omega)
    · obtain ⟨rfl, rfl⟩ := Prod.mk.inj (Option.some.inj ho)
      rw [hp]
      exact hA d 1 (by omega)
    · show p.offset + 1 = _
      rw [hp, Int64.ofNat_add]
      rfl

end Places

/-! Expressions. -/

/-- What an expression is lowered to lies at the offset of its path. -/
def Denotes (r : Registry) (e : Expr) : Lowered → Prop
  | .place p => p.offset = Int64.ofInt (pathOffset r e) ∧ e.ty = some p.ty
  | .value _ => pathOffset r e = 0

/-- The object of each path in a tree may be accessed. -/
def Grant.Reaches (A : Grant) (E : Env) (ns : List Node) : Prop :=
  ∀ n ∈ ns, Sensible E n ∧ ∀ e t, n = .expr e → e.ty = some t →
    ∀ k m : Nat, k + m ≤ E.registry.sizeOf t → A (Int64.ofInt (pathOffset E.registry e + k)) m

section Expressions

variable {A : Grant} {r : Registry} {e : Expr} {t : TypeId} {code : Lower Lowered} {source : Lower Operand}
  {target : Lower Place}

theorem Grant.reaches_append {E : Env} {ns ns' : List Node} :
    A.Reaches E (ns ++ ns') ↔ A.Reaches E ns ∧ A.Reaches E ns' :=
  List.forall_mem_append

theorem Grant.Reaches.covers {G : List Symbol} {p : Place} (h : A.Reaches ⟨r, G⟩ (Node.ofExpr e))
    (hp : Denotes r e (.place p)) : A.Covers r p := by
  intro k n hk
  obtain ⟨hoffset, hty⟩ := hp
  have hhere : Node.expr e ∈ Node.ofExpr e := by
    obtain ⟨kind, span, ty⟩ := e
    rw [Node.ofExpr]
    exact List.mem_cons_self
  have hgrant := (h _ hhere).2 e p.ty rfl hty k n hk
  rwa [Int64.ofInt_add, ofInt_natCast, ← hoffset] at hgrant

theorem accesses_valueOf {G : List Symbol} (hc : r.Consistent) (h : A.Reaches ⟨r, G⟩ (Node.ofExpr e))
    (hcode : Accesses A code (Denotes r e)) : Accesses A (valueOf r code) fun _ => True := by
  refine hcode.bind fun l hl => ?_
  cases l with
  | place p => exact accesses_load hc (h.covers hl)
  | value v => exact .pure trivial

theorem accesses_placeOf (h : Accesses A code (Denotes r e)) :
    Accesses A (placeOf e code) fun p => Denotes r e (.place p) := by
  refine h.bind fun l hl => ?_
  cases l with
  | place p => exact .pure hl
  | value v => exact .throw

theorem accesses_storageOf (h : Accesses A code (Denotes r e)) (d : Nat) (ty : TypeId) :
    Accesses A (storageOf code (Int64.ofNat d) ty) fun p =>
      p.offset = Int64.ofInt (pathOffset r e + d) ∧ p.ty = ty := by
  refine h.bind fun l hl => ?_
  cases l with
  | place p =>
    refine .pure ⟨?_, rfl⟩
    rw [Int64.ofInt_add, ofInt_natCast, ← hl.1]
    rfl
  | value v =>
    refine .pure ⟨?_, rfl⟩
    rw [show pathOffset r e = 0 from hl, Int.zero_add, ofInt_natCast]

theorem accesses_subscript {element : Place} {z : Int} (hz : element.offset = Int64.ofInt z) (size : Nat)
    (index : Expr) (hi : Accesses A source fun _ => True) :
    Accesses A (subscript element (Int64.ofNat size) index.constant? source) fun p =>
      p.offset = Int64.ofInt (z + subscriptOffset size index) ∧ p.ty = element.ty := by
  unfold subscriptOffset
  cases index.constant? with
  | some i =>
    refine .pure ⟨?_, rfl⟩
    rw [Option.elim_some, Int64.ofInt_add, Int64.ofInt_toInt, ← hz]
    rfl
  | none =>
    refine hi.andThen fun _ => (accesses_define fun _ => rfl).andThen fun _ =>
      (accesses_define fun _ => rfl).andThen fun _ => .pure ⟨?_, rfl⟩
    rw [Option.elim_none, Int.add_zero, ← hz]

variable (hc : r.Consistent) (hA : A.Objects)
include hc

theorem accesses_assignScalar (hs : Accesses A source fun _ => True)
    (ht : Accesses A target (A.Covers r ·)) :
    Accesses A (assignScalar r t source target) fun _ => True :=
  hs.andThen fun _ => (accesses_convert _ _).andThen fun _ => ht.bind fun _ hp =>
    (accesses_store hc hp _).andThen fun _ => .pure trivial

theorem accesses_assignCompound (op : BinaryOp) (e : Expr) (hs : Accesses A source fun _ => True)
    (ht : Accesses A target (A.Covers r ·)) :
    Accesses A (assignCompound r op t e source target) fun _ => True :=
  ht.bind fun _ hp => (accesses_load hc hp).andThen fun _ => hs.andThen fun _ =>
    (Accesses.need (Q := fun _ => True) fun _ _ => trivial).andThen fun _ =>
    (accesses_arithmetic _ _ _ _ _ _).andThen fun _ => (accesses_store hc hp _).andThen fun _ =>
    .pure trivial

theorem accesses_step (decrement yieldsOld : Bool) (ht : Accesses A target (A.Covers r ·)) :
    Accesses A (step r t decrement yieldsOld target) fun _ => True :=
  ht.bind fun _ hp => (accesses_load hc hp).andThen fun _ =>
    (accesses_define fun _ => rfl).andThen fun _ => (accesses_convert _ _).andThen fun _ =>
    (accesses_store hc hp _).andThen fun _ => .pure trivial

include hA

/-- A struct that is a value lies at its address. -/
theorem Grant.Objects.covers_value (v : Operand) (t : TypeId) : A.Covers r ⟨v, 0, t⟩ :=
  hA.covers (d := 0) (by rw [Nat.zero_add]; exact sizeOf_le hc t) rfl

theorem accesses_assignStruct (hs : Accesses A source fun _ => True)
    (ht : Accesses A target fun p => A.Covers r p ∧ p.ty = t) :
    Accesses A (assignStruct r t source target) fun _ => True :=
  hs.andThen fun v => ht.bind fun p hp =>
    (accesses_copy hc hp.1 (hA.covers_value hc v t) hp.2.symm).andThen fun _ => accesses_address p

end Expressions

/-! Trees. -/

section Trees

variable {A : Grant} {G : List Symbol}

mutual

theorem accesses_expr (c : Context) (hc : c.registry.Consistent) (hA : A.Objects) : ∀ e,
    A.Reaches ⟨c.registry, G⟩ (Node.ofExpr e) → Accesses A (expr c e) (Denotes c.registry e)
  | ⟨_, _, none⟩, _ => by
    rw [expr]
    exact .throw
  | ⟨kind, span, some t⟩, h => by
    rw [Node.ofExpr] at h
    rw [expr]
    obtain ⟨C, t', ht⟩ := (h _ List.mem_cons_self).1
    obtain rfl : t = t' := Option.some.inj ht.ty_eq
    exact accesses_exprKind c hc hA C t span kind ht fun n hn => h n (List.mem_cons_of_mem _ hn)

theorem accesses_exprKind (c : Context) (hc : c.registry.Consistent) (hA : A.Objects) (C : Site)
    (t : TypeId) (span : Span) : ∀ k, HasType ⟨c.registry, G⟩ C ⟨k, span, some t⟩ t →
      A.Reaches ⟨c.registry, G⟩ (Node.ofKind k) →
        Accesses A (exprKind c t k) (Denotes c.registry ⟨k, span, some t⟩)
  | .integer n, _, _ => by
    rw [exprKind]
    exact .pure rfl
  | .character b, _, _ => by
    rw [exprKind]
    exact .pure rfl
  | .string text, _, _ => by
    rw [exprKind]
    exact (Accesses.addText text).andThen fun _ => .pure rfl
  | .name name, _, _ => by
    rw [exprKind]
    exact (accesses_variableAddress name).andThen fun _ => .pure ⟨rfl, rfl⟩
  | .binary op left right, _, h => by
    rw [Node.ofKind, Grant.reaches_append] at h
    have hleft := accesses_valueOf hc h.1 (accesses_expr c hc hA left h.1)
    have hright := accesses_valueOf hc h.2 (accesses_expr c hc hA right h.2)
    rw [exprKind]
    refine .ite (fun _ => (accesses_logical _ hleft hright).map fun _ _ => rfl) fun _ => ?_
    exact hleft.andThen fun _ => hright.andThen fun _ =>
      (Accesses.need (Q := fun _ => True) fun _ _ => trivial).andThen fun _ =>
      (Accesses.need (Q := fun _ => True) fun _ _ => trivial).andThen fun _ =>
      (accesses_arithmetic _ _ _ _ _ _).map fun _ _ => rfl
  | .unary op operand, _, h => by
    rw [Node.ofKind] at h
    rw [exprKind]
    exact (accesses_valueOf hc h (accesses_expr c hc hA operand h)).andThen fun _ =>
      (accesses_define fun _ => rfl).andThen fun _ => (accesses_convert _ _).map fun _ _ => rfl
  | .assign op target source, htype, h => by
    rw [Node.ofKind, Grant.reaches_append] at h
    cases htype with
    | assign htarget _ _ _ _ =>
      have hsource := accesses_valueOf hc h.2 (accesses_expr c hc hA source h.2)
      have hplace := accesses_placeOf (accesses_expr c hc hA target h.1)
      have hcovers := hplace.mono fun _ hp => h.1.covers hp
      have hstruct := accesses_assignStruct (t := t) hc hA hsource (hplace.mono fun p hp =>
        ⟨h.1.covers hp, Option.some.inj (hp.2.symm.trans htarget.ty_eq)⟩)
      cases op with
      | none =>
        rw [exprKind]
        exact .ite (fun _ => hstruct.map fun _ _ => rfl) fun _ =>
          (accesses_assignScalar hc hsource hcovers).map fun _ _ => rfl
      | some op =>
        rw [exprKind]
        exact .ite (fun _ => hstruct.map fun _ _ => rfl) fun _ =>
          (accesses_assignCompound hc op source hsource hcovers).map fun _ _ => rfl
  | .conditional cond yes no, _, h => by
    rw [Node.ofKind, Grant.reaches_append, Grant.reaches_append] at h
    have hcond := accesses_valueOf hc h.1 (accesses_expr c hc hA cond h.1)
    have hyes := (accesses_valueOf hc h.2.1 (accesses_expr c hc hA yes h.2.1)).andThen
      fun v => accesses_convert (r := c.registry) v t
    have hno := (accesses_valueOf hc h.2.2 (accesses_expr c hc hA no h.2.2)).andThen
      fun v => accesses_convert (r := c.registry) v t
    rw [exprKind]
    exact (accesses_conditional hcond hyes hno).map fun _ _ => rfl
  | .call callee args, _, h => by
    rw [Node.ofKind] at h
    rw [exprKind]
    exact (accesses_call t callee (accesses_values c hc hA args h)).map fun _ _ => rfl
  | .index array index, _, h => by
    rw [Node.ofKind, Grant.reaches_append] at h
    have harray := accesses_expr c hc hA array h.1
    have hindex := accesses_valueOf hc h.2 (accesses_expr c hc hA index h.2)
    rw [exprKind]
    refine Accesses.bind (Q := fun a => array.ty = some a) (.need fun _ ha => ha) fun a ha => ?_
    have hrest {z : Int} {element : Place} (hz : element.offset = Int64.ofInt z ∧ element.ty = t)
        (hsum : pathOffset c.registry ⟨.index array index, span, some t⟩ =
          z + subscriptOffset (c.registry.sizeOf t) index) :
        Accesses A (.place <$> subscript element (Int64.ofNat (c.registry.sizeOf t)) index.constant?
          (valueOf c.registry (expr c index)))
          (Denotes c.registry ⟨.index array index, span, some t⟩) :=
      (accesses_subscript hz.1 _ index hindex).map fun p hp =>
        ⟨hsum ▸ hp.1, congrArg some (hp.2.trans hz.2).symm⟩
    have hsum : pathOffset c.registry ⟨.index array index, span, some t⟩ =
        (if c.registry.isArray a then pathOffset c.registry array else 0) +
          subscriptOffset (c.registry.sizeOf t) index := by
      rw [pathOffset, kindOffset, ha]
      rfl
    refine .ite (fun hisArray => ?_) fun hpointer => ?_
    · rw [if_pos hisArray] at hsum
      exact (accesses_storageOf harray 0 t).bind fun _ hz =>
        hrest ⟨hz.1.trans (congrArg _ (Int.add_zero _)), hz.2⟩ hsum
    · rw [if_neg hpointer] at hsum
      exact (accesses_valueOf hc h.1 harray).andThen fun v => hrest ⟨rfl, rfl⟩ hsum
  | .member object field resolved, htype, h => by
    rw [Node.ofKind] at h
    rw [exprKind]
    cases htype with
    | @member _ _ _ _ _ m _ _ =>
      refine Accesses.bind (Q := fun m' => m' = m) (.pure rfl) ?_
      rintro _ rfl
      exact (accesses_storageOf (accesses_expr c hc hA object h) _ _).map fun p hp =>
        ⟨hp.1, congrArg some hp.2.symm⟩
  | .pointerMember pointer field resolved, htype, h => by
    rw [Node.ofKind] at h
    rw [exprKind]
    cases htype with
    | @pointerMember _ _ _ _ _ _ m _ _ _ =>
      refine Accesses.bind (Q := fun m' => m' = m) (.pure rfl) ?_
      rintro _ rfl
      exact (accesses_valueOf hc h (accesses_expr c hc hA pointer h)).andThen fun _ =>
        .pure ⟨(ofInt_natCast _).symm, rfl⟩
  | .cast _ operand, _, h => by
    rw [Node.ofKind] at h
    rw [exprKind]
    exact (accesses_valueOf hc h (accesses_expr c hc hA operand h)).andThen fun _ =>
      (accesses_cast _ _).map fun _ _ => rfl
  | .query q operand, htype, _ => nomatch htype
  | .typeQuery q target, htype, _ => nomatch htype
  | .addressOf operand, _, h => by
    rw [Node.ofKind] at h
    rw [exprKind]
    exact (accesses_placeOf (accesses_expr c hc hA operand h)).andThen fun p =>
      (accesses_address p).map fun _ _ => rfl
  | .deref pointer, _, h => by
    rw [Node.ofKind] at h
    rw [exprKind]
    exact (accesses_valueOf hc h (accesses_expr c hc hA pointer h)).andThen fun _ => .pure ⟨rfl, rfl⟩
  | .step operand decrement yieldsOld, _, h => by
    rw [Node.ofKind] at h
    rw [exprKind]
    exact (accesses_step hc decrement yieldsOld ((accesses_placeOf (accesses_expr c hc hA operand h)).mono
      fun _ hp => h.covers hp)).map fun _ _ => rfl
  | .comma items, _, h => by
    rw [Node.ofKind] at h
    rw [exprKind]
    exact (accesses_lastValue c hc hA (.const 0) items h).map fun _ _ => rfl
  | .block ⟨items, _⟩, _, h => by
    rw [Node.ofKind] at h
    rw [exprKind]
    exact (accesses_blockValue c hc hA items h).inScope.map fun _ _ => rfl

theorem accesses_values (c : Context) (hc : c.registry.Consistent) (hA : A.Objects) : ∀ es,
    A.Reaches ⟨c.registry, G⟩ (Node.ofExprs es) → Accesses A (values c es) fun _ => True
  | [], _ => by
    rw [values]
    exact .pure trivial
  | e :: es, h => by
    rw [Node.ofExprs, Grant.reaches_append] at h
    rw [values]
    exact (accesses_valueOf hc h.1 (accesses_expr c hc hA e h.1)).andThen fun _ =>
      (accesses_values c hc hA es h.2).andThen fun _ => .pure trivial

theorem accesses_lastValue (c : Context) (hc : c.registry.Consistent) (hA : A.Objects) (last : Operand) :
    ∀ es, A.Reaches ⟨c.registry, G⟩ (Node.ofExprs es) → Accesses A (lastValue c last es) fun _ => True
  | [], _ => by
    rw [lastValue]
    exact .pure trivial
  | e :: es, h => by
    rw [Node.ofExprs, Grant.reaches_append] at h
    rw [lastValue]
    exact (accesses_valueOf hc h.1 (accesses_expr c hc hA e h.1)).andThen fun v =>
      accesses_lastValue c hc hA v es h.2

theorem accesses_blockValue (c : Context) (hc : c.registry.Consistent) (hA : A.Objects) : ∀ is,
    A.Reaches ⟨c.registry, G⟩ (Node.ofItems is) → Accesses A (blockValue c is) fun _ => True
  | [], _ => by
    rw [blockValue]
    exact .pure trivial
  | [.statement ⟨.expr e, _⟩], h => by
    rw [Node.ofItems, Node.ofItem, Node.ofStmt, Node.ofStmtKind, Grant.reaches_append] at h
    rw [blockValue]
    exact accesses_valueOf hc h.1 (accesses_expr c hc hA e h.1)
  | i :: is, h => by
    rw [Node.ofItems, Grant.reaches_append] at h
    have hitem := accesses_blockItem c hc hA i h.1
    have hrest := accesses_blockValue c hc hA is h.2
    rcases blockValue_cons c i is with heq | ⟨e, span, rfl, rfl, heq⟩
    · rw [heq]
      exact hitem.andThen fun _ => hrest
    · rw [heq]
      rw [blockItem, stmt, stmtKind] at hitem
      exact hitem.of_map

theorem accesses_blockItems (c : Context) (hc : c.registry.Consistent) (hA : A.Objects) : ∀ is,
    A.Reaches ⟨c.registry, G⟩ (Node.ofItems is) → Accesses A (blockItems c is) fun _ => True
  | [], _ => by
    rw [blockItems]
    exact .pure trivial
  | i :: is, h => by
    rw [Node.ofItems, Grant.reaches_append] at h
    rw [blockItems]
    exact (accesses_blockItem c hc hA i h.1).andThen fun _ => accesses_blockItems c hc hA is h.2

theorem accesses_blockItem (c : Context) (hc : c.registry.Consistent) (hA : A.Objects) : ∀ i,
    A.Reaches ⟨c.registry, G⟩ (Node.ofItem i) → Accesses A (blockItem c i) fun _ => True
  | .statement s, h => by
    rw [Node.ofItem] at h
    rw [blockItem]
    exact accesses_stmt c hc hA s h
  | .declaration d, h => by
    rw [Node.ofItem] at h
    rw [blockItem]
    exact accesses_declaration c hc hA d h

theorem accesses_stmt (c : Context) (hc : c.registry.Consistent) (hA : A.Objects) : ∀ s,
    A.Reaches ⟨c.registry, G⟩ (Node.ofStmt s) → Accesses A (stmt c s) fun _ => True
  | ⟨.expr e, _⟩, h => by
    rw [Node.ofStmt, Node.ofStmtKind] at h
    rw [stmt, stmtKind]
    exact (accesses_valueOf hc h (accesses_expr c hc hA e h)).map fun _ _ => trivial
  | ⟨.empty, _⟩, _ => by
    rw [stmt, stmtKind]
    exact .pure trivial
  | ⟨.block ⟨items, _⟩, _⟩, h => by
    rw [Node.ofStmt, Node.ofStmtKind] at h
    rw [stmt, stmtKind]
    exact (accesses_blockItems c hc hA items h).inScope
  | ⟨.if_ cond yes none, _⟩, h => by
    rw [Node.ofStmt, Node.ofStmtKind, Grant.reaches_append, Grant.reaches_append] at h
    rw [stmt, stmtKind]
    exact accesses_ifOnly (accesses_valueOf hc h.1 (accesses_expr c hc hA cond h.1))
      (accesses_stmt c hc hA yes h.2.1)
  | ⟨.if_ cond yes (some no), _⟩, h => by
    rw [Node.ofStmt, Node.ofStmtKind, Grant.reaches_append, Grant.reaches_append, Node.ofStmt?] at h
    rw [stmt, stmtKind]
    exact accesses_ifElse (accesses_valueOf hc h.1 (accesses_expr c hc hA cond h.1))
      (accesses_stmt c hc hA yes h.2.1) (accesses_stmt c hc hA no h.2.2)
  | ⟨.loop kind init cond update body, _⟩, h => by
    rw [Node.ofStmt, Node.ofStmtKind, Grant.reaches_append, Grant.reaches_append, Grant.reaches_append] at h
    rw [stmt, stmtKind]
    have hbody (stop next : Label) :=
      accesses_stmt { c with breakTo := some stop, continueTo := some next } hc hA body h.2.2.2
    exact ((accesses_loopInit c hc hA init h.1).andThen fun _ => accesses_loop
      (accesses_test c hc hA cond h.2.1) hbody (accesses_effect c hc hA update h.2.2.1)).inScope
  | ⟨.break_, _⟩, _ => by
    rw [stmt, stmtKind]
    exact accesses_leave _
  | ⟨.continue_, _⟩, _ => by
    rw [stmt, stmtKind]
    exact accesses_leave _
  | ⟨.return_ none, _⟩, _ => by
    rw [stmt, stmtKind]
    exact accesses_emit rfl
  | ⟨.return_ (some e), _⟩, h => by
    rw [Node.ofStmt, Node.ofStmtKind, Node.ofExpr?] at h
    rw [stmt, stmtKind]
    exact (accesses_valueOf hc h (accesses_expr c hc hA e h)).andThen fun _ =>
      (accesses_convert _ _).andThen fun _ => accesses_emit rfl

theorem accesses_loopInit (c : Context) (hc : c.registry.Consistent) (hA : A.Objects) : ∀ i,
    A.Reaches ⟨c.registry, G⟩ (Node.ofInit i) → Accesses A (loopInit c i) fun _ => True
  | none, _ => by
    rw [loopInit]
    exact .pure trivial
  | some (.expr e), h => by
    rw [Node.ofInit] at h
    rw [loopInit]
    exact (accesses_valueOf hc h (accesses_expr c hc hA e h)).map fun _ _ => trivial
  | some (.declaration d), h => by
    rw [Node.ofInit] at h
    rw [loopInit]
    exact accesses_declaration c hc hA d h

theorem accesses_test (c : Context) (hc : c.registry.Consistent) (hA : A.Objects) : ∀ e,
    A.Reaches ⟨c.registry, G⟩ (Node.ofExpr? e) → ∀ stop, Accesses A (test c e stop) fun _ => True
  | none, _, _ => by
    rw [test]
    exact .pure trivial
  | some e, h, _ => by
    rw [Node.ofExpr?] at h
    rw [test]
    exact (accesses_valueOf hc h (accesses_expr c hc hA e h)).andThen fun _ => accesses_emit rfl

theorem accesses_effect (c : Context) (hc : c.registry.Consistent) (hA : A.Objects) : ∀ e,
    A.Reaches ⟨c.registry, G⟩ (Node.ofExpr? e) → Accesses A (effect c e) fun _ => True
  | none, _ => by
    rw [effect]
    exact .pure trivial
  | some e, h => by
    rw [Node.ofExpr?] at h
    rw [effect]
    exact (accesses_valueOf hc h (accesses_expr c hc hA e h)).map fun _ _ => trivial

theorem accesses_declaration (c : Context) (hc : c.registry.Consistent) (hA : A.Objects) : ∀ d,
    A.Reaches ⟨c.registry, G⟩ (Node.ofDecl d) → Accesses A (declaration c d) fun _ => True
  | ⟨.vars vars, _⟩, h => by
    rw [Node.ofDecl] at h
    rw [declaration]
    exact accesses_varDecls c hc hA vars h
  | ⟨.struct _, _⟩, _ => by
    rw [declaration]
    exact .pure trivial

theorem accesses_varDecls (c : Context) (hc : c.registry.Consistent) (hA : A.Objects) : ∀ vs,
    A.Reaches ⟨c.registry, G⟩ (Node.ofVars vs) → Accesses A (varDecls c vs) fun _ => True
  | [], _ => by
    rw [varDecls]
    exact .pure trivial
  | v :: vs, h => by
    rw [Node.ofVars, Grant.reaches_append] at h
    rw [varDecls]
    exact (accesses_localVar c hc hA v h.1).andThen fun _ => accesses_varDecls c hc hA vs h.2

theorem accesses_localVar (c : Context) (hc : c.registry.Consistent) (hA : A.Objects) : ∀ v,
    A.Reaches ⟨c.registry, G⟩ (Node.ofVar v) → Accesses A (localVar c v) fun _ => True
  | ⟨name, ty, init, span, resolved⟩, h => by
    rw [Node.ofVar] at h
    obtain ⟨C, t, rfl, -, hinit⟩ := (h _ List.mem_cons_self).1
    have hrest : A.Reaches ⟨c.registry, G⟩ (Node.ofInitializer? init) :=
      fun n hn => h n (List.mem_cons_of_mem _ hn)
    rw [localVar]
    refine Accesses.bind (Q := fun u => u = t) (.pure rfl) ?_
    rintro _ rfl
    refine (accesses_allocate _ _).andThen fun slot => (Accesses.bindName _ _).andThen fun _ => ?_
    cases init with
    | none => exact .pure trivial
    | some i =>
      cases hinit with
      | some hi =>
        rw [Node.ofInitializer?] at hrest
        have hcode := accesses_initializer c hc hA C ⟨.temp slot, 0, _⟩ 0 rfl
          ((Nat.zero_add _).trans_le (sizeOf_le hc _)) i hi hrest
        refine .ite (fun _ => ?_) fun _ => hcode
        exact (accesses_zero hc (hA.covers_value hc _ _)).andThen fun _ => hcode

theorem accesses_initializer (c : Context) (hc : c.registry.Consistent) (hA : A.Objects) (C : Site)
    (target : Place) (d : Nat) (hp : target.offset = Int64.ofNat d)
    (hd : d + c.registry.sizeOf target.ty ≤ maxObjectSize) : ∀ i,
      Initializes ⟨c.registry, G⟩ C target.ty i → A.Reaches ⟨c.registry, G⟩ (Node.ofInitializer i) →
        Accesses A (initializer c target i) fun _ => True
  | .expr e, hi, h => by
    rw [Node.ofInitializer] at h
    have hvalue := accesses_valueOf hc h (accesses_expr c hc hA e h)
    have hcovers := hA.covers hd hp
    rw [initializer]
    split
    · rename_i hty hkind
      cases hi with
      | @text _ _ element _ text _ _ hty' hsize _ hlength _ =>
        refine accesses_storeBytes hA hp _ ?_
        obtain ⟨rfl, rfl⟩ := Ty.array.inj (hty.symm.trans hty')
        rw [(hc.size_array hty).1, show c.registry.sizeOf _ = 1 from hsize, Nat.one_mul] at hd
        exact (Nat.add_le_add_left (List.length_take_le _ _) d).trans hd
      | value hmovable =>
        simp [Registry.Movable, Registry.isScalar, Registry.isInteger, Registry.isPointer,
          Registry.isStruct, hty] at hmovable
    · exact hvalue.andThen fun v => accesses_copy hc hcovers (hA.covers_value hc v _) rfl
    · exact hvalue.andThen fun _ => (accesses_convert _ _).andThen fun _ => accesses_store hc hcovers _
  | .list items _, hi, h => by
    rw [Node.ofInitializer] at h
    have hfirst := accesses_firstItem c hc hA C target d hp hd items
    have helements (element : TypeId) (n : Nat) := accesses_elements c hc hA C element n target d hp items
    have hmembers (ms : List Member) := accesses_members c hc hA C target d hp ms items
    rw [initializer]
    cases hi with
    | @elements _ _ element length _ _ hty hitems =>
      replace hty : c.registry.ty target.ty = .array element length := hty
      simp only [hty]
      exact helements element length ((hc.size_array hty).1 ▸ hd) hitems h
    | @members _ _ s _ _ hty hitems =>
      replace hty : c.registry.ty target.ty = .struct s := hty
      simp only [hty]
      refine hmembers _ (fun m hm => ?_) hitems h
      have hinside := (hc.member_inside hty hm).1
      omega
    | scalar hscalar he =>
      split
      · rename_i hty
        simp [Registry.isScalar, Registry.isInteger, Registry.isPointer, hty] at hscalar
      · rename_i hty
        simp [Registry.isScalar, Registry.isInteger, Registry.isPointer, hty] at hscalar
      · exact hfirst ⟨_, rfl, he⟩ h

theorem accesses_elements (c : Context) (hc : c.registry.Consistent) (hA : A.Objects) (C : Site)
    (element : TypeId) (n : Nat) (target : Place) (d : Nat) (hp : target.offset = Int64.ofNat d) : ∀ is,
      d + c.registry.sizeOf element * n ≤ maxObjectSize →
        InitializesAll ⟨c.registry, G⟩ C (List.replicate n element) is →
          A.Reaches ⟨c.registry, G⟩ (Node.ofInitializers is) →
            Accesses A (elements c element target is) fun _ => True
  | [], _, _, _ => by
    rw [elements]
    exact .pure trivial
  | i :: is, hd, hall, h => by
    rw [Node.ofInitializers, Grant.reaches_append] at h
    rw [elements]
    cases n with
    | zero => cases hall
    | succ n =>
      cases hall with
      | cons hi his =>
        rw [Nat.mul_succ] at hd
        have hhere : d + c.registry.sizeOf element ≤ maxObjectSize := by omega
        have hnext : (target.further (Int64.ofNat (c.registry.sizeOf element)) target.ty).offset =
            Int64.ofNat (d + c.registry.sizeOf element) := by
          rw [Int64.ofNat_add, ← hp]
          rfl
        exact (accesses_initializer c hc hA C { target with ty := element } d hp hhere i hi h.1).andThen
          fun _ => accesses_elements c hc hA C element n _ _ hnext is (by omega) his h.2

theorem accesses_members (c : Context) (hc : c.registry.Consistent) (hA : A.Objects) (C : Site)
    (target : Place) (d : Nat) (hp : target.offset = Int64.ofNat d) (ms : List Member) : ∀ is,
      (∀ m ∈ ms, d + (m.offset + c.registry.sizeOf m.ty) ≤ maxObjectSize) →
        InitializesAll ⟨c.registry, G⟩ C (ms.map (·.ty)) is →
          A.Reaches ⟨c.registry, G⟩ (Node.ofInitializers is) →
            Accesses A (members c target ms is) fun _ => True
  | [], _, _, _ => by
    rw [members]
    exact .pure trivial
  | i :: is, hd, hall, h => by
    rw [Node.ofInitializers, Grant.reaches_append] at h
    cases ms with
    | nil =>
      rw [members]
      exact .pure trivial
    | cons m ms =>
      rw [members]
      obtain ⟨hm, hms⟩ := List.forall_mem_cons.mp hd
      cases hall with
      | cons hi his =>
        have hthere : (target.further (Int64.ofNat m.offset) m.ty).offset = Int64.ofNat (d + m.offset) := by
          rw [Int64.ofNat_add, ← hp]
          rfl
        have hroom : d + m.offset + c.registry.sizeOf m.ty ≤ maxObjectSize := by omega
        exact (accesses_initializer c hc hA C _ _ hthere hroom i hi h.1).andThen fun _ =>
          accesses_members c hc hA C target d hp ms is hms his h.2

theorem accesses_firstItem (c : Context) (hc : c.registry.Consistent) (hA : A.Objects) (C : Site)
    (target : Place) (d : Nat) (hp : target.offset = Int64.ofNat d)
    (hd : d + c.registry.sizeOf target.ty ≤ maxObjectSize) : ∀ is,
      (∃ e, is = [.expr e] ∧ Initializes ⟨c.registry, G⟩ C target.ty (.expr e)) →
        A.Reaches ⟨c.registry, G⟩ (Node.ofInitializers is) →
          Accesses A (firstItem c target is) fun _ => True
  | [], _, _ => by
    rw [firstItem]
    exact .pure trivial
  | i :: is, hfirst, h => by
    rw [Node.ofInitializers, Grant.reaches_append] at h
    rw [firstItem]
    refine accesses_initializer c hc hA C target d hp hd i ?_ h.1
    obtain ⟨e, heq, he⟩ := hfirst
    cases heq
    exact he

end

end Trees

/-! Units. -/

section Units

variable {A : Grant} {G : List Symbol} {r : Registry}

theorem accesses_receive (hc : r.Consistent) (hA : A.Objects) (index : Nat) (p : Code.Param) :
    Accesses A (receive r index p) fun _ => True := by
  refine (accesses_define fun _ => rfl).andThen fun incoming =>
    (accesses_allocate r p.ty).andThen fun slot => ?_
  have hslot := hA.covers_value hc (.temp slot) p.ty
  have hincoming := hA.covers_value hc incoming p.ty
  exact .ite (fun _ => (accesses_copy hc hslot hincoming rfl).andThen fun _ => .bindName _ _)
    fun _ => (accesses_store hc hslot _).andThen fun _ => .bindName _ _

theorem accesses_receiveAll (hc : r.Consistent) (hA : A.Objects) (index : Nat) (ps : List Code.Param) :
    Accesses A (receiveAll r index ps) fun _ => True := by
  induction ps generalizing index with
  | nil => exact .pure trivial
  | cons p ps ih => exact (accesses_receive hc hA index p).andThen fun _ => ih (index + 1)

theorem allows_of_function (hc : r.Consistent) (hA : A.Objects) {f : FuncDecl} {body : Block}
    {g : Code.Function} {s s' : State} (h : A.Reaches ⟨r, G⟩ (Node.ofItems body.items))
    (hrun : function r f body s = .ok (g, s')) : ∀ i ∈ g.body, A.Allows i := by
  obtain ⟨returns, s₁, hreturns, hrun⟩ := bind_eq_ok.mp hrun
  obtain ⟨qs, s₂, hparams, hrun⟩ := bind_eq_ok.mp hrun
  obtain ⟨⟨⟩, s₃, henter, hrun⟩ := bind_eq_ok.mp hrun
  obtain ⟨⟨⟩, s₄, hreceive, hrun⟩ := bind_eq_ok.mp hrun
  obtain ⟨⟨⟩, s₅, hitems, hrun⟩ := bind_eq_ok.mp hrun
  obtain ⟨⟨⟩, s₆, hret, hrun⟩ := bind_eq_ok.mp hrun
  obtain ⟨s₇, _, hget, hrun⟩ := bind_eq_ok.mp hrun
  obtain ⟨rfl, rfl⟩ := pure_eq_ok.mp hrun
  cases hget
  cases henter
  have hreceived := (accesses_receiveAll hc hA 0 qs hreceive (List.forall_mem_nil _)).1
  have hbody := (accesses_blockItems ⟨r, returns, none, none⟩ hc hA body.items h hitems hreceived).1
  exact (accesses_emit rfl hret hbody).1

theorem allows_of_topDecls (hc : r.Consistent) (hA : A.Objects) {ds : List TopDecl}
    {functions : List Code.Function} {gs : List Code.Global} {s s' : State}
    (h : A.Reaches ⟨r, G⟩ (ds.flatMap Node.ofTopDecl))
    (hrun : topDecls r ds s = .ok ((functions, gs), s')) :
    ∀ g ∈ functions, ∀ i ∈ g.body, A.Allows i := by
  induction ds generalizing s functions gs with
  | nil =>
    rw [topDecls] at hrun
    obtain ⟨hrun, -⟩ := pure_eq_ok.mp hrun
    cases hrun
    exact List.forall_mem_nil _
  | cons d ds ih =>
    rw [List.flatMap_cons, Grant.reaches_append] at h
    obtain ⟨hd, hrest⟩ := h
    cases d with
    | declaration d =>
      rw [topDecls] at hrun
      obtain ⟨here, s₁, -, hrun⟩ := bind_eq_ok.mp hrun
      obtain ⟨⟨functions', later⟩, s₂, hlater, hrun⟩ := bind_eq_ok.mp hrun
      obtain ⟨heq, rfl⟩ := pure_eq_ok.mp hrun
      cases heq
      exact ih hrest hlater
    | function f =>
      rw [topDecls] at hrun
      cases hbody : f.body with
      | none =>
        simp only [hbody] at hrun
        exact ih hrest hrun
      | some body =>
        simp only [hbody] at hrun
        obtain ⟨here, s₁, hhere, hrun⟩ := bind_eq_ok.mp hrun
        obtain ⟨⟨functions', later⟩, s₂, hlater, hrun⟩ := bind_eq_ok.mp hrun
        obtain ⟨heq, rfl⟩ := pure_eq_ok.mp hrun
        cases heq
        rw [Node.ofTopDecl, hbody] at hd
        have hitems : A.Reaches ⟨r, G⟩ (Node.ofItems body.items) :=
          fun n hn => hd n (List.mem_cons_of_mem _ hn)
        exact List.forall_mem_cons.mpr ⟨allows_of_function hc hA hitems hhere, ih hrest hlater⟩

/-- The code of a unit accesses only what is granted. -/
theorem allows_of_lower (hc : r.Consistent) (hA : A.Objects) {u : CompilationUnit} {m : Code.Module}
    (h : A.Reaches ⟨r, G⟩ (Node.ofUnit u)) (hlower : lower r u = .ok m) :
    ∀ g ∈ m.functions, ∀ i ∈ g.body, A.Allows i := by
  unfold lower at hlower
  cases hrun : (topDecls r u.decls).run State.initial with
  | error e => rw [hrun] at hlower; cases hlower
  | ok result =>
    rw [hrun] at hlower
    obtain ⟨⟨functions, gs⟩, s⟩ := result
    cases hlower
    exact allows_of_topDecls hc hA h hrun

end Units

end Lowering
end MiniC
