import MiniC.Proofs.Evaluation.Address
import MiniC.Proofs.Evaluation.Constants
import MiniC.Proofs.Evaluation.Returns
import MiniC.Proofs.Layout.Scalars
import MiniC.Proofs.Lowering.Abiding
import MiniC.Proofs.Machine.Bytes
/-!
Values that are reduced to their types. What is read of an object, converted, called for or compared
is a word of its type; a sum of an address and a number is not reduced to anything, and neither is the
address of an object. Main statement: the value of an expression is a word of its type, unless the
expression that is evaluated last computes an address.
-/
namespace MiniC.Evaluation

open Machine (Fault Memory)
open Registry (widths)
open Syntax
open Typing (Env HasType HasValue LastValue IsItems IsStmt Site Yields binaryType)

/-- Whatever the action yields satisfies `Q`. -/
def Yielding {α : Type} (Q : α → Prop) (act : Action α) : Prop :=
  ∀ ⦃st a st'⦄, act st = .ok a st' → Q a

namespace Yielding

variable {α β : Type} {Q : α → Prop} {Q' : β → Prop} {act : Action α}

theorem pure {a : α} (h : Q a) : Yielding Q (Pure.pure a : Action α) := by
  intro st b st' hrun
  cases hrun
  exact h

theorem bind {k : α → Action β} (h : Yielding Q act) (hk : ∀ a, Q a → Yielding Q' (k a)) :
    Yielding Q' (act >>= k) := by
  intro st b st' hrun
  replace hrun : EStateM.bind act k st = .ok b st' := hrun
  unfold EStateM.bind at hrun
  cases hact : act st with
  | ok a s =>
    rw [hact] at hrun
    exact hk a (h hact) hrun
  | error e s =>
    rw [hact] at hrun
    cases hrun

/-- What comes before does not matter. -/
theorem after {k : α → Action β} (hk : ∀ a, Yielding Q' (k a)) : Yielding Q' (act >>= k) :=
  bind (Q := fun _ => True) (fun _ _ _ _ => trivial) fun a _ => hk a

theorem map {φ : α → β} (h : Yielding Q act) (hφ : ∀ a, Q a → Q' (φ a)) :
    Yielding Q' (φ <$> act) := by
  intro st b st' hrun
  replace hrun : EStateM.map φ act st = .ok b st' := hrun
  unfold EStateM.map at hrun
  cases hact : act st with
  | ok a s =>
    rw [hact] at hrun
    cases hrun
    exact hφ a (h hact)
  | error e s =>
    rw [hact] at hrun
    cases hrun

theorem throw (e : Exit) : Yielding Q (throw e : Action α) := by
  intro st a st' hrun
  cases hrun

theorem ite {b : Prop} [Decidable b] {act' : Action α} (h : Yielding Q act)
    (h' : Yielding Q act') : Yielding Q (if b then act else act') := by
  by_cases hb : b
  · rwa [if_pos hb]
  · rwa [if_neg hb]

theorem lift {x : Except Fault α} (h : ∀ a, x = .ok a → Q a) : Yielding Q (lift x) := by
  cases x with
  | ok a => exact .pure (h a rfl)
  | error e => exact .throw _

theorem need {x : Option α} (h : ∀ a, x = some a → Q a) : Yielding Q (need x) := by
  cases x with
  | some a => exact .pure (h a rfl)
  | none => exact .throw _

end Yielding

/-- The range of the numbers that a width and a sign give. -/
def InWidth (a : Access) (w : Int64) : Prop :=
  if a.signed then -(2 ^ (8 * a.size - 1)) ≤ w.toInt ∧ w.toInt < 2 ^ (8 * a.size - 1)
  else 0 ≤ w.toInt ∧ w.toInt < 2 ^ (8 * a.size)

/-! Words of a type. -/

section Words

variable {r : Registry} {t : TypeId} {a : Access} {v : Int64}

theorem held_of_wide (h : 8 ≤ a.size) (w : Int64) : Held a w := by
  unfold Held Access.truncate
  rw [if_pos h]

/-- Reducing a word to a narrow type leaves it as it is exactly if it is in the range of the type. -/
theorem held_iff_inWidth (ha : a.size = 1 ∨ a.size = 2 ∨ a.size = 4) (w : Int64) :
    Held a w ↔ InWidth a w := by
  unfold InWidth
  constructor
  · intro hw
    obtain ⟨hsigned, hunsigned⟩ := wrap_bounds ha w.toInt
    rw [← toInt_of_held ha hw] at hsigned hunsigned
    cases hsign : a.signed with
    | true => exact hsigned hsign
    | false => exact hunsigned hsign
  · intro hrange
    refine Access.truncate_of_bounds (fun hsign => ?_) fun hsign => ?_
    · rw [if_pos hsign] at hrange
      rcases ha with h | h | h <;> rw [h] at hrange ⊢ <;> simp only [range_eq] <;> omega
    · rw [if_neg (by rw [hsign]; decide)] at hrange
      rcases ha with h | h | h <;> rw [h] at hrange ⊢ <;> simp only [range_eq] <;> omega

theorem held_convert (ha : r.access? t = some a) (v : Int64) : Held a (convert r v t) := by
  unfold convert
  rw [ha]
  exact a.truncate_truncate v

theorem scalar_of_access (ha : r.access? t = some a) :
    r.isArray t = false ∧ r.isStruct t = false := by
  unfold Registry.access? at ha
  unfold Registry.isArray Registry.isStruct
  cases hty : r.ty t <;> simp [hty] at ha ⊢

theorem held_truth (ha : a.size ∈ widths) (b : Bool) : Held a (Code.truth b) := by
  have hall : ∀ a ∈ accesses, ∀ b, Held a (Code.truth b) := by decide
  exact hall a (mem_accesses ha) b

theorem readNat_lt (bytes : Array UInt8) (pos count : Nat) :
    Bytes.readNat bytes pos count < 256 ^ count := by
  induction count generalizing pos with
  | zero => exact Nat.one_pos
  | succ count ih =>
    have hbyte := (bytes.getD pos 0).toNat_lt
    have hrest := ih (pos + 1)
    rw [Bytes.readNat, Nat.pow_succ]
    omega

/-- What is read of memory is a word of the width and sign with which it is read. -/
theorem held_load {memory : Memory} {address : Int64} (ha : a.size ≤ 8)
    (h : memory.load address a.size a.signed = .ok v) : Held a v := by
  unfold Memory.load at h
  split at h
  · cases h
  · rename_i start _
    cases h
    have hlt := readNat_lt memory.bytes start a.size
    have hmax : 256 ^ a.size ≤ 2 ^ 64 := Nat.pow_le_pow_right (n := 256) (by decide) ha
    have hword := Bytes.extend_toNat ha (UInt64.ofNat (Bytes.readNat memory.bytes start a.size)).toInt64
    rw [UInt64.toUInt64_toInt64, UInt64.toNat_ofNat', Nat.mod_eq_of_lt (Nat.lt_of_lt_of_le hlt hmax),
      Nat.mod_eq_of_lt hlt] at hword
    rw [hword]
    exact a.truncate_truncate _

theorem inside_of_locate {memory : Memory} {address : Int64} {n start : Nat}
    (h : memory.locate address n = .ok start) : start + n ≤ memory.bytes.size := by
  unfold Memory.locate at h
  split at h
  · cases h
  dsimp only at h
  split at h
  · cases h
  split at h
  · rename_i hinside
    cases h
    exact hinside
  · cases h

/-- What is stored and read again is reduced to the width. -/
theorem load_store {memory memory' : Memory} {address : Int64} (ha : a.size ≤ 8)
    (h : memory.store address a.size v = .ok memory') :
    memory'.load address a.size a.signed = .ok (a.truncate v) := by
  unfold Memory.store at h
  unfold Memory.load
  split at h
  · cases h
  · rename_i start hstart
    cases h
    have hsame : (memory.put start a.size v).locate address a.size = .ok start := by
      rw [← hstart]
      unfold Memory.locate
      rw [show (memory.put start a.size v).bytes.size = memory.bytes.size from
        Memory.size_put memory start a.size v]
    simp only [hsame, Except.ok.injEq]
    rw [← Bytes.extend_toNat ha, ← Bytes.readNat_writeWord (inside_of_locate hstart)]
    rfl

end Words

/-! Operators. -/

section Operators

variable {r : Registry} {op : BinaryOp} {x y w : Int64} {s t ty : TypeId} {a : Access}

theorem operate_comparison (h : op.isComparison = true) (unsigned : Bool) (x y : Int64) :
    ∃ b, operate (Lowering.machineBinary op unsigned) x y = .ok (Code.truth b) := by
  cases op <;> cases h <;> cases unsigned <;> exact ⟨_, rfl⟩

theorem held_integerArithmetic (ha : r.access? ty = some a) (hsize : a.size ∈ widths)
    (h : integerArithmetic r op x s y t ty = .ok w) : Held a w := by
  unfold integerArithmetic at h
  split at h
  · rename_i hcompare
    obtain ⟨b, hb⟩ := operate_comparison hcompare
      (Lowering.comparesUnsigned r s || Lowering.comparesUnsigned r t) x y
    rw [hb] at h
    cases h
    exact held_truth hsize b
  · split at h
    · cases h
    · cases h
      exact held_convert ha _

/-- Only sums and differences count objects. -/
def CountsObjects (r : Registry) (op : BinaryOp) (s t : TypeId) : Prop :=
  (op = .add ∨ op = .sub) ∧
    ((Lowering.stride? r s).isSome = true ∨ (Lowering.stride? r t).isSome = true)

theorem arithmetic_eq (h : ¬ CountsObjects r op s t) :
    arithmetic r op x s y t ty = integerArithmetic r op x s y t ty := by
  unfold arithmetic
  split
  · rename_i hs _
    exact absurd ⟨.inl rfl, .inl (by rw [hs]; rfl)⟩ h
  · rename_i hs _
    exact absurd ⟨.inr rfl, .inl (by rw [hs]; rfl)⟩ h
  · rename_i _ ht
    exact absurd ⟨.inl rfl, .inr (by rw [ht]; rfl)⟩ h
  · rename_i hs _
    exact absurd ⟨.inr rfl, .inl (by rw [hs]; rfl)⟩ h
  · rfl

theorem held_characterValue (b : UInt8) : Held ⟨4, true⟩ (characterValue b) := by
  have hlow := Int8.le_toInt b.toInt8
  have hhigh := Int8.toInt_lt b.toInt8
  have hint : (characterValue b).toInt = b.toInt8.toInt := Int8.toInt_toInt64 _
  refine Access.truncate_of_bounds (fun _ => ?_) fun hsign => by cases hsign
  rw [hint, show Bytes.range (Access.mk 4 true).size = 4294967296 from rfl]
  omega

end Operators

/-! Forms of expressions. -/

/-- An object of that type. -/
def IsObject (t : TypeId) : Denoted → Prop
  | .object ty _ => ty = t
  | .value _ => False

/-- An object of that type, or a word of that access. -/
def Fits (t : TypeId) (a : Access) : Denoted → Prop
  | .object ty _ => ty = t
  | .value v => Held a v

/-- What names an object. -/
def IsPath (e : Expr) : Prop :=
  match e.kind with
  | .name _ | .index .. | .member .. | .pointerMember .. | .deref _ => True
  | _ => False

/-- What counts objects is a pointer or an array. -/
def Counts (r : Registry) (e : Expr) : Prop :=
  ∃ t, e.ty = some t ∧ (Lowering.stride? r t).isSome = true

/-- What is left as it was computed: the address of an object or of an array, a sum or difference with
an address in it, and a number that its type does not hold. -/
def Unreduced (r : Registry) (e : Expr) : Prop :=
  (∃ t, e.ty = some t ∧ r.isArray t = true) ∨
    match e.kind with
    | .integer n => ∃ t a, e.ty = some t ∧ r.access? t = some a ∧ ¬ Held a n
    | .binary op left right => (op = .add ∨ op = .sub) ∧ (Counts r left ∨ Counts r right)
    | .assign (some op) target source =>
      (op = .add ∨ op = .sub) ∧ (Counts r target ∨ Counts r source)
    | .addressOf _ => True
    | _ => False

/-- What has a value of its own, and not that of an expression at its end. -/
def IsOwn (e : Expr) : Prop :=
  match e.kind with
  | .comma _ | .block _ => False
  | _ => True

/-- Calls of functions yield words of the types that these return. -/
def CallsHeld (c : Context) (G : List Symbol) : Prop :=
  ∀ sym ∈ G, ∀ sig, sym.kind = .function sig → ∀ a, c.registry.access? sym.ty = some a →
    ∀ vs, Yielding (Held a) (c.call sym.name vs)

section Forms

variable {c : Context} {G : List Symbol} {C : Site} {e : Expr} {t : TypeId} {a : Access}

theorem isPath_of_isLvalue (h : Typing.isLvalue e = true) : IsPath e := by
  obtain ⟨kind, span, ty⟩ := e
  rw [Typing.isLvalue] at h
  cases kind <;> first | exact trivial | cases h

theorem isObject_moved (x : Action Int64) : Yielding (IsObject t) (Denoted.object t <$> x) :=
  .map (Q := fun _ => True) (fun _ _ _ _ => trivial) fun _ _ => rfl

/-- The object that an expression names has the type that stands in the tree. -/
theorem isObject_expr (h : HasType ⟨c.registry, G⟩ C e t) (hpath : IsPath e) :
    Finds (Yielding (IsObject t)) (expr c e) := by
  cases h with
  | «local» | global =>
    rw [expr, exprKind]
    refine .pure ?_
    unfold Context.named
    split
    · exact .after fun _ => .pure rfl
    · split
      · exact .pure rfl
      · exact .throw _
  | index =>
    rw [expr, exprKind]
    refine .bind (.any _) fun _ _ => ?_
    split
    · exact .pure (isObject_moved _)
    · exact .bind (.any _) fun _ _ => .pure (isObject_moved _)
  | deref =>
    rw [expr, exprKind]
    exact .bind (.any _) fun _ _ => .pure (isObject_moved _)
  | member | pointerMember =>
    rw [expr, exprKind]
    exact .bind (.any _) fun _ _ => .pure (.bind (.need fun _ h => Option.some.inj h)
      fun m hm => .after fun _ => .pure (by rw [← hm]; exact rfl))
  | _ => exact hpath.elim

theorem Fits.value {x : Action Int64} (h : Yielding (Held a) x) :
    Yielding (Fits t a) (Denoted.value <$> x) :=
  h.map fun _ hv => hv

variable (hc : c.registry.Consistent) (ha : c.registry.access? t = some a)

include hc ha in
theorem held_loaded (address : Int64) : Yielding (Held a) (load c.registry t address) := by
  obtain ⟨harray, hstruct⟩ := scalar_of_access ha
  unfold load
  rw [harray, hstruct, ha]
  exact .after fun st => .lift fun v hv => held_load (hc.access_le ha) hv

include hc ha in
theorem Fits.loaded {act : Action Denoted} (h : Yielding (Fits t a) act) :
    Yielding (Held a) (valueOf c.registry act) := by
  refine h.bind fun d hd => ?_
  cases d with
  | object ty address =>
    obtain rfl : ty = t := hd
    exact held_loaded hc ha address
  | value v => exact .pure hd

include ha in
theorem held_converted (act : Action Int64) : Yielding (Held a) (converted c.registry t act) :=
  .after fun v => .pure (held_convert ha v)

include hc ha in
theorem held_step {target : Action (TypeId × Int64)} (h : Yielding (fun x => x.1 = t) target)
    (decrement yieldsOld : Bool) :
    Yielding (Held a) (step c.registry t decrement yieldsOld target) := by
  refine h.bind fun x hx => (hx ▸ held_loaded hc ha _).bind fun old hold => .after fun _ => .pure ?_
  split
  · exact hold
  · exact held_convert ha _

include hc ha in
/-- The value of an expression that computes no address is reduced to its type. -/
theorem fits_expr (hcalls : CallsHeld c G) (h : HasType ⟨c.registry, G⟩ C e t)
    (hreduced : ¬ Unreduced c.registry e) (hown : IsOwn e) :
    Finds (Yielding (Fits t a)) (expr c e) := by
  have hsize := (hc.access_size ha).2
  obtain ⟨-, hstruct⟩ := scalar_of_access ha
  have hobject (hpath : IsPath e) : Finds (Yielding (Fits t a)) (expr c e) := by
    intro k st d st' hrun
    have hd := isObject_expr h hpath k hrun
    cases d with
    | object ty address => exact hd
    | value v => exact hd.elim
  cases h with
  | @integer _ n =>
    rw [expr, exprKind]
    refine .pure (.pure ?_)
    by_contra hn
    exact hreduced (.inr ⟨t, a, rfl, ha, hn⟩)
  | character =>
    have hint : c.registry.access? Registry.cInt = some ⟨4, true⟩ :=
      hc.scalars.access_int (by decide)
    obtain rfl := Option.some.inj (hint.symm.trans ha)
    rw [expr, exprKind]
    exact .pure (.pure (held_characterValue _))
  | string hty =>
    unfold Registry.access? at ha
    rw [hty] at ha
    cases ha
  | «local» | global | index | member | pointerMember | deref => exact hobject trivial
  | @binary _ op left right _ l r _ hl hr hop =>
    rw [expr, exprKind]
    refine .bind (.any _) fun x _ => .bind (.any _) fun y _ => ?_
    split
    · refine .pure (Fits.value (.after fun v => ?_))
      exact .ite (.after fun _ => .pure (held_truth hsize _)) (.pure (held_truth hsize _))
    · refine .pure (Fits.value (.after fun v => .after fun w => ?_))
      refine .bind (.need fun s hs => hs) fun s hs => .bind (.need fun u hu => hu) fun u hu =>
        .lift fun v hv => ?_
      rw [arithmetic_eq fun hcounts => hreduced (.inr ⟨hcounts.1, hcounts.2.imp
        (fun hsome => ⟨s, hs, hsome⟩) fun hsome => ⟨u, hu, hsome⟩⟩)] at hv
      exact held_integerArithmetic ha hsize hv
  | unary =>
    rw [expr, exprKind]
    exact .bind (.any _) fun _ _ => .pure (Fits.value (.after fun _ => .pure (held_convert ha _)))
  | @assign _ op target source _ v _ htarget _ _ hsource _ =>
    rw [expr]
    cases op with
    | none =>
      rw [exprKind, hstruct]
      refine .bind (.any _) fun x _ => .bind (.any _) fun y _ => .pure (Fits.value ?_)
      exact (held_converted ha x).bind fun v hv => .after fun _ => .after fun _ => .pure hv
    | some op =>
      rw [exprKind, hstruct]
      refine .bind (.any _) fun x _ => .bind (.any _) fun y _ => .pure (Fits.value ?_)
      refine .after fun place => .after fun old => .after fun v => .bind (.need fun u hu => hu)
        fun u hu => .bind (.lift fun new hnew => ?_) fun new hnew => .after fun _ => .pure hnew
      rw [arithmetic_eq fun hcounts => hreduced (.inr ⟨hcounts.1, hcounts.2.imp
        (fun hsome => ⟨t, htarget.ty_eq, hsome⟩) fun hsome => ⟨u, hu, hsome⟩⟩)] at hnew
      exact held_integerArithmetic ha hsize hnew
  | conditional =>
    rw [expr, exprKind]
    refine .bind (.any _) fun _ _ => .bind (.any _) fun x _ => .bind (.any _) fun y _ =>
      .pure (Fits.value (.after fun _ => ?_))
    exact .ite (held_converted ha x) (held_converted ha y)
  | @call _ callee args _ name sym sig hcallee hnone hsym hname hkind =>
    rw [expr, exprKind]
    refine .bind (.any _) fun vs _ => .pure (Fits.value ?_)
    unfold Context.callOf
    rw [hcallee]
    refine .after fun ws => .bind (hname ▸ hcalls sym hsym sig hkind a ha ws) fun v hv => .pure ?_
    split
    · exact a.truncate_zero
    · exact hv
  | cast =>
    rw [expr, exprKind]
    refine .bind (.any _) fun _ _ => .pure (Fits.value (.after fun v => .pure ?_))
    split
    · exact a.truncate_zero
    · exact held_convert ha v
  | addressOf => exact absurd (.inr trivial) hreduced
  | step hoperand hlvalue =>
    rw [expr, exprKind]
    refine ((isObject_expr hoperand (isPath_of_isLvalue hlvalue)).map fun act hact => ?_).bind
      fun target htarget => .pure (Fits.value (held_step hc ha htarget _ _))
    refine hact.bind fun d hd => ?_
    cases d with
    | object ty address => exact .pure hd
    | value v => exact hd.elim
  | comma | block => exact hown.elim

end Forms

/-! The expression whose value an expression has. -/

mutual

/-- Through commas and blocks, the one that is evaluated last. -/
def lastOf : Expr → Expr
  | ⟨kind, span, ty⟩ => lastOfKind ⟨kind, span, ty⟩ kind

def lastOfKind (whole : Expr) : ExprKind → Expr
  | .comma items => lastOfList whole items
  | .block ⟨items, _⟩ => lastOfItems whole whole items
  | _ => whole

def lastOfList (last : Expr) : List Expr → Expr
  | [] => last
  | e :: es => lastOfList (lastOf e) es

def lastOfItems (whole last : Expr) : List BlockItem → Expr
  | [] => last
  | i :: is => lastOfItems whole (lastOfItem whole i) is

def lastOfItem (whole : Expr) : BlockItem → Expr
  | .statement ⟨.expr e, _⟩ => lastOf e
  | _ => whole

end

theorem decays_trans {r : Registry} {t u v : TypeId} (h : r.Decays t u) (k : r.Decays u v) :
    r.Decays t v := by
  unfold Registry.Decays at h k ⊢
  cases hty : r.ty t with
  | array element length =>
    simp only [hty] at h ⊢
    simp only [h] at k
    rw [k, h]
  | _ =>
    simp only [hty] at h ⊢
    subst h
    simpa only [hty] using k

/-- Somewhere the expression has the value `w`, as one of type `v`. -/
def ValueOf (c : Context) (G : List Symbol) (v : TypeId) (w : Int64) (e : Expr) : Prop :=
  ∃ C t scopes k st st', HasType ⟨c.registry, G⟩ C e t ∧ c.registry.Decays t v ∧ IsOwn e ∧
    (value { c with scopes } e k).1 st = .ok w st'

section Last

variable {c : Context} {G : List Symbol} {C : Site} {t u v : TypeId} {w x : Int64} {k : Counters}
  {st st' : Store}

theorem ok_of_bind {α β : Type} {act : Action α} {f : α → Action β} {b : β}
    (h : (act >>= f) st = .ok b st') : ∃ a st₁, act st = .ok a st₁ ∧ f a st₁ = .ok b st' := by
  replace h : EStateM.bind act f st = .ok b st' := h
  unfold EStateM.bind at h
  cases hact : act st with
  | ok a st₁ =>
    rw [hact] at h
    exact ⟨a, st₁, rfl, h⟩
  | error e st₁ =>
    rw [hact] at h
    cases h

theorem valueOf_value (r : Registry) (x : Action Int64) : valueOf r (Denoted.value <$> x) = x := by
  refine action_ext fun st => ?_
  show EStateM.bind (EStateM.map _ x) _ st = x st
  unfold EStateM.bind EStateM.map
  cases x st <;> rfl

theorem access_void (hc : c.registry.Consistent) (h : c.registry.Decays Registry.void v) :
    c.registry.access? v = none := by
  have hvoid := hc.scalars.ty_void
  unfold Registry.Decays at h
  simp only [hvoid] at h
  subst h
  unfold Registry.access?
  rw [hvoid]

mutual

/-- The value of an expression is that of the one that is evaluated last. -/
theorem valueOf_expr (c : Context) (hc : c.registry.Consistent) : ∀ e {C t k st w st'},
    HasType ⟨c.registry, G⟩ C e t → c.registry.Decays t v → (c.registry.access? v).isSome = true →
      (value c e k).1 st = .ok w st' → ValueOf c G v w (lastOf e)
  | ⟨kind, span, ty⟩, C, t, k, st, w, st', h, hv, hscalar, hrun => by
    obtain rfl : ty = some t := h.ty_eq
    rw [lastOf]
    exact valueOf_exprKind c hc span kind h hv hscalar hrun
termination_by structural e => e

theorem valueOf_exprKind (c : Context) (hc : c.registry.Consistent) (span : Span) : ∀ kind {C t k st w st'},
    HasType ⟨c.registry, G⟩ C ⟨kind, span, some t⟩ t → c.registry.Decays t v →
      (c.registry.access? v).isSome = true → (value c ⟨kind, span, some t⟩ k).1 st = .ok w st' →
        ValueOf c G v w (lastOfKind ⟨kind, span, some t⟩ kind)
  | .comma items, C, t, k, st, w, st', .comma hlast, hv, hscalar, hrun => by
    rw [lastOfKind]
    have hrun' : (lastValue c items k).1 0 st = .ok w st' := by
      rw [value, expr, exprKind] at hrun
      rwa [← valueOf_value c.registry ((lastValue c items k).1 0)]
    refine valueOf_list c hc items hlast hv hscalar (fun hempty => ?_) hrun'
    subst hempty
    cases hlast
    rw [access_void hc hv] at hscalar
    cases hscalar
  | .block ⟨items, bspan⟩, C, t, k, st, w, st', .block his hyields, hv, hscalar, hrun => by
    rw [lastOfKind]
    have hrun' : (blockValue { c with scopes := [] :: c.scopes } items k).1 st = .ok w st' := by
      rw [value, expr, exprKind] at hrun
      rwa [← valueOf_value c.registry
        ((blockValue { c with scopes := [] :: c.scopes } items k).1)]
    exact valueOf_items { c with scopes := [] :: c.scopes } hc items his hyields hv hscalar hrun'
  | .integer _, C, t, k, st, w, st', h, hv, hscalar, hrun | .character _, C, t, k, st, w, st', h, hv, hscalar, hrun
  | .string _, C, t, k, st, w, st', h, hv, hscalar, hrun | .name _, C, t, k, st, w, st', h, hv, hscalar, hrun
  | .binary .., C, t, k, st, w, st', h, hv, hscalar, hrun | .unary .., C, t, k, st, w, st', h, hv, hscalar, hrun
  | .assign .., C, t, k, st, w, st', h, hv, hscalar, hrun | .conditional .., C, t, k, st, w, st', h, hv, hscalar, hrun
  | .call .., C, t, k, st, w, st', h, hv, hscalar, hrun | .index .., C, t, k, st, w, st', h, hv, hscalar, hrun
  | .member .., C, t, k, st, w, st', h, hv, hscalar, hrun
  | .pointerMember .., C, t, k, st, w, st', h, hv, hscalar, hrun | .cast .., C, t, k, st, w, st', h, hv, hscalar, hrun
  | .query .., C, t, k, st, w, st', h, hv, hscalar, hrun | .typeQuery .., C, t, k, st, w, st', h, hv, hscalar, hrun
  | .addressOf _, C, t, k, st, w, st', h, hv, hscalar, hrun | .deref _, C, t, k, st, w, st', h, hv, hscalar, hrun
  | .step .., C, t, k, st, w, st', h, hv, hscalar, hrun => by
    rw [lastOfKind]
    · exact ⟨C, t, c.scopes, k, st, st', h, hv, trivial, hrun⟩
    all_goals simp
termination_by structural kind => kind

theorem valueOf_list (c : Context) (hc : c.registry.Consistent) : ∀ es {C u t x k st last w st'},
    LastValue ⟨c.registry, G⟩ C u es t → c.registry.Decays t v →
      (c.registry.access? v).isSome = true → (es = [] → ValueOf c G v x last) →
        (lastValue c es k).1 x st = .ok w st' → ValueOf c G v w (lastOfList last es)
  | [], C, u, t, x, k, st, last, w, st', h, hv, hscalar, hx, hrun => by
    rw [lastValue] at hrun
    cases hrun
    rw [lastOfList]
    exact hx rfl
  | e :: es, C, u, t, x, k, st, last, w, st', .cons (.decays he hdecays) hes, hv, hscalar, hx, hrun => by
    rw [lastValue] at hrun
    obtain ⟨y, st₁, hy, hrest⟩ := ok_of_bind hrun
    rw [lastOfList]
    refine valueOf_list c hc es hes hv hscalar (fun hempty => ?_) hrest
    subst hempty
    cases hes
    exact valueOf_expr c hc e he (decays_trans hdecays hv) hscalar hy
termination_by structural es => es

theorem valueOf_items (c : Context) (hc : c.registry.Consistent) : ∀ is {C t k st span whole last w st'},
    IsItems ⟨c.registry, G⟩ C is → Yields ⟨c.registry, G⟩ ⟨is, span⟩ t → c.registry.Decays t v →
      (c.registry.access? v).isSome = true → (blockValue c is k).1 st = .ok w st' →
        ValueOf c G v w (lastOfItems whole last is)
  | [], C, t, k, st, span, whole, last, w, st', his, hyields, hv, hscalar, hrun => by
    have hvoid : t = Registry.void := hyields
    subst hvoid
    rw [access_void hc hv] at hscalar
    cases hscalar
  | i :: is, C, t, k, st, span, whole, last, w, st', his, hyields, hv, hscalar, hrun => by
    have hitem := @valueOf_item c hc i
    have hrest := @valueOf_items { c with scopes := (blockItem c i k).1.2 } hc is
    rw [lastOfItems]
    by_cases hlast : ∃ e s, i = .statement ⟨.expr e, s⟩ ∧ is = []
    · obtain ⟨e, s, rfl, rfl⟩ := hlast
      rw [lastOfItems, lastOfItem]
      rw [blockValue] at hrun
      cases his with
      | statement hs _ =>
        cases hs with
        | expr he _ =>
          unfold Yields Block.trailing? at hyields
          simp only [List.getLast?_singleton, Option.bind_some, he.ty_eq] at hyields
          exact hitem rfl he (decays_trans hyields hv) hscalar hrun
    · rw [(blockValue_cons c i is).resolve_right hlast] at hrun
      obtain ⟨_, st₁, -, hrun⟩ := ok_of_bind hrun
      have hyields' := Lowering.yields_rest hyields hlast
      cases his with
      | statement _ his => exact hrest his hyields' hv hscalar hrun
      | declaration _ his => exact hrest his hyields' hv hscalar hrun
termination_by structural is => is

/-- The last item of a block, if it is an expression. -/
theorem valueOf_item (c : Context) (hc : c.registry.Consistent) : ∀ (i : BlockItem) {e span C t k st w st'},
    i = .statement ⟨.expr e, span⟩ → HasType ⟨c.registry, G⟩ C e t → c.registry.Decays t v →
      (c.registry.access? v).isSome = true → (value c e k).1 st = .ok w st' →
        ValueOf c G v w (lastOf e)
  | .statement ⟨.expr e, _⟩, _, _, _, _, _, _, _, _, rfl, he, hv, hscalar, hrun =>
    valueOf_expr c hc e he hv hscalar hrun
termination_by structural i => i

end

/-- What a scalar decays to is itself, and only an array decays to something else. -/
theorem eq_of_decays {r : Registry} (h : r.Decays t v) (harray : r.isArray t = false) : v = t := by
  unfold Registry.Decays at h
  unfold Registry.isArray at harray
  cases hty : r.ty t <;> simp_all

theorem decays_self {r : Registry} (harray : r.isArray t = false) : r.Decays t t := by
  unfold Registry.Decays
  unfold Registry.isArray at harray
  cases hty : r.ty t <;> simp_all

/-- The value of an expression is a word of its type, unless what is evaluated last is left as it was
computed. -/
theorem held_value {a : Access} {e : Expr} (hc : c.registry.Consistent) (hcalls : CallsHeld c G)
    (h : HasType ⟨c.registry, G⟩ C e t) (hv : c.registry.Decays t v)
    (ha : c.registry.access? v = some a) (hreduced : ¬ Unreduced c.registry (lastOf e))
    (hrun : (value c e k).1 st = .ok w st') : Held a w := by
  obtain ⟨C', t', scopes, k', st₁, st₂, h', hv', hown, hrun'⟩ :=
    valueOf_expr c hc e h hv (by rw [ha]; rfl) hrun
  have harray : c.registry.isArray t' = false := by
    rw [← Bool.not_eq_true]
    exact fun harray => hreduced (.inl ⟨t', h'.ty_eq, harray⟩)
  obtain rfl := eq_of_decays hv' harray
  exact Fits.loaded (c := { c with scopes }) hc ha
    (fits_expr (c := { c with scopes }) hc ha hcalls h' hreduced hown k') hrun'

/-- An integer to which a pointer is added in place. -/
def AddsPointer (r : Registry) (e : Expr) : Prop :=
  match e.kind with
  | .assign (some .add) _ source => Counts r source
  | _ => False

theorem isPointer_of_counts {E : Env} {e : Expr} (h : HasValue E C e t)
    (hcounts : Counts E.registry e) : E.registry.isPointer t = true := by
  obtain ⟨u, hu, hsome⟩ := hcounts
  cases h with
  | @decays _ _ s _ he hdecays =>
    obtain rfl := Option.some.inj (he.ty_eq.symm.trans hu)
    unfold Registry.Decays at hdecays
    unfold Lowering.stride? Registry.element? at hsome
    unfold Registry.isPointer
    cases hty : E.registry.ty s <;> simp_all

theorem not_isPointer_of_isInteger {r : Registry} (h : r.isInteger t = true) :
    r.isPointer t = false := by
  unfold Registry.isInteger at h
  unfold Registry.isPointer
  cases hty : r.ty t <;> simp_all

/-- A sum or difference in which a pointer takes part is a pointer, or the distance of two. -/
theorem binaryType_of_isPointer {r : Registry} {op : BinaryOp} {left right : TypeId} {span : Span}
    (hop : op = .add ∨ op = .sub) (h : binaryType r op left right span = .ok t)
    (hpointer : r.isPointer left = true ∨ r.isPointer right = true) :
    r.isPointer t = true ∨ t = r.cLong true := by
  have hsome : (r.isPointer left || r.isPointer right) = true := by
    rw [Bool.or_eq_true]
    exact hpointer
  have hrule : Typing.pointerType r op left right span = .ok t := by
    unfold binaryType at h
    split at h
    · cases h
    · rcases hop with rfl | rfl <;> simpa [hsome, BinaryOp.isLogical, BinaryOp.isComparison] using h
  unfold Typing.pointerType at hrule
  have hchecked {x : Typing.Verdict Unit} {u : TypeId} (hx : x.map (fun _ => u) = .ok t) : u = t := by
    cases x with
    | ok _ => exact Except.ok.inj hx
    | error e => cases hx
  split at hrule
  · rename_i hl _
    exact .inl (hchecked hrule ▸ hl)
  · rename_i _ hr
    exact .inl (hchecked hrule ▸ hr)
  · rename_i hl _
    exact .inl (hchecked hrule ▸ hl)
  · exact .inr (hchecked hrule).symm
  · cases hrule

/-- Where addresses have eight bytes, the one narrow integer that is left as it was computed is that
to which a pointer was added. -/
theorem addsPointer_of_unreduced {a : Access} {e : Expr} (hc : c.registry.Consistent)
    (hmodel : c.registry.config.model = .lp64) (h : HasType ⟨c.registry, G⟩ C e t)
    (hv : c.registry.Decays t v) (hint : c.registry.isInteger v = true)
    (ha : c.registry.access? v = some a) (hnarrow : a.size < 8)
    (hreduced : Unreduced c.registry e) : AddsPointer c.registry e := by
  have hlong (signed : Bool) : c.registry.access? (c.registry.cLong signed) = some ⟨8, signed⟩ := by
    unfold Registry.cLong
    rw [hmodel]
    exact hc.scalars.access_int (by decide)
  have hpointer (hp : c.registry.isPointer t = true) : False := by
    unfold Registry.isPointer at hp
    unfold Registry.Decays at hv
    unfold Registry.isInteger at hint
    cases hty : c.registry.ty t <;> simp_all
  rcases hreduced with ⟨u, hu, harray⟩ | hform
  · obtain rfl := Option.some.inj (h.ty_eq.symm.trans hu)
    unfold Registry.isArray at harray
    unfold Registry.Decays at hv
    unfold Registry.isInteger at hint
    cases hty : c.registry.ty t <;> simp_all
  cases h with
  | @integer _ n _ _ hinteger hnumbers =>
    obtain ⟨u, b, hu, hb, hheld⟩ := hform
    obtain rfl := Option.some.inj hu
    refine absurd ?_ hheld
    rcases hnumbers with rfl | rfl
    · unfold Typing.integerType at hb
      split at hb
      · rename_i hn
        rw [show Registry.cInt = Registry.int 4 true from rfl,
          hc.scalars.access_int (by decide)] at hb
        obtain rfl := Option.some.inj hb
        exact hn
      · rw [hc.scalars.access_int (by decide)] at hb
        obtain rfl := Option.some.inj hb
        rfl
    · obtain rfl := Option.some.inj ((hlong false).symm.trans hb)
      rfl
  | binary hl hr hop =>
    obtain ⟨hsum, hcounts⟩ := hform
    rcases binaryType_of_isPointer hsum hop (hcounts.imp (isPointer_of_counts hl)
      (isPointer_of_counts hr)) with hp | rfl
    · exact (hpointer hp).elim
    · have harray : c.registry.isArray (c.registry.cLong true) = false :=
        (scalar_of_access (hlong true)).1
      obtain rfl := eq_of_decays hv harray
      obtain rfl := Option.some.inj ((hlong true).symm.trans ha)
      exact absurd hnarrow (Nat.lt_irrefl 8)
  | @assign _ op target source _ u _ htarget _ hmovable hsource hassigns =>
    cases op with
    | none => exact hform.elim
    | some op =>
      obtain ⟨hsum, hcounts⟩ := hform
      have harray : c.registry.isArray t = false := by
        unfold Registry.Movable Registry.isScalar Registry.isInteger Registry.isPointer
          Registry.isStruct at hmovable
        unfold Registry.isArray
        cases hty : c.registry.ty t <;> simp_all
      obtain rfl := eq_of_decays hv harray
      have hcounted : Counts c.registry source := by
        refine hcounts.resolve_left ?_
        rintro ⟨s, hs, hsome⟩
        obtain rfl := Option.some.inj (htarget.ty_eq.symm.trans hs)
        rw [stride_of_isInteger hint] at hsome
        cases hsome
      rcases hsum with rfl | rfl
      · exact hcounted
      · have hp := isPointer_of_counts hsource hcounted
        have hnot := not_isPointer_of_isInteger hint
        unfold Typing.Assigns Typing.checkCompound at hassigns
        simp only [hnot, hint, Bool.false_eq_true, if_false, if_true] at hassigns
        -- A pointer is taken from a pointer only.
        have herror (span : Span) : Typing.pointerType c.registry .sub v u span
            = .error (Typing.invalidOperands c.registry v u span) := by
          unfold Typing.pointerType
          rw [hnot, hp]
        unfold binaryType at hassigns
        split at hassigns
        · cases hassigns
        · simp [hp, herror, BinaryOp.isLogical, BinaryOp.isComparison, Except.map] at hassigns
  | addressOf _ _ hty => exact (hpointer (by unfold Registry.isPointer; rw [hty])).elim
  | _ => exact hform.elim

/-- Where addresses have eight bytes, the value of an integer expression is a word of its type, unless
what is evaluated last adds a pointer to an integer in place. -/
theorem held_integer {a : Access} {e : Expr} (hc : c.registry.Consistent)
    (hmodel : c.registry.config.model = .lp64) (hcalls : CallsHeld c G)
    (h : HasType ⟨c.registry, G⟩ C e t) (hint : c.registry.isInteger t = true)
    (ha : c.registry.access? t = some a) (hadds : ¬ AddsPointer c.registry (lastOf e))
    (hrun : (value c e k).1 st = .ok w st') : Held a w := by
  have hdecays : c.registry.Decays t t := decays_self (scalar_of_access ha).1
  by_cases hreduced : Unreduced c.registry (lastOf e)
  · obtain ⟨C', t', scopes, k', st₁, st₂, h', hv', -, -⟩ :=
      valueOf_expr c hc e h hdecays (by rw [ha]; rfl) hrun
    refine held_of_wide (Nat.le_of_not_lt fun hnarrow => hadds ?_) w
    exact addsPointer_of_unreduced (c := { c with scopes }) hc hmodel h' hv' hint ha hnarrow hreduced
  · exact held_value hc hcalls h hdecays ha hreduced hrun

end Last

end MiniC.Evaluation
