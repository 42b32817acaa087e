import MiniC.Proofs.Evaluation.Reduced
/-!
Compound assignment beside its spelled-out form. `x op= e` computes in the type of `x`, and `x = x op e`
in the common type and converts what comes of it. Main statement: the two forms do the same for all
values of two integer types exactly if the operator and the types are `Alike`. Only a division sees the
difference, and only where the sign of the target is not that of the common type and an operand may be
negative.
-/
namespace MiniC

namespace Evaluation

open Lowering (machineBinary isUnsigned)
open Machine (Fault Memory)
open Registry (widths HasScalars)
open Syntax (BinaryOp Expr)
open Typing (binaryType promote)

/-- The operators that have a compound form. -/
def compounds : List BinaryOp :=
  [.add, .sub, .mul, .div, .mod, .bitAnd, .bitOr, .bitXor, .shl, .shr]

def isShift : BinaryOp → Bool
  | .shl | .shr => true
  | _ => false

/-- Where `m op n` is computed: a shift has the promoted type of its left operand. -/
def meeting (op : BinaryOp) (a b : Access) : Access :=
  if isShift op then promoted a else common a b

/-- No division tells the target from the common type: they agree on the sign, or no operand is
negative. -/
def Alike (op : BinaryOp) (a b : Access) : Prop :=
  isDivision op = true → (common a b).signed = a.signed ∨ a.signed = false ∧ b.signed = false

instance (op : BinaryOp) (a b : Access) : Decidable (Alike op a b) :=
  inferInstanceAs (Decidable (_ → _))

/-- An operator on words, with the sign of a type, and reduced to that type. -/
def reduced (op : BinaryOp) (c : Access) (x y : Int64) : Except Fault Int64 :=
  (operate (machineBinary op (!c.signed)) x y).map c.truncate

/-! Values. -/

section Values

variable {op : BinaryOp} {a b c : Access} {x y : Int64}

theorem Reads.of_nonneg (c : Access) (h : 0 ≤ x.toInt) : Reads c x x.toInt := by
  unfold Reads
  split
  · rfl
  · rw [toNat_toUInt64]
    have hlt := x.toInt_lt
    omega

/-- A word of an unsigned type that is narrower than a word is not negative. -/
theorem nonneg_of_held (ha : a.size = 1 ∨ a.size = 2 ∨ a.size = 4) (hsign : a.signed = false)
    (hx : Held a x) : 0 ≤ x.toInt := by
  rw [toInt_of_held ha hx]
  exact ((wrap_bounds ha x.toInt).2 hsign).1

/-- The sign of a division of words that are not negative does not matter. -/
theorem operate_division (hop : isDivision op = true) (hx : 0 ≤ x.toInt) (hy : 0 ≤ y.toInt)
    (unsigned : Bool) : operate (machineBinary op unsigned) x y = operate (machineBinary op false) x y := by
  cases unsigned with
  | false => rfl
  | true =>
    by_cases hzero : y.toInt = 0
    · obtain rfl : y = 0 := by rw [← Int64.toInt_inj, hzero, Int64.toInt_zero]
      cases op <;> cases hop <;> rfl
    · have hsigned := (Reads.of_nonneg ⟨8, true⟩ hx).quotient (.of_nonneg ⟨8, true⟩ hy) hzero
      have hunsigned := (Reads.of_nonneg ⟨8, false⟩ hx).quotient (.of_nonneg ⟨8, false⟩ hy) hzero
      cases op <;> cases hop
      · exact hunsigned.1.trans hsigned.1.symm
      · exact hunsigned.2.trans hsigned.2.symm

/-- The amount of a shift is its low bits, whatever its sign. -/
theorem smod_width (v : BitVec 64) : v.smod 64 = v % 64 := by
  have hint : (64 : BitVec 64).toInt = 64 := by decide
  have hnat : (64 : BitVec 64).toNat = 64 := by decide
  have hlt : (v % 64).toNat < 64 := by
    rw [BitVec.toNat_umod, hnat]
    exact Nat.mod_lt _ (by decide)
  have hmod : ((v.toNat : Int).bmod (2 ^ 64)) % (2 : Int) ^ 64 = (v.toNat : Int) % 2 ^ 64 :=
    Int.bmod_emod
  rw [← BitVec.toInt_inj, BitVec.toInt_smod, hint, Int.fmod_eq_emod_of_nonneg _ (by decide),
    BitVec.toInt_eq_toNat_of_lt (x := v % 64) (by omega), BitVec.toNat_umod, hnat, Int.natCast_emod,
    BitVec.toInt_eq_toNat_bmod]
  omega

/-- Nothing is shifted in from the left but zeros. -/
theorem operate_shiftRight (hx : 0 ≤ x.toInt) (unsigned : Bool) :
    operate (machineBinary .shr unsigned) x y = operate (machineBinary .shr false) x y := by
  cases unsigned with
  | false => rfl
  | true =>
    have hmsb : x.toBitVec.msb = false := by
      have hnat : (x.toBitVec.toNat : Int) = x.toInt % 2 ^ 64 := toNat_toUInt64 x
      have hlt := x.toInt_lt
      rw [BitVec.msb_eq_false_iff_two_mul_lt]
      omega
    have hshift : (x.toUInt64 >>> y.toUInt64).toInt64 = x >>> y := by
      rw [← Int64.toBitVec_inj, Int64.toBitVec_shiftRight, smod_width, BitVec.sshiftRight',
        BitVec.sshiftRight_eq_of_msb_false hmsb]
      rfl
    exact congrArg Except.ok hshift

theorem truncate_narrow (ha : a.size < 8) (w : Int64) : a.truncate w = Int64.ofInt (wrap a w.toInt) := by
  unfold Access.truncate wrap
  rw [if_neg (Nat.not_le_of_lt ha)]
  split <;> rfl

/-- What is reduced to a type may be reduced to a wider one before. -/
theorem truncate_of_wider (hc : c.size = 4 ∨ c.size = 8) (hac : a.size ≤ c.size) (v : Int64) :
    a.truncate (c.truncate v) = a.truncate v := by
  by_cases hwide : 8 ≤ a.size
  · have hsame : c.truncate v = v := if_pos (Nat.le_trans hwide hac)
    rw [hsame]
  · have hdvd : ((Bytes.range a.size : Nat) : Int) ∣ (Bytes.range c.size : Nat) := by
      rw [range_eq, range_eq]
      exact pow_dvd_pow 2 (by omega)
    rw [truncate_narrow (a := a) (by omega), truncate_narrow (a := a) (by omega), truncate_eq hc]
    refine congrArg Int64.ofInt (wrap_congr ?_)
    rw [← Int.emod_emod_of_dvd _ hdvd, toInt_ofInt_emod hc, wrap_emod, Int.emod_emod_of_dvd _ hdvd]

/-- Two unsigned types meet in a signed one only if both are narrow. -/
theorem narrow_of_common : ∀ a ∈ accesses, ∀ b ∈ accesses, a.signed = false → b.signed = false →
    (common a b).signed = true → (a.size = 1 ∨ a.size = 2 ∨ a.size = 4) ∧
      (b.size = 1 ∨ b.size = 2 ∨ b.size = 4) := by
  decide

theorem narrow_of_promoted : ∀ a ∈ accesses, (promoted a).signed ≠ a.signed →
    a.signed = false ∧ (a.size = 1 ∨ a.size = 2 ∨ a.size = 4) := by
  decide

/-- Where types are alike, their signs make no difference. -/
theorem operate_alike (ha : a.size ∈ widths) (hb : b.size ∈ widths) (hx : Held a x) (hy : Held b y)
    (hop : op ∈ compounds) (h : Alike op a b) :
    operate (machineBinary op (!(meeting op a b).signed)) x y =
      operate (machineBinary op (!a.signed)) x y := by
  have hdivision (hop : isDivision op = true) (hmeets : meeting op a b = common a b) :
      operate (machineBinary op (!(meeting op a b).signed)) x y =
        operate (machineBinary op (!a.signed)) x y := by
    rw [hmeets]
    rcases h hop with hsame | ⟨hsign, hsign'⟩
    · rw [hsame]
    · cases hcommon : (common a b).signed with
      | false => rw [hsign]
      | true =>
        obtain ⟨hnarrow, hnarrow'⟩ := narrow_of_common a (mem_accesses ha) b (mem_accesses hb)
          hsign hsign' hcommon
        rw [operate_division hop (nonneg_of_held hnarrow hsign hx) (nonneg_of_held hnarrow' hsign' hy),
          ← operate_division hop (nonneg_of_held hnarrow hsign hx)
            (nonneg_of_held hnarrow' hsign' hy) (!a.signed)]
  simp only [compounds, List.mem_cons, List.not_mem_nil, or_false] at hop
  rcases hop with rfl | rfl | rfl | rfl | rfl | rfl | rfl | rfl | rfl | rfl
  · rfl
  · rfl
  · rfl
  · exact hdivision rfl rfl
  · exact hdivision rfl rfl
  · rfl
  · rfl
  · rfl
  · rfl
  · show operate (machineBinary .shr (!(promoted a).signed)) x y = _
    by_cases hsame : (promoted a).signed = a.signed
    · rw [hsame]
    · obtain ⟨hsign, hnarrow⟩ := narrow_of_promoted a (mem_accesses ha) hsame
      rw [operate_shiftRight (nonneg_of_held hnarrow hsign hx),
        ← operate_shiftRight (nonneg_of_held hnarrow hsign hx) (!a.signed)]

theorem meeting_size (ha : a.size ∈ widths) (hb : b.size ∈ widths) (op : BinaryOp) :
    (meeting op a b).size = 4 ∨ (meeting op a b).size = 8 := by
  unfold meeting
  split
  · exact promoted_size ha
  · exact common_size ha hb

theorem le_meeting_size : ∀ op ∈ compounds, ∀ a ∈ accesses, ∀ b ∈ accesses,
    a.size ≤ (meeting op a b).size := by
  decide

/-- Computing in the common type and then reducing comes to computing in the type of the target. -/
theorem reduced_of_alike (ha : a.size ∈ widths) (hb : b.size ∈ widths) (hx : Held a x)
    (hy : Held b y) (hop : op ∈ compounds) (h : Alike op a b) :
    (reduced op (meeting op a b) x y).map a.truncate = reduced op a x y := by
  unfold reduced
  rw [operate_alike ha hb hx hy hop h]
  cases operate (machineBinary op (!a.signed)) x y with
  | error e => rfl
  | ok v =>
    exact congrArg Except.ok (truncate_of_wider (meeting_size ha hb op)
      (le_meeting_size op hop a (mem_accesses ha) b (mem_accesses hb)) v)

/-- Where types are not alike, some words show it. -/
theorem reduced_differs : ∀ op ∈ compounds, ∀ a ∈ accesses, ∀ b ∈ accesses, ¬ Alike op a b →
    ∃ x ∈ samples, ∃ y ∈ samples, Held a x ∧ Held b y ∧
      (reduced op (meeting op a b) x y).map a.truncate ≠ reduced op a x y := by
  decide +kernel

end Values

/-! Types. -/

section Types

variable {r : Registry} {op : BinaryOp} {a b c : Access}

theorem binaryType_compound (hr : r.HasScalars) (ha : a.size ∈ widths) (hb : b.size ∈ widths)
    (hop : op ∈ compounds) (span : Span) :
    binaryType r op (integer a) (integer b) span = .ok (integer (meeting op a b)) := by
  by_cases hshift : isShift op
  · obtain ⟨hai, hap⟩ := isInteger_integer hr ha
    obtain ⟨hbi, hbp⟩ := isInteger_integer hr hb
    simp only [meeting, if_pos hshift, binaryType, Registry.isScalar, hai, hbi, hap, hbp,
      ← promote_integer hr ha]
    cases op <;> first | rfl | cases hshift
  · have hmem : op ∈ operators := by
      revert op
      decide
    rw [binaryType_integer hr ha hb hmem, meeting, if_neg hshift, if_neg]
    revert op
    decide

/-- An operator on words, where the result has whatever integer type. -/
theorem arithmetic_eq_reduced (hr : r.HasScalars) (ha : a.size ∈ widths) (hb : b.size ∈ widths)
    (hc : c.size ∈ widths) (hop : op ∈ compounds) (x y : Int64) :
    arithmetic r op x (integer a) y (integer b) (integer c) = reduced op c x y := by
  have hcompare : op.isComparison = false := by
    revert op
    decide
  have hint : arithmetic r op x (integer a) y (integer b) (integer c) =
      integerArithmetic r op x (integer a) y (integer b) (integer c) := by
    unfold arithmetic
    rw [stride_integer hr ha, stride_integer hr hb]
    cases op <;> rfl
  have hsign : isUnsigned r (integer c) = !c.signed := by
    simp only [isUnsigned, integer, hr.ty_int hc]
  have hconvert (v : Int64) : convert r v (integer c) = c.truncate v := by
    simp only [convert, integer, hr.access_int hc]
  rw [hint, integerArithmetic, hcompare, if_neg Bool.false_ne_true, hsign, reduced]
  cases operate (machineBinary op (!c.signed)) x y with
  | error e => rfl
  | ok v => exact congrArg Except.ok (hconvert v)

/-- An integer type is known by its width and sign. -/
theorem eq_integer {t : TypeId} (hc : r.Consistent) (ht : r.isInteger t = true)
    (ha : r.access? t = some a) : t = integer a := by
  have hwidth := (hc.access_size ha).2
  have hty : r.ty t = .int a.size a.signed := by
    unfold Registry.isInteger at ht
    unfold Registry.access? at ha
    cases hty : r.ty t with
    | int bytes signed =>
      rw [hty] at ha
      cases ha
      rfl
    | void | pointer | array | struct =>
      rw [hty] at ht
      cases ht
  have hint : r.ty (integer a) = .int a.size a.signed := hc.scalars.ty_int hwidth
  have hvalid {u : TypeId} (hu : r.ty u = .int a.size a.signed) : u.index < r.types.size := by
    by_contra hout
    rw [Registry.ty_of_not_lt hout] at hu
    cases hu
  exact hc.injective (hvalid hty) (hvalid hint) (hty.trans hint.symm)

end Types

/-! The two forms. -/

/-- A variable of that type, by name. -/
def IsVariable (name : String) (t : TypeId) (x : Expr) : Prop := ∃ span, x = ⟨.name name, span, some t⟩

/-- `x op= e` for a variable of that type. -/
def IsCompound (op : BinaryOp) (name : String) (t : TypeId) (e form : Expr) : Prop :=
  ∃ x span, IsVariable name t x ∧ form = ⟨.assign (some op) x e, span, some t⟩

/-- `x = x op e`, where the operator has the type that analysis gives it. -/
def IsSpelledOut (r : Registry) (op : BinaryOp) (name : String) (t u : TypeId) (e form : Expr) : Prop :=
  ∃ x x' span inner v, IsVariable name t x ∧ IsVariable name t x' ∧
    binaryType r op t u inner = .ok v ∧
    form = ⟨.assign none x ⟨.binary op x' e, inner, some v⟩, span, some t⟩

/-- Evaluation from that store changes nothing, and a value that it yields is one of that width and
sign. -/
def Inert (c : Context) (k : Counters) (b : Access) (e : Expr) (st : Store) : Prop :=
  ∀ w st', (value c e k).1 st = .ok w st' → st' = st ∧ Held b w

/-- The right operands of two forms: they have that type, come to the same, and change nothing. -/
structure Twins (c : Context) (k : Counters) (u : TypeId) (b : Access) (st : Store) (e e' : Expr) :
    Prop where
  ty : e.ty = some u
  ty' : e'.ty = some u
  same : (value c e' k).1 st = (value c e k).1 st
  inert : Inert c k b e st

section Forms

variable {c : Context} {k : Counters} {op : BinaryOp} {name : String} {t u : TypeId} {a b : Access}
  {e e' form form' : Expr} {st : Store}

theorem bind_of_ok {α β : Type} {act : Action α} {f : α → Action β} {x : α} {st st' : Store}
    (h : act st = .ok x st') : (act >>= f) st = f x st' := by
  show EStateM.bind act f st = _
  unfold EStateM.bind
  rw [h]

theorem bind_of_error {α β : Type} {act : Action α} {f : α → Action β} {exit : Exit} {st st' : Store}
    (h : act st = .error exit st') : (act >>= f) st = .error exit st' := by
  show EStateM.bind act f st = _
  unfold EStateM.bind
  rw [h]

theorem get_ok (st : Store) : (get : Action Store) st = .ok st st := rfl

/-- Where a variable lies is found without a change. -/
theorem named_cases (c : Context) (t : TypeId) (name : String) (st : Store) :
    (∃ address, c.named t name st = .ok (.object t address) st) ∨
      ∃ exit, c.named t name st = .error exit st := by
  unfold Context.named
  cases c.scopes.findSome? (·.lookup name) with
  | some j =>
    cases hhome : st.homes j with
    | some address =>
      have hrun : home j st = .ok address st := by
        rw [home, bind_of_ok (get_ok st), hhome]
        rfl
      exact .inl ⟨address, bind_of_ok hrun⟩
    | none =>
      have hrun : home j st = .error .stuck st := by
        rw [home, bind_of_ok (get_ok st), hhome]
        rfl
      exact .inr ⟨.stuck, bind_of_error hrun⟩
  | none =>
    cases c.global name with
    | some address => exact .inl ⟨address, rfl⟩
    | none => exact .inr ⟨_, rfl⟩

theorem load_scalar (ha : c.registry.access? t = some a) (address : Int64) (st : Store) :
    load c.registry t address st = lift (st.memory.load address a.size a.signed) st := by
  obtain ⟨harray, hstruct⟩ := scalar_of_access ha
  unfold load
  rw [harray, hstruct, ha]
  exact bind_of_ok (get_ok st)

/-- A scalar is read without a change. -/
theorem load_cases (hc : c.registry.Consistent) (ha : c.registry.access? t = some a) (address : Int64)
    (st : Store) :
    (∃ x, load c.registry t address st = .ok x st ∧ Held a x) ∨
      ∃ exit, load c.registry t address st = .error exit st := by
  rw [load_scalar ha]
  cases hread : st.memory.load address a.size a.signed with
  | ok x => exact .inl ⟨x, rfl, held_load (hc.access_le ha) hread⟩
  | error fault => exact .inr ⟨.fault fault, rfl⟩

/-- The end of either form: a result is stored and is the value. -/
def commit (r : Registry) (t : TypeId) (address : Int64) (result : Except Fault Int64) :
    Action Int64 := do
  let w ← lift result
  store r t address w
  return w

theorem value_compound (ha : c.registry.access? t = some a) (h : IsCompound op name t e form) :
    (value c form k).1 = assignCompound c.registry op t e.ty (value c e k).1
      (placeOf (c.named t name)) := by
  obtain ⟨x, span, ⟨span', rfl⟩, rfl⟩ := h
  have hstruct := (scalar_of_access ha).2
  unfold value
  rw [expr, exprKind]
  simp only [hstruct]
  exact valueOf_value c.registry _

theorem value_spelledOut (ha : c.registry.access? t = some a) (hop : op ∈ compounds)
    (h : IsSpelledOut c.registry op name t u e form) :
    ∃ span v, binaryType c.registry op t u span = .ok v ∧
      (value c form k).1 = assignScalar c.registry t
        (binary c.registry op (some t) e.ty v (valueOf c.registry (c.named t name)) (value c e k).1)
        (placeOf (c.named t name)) := by
  obtain ⟨x, x', span, inner, v, ⟨span', rfl⟩, ⟨span'', rfl⟩, hv, rfl⟩ := h
  refine ⟨inner, v, hv, ?_⟩
  have hstruct := (scalar_of_access ha).2
  have hlogical : op.isLogical = false := by
    clear hv
    revert op
    decide
  have hsource : (value c ⟨.binary op ⟨.name name, span'', some t⟩ e, inner, some v⟩ k).1 =
      binary c.registry op (some t) e.ty v (valueOf c.registry (c.named t name)) (value c e k).1 := by
    unfold value
    rw [expr, exprKind, hlogical]
    exact valueOf_value c.registry _
  rw [← hsource]
  unfold value
  rw [expr, exprKind]
  simp only [hstruct]
  exact valueOf_value c.registry _

section Runs

variable {x y address : Int64} (hc : c.registry.Consistent) (ht : c.registry.isInteger t = true)
  (ha : c.registry.access? t = some a) (hu : c.registry.isInteger u = true)
  (hb : c.registry.access? u = some b) (hop : op ∈ compounds) (hty : e.ty = some u)
  (hnamed : c.named t name st = .ok (.object t address) st)
  (hload : load c.registry t address st = .ok x st) (he : (value c e k).1 st = .ok y st)

include hc ht ha hu hb hop hty hnamed hload he

/-- The compound form computes in the type of the variable. -/
theorem run_compound (h : IsCompound op name t e form) :
    (value c form k).1 st = commit c.registry t address (reduced op a x y) st := by
  have hwidth := (hc.access_size ha).2
  have hresult : arithmetic c.registry op x t y u t = reduced op a x y := by
    rw [eq_integer hc ht ha, eq_integer hc hu hb]
    exact arithmetic_eq_reduced hc.scalars hwidth (hc.access_size hb).2 hwidth hop x y
  have hplace : placeOf (c.named t name) st = .ok (t, address) st := bind_of_ok hnamed
  rw [value_compound ha h, assignCompound, hty, commit, ← hresult]
  exact (bind_of_ok hplace).trans ((bind_of_ok hload).trans (bind_of_ok he))

/-- The other form computes in the type in which the operands meet, and reduces what comes of it. -/
theorem run_spelledOut (h : IsSpelledOut c.registry op name t u e form) :
    (value c form k).1 st =
      commit c.registry t address ((reduced op (meeting op a b) x y).map a.truncate) st := by
  have hwidth := (hc.access_size ha).2
  have hwidth' := (hc.access_size hb).2
  obtain ⟨span, v, hv, hform⟩ := value_spelledOut (k := k) ha hop h
  have hmeeting : v = integer (meeting op a b) := by
    rw [eq_integer hc ht ha, eq_integer hc hu hb, binaryType_compound hc.scalars hwidth hwidth' hop] at hv
    exact (Except.ok.inj hv).symm
  have hresult : arithmetic c.registry op x t y u v = reduced op (meeting op a b) x y := by
    have hmeets : (meeting op a b).size ∈ widths := by
      rcases meeting_size hwidth hwidth' op with h | h <;> rw [h] <;> decide
    rw [hmeeting, eq_integer hc ht ha, eq_integer hc hu hb]
    exact arithmetic_eq_reduced hc.scalars hwidth hwidth' hmeets hop x y
  have hplace : placeOf (c.named t name) st = .ok (t, address) st := bind_of_ok hnamed
  have hold : valueOf c.registry (c.named t name) st = .ok x st := by
    rw [valueOf, bind_of_ok hnamed]
    exact hload
  have hsource : binary c.registry op (some t) e.ty v (valueOf c.registry (c.named t name))
      (value c e k).1 st = lift (reduced op (meeting op a b) x y) st := by
    rw [binary, bind_of_ok hold, bind_of_ok he, hty, ← hresult]
    rfl
  rw [hform, commit, assignScalar]
  cases hw : reduced op (meeting op a b) x y with
  | error fault =>
    rw [hw] at hsource
    exact bind_of_error (bind_of_error hsource)
  | ok w =>
    rw [hw] at hsource
    have hconverted : converted c.registry t (binary c.registry op (some t) e.ty v
        (valueOf c.registry (c.named t name)) (value c e k).1) st = .ok (a.truncate w) st := by
      have hconvert : convert c.registry w t = a.truncate w := by
        unfold convert
        rw [ha]
      rw [converted, bind_of_ok hsource, hconvert]
      rfl
    exact (bind_of_ok hconverted).trans (bind_of_ok hplace)

end Runs

/-- Either form begins with the value of the variable, and ends there where it has none. -/
theorem old_cases (hc : c.registry.Consistent) (ha : c.registry.access? t = some a) (op : BinaryOp)
    (name : String) (sourceTy : Option TypeId) (source : Action Int64) (st : Store) :
    (∃ address x, c.named t name st = .ok (.object t address) st ∧
        load c.registry t address st = .ok x st ∧ Held a x) ∨
      ∃ exit, valueOf c.registry (c.named t name) st = .error exit st ∧
        assignCompound c.registry op t sourceTy source (placeOf (c.named t name)) st =
          .error exit st := by
  rcases named_cases c t name st with ⟨address, hnamed⟩ | ⟨exit, hnamed⟩
  · have hplace : placeOf (c.named t name) st = .ok (t, address) st := bind_of_ok hnamed
    rcases load_cases hc ha address st with ⟨x, hload, hx⟩ | ⟨exit, hload⟩
    · exact .inl ⟨address, x, hnamed, hload, hx⟩
    · exact .inr ⟨exit, (bind_of_ok hnamed).trans hload,
        (bind_of_ok hplace).trans (bind_of_error hload)⟩
  · exact .inr ⟨exit, bind_of_error hnamed, bind_of_error (bind_of_error hnamed)⟩

/-- Where the types are alike for the operator, the two forms do the same to a store. -/
theorem forms_agree (hc : c.registry.Consistent) (ht : c.registry.isInteger t = true)
    (ha : c.registry.access? t = some a) (hu : c.registry.isInteger u = true)
    (hb : c.registry.access? u = some b) (hop : op ∈ compounds) (halike : Alike op a b)
    (htwins : Twins c k u b st e e') (h : IsCompound op name t e form)
    (h' : IsSpelledOut c.registry op name t u e' form') :
    (value c form k).1 st = (value c form' k).1 st := by
  rcases old_cases hc ha op name e.ty (value c e k).1 st with
    ⟨address, x, hnamed, hload, hx⟩ | ⟨exit, hold, hcompound⟩
  · cases he : (value c e k).1 st with
    | ok y st' =>
      obtain ⟨rfl, hy⟩ := htwins.inert y st' he
      rw [run_compound hc ht ha hu hb hop htwins.ty hnamed hload he h,
        run_spelledOut hc ht ha hu hb hop htwins.ty' hnamed hload (htwins.same.trans he) h',
        reduced_of_alike (hc.access_size ha).2 (hc.access_size hb).2 hx hy hop halike]
    | error exit st' =>
      obtain ⟨span, v, -, hform'⟩ := value_spelledOut (k := k) ha hop h'
      have hplace : placeOf (c.named t name) st = .ok (t, address) st := bind_of_ok hnamed
      have hold : valueOf c.registry (c.named t name) st = .ok x st := (bind_of_ok hnamed).trans hload
      have hcompound : (value c form k).1 st = .error exit st' := by
        rw [value_compound ha h]
        exact (bind_of_ok hplace).trans ((bind_of_ok hload).trans (bind_of_error he))
      have hspelled : (value c form' k).1 st = .error exit st' := by
        rw [hform']
        exact bind_of_error (bind_of_error
          ((bind_of_ok hold).trans (bind_of_error (htwins.same.trans he))))
      rw [hcompound, hspelled]
  · obtain ⟨span, v, -, hform'⟩ := value_spelledOut (k := k) ha hop h'
    rw [value_compound ha h, hcompound, hform']
    exact (bind_of_error (bind_of_error (bind_of_error hold))).symm

/-- Two mentions of a variable. -/
theorem twins_of_variable (hc : c.registry.Consistent) (hb : c.registry.access? u = some b)
    (h : IsVariable name u e) (h' : IsVariable name u e') (k : Counters) (st : Store) :
    Twins c k u b st e e' := by
  obtain ⟨span, rfl⟩ := h
  obtain ⟨span', rfl⟩ := h'
  refine ⟨rfl, rfl, rfl, fun w st' hrun => ?_⟩
  replace hrun : valueOf c.registry (c.named u name) st = .ok w st' := hrun
  rcases old_cases hc hb .add name none (throw .stuck) st with
    ⟨address, x, hnamed, hload, hx⟩ | ⟨exit, hold, -⟩
  · have hold : valueOf c.registry (c.named u name) st = .ok x st := (bind_of_ok hnamed).trans hload
    cases hold.symm.trans hrun
    exact ⟨rfl, hx⟩
  · cases hold.symm.trans hrun

/-- Different results that can be stored are told apart by what is done with them. -/
theorem commit_ne {r : Registry} {address : Int64} {result result' : Except Fault Int64} {st : Store}
    (hstore : ∀ w, ∃ st', store r t address w st = .ok () st') (h : result ≠ result') :
    commit r t address result st ≠ commit r t address result' st := by
  have hcommit (w : Int64) : ∃ st', commit r t address (.ok w) st = .ok w st' := by
    obtain ⟨st', hst'⟩ := hstore w
    exact ⟨st', bind_of_ok hst'⟩
  intro heq
  cases result with
  | ok w =>
    obtain ⟨st₁, h₁⟩ := hcommit w
    cases result' with
    | ok w' =>
      obtain ⟨st₂, h₂⟩ := hcommit w'
      rw [h₁, h₂] at heq
      exact h (congrArg Except.ok (EStateM.Result.ok.inj heq).1)
    | error e =>
      rw [h₁] at heq
      cases heq
  | error e =>
    cases result' with
    | ok w' =>
      obtain ⟨st₂, h₂⟩ := hcommit w'
      rw [h₂] at heq
      cases heq
    | error e' =>
      cases heq
      exact h rfl

end Forms

end Evaluation
end MiniC
