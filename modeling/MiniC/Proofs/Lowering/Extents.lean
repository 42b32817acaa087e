import MiniC.Proofs.Layout.Scalars
import MiniC.Proofs.Lowering.Obedience
/-!
The code of the forms of expressions and of control. Main statements: the parts of an object that may
be accessed are accessed inside it, whatever its place is, and a form whose operands keep the terms
keeps them.
-/
namespace MiniC.Lowering

open Code (Inst Label Obeys Operand Temp Terms Types)
open Syntax (Expr)
open Typing (Frames)

/-- What the terms have to grant so that code lowered for such a function keeps them. -/
structure Pact.Sound (M : Pact) (r : Registry) (returns : TypeId) : Prop where
  consistent : r.Consistent
  /-- Part of what may be accessed may be accessed. -/
  parts : ∀ ⦃a o n d k⦄, M.terms.reach a o n → d + k ≤ n → M.terms.reach a (o + Int64.ofNat d) k
  /-- An address inside may stand for the object. -/
  moves : ∀ ⦃a o n⦄, M.terms.reach a o n → M.terms.reach (a + o) 0 n
  objects : ∀ sym ∈ M.globals, sym.IsObject →
    ∀ a, M.terms.symbol sym.name a → M.terms.reach a 0 (r.sizeOf sym.ty)
  results : ∀ sym ∈ M.globals, ∀ sig, sym.kind = .function sig → r.isStruct sym.ty = false
  arguments : ∀ sym ∈ M.globals, ∀ sig, sym.kind = .function sig → ∀ i v,
    (∀ t, sig.params[i]? = some t → M.Fits r t v) → M.terms.param sym.name i v
  result : ∀ v, (∀ a, r.access? returns = some a → a.truncate v = v) → M.terms.result M.name v

namespace Claim

def known (p : Prop) : Claim := ⟨fun _ _ => p, fun _ _ _ _ h _ _ => h⟩

def word (M : Pact) (o : Operand) : Claim := carries M.terms o fun _ => True

def fits (M : Pact) (r : Registry) (t : TypeId) (o : Operand) : Claim := carries M.terms o (M.Fits r t)

/-- So many bytes of a place may be accessed. -/
def reaches (M : Pact) (p : Place) (n : Nat) : Claim :=
  carries M.terms p.base (M.terms.reach · p.offset n)

/-- A place of an object of that type. -/
def object (M : Pact) (r : Registry) (t : TypeId) (p : Place) : Claim :=
  (known (p.ty = t)).and (reaches M p (r.sizeOf t))

def denotes (M : Pact) (r : Registry) (t : TypeId) : Lowered → Claim
  | .place p => object M r t p
  | .value v => fits M r t v

/-- A word that was reduced to a type, if it is one of a scalar. -/
def converted (M : Pact) (r : Registry) (t : TypeId) (X : Int64 → Prop) (o : Operand) : Claim :=
  carries M.terms o fun v =>
    (r.access? t = none → X v) ∧ ∀ a, r.access? t = some a → a.truncate v = v

section Claims

variable {M : Pact} {r : Registry} {P : Claim} {t t' : TypeId} {o : Operand}

theorem gives_fits (h : P.Gives (word M o)) (ht : r.isStruct t = false) : P.Gives (fits M r t o) :=
  h.weaken fun v _ hstruct => by rw [ht] at hstruct; cases hstruct

/-- The object of a place has the type that the place says. -/
theorem Gives.place {p : Place} (h : P.Gives (object M r t p)) :
    P.Gives (reaches M p (r.sizeOf p.ty)) := by
  intro T n hP
  obtain ⟨hty, hreach⟩ := h T n hP
  obtain rfl : p.ty = t := hty
  exact hreach

theorem gives_fits_const (n : Int64) (ht : r.isStruct t = false) :
    P.Gives (fits M r t (.const n)) :=
  gives_fits (gives_const trivial) ht

end Claims

end Claim

theorem Pact.fits_of_decays {M : Pact} {r : Registry} {t t' : TypeId} {v : Int64}
    (h : r.Decays t t') (hv : M.Fits r t v) : M.Fits r t' v := by
  unfold Registry.Decays at h
  split at h
  · intro hstruct
    simp only [Registry.isStruct, h] at hstruct
    cases hstruct
  · exact h ▸ hv

section Forms

variable {M : Pact} {r : Registry} {returns : TypeId} {P Q : Claim} {Γ Γ' : Frames} {t t' : TypeId}
  {X : Int64 → Prop} {o o' : Operand} {p dst src : Place}

/-! Words. -/

/-- An instruction that computes some word from words. -/
theorem emits_word {make : Temp → Inst} (hdst : ∀ t, (make t).dst? = some t)
    (hoperands : ∀ t, ∀ o ∈ (make t).operands, P.Gives (.word M o))
    (hobeys : ∀ t T n, P.holds T n → T t = (fun _ => True) → Obeys M.terms T M.name (make t)) :
    Emits M r P Γ Γ (define make) fun o => .word M o := by
  refine .define _ fun t T n hP hT ht => ⟨hobeys t T n hP hT, fun u hu => ?_, fun o ho => ?_⟩
  · rw [hdst] at hu
    cases hu
    exact ht
  · exact (hoperands t o ho T n hP).1

theorem emits_binary (op : Code.BinaryOp) (ho : P.Gives (.word M o)) (ho' : P.Gives (.word M o')) :
    Emits M r P Γ Γ (define (.binary · op o o')) fun o => .word M o := by
  refine emits_word (fun _ => rfl) (fun t u hu => ?_)
    fun t T n _ hT a b v _ _ _ => hT ▸ trivial
  simp only [Inst.operands, List.mem_cons, List.not_mem_nil, or_false] at hu
  rcases hu with rfl | rfl
  · exact ho
  · exact ho'

theorem emits_unary (op : Code.UnaryOp) (ho : P.Gives (.word M o)) :
    Emits M r P Γ Γ (define (.unary · op o)) fun o => .word M o :=
  emits_word (fun _ => rfl) (fun _ _ hu => List.mem_singleton.mp hu ▸ ho)
    fun _ _ _ _ hT _ _ => hT ▸ trivial

theorem emits_scale (ho : P.Gives (.word M o)) (stride : Int64) :
    Emits M r P Γ Γ (scale o stride) fun o => .word M o := by
  unfold scale
  refine .ite (fun _ => .pure ho) fun _ => ?_
  split
  · exact .pure (Claim.gives_const trivial)
  · exact emits_binary .mul ho (Claim.gives_const trivial)

/-- A scalar is reduced to its type, and anything else stays. -/
theorem emits_convert (ho : P.Gives (.carries M.terms o X)) (t : TypeId) :
    Emits M r P Γ Γ (convert r o t) fun o => .converted M r t X o := by
  unfold convert
  split
  · rename_i hnone
    refine .pure (ho.weaken fun v hv => ⟨fun _ => hv, fun a ha => ?_⟩)
    rw [hnone] at ha
    cases ha
  · rename_i access haccess
    have hword {v : Int64} (hv : access.truncate v = v) : (r.access? t = none → X v) ∧
        ∀ a, r.access? t = some a → a.truncate v = v := by
      rw [haccess]
      exact ⟨nofun, fun a ha => Option.some.inj ha ▸ hv⟩
    refine .ite (fun hwide => .pure (ho.weaken fun v _ => hword ?_)) fun hnarrow => ?_
    · rw [Access.truncate, if_pos hwide]
    · split
      · exact .pure (Claim.gives_const (hword (access.truncate_truncate _)))
      · refine (Emits.define (fun v => access.truncate v = v)
          fun t T n hP hT ht => ⟨?_, fun u hu => ?_, fun u hu => ?_⟩).mono fun o =>
            (Claim.gives_right _ _).weaken fun v hv => hword hv
        · intro v _
          rw [hT]
          exact access.truncate_truncate v
        · cases hu
          exact ht
        · exact List.mem_singleton.mp hu ▸ (ho T n hP).1

theorem emits_convert_word (ho : P.Gives (.word M o)) (t : TypeId) :
    Emits M r P Γ Γ (convert r o t) fun o => .word M o :=
  (emits_convert ho t).mono fun _ => (Claim.gives_right _ _).word

theorem emits_integerArithmetic (op : Syntax.BinaryOp) (ho : P.Gives (.word M o)) (leftTy : TypeId)
    (ho' : P.Gives (.word M o')) (rightTy result : TypeId) :
    Emits M r P Γ Γ (integerArithmetic r op o leftTy o' rightTy result) fun o => .word M o := by
  unfold integerArithmetic
  exact .ite (fun _ => emits_binary _ ho ho') fun _ =>
    (emits_binary _ ho ho').bind fun _ => emits_convert_word (Claim.gives_right _ _) result

theorem emits_arithmetic (op : Syntax.BinaryOp) (ho : P.Gives (.word M o)) (leftTy : TypeId)
    (ho' : P.Gives (.word M o')) (rightTy result : TypeId) :
    Emits M r P Γ Γ (arithmetic r op o leftTy o' rightTy result) fun o => .word M o := by
  unfold arithmetic
  split
  · exact (emits_scale ho' _).bind fun _ => emits_binary _ (ho.left _) (Claim.gives_right _ _)
  · exact (emits_scale ho' _).bind fun _ => emits_binary _ (ho.left _) (Claim.gives_right _ _)
  · exact (emits_scale ho _).bind fun _ => emits_binary _ (ho'.left _) (Claim.gives_right _ _)
  · exact (emits_binary _ ho ho').bind fun _ => .ite
      (fun _ => emits_binary _ (Claim.gives_right _ _) (Claim.gives_const trivial))
      fun _ => .pure (Claim.gives_right _ _)
  · exact emits_integerArithmetic _ ho leftTy ho' rightTy result

theorem emits_typeOf (e : Expr) : Emits M r P Γ Γ (typeOf e) fun _ => .any :=
  .need fun _ _ => Claim.gives_any P

/-! Places. -/

/-- A read inside what may be accessed. -/
theorem emits_read {base : Operand} {offset : Int64} {a : Access}
    (h : P.Gives (.carries M.terms base fun b => M.terms.reach b offset a.size)) :
    Emits M r P Γ Γ (define (.load · base offset a)) fun o => .word M o :=
  emits_word (fun _ => rfl) (fun _ _ hu => List.mem_singleton.mp hu ▸ h.word)
    fun _ T n hP hT b hb => ⟨(h T n hP).2 b hb, fun _ => hT ▸ trivial⟩

theorem emits_write {base : Operand} {offset : Int64} {n : Nat}
    (h : P.Gives (.carries M.terms base fun b => M.terms.reach b offset n))
    (ho : P.Gives (.word M o)) :
    Emits M r P Γ Γ (emit (.store base offset o n)) fun _ => .any := by
  refine .emit fun T m hP => ⟨(h T m hP).2, nofun, fun u hu => ?_⟩
  simp only [Inst.operands, List.mem_cons, List.not_mem_nil, or_false] at hu
  rcases hu with rfl | rfl
  · exact (h T m hP).1
  · exact (ho T m hP).1

variable (hM : M.Sound r returns)
include hM

theorem emits_address {n : Nat} (hp : P.Gives (.reaches M p n)) :
    Emits M r P Γ Γ p.address fun o => .carries M.terms o (M.terms.reach · 0 n) := by
  unfold Place.address
  refine .ite (fun hzero => .pure (hp.weaken fun a ha => ?_)) fun _ => ?_
  · rw [hzero] at ha
    exact ha
  · split
    · rename_i m hbase
      intro T s o s' hs hP hrun
      obtain ⟨rfl, rfl⟩ := pure_eq_ok.mp hrun
      obtain ⟨-, hreach⟩ := hp T _ hP
      rw [hbase] at hreach
      exact .refl hs ⟨trivial, fun v hv => hv ▸ hM.moves (hreach m rfl)⟩
    · refine .define _ fun t T n hP hT ht => ⟨fun a b v ha hb hv => ?_, fun u hu => ?_, fun u hu => ?_⟩
      · obtain rfl : b = p.offset := hb
        obtain rfl : a + p.offset = v := Option.some.inj hv
        rw [hT]
        exact hM.moves ((hp T n hP).2 a ha)
      · cases hu
        exact ht
      · simp only [Inst.operands, List.mem_cons, List.not_mem_nil, or_false] at hu
        rcases hu with rfl | rfl
        · exact (hp T n hP).1
        · trivial

/-- Part of a place. -/
theorem gives_part {n d k : Nat} (hp : P.Gives (.reaches M p n)) (hd : d + k ≤ n) :
    P.Gives (.carries M.terms p.base (M.terms.reach · (p.offset + Int64.ofNat d) k)) :=
  hp.weaken fun _ ha => hM.parts ha hd

theorem gives_further {n d k : Nat} (hp : P.Gives (.reaches M p n)) (hd : d + k ≤ n) (ty : TypeId) :
    P.Gives (.reaches M (p.further (Int64.ofNat d) ty) k) := by
  simpa only [Claim.reaches, Place.further] using gives_part hM hp hd

/-- The first bytes of a place. -/
theorem gives_first {n k : Nat} (hp : P.Gives (.reaches M p n)) (hk : k ≤ n) :
    P.Gives (.reaches M p k) := by
  refine hp.weaken fun a ha => ?_
  have hzero := hM.parts (d := 0) (k := k) ha (by omega)
  rwa [show Int64.ofNat 0 = 0 from rfl, Int64.add_zero] at hzero

/-- What is read is an address, or some word. -/
theorem emits_load (hp : P.Gives (.object M r t p)) :
    Emits M r P Γ Γ (p.load r) (Claim.fits M r t) := by
  intro T s o s' hs hP hrun
  obtain ⟨hty, hreach⟩ := hp T _ hP
  obtain rfl : p.ty = t := hty
  have hp' : (Claim.reaches M p (r.sizeOf p.ty)).Gives (.reaches M p (r.sizeOf p.ty)) := .refl _
  suffices h : Emits M r (.reaches M p (r.sizeOf p.ty)) Γ Γ (p.load r) (Claim.fits M r p.ty) from
    h hs hreach hrun
  unfold Place.load
  refine .ite (fun _ => (emits_address hM hp').mono fun o => ?_) fun hwhole => ?_
  · exact (Claim.gives_right _ _).weaken fun v hv _ => hv
  · simp only [Bool.or_eq_true, not_or, Bool.not_eq_true] at hwhole
    split
    · rename_i a ha
      have hsize := (hM.consistent.access_size ha).1
      refine (emits_read ?_).mono fun o => Claim.gives_fits (Claim.gives_right _ _) hwhole.2
      exact hsize ▸ hp'
    · exact .pure (Claim.gives_fits_const 0 hwhole.2)

theorem emits_store (hp : P.Gives (.reaches M p (r.sizeOf p.ty))) (ho : P.Gives (.word M o)) :
    Emits M r P Γ Γ (p.store r o) fun _ => .any := by
  refine .bind (Q := fun a => .known (r.access? p.ty = some a)) (.need fun a ha _ _ _ => ha)
    fun a => ?_
  intro T s u s' hs hP hrun
  have hsize := (hM.consistent.access_size hP.2).1
  exact emits_write (hsize ▸ hp.left _) (ho.left _) hs hP hrun

theorem emits_copyMoves {n : Nat} (hdst : P.Gives (.reaches M dst n))
    (hsrc : P.Gives (.reaches M src n)) (ms : List ScalarMove)
    (hms : ∀ m ∈ ms, m.offset + m.access.size ≤ n) :
    Emits M r P Γ Γ (Place.copyMoves dst src ms) fun _ => .any := by
  induction ms generalizing P with
  | nil => exact .pure (Claim.gives_any P)
  | cons m ms ih =>
    have hm := hms m (List.mem_cons_self ..)
    refine (emits_read (gives_part hM hsrc hm)).bind fun v => .bind
      (emits_write ((gives_part hM hdst hm).left _) (Claim.gives_right _ _)) fun _ => ?_
    exact ih ((hdst.left _).left _) ((hsrc.left _).left _) fun m' hm' =>
      hms m' (List.mem_cons_of_mem _ hm')

/-- Only scalars inside the object are moved. -/
theorem emits_copy (hdst : P.Gives (.reaches M dst (r.sizeOf dst.ty)))
    (hsrc : P.Gives (.reaches M src (r.sizeOf dst.ty))) :
    Emits M r P Γ Γ (Place.copy r dst src) fun _ => .any :=
  emits_copyMoves hM hdst hsrc _ fun _ hm => hM.consistent.move_inside dst.ty hm

theorem emits_zero (hp : P.Gives (.reaches M p (r.sizeOf p.ty))) :
    Emits M r P Γ Γ (p.zero r) fun _ => .any := by
  suffices h : ∀ ms : List ScalarMove, (∀ m ∈ ms, m.offset + m.access.size ≤ r.sizeOf p.ty) →
      Emits M r P Γ Γ (Place.zeroMoves p ms) fun _ => .any from
    h _ fun _ hm => hM.consistent.move_inside p.ty hm
  intro ms hms
  induction ms generalizing P with
  | nil => exact .pure (Claim.gives_any P)
  | cons m ms ih =>
    have hm := hms m (List.mem_cons_self ..)
    refine .bind (emits_write (gives_part hM hp hm) (Claim.gives_const trivial)) fun _ => ?_
    exact ih (hp.left _) fun m' hm' => hms m' (List.mem_cons_of_mem _ hm')

theorem emits_storeBytes (bs : List UInt8) (hp : P.Gives (.reaches M p bs.length)) :
    Emits M r P Γ Γ (p.storeBytes bs) fun _ => .any := by
  induction bs generalizing P p with
  | nil => exact .pure (Claim.gives_any P)
  | cons b bs ih =>
    rw [List.length_cons] at hp
    refine .bind (emits_write (gives_first hM hp (by omega)) (Claim.gives_const trivial)) fun _ => ih ?_
    exact (gives_part hM hp (d := 1) (by omega)).left _

/-! What is done with what an expression denotes. -/

variable {code : Lower Lowered}

theorem emits_valueOf (h : Emits M r P Γ Γ' code (Claim.denotes M r t)) :
    Emits M r P Γ Γ' (valueOf r code) fun o => .fits M r t o := by
  refine h.bind fun l => ?_
  cases l with
  | place p => exact (emits_load hM (Claim.gives_right _ _)).mono fun o => Claim.gives_right _ _
  | value v => exact .pure (Claim.gives_right _ _)

omit hM in
theorem emits_placeOf (e : Expr) (h : Emits M r P Γ Γ' code (Claim.denotes M r t)) :
    Emits M r P Γ Γ' (placeOf e code) (Claim.object M r t) := by
  refine h.bind fun l => ?_
  cases l with
  | place p => exact .pure (Claim.gives_right _ _)
  | value v => exact .throw

/-- A member of an object, or of a value, whose address is its value. -/
theorem emits_storageOf {m : MemberRef} {field : String}
    (h : Emits M r P Γ Γ' code (Claim.denotes M r t)) (hm : r.member t field = .ok m) :
    Emits M r P Γ Γ' (storageOf code (Int64.ofNat m.offset) m.ty) (Claim.object M r m.ty) := by
  obtain ⟨hstruct, hinside⟩ := hM.consistent.inside_of_member hm
  refine h.bind fun l => ?_
  cases l with
  | place p =>
    refine .pure fun T n hP => ⟨rfl, ?_⟩
    exact gives_part hM (Claim.gives_right _ _) hinside T n hP.2
  | value v =>
    refine .pure fun T n hP => ⟨rfl, hP.2.1, fun w hw => ?_⟩
    have hpart := hM.parts (hP.2.2 w hw hstruct) hinside
    rwa [Int64.zero_add] at hpart

/-! Expressions, around operands that are given as code. -/

variable {source cond left right yes no index : Lower Operand} {target : Lower Place}

theorem emits_assignStruct (hs : Emits M r .any Γ Γ source (Claim.fits M r t))
    (hp : Emits M r .any Γ Γ target (Claim.object M r t)) (ht : r.isStruct t = true) :
    Emits M r P Γ Γ (assignStruct r t source target) (Claim.fits M r t) := by
  refine hs.always.bind fun v => hp.always.bind fun p => ?_
  have hdst : ((P.and (.fits M r t v)).and (.object M r t p)).Gives
      (.reaches M p (r.sizeOf p.ty)) := (Claim.gives_right _ _).place
  have hsrc : ((P.and (.fits M r t v)).and (.object M r t p)).Gives
      (.reaches M ⟨v, 0, t⟩ (r.sizeOf p.ty)) := by
    rintro T n ⟨⟨-, hbelow, hv⟩, hty, -⟩
    obtain rfl : p.ty = t := hty
    exact ⟨hbelow, fun a ha => hv a ha ht⟩
  refine (emits_copy hM hdst hsrc).bind fun _ => (emits_address hM (hdst.left _)).mono fun o => ?_
  rintro T n ⟨⟨⟨-, hty, -⟩, -⟩, hbelow, ho⟩
  obtain rfl : p.ty = t := hty
  exact ⟨hbelow, fun a ha _ => ho a ha⟩

theorem emits_assignScalar (hs : Emits M r .any Γ Γ source (Claim.fits M r t'))
    (hp : Emits M r .any Γ Γ target (Claim.object M r t)) :
    Emits M r P Γ Γ (assignScalar r t source target) (Claim.word M) :=
  hs.always.bind fun _ => (emits_convert_word (Claim.gives_right _ _).word t).bind fun _ =>
    hp.always.bind fun _ =>
      (emits_store hM (Claim.gives_right _ _).place ((Claim.gives_right _ _).left _)).bind fun _ =>
        .pure (((Claim.gives_right _ _).left _).left _)

theorem emits_assignCompound (op : Syntax.BinaryOp) (e : Expr)
    (hs : Emits M r .any Γ Γ source (Claim.fits M r t'))
    (hp : Emits M r .any Γ Γ target (Claim.object M r t)) :
    Emits M r P Γ Γ (assignCompound r op t e source target) (Claim.word M) := by
  refine hp.always.bind fun p => (emits_load hM (Claim.gives_right _ _)).bind fun old =>
    hs.always.bind fun v => (emits_typeOf e).bind fun sourceTy => ?_
  have hold := ((Claim.gives_right (P.and (.object M r t p)) (.fits M r t old)).word.left
    (.fits M r t' v)).left .any
  have hv := (Claim.gives_right ((P.and (.object M r t p)).and (.fits M r t old))
    (.fits M r t' v)).word.left .any
  have hplace := (((Claim.gives_right P (.object M r t p)).place.left (.fits M r t old)).left
    (.fits M r t' v)).left .any
  exact (emits_arithmetic op hold t hv sourceTy t).bind fun v =>
    (emits_store hM (hplace.left _) (Claim.gives_right _ _)).bind fun _ =>
      .pure ((Claim.gives_right _ _).left _)

theorem emits_step (decrement yieldsOld : Bool) (hp : Emits M r .any Γ Γ target (Claim.object M r t)) :
    Emits M r P Γ Γ (step r t decrement yieldsOld target) (Claim.word M) := by
  refine hp.always.bind fun p => (emits_load hM (Claim.gives_right _ _)).bind fun old => ?_
  have hplace := (Claim.gives_right P (.object M r t p)).place.left (.fits M r t old)
  have hold := (Claim.gives_right (P.and (.object M r t p)) (.fits M r t old)).word
  refine (emits_binary _ hold (Claim.gives_const trivial)).bind fun new =>
    (emits_convert_word (Claim.gives_right _ _) t).bind fun new' =>
      (emits_store hM ((hplace.left _).left _) (Claim.gives_right _ _)).bind fun _ => .pure ?_
  cases yieldsOld with
  | true => exact ((hold.left _).left _).left _
  | false => exact (Claim.gives_right _ _).left _

/-! Where everything may be accessed, every place is as good as another. -/

/-- All of memory may be accessed, as far as the terms say. -/
def Pact.Open (M : Pact) : Prop := ∀ a o n, M.terms.reach a o n

omit hM in
theorem gives_object (hopen : M.Open) (hp : P.Gives (.word M p.base)) (ht : p.ty = t) :
    P.Gives (.object M r t p) :=
  fun T n hP => ⟨ht, (hp T n hP).1, fun _ _ => hopen _ _ _⟩

omit hM in
theorem emits_storageOf_open (hopen : M.Open) (h : Emits M r P Γ Γ' code (Claim.denotes M r t))
    (offset : Int64) (ty : TypeId) :
    Emits M r P Γ Γ' (storageOf code offset ty) (Claim.object M r ty) := by
  refine h.bind fun l => ?_
  cases l with
  | place p => exact .pure (gives_object hopen (Claim.gives_right _ _).place.word rfl)
  | value v => exact .pure (gives_object hopen (Claim.gives_right _ _).word rfl)

omit hM in
theorem emits_subscript (hopen : M.Open) {element : Place} (he : P.Gives (.word M element.base))
    (stride : Int64) (constant : Option Int64) (hi : Emits M r .any Γ Γ index (Claim.word M)) :
    Emits M r P Γ Γ (subscript element stride constant index) (Claim.object M r element.ty) := by
  cases constant with
  | some i => exact .pure (gives_object hopen he rfl)
  | none =>
    refine hi.always.bind fun i => (emits_binary .mul (Claim.gives_right _ _)
      (Claim.gives_const trivial)).bind fun distance => ?_
    refine (emits_binary .add ((he.left _).left _) (Claim.gives_right _ _)).bind fun base => ?_
    exact .pure (gives_object hopen (Claim.gives_right _ _) rfl)

omit hM in
theorem emits_cast (ho : P.Gives (.word M o)) : Emits M r P Γ Γ (cast r t o) (Claim.word M) :=
  .ite (fun _ => .pure (Claim.gives_const trivial)) fun _ => emits_convert_word ho t

end Forms

/-! Names and calls. -/

section Names

variable {M : Pact} {r : Registry} {returns : TypeId} {P : Claim} {Γ : Frames} {sym : Symbol}

/-- Arguments as they are passed to parameters of those types. -/
def Claim.passed (M : Pact) (r : Registry) : List TypeId → List Operand → Claim
  | _, [] => .any
  | params, o :: os =>
    (Claim.carries M.terms o fun v => ∀ t, params.head? = some t → M.Fits r t v).and
      (passed M r params.tail os)

theorem Claim.passed_below {params : List TypeId} {os : List Operand} {T : Types} {n : Nat}
    (h : (Claim.passed M r params os).holds T n) : ∀ o ∈ os, o.Below n := by
  induction os generalizing params with
  | nil => exact List.forall_mem_nil _
  | cons o os ih => exact List.forall_mem_cons.mpr ⟨h.1.1, ih h.2⟩

theorem Claim.passed_fits {params : List TypeId} {os : List Operand} {T : Types} {n i : Nat}
    {o : Operand} {v : Int64} {t : TypeId} (h : (Claim.passed M r params os).holds T n)
    (ho : os[i]? = some o) (hv : o.Has M.terms T v) (ht : params[i]? = some t) : M.Fits r t v := by
  induction os generalizing params i with
  | nil => cases ho
  | cons o' os ih =>
    cases params with
    | nil => cases ht
    | cons t' params =>
      cases i with
      | zero =>
        cases ho
        exact h.1.2 v hv t ht
      | succ i => exact ih h.2 ho ht

theorem emits_call (hM : M.Sound r returns) {callee : Expr} {sig : Signature}
    {args : Lower (List Operand)} (hname : callee.kind = .name sym.name) (hsym : sym ∈ M.globals)
    (hsig : sym.kind = .function sig)
    (hargs : Emits M r .any Γ Γ args (Claim.passed M r sig.params)) :
    Emits M r P Γ Γ (call r sym.ty callee args) (Claim.fits M r sym.ty) := by
  have hstruct := hM.results sym hsym sig hsig
  have hobeys (dst : Option Temp) {os : List Operand} {T : Types} {n : Nat}
      (h : (P.and (Claim.passed M r sig.params os)).holds T n)
      (hdst : ∀ t, dst = some t → T t = fun _ => True) :
      Obeys M.terms T M.name (.call dst sym.name os) := by
    refine ⟨fun i o v ho hv => hM.arguments sym hsym sig hsig i v fun t ht => ?_, fun t ht v _ => ?_⟩
    · exact Claim.passed_fits h.2 ho hv ht
    · rw [hdst t ht]
      trivial
  unfold call
  rw [hname]
  refine hargs.always.bind fun os => .ite (fun _ => ?_) fun _ => ?_
  · refine .andThen (.emit fun T n h => ⟨hobeys none h nofun, nofun, Claim.passed_below h.2⟩)
      fun _ => .pure (Claim.gives_fits_const 0 hstruct)
  · refine Emits.mono (Q := Claim.word M) (.define _ fun t T n h hT ht =>
      ⟨hobeys (some t) h ?_, fun u hu => ?_, Claim.passed_below h.2⟩)
      fun o => Claim.gives_fits (Claim.gives_right _ _) hstruct
    · rintro u ⟨⟩
      exact hT
    · cases hu
      exact ht

/-- A local lies where its slot says, a global where its symbol does. -/
theorem emits_variableAddress (hM : M.Sound r returns) {name : String}
    (h : Γ.symbol? name = some sym ∨
      Γ.symbol? name = none ∧ sym ∈ M.globals ∧ sym.name = name ∧ sym.IsObject) :
    Emits M r P Γ Γ (variableAddress name) fun o =>
      .object M r sym.ty ⟨o, 0, sym.ty⟩ := by
  intro T s o s' hs hP hrun
  have hlocal := hs.locals name
  obtain ⟨_, _, hget, hrun⟩ := bind_eq_ok.mp hrun
  cases hget
  rcases h with hsym | ⟨hnone, hmem, hname, hobject⟩
  · rw [hsym] at hlocal
    cases hslot : slot? s.slots name with
    | none =>
      rw [hslot] at hlocal
      exact hlocal.elim
    | some slot =>
      rw [hslot] at hlocal
      simp only [hslot] at hrun
      obtain ⟨rfl, rfl⟩ := pure_eq_ok.mp hrun
      exact .refl hs ⟨rfl, hlocal⟩
  · rw [hnone] at hlocal
    cases hslot : slot? s.slots name with
    | some slot =>
      rw [hslot] at hlocal
      exact hlocal.elim
    | none =>
      simp only [hslot] at hrun
      have hdefine : Emits M r P Γ Γ (define (.addressOf · name)) fun o =>
          .carries M.terms o (M.terms.reach · 0 (r.sizeOf sym.ty)) := by
        refine .define _ fun t T n _ hT ht => ⟨fun a ha => ?_, fun u hu => ?_, nofun⟩
        · rw [hT]
          exact hM.objects sym hmem hobject a (hname ▸ ha)
        · cases hu
          exact ht
      exact hdefine.mono (R := fun o => .object M r sym.ty ⟨o, 0, sym.ty⟩)
        (fun o T n h => ⟨rfl, h.2⟩) hs hP hrun

theorem symbol?_declare (frame : List Symbol) (Γ : Frames) (sym : Symbol) (name : String) :
    Frames.symbol? (Frames.declare (frame :: Γ) sym) name =
      if sym.name = name then some sym else Frames.symbol? (frame :: Γ) name := by
  by_cases h : sym.name = name <;>
    simp [Frames.symbol?, Frames.declare, List.findSome?_cons, h]

theorem slot?_cons (scope : List (String × Temp)) (slots : Slots) (name : String) (slot : Temp)
    (name' : String) :
    slot? (((name, slot) :: scope) :: slots) name' =
      if name = name' then some slot else slot? (scope :: slots) name' := by
  by_cases h : name = name'
  · simp [slot?, h]
  · have hne : (name' == name) = false := by simpa using fun heq => h heq.symm
    simp [slot?, List.findSome?_cons, List.lookup_cons, h, hne]

/-- A name is bound in the code as it is declared in the tree. -/
theorem emits_bind (sym : Symbol) {slot : Temp}
    (h : P.Gives (.carries M.terms (.temp slot) (M.terms.reach · 0 (r.sizeOf sym.ty)))) :
    Emits M r P Γ (Γ.declare sym) (bind sym.name slot) fun _ => .any := by
  intro T s u s' hs hP hrun
  obtain ⟨hslot, hreach⟩ := h T _ hP
  have hdepth := hs.depth
  have hlocals := hs.locals
  cases hrun
  refine ⟨T, .refl _ T, Nat.le_refl _, ⟨hs.code, hs.below, ?_, ?_⟩, trivial⟩
  · cases hslots : s.slots with
    | nil =>
      rw [hslots] at hdepth
      obtain rfl := List.length_eq_zero_iff.mp hdepth.symm
      rfl
    | cons scope outer =>
      rw [hslots] at hdepth
      cases Γ with
      | nil => cases hdepth
      | cons frame Γ => exact hdepth
  · intro name
    cases hslots : s.slots with
    | nil =>
      rw [hslots] at hdepth
      obtain rfl := List.length_eq_zero_iff.mp hdepth.symm
      trivial
    | cons scope outer =>
      rw [hslots] at hdepth hlocals
      cases Γ with
      | nil => cases hdepth
      | cons frame Γ =>
        rw [symbol?_declare, slot?_cons]
        by_cases hname : sym.name = name
        · rw [if_pos hname, if_pos hname]
          exact ⟨hslot, hreach⟩
        · rw [if_neg hname, if_neg hname]
          exact hlocals name

theorem emits_allocate (t : TypeId) : Emits M r P Γ Γ (allocate r t) fun slot =>
    .carries M.terms (.temp slot) (M.terms.reach · 0 (r.sizeOf t)) := by
  refine (Emits.freshTemp fun a => M.terms.reach a 0 (r.sizeOf t)).bind fun slot => ?_
  refine Emits.andThen (.emit fun T n h => ⟨fun a ha => ?_, fun u hu => ?_, nofun⟩)
    fun _ => .pure (Claim.gives_temp (Claim.gives_right _ _) fun _ ha => ha)
  · rw [h.2.2]
    exact ha
  · cases hu
    exact h.2.1

end Names

/-! Control. -/

section Control

variable {M : Pact} {r : Registry} {P : Claim} {Γ : Frames} {X : Int64 → Prop}
  {cond left right yes no : Lower Operand} {yesCode noCode update : Lower Unit}

theorem emits_label (l : Label) : Emits M r P Γ Γ (emit (.label l)) fun _ => .any :=
  .emit fun _ _ _ => ⟨trivial, nofun, nofun⟩

theorem emits_jump (l : Label) : Emits M r P Γ Γ (emit (.jump l)) fun _ => .any :=
  .emit fun _ _ _ => ⟨trivial, nofun, nofun⟩

theorem emits_branch {o : Operand} (ho : P.Gives (.word M o)) (l : Label) :
    Emits M r P Γ Γ (emit (.branchUnless o l)) (fun _ => .any) ∧
      Emits M r P Γ Γ (emit (.branchIf o l)) fun _ => .any := by
  constructor <;> exact .emit fun T n hP =>
    ⟨trivial, nofun, fun u hu => List.mem_singleton.mp hu ▸ (ho T n hP).1⟩

/-- A value for a temporary that was taken for such values. -/
theorem emits_copy_to {t : Temp} {o : Operand} (ht : P.Gives (.taken t X))
    (ho : P.Gives (.carries M.terms o X)) :
    Emits M r P Γ Γ (emit (.copy t o)) fun _ => .any := by
  refine .emit fun T n hP => ⟨fun v hv => ?_, fun u hu => ?_, fun u hu => ?_⟩
  · rw [(ht T n hP).2]
    exact (ho T n hP).2 v hv
  · cases hu
    exact (ht T n hP).1
  · exact List.mem_singleton.mp hu ▸ (ho T n hP).1

theorem emits_ifOnly (hc : Emits M r .any Γ Γ cond (Claim.word M))
    (hy : Emits M r .any Γ Γ yesCode fun _ => .any) :
    Emits M r P Γ Γ (ifOnly cond yesCode) fun _ => .any :=
  hc.always.bind fun _ => (Emits.freshLabel _).andThen fun _ => (Emits.freshLabel _).andThen fun _ =>
    (emits_branch (Claim.gives_right _ _) _).1.andThen fun _ => hy.always.andThen fun _ =>
      emits_label _

theorem emits_ifElse (hc : Emits M r .any Γ Γ cond (Claim.word M))
    (hy : Emits M r .any Γ Γ yesCode fun _ => .any) (hn : Emits M r .any Γ Γ noCode fun _ => .any) :
    Emits M r P Γ Γ (ifElse cond yesCode noCode) fun _ => .any :=
  hc.always.bind fun _ => (Emits.freshLabel _).andThen fun _ => (Emits.freshLabel _).andThen fun _ =>
    (emits_branch (Claim.gives_right _ _) _).1.andThen fun _ => hy.always.andThen fun _ =>
      (emits_jump _).andThen fun _ => (emits_label _).andThen fun _ => hn.always.andThen fun _ =>
        emits_label _

theorem emits_loop (testsFirst : Bool) {test : Label → Lower Unit}
    {body : Label → Label → Lower Unit} (ht : ∀ stop, Emits M r .any Γ Γ (test stop) fun _ => .any)
    (hb : ∀ stop next, Emits M r .any Γ Γ (body stop next) fun _ => .any)
    (hu : Emits M r .any Γ Γ update fun _ => .any) :
    Emits M r P Γ Γ (loop testsFirst test body update) fun _ => .any := by
  refine (Emits.freshLabel _).andThen fun top => (Emits.freshLabel _).andThen fun entry =>
    (Emits.freshLabel _).andThen fun next => (Emits.freshLabel _).andThen fun stop => ?_
  have hrest : Emits M r P Γ Γ (do
      emit (.label top)
      test stop
      emit (.label entry)
      body stop next
      emit (.label next)
      update
      emit (.jump top)
      emit (.label stop)) fun _ => .any :=
    (emits_label _).andThen fun _ => (ht _).always.andThen fun _ => (emits_label _).andThen fun _ =>
      (hb _ _).always.andThen fun _ => (emits_label _).andThen fun _ => hu.always.andThen fun _ =>
        (emits_jump _).andThen fun _ => emits_label _
  exact .ite (fun _ => (emits_jump _).andThen fun _ => hrest) fun _ => hrest

theorem emits_conditional (hc : Emits M r .any Γ Γ cond (Claim.word M))
    (hy : Emits M r .any Γ Γ yes fun o => .carries M.terms o X)
    (hn : Emits M r .any Γ Γ no fun o => .carries M.terms o X) :
    Emits M r P Γ Γ (conditional cond yes no) fun o => .carries M.terms o X := by
  refine hc.always.bind fun cond => (Emits.freshLabel _).andThen fun other =>
    (Emits.freshLabel _).andThen fun stop => (Emits.freshTemp X).bind fun result => ?_
  have hresult := Claim.gives_right (P.and (.word M cond)) (.taken result X)
  have hcond := (Claim.gives_right P (.word M cond)).left (.taken result X)
  have hcopy {o : Operand} : Emits M r (((P.and (.word M cond)).and (.taken result X)).and
      (.carries M.terms o X)) Γ Γ (emit (.copy result o)) fun _ => .any :=
    emits_copy_to (hresult.left _) (Claim.gives_right _ _)
  refine (emits_branch hcond _).1.andThen fun _ => hy.always.bind fun _ => hcopy.andThen fun _ => ?_
  refine (Emits.andThen (emits_jump _) fun _ => (emits_label _).andThen fun _ => ?_).knowing
    ((Claim.Gives.refl _).left _)
  refine hn.always.bind fun _ => hcopy.andThen fun _ => (emits_label _).andThen fun _ => ?_
  exact .pure (Claim.gives_temp (hresult.left _) fun _ hv => hv)

theorem emits_logical {isAnd : Bool} (hl : Emits M r .any Γ Γ left (Claim.word M))
    (hr : Emits M r .any Γ Γ right (Claim.word M)) :
    Emits M r P Γ Γ (logical isAnd left right) (Claim.word M) := by
  refine (Emits.freshTemp fun _ => True).bind fun result => (Emits.freshLabel _).andThen fun short =>
    (Emits.freshLabel _).andThen fun stop => hl.always.bind fun l => ?_
  have hresult := Claim.gives_right P (.taken result fun _ => True)
  have hbranch : Emits M r ((P.and (.taken result fun _ => True)).and (.word M l)) Γ Γ
      (emit (if isAnd then .branchUnless l short else .branchIf l short)) fun _ => .any := by
    cases isAnd with
    | true => exact (emits_branch (Claim.gives_right _ _) short).1
    | false => exact (emits_branch (Claim.gives_right _ _) short).2
  refine (hbranch.andThen fun _ => hr.always.bind fun r' => ?_)
  refine (emits_binary .ne (Claim.gives_right _ _) (Claim.gives_const trivial)).bind fun truth => ?_
  refine (emits_copy_to (((hresult.left _).left _).left _) (Claim.gives_right _ _)).andThen fun _ => ?_
  refine (emits_jump _).andThen fun _ => (emits_label _).andThen fun _ => ?_
  refine (emits_copy_to (((hresult.left _).left _).left _) (Claim.gives_const trivial)).andThen
    fun _ => (emits_label _).andThen fun _ => ?_
  exact .pure (Claim.gives_temp (((hresult.left _).left _).left _) fun _ _ => trivial)

theorem emits_leave (target : Option Label) : Emits M r P Γ Γ (leave target) fun _ => .any := by
  cases target with
  | none => exact .pure (Claim.gives_any P)
  | some l => exact emits_jump l

end Control

end MiniC.Lowering
