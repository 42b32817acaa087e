import MiniC.Proofs.Simulation.Control
/-!
The forms of expressions, around parts that are given as code. Main statements: operators, conversions,
accesses, assignments and calls run as they are evaluated, whatever their operands are, if the machine
answers a call as it is evaluated.
-/
namespace MiniC.Simulation

open Code (Inst Label Operand Temp)
open Evaluation (Action Counters Denoted Exit Resolve Scopes Store)
open Lowering (Agrees Extends Gives Grows Lower Lowered Place Plain bind_eq_ok emit_eq_ok map_eq_ok
  need_eq_ok pure_eq_ok)
open Machine (Exceeds Fault Finishes Frame Kept Routine anything deeper dispatch leave next resume tick)
open Syntax (Expr)

/-- What is known of a result is known until its temporaries are written again. -/
def Stable {α β : Type} (R : α → Nat → β → Frame → Prop) : Prop :=
  ∀ ⦃a n b f n' g⦄, R a n b f → Kept n f g → n ≤ n' → R a n' b g

/-- A place for an object. -/
def Object (M : Setting) (p : Place) (n : Nat) (x : TypeId × Int64) (g : Frame) : Prop :=
  p.ty = x.1 ∧ Locates M n p x.2 g

/-- A place of that type at an address. -/
def Located (M : Setting) (ty : TypeId) (p : Place) (n : Nat) (address : Int64) (g : Frame) : Prop :=
  p.ty = ty ∧ Locates M n p address g

/-- Something of which nothing is read yet, or a value. -/
def Denoting (M : Setting) (l : Lowered) (n : Nat) (d : Denoted) (g : Frame) : Prop :=
  Denotes M n l d g

/-! What is done with what an expression denotes. -/

def valueIn (r : Registry) : Denoted → Action Int64
  | .object ty address => Evaluation.load r ty address
  | .value v => return v

def objectIn : Denoted → Action (TypeId × Int64)
  | .object ty address => return (ty, address)
  | .value _ => throw .stuck

def addressIn : Denoted → Action Int64
  | .object _ address => return address
  | .value v => return v

def storedIn (r : Registry) (v : Int64) : TypeId × Int64 → Action Int64
  | (ty, address) => do
    Evaluation.store r ty address v
    return v

def steppedIn (r : Registry) (ty : TypeId) (decrement yieldsOld : Bool) :
    TypeId × Int64 → Action Int64
  | (targetTy, address) => do
    let old ← Evaluation.load r targetTy address
    let distance := (Lowering.stride? r ty).getD 1
    let new := Evaluation.convert r (if decrement then old - distance else old + distance) ty
    Evaluation.store r targetTy address new
    return if yieldsOld then old else new

section Composition

variable {M : Setting} {targets : Option (Label × Label)} {scopes : Scopes}
  {α α' α'' β β' γ : Type} {R : α → Nat → β → Frame → Prop} {T : α' → Nat → β' → Frame → Prop}
  {Q : α'' → Nat → γ → Frame → Prop} {sem : Resolve (Action β)} {sem' : Resolve (Action β')}

theorem stable_value (M : Setting) : Stable (Value M) := fun _ _ _ _ _ _ h hfg hn => h.kept hfg hn

theorem stable_object (M : Setting) : Stable (Object M) :=
  fun _ _ _ _ _ _ h hfg hn => ⟨h.1, h.2.kept hfg hn⟩

theorem stable_located (M : Setting) (ty : TypeId) : Stable (Located M ty) :=
  fun _ _ _ _ _ _ h hfg hn => ⟨h.1, h.2.kept hfg hn⟩

theorem runs_pure {a : α} {b : β} (h : ∀ n f, R a n b f) :
    Runs M targets scopes (pure a) (pure (pure b)) R := by
  intro s a' s' k hrun hk
  obtain ⟨rfl, rfl⟩ := pure_eq_ok.mp hrun
  exact ⟨hk, .refl id s, fun _ st f m hat => meets_pure hat.toStands hat.pc (h _ _)⟩

theorem Runs.map {code : Lower α} {φ : α → α'} {ψ : β → β'}
    (h : Runs M targets scopes code sem R) (hR : ∀ a n b f, R a n b f → T (φ a) n (ψ b) f) :
    Runs M targets scopes (φ <$> code) (do let x ← sem; return ψ <$> x) T := by
  intro s a s' k hrun hk
  obtain ⟨a, hcode, rfl⟩ := map_eq_ok.mp hrun
  have hs := h hcode hk
  refine ⟨hs.agrees, hs.grows, fun hM st f m hat => ?_⟩
  exact (hs.meets hM hat).map fun b _ g hq => ⟨hq.1, hR _ _ _ _ hq.2⟩

/-- Code that is straight after its first part. -/
theorem Runs.andThen {code : Lower α} {next : α → Lower α'} {k : β → Action β'}
    (h : Runs M targets scopes code sem R) (hplain : ∀ a, Plain (next a))
    (hgrows : ∀ a, Grows id (next a))
    (hmeets : ∀ ⦃a b s v s' st f m⦄, next a s = .ok (v, s') → M.Hosts s' → At M scopes s st f m →
      R a s.temps b f →
      Meets M targets s.temps f m st (Lands s' (T v s'.temps)) (k b st)) :
    Runs M targets scopes (code >>= next) (do let x ← sem; return x >>= k) T := by
  intro s v s' c hrun hc
  obtain ⟨a, t, hcode, hnext⟩ := bind_eq_ok.mp hrun
  have hs := h hcode hc
  have hgrow := Grows.extends_of (hgrows a) hnext
  refine ⟨(hplain a).agrees hnext hs.agrees, hs.grows.trans hgrow, fun hM st f m hat => ?_⟩
  refine (hs.meets (hM.before hgrow) hat).seq hat hs.grows.temps fun b st₁ g u hat₁ _ hb => ?_
  exact hmeets hnext hM hat₁ hb

/-- Code that is straight after its first two parts. -/
theorem Runs.andThen₂ {code : Lower α} {code' : Lower α'} {g : α → α' → Lower α''}
    {k : β → β' → Action γ} (h : Runs M targets scopes code sem R)
    (h' : Runs M targets scopes code' sem' T) (hstable : Stable R)
    (hplain : ∀ a a', Plain (g a a')) (hgrows : ∀ a a', Grows id (g a a'))
    (hmeets : ∀ ⦃a a' b b' s v s' st f m⦄, g a a' s = .ok (v, s') → M.Hosts s' →
      At M scopes s st f m → R a s.temps b f → T a' s.temps b' f →
      Meets M targets s.temps f m st (Lands s' (Q v s'.temps)) (k b b' st)) :
    Runs M targets scopes (do let a ← code; let a' ← code'; g a a') (do
      let x ← sem
      let y ← sem'
      return do
        let b ← x
        let b' ← y
        k b b') Q := by
  intro s v s' c hrun hc
  obtain ⟨a, t, hcode, hrun⟩ := bind_eq_ok.mp hrun
  obtain ⟨a', t', hcode', hnext⟩ := bind_eq_ok.mp hrun
  have hs := h hcode hc
  have hs' := h' hcode' hs.agrees
  have hgrow := Grows.extends_of (hgrows a a') hnext
  refine ⟨(hplain a a').agrees hnext hs'.agrees, hs.grows.trans (hs'.grows.trans hgrow),
    fun hM st f m hat => ?_⟩
  have hM' := hM.before hgrow
  refine (hs.meets (hM'.before hs'.grows) hat).seq hat hs.grows.temps
    fun b st₁ g u hat₁ _ hb => ?_
  refine (hs'.meets hM' hat₁).seq hat₁ hs'.grows.temps fun b' st₂ g₂ u₂ hat₂ hkept hb' => ?_
  exact hmeets hnext hM hat₂ (hstable hb hkept hs'.grows.temps) hb'

end Composition

section Forms

variable {M : Setting} {targets : Option (Label × Label)} {scopes : Scopes} (r : Registry)
  {ty : TypeId} {code : Lower Lowered} {sem : Resolve (Action Denoted)} {left right : Lower Operand}
  {seml semr : Resolve (Action Int64)} {target : Lower Place}
  {semp : Resolve (Action (TypeId × Int64))}

/-! Accesses. -/

theorem runs_valueOf (h : Runs M targets scopes code sem (Denoting M)) :
    Runs M targets scopes (Lowering.valueOf r code) (Evaluation.valueOf r <$> sem) (Value M) := by
  refine (h.andThen (T := Value M) (k := valueIn r) (fun l => ?_) (fun l => ?_) ?_).of_eq rfl fun _ => rfl
  · cases l with
    | place p => exact Lowering.plain_load r p
    | value v => exact .pure v
  · cases l with
    | place p => exact Lowering.grows_load r p
    | value v => exact .pure v
  · intro l d s v s' st f m hrun hM hat hd
    cases l with
    | place p =>
      cases d with
      | object ty address =>
        obtain ⟨rfl, hp⟩ := hd
        exact meets_load hrun hM hat.toStands hat.pc hp
      | value w => exact hd.elim
    | value a =>
      cases d with
      | object ty address => exact hd.elim
      | value w =>
        obtain ⟨rfl, rfl⟩ := pure_eq_ok.mp hrun
        exact meets_pure hat.toStands hat.pc hd

theorem runs_placeOf (e : Expr) (h : Runs M targets scopes code sem (Denoting M)) :
    Runs M targets scopes (Lowering.placeOf e code) (Evaluation.placeOf <$> sem) (Object M) := by
  refine (h.andThen (T := Object M) (k := objectIn) (fun l => ?_) (fun l => ?_) ?_).of_eq rfl fun _ => rfl
  · cases l with
    | place p => exact .pure p
    | value v =>
      intro s a s' h
      exact absurd h Lowering.throw_ne_ok
  · cases l with
    | place p => exact .pure p
    | value v => exact .throw _
  · intro l d s v s' st f m hrun hM hat hd
    cases l with
    | place p =>
      cases d with
      | object ty address =>
        obtain ⟨rfl, rfl⟩ := pure_eq_ok.mp hrun
        exact meets_pure hat.toStands hat.pc hd
      | value w => exact hd.elim
    | value a => exact absurd hrun Lowering.throw_ne_ok

theorem runs_storageOf (h : Runs M targets scopes code sem (Denoting M)) (offset : Int64)
    (ty : TypeId) :
    Runs M targets scopes (Lowering.storageOf code offset ty) (Evaluation.storageOf <$> sem)
      (fun p n address g => p.ty = ty ∧ Locates M n p (address + offset) g) := by
  refine (h.andThen (k := addressIn) (fun l => ?_) (fun l => ?_) ?_).of_eq rfl fun _ => rfl
  · cases l <;> exact .pure _
  · cases l <;> exact .pure _
  · intro l d s v s' st f m hrun hM hat hd
    cases l with
    | place p =>
      cases d with
      | object ty' address =>
        obtain ⟨rfl, rfl⟩ := pure_eq_ok.mp hrun
        exact meets_pure hat.toStands hat.pc ⟨rfl, hd.2.further offset ty⟩
      | value w => exact hd.elim
    | value a =>
      cases d with
      | object ty' address => exact hd.elim
      | value w =>
        obtain ⟨rfl, rfl⟩ := pure_eq_ok.mp hrun
        exact meets_pure hat.toStands hat.pc ⟨rfl, locates_of_yields hd offset ty⟩

/-! Operators. -/

theorem runs_converted (ty : TypeId) (h : Runs M targets scopes left seml (Value M)) :
    Runs M targets scopes (do Lowering.convert r (← left) ty)
      (Evaluation.converted r ty <$> seml) (Value M) := by
  refine (h.andThen (k := fun w => return Evaluation.convert r w ty)
    (fun v => Lowering.plain_convert r v ty) (fun v => Lowering.grows_convert r v ty) ?_).of_eq
      rfl fun _ => rfl
  intro v w s a s' st f m hrun hM hat hv
  exact meets_lift _ hat.toStands
    (Lowering.gives_convert hrun (hM.straight hat.toStands) hat.pc hv.value hv.below)

theorem runs_unary (op : Syntax.UnaryOp) (h : Runs M targets scopes left seml (Value M)) :
    Runs M targets scopes (do
        let v ← left
        let v ← Lowering.define (.unary · (Lowering.machineUnary op) v)
        Lowering.convert r v ty)
      (Evaluation.unary r op ty <$> seml) (Value M) := by
  refine (h.andThen (k := fun w => return Evaluation.convert r ((Lowering.machineUnary op).eval w) ty)
    (fun v => (Plain.define fun _ => rfl).bind fun v => Lowering.plain_convert r v ty)
    (fun v => (Grows.define _).bind fun v => Lowering.grows_convert r v ty) ?_).of_eq rfl fun _ => rfl
  intro v w s a s' st f m hrun hM hat hv
  obtain ⟨o, t, ho, hconvert⟩ := bind_eq_ok.mp hrun
  have hgrow := Grows.extends_of (Lowering.grows_convert r o ty) hconvert
  have hstraight := hM.straight hat.toStands
  have hop : Gives M.program M.routine s t f m o (.ok ((Lowering.machineUnary op).eval w)) :=
    Lowering.gives_unary ho (hstraight.grows hgrow) hat.pc hv.value
  exact meets_lift _ hat.toStands (hop.bind (Grows.extends_of (.define _) ho).temps
    fun g u hg hkept hw hb => Lowering.gives_convert hconvert (hstraight.kept hkept) hg hw hb)

theorem runs_cast (h : Runs M targets scopes left seml (Value M)) :
    Runs M targets scopes (do Lowering.cast r ty (← left)) (Evaluation.cast r ty <$> seml)
      (Value M) := by
  refine (h.andThen (k := fun w => return if r.isVoid ty then 0 else Evaluation.convert r w ty)
    (fun v => .ite (.pure _) (Lowering.plain_convert r v ty))
    (fun v => Lowering.grows_cast r v) ?_).of_eq rfl fun _ => rfl
  intro v w s a s' st f m hrun hM hat hv
  by_cases hvoid : r.isVoid ty
  · rw [if_pos hvoid] at hrun
    obtain ⟨rfl, rfl⟩ := pure_eq_ok.mp hrun
    simp only [hvoid, if_true]
    exact meets_pure hat.toStands hat.pc (yields_const M _ 0 f)
  · rw [if_neg hvoid] at hrun
    simp only [hvoid, Bool.false_eq_true, if_false]
    exact meets_lift _ hat.toStands
      (Lowering.gives_convert hrun (hM.straight hat.toStands) hat.pc hv.value hv.below)

theorem runs_binary (op : Syntax.BinaryOp) (e e' : Expr)
    (hl : Runs M targets scopes left seml (Value M))
    (hr : Runs M targets scopes right semr (Value M)) :
    Runs M targets scopes (do
        let v ← left
        let w ← right
        Lowering.arithmetic r op v (← Lowering.typeOf e) w (← Lowering.typeOf e') ty)
      (do
        let x ← seml
        let y ← semr
        return Evaluation.binary r op e.ty e'.ty ty x y) (Value M) := by
  refine (hl.andThen₂ hr (k := fun v w => do
    Evaluation.lift (Evaluation.arithmetic r op v (← Evaluation.need e.ty) w
      (← Evaluation.need e'.ty) ty)) (stable_value M) (fun v w => ?_) (fun v w => ?_) ?_).of_eq
    rfl fun _ => rfl
  · exact (Plain.need _ _).bind fun _ => (Plain.need _ _).bind fun _ =>
      Lowering.plain_arithmetic r op v _ w _ ty
  · exact (Grows.need _ _).bind fun _ => (Grows.need _ _).bind fun _ =>
      Lowering.grows_arithmetic r op v _ w _ ty
  · intro v v' w w' s a s' st f m hrun hM hat hv hv'
    obtain ⟨leftTy, t, hneed, hrun⟩ := bind_eq_ok.mp hrun
    obtain ⟨hleft, rfl⟩ := need_eq_ok.mp hneed
    obtain ⟨rightTy, t', hneed', hrun⟩ := bind_eq_ok.mp hrun
    obtain ⟨hright, rfl⟩ := need_eq_ok.mp hneed'
    rw [hleft, hright]
    exact meets_lift _ hat.toStands (Lowering.gives_arithmetic (hM.straight hat.toStands) hat.pc
      hv.value hv'.value hv.below hv'.below hrun)

/-! Subscripts. -/

/-- The code for where the elements of an array begin, or for what a pointer points to. -/
def elementsCode (array : Expr) (ty : TypeId) (code : Lower Lowered) : Lower Place := do
  let t ← Lowering.typeOf array
  if r.isArray t then Lowering.storageOf code 0 ty
  else return ⟨← Lowering.valueOf r code, 0, ty⟩

theorem runs_elementsOf (array : Expr) (ty : TypeId)
    (h : Runs M targets scopes code sem (Denoting M)) :
    Runs M targets scopes (elementsCode r array ty code)
      (Evaluation.elementsOf r array.ty <$> sem) (Located M ty) := by
  intro s p s' k hrun hk
  obtain ⟨t, s₁, hneed, hrun⟩ := bind_eq_ok.mp hrun
  obtain ⟨ht, rfl⟩ := need_eq_ok.mp hneed
  have hsem (d : Action Denoted) : Evaluation.elementsOf r array.ty d =
      if r.isArray t then Evaluation.storageOf d else Evaluation.valueOf r d := by
    rw [ht]
    rfl
  by_cases harray : r.isArray t
  · simp only [harray, if_true] at hrun hsem
    have hs := runs_storageOf h 0 ty hrun hk
    have hact : ((Evaluation.elementsOf r array.ty <$> sem) k).1 =
        ((Evaluation.storageOf <$> sem) k).1 := hsem (sem k).1
    refine ⟨hs.agrees, hs.grows, fun hM st f m hat => ?_⟩
    rw [hact]
    exact (hs.meets hM hat).imp fun a _ _ _ _ hq => ⟨hq.1, hq.2.1, Int64.add_zero a ▸ hq.2.2⟩
  · simp only [harray, Bool.false_eq_true, if_false] at hrun hsem
    obtain ⟨v, t', hv, hrun⟩ := bind_eq_ok.mp hrun
    obtain ⟨rfl, rfl⟩ := pure_eq_ok.mp hrun
    have hs := runs_valueOf r h hv hk
    have hact : ((Evaluation.elementsOf r array.ty <$> sem) k).1 =
        ((Evaluation.valueOf r <$> sem) k).1 := hsem (sem k).1
    refine ⟨hs.agrees, hs.grows, fun hM st f m hat => ?_⟩
    rw [hact]
    exact (hs.meets hM hat).imp fun a _ _ _ _ hq => ⟨hq.1, rfl, a, hq.2, Int64.add_zero a⟩

theorem runs_constantSubscript {stride : Int64} {index : Lower Operand} (i : Int64)
    (hb : Runs M targets scopes target seml (Located M ty)) :
    Runs M targets scopes (do Lowering.subscript (← target) stride (some i) index) (do
      let b ← seml
      return Evaluation.subscript stride b (return i)) (Located M ty) := by
  refine (hb.andThen (T := Located M ty) (k := fun address => return address + i * stride)
    (fun p => Plain.pure _) (fun p => Grows.pure _) ?_).of_eq rfl fun _ => rfl
  intro p address s q s' st f m hrun hM hat hp
  obtain ⟨rfl, rfl⟩ := pure_eq_ok.mp hrun
  exact meets_pure hat.toStands hat.pc ⟨hp.1, hp.2.further _ _⟩

theorem runs_subscript {stride : Int64} (hb : Runs M targets scopes target seml (Located M ty))
    (hi : Runs M targets scopes left semr (Value M)) :
    Runs M targets scopes (do Lowering.subscript (← target) stride none left) (do
      let b ← seml
      let i ← semr
      return Evaluation.subscript stride b i) (Located M ty) := by
  refine (hb.andThen₂ hi (Q := Located M ty) (k := fun address i => return address + i * stride)
    (g := fun p i => do
      let distance ← Lowering.define (.binary · .mul i (.const stride))
      let base ← Lowering.define (.binary · .add p.base distance)
      return { p with base }) (stable_located M ty) (fun p i => ?_) (fun p i => ?_) ?_).of_eq
    (by simp only [Lowering.subscript]) fun _ => rfl
  · exact (Plain.define fun _ => rfl).bind fun _ => (Plain.define fun _ => rfl).bind fun _ => .pure _
  · exact (Grows.define _).bind fun _ => (Grows.define _).bind fun _ => .pure _
  intro p i address w s q s' st f m hrun hM hat hp hi
  obtain ⟨distance, s₁, hmul, hrun⟩ := bind_eq_ok.mp hrun
  obtain ⟨base, s₂, hadd, hrun⟩ := bind_eq_ok.mp hrun
  obtain ⟨rfl, rfl⟩ := pure_eq_ok.mp hrun
  obtain ⟨hty, b, hb, rfl⟩ := hp
  have h₁ := Grows.extends_of (.define _) hmul
  have h₂ := Grows.extends_of (.define _) hadd
  have hstraight := hM.straight hat.toStands
  have hdistance : Gives M.program M.routine s s₁ f m distance (.ok (w * stride)) :=
    Lowering.gives_binary hmul (hstraight.grows h₂) hat.pc hi.value rfl
  have hbase : Gives M.program M.routine s s₂ f m base (.ok (b + w * stride)) :=
    hdistance.bind h₁.temps fun g u hg hkept hw _ =>
      Lowering.gives_binary hadd (hstraight.kept hkept) hg
        ((Machine.value_kept hkept hb.below).trans hb.value) hw
  obtain ⟨g, u, hgo, hpc, hv⟩ := meets_lift targets hat.toStands hbase
  refine ⟨g, u, hgo, hpc, hty, _, hv, ?_⟩
  rw [Int64.add_assoc, Int64.add_assoc, Int64.add_comm (w * stride)]

/-! Assignments. -/

theorem runs_assignStruct (hs : Runs M targets scopes left seml (Value M))
    (ht : Runs M targets scopes target semp (Object M)) :
    Runs M targets scopes (Lowering.assignStruct r ty left target) (do
      let x ← seml
      let y ← semp
      return Evaluation.assignStruct r x y) (Value M) := by
  refine (hs.andThen₂ ht (k := fun v x => do
    Evaluation.copy r x.1 x.2 v
    return x.2) (stable_value M) (fun v p => ?_) (fun v p => ?_) ?_).of_eq rfl fun _ => rfl
  · exact (Lowering.plain_copyMoves _ _ _).bind fun _ => Lowering.plain_address p
  · exact (Lowering.grows_copy r _ _).bind fun _ => Lowering.grows_address p
  · intro v p w x s a s' st f m hrun hM hat hv hp
    obtain ⟨⟨⟩, t, hcopy, haddress⟩ := bind_eq_ok.mp hrun
    obtain ⟨targetTy, address⟩ := x
    obtain ⟨rfl, hp⟩ := hp
    have hgrow := Grows.extends_of (Lowering.grows_address p) haddress
    have hsource := locates_of_yields hv 0 ty
    rw [Int64.add_zero] at hsource
    refine (meets_copyMoves hcopy (hM.before hgrow) hat hp hsource).seq hat
      (Grows.extends_of (Lowering.grows_copy r _ _) hcopy).temps fun _ st₁ g u hat₁ hkept _ => ?_
    have hp₁ := hp.kept hkept (Grows.extends_of (Lowering.grows_copy r _ _) hcopy).temps
    exact meets_lift _ hat₁.toStands (gives_address haddress hM hat₁.toStands hat₁.pc hp₁)

theorem runs_assignScalar (hs : Runs M targets scopes left seml (Value M))
    (ht : Runs M targets scopes target semp (Object M)) :
    Runs M targets scopes (Lowering.assignScalar r ty left target) (do
      let x ← seml
      let y ← semp
      return Evaluation.assignScalar r ty x y) (Value M) := by
  refine ((runs_converted r ty hs).andThen₂ ht (k := storedIn r) (g := fun v p => do p.store r v; return v) (stable_value M) (fun v p => ?_)
    (fun v p => ?_) ?_).of_eq ?_ fun _ => rfl
  · exact (Lowering.plain_store r p v).bind fun _ => .pure v
  · exact (Lowering.grows_store r p v).bind fun _ => .pure v
  · intro v p w x s a s' st f m hrun hM hat hv hp
    obtain ⟨⟨⟩, t, hstore, hrun⟩ := bind_eq_ok.mp hrun
    obtain ⟨rfl, rfl⟩ := pure_eq_ok.mp hrun
    obtain ⟨targetTy, address⟩ := x
    obtain ⟨rfl, hp⟩ := hp
    have hgrow := (Grows.extends_of (Lowering.grows_store r p v) hstore).temps
    refine (meets_store hstore hM hat hp hv).seq hat hgrow fun _ st₁ g u hat₁ hkept _ => ?_
    exact meets_pure hat₁.toStands hat₁.pc (hv.kept hkept hgrow)
  · simp only [Lowering.assignScalar, bind_assoc]

theorem runs_assignCompound (op : Syntax.BinaryOp) (source : Expr)
    (hs : Runs M targets scopes left seml (Value M))
    (ht : Runs M targets scopes target semp (Object M)) :
    Runs M targets scopes (Lowering.assignCompound r op ty source left target) (do
      let y ← semp
      let x ← seml
      return Evaluation.assignCompound r op ty source.ty x y) (Value M) := by
  intro s a s' k hrun hk
  obtain ⟨p, s₁, htarget, hrun⟩ := bind_eq_ok.mp hrun
  obtain ⟨old, s₂, hload, hrun⟩ := bind_eq_ok.mp hrun
  obtain ⟨v, s₃, hsource, hrun⟩ := bind_eq_ok.mp hrun
  obtain ⟨sourceTy, s₄, hneed, hrun⟩ := bind_eq_ok.mp hrun
  obtain ⟨hsourceTy, rfl⟩ := need_eq_ok.mp hneed
  obtain ⟨new, s₅, hop, hrun⟩ := bind_eq_ok.mp hrun
  obtain ⟨⟨⟩, s₆, hstore, hrun⟩ := bind_eq_ok.mp hrun
  obtain ⟨rfl, rfl⟩ := pure_eq_ok.mp hrun
  have hst := ht htarget hk
  have hss := hs hsource ((Lowering.plain_load r p).agrees hload hst.agrees)
  have h₂ := Grows.extends_of (Lowering.grows_load r p) hload
  have h₅ := Grows.extends_of (Lowering.grows_arithmetic r _ _ _ _ _ _) hop
  have h₆ := Grows.extends_of (Lowering.grows_store r p new) hstore
  refine ⟨(Lowering.plain_store r p new).agrees hstore
    ((Lowering.plain_arithmetic r _ _ _ _ _ _).agrees hop hss.agrees),
    hst.grows.trans (h₂.trans (hss.grows.trans (h₅.trans h₆))), fun hM st f m hat => ?_⟩
  have hM₅ := hM.before h₆
  have hM₃ := hM₅.before h₅
  have hM₂ := hM₃.before hss.grows
  refine (hst.meets (hM₂.before h₂) hat).seq hat hst.grows.temps
    fun ⟨targetTy, address⟩ st₁ g₁ u₁ hat₁ _ hp => ?_
  obtain ⟨rfl, hp⟩ := hp
  refine (meets_load hload hM₂ hat₁.toStands hat₁.pc hp).seq hat₁ h₂.temps
    fun y st₂ g₂ u₂ hat₂ hkept₂ hold => ?_
  refine (hss.meets hM₃ hat₂).seq hat₂ hss.grows.temps fun w st₃ g₃ u₃ hat₃ hkept₃ hv => ?_
  have hold₃ := hold.kept hkept₃ hss.grows.temps
  rw [hsourceTy]
  have harithmetic := Lowering.gives_arithmetic (m := u₃) (hM₅.straight hat₃.toStands) hat₃.pc
    hold₃.value hv.value hold₃.below hv.below hop
  refine (meets_lift _ hat₃.toStands harithmetic).seq hat₃ h₅.temps
    fun z st₄ g₄ u₄ hat₄ hkept₄ hnew => ?_
  have hkept := hkept₂.trans (hkept₃.trans hkept₄ hss.grows.temps) h₂.temps
  have hp₄ := hp.kept hkept (h₂.trans (hss.grows.trans h₅)).temps
  refine (meets_store hstore hM hat₄ hp₄ hnew).seq hat₄ h₆.temps
    fun _ st₅ g₅ u₅ hat₅ hkept₅ _ => ?_
  exact meets_pure hat₅.toStands hat₅.pc (hnew.kept hkept₅ h₆.temps)

theorem runs_step (decrement yieldsOld : Bool) (ht : Runs M targets scopes target semp (Object M)) :
    Runs M targets scopes (Lowering.step r ty decrement yieldsOld target) (do
      let y ← semp
      return Evaluation.step r ty decrement yieldsOld y) (Value M) := by
  refine (ht.andThen (T := Value M) (k := steppedIn r ty decrement yieldsOld) (fun p => ?_) (fun p => ?_) ?_).of_eq rfl fun _ => rfl
  · exact (Lowering.plain_load r p).bind fun _ => (Plain.define fun _ => rfl).bind fun _ =>
      (Lowering.plain_convert r _ ty).bind fun _ => (Lowering.plain_store r p _).bind fun _ => .pure _
  · exact (Lowering.grows_load r p).bind fun _ => (Grows.define _).bind fun _ =>
      (Lowering.grows_convert r _ ty).bind fun _ => (Lowering.grows_store r p _).bind fun _ => .pure _
  intro p x s a s' st f m hrun hM hat hp
  obtain ⟨old, s₁, hload, hrun⟩ := bind_eq_ok.mp hrun
  obtain ⟨sum, s₂, hsum, hrun⟩ := bind_eq_ok.mp hrun
  obtain ⟨new, s₃, hconvert, hrun⟩ := bind_eq_ok.mp hrun
  obtain ⟨⟨⟩, s₄, hstore, hrun⟩ := bind_eq_ok.mp hrun
  obtain ⟨rfl, rfl⟩ := pure_eq_ok.mp hrun
  obtain ⟨targetTy, address⟩ := x
  obtain ⟨rfl, hp⟩ := hp
  have h₁ := Grows.extends_of (Lowering.grows_load r p) hload
  have h₂ := Grows.extends_of (.define _) hsum
  have h₃ := Grows.extends_of (Lowering.grows_convert r _ ty) hconvert
  have h₄ := Grows.extends_of (Lowering.grows_store r p new) hstore
  have hM₃ := hM.before h₄
  refine (meets_load hload (hM₃.before (h₂.trans h₃)) hat.toStands hat.pc hp).seq hat h₁.temps
    fun y st₁ g₁ u₁ hat₁ hkept₁ hold => ?_
  have hstraight := hM₃.straight hat₁.toStands
  have hadd : Gives M.program M.routine s₁ s₂ g₁ u₁ sum
      (.ok (if decrement then y - (Lowering.stride? r ty).getD 1
        else y + (Lowering.stride? r ty).getD 1)) := by
    have hop := Lowering.gives_binary (p := M.program) (m := u₁) hsum (hstraight.grows h₃) hat₁.pc
      hold.value rfl
    cases decrement <;> exact hop
  have hnew := hadd.bind h₂.temps fun g u hg hkept hw hb =>
    Lowering.gives_convert hconvert (hstraight.kept hkept) hg hw hb
  obtain ⟨g₂, u₂, hgo₂, hpc₂, hv⟩ := meets_lift targets hat₁.toStands hnew
  have hat₂ := hat₁.goes hgo₂ (h₂.trans h₃).temps hpc₂
  have hkept₂ := hgo₂.kept
  refine Meets.after ?_ hgo₂ (h₂.trans h₃).temps
  have hp₂ := hp.kept (hkept₁.trans hkept₂ h₁.temps) (h₁.trans (h₂.trans h₃)).temps
  refine (meets_store hstore hM hat₂ hp₂ hv).seq hat₂ h₄.temps fun _ st₃ g₃ u₃ hat₃ hkept₃ _ => ?_
  refine meets_pure hat₃.toStands hat₃.pc ?_
  cases yieldsOld with
  | true => exact hold.kept (hkept₂.trans hkept₃ (h₂.trans h₃).temps) (h₂.trans (h₃.trans h₄)).temps
  | false => exact hv.kept hkept₃ h₄.temps

end Forms

/-! Calls. -/

/-- What the machine does in a routine that it enters, when the evaluation of the call ends in that
way. The frame of the caller is not seen. -/
def Returns (M : Setting) (r : Routine) (args : List Int64) (m : Machine.State) (st : Store) :
    EStateM.Result Exit Store Int64 → Prop
  | .ok v st' => ∃ t, Finishes M.program anything r (Frame.enter r args) (deeper m) (.ok v) t ∧
      st' = { st with memory := t.memory }
  | .error (.fault e) st' =>
    ∃ t, Finishes M.program anything r (Frame.enter r args) (deeper m) (.error e) t ∧
      t.memory = st'.memory
  | .error .unfinished _ => Exceeds M.program M.limit r (Frame.enter r args) (deeper m)
  | .error _ _ => False

/-- Calls at the depth of the routine are answered as they are evaluated. -/
def Answers (M : Setting) (call : String → List Int64 → Action Int64) : Prop :=
  ∀ name args, ∀ ⦃st m⦄, m.memory = st.memory → m.stack = st.stack → m.depth = M.depth →
    M.limit ≤ m.steps + M.rounds →
    match dispatch M.program m name args with
    | .answer result => call name args st = Evaluation.lift result st
    | .enter r => Returns M r args m st (call name args st)

section Calls

variable {M : Setting} {targets : Option (Label × Label)} {scopes : Scopes} {n : Nat}
  {call : String → List Int64 → Action Int64} {name : String} {args : List Operand}
  {ws : List Int64} {s : Lowering.State} {st : Store} {f : Frame} {m : Machine.State}
  {dst : Option Temp}

/-- Operands for values. -/
def Values (M : Setting) (vs : List Operand) (n : Nat) (ws : List Int64) (g : Frame) : Prop :=
  List.Forall₂ (Yields M n · · g) vs ws

theorem Values.eval {vs : List Operand} (h : Values M vs n ws f) :
    Machine.values M.program f vs = .ok ws := by
  induction h with
  | nil => rfl
  | cons hv _ ih => simp only [Machine.values, hv.value, ih]

theorem values_goto (p : Machine.Program) (f : Frame) (pc : Nat) (vs : List Operand) :
    Machine.values p (f.goto pc) vs = Machine.values p f vs := by
  induction vs with
  | nil => rfl
  | cons v vs ih => simp only [Machine.values, Machine.value_goto, ih]

theorem stable_values (M : Setting) : Stable (Values M) :=
  fun _ _ _ _ _ _ h hfg hn => h.imp fun _ _ hv => hv.kept hfg hn

/-- Where a call goes on that returns. -/
theorem Stands.resume {u : Machine.State} {v : Int64} {st' : Store} (hst : Stands M st f m)
    (dst : Option Temp) (hmemory : u.memory = st'.memory) (hstack : u.stack = m.stack)
    (hdepth : u.depth = m.depth) (hsteps : m.steps ≤ u.steps) (hst' : st'.stack = st.stack)
    (hhomes : st'.homes = st.homes) : Stands M st' (resume (f.goto (f.pc + 1)) dst v) u := by
  refine ⟨hmemory, hstack.trans (hst.stack.trans hst'.symm), hdepth.trans hst.depth, ?_, ?_, ?_, ?_⟩
  · cases dst with
    | none => exact hst.temps
    | some t => exact Array.size_setIfInBounds.trans hst.temps
  · cases dst <;> exact hst.slots
  · intro j t hj
    rw [hhomes]
    cases dst <;> exact hst.homes j t hj
  · exact Nat.le_trans hst.steps (Nat.add_le_add_right hsteps _)

theorem kept_resume {v : Int64} (hdst : ∀ t ∈ dst, n ≤ t) :
    Kept n f (resume (f.goto (f.pc + 1)) dst v) := by
  cases dst with
  | none => exact Machine.kept_goto n f _
  | some t =>
    exact (Machine.kept_goto n f _).trans (Machine.kept_set _ v (hdst t rfl)) (Nat.le_refl _)

theorem meets_call (hcall : Answers M call) (hst : Stands M st f m)
    (hat : M.routine.body[f.pc]? = some (.call dst name args)) (hws : Values M args n ws f)
    (hdst : ∀ t ∈ dst, n ≤ t) :
    Meets M targets n f m st (fun v _ g => g = resume (f.goto (f.pc + 1)) dst v)
      (call name ws st) := by
  have hnext : next M.program M.routine f m (.call dst name args) =
      .call dst name ws (f.goto (f.pc + 1)) (tick m) := by
    simp only [next, Machine.step, values_goto, hws.eval]
  have hle : M.limit ≤ (tick m).steps + M.rounds :=
    Nat.le_trans hst.steps (Nat.add_le_add_right (Nat.le_succ _) _)
  have hanswer := hcall name ws (m := tick m) hst.memory hst.stack hst.depth hle
  cases hd : dispatch M.program (tick m) name ws with
  | answer result =>
    rw [hd] at hanswer
    rw [hanswer]
    cases result with
    | error e => exact ⟨_, .failed hat trivial hnext hd, hst.memory⟩
    | ok v =>
      refine ⟨_, tick m, ⟨⟨fun h => .answered hat trivial hnext hd h,
        fun h => .answered hat hnext hd h, Nat.le_succ _⟩, kept_resume hdst, ?_, .refl st⟩, rfl⟩
      exact hst.resume dst hst.memory rfl rfl (Nat.le_succ _) rfl rfl
  | enter r =>
    rw [hd] at hanswer
    rcases hresult : call name ws st with ⟨v, st'⟩ | ⟨e, st'⟩
    · rw [hresult] at hanswer
      obtain ⟨t, hfinishes, rfl⟩ := hanswer
      have hsteps : m.steps + 1 ≤ t.steps := hfinishes.steps_le
      refine ⟨_, leave (tick m).stack (tick m).depth t,
        ⟨⟨fun h => .returned hat trivial hnext hd hfinishes h,
          fun h => .returned hat hnext hd hfinishes h, ?_⟩, kept_resume hdst, ?_, fun _ _ h => h⟩, rfl⟩
      · exact Nat.le_of_succ_le hsteps
      · exact hst.resume dst rfl rfl rfl (Nat.le_of_succ_le hsteps) rfl rfl
    · rw [hresult] at hanswer
      cases e with
      | fault e =>
        obtain ⟨t, hfinishes, hmemory⟩ := hanswer
        exact ⟨_, .calleeFailed hat trivial hnext hd hfinishes, hmemory⟩
      | unfinished => exact .callee hat hnext hd hanswer
      | returned v => exact hanswer.elim
      | broke => exact hanswer.elim
      | continued => exact hanswer.elim
      | stuck => exact hanswer

end Calls

/-- A call for nothing yields zero. -/
theorem runs_call {M : Setting} {targets : Option (Label × Label)} {c : Evaluation.Context}
    (hcall : Answers M c.call) (ty : TypeId) (callee : Syntax.Expr) {args : Lower (List Operand)}
    {sem : Resolve (Action (List Int64))} (h : Runs M targets c.scopes args sem (Values M)) :
    Runs M targets c.scopes (Lowering.call c.registry ty callee args)
      (c.callOf ty callee <$> sem) (Value M) := by
  unfold Lowering.call Evaluation.Context.callOf
  cases callee.kind with
  | name name =>
    refine (h.andThen (T := Value M) (k := fun ws => do
      let v ← c.call name ws
      return if c.registry.isVoid ty then 0 else v) (fun vs => ?_) (fun vs => ?_) ?_).of_eq rfl
        fun _ => rfl
    · exact .ite ((Plain.emit rfl).bind fun _ => .pure _) (.define fun _ => rfl)
    · exact .ite ((Grows.emit _).bind fun _ => .pure _) (.define _)
    intro vs ws s a s' st f m hrun hM hat hvs
    by_cases hvoid : c.registry.isVoid ty
    · simp only [hvoid, if_true] at hrun ⊢
      obtain ⟨⟨⟩, t, hemit, hrun⟩ := bind_eq_ok.mp hrun
      obtain ⟨rfl, rfl⟩ := pure_eq_ok.mp hrun
      refine (meets_call hcall hat.toStands (hM.emitted hemit hat.pc) hvs nofun).bind
        (Nat.le_refl _) fun v st' g u hgo hg => ?_
      refine meets_pure hgo.stands ?_ (yields_const M _ 0 g)
      rw [hg, size_emit hemit, ← hat.pc]
      rfl
    · simp only [hvoid, Bool.false_eq_true, if_false] at hrun ⊢
      obtain ⟨t, s₁, hfresh, hrun⟩ := bind_eq_ok.mp hrun
      obtain ⟨⟨⟩, s₂, hemit, hrun⟩ := bind_eq_ok.mp hrun
      obtain ⟨rfl, rfl⟩ := pure_eq_ok.mp hrun
      obtain ⟨hat₁, rfl⟩ := hat.freshTemp hfresh
      refine (meets_call (n := s.temps) hcall hat.toStands (hM.emitted hemit hat₁.pc) hvs
        fun t ht => (Option.some.inj ht).le).bind (Nat.le_refl _) fun v st' g u hgo hg => ?_
      have hsize : s.temps < f.temps.size := by
        rw [hat.temps]
        refine Nat.lt_of_lt_of_le ?_ (Nat.le_trans (temps_emit hemit).ge hM.temps)
        cases hfresh
        exact Nat.lt_succ_self _
      refine meets_pure hgo.stands ?_ ⟨?_, ?_⟩
      · rw [hg, size_emit hemit, ← hat₁.pc]
        rfl
      · rw [hg]
        exact congrArg Except.ok (Machine.getD_set_self (f.goto (f.pc + 1)) v hsize)
      · rw [temps_emit hemit]
        cases hfresh
        exact Nat.lt_succ_self _
  | _ =>
    intro s a s' k hrun
    exact absurd hrun Lowering.throw_ne_ok

end MiniC.Simulation
