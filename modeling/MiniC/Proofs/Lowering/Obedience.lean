import MiniC.Proofs.Code.Contracts
import MiniC.Proofs.Layout.Leaves
import MiniC.Proofs.Lowering.Growth
import MiniC.Proofs.Machine.Ending
import MiniC.Proofs.Typing.Judgement
/-!
Writing code that keeps the terms. A new temporary gets a property when it is taken, and what is known
of the older ones stays. Main statements: actions that keep code obedient follow one another, and the
shapes of control keep it so.
-/
namespace MiniC.Code

/-- The first `n` temporaries keep their properties. -/
def Types.Keeps (n : Nat) (T T' : Types) : Prop := ∀ t < n, T' t = T t

/-- Only the first `n` temporaries are written and read. -/
structure Inst.Below (n : Nat) (i : Inst) : Prop where
  dst : ∀ t, i.dst? = some t → t < n
  operands : ∀ o ∈ i.operands, o.Below n

section Keeping

variable {K : Terms} {T T' T'' : Types} {n m : Nat} {o : Operand} {i : Inst} {name : String}

theorem Types.Keeps.refl (n : Nat) (T : Types) : T.Keeps n T := fun _ _ => rfl

theorem Types.Keeps.trans (h : T.Keeps n T') (h' : T'.Keeps m T'') (hnm : n ≤ m) : T.Keeps n T'' :=
  fun t ht => (h' t (Nat.lt_of_lt_of_le ht hnm)).trans (h t ht)

theorem Operand.Has.before {v : Int64} (hv : o.Has K T' v) (h : T.Keeps n T') (ho : o.Below n) :
    o.Has K T v := by
  cases o with
  | temp t =>
    show T t v
    rw [← h t ho]
    exact hv
  | _ => exact hv

theorem Inst.Below.mono (h : i.Below n) (hnm : n ≤ m) : i.Below m where
  dst t ht := Nat.lt_of_lt_of_le (h.dst t ht) hnm
  operands o ho := (h.operands o ho).mono hnm

theorem Obeys.keeps (h : Obeys K T name i) (hbelow : i.Below n) (hT : T.Keeps n T') :
    Obeys K T' name i := by
  have hread {o : Operand} (ho : o ∈ i.operands) {v : Int64} (hv : o.Has K T' v) : o.Has K T v :=
    hv.before hT (hbelow.operands o ho)
  have hwrite {t : Temp} (ht : i.dst? = some t) : T' t = T t := hT t (hbelow.dst t ht)
  cases i with
  | copy dst src =>
    intro v hv
    rw [hwrite rfl]
    exact h v (hread (List.mem_singleton.mpr rfl) hv)
  | unary dst op src =>
    intro v hv
    rw [hwrite rfl]
    exact h v (hread (List.mem_singleton.mpr rfl) hv)
  | binary dst op left right =>
    intro a b v ha hb hop
    rw [hwrite rfl]
    exact h a b v (hread (by simp [Inst.operands]) ha) (hread (by simp [Inst.operands]) hb) hop
  | cast dst src access =>
    intro v hv
    rw [hwrite rfl]
    exact h v (hread (List.mem_singleton.mpr rfl) hv)
  | load dst base offset access =>
    intro a ha
    rw [hwrite rfl]
    exact h a (hread (List.mem_singleton.mpr rfl) ha)
  | store base offset src size => exact fun a ha => h a (hread (by simp [Inst.operands]) ha)
  | call dst callee args =>
    obtain ⟨hargs, hresult⟩ := h
    refine ⟨fun k o v ho hv => hargs k o v ho (hread (List.mem_of_getElem? ho) hv), fun t ht v hv => ?_⟩
    rw [hwrite ht]
    exact hresult t ht v hv
  | ret value =>
    cases value with
    | none => exact h
    | some o => exact fun v hv => h v (hread (List.mem_singleton.mpr rfl) hv)
  | alloca dst size align =>
    intro a ha
    rw [hwrite rfl]
    exact h a ha
  | addressOf dst symbol =>
    intro a ha
    rw [hwrite rfl]
    exact h a ha
  | param dst k =>
    intro v hv
    rw [hwrite rfl]
    exact h v hv
  | _ => trivial

end Keeping

end MiniC.Code

namespace MiniC.Lowering

open Code (Inst Label Obeys Operand Temp Terms Types)
open Typing (Frames)

/-- Something that is known of the first temporaries, and that stays so when more are taken. -/
structure Claim where
  holds : Types → Nat → Prop
  lasts : ∀ ⦃T n T' n'⦄, holds T n → T.Keeps n T' → n ≤ n' → holds T' n'

namespace Claim

def any : Claim := ⟨fun _ _ => True, fun _ _ _ _ _ _ _ => trivial⟩

def and (P Q : Claim) : Claim :=
  ⟨fun T n => P.holds T n ∧ Q.holds T n,
    fun _ _ _ _ h hT hn => ⟨P.lasts h.1 hT hn, Q.lasts h.2 hT hn⟩⟩

/-- A temporary that was taken for words with that property. -/
def taken (t : Temp) (X : Int64 → Prop) : Claim :=
  ⟨fun T n => t < n ∧ T t = X,
    fun _ _ _ _ h hT hn => ⟨Nat.lt_of_lt_of_le h.1 hn, (hT t h.1).trans h.2⟩⟩

/-- All words of an operand have that property. -/
def carries (K : Terms) (o : Operand) (X : Int64 → Prop) : Claim :=
  ⟨fun T n => o.Below n ∧ ∀ v, o.Has K T v → X v,
    fun _ _ _ _ h hT hn => ⟨h.1.mono hn, fun v hv => h.2 v (hv.before hT h.1)⟩⟩

def all {ι : Type} (P : ι → Claim) : Claim :=
  ⟨fun T n => ∀ x, (P x).holds T n, fun _ _ _ _ h hT hn x => (P x).lasts (h x) hT hn⟩

/-- One claim implies another. -/
def Gives (P Q : Claim) : Prop := ∀ T n, P.holds T n → Q.holds T n

section Claims

variable {P Q R : Claim} {K : Terms} {o : Operand} {X Y : Int64 → Prop}

theorem Gives.refl (P : Claim) : P.Gives P := fun _ _ h => h

theorem Gives.trans (h : P.Gives Q) (h' : Q.Gives R) : P.Gives R := fun T n hP => h' T n (h T n hP)

theorem Gives.left (h : P.Gives R) (Q : Claim) : (P.and Q).Gives R := fun T n hPQ => h T n hPQ.1

theorem gives_right (P Q : Claim) : (P.and Q).Gives Q := fun _ _ h => h.2

theorem gives_any (P : Claim) : P.Gives any := fun _ _ _ => trivial

theorem Gives.weaken (h : P.Gives (carries K o X)) (hXY : ∀ v, X v → Y v) : P.Gives (carries K o Y) :=
  fun T n hP => ⟨(h T n hP).1, fun v hv => hXY v ((h T n hP).2 v hv)⟩

theorem Gives.word (h : P.Gives (carries K o X)) : P.Gives (carries K o fun _ => True) :=
  h.weaken fun _ _ => trivial

theorem gives_const {n : Int64} (h : X n) : P.Gives (carries K (.const n) X) :=
  fun _ _ _ => ⟨trivial, fun _ hv => hv ▸ h⟩

theorem gives_data {l : Label} : P.Gives (carries K (.data l) fun _ => True) :=
  fun _ _ _ => ⟨trivial, fun _ _ => trivial⟩

theorem gives_temp {t : Temp} (h : P.Gives (taken t X)) (hX : ∀ v, X v → Y v) :
    P.Gives (carries K (.temp t) Y) :=
  fun T n hP => ⟨(h T n hP).1, fun v hv => hX v ((h T n hP).2 ▸ hv)⟩

end Claims

end Claim

/-- What code relies on: the terms of the function of that name, and the globals of the unit. -/
structure Pact where
  terms : Terms
  name : String
  globals : List Symbol

/-- Words of a type, as far as they are to be relied on: that of a struct is an address. -/
def Pact.Fits (M : Pact) (r : Registry) (t : TypeId) (v : Int64) : Prop :=
  r.isStruct t = true → M.terms.reach v 0 (r.sizeOf t)

/-- A symbol in scope, and the temporary with the address of its object. -/
def Pact.Locates (M : Pact) (r : Registry) (T : Types) (n : Nat) : Option Symbol → Option Temp → Prop
  | none, none => True
  | some sym, some t => t < n ∧ ∀ a, T t a → M.terms.reach a 0 (r.sizeOf sym.ty)
  | _, _ => False

/-- The code so far keeps the terms, and the locals in scope lie where their slots say. -/
structure Obedient (M : Pact) (r : Registry) (Γ : Frames) (T : Types) (s : State) : Prop where
  code : ∀ i ∈ s.code.toList, Obeys M.terms T M.name i
  below : ∀ i ∈ s.code.toList, i.Below s.temps
  depth : s.slots.length = Γ.length
  locals : ∀ name, M.Locates r T s.temps (Γ.symbol? name) (slot? s.slots name)

/-- More is written, and `Q` is known then. -/
def Leads (M : Pact) (r : Registry) (T : Types) (s : State) (Γ : Frames) (s' : State) (Q : Claim) :
    Prop :=
  ∃ T', T.Keeps s.temps T' ∧ s.temps ≤ s'.temps ∧ Obedient M r Γ T' s' ∧ Q.holds T' s'.temps

/-- Where `P` is known, the action keeps code obedient, and `Q` is known of its result. -/
def Emits (M : Pact) (r : Registry) (P : Claim) (Γ Γ' : Frames) {α : Type} (act : Lower α)
    (Q : α → Claim) : Prop :=
  ∀ ⦃T s a s'⦄, Obedient M r Γ T s → P.holds T s.temps → act s = .ok (a, s') →
    Leads M r T s Γ' s' (Q a)

section Basics

variable {M : Pact} {r : Registry} {P Q R : Claim} {Γ Γ' Γ'' : Frames} {α β : Type} {T T' : Types}
  {s s' s'' : State} {act : Lower α} {i : Inst} {X : Int64 → Prop}

theorem Pact.Locates.keeps {n n' : Nat} {sym : Option Symbol} {t : Option Temp}
    (h : M.Locates r T n sym t) (hT : T.Keeps n T') (hn : n ≤ n') : M.Locates r T' n' sym t := by
  cases sym <;> cases t
  · trivial
  · exact h
  · exact h
  · exact ⟨Nat.lt_of_lt_of_le h.1 hn, fun a ha => h.2 a (hT _ h.1 ▸ ha)⟩

theorem Leads.refl (h : Obedient M r Γ T s) (hQ : Q.holds T s.temps) : Leads M r T s Γ s Q :=
  ⟨T, .refl _ T, Nat.le_refl _, h, hQ⟩

theorem Leads.andThen (h : Leads M r T s Γ s' Q)
    (h' : ∀ T', T.Keeps s.temps T' → s.temps ≤ s'.temps → Obedient M r Γ T' s' →
      Q.holds T' s'.temps → Leads M r T' s' Γ' s'' R) : Leads M r T s Γ' s'' R := by
  obtain ⟨T', hT, hn, hs', hQ⟩ := h
  obtain ⟨T'', hT', hn', hs'', hR⟩ := h' T' hT hn hs' hQ
  exact ⟨T'', hT.trans hT' hn, hn.trans hn', hs'', hR⟩

namespace Emits

theorem pure {a : α} {Q : α → Claim} (h : P.Gives (Q a)) :
    Emits M r P Γ Γ (Pure.pure a : Lower α) Q := by
  intro T s b s' hs hP hrun
  obtain ⟨rfl, rfl⟩ := pure_eq_ok.mp hrun
  exact .refl hs (h T _ hP)

theorem bind {k : α → Lower β} {Q : α → Claim} {R : β → Claim} (h : Emits M r P Γ Γ' act Q)
    (hk : ∀ a, Emits M r (P.and (Q a)) Γ' Γ'' (k a) R) : Emits M r P Γ Γ'' (act >>= k) R := by
  intro T s b s' hs hP hrun
  obtain ⟨a, s₁, hact, hrun⟩ := bind_eq_ok.mp hrun
  refine (h hs hP hact).andThen fun T₁ hT hn hs₁ hQ => ?_
  exact hk a hs₁ ⟨P.lasts hP hT hn, hQ⟩ hrun

theorem map {f : α → β} {Q : α → Claim} {R : β → Claim} (h : Emits M r P Γ Γ' act Q)
    (hf : ∀ a, (P.and (Q a)).Gives (R (f a))) : Emits M r P Γ Γ' (f <$> act) R := by
  intro T s b s' hs hP hrun
  obtain ⟨a, hact, rfl⟩ := map_eq_ok.mp hrun
  obtain ⟨T', hT, hn, hs', hQ⟩ := h hs hP hact
  exact ⟨T', hT, hn, hs', hf a T' _ ⟨P.lasts hP hT hn, hQ⟩⟩

theorem mono {Q R : α → Claim} (h : Emits M r P Γ Γ' act Q) (hR : ∀ a, (P.and (Q a)).Gives (R a)) :
    Emits M r P Γ Γ' act R := by
  intro T s a s' hs hP hrun
  obtain ⟨T', hT, hn, hs', hQ⟩ := h hs hP hrun
  exact ⟨T', hT, hn, hs', hR a T' _ ⟨P.lasts hP hT hn, hQ⟩⟩

theorem knowing {P' : Claim} {Q : α → Claim} (h : Emits M r P' Γ Γ' act Q) (hP : P.Gives P') :
    Emits M r P Γ Γ' act Q :=
  fun T s _ _ hs hPs hrun => h hs (hP T s.temps hPs) hrun

theorem always {Q : α → Claim} (h : Emits M r .any Γ Γ' act Q) : Emits M r P Γ Γ' act Q :=
  h.knowing (Claim.gives_any P)

/-- What is known of the first result is not needed. -/
theorem andThen {k : α → Lower β} {Q : α → Claim} {R : β → Claim} (h : Emits M r P Γ Γ' act Q)
    (hk : ∀ a, Emits M r P Γ' Γ'' (k a) R) : Emits M r P Γ Γ'' (act >>= k) R :=
  h.bind fun a => (hk a).knowing ((Claim.Gives.refl P).left (Q a))

theorem ite {c : Prop} [Decidable c] {act' : Lower α} {Q : α → Claim}
    (h : c → Emits M r P Γ Γ' act Q) (h' : ¬ c → Emits M r P Γ Γ' act' Q) :
    Emits M r P Γ Γ' (if c then act else act') Q := by
  split
  · exact h ‹_›
  · exact h' ‹_›

theorem throw {e : LoweringError} {Q : α → Claim} :
    Emits M r P Γ Γ' (throw e : Lower α) Q :=
  fun _ _ _ _ _ _ hrun => absurd hrun throw_ne_ok

theorem need {e : LoweringError} {o : Option α} {Q : α → Claim} (h : ∀ a, o = some a → P.Gives (Q a)) :
    Emits M r P Γ Γ (need e o) Q := by
  intro T s a s' hs hP hrun
  obtain ⟨ha, rfl⟩ := need_eq_ok.mp hrun
  exact .refl hs (h a ha T _ hP)

/-- What is there is found. -/
theorem found {e : LoweringError} {a : α} {k : α → Lower β} {R : β → Claim}
    (h : Emits M r P Γ Γ' (k a) R) : Emits M r P Γ Γ' (Lowering.need e (some a) >>= k) R :=
  h

/-- A property for the next temporary. -/
theorem retype {Γ : Frames} (h : Obedient M r Γ T s) (X : Int64 → Prop) :
    T.Keeps s.temps (Function.update T s.temps X) ∧
      Obedient M r Γ (Function.update T s.temps X) { s with temps := s.temps + 1 } := by
  have hkeeps : T.Keeps s.temps (Function.update T s.temps X) :=
    fun t ht => Function.update_of_ne (Nat.ne_of_lt ht) X T
  refine ⟨hkeeps, fun i hi => (h.code i hi).keeps (h.below i hi) hkeeps,
    fun i hi => (h.below i hi).mono (Nat.le_succ _), h.depth, fun name => ?_⟩
  exact (h.locals name).keeps hkeeps (Nat.le_succ _)

theorem freshTemp (X : Int64 → Prop) :
    Emits M r P Γ Γ freshTemp fun t => .taken t X := by
  intro T s t s' hs hP hrun
  cases hrun
  obtain ⟨hkeeps, hs'⟩ := retype hs X
  exact ⟨_, hkeeps, Nat.le_succ _, hs', Nat.lt_succ_self _, Function.update_self ..⟩

theorem freshLabel (kind : String) : Emits M r P Γ Γ (freshLabel kind) fun _ => .any := by
  intro T s l s' hs hP hrun
  cases hrun
  exact ⟨T, .refl _ T, Nat.le_refl _, ⟨hs.code, hs.below, hs.depth, hs.locals⟩, trivial⟩

theorem addText (text : String) : Emits M r P Γ Γ (addText text) fun _ => .any := by
  intro T s l s' hs hP hrun
  cases hrun
  exact ⟨T, .refl _ T, Nat.le_refl _, ⟨hs.code, hs.below, hs.depth, hs.locals⟩, trivial⟩

theorem emit (h : ∀ T n, P.holds T n → Obeys M.terms T M.name i ∧ i.Below n) :
    Emits M r P Γ Γ (emit i) fun _ => .any := by
  intro T s u s' hs hP hrun
  obtain rfl := emit_eq_ok.mp hrun
  obtain ⟨hobeys, hbelow⟩ := h T _ hP
  refine ⟨T, .refl _ T, Nat.le_refl _, ⟨fun j hj => ?_, fun j hj => ?_, hs.depth, hs.locals⟩, trivial⟩
  · rw [Array.toList_push] at hj
    rcases List.mem_append.mp hj with hj | hj
    · exact hs.code j hj
    · exact List.mem_singleton.mp hj ▸ hobeys
  · rw [Array.toList_push] at hj
    rcases List.mem_append.mp hj with hj | hj
    · exact hs.below j hj
    · exact List.mem_singleton.mp hj ▸ hbelow

/-- An instruction whose result has the property `X`. -/
theorem define {make : Temp → Inst} (X : Int64 → Prop)
    (h : ∀ t T n, P.holds T n → T t = X → t < n →
      Obeys M.terms T M.name (make t) ∧ (make t).Below n) :
    Emits M r P Γ Γ (define make) fun o => .carries M.terms o X :=
  (freshTemp X).bind fun t =>
    .bind (Q := fun _ => .any) (emit fun T n hP => h t T n hP.1 hP.2.2 hP.2.1) fun _ =>
      .pure (Claim.gives_temp ((Claim.gives_right _ _).left _) fun _ hv => hv)

theorem inScope {Q : α → Claim} (h : Emits M r P ([] :: Γ) Γ' act Q)
    (hgrows : Grows List.tail act) : Emits M r P Γ Γ (inScope act) Q := by
  intro T s a s' hs hP hrun
  obtain ⟨t, hact, rfl⟩ := inScope_eq_ok.mp hrun
  have hin : Obedient M r ([] :: Γ) T { s with slots := [] :: s.slots } :=
    ⟨hs.code, hs.below, congrArg (· + 1) hs.depth, hs.locals⟩
  obtain ⟨T', hT, hn, hs', hQ⟩ := h hin hP hact
  have hslots : t.slots.tail = s.slots := (hgrows _ _ _ hact).slots
  refine ⟨T', hT, hn, ⟨hs'.code, hs'.below, ?_, fun name => ?_⟩, hQ⟩
  · exact (congrArg List.length hslots).trans hs.depth
  · show M.Locates r T' t.temps _ (slot? t.slots.tail name)
    rw [hslots]
    exact (hs.locals name).keeps hT hn

end Emits

end Basics

end MiniC.Lowering
