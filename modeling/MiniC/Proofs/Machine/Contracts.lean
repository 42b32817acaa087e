import MiniC.Proofs.Code.Contracts
import MiniC.Proofs.Machine.Rewriting
import MiniC.Proofs.Machine.Stack
/-!
Runs of obedient code. What may be accessed depends on the objects that live; within a call they only
become more, and when it ends they are as before. Where the image keeps the terms on which the code
relies and the arguments of a call keep them too, every temporary that is read has a word of its type.
Main statements: the result of such a call keeps the terms, and if only objects that live may be
accessed then every access falls inside one of them and none faults.
-/
namespace MiniC.Machine

open Code (Allows Flows Inst Label Obeys Operand Summary Temp Terms Types after least)

/-- So many bytes from an address on lie in an object. -/
def Extent.Covers (e : Extent) (a : Int64) (n : Nat) : Prop :=
  (e.start : Int) ≤ a.toInt ∧ a.toInt + n ≤ e.stop

/-- So many bytes at an offset from an address lie in the object that the address is in. -/
def Inside (Ω : Set Extent) (a d : Int64) (n : Nat) : Prop :=
  ∃ e ∈ Ω, e.Covers a 0 ∧ e.Covers (a + d) n

/-- What lies in an object of the memory can be found there. -/
theorem Extent.Covers.locate {m : Memory} {e : Extent} {a : Int64} {n : Nat} (h : e.Covers a n)
    (hguard : nullGuard ≤ e.start) (hstop : e.stop ≤ m.size) :
    ∃ start, m.locate a n = .ok start := by
  obtain ⟨hstart, hend⟩ := h
  have hnonneg : ¬ a < 0 := by
    rw [Int64.lt_iff_toInt_lt, Int64.toInt_zero]
    omega
  have hstart : ¬ a.toNatClampNeg < nullGuard := by
    rw [Int64.toNatClampNeg]
    omega
  have hfits : a.toNatClampNeg + n ≤ m.bytes.size := by
    rw [Int64.toNatClampNeg]
    show a.toInt.toNat + n ≤ m.size
    omega
  refine ⟨a.toNatClampNeg, ?_⟩
  simp only [Memory.locate, if_neg hnonneg, if_neg hstart, if_pos hfits]

/-- A part of what lies in an object lies in it, if addresses are words. -/
theorem Extent.Covers.further {e : Extent} {n k d : Nat} {a : Int64} (h : e.Covers a n)
    (hd : d + k ≤ n) (hsize : e.stop ≤ Layout.maxObjectSize) :
    e.Covers (a + Int64.ofNat d) k := by
  obtain ⟨hstart, hstop⟩ := h
  have hmax : (Layout.maxObjectSize : Int) = 2 ^ 63 - 1 := rfl
  have hdistance : (Int64.ofNat d).toInt = d := Int64.toInt_ofNat_of_lt (by omega)
  have hsum : (a + Int64.ofNat d).toInt = a.toInt + d := by
    rw [Int64.toInt_add, hdistance]
    exact Int.bmod_eq_of_le (by omega) (by omega)
  unfold Covers
  omega

theorem covers_self {e : Extent} (hsize : e.stop ≤ Layout.maxObjectSize) :
    e.Covers (Int64.ofNat e.start) e.size := by
  have hmax : Layout.maxObjectSize = 2 ^ 63 - 1 := rfl
  have hstart : (Int64.ofNat e.start).toInt = e.start := by
    unfold Extent.stop at hsize
    exact Int64.toInt_ofNat_of_lt (by omega)
  unfold Extent.Covers Extent.stop
  omega

/-- The objects after an instruction that may have allocated one. -/
def grown (Ω : Set Extent) : Option Block → Set Extent
  | none => Ω
  | some b => insert b.toExtent Ω

theorem subset_grown (Ω : Set Extent) (b : Option Block) : Ω ⊆ grown Ω b := by
  cases b with
  | none => exact Set.Subset.rfl
  | some b => exact Set.subset_insert _ _

variable {K : Set Extent → Terms} {image Ω Ω' : Set Extent} {safe : Prop} {size : Nat}
  {S : Summary} {p : Program} {r : Routine} {f f' g : Frame} {s s' : State} {i : Inst} {o : Operand}
  {A : Set Temp} {T : Types}

/-- The code of a routine keeps the terms, whichever blocks live. -/
structure Abides (K : Set Extent → Terms) (S : Summary) (r : Routine) : Prop where
  obeys : ∀ Ω, ∃ T, ∀ i ∈ r.body.toList, Obeys (K Ω) T r.name i
  flows : Flows S ∅ r.body.toList
  labels : ∀ (l : Label) q, r.labels[l]? = some q → r.body[q]? = some (.label l)
  dsts : ∀ i ∈ r.body, ∀ t, i.dst? = some t → t < r.temps

/-- What a program owes to its code. -/
structure Honors (K : Set Extent → Terms) (image : Set Extent) (safe : Prop) (size : Nat)
    (p : Program) : Prop where
  grows : ∀ Ω Ω', Ω ⊆ Ω' → (K Ω).Le (K Ω')
  reach : safe → ∀ Ω a d n, (K Ω).reach a d n → Inside (image ∪ Ω) a d n
  blocks : ∀ Ω, ∀ e ∈ Ω, e.stop ≤ size → (K Ω).reach (Int64.ofNat e.start) 0 e.size
  symbols : ∀ Ω (name : String) a, p.symbols[name]? = some a → (K Ω).symbol name a
  zero : ∀ Ω name, (K Ω).result name 0
  /-- No result depends on what lives. -/
  results : ∀ Ω Ω' name v, (K Ω).result name v → (K Ω').result name v
  routines : ∀ (name : String) r, p.routines[name]? = some r → r.name = name ∧ ∃ S, Abides K S r

/-- An outcome of a call of that name. -/
def Contracted (K : Terms) (safe : Prop) (name : String) : Except Fault Int64 → Prop
  | .ok v => K.result name v
  | .error (.nullPointer _) | .error (.outOfBounds ..) => ¬ safe
  | .error _ => True

/-- What is known of the temporaries of a routine while those blocks live. -/
def typing (K : Set Extent → Terms) (r : Routine) (Ω : Set Extent) : Types :=
  least (K Ω) r.name r.body.toList

/-- A frame in which everything that may still be read has its type. -/
structure Typed (K : Set Extent → Terms) (S : Summary) (r : Routine) (Ω : Set Extent) (f : Frame) :
    Prop where
  args : ∀ i v, f.args[i]? = some v → (K Ω).param r.name i v
  size : f.temps.size = r.temps
  slots : ∀ t a, f.slots.getD t none = some a → typing K r Ω t a
  temps : ∃ A, Flows S A (r.body.toList.drop f.pc) ∧ ∀ t ∈ A, typing K r Ω t (f.temps.getD t 0)

/-- A state whose objects lie in a memory of that size. -/
structure Sized (size : Nat) (Ω : Set Extent) (s : State) : Prop where
  stack : nullGuard ≤ s.stack
  memory : s.memory.size = size
  objects : ∀ e ∈ Ω, nullGuard ≤ e.start ∧ e.stop ≤ size

theorem Abides.typed_grows (hr : Abides K S r) (hK : ∀ Ω Ω', Ω ⊆ Ω' → (K Ω).Le (K Ω'))
    (hΩ : Ω ⊆ Ω') {t : Temp} {v : Int64} (h : typing K r Ω t v) : typing K r Ω' t v :=
  Code.least_mono (hr.obeys Ω) (hK Ω Ω' hΩ) h

theorem Typed.grows (h : Typed K S r Ω f) (hr : Abides K S r)
    (hK : ∀ Ω Ω', Ω ⊆ Ω' → (K Ω).Le (K Ω')) (hΩ : Ω ⊆ Ω') : Typed K S r Ω' f where
  args i v hv := (hK Ω Ω' hΩ).param _ _ _ (h.args i v hv)
  size := h.size
  slots t a ha := hr.typed_grows hK hΩ (h.slots t a ha)
  temps := by
    obtain ⟨A, hflows, htemps⟩ := h.temps
    exact ⟨A, hflows, fun t ht => hr.typed_grows hK hΩ (htemps t ht)⟩

theorem labels_of_labelPositions {body : List Inst} (h : (Code.labelsOf body).Nodup) {l : Label}
    {q : Nat} (hq : (labelPositions body)[l]? = some q) : body[q]? = some (.label l) := by
  by_cases hl : l ∈ Code.labelsOf body
  · obtain ⟨pc, hpc⟩ := List.mem_iff_getElem?.mp (Code.mem_labelsOf.mp hl)
    obtain rfl : pc = q := Option.some.inj ((getElem?_labelPositions h hpc).symm.trans hq)
    exact hpc
  · have hnone : (labelPositions body)[l]? = none :=
      (getElem?_foldl_addLabel_of_notMem hl).trans Std.HashMap.getElem?_empty
    rw [hnone] at hq
    cases hq

/-- Orderly code that obeys makes a routine that does. -/
theorem Abides.of_orderly {N : Code.Names} {data : List Label} {f : Code.Function}
    (h : Code.Orderly N f.temps data S f.body)
    (hobeys : ∀ Ω, ∃ T, ∀ i ∈ f.body, Obeys (K Ω) T f.name i) :
    Abides K S (Routine.ofFunction f) where
  obeys := hobeys
  flows := h.flows
  labels _ q hq := (getElem?_body f q).trans (labels_of_labelPositions h.labels hq)
  dsts i hi := (h.fine i (List.mem_toArray.mp hi)).dst

/-! One instruction. -/

section Step

/-- What an instruction leads to; after it those blocks live. -/
def Next.Abides (K : Set Extent → Terms) (safe : Prop) (S : Summary) (r : Routine)
    (Ω : Set Extent) : Next → Prop
  | .go f _ => Typed K S r Ω f
  | .call dst callee args f _ => (∀ i v, args[i]? = some v → (K Ω).param callee i v) ∧
    ∀ v, (K Ω).result callee v → Typed K S r Ω (resume f dst v)
  | .done result _ => Contracted (K Ω) safe r.name result

/-- A frame at an instruction, with what is available there. -/
structure Reads (K : Set Extent → Terms) (S : Summary) (r : Routine) (Ω : Set Extent) (A : Set Temp)
    (i : Inst) (f : Frame) : Prop where
  args : ∀ i v, f.args[i]? = some v → (K Ω).param r.name i v
  size : f.temps.size = r.temps
  slots : ∀ t a, f.slots.getD t none = some a → typing K r Ω t a
  temps : ∀ t ∈ A, typing K r Ω t (f.temps.getD t 0)
  at_pc : r.body[f.pc]? = some i
  allows : Allows S A i
  flows : Flows S (after S A i) (r.body.toList.drop (f.pc + 1))

theorem Typed.reads (h : Typed K S r Ω f) (hat : r.body[f.pc]? = some i) :
    ∃ A, Reads K S r Ω A i f := by
  obtain ⟨A, hflows, htemps⟩ := h.temps
  obtain ⟨hallows, hrest⟩ := hflows.step (i := i) (by rw [Array.getElem?_toList]; exact hat)
  exact ⟨A, h.args, h.size, h.slots, htemps, hat, hallows, hrest⟩

namespace Reads

theorem has (h : Reads K S r Ω A i f) (hp : Honors K image safe size p) (ho : o ∈ i.operands) {v : Int64}
    (hv : value p (f.goto (f.pc + 1)) o = .ok v) : o.Has (K Ω) (typing K r Ω) v := by
  cases o with
  | temp t =>
    cases hv
    exact h.temps t (h.allows.reads t ho)
  | const n =>
    cases hv
    rfl
  | data l =>
    simp only [value] at hv
    split at hv
    · cases hv
      exact hp.symbols Ω l _ ‹_›
    · cases hv

/-- Nothing is written. -/
theorem passed (h : Reads K S r Ω A i f) (hends : i.endsBlock = false) (hdst : i.dst? = none) :
    Typed K S r Ω (f.goto (f.pc + 1)) where
  args := h.args
  size := h.size
  slots := h.slots
  temps := by
    refine ⟨_, h.flows, fun t ht => ?_⟩
    rcases Code.after_subset_of_next hends h.allows ht with hwritten | hold
    · rw [hdst] at hwritten
      cases hwritten
    · exact h.temps t hold

/-- A temporary is written, and perhaps its slot filled. -/
theorem written (h : Reads K S r Ω A i f) (hr : Abides K S r) (hends : i.endsBlock = false)
    {t : Temp} (hdst : i.dst? = some t) {v : Int64} (hv : typing K r Ω t v)
    (hg : g.temps = f.temps.setIfInBounds t v) (hargs : g.args = f.args) (hpc : g.pc = f.pc + 1)
    (hslots : ∀ u a, g.slots.getD u none = some a → typing K r Ω u a) : Typed K S r Ω g where
  args := hargs ▸ h.args
  size := by rw [hg, Array.size_setIfInBounds, h.size]
  slots := hslots
  temps := by
    have hlt : t < f.temps.size := h.size ▸ hr.dsts i (Array.mem_of_getElem? h.at_pc) t hdst
    rw [hpc]
    refine ⟨_, h.flows, fun u hu => ?_⟩
    have hget : g.temps.getD u 0 = if t = u ∧ u < f.temps.size then v else f.temps.getD u 0 := by
      rw [hg]
      exact getD_set f t u v
    rw [hget]
    by_cases htu : t = u
    · subst htu
      rw [if_pos ⟨rfl, hlt⟩]
      exact hv
    · rw [if_neg fun hand => htu hand.1]
      rcases Code.after_subset_of_next hends h.allows hu with hwritten | hold
      · rw [hdst] at hwritten
        exact absurd (Option.some.inj hwritten) htu
      · exact h.temps u hold

theorem set (h : Reads K S r Ω A i f) (hr : Abides K S r) (hends : i.endsBlock = false)
    {t : Temp} (hdst : i.dst? = some t) {v : Int64} (hv : typing K r Ω t v) :
    Typed K S r Ω ((f.goto (f.pc + 1)).set t v) :=
  h.written hr hends hdst hv rfl rfl rfl h.slots

/-- A fresh object lives, and the frame has its address. -/
theorem allocated {dst : Temp} {n align start : Nat} (h : Reads K S r Ω A (.alloca dst n align) f)
    (hp : Honors K image safe size p) (hr : Abides K S r) (hfits : start + n ≤ size) :
    Typed K S r (insert ⟨start, n⟩ Ω)
      ((f.goto (f.pc + 1)).setSlot dst (Int64.ofNat start)) := by
  have hΩ : Ω ⊆ insert ⟨start, n⟩ Ω := Set.subset_insert _ _
  have hmem := Array.mem_toList_iff.mpr (Array.mem_of_getElem? h.at_pc)
  have hblock : typing K r (insert ⟨start, n⟩ Ω) dst (Int64.ofNat start) :=
    Code.obeys_least (hr.obeys _) _ hmem _ (hp.blocks _ ⟨start, n⟩ (Set.mem_insert _ _) hfits)
  have hgrown : Reads K S r (insert ⟨start, n⟩ Ω) A (.alloca dst n align) f :=
    { h with
      args := fun i v hv => (hp.grows _ _ hΩ).param _ _ _ (h.args i v hv)
      slots := fun t a ha => hr.typed_grows hp.grows hΩ (h.slots t a ha)
      temps := fun t ht => hr.typed_grows hp.grows hΩ (h.temps t ht) }
  refine hgrown.written hr rfl rfl hblock rfl rfl rfl fun t a ha => ?_
  have hget : (((f.goto (f.pc + 1)).setSlot dst (Int64.ofNat start)).slots.getD t none) =
      if dst = t ∧ t < f.slots.size then some (Int64.ofNat start) else f.slots.getD t none := by
    simp only [Frame.setSlot, Frame.goto, Array.getD_eq_getD_getElem?,
      Array.getElem?_setIfInBounds]
    by_cases ht : dst = t
    · by_cases hlt : t < f.slots.size <;> simp [ht, hlt]
    · simp [ht]
  rw [hget] at ha
  split at ha
  · rename_i hand
    obtain ⟨rfl, -⟩ := hand
    cases ha
    exact hblock
  · exact hgrown.slots t a ha

/-- A fault that is none of an access, or a word that has the type of the result. -/
theorem assign (h : Reads K S r Ω A i f) (hr : Abides K S r) (hends : i.endsBlock = false)
    {t : Temp} (hdst : i.dst? = some t) {x : Except Fault Int64}
    (herror : ∀ e, x = .error e → Contracted (K Ω) safe r.name (.error e))
    (hok : ∀ v, x = .ok v → typing K r Ω t v) :
    (assign (f.goto (f.pc + 1)) (tick s) t x).Abides K safe S r Ω := by
  cases x with
  | error e => exact herror e rfl
  | ok v => exact h.set hr hends hdst (hok v rfl)

theorem jump (h : Reads K S r Ω A i f) (hr : Abides K S r) {target : Label}
    (htarget : i.target? = some target) :
    (jump r (f.goto (f.pc + 1)) (tick s) target).Abides K safe S r Ω := by
  unfold Machine.jump position
  cases hq : r.labels[target]? with
  | none => trivial
  | some q =>
    have hat := hr.labels target q hq
    rw [← Array.getElem?_toList] at hat
    exact ⟨h.args, h.size, h.slots, S target, hr.flows.at_label hat,
      fun t ht => h.temps t (h.allows.target target htarget ht)⟩

theorem branch (h : Reads K S r Ω A i f) (hr : Abides K S r) {target : Label}
    (htarget : i.target? = some target) (hends : i.endsBlock = false) (hdst : i.dst? = none)
    (cond : Operand) (taken : Int64 → Bool)
    (herror : ∀ e, value p (f.goto (f.pc + 1)) cond = .error e → Contracted (K Ω) safe r.name (.error e)) :
    (branch p r (f.goto (f.pc + 1)) (tick s) cond target taken).Abides K safe S r Ω := by
  unfold Machine.branch
  cases hv : value p (f.goto (f.pc + 1)) cond with
  | error e => exact herror e hv
  | ok v =>
    by_cases htaken : taken v = true
    · simp only [if_pos htaken]
      exact h.jump hr htarget
    · simp only [if_neg htaken]
      exact h.passed hends hdst

end Reads

theorem contracted_of_value {e : Fault} (h : value p f o = .error e) (name : String) :
    Contracted (K Ω) safe name (.error e) := by
  cases o with
  | data l =>
    simp only [value] at h
    split at h
    · cases h
    · cases h
      trivial
  | _ => cases h

theorem contracted_of_values {e : Fault} {os : List Operand} (h : values p f os = .error e)
    (name : String) : Contracted (K Ω) safe name (.error e) := by
  induction os with
  | nil => cases h
  | cons o os ih =>
    rw [values] at h
    split at h
    · cases h
      exact contracted_of_value ‹_› name
    split at h
    · cases h
      exact ih ‹_›
    · cases h

theorem getElem?_values {os : List Operand} {vs : List Int64} (h : values p f os = .ok vs) {k : Nat}
    {v : Int64} (hv : vs[k]? = some v) : ∃ o, os[k]? = some o ∧ value p f o = .ok v := by
  induction os generalizing vs k with
  | nil =>
    cases h
    cases hv
  | cons o os ih =>
    rw [values] at h
    split at h
    · cases h
    split at h
    · cases h
    · cases h
      cases k with
      | zero =>
        cases hv
        exact ⟨o, rfl, ‹_›⟩
      | succ k => exact ih ‹_› hv

/-- An access of what may be accessed does not fault. -/
theorem contracted_of_locate (hp : Honors K image safe size p) (hs : Sized size (image ∪ Ω) s)
    {a d : Int64} {n : Nat} (ha : (K Ω).reach a d n) {e : Fault}
    (h : s.memory.locate (a + d) n = .error e)
    (name : String) : Contracted (K Ω) safe name (.error e) := by
  have hsafe : ¬ safe := by
    intro hsafe
    obtain ⟨object, hmem, -, hcovers⟩ := hp.reach hsafe Ω a d n ha
    obtain ⟨hguard, hstop⟩ := hs.objects object hmem
    obtain ⟨start, hstart⟩ := hcovers.locate hguard (hstop.trans_eq hs.memory.symm)
    rw [hstart] at h
    cases h
  unfold Memory.locate at h
  split at h
  · cases h
    exact hsafe
  dsimp only at h
  split at h
  · cases h
    exact hsafe
  split at h
  · cases h
  · cases h
    exact hsafe

/-- The step lemma, one case for each instruction. -/
theorem abides_next (hp : Honors K image safe size p) (hr : Abides K S r)
    (hs : Sized size (image ∪ Ω) s) (h : Reads K S r Ω A i f) :
    (next p r f s i).Abides K safe S r (grown Ω (allotted f s i)) := by
  have hobeys : Obeys (K Ω) (typing K r Ω) r.name i :=
    Code.obeys_least (hr.obeys Ω) i (Array.mem_toList_iff.mpr (Array.mem_of_getElem? h.at_pc))
  have hvalue {o : Operand} (ho : o ∈ i.operands) {v : Int64}
      (hv : value p (f.goto (f.pc + 1)) o = .ok v) : o.Has (K Ω) (typing K r Ω) v := h.has hp ho hv
  unfold next
  cases i with
  | label name => exact h.passed rfl rfl
  | comment text => exact h.passed rfl rfl
  | copy dst src =>
    refine h.assign hr rfl rfl (fun e he => contracted_of_value he _) fun v hv => ?_
    exact hobeys v (hvalue (List.mem_singleton.mpr rfl) hv)
  | unary dst op src =>
    refine h.assign hr rfl rfl (fun e he => ?_) fun v hv => ?_
    · split at he
      · cases he
        exact contracted_of_value ‹_› _
      · cases he
    · split at hv
      · cases hv
      · cases hv
        exact hobeys _ (hvalue (List.mem_singleton.mpr rfl) ‹_›)
  | binary dst op left right =>
    refine h.assign hr rfl rfl (fun e he => ?_) fun v hv => ?_
    · split at he
      · cases he
        exact contracted_of_value ‹_› _
      split at he
      · cases he
        exact contracted_of_value ‹_› _
      split at he <;> cases he
      trivial
    · split at hv
      · cases hv
      rename_i a ha
      split at hv
      · cases hv
      rename_i b hb
      split at hv
      · cases hv
      rename_i w hw
      cases hv
      exact hobeys a b v (hvalue (o := left) (by simp [Inst.operands]) ha)
        (hvalue (o := right) (by simp [Inst.operands]) hb) hw
  | cast dst src access =>
    refine h.assign hr rfl rfl (fun e he => ?_) fun v hv => ?_
    · split at he
      · cases he
        exact contracted_of_value ‹_› _
      · cases he
    · split at hv
      · cases hv
      · cases hv
        exact hobeys _ (hvalue (List.mem_singleton.mpr rfl) ‹_›)
  | load dst base offset access =>
    refine h.assign hr rfl rfl (fun e he => ?_) fun v hv => ?_
    · split at he
      · cases he
        exact contracted_of_value ‹_› _
      rename_i a ha
      have hreach := (hobeys a (hvalue (List.mem_singleton.mpr rfl) ha)).1
      unfold Memory.load at he
      split at he
      · cases he
        exact contracted_of_locate hp hs hreach ‹_› _
      · cases he
    · split at hv
      · cases hv
      rename_i a ha
      exact (hobeys a (hvalue (List.mem_singleton.mpr rfl) ha)).2 v
  | store base offset src n =>
    have hbase : base ∈ (Inst.store base offset src n).operands := by simp [Inst.operands]
    simp only [step, storeTo]
    split
    · exact contracted_of_value ‹_› _
    rename_i a ha
    split
    · exact contracted_of_value ‹_› _
    split
    · exact contracted_of_locate (s := tick s) hp ⟨hs.stack, hs.memory, hs.objects⟩
        (hobeys a (hvalue hbase ha)) ‹_› _
    · exact h.passed rfl rfl
  | jump target => exact h.jump hr rfl
  | branchIf cond target =>
    exact h.branch hr rfl rfl rfl cond _ fun e he => contracted_of_value he _
  | branchUnless cond target =>
    exact h.branch hr rfl rfl rfl cond _ fun e he => contracted_of_value he _
  | call dst callee args =>
    obtain ⟨hargs, hresult⟩ := hobeys
    simp only [step]
    split
    · exact contracted_of_values ‹_› _
    rename_i vs hvs
    refine ⟨fun k v hv => ?_, fun v hv => ?_⟩
    · obtain ⟨o, ho, hov⟩ := getElem?_values hvs hv
      exact hargs k o v ho (hvalue (List.mem_of_getElem? ho) hov)
    · cases dst with
      | none => exact h.passed rfl rfl
      | some t => exact h.set hr rfl rfl (hresult t rfl v hv)
  | ret result =>
    cases result with
    | none => exact hobeys
    | some o =>
      show Contracted (K Ω) safe r.name (value p (f.goto (f.pc + 1)) o)
      cases hv : value p (f.goto (f.pc + 1)) o with
      | error e => exact contracted_of_value hv _
      | ok v => exact hobeys v (hvalue (List.mem_singleton.mpr rfl) hv)
  | alloca dst n align =>
    cases hslot : f.slots.getD dst none with
    | some a =>
      simp only [step, allocate, Frame.goto, allotted, hslot, grown]
      exact h.set hr rfl rfl (h.slots dst a hslot)
    | none =>
      have hroom : reserve (tick s) n align = reserve s n align := rfl
      cases hreserve : reserve s n align with
      | error e =>
        simp only [step, allocate, Frame.goto, hslot, hroom, hreserve]
        unfold reserve at hreserve
        split at hreserve
        · cases hreserve
          trivial
        split at hreserve <;> cases hreserve
        trivial
      | ok room =>
        obtain ⟨start, stop⟩ := room
        obtain ⟨-, rfl, hfits⟩ := reserve_eq_ok hreserve
        simp only [step, allocate, Frame.goto, allotted, hslot, hroom, hreserve, grown]
        exact h.allocated hp hr (hfits.trans_eq hs.memory)
  | addressOf dst symbol =>
    refine h.assign hr rfl rfl (fun e he => ?_) fun v hv => ?_
    · split at he <;> cases he
      trivial
    · split at hv
      · cases hv
        exact hobeys _ (hp.symbols Ω symbol _ ‹_›)
      · cases hv
  | param dst k =>
    refine h.assign hr rfl rfl (fun e he => ?_) fun v hv => ?_
    · split at he <;> cases he
      trivial
    · split at hv
      · cases hv
        exact hobeys _ (h.args k _ ‹_›)
      · cases hv

end Step

/-! Runs. -/

section Runs

theorem typed_enter (hr : Abides K S r) {args : List Int64}
    (hargs : ∀ i v, args[i]? = some v → (K Ω).param r.name i v) :
    Typed K S r Ω (Frame.enter r args) where
  args := hargs
  size := Array.size_replicate
  slots t a ha := by
    simp only [Frame.enter, Array.getD_eq_getD_getElem?, Array.getElem?_replicate] at ha
    split at ha <;> cases ha
  temps := ⟨∅, hr.flows, nofun⟩

theorem Sized.deeper (h : Sized size Ω s) : Sized size Ω (deeper s) :=
  ⟨h.stack, h.memory, h.objects⟩

theorem Sized.called (h : Sized size Ω s) (p : Program) (fuel : Nat) (name : String)
    (args : List Int64) : Sized size Ω (called p fuel s name args).2 where
  stack := h.stack.trans_eq (called_restores p fuel s name args).1.symm
  memory := (size_called p fuel s name args).trans h.memory
  objects := h.objects

/-- Only an allocation that goes on makes an object. -/
theorem Sized.go (h : Sized size (image ∪ Ω) s) (hn : next p r f s i = .go f' s') :
    Sized size (image ∪ grown Ω (allotted f s i)) s' := by
  have hstacks := stacks_next p r f s i
  rw [hn] at hstacks
  obtain ⟨hstacks, hmemory⟩ := hstacks
  rcases hstacks with ⟨hnone, -, hstack⟩ | ⟨b, -, hmade, -, -, hstart, hfits, hstack⟩
  · rw [hnone]
    exact ⟨h.stack.trans_eq hstack.symm, hmemory.trans h.memory, h.objects⟩
  · have hguard := h.stack.trans (le_of_alignTo hstart)
    rw [hmade]
    refine ⟨?_, hmemory.trans h.memory, fun e he => ?_⟩
    · rw [hstack]
      exact hguard.trans (Nat.le_add_right ..)
    · rcases he with he | rfl | he
      · exact h.objects e (.inl he)
      · exact ⟨hguard, hfits.trans_eq h.memory⟩
      · exact h.objects e (.inr he)

theorem Sized.call (h : Sized size Ω s) {dst : Option Temp} {callee : String} {args : List Int64}
    (hn : next p r f s i = .call dst callee args f' s') : Sized size Ω s' := by
  have hstacks := stacks_next p r f s i
  rw [hn] at hstacks
  obtain ⟨-, hstack, hmemory⟩ := hstacks
  exact ⟨h.stack.trans_eq hstack.symm, hmemory.trans h.memory, h.objects⟩

theorem allotted_of_call {dst : Option Temp} {callee : String} {args : List Int64}
    (hn : next p r f s i = .call dst callee args f' s') : allotted f s i = none := by
  cases i with
  | alloca t n align =>
    have hnot (g : Frame) : allocate g (tick s) t n align ≠ .call dst callee args f' s' := by
      unfold allocate
      split
      · simp
      · split <;> simp
    exact absurd hn (hnot _)
  | _ => rfl

/-- A call is answered as agreed, or enters a routine that keeps the terms. -/
theorem contracted_dispatch (hp : Honors K image safe size p) (Ω : Set Extent) (s : State)
    (name : String) (args : List Int64) :
    (∀ result, dispatch p s name args = .answer result → Contracted (K Ω) safe name result) ∧
      ∀ r, dispatch p s name args = .enter r → r.name = name ∧ ∃ S, Abides K S r := by
  refine ⟨fun result hd => ?_, fun r hd => hp.routines name r (routine_of_dispatch hd)⟩
  unfold dispatch at hd
  by_cases hname : name = assertName
  · rw [if_pos hname] at hd
    cases hd
    unfold runAssert
    split
    · split
      · exact hp.zero Ω name
      · trivial
    · trivial
  · rw [if_neg hname] at hd
    cases hcallee : callee p s name args with
    | ok r =>
      rw [hcallee] at hd
      cases hd
    | error e =>
      rw [hcallee] at hd
      cases hd
      unfold callee at hcallee
      split at hcallee
      · cases hcallee
        trivial
      split at hcallee
      · split at hcallee <;> cases hcallee
        trivial
      · cases hcallee
        trivial

theorem Contracted.elsewhere (hp : Honors K image safe size p) {name : String}
    {result : Except Fault Int64} (h : Contracted (K Ω) safe name result) (Ω' : Set Extent) :
    Contracted (K Ω') safe name result := by
  cases result with
  | ok v => exact hp.results Ω Ω' name v h
  | error e => cases e <;> exact h

/-- The run lemma, by induction on the fuel. -/
theorem contracted_execute (hp : Honors K image safe size p) (hr : Abides K S r)
    (hs : Sized size (image ∪ Ω) s) (hf : Typed K S r Ω f) (fuel : Nat) :
    Contracted (K Ω) safe r.name (execute p fuel r f s).1 := by
  induction fuel generalizing r f s Ω S with
  | zero => trivial
  | succ fuel ih =>
    rw [execute_succ]
    cases hat : r.body[f.pc]? with
    | none => exact hp.zero Ω r.name
    | some i =>
      simp only
      by_cases hlimit : p.limits.steps ≤ s.steps
      · rw [if_pos hlimit]
        trivial
      rw [if_neg hlimit]
      obtain ⟨A, hreads⟩ := hf.reads hat
      have hstep := abides_next hp hr hs hreads
      cases hn : next p r f s i with
      | done result t =>
        rw [hn] at hstep
        exact hstep.elsewhere hp Ω
      | go f' s' =>
        rw [hn] at hstep
        exact (ih hr (hs.go hn) hstep).elsewhere hp Ω
      | call dst name args f' s' =>
        rw [hn, allotted_of_call hn] at hstep
        have hsized := hs.call hn
        obtain ⟨hargs, hresume⟩ := hstep
        obtain ⟨hanswer, henter⟩ := contracted_dispatch hp Ω s' name args
        cases hd : dispatch p s' name args with
        | answer result =>
          have hresult := hanswer result hd
          simp only [hd]
          cases result with
          | error e => cases e <;> exact hresult
          | ok v => exact ih hr hsized (hresume v hresult)
        | enter r' =>
          obtain ⟨rfl, S', hr'⟩ := henter r' hd
          have hcallee := ih hr' hsized.deeper (typed_enter hr' hargs)
          have hsize := size_execute p fuel r' (Frame.enter r' args) (deeper s')
          obtain ⟨⟨result, t⟩, hc⟩ : ∃ x, execute p fuel r' (Frame.enter r' args) (deeper s') = x :=
            ⟨_, rfl⟩
          rw [hc] at hcallee hsize
          simp only [hd, hc]
          cases result with
          | error e => cases e <;> exact hcallee
          | ok v =>
            exact ih hr ⟨hsized.stack, hsize.trans hsized.memory, hsized.objects⟩ (hresume v hcallee)

/-- A call, with arguments that keep the terms. -/
theorem contracted_called (hp : Honors K image safe size p) (hs : Sized size (image ∪ Ω) s)
    (fuel : Nat) {name : String} {args : List Int64}
    (hargs : ∀ i v, args[i]? = some v → (K Ω).param name i v) :
    Contracted (K Ω) safe name (called p fuel s name args).1 := by
  obtain ⟨hanswer, henter⟩ := contracted_dispatch hp Ω s name args
  unfold called
  cases hd : dispatch p s name args with
  | answer result => exact hanswer result hd
  | enter r =>
    obtain ⟨rfl, S, hr⟩ := henter r hd
    exact contracted_execute hp hr hs.deeper (typed_enter hr hargs) fuel

end Runs

end MiniC.Machine
