import MiniC.Proofs.Machine.Contracts
/-!
The accesses of a run. `accesses` lists what a run loads and stores, each with the configuration in
which that happens. Main statement: if code may access only objects that live, then whatever a call of
it loads or stores lies in the object that its base address points into: a part of the image or a
block of a frame that is live at that moment.
-/
namespace MiniC.Machine

open Code (Inst Operand Obeys Summary Terms)

/-- Bytes at an offset from the address of an object. -/
structure Part where
  base : Int64
  offset : Int64
  size : Nat

/-- The bytes that an instruction loads or stores. -/
def accessed? (p : Program) (f : Frame) : Inst → Option Part
  | .load _ base offset access => (value p f base).toOption.map (⟨·, offset, access.size⟩)
  | .store base offset _ n => (value p f base).toOption.map (⟨·, offset, n⟩)
  | _ => none

/-- Bytes that are about to be loaded or stored. -/
structure Touch where
  configuration : Configuration
  part : Part

/-- What a run loads and stores, the runs that it calls included. -/
def accesses (p : Program) : (fuel : Nat) → List Activation → Activation → State → List Touch
  | 0, _, _, _ => []
  | fuel + 1, callers, a, s =>
    match a.routine.body[a.frame.pc]? with
    | none => []
    | some i =>
      if p.limits.steps ≤ s.steps then []
      else
        ((accessed? p a.frame i).map (Touch.mk ⟨a :: callers, s⟩)).toList ++
          match next p a.routine a.frame s i with
          | .done _ _ => []
          | .go f t => accesses p fuel callers (a.advanced s i f) t
          | .call dst name args f t =>
            (match dispatch p t name args with
              | .answer _ => []
              | .enter r => accesses p fuel (a.moved f :: callers) (.enter r args) (deeper t)) ++
              match called p fuel t name args with
              | (.error _, _) => []
              | (.ok v, u) => accesses p fuel callers (a.moved (resume f dst v)) u

/-- What a call from outside loads and stores. -/
def accessesIn (p : Program) (s : State) (name : String) (args : List Int64) : List Touch :=
  match dispatch p s name args with
  | .answer _ => []
  | .enter r => accesses p (p.limits.steps - s.steps + 1) [] (.enter r args) (deeper s)

/-- The ranges of blocks. -/
def extents (bs : List Block) : Set Extent := {e | ∃ b ∈ bs, b.toExtent = e}

/-- What the frames of live activations have allocated. -/
def alive (live : List Activation) : Set Extent := extents (live.flatMap (·.blocks))

section Accesses

variable {K : Set Extent → Terms} {image Ω : Set Extent} {safe : Prop} {size : Nat} {S : Summary}
  {p : Program} {r : Routine} {f : Frame} {s : State} {i : Inst} {A : Set Code.Temp}
  {a : Activation} {callers : List Activation}

theorem extents_grown (b : Option Block) (bs : List Block) :
    extents (b.toList ++ bs) = grown (extents bs) b := by
  cases b with
  | none => rfl
  | some b =>
    ext e
    constructor
    · rintro ⟨b', hb', rfl⟩
      rcases List.mem_cons.mp hb' with rfl | hb'
      · exact Set.mem_insert _ _
      · exact Set.mem_insert_of_mem _ ⟨b', hb', rfl⟩
    · rintro (rfl | ⟨b', hb', rfl⟩)
      · exact ⟨b, List.mem_cons_self .., rfl⟩
      · exact ⟨b', List.mem_cons_of_mem _ hb', rfl⟩

theorem alive_advanced (callers : List Activation) (s : State) (i : Inst) (f : Frame) :
    alive (a.advanced s i f :: callers) = grown (alive (a :: callers)) (allotted a.frame s i) := by
  rw [alive, alive, ← extents_grown]
  simp only [Activation.advanced, List.flatMap_cons, List.append_assoc]

/-- Only what may be accessed is. -/
theorem Reads.reach (h : Reads K S r Ω A i f) (hp : Honors K image safe size p)
    (hr : Abides K S r) {x : Part} (hx : accessed? p f i = some x) :
    (K Ω).reach x.base x.offset x.size := by
  have hobeys : Obeys (K Ω) (typing K r Ω) r.name i :=
    Code.obeys_least (hr.obeys Ω) i (Array.mem_toList_iff.mpr (Array.mem_of_getElem? h.at_pc))
  have hvalue {o : Operand} (ho : o ∈ i.operands) {v : Int64} (hv : (value p f o).toOption = some v) :
      o.Has (K Ω) (typing K r Ω) v := by
    refine h.has hp ho (v := v) ?_
    cases hvalue : value p f o with
    | error e =>
      rw [hvalue] at hv
      cases hv
    | ok w =>
      rw [hvalue] at hv
      cases hv
      cases o <;> exact hvalue
  cases i with
  | load dst base offset access =>
    obtain ⟨v, hv, rfl⟩ := Option.map_eq_some_iff.mp hx
    exact (hobeys v (hvalue (List.mem_singleton.mpr rfl) hv)).1
  | store base offset src size =>
    obtain ⟨v, hv, rfl⟩ := Option.map_eq_some_iff.mp hx
    exact hobeys v (hvalue (by simp [Inst.operands]) hv)
  | _ => cases hx

/-- By induction on the fuel, with what lives in each configuration. -/
theorem inside_accesses (hp : Honors K image safe size p) (hsafe : safe) {fuel : Nat}
    (hr : Abides K S a.routine)
    (hs : Sized size (image ∪ alive (a :: callers)) s)
    (hf : Typed K S a.routine (alive (a :: callers)) a.frame) :
    ∀ x ∈ accesses p fuel callers a s,
      Inside (image ∪ alive x.configuration.live) x.part.base x.part.offset x.part.size := by
  induction fuel generalizing a callers s S with
  | zero => exact fun x hx => absurd hx List.not_mem_nil
  | succ fuel ih =>
    intro x hx
    rw [accesses] at hx
    cases hat : a.routine.body[a.frame.pc]? with
    | none =>
      simp only [hat] at hx
      exact absurd hx List.not_mem_nil
    | some i =>
      simp only [hat] at hx
      by_cases hlimit : p.limits.steps ≤ s.steps
      · rw [if_pos hlimit] at hx
        exact absurd hx List.not_mem_nil
      rw [if_neg hlimit] at hx
      obtain ⟨A, hreads⟩ := hf.reads hat
      have hstep := abides_next hp hr hs hreads
      rcases List.mem_append.mp hx with hx | hx
      · obtain ⟨b, hb, rfl⟩ := Option.map_eq_some_iff.mp (Option.mem_toList.mp hx)
        exact hp.reach hsafe _ _ _ _ (hreads.reach hp hr hb)
      cases hn : next p a.routine a.frame s i with
      | done result t =>
        simp only [hn] at hx
        exact absurd hx List.not_mem_nil
      | go f t =>
        rw [hn, ← alive_advanced callers s i f] at hstep
        have hsized := hs.go hn
        rw [← alive_advanced callers s i f] at hsized
        simp only [hn] at hx
        exact ih (a := a.advanced s i f) hr hsized hstep x hx
      | call dst name args f t =>
        rw [hn, allotted_of_call hn] at hstep
        have hsized := hs.call hn
        obtain ⟨hargs, hresume⟩ := hstep
        simp only [hn] at hx
        rcases List.mem_append.mp hx with hin | hback
        · obtain ⟨-, henter⟩ := contracted_dispatch hp ∅ t name args
          cases hd : dispatch p t name args with
          | answer result =>
            simp only [hd] at hin
            exact absurd hin List.not_mem_nil
          | enter r =>
            simp only [hd] at hin
            obtain ⟨rfl, S', hr'⟩ := henter r hd
            have hcallee : Sized size (image ∪ alive (.enter r args :: a.moved f :: callers))
                (deeper t) := hsized.deeper
            exact ih hr' hcallee (typed_enter hr' hargs) x hin
        · have hresult := contracted_called hp hsized fuel hargs
          have hsized' := hsized.called p fuel name args
          rcases hcalled : called p fuel t name args with ⟨e | v, u⟩
          · simp only [hcalled] at hback
            exact absurd hback List.not_mem_nil
          · simp only [hcalled] at hback hresult hsized'
            exact ih (a := a.moved (resume f dst v)) hr hsized' (hresume v hresult) x hback

/-- A call from outside, while no block lives. -/
theorem inside_accessesIn (hp : Honors K image safe size p) (hsafe : safe) (hs : Sized size image s)
    {name : String} {args : List Int64} (hargs : ∀ i v, args[i]? = some v → (K ∅).param name i v) :
    ∀ x ∈ accessesIn p s name args,
      Inside (image ∪ alive x.configuration.live) x.part.base x.part.offset x.part.size := by
  have hnone : extents [] = ∅ := Set.eq_empty_of_forall_notMem fun e ⟨b, hb, _⟩ => nomatch hb
  obtain ⟨-, henter⟩ := contracted_dispatch hp ∅ s name args
  unfold accessesIn
  cases hd : dispatch p s name args with
  | answer result => exact fun x hx => absurd hx List.not_mem_nil
  | enter r =>
    obtain ⟨rfl, S, hr⟩ := henter r hd
    refine inside_accesses hp hsafe hr ?_ ?_
    · show Sized size (image ∪ extents []) (deeper s)
      rw [hnone, Set.union_empty]
      exact hs.deeper
    · show Typed K S r (extents []) _
      rw [hnone]
      exact typed_enter hr hargs

end Accesses

end MiniC.Machine
