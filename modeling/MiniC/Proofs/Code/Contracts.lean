import MiniC.Proofs.Code.Rewrites
/-!
What is known of the values in temporaries. A typing gives each temporary a property of words, and an
instruction obeys it if, whatever words with the properties of its operands it reads, it accesses only
memory that may be accessed and writes a word with the property of its result. Main statement:
optimization keeps code obedient.
-/
namespace MiniC.Code

/-- What the code of a function may rely on, and what it owes. -/
structure Terms where
  /-- So many bytes may be accessed at some offset from an address. -/
  reach : Int64 → Int64 → Nat → Prop
  /-- The address of a global or a text. -/
  symbol : String → Int64 → Prop
  /-- An argument in a call of a function of that name. -/
  param : String → Nat → Int64 → Prop
  /-- A result of a function of that name. -/
  result : String → Int64 → Prop

/-- What is known of each temporary. -/
abbrev Types := Temp → Int64 → Prop

section Obedience

variable (K : Terms) (T : Types)

def Operand.Has : Operand → Int64 → Prop
  | .temp t, v => T t v
  | .const n, v => v = n
  | .data l, v => K.symbol l v

/-- An instruction in the function of that name. -/
def Obeys (name : String) : Inst → Prop
  | .label _ | .comment _ | .jump _ | .branchIf .. | .branchUnless .. => True
  | .copy dst src => ∀ v, src.Has K T v → T dst v
  | .unary dst op src => ∀ v, src.Has K T v → T dst (op.eval v)
  | .binary dst op left right =>
    ∀ a b v, left.Has K T a → right.Has K T b → op.eval a b = some v → T dst v
  | .cast dst src access => ∀ v, src.Has K T v → T dst (access.truncate v)
  | .load dst base offset access => ∀ a, base.Has K T a →
    K.reach a offset access.size ∧ ∀ v, T dst v
  | .store base offset _ size => ∀ a, base.Has K T a → K.reach a offset size
  | .call dst callee args =>
    (∀ (i : Nat) o v, args[i]? = some o → o.Has K T v → K.param callee i v) ∧
      ∀ t, dst = some t → ∀ v, K.result callee v → T t v
  | .ret (some o) => ∀ v, o.Has K T v → K.result name v
  | .ret none => K.result name 0
  | .alloca dst size _ => ∀ a, K.reach a 0 size → T dst a
  | .addressOf dst symbol => ∀ a, K.symbol symbol a → T dst a
  | .param dst i => ∀ v, K.param name i v → T dst v

end Obedience

/-! The least typing. -/

/-- What one code relies on, the other may rely on. -/
structure Terms.Le (K K' : Terms) : Prop where
  reach : ∀ a d n, K.reach a d n → K'.reach a d n
  symbol : ∀ name a, K.symbol name a → K'.symbol name a
  param : ∀ name i v, K.param name i v → K'.param name i v
  result : ∀ name v, K.result name v → K'.result name v

/-- The words that a temporary has in every typing that code obeys. -/
def least (K : Terms) (name : String) (body : List Inst) : Types :=
  fun t v => ∀ T, (∀ i ∈ body, Obeys K T name i) → T t v

section Least

variable {K K' : Terms} {T T' : Types} {name : String} {body : List Inst} {i : Inst}

theorem Operand.Has.mono {o : Operand} {v : Int64} (h : o.Has K T v)
    (hsymbol : ∀ name a, K.symbol name a → K'.symbol name a) (hT : ∀ t v, T t v → T' t v) :
    o.Has K' T' v := by
  cases o with
  | temp t => exact hT t v h
  | const n => exact h
  | data l => exact hsymbol l v h

/-- Obedience to less, where every typing that obeys the other terms agrees on what is written. -/
theorem Obeys.meet (h : Obeys K T name i) (hK : K.Le K') (hT : ∀ t v, T' t v → T t v)
    (hwrite : ∀ t v, T t v → (∀ U, Obeys K' U name i → (∀ t v, T' t v → U t v) → U t v) → T' t v) :
    Obeys K T' name i := by
  have hless {o : Operand} {v : Int64} (hv : o.Has K T' v) : o.Has K T v := hv.mono (fun _ _ h => h) hT
  have hmore {U : Types} (hU : ∀ t v, T' t v → U t v) {o : Operand} {v : Int64}
      (hv : o.Has K T' v) : o.Has K' U v := hv.mono hK.symbol hU
  cases i with
  | copy dst src => exact fun v hv => hwrite _ _ (h v (hless hv)) fun U hi hU => hi v (hmore hU hv)
  | unary dst op src =>
    exact fun v hv => hwrite _ _ (h v (hless hv)) fun U hi hU => hi v (hmore hU hv)
  | binary dst op left right =>
    exact fun a b v ha hb hop => hwrite _ _ (h a b v (hless ha) (hless hb) hop)
      fun U hi hU => hi a b v (hmore hU ha) (hmore hU hb) hop
  | cast dst src access =>
    exact fun v hv => hwrite _ _ (h v (hless hv)) fun U hi hU => hi v (hmore hU hv)
  | load dst base offset access =>
    exact fun a ha => ⟨(h a (hless ha)).1, fun v => hwrite _ _ ((h a (hless ha)).2 v)
      fun U hi hU => (hi a (hmore hU ha)).2 v⟩
  | store base offset src size => exact fun a ha => h a (hless ha)
  | call dst callee args =>
    refine ⟨fun k o v ho hv => h.1 k o v ho (hless hv), fun t ht v hv => ?_⟩
    exact hwrite _ _ (h.2 t ht v hv) fun U hi _ => hi.2 t ht v (hK.result callee v hv)
  | ret value =>
    cases value with
    | none => exact h
    | some o => exact fun v hv => h v (hless hv)
  | alloca dst size align =>
    exact fun a ha => hwrite _ _ (h a ha) fun U hi _ => hi a (hK.reach a 0 size ha)
  | addressOf dst symbol =>
    exact fun a ha => hwrite _ _ (h a ha) fun U hi _ => hi a (hK.symbol symbol a ha)
  | param dst k =>
    exact fun v hv => hwrite _ _ (h v hv) fun U hi _ => hi v (hK.param name k v hv)
  | _ => trivial

theorem obeys_least (h : ∃ T, ∀ i ∈ body, Obeys K T name i) :
    ∀ i ∈ body, Obeys K (least K name body) name i := by
  obtain ⟨T, hT⟩ := h
  intro i hi
  refine (hT i hi).meet ⟨fun _ _ _ h => h, fun _ _ h => h, fun _ _ _ h => h, fun _ _ h => h⟩
    (fun t v hv => hv T hT) fun t v _ hall U hU => ?_
  exact hall U (hU i hi) fun t v hv => hv U hU

/-- More to rely on gives more words. -/
theorem least_mono (h : ∃ T, ∀ i ∈ body, Obeys K T name i) (hK : K.Le K') {t : Temp} {v : Int64}
    (hv : least K name body t v) : least K' name body t v := by
  intro U hU
  refine (hv (fun t v => least K name body t v ∧ U t v) fun i hi => ?_).2
  refine (obeys_least h i hi).meet hK (fun t v hv => hv.1) fun t v hv hall => ⟨hv, ?_⟩
  exact hall U (hU i hi) fun t v hv => hv.2

end Least

section Rewriting

variable {K : Terms} {T : Types} {name : String} {i : Inst} {body : List Inst}

/-- Operands of which more is known may stand in place of others. -/
theorem Obeys.mapOperands {g : Operand → Operand} (h : Obeys K T name i)
    (hg : ∀ o v, (g o).Has K T v → o.Has K T v) : Obeys K T name (i.mapOperands g) := by
  cases i with
  | copy dst src => exact fun v hv => h v (hg _ v hv)
  | unary dst op src => exact fun v hv => h v (hg _ v hv)
  | binary dst op left right => exact fun a b v ha hb => h a b v (hg _ a ha) (hg _ b hb)
  | cast dst src access => exact fun v hv => h v (hg _ v hv)
  | load dst base offset access => exact fun a ha => h a (hg _ a ha)
  | store base offset src size => exact fun a ha => h a (hg _ a ha)
  | call dst callee args =>
    obtain ⟨hargs, hresult⟩ := h
    refine ⟨fun k o v ho hv => ?_, hresult⟩
    rw [List.getElem?_map] at ho
    obtain ⟨o', ho', rfl⟩ := Option.map_eq_some_iff.mp ho
    exact hargs k o' v ho' (hg o' v hv)
  | ret value =>
    cases value with
    | none => exact h
    | some o => exact fun v hv => h v (hg o v hv)
  | _ => exact h

/-- A constant that an instruction gives to its result has the property of the result. -/
theorem Obeys.constant {dst : Temp} {n : Int64} (h : Obeys K T name i)
    (hconstant : Fold.constant? i = some (dst, n)) : T dst n := by
  fun_cases Fold.constant? i with
  | case1 dst m =>
    cases hconstant
    exact h _ rfl
  | case2 dst op m =>
    cases hconstant
    exact h _ rfl
  | case3 dst op l m =>
    simp only [Fold.constant?, Option.map_eq_some_iff] at hconstant
    obtain ⟨v, hv, heq⟩ := hconstant
    cases heq
    exact h l m _ rfl rfl hv
  | case4 dst m access =>
    cases hconstant
    exact h _ rfl
  | case5 =>
    simp only [Fold.constant?] at hconstant
    cases hconstant

/-- What folding knows of a temporary fits its property. -/
def Agrees (T : Types) (known : Fold.Known) : Prop := ∀ (t : Temp) n, known[t]? = some n → T t n

theorem Agrees.has_resolve {known : Fold.Known} (h : Agrees T known) {o : Operand} {v : Int64}
    (hv : (Fold.resolve known o).Has K T v) : o.Has K T v := by
  cases o with
  | temp t =>
    simp only [Fold.resolve] at hv
    split at hv
    · rename_i n hn
      obtain rfl : v = n := hv
      exact h t v hn
    · exact hv
  | _ => exact hv

theorem Agrees.inst {known : Fold.Known} (h : Agrees T known) (counts : Fold.Counts)
    (hi : Obeys K T name i) :
    Agrees T (Fold.inst counts known i).known ∧
      ∀ j ∈ (Fold.inst counts known i).insts, Obeys K T name j := by
  have hmapped : Obeys K T name (i.mapOperands (Fold.resolve known)) :=
    hi.mapOperands fun o v => h.has_resolve
  unfold Fold.inst
  simp only
  split
  · rename_i dst n hconstant
    have hn := hmapped.constant hconstant
    constructor
    · by_cases hcount : counts.getD dst 0 = 1
      · intro t m hm
        rw [if_pos hcount, Std.HashMap.getElem?_insert] at hm
        by_cases ht : dst == t
        · rw [if_pos ht] at hm
          cases hm
          exact eq_of_beq ht ▸ hn
        · rw [if_neg ht] at hm
          exact h t m hm
      · rw [if_neg hcount]
        exact h
    · intro j hj
      obtain rfl := List.mem_singleton.mp hj
      rintro v rfl
      exact hn
  · refine ⟨h, fun j hj => ?_⟩
    rcases settle_cases (i.mapOperands (Fold.resolve known)) with hsettle | ⟨target, -, -, hsettle | hsettle⟩
    · rw [hsettle] at hj
      obtain rfl := List.mem_singleton.mp hj
      exact hmapped
    · rw [hsettle] at hj
      obtain rfl := List.mem_singleton.mp hj
      trivial
    · rw [hsettle] at hj
      cases hj

theorem obeys_insts {known : Fold.Known} (hknown : Agrees T known) (counts : Fold.Counts)
    (h : ∀ i ∈ body, Obeys K T name i) :
    ∀ j ∈ (Fold.insts counts known body).1, Obeys K T name j := by
  induction body generalizing known with
  | nil => exact fun j hj => absurd hj List.not_mem_nil
  | cons i body ih =>
    obtain ⟨hknown', hhere⟩ := hknown.inst counts (h i (List.mem_cons_self ..))
    intro j hj
    rcases List.mem_append.mp hj with hj | hj
    · exact hhere j hj
    · exact ih hknown' (fun k hk => h k (List.mem_cons_of_mem _ hk)) j hj

theorem obeys_rewrites {body' : List Inst} (h : ∀ i ∈ body, Obeys K T name i)
    (hr : Rewrites body body') : ∀ i ∈ body', Obeys K T name i := by
  cases hr with
  | fold => exact obeys_insts (fun t n hn => by simp at hn) _ h
  | unreachable => exact fun i hi => h i ((sublist_unreachable _ _).subset hi)
  | unusedLabels => exact fun i hi => h i (List.mem_of_mem_filter hi)
  | jumpsToNext => exact fun i hi => h i ((sublist_jumpsToNext _).subset hi)
  | unusedOnce => exact fun i hi => h i (List.mem_of_mem_filter hi)

/-- The step lemma is `obeys_rewrites`. -/
theorem obeys_rewritten {body' : List Inst} (h : ∀ i ∈ body, Obeys K T name i)
    (hr : Relation.ReflTransGen Rewrites body body') : ∀ i ∈ body', Obeys K T name i := by
  induction hr with
  | refl => exact h
  | tail _ hstep ih => exact obeys_rewrites ih hstep

end Rewriting

end MiniC.Code
