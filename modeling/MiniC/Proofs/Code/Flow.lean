import Mathlib.Data.List.Nodup
import Mathlib.Data.Set.Insert
import MiniC.Code.Inst
/-!
Temporaries along the paths of control. A function is well formed if its jumps have their labels
and, on every path from its entry, whatever is read was written before. Main statement: a summary
of what is available at each label, checked once from the top to the bottom of a body, covers all
paths through it.
-/
namespace MiniC.Code

/-- Where control may get, and what was written on the way, the latest first. -/
inductive Path (body : List Inst) : Nat → List Temp → Prop where
  | entry : Path body 0 []
  | next {pc ts i} : Path body pc ts → body[pc]? = some i → i.endsBlock = false →
      Path body (pc + 1) (i.dst?.toList ++ ts)
  | jump {pc ts i l q} : Path body pc ts → body[pc]? = some i → i.target? = some l →
      body[q]? = some (.label l) → Path body q ts

def labelsOf (body : List Inst) : List Label := body.filterMap Inst.label?

theorem labelsOf_cons (i : Inst) (body : List Inst) :
    labelsOf (i :: body) = i.label?.toList ++ labelsOf body := by
  cases h : i.label? <;> simp [labelsOf, h]

theorem mem_labelsOf {body : List Inst} {l : Label} : l ∈ labelsOf body ↔ .label l ∈ body := by
  simp only [labelsOf, List.mem_filterMap]
  constructor
  · rintro ⟨i, hi, hl⟩
    cases i <;> cases hl
    exact hi
  · exact fun h => ⟨_, h, rfl⟩

/-- What lowered and optimized code promises to the machine. -/
structure WellFormed (m : Module) (f : Function) : Prop where
  labels : (labelsOf f.body).Nodup
  /-- As labels are distinct, a target is defined exactly once. -/
  targets : ∀ i ∈ f.body, ∀ l, i.target? = some l → (labelsOf f.body).count l = 1
  dsts : ∀ i ∈ f.body, ∀ t, i.dst? = some t → t < f.temps
  operands : ∀ i ∈ f.body, ∀ t, .temp t ∈ i.operands → t < f.temps
  written : ∀ pc ts i t, Path f.body pc ts → f.body[pc]? = some i → .temp t ∈ i.operands → t ∈ ts
  globals : ∀ dst name, .addressOf dst name ∈ f.body → name ∈ m.globals.map (·.name)
  data : ∀ i ∈ f.body, ∀ l, .data l ∈ i.operands → l ∈ m.data.map (·.label)
  params : ∀ dst k, .param dst k ∈ f.body → k < f.params.length

/-! What an instruction may name. -/

/-- What the code of a function may name besides its locals. -/
structure Names where
  globals : String → Prop
  /-- A call of that name with so many arguments. -/
  fits : String → Nat → Prop
  /-- The number of parameters. -/
  arity : Nat

/-- Lowered code has no comments. -/
def permits (N : Names) : Inst → Prop
  | .addressOf _ name => N.globals name
  | .call _ name args => N.fits name args.length
  | .param _ k => k < N.arity
  | .comment _ => False
  | _ => True

/-- An instruction of a function with so many temporaries, in a module with that string data. -/
structure Fine (N : Names) (temps : Nat) (data : List Label) (i : Inst) : Prop where
  dst : ∀ t, i.dst? = some t → t < temps
  temps : ∀ t, .temp t ∈ i.operands → t < temps
  data : ∀ l, .data l ∈ i.operands → l ∈ data
  names : permits N i

theorem Fine.mono {N : Names} {n m : Nat} {data data' : List Label} {i : Inst}
    (h : Fine N n data i) (hnm : n ≤ m) (hdata : data ⊆ data') : Fine N m data' i where
  dst t ht := Nat.lt_of_lt_of_le (h.dst t ht) hnm
  temps t ht := Nat.lt_of_lt_of_le (h.temps t ht) hnm
  data l hl := hdata (h.data l hl)
  names := h.names

/-! Summaries of what is available. -/

/-- For each label, temporaries that are written on every path to it. -/
abbrev Summary := Label → Set Temp

/-- What is available after an instruction; nothing is asked of what control does not reach. -/
def after (S : Summary) (A : Set Temp) : Inst → Set Temp
  | .label l => S l
  | .jump _ | .ret _ => Set.univ
  | i => {t | i.dst? = some t} ∪ A

/-- An instruction reads what is available, and keeps what the summary says of labels. -/
structure Allows (S : Summary) (A : Set Temp) (i : Inst) : Prop where
  reads : ∀ t, .temp t ∈ i.operands → t ∈ A
  target : ∀ l, i.target? = some l → S l ⊆ A
  label : ∀ l, i.label? = some l → S l ⊆ A

def Flows (S : Summary) : Set Temp → List Inst → Prop
  | _, [] => True
  | A, i :: is => Allows S A i ∧ Flows S (after S A i) is

/-- What is available after all of some code. -/
def afterAll (S : Summary) (A : Set Temp) (body : List Inst) : Set Temp := body.foldl (after S) A

/-- What is seen of a body from its top to its bottom. -/
structure Orderly (N : Names) (temps : Nat) (data : List Label) (S : Summary) (body : List Inst) :
    Prop where
  labels : (labelsOf body).Nodup
  targets : ∀ i ∈ body, ∀ l, i.target? = some l → l ∈ labelsOf body
  flows : Flows S ∅ body
  fine : ∀ i ∈ body, Fine N temps data i

section Flow

variable {S S' : Summary} {A A' : Set Temp} {body rest : List Inst} {i : Inst}

theorem after_mono (h : A ⊆ A') (i : Inst) : after S A i ⊆ after S A' i := by
  cases i with
  | label l => exact subset_rfl
  | jump l => exact subset_rfl
  | ret v => exact subset_rfl
  | _ => exact Set.union_subset_union_right _ h

theorem Allows.mono (h : Allows S A i) (hA : A ⊆ A') : Allows S A' i where
  reads t ht := hA (h.reads t ht)
  target l hl := (h.target l hl).trans hA
  label l hl := (h.label l hl).trans hA

theorem Flows.mono (h : Flows S A body) (hA : A ⊆ A') : Flows S A' body := by
  induction body generalizing A A' with
  | nil => trivial
  | cons i body ih => exact ⟨h.1.mono hA, ih h.2 (after_mono hA i)⟩

theorem flows_append :
    Flows S A (body ++ rest) ↔ Flows S A body ∧ Flows S (afterAll S A body) rest := by
  induction body generalizing A with
  | nil => exact ⟨fun h => ⟨trivial, h⟩, fun h => h.2⟩
  | cons i body ih =>
    rw [List.cons_append, Flows, Flows, ih, and_assoc]
    rfl

theorem afterAll_append :
    afterAll S A (body ++ rest) = afterAll S (afterAll S A body) rest :=
  List.foldl_append

/-- What the summary says of labels that do not occur makes no difference. -/
theorem after_congr (h : ∀ l, i.label? = some l → S' l = S l) : after S' A i = after S A i := by
  cases i with
  | label l => exact h l rfl
  | _ => rfl

theorem flows_congr (h : ∀ i ∈ body, ∀ l, i.label? = some l ∨ i.target? = some l → S' l = S l)
    (hf : Flows S A body) : Flows S' A body ∧ afterAll S' A body = afterAll S A body := by
  induction body generalizing A with
  | nil => exact ⟨trivial, rfl⟩
  | cons i body ih =>
    have hi := h i (List.mem_cons_self ..)
    have hafter : after S' A i = after S A i := after_congr fun l hl => hi l (.inl hl)
    obtain ⟨hrest, hall⟩ := ih (fun j hj => h j (List.mem_cons_of_mem _ hj)) hf.2
    refine ⟨⟨⟨hf.1.reads, ?_, ?_⟩, ?_⟩, ?_⟩
    · intro l hl
      rw [hi l (.inr hl)]
      exact hf.1.target l hl
    · intro l hl
      rw [hi l (.inl hl)]
      exact hf.1.label l hl
    · rw [hafter]
      exact hrest
    · show afterAll S' (after S' A i) body = afterAll S (after S A i) body
      rw [hafter]
      exact hall

theorem Flows.drop (h : Flows S A body) (n : Nat) : ∃ A', Flows S A' (body.drop n) := by
  induction n generalizing A body with
  | zero => exact ⟨A, h⟩
  | succ n ih =>
    cases body with
    | nil => exact ⟨A, trivial⟩
    | cons i body => exact ih h.2

/-- From a label on, no more than the summary gives is needed. -/
theorem Flows.at_label {q : Nat} {l : Label} (h : Flows S A body)
    (hq : body[q]? = some (.label l)) : Flows S (S l) (body.drop q) := by
  obtain ⟨A', hA'⟩ := h.drop q
  obtain ⟨hlt, hget⟩ := List.getElem?_eq_some_iff.mp hq
  rw [List.drop_eq_getElem_cons hlt, hget] at hA' ⊢
  refine ⟨⟨nofun, nofun, ?_⟩, hA'.2⟩
  rintro l' hl'
  cases hl'
  exact subset_rfl

theorem Flows.step {pc : Nat} (h : Flows S A (body.drop pc)) (hi : body[pc]? = some i) :
    Allows S A i ∧ Flows S (after S A i) (body.drop (pc + 1)) := by
  obtain ⟨hlt, rfl⟩ := List.getElem?_eq_some_iff.mp hi
  rw [List.drop_eq_getElem_cons hlt] at h
  exact h

/-- Going on to the next instruction, no more is available than was or is written. -/
theorem after_subset_of_next (hi : i.endsBlock = false) (h : Allows S A i) :
    after S A i ⊆ {t | i.dst? = some t} ∪ A := by
  cases i with
  | label l => exact (h.label l rfl).trans Set.subset_union_right
  | jump l => cases hi
  | ret v => cases hi
  | _ => exact subset_rfl

/-- The invariant of a path: all that is available was written. -/
theorem Path.flows (h : Flows S ∅ body) {pc : Nat} {ts : List Temp} (hp : Path body pc ts) :
    ∃ A : Set Temp, (∀ t ∈ A, t ∈ ts) ∧ Flows S A (body.drop pc) := by
  induction hp with
  | entry => exact ⟨∅, nofun, h⟩
  | @next pc ts i _ hi hends ih =>
    obtain ⟨A, hA, hflows⟩ := ih
    obtain ⟨hallows, hrest⟩ := hflows.step hi
    refine ⟨after S A i, ?_, hrest⟩
    intro t ht
    rcases after_subset_of_next hends hallows ht with hdst | hold
    · exact List.mem_append_left _ (by rw [hdst]; exact List.mem_singleton.mpr rfl)
    · exact List.mem_append_right _ (hA t hold)
  | @jump pc ts i l q _ hi hl hq ih =>
    obtain ⟨A, hA, hflows⟩ := ih
    obtain ⟨hallows, -⟩ := hflows.step hi
    exact ⟨S l, fun t ht => hA t (hallows.target l hl ht), h.at_label hq⟩

/-- Whatever is read on a path was written on it. -/
theorem Flows.written (h : Flows S ∅ body) {pc : Nat} {ts : List Temp} {t : Temp}
    (hp : Path body pc ts) (hi : body[pc]? = some i) (ht : .temp t ∈ i.operands) : t ∈ ts := by
  obtain ⟨A, hA, hflows⟩ := hp.flows h
  exact hA t ((hflows.step hi).1.reads t ht)

theorem Orderly.wellFormed {N : Names} {m : Module} {f : Function}
    (h : Orderly N f.temps (m.data.map (·.label)) S f.body)
    (hglobals : ∀ name, N.globals name → name ∈ m.globals.map (·.name))
    (harity : N.arity = f.params.length) : WellFormed m f where
  labels := h.labels
  targets i hi l hl := List.count_eq_one_of_mem h.labels (h.targets i hi l hl)
  dsts i hi := (h.fine i hi).dst
  operands i hi := (h.fine i hi).temps
  written _ _ _ _ hp hi ht := h.flows.written hp hi ht
  globals _ name hi := hglobals name (h.fine _ hi).names
  data i hi := (h.fine i hi).data
  params _ _ hi := harity ▸ (h.fine _ hi).names

end Flow

end MiniC.Code
