import MiniC.Machine.Image
import MiniC.Proofs.Code.Flow
/-!
What a loaded program holds. Main statements: labels that differ are found where they stand, every
global and datum has an address, and a routine is the last function of its name.
-/
namespace MiniC.Machine

open Code (Inst Label Module labelsOf)

section Maps

variable {α κ ν : Type} [BEq κ] [LawfulBEq κ] [Hashable κ] (key : α → κ) (val : α → ν)

/-- Of several entries under one key the last one stays. -/
theorem getElem?_foldl_insert (xs : List α) (m : Std.HashMap κ ν) (k : κ) :
    (xs.foldl (fun m x => m.insert (key x) (val x)) m)[k]? =
      match xs.reverse.find? (key · == k) with
      | some x => some (val x)
      | none => m[k]? := by
  induction xs generalizing m with
  | nil => rfl
  | cons x xs ih =>
    rw [List.foldl_cons, ih, List.reverse_cons, List.find?_append]
    cases xs.reverse.find? (key · == k) with
    | some y => rfl
    | none =>
      rw [Std.HashMap.getElem?_insert]
      by_cases hx : key x == k <;> simp [hx]

theorem isSome_foldl_insert {xs : List α} (m : Std.HashMap κ ν) {x : α} (hx : x ∈ xs) :
    (xs.foldl (fun m x => m.insert (key x) (val x)) m)[key x]?.isSome := by
  rw [getElem?_foldl_insert]
  cases hfind : xs.reverse.find? (key · == key x) with
  | some y => rfl
  | none =>
    have hne := List.find?_eq_none.mp hfind x (List.mem_reverse.mpr hx)
    simp at hne

end Maps

/-! Labels. -/

def addLabel (labels : Std.HashMap Label Nat) (x : Inst × Nat) : Std.HashMap Label Nat :=
  match x.1.label? with
  | some l => labels.insert l x.2
  | none => labels

theorem getElem?_addLabel_of_ne {labels : Std.HashMap Label Nat} {i : Inst} {n : Nat} {l : Label}
    (h : i.label? ≠ some l) : (addLabel labels (i, n))[l]? = labels[l]? := by
  unfold addLabel
  split
  · rename_i l' hl
    rw [Std.HashMap.getElem?_insert, if_neg]
    rintro heq
    exact h (hl.trans (congrArg some (eq_of_beq heq)))
  · rfl

theorem getElem?_foldl_addLabel_of_notMem {body : List Inst} {labels : Std.HashMap Label Nat}
    {n : Nat} {l : Label} (h : l ∉ labelsOf body) :
    ((body.zipIdx n).foldl addLabel labels)[l]? = labels[l]? := by
  induction body generalizing labels n with
  | nil => rfl
  | cons i body ih =>
    rw [Code.labelsOf_cons, List.mem_append, not_or] at h
    rw [List.zipIdx_cons, List.foldl_cons, ih h.2]
    exact getElem?_addLabel_of_ne fun hl => h.1 (by simp [hl])

theorem getElem?_foldl_addLabel {body : List Inst} {labels : Std.HashMap Label Nat} {n pc : Nat}
    {l : Label} (hnodup : (labelsOf body).Nodup) (hpc : body[pc]? = some (.label l)) :
    ((body.zipIdx n).foldl addLabel labels)[l]? = some (n + pc) := by
  induction body generalizing labels n pc with
  | nil => cases hpc
  | cons i body ih =>
    rw [Code.labelsOf_cons] at hnodup
    rw [List.zipIdx_cons, List.foldl_cons]
    cases pc with
    | zero =>
      cases hpc
      have hnot : l ∉ labelsOf body := fun hmem => (List.nodup_cons.mp hnodup).1 hmem
      rw [getElem?_foldl_addLabel_of_notMem hnot]
      simp [addLabel, Inst.label?]
    | succ pc =>
      rw [ih (List.nodup_append.mp hnodup).2.1 hpc]
      congr 1
      omega

theorem getElem?_labelPositions {body : List Inst} {pc : Nat} {l : Label}
    (hnodup : (labelsOf body).Nodup) (hpc : body[pc]? = some (.label l)) :
    (labelPositions body)[l]? = some pc :=
  (getElem?_foldl_addLabel hnodup hpc).trans (congrArg some (Nat.zero_add pc))

theorem isSome_labelPositions {body : List Inst} {l : Label} (hnodup : (labelsOf body).Nodup)
    (hl : l ∈ labelsOf body) : (labelPositions body)[l]?.isSome := by
  obtain ⟨pc, hpc⟩ := List.mem_iff_getElem?.mp (Code.mem_labelsOf.mp hl)
  rw [getElem?_labelPositions hnodup hpc]
  rfl

/-! Placements. -/

theorem names_placeGlobals {limits : Limits} {cursor stop : Nat} {gs : List Code.Global}
    {ps : List Placement} (h : Image.placeGlobals limits cursor gs = .ok (ps, stop)) :
    ps.map (·.name) = gs.map (·.name) := by
  induction gs generalizing cursor ps stop with
  | nil =>
    cases h
    rfl
  | cons g gs ih =>
    rw [Image.placeGlobals] at h
    split at h
    · cases h
    · split at h
      · cases h
      · rename_i hrest
        cases h
        exact congrArg _ (ih hrest)

theorem names_placeData (cursor : Nat) (ds : List Code.Datum) :
    (Image.placeData cursor ds).1.map (·.name) = ds.map (·.label) := by
  induction ds generalizing cursor with
  | nil => rfl
  | cons d ds ih => exact congrArg _ (ih _)

theorem except_bind_eq_ok {ε α β : Type} {x : Except ε α} {k : α → Except ε β} {b : β} :
    x >>= k = .ok b ↔ ∃ a, x = .ok a ∧ k a = .ok b := by
  cases x with
  | error e => exact ⟨nofun, nofun⟩
  | ok a => exact ⟨fun h => ⟨a, rfl, h⟩, fun ⟨_, rfl, h⟩ => h⟩

def routinesOf (functions : List Code.Function) : Std.HashMap String Routine :=
  functions.foldl (fun r f => r.insert f.name (Routine.ofFunction f)) {}

def symbolsOf (placements : List Placement) : Std.HashMap String Int64 :=
  placements.foldl (fun s p => s.insert p.name (Image.address p)) {}

/-- The image, the memory and the stack of a module that is loaded. -/
structure Loads (m : Module) (limits : Limits) (placements : List Placement) (memory : Memory)
    (stack : Nat) : Prop where
  names : placements.map (·.name) = m.globals.map (·.name) ++ m.data.map (·.label)
  load_eq : ∀ functions, load { m with functions } limits =
    .ok ⟨⟨limits, routinesOf functions, symbolsOf placements⟩, ⟨memory, stack, 0, 0⟩⟩

theorem loads_of_load {m : Module} {limits : Limits} {l : Loaded} (h : load m limits = .ok l) :
    ∃ placements memory stack, Loads m limits placements memory stack := by
  unfold load at h
  obtain ⟨⟨globals, cursor⟩, hglobals, h⟩ := except_bind_eq_ok.mp h
  obtain ⟨stack, hstack, h⟩ := except_bind_eq_ok.mp h
  obtain ⟨memory, hfill, h⟩ := except_bind_eq_ok.mp h
  refine ⟨globals ++ (Image.placeData cursor m.data).1, memory, stack, ?_, fun functions => ?_⟩
  · rw [List.map_append, names_placeGlobals hglobals, names_placeData]
  · exact except_bind_eq_ok.mpr ⟨_, hglobals, except_bind_eq_ok.mpr ⟨_, hstack,
      except_bind_eq_ok.mpr ⟨_, hfill, rfl⟩⟩⟩

theorem isSome_symbolsOf {placements : List Placement} {name : String}
    (h : name ∈ placements.map (·.name)) : (symbolsOf placements)[name]?.isSome := by
  obtain ⟨p, hp, rfl⟩ := List.mem_map.mp h
  exact isSome_foldl_insert Placement.name Image.address {} hp

theorem getElem?_routinesOf (functions : List Code.Function) (name : String) :
    (routinesOf functions)[name]? =
      (functions.reverse.find? (·.name == name)).map Routine.ofFunction := by
  unfold routinesOf
  rw [getElem?_foldl_insert Code.Function.name Routine.ofFunction]
  cases functions.reverse.find? (·.name == name) <;> simp

theorem mem_of_getElem?_routinesOf {functions : List Code.Function} {name : String} {r : Routine}
    (h : (routinesOf functions)[name]? = some r) :
    ∃ f ∈ functions, f.name = name ∧ r = Routine.ofFunction f := by
  rw [getElem?_routinesOf] at h
  obtain ⟨f, hfind, rfl⟩ := Option.map_eq_some_iff.mp h
  exact ⟨f, List.mem_reverse.mp (List.mem_of_find?_eq_some hfind),
    by simpa using List.find?_some hfind, rfl⟩

end MiniC.Machine
