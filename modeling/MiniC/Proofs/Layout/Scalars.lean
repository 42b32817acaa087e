import Mathlib.Algebra.Group.Nat.Defs
import MiniC.Layout.Access
import MiniC.Layout.Struct
/-!
The scalars of a registry. They are entered first and nothing is ever taken out, so their ids mean
the same in every registry that grows out of an initial one; and reducing a word to the width of a scalar
again changes nothing.
-/
namespace MiniC.Registry

/-- The widths of integers, in bytes. -/
def widths : List Nat := [1, 2, 4, 8]

/-- The types of one registry are still there in another. -/
structure Within (r r' : Registry) : Prop where
  config : r'.config = r.config
  types : r.types.toList <+: r'.types.toList

theorem Within.refl (r : Registry) : Within r r := ⟨rfl, List.prefix_rfl⟩

theorem Within.trans {r r' r'' : Registry} (h : Within r r') (k : Within r' r'') : Within r r'' :=
  ⟨k.config.trans h.config, h.types.trans k.types⟩

theorem within_insert {r r' : Registry} {info : TypeInfo} {id : TypeId}
    (h : r.insert info = .ok (id, r')) : Within r r' := by
  unfold insert at h
  split at h
  · cases h
    exact ⟨rfl, by simp⟩
  · cases h

theorem within_intern {r r' : Registry} {ty : Ty} {id : TypeId}
    (h : r.intern ty = .ok (id, r')) : Within r r' := by
  unfold intern at h
  split at h
  · cases h
    exact Within.refl r
  · split at h
    · cases h
    · split at h
      · cases h
      · exact within_insert h

theorem within_addStruct {r r' : Registry} {s : StructType} {id : TypeId}
    (h : r.addStruct s = .ok (id, r')) : Within r r' := by
  unfold addStruct at h
  split at h
  · cases h
  · obtain ⟨hconfig, htypes⟩ := within_insert h
    exact ⟨hconfig, htypes⟩

theorem within_placeAll (r : Registry) (d : StructDraft) (ms : List MemberDecl) :
    Within r (r.placeAll d ms).2 := by
  induction ms generalizing r d with
  | nil => exact Within.refl r
  | cons m ms ih =>
    have hname : Within r (r.noteName m.name) := ⟨rfl, List.prefix_rfl⟩
    unfold placeAll
    dsimp only
    split
    · exact hname
    · exact hname.trans (ih _ _)

theorem within_finishStruct (r : Registry) (d : StructDraft) (name : Option String) :
    Within r (r.finishStruct d name).2 := by
  unfold finishStruct
  split
  · exact Within.refl r
  · split
    · exact Within.refl r
    · rename_i h
      exact within_addStruct h

theorem within_buildStruct (r : Registry) (name : Option String) (ms : List MemberDecl) :
    Within r (r.buildStruct name ms).2 := by
  have hplaced := within_placeAll r StructDraft.empty ms
  unfold buildStruct
  split
  · rename_i h
    rwa [h] at hplaced
  · rename_i h
    rw [h] at hplaced
    exact hplaced.trans (within_finishStruct _ _ name)

/-- The scalars lie where they were entered. -/
def HasScalars (r : Registry) : Prop := Within (initial r.config) r

theorem hasScalars_initial (config : Layout.Config) : (initial config).HasScalars :=
  Within.refl _

theorem HasScalars.within {r r' : Registry} (h : r.HasScalars) (k : Within r r') :
    r'.HasScalars := by
  have hstart := Within.trans h k
  rwa [← k.config] at hstart

variable {r : Registry} {bytes : Nat} {signed : Bool}

theorem HasScalars.info_scalar (h : r.HasScalars) {i : Nat} {ty : Ty} (hat : scalars[i]? = some ty) :
    r.info ⟨i⟩ = scalarInfo r.config.model ty := by
  replace hat : (scalars.map (scalarInfo r.config.model))[i]? =
      some (scalarInfo r.config.model ty) := by
    rw [List.getElem?_map, hat]
    rfl
  obtain ⟨rest, hrest⟩ := h.types
  have hat' : r.types.toList[i]? = some (scalarInfo r.config.model ty) := by
    rw [← hrest]
    simp only [initial, List.getElem?_append]
    split
    · exact hat
    · rename_i hlt
      rw [List.getElem?_eq_none (Nat.le_of_not_lt hlt)] at hat
      cases hat
  rw [Array.getElem?_toList] at hat'
  simp only [info, Array.getD_eq_getD_getElem?, hat', Option.getD_some]

theorem HasScalars.ty_void (h : r.HasScalars) : r.ty void = .void := by
  have hinfo : r.info void = scalarInfo r.config.model .void := h.info_scalar rfl
  rw [ty, hinfo]
  rfl

theorem HasScalars.info_int (h : r.HasScalars) (hb : bytes ∈ widths) :
    r.info (int bytes signed) = scalarInfo r.config.model (.int bytes signed) := by
  refine h.info_scalar (i := (int bytes signed).index) ?_
  simp only [widths, List.mem_cons, List.not_mem_nil, or_false] at hb
  rcases hb with rfl | rfl | rfl | rfl <;> cases signed <;> rfl

theorem HasScalars.ty_int (h : r.HasScalars) (hb : bytes ∈ widths) :
    r.ty (int bytes signed) = .int bytes signed := by
  simp only [ty, h.info_int hb, scalarInfo]

theorem HasScalars.sizeOf_int (h : r.HasScalars) (hb : bytes ∈ widths) :
    r.sizeOf (int bytes signed) = bytes := by
  simp only [sizeOf, h.info_int hb, scalarInfo]

theorem HasScalars.access_int (h : r.HasScalars) (hb : bytes ∈ widths) :
    r.access? (int bytes signed) = some ⟨bytes, signed⟩ := by
  simp only [access?, h.ty_int hb]

theorem HasScalars.element_int (h : r.HasScalars) (hb : bytes ∈ widths) :
    r.element? (int bytes signed) = none := by
  simp only [element?, h.ty_int hb]

end MiniC.Registry

namespace MiniC.Access

variable {a : Access}

/-- A word whose number the width can hold is not changed. -/
theorem truncate_of_bounds {v : Int64}
    (hsigned : a.signed = true → -(Bytes.range a.size : Int) ≤ 2 * v.toInt ∧
      2 * v.toInt < Bytes.range a.size)
    (hunsigned : a.signed = false → 0 ≤ v.toInt ∧ v.toInt < Bytes.range a.size) :
    a.truncate v = v := by
  unfold truncate
  split
  · rfl
  · cases hsign : a.signed with
    | true =>
      obtain ⟨hlow, hhigh⟩ := hsigned hsign
      rw [if_pos rfl, Int.bmod_eq_of_le_mul_two (by omega) (by omega), Int64.ofInt_toInt]
    | false =>
      obtain ⟨hlow, hhigh⟩ := hunsigned hsign
      rw [if_neg (by decide), Int.emod_eq_of_lt hlow hhigh, Int64.ofInt_toInt]

theorem range_lt_of_narrow (h : ¬ 8 ≤ a.size) : 0 < Bytes.range a.size ∧ Bytes.range a.size ≤ 2 ^ 56 := by
  have hrange : Bytes.range a.size = 2 ^ (8 * a.size) := by
    rw [Bytes.range, Nat.shiftLeft_eq, Nat.one_mul]
  rw [hrange]
  exact ⟨Nat.two_pow_pos _, Nat.pow_le_pow_right (by decide) (by omega)⟩

theorem truncate_truncate (a : Access) (v : Int64) : a.truncate (a.truncate v) = a.truncate v := by
  by_cases hwide : 8 ≤ a.size
  · rw [truncate, if_pos hwide]
  obtain ⟨hpos, hmax⟩ := range_lt_of_narrow hwide
  have hlow := Int.le_bmod (x := v.toInt) hpos
  have hhigh := Int.bmod_lt (x := v.toInt) hpos
  have hnonneg := Int.emod_nonneg v.toInt (b := (Bytes.range a.size : Nat)) (by omega)
  have hlt := Int.emod_lt_of_pos v.toInt (b := (Bytes.range a.size : Nat)) (by omega)
  refine truncate_of_bounds (fun hsign => ?_) fun hsign => ?_
  · rw [truncate, if_neg hwide, if_pos hsign, Int64.toInt_ofInt_of_le (by omega) (by omega)]
    omega
  · rw [truncate, if_neg hwide, if_neg (by rw [hsign]; decide),
      Int64.toInt_ofInt_of_le (by omega) (by omega)]
    omega

@[simp] theorem truncate_zero (a : Access) : a.truncate 0 = 0 := by
  by_cases hwide : 8 ≤ a.size
  · rw [truncate, if_pos hwide]
  obtain ⟨hpos, -⟩ := range_lt_of_narrow hwide
  have hzero : (0 : Int64).toInt = 0 := Int64.toInt_zero
  exact truncate_of_bounds (fun _ => by omega) fun _ => by omega

end MiniC.Access
