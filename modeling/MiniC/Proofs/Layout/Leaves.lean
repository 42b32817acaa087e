import MiniC.Layout.Member
import MiniC.Proofs.Layout.Calls
/-!
Objects and the scalars of which they consist. In a registry every element of an array and every member
of a struct is an object, hence not void. Main statements: types entered from such elements and members
keep the registry so; and elements, members and scalars lie inside the object that they are part of.
-/
namespace MiniC.Registry

section Objects

/-- An element or a member is never void. -/
structure Solid (r : Registry) : Prop where
  elements : ∀ t element length, r.ty t = .array element length → r.isVoid element = false
  members : ∀ s : StructId, s.index < r.structs.size → ∀ m ∈ (r.structType s).members,
    r.isVoid m.ty = false

variable {r r' : Registry} {id : TypeId}

theorem ty_of_not_lt (h : ¬ id.index < r.types.size) : r.ty id = .void := by
  simp only [ty, info, Array.getD_eq_getD_getElem?, Array.getElem?_eq_none (Nat.le_of_not_lt h),
    Option.getD_none]
  rfl

theorem Within.isVoid_eq (h : Within r r') (hid : id.index < r.types.size) :
    r'.isVoid id = r.isVoid id := by
  simp only [isVoid, h.ty_eq hid]

theorem solid_initial (config : Layout.Config) : (initial config).Solid where
  elements t element length hty := by
    by_cases ht : t.index < (initial config).types.size
    · obtain ⟨ty, hscalar, hinfo⟩ := info_initial ht
      rw [Registry.ty, hinfo, ty_scalarInfo] at hty
      subst hty
      have hmem := List.mem_of_getElem? hscalar
      simp [scalars] at hmem
    · rw [ty_of_not_lt ht] at hty
      cases hty
  members s hs := absurd hs (Nat.not_lt_zero _)

/-- Only what is new can fail to be solid. -/
theorem Solid.grows (h : r.Solid) (hc : r.Consistent) (hg : Grows r r')
    (helements : ∀ t element length, ¬ t.index < r.types.size →
      r'.ty t = .array element length → r'.isVoid element = false)
    (hmembers : ∀ s : StructId, ¬ s.index < r.structs.size → s.index < r'.structs.size →
      ∀ m ∈ (r'.structType s).members, r'.isVoid m.ty = false) : r'.Solid where
  elements t element length hty := by
    by_cases ht : t.index < r.types.size
    · rw [hg.ty_eq ht] at hty
      have holder := (hc.entry t ht).older element (by simp [hty, refs])
      rw [hg.isVoid_eq (Nat.lt_trans holder ht)]
      exact h.elements t element length hty
    · exact helements t element length ht hty
  members s hs m hm := by
    by_cases hold : s.index < r.structs.size
    · rw [hg.structType_eq hold] at hm
      obtain ⟨id, hid⟩ := hc.structs s hold
      obtain ⟨hlt, hty⟩ := (hc.lookup _ id).mp hid
      have holder := (hc.entry id hlt).older m.ty (by
        rw [hty]
        exact List.mem_map_of_mem hm)
      rw [hg.isVoid_eq (Nat.lt_trans holder hlt)]
      exact h.members s hold m hm
    · exact hmembers s hold hs m hm

theorem Solid.intern {ty : Ty} (h : r.Solid) (hc : r.Consistent) (hformed : r.Formed ty)
    (helement : ∀ element length, ty = .array element length → r.isVoid element = false)
    (hok : r.intern ty = .ok (id, r')) : r'.Solid := by
  obtain ⟨-, hg, -⟩ := hc.intern hformed hok
  rcases intern_cases hok with ⟨-, rfl⟩ | ⟨-, info, hinfo, -, rfl, rfl⟩
  · exact h
  · refine h.grows hc hg (fun t element length ht hty => ?_) fun s hs hs' => absurd hs' hs
    by_cases hlast : t.index = r.types.size
    · obtain rfl : t = ⟨r.types.size⟩ := by cases t; exact congrArg _ hlast
      rw [Registry.ty, info_withType, measure_ty hinfo] at hty
      subst hty
      rw [hg.isVoid_eq hformed]
      exact helement element length rfl
    · have hsize : (r.withType info).types.size = r.types.size + 1 := by simp [withType]
      rw [ty_of_not_lt (by omega)] at hty
      cases hty

/-- A struct that is built enters last. -/
theorem Consistent.buildStruct_ok {ds : List MemberDecl} {name : Option String} (hc : r.Consistent)
    (hds : r.Holds ds) (h : r.buildStruct name ds = (.ok id, r')) :
    id = ⟨r.types.size⟩ ∧ ∃ names, r' = { r.withStruct (r.structOf name ds) with names } := by
  by_cases hb : r.Buildable ds
  · by_cases hcapacity : r.types.size < capacity
    · rw [hc.buildStruct_buildable hds name hcapacity hb] at h
      obtain ⟨hid, rfl⟩ := Prod.mk.inj h
      obtain ⟨names, hnames⟩ := noteNames_eq r ds
      refine ⟨(Except.ok.inj hid).symm, names, ?_⟩
      rw [hnames]
      rfl
    · rw [hc.buildStruct_full hds name hcapacity hb] at h
      cases h
  · obtain ⟨e, he⟩ := exists_refused hb
    obtain ⟨noted, hnoted⟩ := hc.buildStruct_refused hds name he
    rw [hnoted] at h
    cases h

theorem Solid.buildStruct {ds : List MemberDecl} {name : Option String} (h : r.Solid)
    (hc : r.Consistent) (hds : r.Holds ds) (hvoid : ∀ d ∈ ds, r.isVoid d.ty = false)
    (hok : r.buildStruct name ds = (.ok id, r')) : r'.Solid ∧ r'.isStruct id = true := by
  have hkept := hc.kept_buildStruct hds name
  rw [hok] at hkept
  obtain ⟨rfl, names, rfl⟩ := hc.buildStruct_ok hds hok
  have hinfo := info_withStruct r (r.structOf name ds)
  constructor
  · refine h.grows hc hkept.grows (fun t element length ht hty => ?_) fun s hs hs' m hm => ?_
    · by_cases hlast : t.index = r.types.size
      · obtain rfl : t = ⟨r.types.size⟩ := by cases t; exact congrArg _ hlast
        replace hty : ((r.withStruct (r.structOf name ds)).info ⟨r.types.size⟩).ty =
          .array element length := hty
        rw [hinfo] at hty
        cases hty
      · have hsize : (r.withStruct (r.structOf name ds)).types.size = r.types.size + 1 := by
          simp [Registry.withStruct]
        replace hty : (r.withStruct (r.structOf name ds)).ty t = .array element length := hty
        rw [ty_of_not_lt (by omega)] at hty
        cases hty
    · have hsize : (r.withStruct (r.structOf name ds)).structs.size = r.structs.size + 1 := by
        simp [Registry.withStruct]
      have hlast : s.index = r.structs.size := by
        replace hs' : s.index < (r.withStruct (r.structOf name ds)).structs.size := hs'
        omega
      obtain rfl : s = ⟨r.structs.size⟩ := by cases s; exact congrArg _ hlast
      replace hm : m ∈ ((r.withStruct (r.structOf name ds)).structType ⟨r.structs.size⟩).members := hm
      rw [structType_withStruct] at hm
      have hty : m.ty ∈ ds.map (·.ty) := by
        rw [← map_ty_structOf r name ds (fun t => t)]
        exact List.mem_map_of_mem hm
      obtain ⟨d, hd, hdty⟩ := List.mem_map.mp hty
      rw [← hdty, hkept.grows.isVoid_eq (hds d hd)]
      exact hvoid d hd
  · have hty : (r.withStruct (r.structOf name ds)).ty ⟨r.types.size⟩ = .struct ⟨r.structs.size⟩ := by
      rw [Registry.ty, hinfo]
    show (r.withStruct (r.structOf name ds)).isStruct ⟨r.types.size⟩ = true
    simp only [isStruct, hty]

end Objects

open Layout (Extent)

variable {r : Registry} {t : TypeId} {a : Access}

/-- The byte is one of a scalar, and no padding. -/
def IsLeaf (r : Registry) (t : TypeId) (o : Nat) : Prop :=
  ∃ m ∈ r.moves t, m.offset ≤ o ∧ o < m.offset + m.access.size

theorem moves_scalar (ha : r.access? t = some a) : r.moves t = [⟨0, a⟩] := by
  unfold access? at ha
  rw [moves]
  cases hty : r.ty t with
  | int | pointer =>
    simp only [hty, Option.some.injEq] at ha
    subst ha
    rfl
  | void | array | struct => simp [hty] at ha

/-! A struct is no scalar. -/

theorem access_eq_none_of_isStruct (h : r.isStruct t = true) : r.access? t = none := by
  unfold isStruct at h
  unfold access?
  cases hty : r.ty t <;> simp [hty] at h ⊢

theorem isStruct_of_ty {ty : Ty} (h : r.ty t = ty) (hty : ∀ s, ty ≠ .struct s) :
    r.isStruct t = false := by
  unfold isStruct
  split
  · rename_i s hs
    exact absurd (h.symm.trans hs) (hty s)
  · rfl

theorem isStruct_of_isVoid (h : r.isVoid t = true) : r.isStruct t = false := by
  unfold isVoid at h
  unfold isStruct
  cases hty : r.ty t <;> simp [hty] at h ⊢

theorem isStruct_of_isScalar (h : r.isScalar t = true) : r.isStruct t = false := by
  unfold isScalar isInteger isPointer at h
  unfold isStruct
  cases hty : r.ty t <;> simp [hty] at h ⊢

theorem isStruct_of_isInteger (h : r.isInteger t = true) : r.isStruct t = false :=
  isStruct_of_isScalar (by simp only [isScalar, h, Bool.true_or])

namespace Consistent

theorem entry_of_ty (h : r.Consistent) (hty : r.ty t ≠ .void) : Entry r t := by
  refine h.entry t ?_
  by_contra hlt
  exact hty (ty_of_not_lt hlt)

/-- A scalar has the size with which it is read and written. -/
theorem access_size (h : r.Consistent) (ha : r.access? t = some a) :
    a.size = r.sizeOf t ∧ a.size ∈ widths := by
  unfold access? at ha
  cases hty : r.ty t with
  | int bytes signed =>
    have hentry := h.entry_of_ty (t := t) (by simp [hty])
    have hcached := hentry.cached
    have hbuilt := hentry.built
    rw [hty] at hcached hbuilt
    simp only [hty, Option.some.injEq] at ha
    subst ha
    exact ⟨(congrArg Extent.size hcached).symm, hbuilt⟩
  | pointer pointee =>
    have hcached := (h.entry_of_ty (t := t) (by simp [hty])).cached
    rw [hty] at hcached
    simp only [hty, Option.some.injEq] at ha
    subst ha
    refine ⟨(congrArg Extent.size hcached).symm, ?_⟩
    dsimp only
    cases r.config.model <;> decide
  | void | array | struct => simp [hty] at ha

theorem access_le (h : r.Consistent) (ha : r.access? t = some a) : a.size ≤ 8 := by
  have hmem := (h.access_size ha).2
  simp only [widths, List.mem_cons, List.not_mem_nil, or_false] at hmem
  omega

theorem size_array {element : TypeId} {length : Nat} (h : r.Consistent)
    (hty : r.ty t = .array element length) :
    r.sizeOf t = r.sizeOf element * length ∧ element.index < t.index := by
  have hentry := h.entry_of_ty (t := t) (by simp [hty])
  have hcached := hentry.cached
  rw [hty] at hcached
  exact ⟨congrArg Extent.size hcached, hentry.older element (by simp [hty, refs])⟩

/-- A struct is laid out as specified, from the members that it was declared with. -/
theorem specified {s : StructId} (h : r.Consistent) (hty : r.ty t = .struct s) :
    ∃ ds stop, r.Placeable ds ∧ Specified r (r.structType s).name ds stop (r.structType s) ∧
      r.sizeOf t = (r.structType s).size ∧ r.alignOf t = (r.structType s).align ∧
      ∀ m ∈ (r.structType s).members, m.ty.index < t.index := by
  have hlt : t.index < r.types.size := by
    by_contra hlt
    rw [ty_of_not_lt hlt] at hty
    cases hty
  have hentry := h.entry t hlt
  have hcached := hentry.cached
  have hbuilt := hentry.built
  have holder := hentry.older
  rw [hty] at hcached hbuilt holder
  obtain ⟨-, ds, hplaceable, heq⟩ := hbuilt
  have hrefs := map_ty_structOf r (r.structType s).name ds fun i => i
  have hextents := map_ty_structOf r (r.structType s).name ds r.extentOf
  rw [← heq] at hrefs hextents
  have hds : r.Holds ds := by
    intro d hd
    refine Nat.lt_trans (holder d.ty ?_) hlt
    rw [refs, hrefs]
    exact List.mem_map_of_mem hd
  have hspecified := h.specified_structOf hds (r.structType s).name
  rw [← heq] at hspecified
  have hextent : r.extentOf t = Extent.ofMembers (r.extents ds) := by
    rw [hcached, extentWith, hextents]
    rfl
  refine ⟨ds, _, hplaceable, hspecified, ?_, ?_,
    fun m hm => holder m.ty (List.mem_map_of_mem hm)⟩
  all_goals rw [heq]
  · exact congrArg Extent.size hextent
  · exact congrArg Extent.align hextent

/-- A member ends before its struct does. -/
theorem member_inside {s : StructId} {m : Member} (h : r.Consistent) (hty : r.ty t = .struct s)
    (hm : m ∈ (r.structType s).members) :
    m.offset + r.sizeOf m.ty ≤ r.sizeOf t ∧ m.ty.index < t.index := by
  obtain ⟨ds, stop, -, hspecified, hsize, -, holder⟩ := h.specified hty
  rw [hsize]
  exact ⟨hspecified.inside m hm, holder m hm⟩

theorem inside_of_member {field : String} {m : MemberRef} (h : r.Consistent)
    (hm : r.member t field = .ok m) :
    r.isStruct t = true ∧ m.offset + r.sizeOf m.ty ≤ r.sizeOf t := by
  unfold member asStruct? at hm
  cases hty : r.ty t with
  | struct s =>
    simp only [hty] at hm
    cases hfind : (r.structType s).members.find? (·.name == field) with
    | none => simp [hfind] at hm
    | some found =>
      simp only [hfind] at hm
      cases hm
      refine ⟨by simp [isStruct, hty], ?_⟩
      exact (h.member_inside hty (List.mem_of_find?_eq_some hfind)).1
  | _ => simp [hty] at hm

/-- A scalar of an object ends before the object does. -/
theorem move_inside (h : r.Consistent) (t : TypeId) {m : ScalarMove} (hm : m ∈ r.moves t) :
    m.offset + m.access.size ≤ r.sizeOf t := by
  rw [moves] at hm
  cases hty : r.ty t with
  | void => simp [hty] at hm
  | int | pointer =>
    simp only [hty, List.mem_singleton] at hm
    subst hm
    rw [Nat.zero_add]
    exact Nat.le_of_eq (h.access_size (t := t) (by simp only [access?, hty])).1
  | array element length =>
    obtain ⟨hsize, hindex⟩ := h.size_array hty
    simp only [hty, if_pos hindex, List.mem_flatMap, List.mem_range, List.mem_map] at hm
    obtain ⟨i, hi, inner, hinner, rfl⟩ := hm
    have hinside := h.move_inside element hinner
    have hspace := Nat.mul_le_mul_right (r.sizeOf element) (Nat.succ_le_of_lt hi)
    rw [Nat.succ_mul] at hspace
    rw [hsize, Nat.mul_comm (r.sizeOf element) length]
    simp only [ScalarMove.shift]
    omega
  | struct s =>
    simp only [hty, List.mem_flatMap] at hm
    obtain ⟨member, hmember, hm⟩ := hm
    obtain ⟨hinside, hindex⟩ := h.member_inside hty hmember
    simp only [if_pos hindex, List.mem_map] at hm
    obtain ⟨inner, hinner, rfl⟩ := hm
    have hle := h.move_inside member.ty hinner
    simp only [ScalarMove.shift]
    omega
termination_by t.index

end Consistent

end MiniC.Registry
