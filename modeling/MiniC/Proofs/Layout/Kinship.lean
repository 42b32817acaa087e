import Mathlib.Order.Basic
import MiniC.Layout.Member
import MiniC.Proofs.Layout.Calls
/-!
Two registries that were one once and then grew apart. Types of the two are kin if they are built alike
from the same scalars and from structs that correspond. Main statements: kin types have the same size,
alignment, depth, spelling and members, two types are equal exactly if their kin are, and asking both
registries for kin types, or for structs with kin members, gives kin types or the same refusal.
-/
namespace MiniC.Registry

open Layout (Extent)

/-- The type has this id. -/
def At (r : Registry) (t : TypeId) (ty : Ty) : Prop := t.index < r.types.size ∧ r.ty t = ty

variable {r r' : Registry} {t u : TypeId} {ty ty' : Ty}

theorem At.mono (h : r.At t ty) (hg : Grows r r') : r'.At t ty :=
  ⟨Nat.lt_of_lt_of_le h.1 hg.size_le, (hg.ty_eq h.1).trans h.2⟩

theorem Consistent.eq_iff (hc : r.Consistent) (h : r.At t ty) (k : r.At u ty') :
    t = u ↔ ty = ty' := by
  constructor
  · rintro rfl
    exact h.2.symm.trans k.2
  · intro heq
    exact hc.injective h.1 k.1 (h.2.trans (heq.trans k.2.symm))

theorem Consistent.at_void (hc : r.Consistent) : r.At void .void :=
  ⟨Nat.lt_of_lt_of_le (Nat.zero_lt_succ 8) hc.scalars.size_le, hc.scalars.ty_void⟩

theorem Consistent.at_int (hc : r.Consistent) {bytes : Nat} {signed : Bool} (hb : bytes ∈ widths) :
    r.At (int bytes signed) (.int bytes signed) := by
  refine ⟨Nat.lt_of_lt_of_le (?_ : _ < 9) hc.scalars.size_le, hc.scalars.ty_int hb⟩
  simp only [widths, List.mem_cons, List.not_mem_nil, or_false] at hb
  rcases hb with rfl | rfl | rfl | rfl <;> cases signed <;> decide

theorem Consistent.extentOf_struct (hc : r.Consistent) {s : StructId} (h : r.At t (.struct s)) :
    r.extentOf t = ⟨(r.structType s).size, (r.structType s).align, (r.structType s).depth⟩ := by
  have hentry := hc.entry t h.1
  have hbuilt := hentry.built
  have hcached := hentry.cached
  rw [h.2] at hbuilt hcached
  obtain ⟨-, ds, -, hs⟩ := hbuilt
  rw [hcached, extentWith, hs, map_ty_structOf]
  rfl

/-! Which types are kin. -/

/-- Where the structs of two registries part: up to `shared` they are the same, and those from `left`
and from `right` on correspond one by one. -/
structure Fork where
  shared : Nat
  left : Nat
  right : Nat
  shared_le_left : shared ≤ left
  shared_le_right : shared ≤ right

def Fork.Pairs (F : Fork) (s s' : StructId) : Prop :=
  (s = s' ∧ s.index < F.shared) ∨
    (F.left ≤ s.index ∧ F.right ≤ s'.index ∧ s.index + F.right = s'.index + F.left)

theorem Fork.Pairs.eq_iff {F : Fork} {s s' q q' : StructId} (h : F.Pairs s s') (k : F.Pairs q q') :
    s = q ↔ s' = q' := by
  obtain ⟨s⟩ := s
  obtain ⟨s'⟩ := s'
  obtain ⟨q⟩ := q
  obtain ⟨q'⟩ := q'
  have hleft := F.shared_le_left
  have hright := F.shared_le_right
  simp only [Pairs, StructId.mk.injEq] at h k ⊢
  omega

structure Pair where
  left : Registry
  right : Registry

/-- Both registries have grown. -/
instance : Preorder Pair where
  le p q := Grows p.left q.left ∧ Grows p.right q.right
  le_refl p := ⟨.refl _, .refl _⟩
  le_trans _ _ _ h k := ⟨h.1.trans k.1, h.2.trans k.2⟩

/-- A type of the left registry is built like one of the right registry. -/
inductive Kin (F : Fork) (p : Pair) : TypeId → TypeId → Prop
  | void {t t'} : p.left.At t .void → p.right.At t' .void → Kin F p t t'
  | int {t t' bytes signed} : p.left.At t (.int bytes signed) → p.right.At t' (.int bytes signed) →
      Kin F p t t'
  | pointer {t t' u u'} : p.left.At t (.pointer u) → p.right.At t' (.pointer u') → Kin F p u u' →
      Kin F p t t'
  | array {t t' u u' n} : p.left.At t (.array u n) → p.right.At t' (.array u' n) → Kin F p u u' →
      Kin F p t t'
  | struct {t t' s s'} : p.left.At t (.struct s) → p.right.At t' (.struct s') → F.Pairs s s' →
      Kin F p t t'

structure KinMember (F : Fork) (p : Pair) (m m' : Member) : Prop where
  name : m.name = m'.name
  ty : Kin F p m.ty m'.ty
  offset : m.offset = m'.offset
  span : m.span = m'.span

structure KinStruct (F : Fork) (p : Pair) (s s' : StructType) : Prop where
  name : s.name = s'.name
  members : List.Forall₂ (KinMember F p) s.members s'.members
  size : s.size = s'.size
  align : s.align = s'.align
  depth : s.depth = s'.depth

/-- Corresponding structs are laid out alike. -/
structure Akin (F : Fork) (p : Pair) : Prop where
  left : p.left.Consistent
  right : p.right.Consistent
  config : p.left.config = p.right.config
  leftmost : F.left ≤ p.left.structs.size
  rightmost : F.right ≤ p.right.structs.size
  together : p.left.structs.size + F.right = p.right.structs.size + F.left
  structs : ∀ s s', F.Pairs s s' → s.index < p.left.structs.size →
    KinStruct F p (p.left.structType s) (p.right.structType s')

variable {F : Fork} {p q : Pair} {t' u' : TypeId}

theorem Kin.mono (h : Kin F p t t') (hle : p ≤ q) : Kin F q t t' := by
  induction h with
  | void h h' => exact .void (h.mono hle.1) (h'.mono hle.2)
  | int h h' => exact .int (h.mono hle.1) (h'.mono hle.2)
  | pointer h h' _ ih => exact .pointer (h.mono hle.1) (h'.mono hle.2) ih
  | array h h' _ ih => exact .array (h.mono hle.1) (h'.mono hle.2) ih
  | struct h h' hs => exact .struct (h.mono hle.1) (h'.mono hle.2) hs

theorem KinMember.mono {m m' : Member} (h : KinMember F p m m') (hle : p ≤ q) : KinMember F q m m' :=
  ⟨h.name, h.ty.mono hle, h.offset, h.span⟩

theorem KinStruct.mono {s s' : StructType} (h : KinStruct F p s s') (hle : p ≤ q) :
    KinStruct F q s s' :=
  ⟨h.name, h.members.imp fun _ _ hm => hm.mono hle, h.size, h.align, h.depth⟩

/-! What kin types have in common. -/

namespace Kin

theorem left_lt (h : Kin F p t t') : t.index < p.left.types.size := by
  cases h with
  | void h _ | int h _ | pointer h _ | array h _ | struct h _ => exact h.1

theorem right_lt (h : Kin F p t t') : t'.index < p.right.types.size := by
  cases h with
  | void _ h' | int _ h' | pointer _ h' | array _ h' | struct _ h' => exact h'.1

theorem isVoid (h : Kin F p t t') : p.left.isVoid t = p.right.isVoid t' := by
  cases h with
  | void h h' | int h h' | pointer h h' | array h h' | struct h h' =>
    rw [Registry.isVoid, Registry.isVoid, h.2, h'.2]

theorem isInteger (h : Kin F p t t') : p.left.isInteger t = p.right.isInteger t' := by
  cases h with
  | void h h' | int h h' | pointer h h' | array h h' | struct h h' =>
    rw [Registry.isInteger, Registry.isInteger, h.2, h'.2]

theorem isPointer (h : Kin F p t t') : p.left.isPointer t = p.right.isPointer t' := by
  cases h with
  | void h h' | int h h' | pointer h h' | array h h' | struct h h' =>
    rw [Registry.isPointer, Registry.isPointer, h.2, h'.2]

theorem isArray (h : Kin F p t t') : p.left.isArray t = p.right.isArray t' := by
  cases h with
  | void h h' | int h h' | pointer h h' | array h h' | struct h h' =>
    rw [Registry.isArray, Registry.isArray, h.2, h'.2]

theorem isStruct (h : Kin F p t t') : p.left.isStruct t = p.right.isStruct t' := by
  cases h with
  | void h h' | int h h' | pointer h h' | array h h' | struct h h' =>
    rw [Registry.isStruct, Registry.isStruct, h.2, h'.2]

theorem isScalar (h : Kin F p t t') : p.left.isScalar t = p.right.isScalar t' := by
  rw [Registry.isScalar, Registry.isScalar, h.isInteger, h.isPointer]

theorem pointee? (h : Kin F p t t') :
    Option.Rel (Kin F p) (p.left.pointee? t) (p.right.pointee? t') := by
  cases h with
  | pointer h h' hu =>
    rw [Registry.pointee?, Registry.pointee?, h.2, h'.2]
    exact .some hu
  | void h h' | int h h' | array h h' | struct h h' =>
    rw [Registry.pointee?, Registry.pointee?, h.2, h'.2]
    exact .none

theorem element? (h : Kin F p t t') :
    Option.Rel (Kin F p) (p.left.element? t) (p.right.element? t') := by
  cases h with
  | pointer h h' hu | array h h' hu =>
    rw [Registry.element?, Registry.element?, h.2, h'.2]
    exact .some hu
  | void h h' | int h h' | struct h h' =>
    rw [Registry.element?, Registry.element?, h.2, h'.2]
    exact .none

/-- Types are equal exactly if their kin are. -/
theorem eq_iff (hA : Akin F p) (h : Kin F p t t') (k : Kin F p u u') : t = u ↔ t' = u' := by
  induction h generalizing u u' with
  | void h h' =>
    cases k with
    | void k k' | int k k' | pointer k k' | array k k' | struct k k' =>
      simp [hA.left.eq_iff h k, hA.right.eq_iff h' k']
  | int h h' =>
    cases k with
    | void k k' | int k k' | pointer k k' | array k k' | struct k k' =>
      simp [hA.left.eq_iff h k, hA.right.eq_iff h' k']
  | pointer h h' _ ih =>
    cases k with
    | pointer k k' hu =>
      rw [hA.left.eq_iff h k, hA.right.eq_iff h' k', Ty.pointer.injEq, Ty.pointer.injEq]
      exact ih hu
    | void k k' | int k k' | array k k' | struct k k' =>
      simp [hA.left.eq_iff h k, hA.right.eq_iff h' k']
  | array h h' _ ih =>
    cases k with
    | array k k' hu =>
      rw [hA.left.eq_iff h k, hA.right.eq_iff h' k', Ty.array.injEq, Ty.array.injEq, ih hu]
    | void k k' | int k k' | pointer k k' | struct k k' =>
      simp [hA.left.eq_iff h k, hA.right.eq_iff h' k']
  | struct h h' hs =>
    cases k with
    | struct k k' hq =>
      rw [hA.left.eq_iff h k, hA.right.eq_iff h' k', Ty.struct.injEq, Ty.struct.injEq]
      exact hs.eq_iff hq
    | void k k' | int k k' | pointer k k' | array k k' =>
      simp [hA.left.eq_iff h k, hA.right.eq_iff h' k']

theorem extentOf (hA : Akin F p) (h : Kin F p t t') : p.left.extentOf t = p.right.extentOf t' := by
  have hcached {r : Registry} {t : TypeId} {ty : Ty} (hc : r.Consistent) (h : r.At t ty) :
      r.extentOf t = r.extentWith r.extentOf ty := by
    rw [(hc.entry t h.1).cached, h.2]
  induction h with
  | void h h' => rw [hcached hA.left h, hcached hA.right h', extentWith, extentWith]
  | int h h' => rw [hcached hA.left h, hcached hA.right h', extentWith, extentWith, hA.config]
  | pointer h h' _ ih =>
    rw [hcached hA.left h, hcached hA.right h', extentWith, extentWith, hA.config, ih]
  | array h h' _ ih => rw [hcached hA.left h, hcached hA.right h', extentWith, extentWith, ih]
  | struct h h' hs =>
    have hlt := ((hA.left.entry _ h.1).built : p.left.Built _)
    rw [h.2] at hlt
    have hstruct := hA.structs _ _ hs hlt.1
    rw [hA.left.extentOf_struct h, hA.right.extentOf_struct h', hstruct.size, hstruct.align,
      hstruct.depth]

theorem sizeOf (hA : Akin F p) (h : Kin F p t t') : p.left.sizeOf t = p.right.sizeOf t' :=
  congrArg Extent.size (h.extentOf hA)

theorem alignOf (hA : Akin F p) (h : Kin F p t t') : p.left.alignOf t = p.right.alignOf t' :=
  congrArg Extent.align (h.extentOf hA)

theorem depthOf (hA : Akin F p) (h : Kin F p t t') : p.left.depthOf t = p.right.depthOf t' :=
  congrArg Extent.depth (h.extentOf hA)

/-- Both are structs that correspond, or neither is a struct. -/
theorem asStruct? (hA : Akin F p) (h : Kin F p t t') :
    Option.Rel (KinStruct F p) (p.left.asStruct? t) (p.right.asStruct? t') := by
  cases h with
  | struct h h' hs =>
    have hlt := ((hA.left.entry _ h.1).built : p.left.Built _)
    rw [h.2] at hlt
    rw [Registry.asStruct?, Registry.asStruct?, h.2, h'.2]
    exact .some (hA.structs _ _ hs hlt.1)
  | void h h' | int h h' | pointer h h' | array h h' =>
    rw [Registry.asStruct?, Registry.asStruct?, h.2, h'.2]
    exact .none

theorem display (hA : Akin F p) (h : Kin F p t t') : p.left.display t = p.right.display t' := by
  have holder {r : Registry} {t u : TypeId} {ty : Ty} (hc : r.Consistent) (h : r.At t ty)
      (hu : u ∈ r.refs ty) : u.index < t.index :=
    (hc.entry t h.1).older u (by rwa [h.2])
  induction h with
  | void h h' => rw [Registry.display, Registry.display, h.2, h'.2]
  | int h h' => rw [Registry.display, Registry.display, h.2, h'.2, hA.config]
  | pointer h h' _ ih =>
    rw [Registry.display, Registry.display, h.2, h'.2]
    simp only [holder hA.left h (List.mem_singleton_self _), holder hA.right h' (List.mem_singleton_self _),
      if_true, ih]
  | array h h' _ ih =>
    rw [Registry.display, Registry.display, h.2, h'.2]
    simp only [holder hA.left h (List.mem_singleton_self _), holder hA.right h' (List.mem_singleton_self _),
      if_true, ih]
  | struct h h' hs =>
    have hlt := ((hA.left.entry _ h.1).built : p.left.Built _)
    rw [h.2] at hlt
    rw [Registry.display, Registry.display, h.2, h'.2]
    simp only [(hA.structs _ _ hs hlt.1).name]

end Kin

/-! Types that enter both registries. -/

theorem Akin.grow (hA : Akin F p) (hle : p ≤ q) (hleft : q.left.Consistent) (hright : q.right.Consistent)
    (hstructs : q.left.structs = p.left.structs) (hstructs' : q.right.structs = p.right.structs) :
    Akin F q where
  left := hleft
  right := hright
  config := by rw [hle.1.config, hle.2.config, hA.config]
  leftmost := hstructs ▸ hA.leftmost
  rightmost := hstructs' ▸ hA.rightmost
  together := by rw [hstructs, hstructs']; exact hA.together
  structs s s' hs hlt := by
    have h := (hA.structs s s' hs (hstructs ▸ hlt)).mono hle
    rwa [structType, structType, ← hstructs, ← hstructs'] at h

/-- Pointers to kin types, and arrays of them. -/
inductive KinTy (F : Fork) (p : Pair) : Ty → Ty → Prop
  | pointer {u u' : TypeId} : Kin F p u u' → KinTy F p (.pointer u) (.pointer u')
  | array {u u' : TypeId} (n : Nat) : Kin F p u u' → KinTy F p (.array u n) (.array u' n)

theorem KinTy.mono (h : KinTy F p ty ty') (hle : p ≤ q) : KinTy F q ty ty' := by
  cases h with
  | pointer h => exact .pointer (h.mono hle)
  | array n h => exact .array n (h.mono hle)

/-- Why a type may not enter, however many ids are left. -/
def refusal? (r : Registry) (ty : Ty) : Option LayoutError :=
  match r.measure ty with
  | .error e => some e
  | .ok info => if r.config.maxDepth < info.depth then
      some (.typeTooDeep r.config.maxDepth Span.nowhere) else none

theorem KinTy.refusal?_eq (hA : Akin F p) (h : KinTy F p ty ty') :
    p.left.refusal? ty = p.right.refusal? ty' := by
  cases h with
  | pointer hu => simp only [refusal?, measure, hu.depthOf hA, hA.config]
  | @array u u' n hu =>
    simp only [refusal?, measure, hu.sizeOf hA]
    by_cases hsize : p.right.sizeOf u' * n ≤ Layout.maxObjectSize
    · simp only [if_pos hsize, hu.depthOf hA, hA.config]
    · simp only [if_neg hsize]

theorem KinTy.formed (h : KinTy F p ty ty') : p.left.Formed ty ∧ p.right.Formed ty' := by
  cases h with
  | pointer hu | array n hu => exact ⟨hu.left_lt, hu.right_lt⟩

theorem Consistent.one_le_depthOf (hc : r.Consistent) (ht : t.index < r.types.size) :
    1 ≤ r.depthOf t := by
  have hcached := congrArg Extent.depth (hc.entry t ht).cached
  replace hcached : r.depthOf t = _ := hcached
  rw [hcached]
  cases r.ty t with
  | void | int => exact Nat.le_refl 1
  | pointer | array => exact Nat.le_add_left _ _
  | struct => exact Nat.le_add_right _ _

/-- A type that is there was not refused. -/
theorem Consistent.refusal?_of_at (hc : r.Consistent) (h : r.At t ty) (hty : (∃ u, ty = .pointer u) ∨
    ∃ u n, ty = .array u n) : r.refusal? ty = none := by
  have hentry := hc.entry t h.1
  have hcached := hentry.cached
  have hdepth := hentry.depth
  have holder := hentry.older
  have hsize := hentry.size
  rw [h.2] at hcached holder
  obtain ⟨hs, -, hd⟩ := Extent.mk.inj hcached
  rcases hty with ⟨u, rfl⟩ | ⟨u, n, rfl⟩
  · have hu := hc.one_le_depthOf (Nat.lt_trans (holder u (List.mem_singleton_self _)) h.1)
    replace hd : r.depthOf t = r.depthOf u + 1 := hd
    have hle : ¬ r.config.maxDepth < r.depthOf u + 1 := by omega
    simp only [refusal?, measure, if_neg hle]
  · have hu := hc.one_le_depthOf (Nat.lt_trans (holder u (List.mem_singleton_self _)) h.1)
    replace hd : r.depthOf t = r.depthOf u + 1 := hd
    replace hs : r.sizeOf t = r.sizeOf u * n := hs
    have hle : ¬ r.config.maxDepth < r.depthOf u + 1 := by omega
    simp only [refusal?, measure, if_pos (hs ▸ hsize), if_neg hle]

theorem Consistent.intern_refused {e : LayoutError} (hc : r.Consistent)
    (hty : (∃ u, ty = .pointer u) ∨ ∃ u n, ty = .array u n) (h : r.refusal? ty = some e) :
    r.intern ty = .error e := by
  unfold Registry.intern
  split
  · rename_i t ht
    have hnone := hc.refusal?_of_at ((hc.lookup ty t).mp ht) hty
    rw [h] at hnone
    cases hnone
  · unfold refusal? at h
    split at h
    · rename_i hmeasure
      simp only [hmeasure, Option.some.inj h]
    · rename_i info hmeasure
      simp only [hmeasure, checkDepth]
      split at h
      · rename_i hdeep
        rw [if_pos hdeep]
        simp only [Option.some.inj h]
      · cases h

theorem Consistent.intern_entered (hc : r.Consistent) (hformed : r.Formed ty)
    (hroom : r.types.size < capacity) (h : r.refusal? ty = none) :
    ∃ t q, r.intern ty = .ok (t, q) ∧ q.Consistent ∧ Grows r q ∧ q.structs = r.structs ∧
      q.At t ty := by
  obtain ⟨⟨t, q⟩, hq⟩ : ∃ y, r.intern ty = .ok y := by
    unfold Registry.intern
    split
    · exact ⟨_, rfl⟩
    · unfold refusal? at h
      split at h
      · cases h
      · rename_i info hmeasure
        split at h
        · cases h
        · rename_i hdepth
          simp only [hmeasure, checkDepth, if_neg hdepth, insert, if_pos hroom]
          exact ⟨_, rfl⟩
  obtain ⟨hconsistent, hgrows, hfound⟩ := hc.intern hformed hq
  refine ⟨t, q, hq, hconsistent, hgrows, ?_, (hconsistent.lookup ty t).mp hfound⟩
  rcases intern_cases hq with ⟨-, rfl⟩ | ⟨-, info, -, -, -, rfl⟩ <;> rfl

/-- Both registries enter kin types, or refuse them alike. -/
theorem Akin.intern (hA : Akin F p) (h : KinTy F p ty ty') (hroom : p.left.types.size < capacity)
    (hroom' : p.right.types.size < capacity) :
    (∃ e, p.left.intern ty = .error e ∧ p.right.intern ty' = .error e) ∨
      ∃ q t t', p.left.intern ty = .ok (t, q.left) ∧ p.right.intern ty' = .ok (t', q.right) ∧ p ≤ q ∧
        Akin F q ∧ Kin F q t t' := by
  have hshape : ((∃ u, ty = .pointer u) ∨ ∃ u n, ty = .array u n) ∧
      ((∃ u, ty' = .pointer u) ∨ ∃ u n, ty' = .array u n) := by
    cases h with
    | pointer => exact ⟨.inl ⟨_, rfl⟩, .inl ⟨_, rfl⟩⟩
    | array => exact ⟨.inr ⟨_, _, rfl⟩, .inr ⟨_, _, rfl⟩⟩
  cases hrefusal : p.left.refusal? ty with
  | some e =>
    have hrefusal' : p.right.refusal? ty' = some e := h.refusal?_eq hA ▸ hrefusal
    exact .inl ⟨e, hA.left.intern_refused hshape.1 hrefusal, hA.right.intern_refused hshape.2 hrefusal'⟩
  | none =>
    have hrefusal' : p.right.refusal? ty' = none := h.refusal?_eq hA ▸ hrefusal
    obtain ⟨t, q, hq, hc, hg, hstructs, ht⟩ := hA.left.intern_entered h.formed.1 hroom hrefusal
    obtain ⟨t', q', hq', hc', hg', hstructs', ht'⟩ := hA.right.intern_entered h.formed.2 hroom' hrefusal'
    have hle : p ≤ ⟨q, q'⟩ := ⟨hg, hg'⟩
    refine .inr ⟨⟨q, q'⟩, t, t', hq, hq', hle, hA.grow hle hc hc' hstructs hstructs', ?_⟩
    cases h with
    | pointer hu => exact .pointer ht ht' (hu.mono hle)
    | array n hu => exact .array ht ht' (hu.mono hle)

/-! Structs that enter both registries. -/

structure KinDecl (F : Fork) (p : Pair) (d d' : MemberDecl) : Prop where
  name : d.name = d'.name
  ty : Kin F p d.ty d'.ty
  span : d.span = d'.span

theorem KinDecl.mono {d d' : MemberDecl} (h : KinDecl F p d d') (hle : p ≤ q) : KinDecl F q d d' :=
  ⟨h.name, h.ty.mono hle, h.span⟩

structure KinDraft (F : Fork) (p : Pair) (d d' : StructDraft) : Prop where
  members : List.Forall₂ (KinMember F p) d.members d'.members
  cursor : d.cursor = d'.cursor
  align : d.align = d'.align
  depth : d.depth = d'.depth

theorem KinDraft.mono {d d' : StructDraft} (h : KinDraft F p d d') (hle : p ≤ q) : KinDraft F q d d' :=
  ⟨h.members.imp fun _ _ hm => hm.mono hle, h.cursor, h.align, h.depth⟩

theorem rel_find? {α β : Type} {R : α → β → Prop} {f : α → Bool} {g : β → Bool} {xs : List α}
    {ys : List β} (h : List.Forall₂ R xs ys) (hfg : ∀ x y, R x y → f x = g y) :
    Option.Rel R (xs.find? f) (ys.find? g) := by
  induction h with
  | nil => exact .none
  | @cons x y xs ys hxy _ ih =>
    rw [List.find?_cons, List.find?_cons, hfg x y hxy]
    cases g y with
    | true => exact .some hxy
    | false => exact ih

theorem KinDraft.place (hA : Akin F p) {d d' : StructDraft} {m m' : MemberDecl} (hd : KinDraft F p d d')
    (hm : KinDecl F p m m') :
    (∃ e, d.place p.left m = .error e ∧ d'.place p.right m' = .error e) ∨
      ∃ a a', d.place p.left m = .ok a ∧ d'.place p.right m' = .ok a' ∧ KinDraft F p a a' := by
  have hfind : Option.Rel (KinMember F p) (d.members.find? (·.name == m.name))
      (d'.members.find? (·.name == m'.name)) :=
    rel_find? hd.members fun x y hxy => by rw [hxy.name, hm.name]
  unfold StructDraft.place
  revert hfind
  generalize d.members.find? (·.name == m.name) = x
  generalize d'.members.find? (·.name == m'.name) = x'
  rintro (hprevious | _)
  · exact .inl ⟨_, rfl, by simp only [hm.name, hm.span, hprevious.span]⟩
  · simp only [hd.cursor, hm.ty.sizeOf hA, hm.ty.alignOf hA]
    cases StructDraft.fit d'.cursor (p.right.sizeOf m'.ty) (p.right.alignOf m'.ty) with
    | none => exact .inl ⟨_, rfl, by rw [hm.span]⟩
    | some fitted =>
      refine .inr ⟨_, _, rfl, rfl, ?_, rfl, by rw [hd.align], by rw [hd.depth, hm.ty.depthOf hA]⟩
      exact List.rel_append hd.members (.cons ⟨hm.name, hm.ty, rfl, hm.span⟩ .nil)

theorem Akin.noteName (hA : Akin F p) (n n' : String) :
    p ≤ ⟨p.left.noteName n, p.right.noteName n'⟩ ∧ Akin F ⟨p.left.noteName n, p.right.noteName n'⟩ := by
  have hle : p ≤ ⟨p.left.noteName n, p.right.noteName n'⟩ := ⟨grows_names _ _, grows_names _ _⟩
  exact ⟨hle, hA.grow hle (hA.left.names _) (hA.right.names _) rfl rfl⟩

theorem Akin.placeAll (hA : Akin F p) {d d' : StructDraft} {ms ms' : List MemberDecl}
    (hd : KinDraft F p d d') (hms : List.Forall₂ (KinDecl F p) ms ms') :
    ∃ q, p ≤ q ∧ Akin F q ∧ q.left.types = p.left.types ∧ q.right.types = p.right.types ∧
      ((∃ e, p.left.placeAll d ms = (.error e, q.left) ∧ p.right.placeAll d' ms' = (.error e, q.right)) ∨
        ∃ a a', p.left.placeAll d ms = (.ok a, q.left) ∧ p.right.placeAll d' ms' = (.ok a', q.right) ∧
          KinDraft F q a a') := by
  induction ms generalizing p d d' ms' with
  | nil =>
    cases hms
    exact ⟨p, le_rfl, hA, rfl, rfl, .inr ⟨d, d', rfl, rfl, hd⟩⟩
  | cons m ms ih =>
    obtain ⟨m', ms', hm, hrest, rfl⟩ := List.forall₂_cons_left_iff.mp hms
    obtain ⟨hle, hnoted⟩ := hA.noteName m.name m'.name
    rw [Registry.placeAll, Registry.placeAll]
    rcases (hd.mono hle).place hnoted (hm.mono hle) with ⟨e, he, he'⟩ | ⟨a, a', ha, ha', hkin⟩
    · exact ⟨_, hle, hnoted, rfl, rfl, .inl ⟨e, by simp only [he], by simp only [he']⟩⟩
    · simp only [ha, ha']
      obtain ⟨q, hq, hakin, htypes, htypes', hresult⟩ :=
        ih hnoted hkin (hrest.imp fun _ _ h => h.mono hle)
      exact ⟨q, hle.trans hq, hakin, htypes, htypes', hresult⟩

theorem KinDraft.finish {d d' : StructDraft} (hd : KinDraft F p d d') (name : Option String) :
    (∃ e, d.finish name = .error e ∧ d'.finish name = .error e) ∨
      ∃ s s', d.finish name = .ok s ∧ d'.finish name = .ok s' ∧ KinStruct F p s s' := by
  unfold StructDraft.finish
  rw [hd.cursor, hd.align]
  cases StructDraft.fit d'.cursor 0 d'.align with
  | none => exact .inl ⟨_, rfl, rfl⟩
  | some fitted => exact .inr ⟨_, _, rfl, rfl, rfl, hd.members, rfl, rfl, hd.depth⟩

/-- One more struct in both registries, with kin members. -/
theorem Akin.withStruct (hA : Akin F p) {s s' : StructType} (hs : KinStruct F p s s')
    (hle : p ≤ q) (hleft : q.left.Consistent) (hright : q.right.Consistent)
    (hstructs : q.left.structs = p.left.structs.push s)
    (hstructs' : q.right.structs = p.right.structs.push s') : Akin F q where
  left := hleft
  right := hright
  config := by rw [hle.1.config, hle.2.config, hA.config]
  leftmost := Nat.le_trans hA.leftmost hle.1.structs_size_le
  rightmost := Nat.le_trans hA.rightmost hle.2.structs_size_le
  together := by
    have h := hA.together
    rw [hstructs, hstructs', Array.size_push, Array.size_push]
    omega
  structs i i' hi hlt := by
    obtain ⟨i⟩ := i
    obtain ⟨i'⟩ := i'
    have hsizes := hA.together
    have hl := hA.leftmost
    have hr := hA.rightmost
    have hsl := F.shared_le_left
    have hsr := F.shared_le_right
    rw [hstructs, Array.size_push] at hlt
    have hpairs := hi
    simp only [Fork.Pairs, StructId.mk.injEq] at hpairs
    by_cases hold : i < p.left.structs.size
    · have hold' : i' < p.right.structs.size := by omega
      rw [hle.1.structType_eq hold, hle.2.structType_eq hold']
      exact (hA.structs _ _ hi hold).mono hle
    · obtain rfl : i = p.left.structs.size := by simp only at hlt; omega
      obtain rfl : i' = p.right.structs.size := by omega
      have hnew : q.left.structType ⟨p.left.structs.size⟩ = s := by
        simp [structType, hstructs, Array.getD_eq_getD_getElem?]
      have hnew' : q.right.structType ⟨p.right.structs.size⟩ = s' := by
        simp [structType, hstructs', Array.getD_eq_getD_getElem?]
      rw [hnew, hnew']
      exact hs.mono hle

/-- Both registries build structs with kin members, or refuse them alike. -/
theorem Akin.buildStruct (hA : Akin F p) {ds ds' : List MemberDecl}
    (hds : List.Forall₂ (KinDecl F p) ds ds') (name : Option String)
    (hroom : p.left.types.size < capacity) (hroom' : p.right.types.size < capacity) :
    ∃ q, p ≤ q ∧ Akin F q ∧
      ((∃ e, p.left.buildStruct name ds = (.error e, q.left) ∧
          p.right.buildStruct name ds' = (.error e, q.right)) ∨
        ∃ t t', p.left.buildStruct name ds = (.ok t, q.left) ∧
          p.right.buildStruct name ds' = (.ok t', q.right) ∧ Kin F q t t') := by
  have hholds : p.left.Holds ds ∧ p.right.Holds ds' := by
    clear hroom hroom'
    induction hds with
    | nil => exact ⟨nofun, nofun⟩
    | cons hd _ ih =>
      exact ⟨List.forall_mem_cons.mpr ⟨hd.ty.left_lt, ih.1⟩,
        List.forall_mem_cons.mpr ⟨hd.ty.right_lt, ih.2⟩⟩
  have hkept := hA.left.kept_buildStruct hholds.1 name
  have hkept' := hA.right.kept_buildStruct hholds.2 name
  have hempty : KinDraft F p StructDraft.empty StructDraft.empty := ⟨.nil, rfl, rfl, rfl⟩
  obtain ⟨q, hq, hakin, htypes, htypes', hplaced⟩ := hA.placeAll hempty hds
  rcases hplaced with ⟨e, he, he'⟩ | ⟨a, a', ha, ha', hdraft⟩
  · exact ⟨q, hq, hakin, .inl ⟨e, by simp only [Registry.buildStruct, he],
      by simp only [Registry.buildStruct, he']⟩⟩
  have hbuild : p.left.buildStruct name ds = q.left.finishStruct a name := by
    simp only [Registry.buildStruct, ha]
  have hbuild' : p.right.buildStruct name ds' = q.right.finishStruct a' name := by
    simp only [Registry.buildStruct, ha']
  rw [hbuild] at hkept ⊢
  rw [hbuild'] at hkept' ⊢
  unfold finishStruct at hkept hkept' ⊢
  rcases hdraft.finish name with ⟨e, he, he'⟩ | ⟨s, s', hs, hs', hstruct⟩
  · simp only [he, he']
    exact ⟨q, hq, hakin, .inl ⟨e, rfl, rfl⟩⟩
  simp only [hs, hs'] at hkept hkept' ⊢
  by_cases hdepth : s.depth ≤ q.left.config.maxDepth
  · have hdepth' : s'.depth ≤ q.right.config.maxDepth := by rwa [← hakin.config, ← hstruct.depth]
    rw [addStruct_eq s hdepth (htypes ▸ hroom)] at hkept ⊢
    rw [addStruct_eq s' hdepth' (htypes' ▸ hroom')] at hkept' ⊢
    have hle : q ≤ ⟨q.left.withStruct s, q.right.withStruct s'⟩ :=
      ⟨grows_withStruct _ _, grows_withStruct _ _⟩
    have hnew := hakin.withStruct hstruct hle hkept.consistent hkept'.consistent rfl rfl
    refine ⟨⟨q.left.withStruct s, q.right.withStruct s'⟩, hq.trans hle, hnew, .inr ⟨_, _, rfl, rfl, ?_⟩⟩
    have hat {r : Registry} {s : StructType} :
        (r.withStruct s).At ⟨r.types.size⟩ (.struct ⟨r.structs.size⟩) :=
      ⟨by simp [Registry.withStruct], by rw [ty, info_withStruct]⟩
    exact .struct hat hat (.inr ⟨hakin.leftmost, hakin.rightmost, hakin.together⟩)
  · have hdeep := Nat.lt_of_not_le hdepth
    have hdeep' : q.right.config.maxDepth < s'.depth := by rwa [← hakin.config, ← hstruct.depth]
    rw [addStruct_tooDeep s hdeep, addStruct_tooDeep s' hdeep', hakin.config]
    exact ⟨q, hq, hakin, .inl ⟨_, rfl, rfl⟩⟩

end MiniC.Registry
