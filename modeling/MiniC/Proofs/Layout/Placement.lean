import Mathlib.Algebra.Group.Nat.Defs
import Mathlib.Data.List.Induction
import Mathlib.Data.List.Nodup
import Mathlib.Order.Bounds.Defs
import MiniC.Layout.DataModel
import MiniC.Layout.Struct
/-!
Placing the members of a struct, in unbounded arithmetic. A list of members is placeable if the names
differ and every member ends within an object. Main statements: for a power of two, the masks of
`alignTo` give the least multiple from an offset on, if that lies within the address space; placing a
placeable list gives its specified draft, and a list that is not placeable has a first member that
offends.
-/
namespace MiniC

namespace Layout

/-! Rounding up to a multiple of an alignment. -/

section Rounding

/-- The least multiple of `align` from `n` on, in unbounded arithmetic. -/
def roundUp (n align : Nat) : Nat := (n + (align - 1)) / align * align

variable {n align : Nat}

theorem dvd_roundUp (n align : Nat) : align ∣ roundUp n align := Nat.dvd_mul_left _ _

theorem le_roundUp (h : 0 < align) : n ≤ roundUp n align := by
  have hlt := Nat.lt_div_mul_add (a := n + (align - 1)) h
  unfold roundUp
  omega

theorem roundUp_lt (h : 0 < align) : roundUp n align < n + align := by
  have hle := Nat.div_mul_le_self (n + (align - 1)) align
  unfold roundUp
  omega

theorem roundUp_le {m : Nat} (h : 0 < align) (hm : n ≤ m) (hdvd : align ∣ m) :
    roundUp n align ≤ m := by
  obtain ⟨k, rfl⟩ := hdvd
  have hlt : (n + (align - 1)) / align < k + 1 := by
    refine (Nat.div_lt_iff_lt_mul h).mpr ?_
    rw [Nat.add_mul, Nat.one_mul, Nat.mul_comm k]
    omega
  calc roundUp n align ≤ k * align := Nat.mul_le_mul_right _ (Nat.le_of_lt_succ hlt)
    _ = align * k := Nat.mul_comm _ _

theorem isLeast_roundUp (h : 0 < align) :
    IsLeast {m | n ≤ m ∧ align ∣ m} (roundUp n align) :=
  ⟨⟨le_roundUp h, dvd_roundUp n align⟩, fun _ hm => roundUp_le h hm.1 hm.2⟩

/-- Masking out the low bits of a number is division by a power of two. -/
theorem alignTo_two_pow (n k : Nat) :
    alignTo n (2 ^ k) =
      if n + (2 ^ k - 1) < addressSpace then some (roundUp n (2 ^ k)) else none := by
  have hmask (top : Nat) : top - (top &&& (2 ^ k - 1)) = top / 2 ^ k * 2 ^ k := by
    have hsplit := Nat.div_add_mod' top (2 ^ k)
    rw [Nat.and_two_pow_sub_one_eq_mod]
    omega
  simp only [alignTo, hmask, roundUp]

/-! Objects. -/

/-- The alignments of types. -/
def alignments : List Nat := [1, 2, 4, 8]

theorem two_pow_of_mem_alignments (h : align ∈ alignments) : ∃ k, align = 2 ^ k := by
  simp only [alignments, List.mem_cons, List.not_mem_nil, or_false] at h
  rcases h with rfl | rfl | rfl | rfl
  · exact ⟨0, rfl⟩
  · exact ⟨1, rfl⟩
  · exact ⟨2, rfl⟩
  · exact ⟨3, rfl⟩

theorem bounds_of_mem_alignments (h : align ∈ alignments) : 0 < align ∧ align ≤ 8 := by
  simp only [alignments, List.mem_cons, List.not_mem_nil, or_false] at h
  omega

theorem addressSpace_eq : addressSpace = 2 * maxObjectSize + 2 := by decide

/-- Rounding up an offset into an object stays within the address space. -/
theorem alignTo_of_le (h : align ∈ alignments) (hn : n ≤ maxObjectSize) :
    alignTo n align = some (roundUp n align) := by
  obtain ⟨hpos, hle⟩ := bounds_of_mem_alignments h
  have hspace := addressSpace_eq
  have hmax : 8 ≤ maxObjectSize := by decide
  obtain ⟨k, rfl⟩ := two_pow_of_mem_alignments h
  rw [alignTo_two_pow, if_pos (by omega)]

end Rounding

/-! Extents. -/

structure Extent where
  size : Nat
  align : Nat
  depth : Nat
  deriving DecidableEq, Repr, Inhabited

namespace Extent

/-- Where the last of several members ends, if the first is placed from `cursor` on. -/
def stop (cursor : Nat) (members : List Extent) : Nat :=
  members.foldl (fun c e => roundUp c e.align + e.size) cursor

def widest (members : List Extent) : Nat := members.foldl (fun a e => max a e.align) 1

def deepest (members : List Extent) : Nat := members.foldl (fun d e => max d e.depth) 0

def ofMembers (members : List Extent) : Extent where
  size := roundUp (stop 0 members) (widest members)
  align := widest members
  depth := 1 + deepest members

variable {members : List Extent} {e : Extent}

@[simp] theorem stop_snoc (cursor : Nat) (members : List Extent) (e : Extent) :
    stop cursor (members ++ [e]) = roundUp (stop cursor members) e.align + e.size := by
  simp [stop]

@[simp] theorem widest_snoc (members : List Extent) (e : Extent) :
    widest (members ++ [e]) = max (widest members) e.align := by
  simp [widest]

@[simp] theorem deepest_snoc (members : List Extent) (e : Extent) :
    deepest (members ++ [e]) = max (deepest members) e.depth := by
  simp [deepest]

/-- The widest alignment is one of the members', or 1. -/
theorem widest_mem (members : List Extent) :
    widest members = 1 ∨ ∃ e ∈ members, widest members = e.align := by
  induction members using List.reverseRecOn with
  | nil => exact .inl rfl
  | append_singleton members last ih =>
    rw [widest_snoc]
    rcases Nat.le_total (widest members) last.align with h | h
    · exact .inr ⟨last, by simp, Nat.max_eq_right h⟩
    · rw [Nat.max_eq_left h]
      refine ih.imp_right ?_
      rintro ⟨e, he, heq⟩
      exact ⟨e, by simp [he], heq⟩

theorem le_widest (h : e ∈ members) : e.align ≤ widest members := by
  induction members using List.reverseRecOn with
  | nil => cases h
  | append_singleton members last ih =>
    rw [widest_snoc]
    rcases List.mem_append.mp h with h | h
    · exact Nat.le_trans (ih h) (Nat.le_max_left _ _)
    · obtain rfl := List.mem_singleton.mp h
      exact Nat.le_max_right _ _

theorem widest_mem_alignments (h : ∀ e ∈ members, e.align ∈ alignments) :
    widest members ∈ alignments := by
  rcases widest_mem members with heq | ⟨e, he, heq⟩
  · rw [heq]; decide
  · rw [heq]; exact h e he

end Extent
end Layout

namespace Registry

open Layout (Extent roundUp alignments maxObjectSize)

def extentOf (r : Registry) (id : TypeId) : Extent := ⟨r.sizeOf id, r.alignOf id, r.depthOf id⟩

def extents (r : Registry) (ds : List MemberDecl) : List Extent := ds.map (r.extentOf ·.ty)

/-- Each member at the next multiple of its alignment. -/
def layOut (r : Registry) : Nat → List MemberDecl → List Member
  | _, [] => []
  | cursor, d :: ds =>
    let offset := roundUp cursor (r.alignOf d.ty)
    ⟨d.name, d.ty, offset, d.span⟩ :: r.layOut (offset + r.sizeOf d.ty) ds

def draftOf (r : Registry) (ds : List MemberDecl) : StructDraft where
  members := r.layOut 0 ds
  cursor := Extent.stop 0 (r.extents ds)
  align := Extent.widest (r.extents ds)
  depth := 1 + Extent.deepest (r.extents ds)

def structOf (r : Registry) (name : Option String) (ds : List MemberDecl) : StructType where
  name
  members := r.layOut 0 ds
  size := (Extent.ofMembers (r.extents ds)).size
  align := (Extent.ofMembers (r.extents ds)).align
  depth := (Extent.ofMembers (r.extents ds)).depth

variable {r : Registry} {ds before : List MemberDecl} {d : MemberDecl}

@[simp] theorem extents_snoc (r : Registry) (ds : List MemberDecl) (d : MemberDecl) :
    r.extents (ds ++ [d]) = r.extents ds ++ [r.extentOf d.ty] := by
  simp [extents]

theorem layOut_snoc (r : Registry) (cursor : Nat) (ds : List MemberDecl) (d : MemberDecl) :
    r.layOut cursor (ds ++ [d]) = r.layOut cursor ds ++
      [⟨d.name, d.ty, roundUp (Extent.stop cursor (r.extents ds)) (r.alignOf d.ty), d.span⟩] := by
  induction ds generalizing cursor with
  | nil => rfl
  | cons first ds ih => simp [layOut, ih, extents, Extent.stop, extentOf]

/-- Placing changes nothing of a member but its offset. -/
theorem map_layOut {α : Type} (r : Registry) (cursor : Nat) (ds : List MemberDecl)
    (f : MemberDecl → α) :
    (r.layOut cursor ds).map (fun m => f ⟨m.name, m.ty, m.span⟩) = ds.map f := by
  induction ds generalizing cursor with
  | nil => rfl
  | cons d ds ih => simp [layOut, ih]

theorem find_layOut (r : Registry) (cursor : Nat) (ds : List MemberDecl) (name : String) :
    ((r.layOut cursor ds).find? (·.name == name)).map (·.span) =
      (ds.find? (·.name == name)).map (·.span) := by
  induction ds generalizing cursor with
  | nil => rfl
  | cons d ds ih =>
    simp only [layOut, List.find?_cons]
    cases d.name == name with
    | true => rfl
    | false => exact ih _

/-- The names differ and every member ends within an object. -/
structure Placeable (r : Registry) (ds : List MemberDecl) : Prop where
  distinct : (ds.map (·.name)).Nodup
  room : ∀ before, before <+: ds → Extent.stop 0 (r.extents before) ≤ maxObjectSize

theorem placeable_nil (r : Registry) : r.Placeable [] := by
  refine ⟨List.nodup_nil, fun before hbefore => ?_⟩
  rw [List.prefix_nil.mp hbefore]
  exact Nat.zero_le _

theorem placeable_snoc :
    r.Placeable (before ++ [d]) ↔ r.Placeable before ∧ d.name ∉ before.map (·.name) ∧
      Extent.stop 0 (r.extents (before ++ [d])) ≤ maxObjectSize := by
  constructor
  · rintro ⟨hdistinct, hroom⟩
    rw [List.map_append, List.map_singleton, List.nodup_append] at hdistinct
    obtain ⟨hbefore, -, hfresh⟩ := hdistinct
    exact ⟨⟨hbefore, fun p hp => hroom p (hp.trans (List.prefix_append _ _))⟩,
      fun hmem => hfresh _ hmem _ (List.mem_singleton_self _) rfl, hroom _ List.prefix_rfl⟩
  · rintro ⟨⟨hdistinct, hroom⟩, hfresh, hstop⟩
    refine ⟨?_, fun p hp => ?_⟩
    · rw [List.map_append, List.map_singleton, List.nodup_append]
      refine ⟨hdistinct, List.nodup_singleton _, ?_⟩
      rintro a ha b hb rfl
      exact hfresh (List.mem_singleton.mp hb ▸ ha)
    · rcases List.prefix_concat_iff.mp hp with rfl | hp
      · exact hstop
      · exact hroom p hp

theorem Placeable.stop_le (h : r.Placeable ds) : Extent.stop 0 (r.extents ds) ≤ maxObjectSize :=
  h.room ds List.prefix_rfl

/-- A list that is not placeable has a first member that offends. -/
theorem exists_offender (h : ¬ r.Placeable ds) :
    ∃ before d after, ds = before ++ d :: after ∧ r.Placeable before ∧
      ¬ r.Placeable (before ++ [d]) := by
  induction ds using List.reverseRecOn with
  | nil => exact absurd (placeable_nil r) h
  | append_singleton ds last ih =>
    by_cases hds : r.Placeable ds
    · exact ⟨ds, last, [], rfl, hds, h⟩
    · obtain ⟨before, d, after, rfl, hbefore, hd⟩ := ih hds
      exact ⟨before, d, after ++ [last], by simp, hbefore, hd⟩

/-- The names of these members are known. -/
def noteNames (r : Registry) (ds : List MemberDecl) : Registry :=
  ds.foldl (fun r d => r.noteName d.name) r

/-- Names do not enter layout. -/
theorem noteNames_eq (r : Registry) (ds : List MemberDecl) :
    ∃ names, r.noteNames ds = { r with names } := by
  induction ds using List.reverseRecOn with
  | nil => exact ⟨r.names, rfl⟩
  | append_singleton ds last ih =>
    obtain ⟨names, hnames⟩ := ih
    refine ⟨names.insert last.name, ?_⟩
    have hsnoc : r.noteNames (ds ++ [last]) = (r.noteNames ds).noteName last.name := by
      simp [noteNames]
    rw [hsnoc, hnames]
    rfl

/-! One member. -/

theorem fit_eq {cursor size align : Nat} (h : align ∈ alignments) (hcursor : cursor ≤ maxObjectSize) :
    StructDraft.fit cursor size align =
      if roundUp cursor align + size ≤ maxObjectSize then
        some (roundUp cursor align, roundUp cursor align + size)
      else none := by
  simp only [StructDraft.fit, Layout.alignTo_of_le h hcursor]

theorem place_duplicate {previous : MemberDecl} (hbefore : r.Placeable before)
    (hmem : previous ∈ before) (hname : previous.name = d.name) :
    (r.draftOf before).place r d =
      .error (.duplicateMember d.name d.span previous.span) := by
  have hfind : before.find? (·.name == d.name) = some previous := by
    refine List.find?_eq_some_iff_append.mpr ⟨by simpa using hname, ?_⟩
    obtain ⟨front, back, rfl⟩ := List.append_of_mem hmem
    refine ⟨front, back, rfl, fun a ha => ?_⟩
    have hdistinct := hbefore.distinct
    rw [List.map_append, List.nodup_append] at hdistinct
    have hne := hdistinct.2.2 a.name (List.mem_map_of_mem ha) previous.name (by simp)
    simpa [← hname] using hne
  have hplaced := find_layOut r 0 before d.name
  rw [hfind, Option.map_some, Option.map_eq_some_iff] at hplaced
  obtain ⟨m, hm, hspan⟩ := hplaced
  simp only [StructDraft.place, draftOf, hm, hspan]

theorem place_fresh (halign : r.alignOf d.ty ∈ alignments) (hbefore : r.Placeable before)
    (hfresh : d.name ∉ before.map (·.name)) :
    (r.draftOf before).place r d =
      if Extent.stop 0 (r.extents (before ++ [d])) ≤ maxObjectSize then
        .ok (r.draftOf (before ++ [d]))
      else .error (.typeTooLarge d.span) := by
  have hfind : before.find? (·.name == d.name) = none := by
    refine List.find?_eq_none.mpr fun p hp hname => hfresh ?_
    rw [← eq_of_beq hname]
    exact List.mem_map_of_mem hp
  have hplaced := find_layOut r 0 before d.name
  rw [hfind, Option.map_none, Option.map_eq_none_iff] at hplaced
  simp only [StructDraft.place, draftOf, hplaced, fit_eq halign hbefore.stop_le, layOut_snoc,
    extents_snoc, Extent.stop_snoc, Extent.widest_snoc, Extent.deepest_snoc, extentOf]
  by_cases hroom : roundUp (Extent.stop 0 (r.extents before)) (r.alignOf d.ty) + r.sizeOf d.ty ≤
      maxObjectSize
  · rw [if_pos hroom, if_pos hroom, ← Nat.add_max_add_left, Nat.add_comm 1 (r.depthOf d.ty)]
  · rw [if_neg hroom, if_neg hroom]

/-! All members. -/

theorem placeAll_noteNames (r : Registry) (noted ds : List MemberDecl) (draft : StructDraft)
    (d : MemberDecl) :
    (r.noteNames noted).placeAll draft (d :: ds) =
      match draft.place r d with
      | .error e => (.error e, r.noteNames (noted ++ [d]))
      | .ok draft => (r.noteNames (noted ++ [d])).placeAll draft ds := by
  have hsnoc : (r.noteNames noted).noteName d.name = r.noteNames (noted ++ [d]) := by
    simp [noteNames]
  have hplace : draft.place (r.noteNames (noted ++ [d])) d = draft.place r d := by
    obtain ⟨names, hnames⟩ := noteNames_eq r (noted ++ [d])
    rw [hnames]
    rfl
  cases hd : draft.place r d with
  | error e => simp only [placeAll, hsnoc, hplace, hd]
  | ok draft' => simp only [placeAll, hsnoc, hplace, hd]

/-- Placeable members are placed as specified, whatever follows them. -/
theorem placeAll_of_placeable (halign : ∀ d ∈ ds, r.alignOf d.ty ∈ alignments)
    (h : r.Placeable ds) (rest : List MemberDecl) :
    r.placeAll StructDraft.empty (ds ++ rest) =
      (r.noteNames ds).placeAll (r.draftOf ds) rest := by
  induction ds using List.reverseRecOn generalizing rest with
  | nil => rfl
  | append_singleton ds last ih =>
    obtain ⟨hds, hfresh, hstop⟩ := placeable_snoc.mp h
    rw [List.append_assoc, List.singleton_append, ih (fun d hd => halign d (by simp [hd])) hds,
      placeAll_noteNames, place_fresh (halign last (by simp)) hds hfresh, if_pos hstop]

theorem placeAll_placeable (halign : ∀ d ∈ ds, r.alignOf d.ty ∈ alignments)
    (h : r.Placeable ds) :
    r.placeAll StructDraft.empty ds = (.ok (r.draftOf ds), r.noteNames ds) := by
  have hall := placeAll_of_placeable halign h []
  rwa [List.append_nil] at hall

/-- Placing stops at the first member that offends. -/
theorem placeAll_offender {after : List MemberDecl} {e : LayoutError}
    (halign : ∀ d ∈ before, r.alignOf d.ty ∈ alignments) (hbefore : r.Placeable before)
    (he : (r.draftOf before).place r d = .error e) :
    r.placeAll StructDraft.empty (before ++ d :: after) =
      (.error e, r.noteNames (before ++ [d])) := by
  rw [placeAll_of_placeable halign hbefore, placeAll_noteNames, he]

/-! The finished struct. -/

theorem finish_draftOf (name : Option String) (halign : ∀ d ∈ ds, r.alignOf d.ty ∈ alignments)
    (h : r.Placeable ds) :
    (r.draftOf ds).finish name =
      if (Extent.ofMembers (r.extents ds)).size ≤ maxObjectSize then .ok (r.structOf name ds)
      else .error (.typeTooLarge Span.nowhere) := by
  have hwidest : Extent.widest (r.extents ds) ∈ alignments := by
    refine Extent.widest_mem_alignments fun e he => ?_
    obtain ⟨d, hd, rfl⟩ := List.mem_map.mp he
    exact halign d hd
  have hfit : StructDraft.fit (Extent.stop 0 (r.extents ds)) 0 (Extent.widest (r.extents ds)) =
      if (Extent.ofMembers (r.extents ds)).size ≤ maxObjectSize then
        some ((Extent.ofMembers (r.extents ds)).size, (Extent.ofMembers (r.extents ds)).size)
      else none :=
    fit_eq hwidest h.stop_le
  simp only [StructDraft.finish, draftOf, hfit]
  by_cases hsize : (Extent.ofMembers (r.extents ds)).size ≤ maxObjectSize
  · rw [if_pos hsize, if_pos hsize]
    rfl
  · rw [if_neg hsize, if_neg hsize]

end Registry
end MiniC
