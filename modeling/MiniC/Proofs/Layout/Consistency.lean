import MiniC.Proofs.Layout.Placement
import MiniC.Proofs.Layout.Scalars
/-!
The invariant of the registry of types. Sizes, alignments and depths are cached; here they are
defined again by recursion over the types that a type refers to, and nothing cached enters that
definition. Main statements: the invariant holds of a new registry, an entry that satisfies it can
be added, and every entry keeps satisfying it as the registry grows.
-/
namespace MiniC

namespace Table

variable {κ ν : Type} [BEq κ] {m : Table κ ν} {k : κ} {v : ν}

@[simp] theorem getElem?_empty : (∅ : Table κ ν)[k]? = none := rfl

variable [LawfulBEq κ]

theorem getElem?_insert {a : κ} : (m.insert k v)[a]? = if k == a then some v else m[a]? := by
  show ((k, v) :: m.entries).lookup a = if k == a then some v else m.entries.lookup a
  rw [List.lookup_cons, Bool.beq_comm]
  cases k == a <;> rfl

@[simp] theorem getElem?_insert_self : (m.insert k v)[k]? = some v := by
  rw [getElem?_insert, beq_self_eq_true, if_pos rfl]

end Table

namespace Registry

open Layout (Extent alignments maxObjectSize)

/-! Sizes, alignments and depths by recursion. -/

def refs (r : Registry) : Ty → List TypeId
  | .pointer pointee => [pointee]
  | .array element _ => [element]
  | .struct s => (r.structType s).members.map (·.ty)
  | .void | .int .. => []

/-- The extent of a type, given those of the types it refers to. -/
def extentWith (r : Registry) (f : TypeId → Extent) : Ty → Extent
  | .void => ⟨0, 1, 1⟩
  | .int bytes _ => ⟨bytes, r.config.model.intAlign bytes, 1⟩
  | .pointer pointee =>
    ⟨r.config.model.pointerSize, r.config.model.pointerAlign, (f pointee).depth + 1⟩
  | .array element length =>
    ⟨(f element).size * length, (f element).align, (f element).depth + 1⟩
  | .struct s => Extent.ofMembers ((r.structType s).members.map (f ·.ty))

def extent (r : Registry) (id : TypeId) : Extent :=
  r.extentWith (fun i => if i.index < id.index then r.extent i else default) (r.ty id)
termination_by id.index

theorem extentWith_congr {r r' : Registry} {f g : TypeId → Extent} {ty : Ty}
    (hconfig : r'.config = r.config)
    (hstruct : ∀ s, ty = .struct s → r'.structType s = r.structType s)
    (hrefs : ∀ i ∈ r.refs ty, g i = f i) : r'.extentWith g ty = r.extentWith f ty := by
  cases ty with
  | void => rfl
  | int bytes signed => simp only [extentWith, hconfig]
  | pointer pointee => simp only [extentWith, hconfig, hrefs pointee (by simp [refs])]
  | array element length => simp only [extentWith, hrefs element (by simp [refs])]
  | struct s =>
    simp only [extentWith, hstruct s rfl]
    refine congrArg Extent.ofMembers (List.map_congr_left fun m hm => hrefs m.ty ?_)
    exact List.mem_map_of_mem hm

/-! Growth. -/

/-- The types and the structs of one registry are still there in another. -/
structure Grows (r r' : Registry) : Prop extends Within r r' where
  structs : r.structs.toList <+: r'.structs.toList

theorem Grows.refl (r : Registry) : Grows r r := ⟨Within.refl r, List.prefix_rfl⟩

theorem Grows.trans {r r' r'' : Registry} (h : Grows r r') (k : Grows r' r'') : Grows r r'' :=
  ⟨h.toWithin.trans k.toWithin, h.structs.trans k.structs⟩

theorem getD_prefix {α : Type} [Inhabited α] {xs ys : Array α} {i : Nat}
    (h : xs.toList <+: ys.toList) (hi : i < xs.size) : ys.getD i default = xs.getD i default := by
  obtain ⟨rest, hrest⟩ := h
  have hget : ys.toList[i]? = xs.toList[i]? := by
    rw [← hrest, List.getElem?_append_left (by simpa using hi)]
  simp only [Array.getElem?_toList] at hget
  simp only [Array.getD_eq_getD_getElem?, hget]

variable {r r' : Registry} {id : TypeId}

theorem Within.size_le (h : Within r r') : r.types.size ≤ r'.types.size := by
  simpa using h.types.length_le

theorem Within.info_eq (h : Within r r') (hid : id.index < r.types.size) :
    r'.info id = r.info id :=
  getD_prefix h.types hid

theorem Within.ty_eq (h : Within r r') (hid : id.index < r.types.size) : r'.ty id = r.ty id := by
  simp only [ty, h.info_eq hid]

theorem Within.extentOf_eq (h : Within r r') (hid : id.index < r.types.size) :
    r'.extentOf id = r.extentOf id := by
  simp only [extentOf, sizeOf, alignOf, depthOf, h.info_eq hid]

theorem Grows.structs_size_le (h : Grows r r') : r.structs.size ≤ r'.structs.size := by
  simpa using h.structs.length_le

theorem Grows.structType_eq {s : StructId} (h : Grows r r') (hs : s.index < r.structs.size) :
    r'.structType s = r.structType s :=
  getD_prefix h.structs hs

/-! Laid out structs. -/

theorem layOut_congr {ds : List MemberDecl} (cursor : Nat)
    (h : ∀ d ∈ ds, r'.extentOf d.ty = r.extentOf d.ty) :
    r'.layOut cursor ds = r.layOut cursor ds := by
  induction ds generalizing cursor with
  | nil => rfl
  | cons d ds ih =>
    obtain ⟨hsize, halign, -⟩ := Extent.mk.inj (h d (by simp))
    simp only [layOut, hsize, halign, ih _ fun d hd => h d (by simp [hd])]

theorem extents_congr {ds : List MemberDecl} (h : ∀ d ∈ ds, r'.extentOf d.ty = r.extentOf d.ty) :
    r'.extents ds = r.extents ds :=
  List.map_congr_left h

theorem structOf_congr {ds : List MemberDecl} (name : Option String)
    (h : ∀ d ∈ ds, r'.extentOf d.ty = r.extentOf d.ty) :
    r'.structOf name ds = r.structOf name ds := by
  simp only [structOf, layOut_congr 0 h, extents_congr h]

theorem Placeable.congr {ds : List MemberDecl} (hp : r.Placeable ds)
    (h : ∀ d ∈ ds, r'.extentOf d.ty = r.extentOf d.ty) : r'.Placeable ds := by
  refine ⟨hp.distinct, fun before hbefore => ?_⟩
  rw [extents_congr fun d hd => h d (hbefore.subset hd)]
  exact hp.room before hbefore

/-- The types of the members of a laid out struct are those that were declared. -/
theorem map_ty_structOf {α : Type} (r : Registry) (name : Option String) (ds : List MemberDecl)
    (f : TypeId → α) : (r.structOf name ds).members.map (fun m => f m.ty) = ds.map (f ·.ty) :=
  map_layOut r 0 ds (f ·.ty)

/-- A struct laid out from declared members. -/
def LaidOut (r : Registry) (s : StructType) : Prop :=
  ∃ ds, r.Placeable ds ∧ s = r.structOf s.name ds

/-! One entry. -/

/-- What a type is built from is there. -/
def Built (r : Registry) : Ty → Prop
  | .int bytes _ => bytes ∈ widths
  | .struct s => s.index < r.structs.size ∧ r.LaidOut (r.structType s)
  | .void | .pointer _ | .array .. => True

structure Entry (r : Registry) (id : TypeId) : Prop where
  built : r.Built (r.ty id)
  older : ∀ i ∈ r.refs (r.ty id), i.index < id.index
  cached : r.extentOf id = r.extentWith r.extentOf (r.ty id)
  align : r.alignOf id ∈ alignments
  dvd : r.alignOf id ∣ r.sizeOf id
  size : r.sizeOf id ≤ maxObjectSize
  depth : r.depthOf id ≤ max r.config.maxDepth 1

theorem Entry.of_info {info : TypeInfo} (hinfo : r.info id = info) (built : r.Built info.ty)
    (older : ∀ i ∈ r.refs info.ty, i.index < id.index)
    (cached : ⟨info.size, info.align, info.depth⟩ = r.extentWith r.extentOf info.ty)
    (align : info.align ∈ alignments) (dvd : info.align ∣ info.size)
    (size : info.size ≤ maxObjectSize) (depth : info.depth ≤ max r.config.maxDepth 1) :
    Entry r id := by
  subst hinfo
  exact ⟨built, older, cached, align, dvd, size, depth⟩

/-- An entry depends only on its own type and on older ones. -/
theorem Entry.grows (h : Entry r id) (hg : Grows r r') (hid : id.index < r.types.size) :
    Entry r' id := by
  have hty := hg.ty_eq hid
  have hextent := hg.extentOf_eq hid
  obtain ⟨hsize, halign, hdepth⟩ := Extent.mk.inj hextent
  have hstruct (s : StructId) (hs : r.ty id = .struct s) : r'.structType s = r.structType s := by
    have hbuilt := h.built
    rw [hs] at hbuilt
    exact hg.structType_eq hbuilt.1
  have hrefs : r'.refs (r.ty id) = r.refs (r.ty id) := by
    cases hs : r.ty id with
    | struct s => simp only [refs, hstruct s hs]
    | _ => rfl
  have hsame (i : TypeId) (hi : i ∈ r.refs (r.ty id)) : r'.extentOf i = r.extentOf i :=
    hg.extentOf_eq (Nat.lt_trans (h.older i hi) hid)
  constructor
  case built =>
    rw [hty]
    have hbuilt := h.built
    cases hs : r.ty id with
    | struct s =>
      rw [hs] at hbuilt hsame
      obtain ⟨hlt, ds, hplaceable, heq⟩ := hbuilt
      have hmembers (d : MemberDecl) (hd : d ∈ ds) : r'.extentOf d.ty = r.extentOf d.ty := by
        refine hsame d.ty ?_
        have hmap := map_ty_structOf r (r.structType s).name ds (fun i => i)
        rw [← heq] at hmap
        simp only [refs, hmap]
        exact List.mem_map_of_mem hd
      refine ⟨Nat.lt_of_lt_of_le hlt hg.structs_size_le, ds, hplaceable.congr hmembers, ?_⟩
      rw [hstruct s hs, structOf_congr _ hmembers, ← heq]
    | int bytes signed => rwa [hs] at hbuilt
    | void | pointer | array => trivial
  case older => rw [hty, hrefs]; exact h.older
  case cached =>
    rw [hty, hextent, extentWith_congr hg.config hstruct hsame]
    exact h.cached
  case align => rw [halign]; exact h.align
  case dvd => rw [hsize, halign]; exact h.dvd
  case size => rw [hsize]; exact h.size
  case depth => rw [hdepth, hg.config]; exact h.depth

/-! The whole registry. -/

structure Consistent (r : Registry) : Prop where
  scalars : r.HasScalars
  lookup : ∀ ty id, r.ids[ty]? = some id ↔ id.index < r.types.size ∧ r.ty id = ty
  structs : ∀ s : StructId, s.index < r.structs.size → ∃ id, r.ids[Ty.struct s]? = some id
  entry : ∀ id, id.index < r.types.size → Entry r id

theorem ty_scalarInfo (model : DataModel) (ty : Ty) : (scalarInfo model ty).ty = ty := by
  cases ty <;> rfl

/-- The entries of a new registry. -/
theorem info_initial {config : Layout.Config} (hid : id.index < (initial config).types.size) :
    ∃ ty, scalars[id.index]? = some ty ∧ (initial config).info id = scalarInfo config.model ty := by
  have hlt : id.index < scalars.length := by simpa [initial] using hid
  refine ⟨scalars[id.index], List.getElem?_eq_getElem hlt, ?_⟩
  have hget : (initial config).types[id.index]? = some (scalarInfo config.model scalars[id.index]) := by
    simp only [initial, List.getElem?_toArray, List.getElem?_map, List.getElem?_eq_getElem hlt,
      Option.map_some]
  simp only [info, Array.getD_eq_getD_getElem?, hget, Option.getD_some]

theorem entry_scalar {ty : Ty} (hmem : ty ∈ scalars)
    (hinfo : r.info id = scalarInfo r.config.model ty) : Entry r id := by
  have hdepth : 1 ≤ max r.config.maxDepth 1 := Nat.le_max_right _ _
  have hscalar : ty = .void ∨ ∃ bytes ∈ widths, ∃ signed, ty = .int bytes signed := by
    simp only [scalars, List.mem_cons, List.not_mem_nil, or_false] at hmem
    rcases hmem with rfl | rfl | rfl | rfl | rfl | rfl | rfl | rfl | rfl <;>
      simp [widths]
  rcases hscalar with rfl | ⟨bytes, hbytes, signed, rfl⟩
  · exact .of_info hinfo trivial (by simp [scalarInfo, refs]) rfl (List.mem_cons_self : 1 ∈ alignments)
      (Nat.one_dvd 0) (Nat.zero_le _) hdepth
  · have halign : r.config.model.intAlign bytes ∈ alignments ∧
        r.config.model.intAlign bytes ∣ bytes ∧ bytes ≤ maxObjectSize := by
      simp only [widths, List.mem_cons, List.not_mem_nil, or_false] at hbytes
      cases r.config.model <;> rcases hbytes with rfl | rfl | rfl | rfl <;> decide
    exact .of_info hinfo hbytes (by simp [scalarInfo, refs]) rfl halign.1 halign.2.1 halign.2.2 hdepth

theorem ids_initial (config : Layout.Config) (ty : Ty) (id : TypeId) :
    (initial config).ids[ty]? = some id ↔ scalars[id.index]? = some ty := by
  have hmem : (ty, id) ∈ scalars.zipIdx.map (fun p => (p.1, TypeId.mk p.2)) ↔
      scalars[id.index]? = some ty := by
    rw [List.mem_map]
    constructor
    · rintro ⟨⟨t, i⟩, ht, heq⟩
      obtain ⟨rfl, rfl⟩ := Prod.mk.inj heq
      exact List.mk_mem_zipIdx_iff_getElem?.mp ht
    · intro hget
      exact ⟨(ty, id.index), List.mk_mem_zipIdx_iff_getElem?.mpr hget, rfl⟩
  have hdistinct : (scalars.zipIdx.map (fun p => (p.1, TypeId.mk p.2))).Pairwise
      (fun a b => a.1 ≠ b.1) := by decide
  rw [← hmem]
  constructor
  · intro hget
    obtain ⟨before, after, heq, -⟩ := List.lookup_eq_some_iff.mp hget
    show (ty, id) ∈ (initial config).ids.entries
    exact heq ▸ List.mem_append_right _ List.mem_cons_self
  · intro hpair
    obtain ⟨before, after, heq⟩ := List.append_of_mem hpair
    rw [heq] at hdistinct
    have hbefore := (List.pairwise_append.mp hdistinct).2.2
    exact List.lookup_eq_some_iff.mpr ⟨before, after, heq, fun p hp =>
      bne_iff_ne.mpr (hbefore p hp _ List.mem_cons_self).symm⟩

theorem consistent_initial (config : Layout.Config) : (initial config).Consistent := by
  constructor
  case scalars => exact hasScalars_initial config
  case lookup =>
    intro ty id
    rw [ids_initial]
    constructor
    · intro hget
      have hid : id.index < (initial config).types.size := by
        obtain ⟨hlt, -⟩ := List.getElem?_eq_some_iff.mp hget
        simpa [initial] using hlt
      obtain ⟨t, ht, hinfo⟩ := info_initial hid
      obtain rfl : t = ty := Option.some.inj (ht.symm.trans hget)
      exact ⟨hid, by simp only [Registry.ty, hinfo, ty_scalarInfo]⟩
    · rintro ⟨hid, rfl⟩
      obtain ⟨t, ht, hinfo⟩ := info_initial hid
      rw [ht, Registry.ty, hinfo, ty_scalarInfo]
  case structs => exact fun s hs => absurd hs (Nat.not_lt_zero _)
  case entry =>
    intro id hid
    obtain ⟨ty, hty, hinfo⟩ := info_initial hid
    exact entry_scalar (List.mem_of_getElem? hty) hinfo

namespace Consistent

variable {info : TypeInfo}

theorem lookup_lt {ty : Ty} (h : r.Consistent) (hid : r.ids[ty]? = some id) :
    id.index < r.types.size :=
  ((h.lookup ty id).mp hid).1

theorem injective {id id' : TypeId} (h : r.Consistent) (hid : id.index < r.types.size)
    (hid' : id'.index < r.types.size) (hty : r.ty id = r.ty id') : id = id' := by
  have hfound := (h.lookup (r.ty id) id).mpr ⟨hid, rfl⟩
  have hfound' := (h.lookup (r.ty id) id').mpr ⟨hid', hty.symm⟩
  exact Option.some.inj (hfound.symm.trans hfound')

/-- The cached extent of a type is the recursive one. -/
theorem extent_eq (h : r.Consistent) (hid : id.index < r.types.size) : r.extentOf id = r.extent id := by
  induction hn : id.index using Nat.strongRecOn generalizing id with
  | ind n ih =>
    subst hn
    have hentry := h.entry id hid
    rw [extent, hentry.cached]
    refine (extentWith_congr rfl (fun _ _ => rfl) fun i hi => ?_).symm
    have hlt := hentry.older i hi
    rw [if_pos hlt]
    exact (ih i.index hlt (Nat.lt_trans hlt hid) rfl).symm

/-- A new type enters: everything about older ones stays. -/
theorem enter (h : r.Consistent) (hg : Grows r r') (htypes : r'.types = r.types.push info)
    (hids : r'.ids = r.ids.insert info.ty ⟨r.types.size⟩) (hnew : r.ids[info.ty]? = none)
    (hentry : Entry r' ⟨r.types.size⟩)
    (hstructs : ∀ s : StructId, s.index < r'.structs.size →
      s.index < r.structs.size ∨ info.ty = .struct s) :
    r'.Consistent := by
  have hlast : r'.info ⟨r.types.size⟩ = info := by
    simp [Registry.info, htypes, Array.getD_eq_getD_getElem?]
  have hcases {id : TypeId} (hid : id.index < r'.types.size) :
      id.index < r.types.size ∨ id = ⟨r.types.size⟩ := by
    rw [htypes, Array.size_push] at hid
    rcases Nat.lt_succ_iff_lt_or_eq.mp hid with hlt | heq
    · exact .inl hlt
    · exact .inr (by cases id; simp_all)
  constructor
  case scalars => exact h.scalars.within hg.toWithin
  case lookup =>
    intro ty id
    rw [hids, Table.getElem?_insert]
    constructor
    · intro hget
      split at hget
      · rename_i heq
        obtain rfl := eq_of_beq heq
        obtain rfl := Option.some.inj hget
        exact ⟨by simp [htypes], by simp only [Registry.ty, hlast]⟩
      · obtain ⟨hid, hty⟩ := (h.lookup ty id).mp hget
        exact ⟨Nat.lt_of_lt_of_le hid hg.size_le, by rw [hg.ty_eq hid, hty]⟩
    · rintro ⟨hid, rfl⟩
      rcases hcases hid with hid | rfl
      · rw [hg.ty_eq hid]
        have hfound := (h.lookup (r.ty id) id).mpr ⟨hid, rfl⟩
        have hne : ¬ (info.ty == r.ty id) = true := by
          intro heq
          rw [eq_of_beq heq, hfound] at hnew
          cases hnew
        rw [if_neg hne, hfound]
      · simp only [Registry.ty, hlast, beq_self_eq_true, if_true]
  case structs =>
    intro s hs
    rw [hids, Table.getElem?_insert]
    rcases hstructs s hs with hs | heq
    · split
      · exact ⟨_, rfl⟩
      · exact h.structs s hs
    · exact ⟨⟨r.types.size⟩, by simp [heq]⟩
  case entry =>
    intro id hid
    rcases hcases hid with hid | rfl
    · exact (h.entry id hid).grows hg hid
    · exact hentry

end Consistent
end Registry

end MiniC
