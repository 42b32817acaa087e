import MiniC.Proofs.Layout.Consistency
/-!
Building a struct in a consistent registry. Main statements: a struct is built exactly if its members
are placeable and its size and depth are within the limits, it is then laid out as specified, and
otherwise the error is that of the first member that offends, of the rounding or of the depth.
-/
namespace MiniC.Registry

open Layout (Extent roundUp alignments maxObjectSize)

variable {r : Registry} {ds : List MemberDecl} {e : LayoutError}

/-- The members refer to types of the registry. -/
def Holds (r : Registry) (ds : List MemberDecl) : Prop := ∀ d ∈ ds, d.ty.index < r.types.size

theorem Consistent.alignOf_mem (h : r.Consistent) (hds : r.Holds ds) :
    ∀ d ∈ ds, r.alignOf d.ty ∈ alignments :=
  fun d hd => (h.entry d.ty (hds d hd)).align

theorem Consistent.widest_mem (h : r.Consistent) (hds : r.Holds ds) :
    Extent.widest (r.extents ds) ∈ alignments := by
  refine Extent.widest_mem_alignments fun e he => ?_
  obtain ⟨d, hd, rfl⟩ := List.mem_map.mp he
  exact h.alignOf_mem hds d hd

/-! Which structs are built. -/

structure Buildable (r : Registry) (ds : List MemberDecl) : Prop where
  placeable : r.Placeable ds
  size : (Extent.ofMembers (r.extents ds)).size ≤ maxObjectSize
  depth : (Extent.ofMembers (r.extents ds)).depth ≤ r.config.maxDepth

/-- The first member that offends decides, then the rounded size, then the depth. -/
inductive Refused (r : Registry) (ds : List MemberDecl) : LayoutError → Prop
  | duplicate {before after : List MemberDecl} {d previous : MemberDecl}
      (split : ds = before ++ d :: after) (earlier : r.Placeable before)
      (mem : previous ∈ before) (same : previous.name = d.name) :
      Refused r ds (.duplicateMember d.name d.span previous.span)
  | memberTooLarge {before after : List MemberDecl} {d : MemberDecl}
      (split : ds = before ++ d :: after) (earlier : r.Placeable before)
      (fresh : d.name ∉ before.map (·.name))
      (large : maxObjectSize < Extent.stop 0 (r.extents (before ++ [d]))) :
      Refused r ds (.typeTooLarge d.span)
  | tooLarge (placeable : r.Placeable ds)
      (large : maxObjectSize < (Extent.ofMembers (r.extents ds)).size) :
      Refused r ds (.typeTooLarge Span.nowhere)
  | tooDeep (placeable : r.Placeable ds)
      (size : (Extent.ofMembers (r.extents ds)).size ≤ maxObjectSize)
      (deep : r.config.maxDepth < (Extent.ofMembers (r.extents ds)).depth) :
      Refused r ds (.typeTooDeep r.config.maxDepth Span.nowhere)

theorem exists_refused (h : ¬ r.Buildable ds) : ∃ e, r.Refused ds e := by
  by_cases hplaceable : r.Placeable ds
  · by_cases hsize : (Extent.ofMembers (r.extents ds)).size ≤ maxObjectSize
    · have hdepth := Nat.lt_of_not_le fun hdepth => h ⟨hplaceable, hsize, hdepth⟩
      exact ⟨_, .tooDeep hplaceable hsize hdepth⟩
    · exact ⟨_, .tooLarge hplaceable (Nat.lt_of_not_le hsize)⟩
  · obtain ⟨before, d, after, hsplit, hbefore, hd⟩ := exists_offender hplaceable
    by_cases hfresh : d.name ∈ before.map (·.name)
    · obtain ⟨previous, hmem, hname⟩ := List.mem_map.mp hfresh
      exact ⟨_, .duplicate hsplit hbefore hmem hname⟩
    · have hlarge := Nat.lt_of_not_le fun hstop => hd (placeable_snoc.mpr ⟨hbefore, hfresh, hstop⟩)
      exact ⟨_, .memberTooLarge hsplit hbefore hfresh hlarge⟩

/-- The registry once a struct has entered it. -/
def withStruct (r : Registry) (s : StructType) : Registry :=
  { r with
    structs := r.structs.push s
    types := r.types.push ⟨.struct ⟨r.structs.size⟩, s.size, s.align, s.depth⟩
    ids := r.ids.insert (.struct ⟨r.structs.size⟩) ⟨r.types.size⟩ }

theorem addStruct_eq (s : StructType) (hdepth : s.depth ≤ r.config.maxDepth)
    (hcapacity : r.types.size < capacity) :
    r.addStruct s = .ok (⟨r.types.size⟩, r.withStruct s) := by
  have hcheck : r.checkDepth s.depth = .ok () := if_neg (Nat.not_lt.mpr hdepth)
  simp only [addStruct, hcheck, insert]
  rw [if_pos hcapacity]
  rfl

theorem addStruct_full (s : StructType) (hdepth : s.depth ≤ r.config.maxDepth)
    (hcapacity : ¬ r.types.size < capacity) :
    r.addStruct s = .error (.typeTooLarge Span.nowhere) := by
  have hcheck : r.checkDepth s.depth = .ok () := if_neg (Nat.not_lt.mpr hdepth)
  simp only [addStruct, hcheck, insert]
  rw [if_neg hcapacity]

theorem addStruct_tooDeep (s : StructType) (hdepth : r.config.maxDepth < s.depth) :
    r.addStruct s = .error (.typeTooDeep r.config.maxDepth Span.nowhere) := by
  have hcheck : r.checkDepth s.depth = .error (.typeTooDeep r.config.maxDepth Span.nowhere) :=
    if_pos hdepth
  simp only [addStruct, hcheck]

theorem finishStruct_noteNames (r : Registry) (noted : List MemberDecl) (d : StructDraft)
    (name : Option String) :
    (r.noteNames noted).finishStruct d name =
      match d.finish name with
      | .error e => (.error e, r.noteNames noted)
      | .ok s =>
        match r.addStruct s with
        | .error e => (.error e, r.noteNames noted)
        | .ok (id, _) => (.ok id, (r.noteNames noted).withStruct s) := by
  obtain ⟨names, hnames⟩ := noteNames_eq r noted
  rw [hnames]
  unfold finishStruct
  cases d.finish name with
  | error e => rfl
  | ok s =>
    simp only [addStruct, checkDepth, insert]
    by_cases hdepth : r.config.maxDepth < s.depth
    · simp only [if_pos hdepth]
    · by_cases hcapacity : r.types.size < capacity
      · simp only [if_neg hdepth, if_pos hcapacity]
        rfl
      · simp only [if_neg hdepth, if_neg hcapacity]

section
variable (h : r.Consistent) (hds : r.Holds ds) (name : Option String)
include h hds

theorem Consistent.buildStruct_placeable (hp : r.Placeable ds) :
    r.buildStruct name ds = (r.noteNames ds).finishStruct (r.draftOf ds) name := by
  simp only [buildStruct, placeAll_placeable (h.alignOf_mem hds) hp]

theorem Consistent.buildStruct_buildable (hcapacity : r.types.size < capacity)
    (hb : r.Buildable ds) :
    r.buildStruct name ds =
      (.ok ⟨r.types.size⟩, (r.noteNames ds).withStruct (r.structOf name ds)) := by
  rw [h.buildStruct_placeable hds name hb.placeable, finishStruct_noteNames,
    finish_draftOf name (h.alignOf_mem hds) hb.placeable, if_pos hb.size]
  simp only [addStruct_eq (r.structOf name ds) hb.depth hcapacity]

/-- Without an id left, even a struct that could be built is not. -/
theorem Consistent.buildStruct_full (hcapacity : ¬ r.types.size < capacity) (hb : r.Buildable ds) :
    r.buildStruct name ds = (.error (.typeTooLarge Span.nowhere), r.noteNames ds) := by
  rw [h.buildStruct_placeable hds name hb.placeable, finishStruct_noteNames,
    finish_draftOf name (h.alignOf_mem hds) hb.placeable, if_pos hb.size]
  simp only [addStruct_full (r.structOf name ds) hb.depth hcapacity]

theorem Consistent.buildStruct_refused (hr : r.Refused ds e) :
    ∃ noted, r.buildStruct name ds = (.error e, r.noteNames noted) := by
  cases hr with
  | @duplicate before after d previous hsplit hbefore hmem hname =>
    subst hsplit
    refine ⟨before ++ [d], ?_⟩
    have halign := h.alignOf_mem hds
    simp only [buildStruct, placeAll_offender (fun d hd => halign d (by simp [hd])) hbefore
      (place_duplicate hbefore hmem hname)]
  | @memberTooLarge before after d hsplit hbefore hfresh hlarge =>
    subst hsplit
    refine ⟨before ++ [d], ?_⟩
    have halign := h.alignOf_mem hds
    have hplace := place_fresh (halign d (by simp)) hbefore hfresh
    rw [if_neg (Nat.not_le.mpr hlarge)] at hplace
    simp only [buildStruct, placeAll_offender (fun d hd => halign d (by simp [hd])) hbefore hplace]
  | tooLarge hplaceable hlarge =>
    refine ⟨ds, ?_⟩
    rw [h.buildStruct_placeable hds name hplaceable, finishStruct_noteNames,
      finish_draftOf name (h.alignOf_mem hds) hplaceable, if_neg (Nat.not_le.mpr hlarge)]
  | tooDeep hplaceable hsize hdeep =>
    refine ⟨ds, ?_⟩
    rw [h.buildStruct_placeable hds name hplaceable, finishStruct_noteNames,
      finish_draftOf name (h.alignOf_mem hds) hplaceable, if_pos hsize]
    simp only [addStruct_tooDeep (r.structOf name ds) hdeep]

end

/-! The struct that is built. -/

/-- Members in order, each at the least offset after the previous member that its alignment allows. -/
inductive Placed (r : Registry) : Nat → List MemberDecl → List Member → Nat → Prop
  | nil {cursor : Nat} : Placed r cursor [] [] cursor
  | cons {cursor offset stop : Nat} {d : MemberDecl} {ds : List MemberDecl} {ms : List Member}
      (least : IsLeast {o | cursor ≤ o ∧ r.alignOf d.ty ∣ o} offset)
      (rest : Placed r (offset + r.sizeOf d.ty) ds ms stop) :
      Placed r cursor (d :: ds) (⟨d.name, d.ty, offset, d.span⟩ :: ms) stop

theorem placed_layOut (cursor : Nat) (halign : ∀ d ∈ ds, 0 < r.alignOf d.ty) :
    Placed r cursor ds (r.layOut cursor ds) (Extent.stop cursor (r.extents ds)) := by
  induction ds generalizing cursor with
  | nil => exact .nil
  | cons d ds ih =>
    refine .cons (Layout.isLeast_roundUp (halign d (by simp))) ?_
    exact ih _ fun d hd => halign d (by simp [hd])

section
variable {cursor stop : Nat} {ms : List Member}

theorem Placed.cursor_le_stop (h : Placed r cursor ds ms stop) : cursor ≤ stop := by
  induction h with
  | nil => exact Nat.le_refl _
  | cons least rest ih =>
    have hle := least.1.1
    omega

theorem Placed.bounds (h : Placed r cursor ds ms stop) :
    ∀ m ∈ ms, cursor ≤ m.offset ∧ m.offset + r.sizeOf m.ty ≤ stop := by
  induction h with
  | nil => intro m hm; cases hm
  | cons least rest ih =>
    have hle := least.1.1
    intro m hm
    rcases List.mem_cons.mp hm with rfl | hm
    · exact ⟨hle, rest.cursor_le_stop⟩
    · obtain ⟨hstart, hstop⟩ := ih m hm
      exact ⟨by omega, hstop⟩

/-- Every member ends before the next begins. -/
theorem Placed.disjoint (h : Placed r cursor ds ms stop) :
    ms.Pairwise fun m m' => m.offset + r.sizeOf m.ty ≤ m'.offset := by
  induction h with
  | nil => exact .nil
  | cons least rest ih => exact .cons (fun m hm => (rest.bounds m hm).1) ih

end

theorem Placed.aligned {cursor stop : Nat} {ms : List Member} (h : Placed r cursor ds ms stop) :
    ∀ m ∈ ms, r.extentOf m.ty ∈ r.extents ds ∧ r.alignOf m.ty ∣ m.offset := by
  induction h with
  | nil => intro m hm; cases hm
  | cons least rest ih =>
    intro m hm
    rcases List.mem_cons.mp hm with rfl | hm
    · exact ⟨List.mem_cons_self, least.1.2⟩
    · exact ⟨List.mem_cons_of_mem _ (ih m hm).1, (ih m hm).2⟩

/-- A struct whose layout is the specified one. -/
structure Specified (r : Registry) (name : Option String) (ds : List MemberDecl) (stop : Nat)
    (s : StructType) : Prop where
  name : s.name = name
  members : Placed r 0 ds s.members stop
  align : s.align = Extent.widest (r.extents ds)
  size : IsLeast {n | stop ≤ n ∧ s.align ∣ n} s.size
  depth : s.depth = 1 + Extent.deepest (r.extents ds)
  disjoint : s.members.Pairwise fun m m' => m.offset + r.sizeOf m.ty ≤ m'.offset
  inside : ∀ m ∈ s.members, m.offset + r.sizeOf m.ty ≤ s.size

theorem Consistent.specified_structOf (h : r.Consistent) (hds : r.Holds ds) (name : Option String) :
    Specified r name ds (Extent.stop 0 (r.extents ds)) (r.structOf name ds) := by
  have hpos (d : MemberDecl) (hd : d ∈ ds) : 0 < r.alignOf d.ty :=
    (Layout.bounds_of_mem_alignments (h.alignOf_mem hds d hd)).1
  have hplaced := placed_layOut 0 hpos
  have hwidest := (Layout.bounds_of_mem_alignments (h.widest_mem hds)).1
  have hsize := Layout.isLeast_roundUp (n := Extent.stop 0 (r.extents ds)) hwidest
  constructor
  case name => rfl
  case members => exact hplaced
  case align => rfl
  case size => exact hsize
  case depth => rfl
  case disjoint => exact hplaced.disjoint
  case inside => exact fun m hm => Nat.le_trans (hplaced.bounds m hm).2 hsize.1.1

/-! The registry that holds it. -/

theorem grows_withStruct (r : Registry) (s : StructType) : Grows r (r.withStruct s) := by
  refine ⟨⟨rfl, ?_⟩, ?_⟩ <;> simp [withStruct]

theorem structType_withStruct (r : Registry) (s : StructType) :
    (r.withStruct s).structType ⟨r.structs.size⟩ = s := by
  simp [structType, withStruct, Array.getD_eq_getD_getElem?]

theorem info_withStruct (r : Registry) (s : StructType) :
    (r.withStruct s).info ⟨r.types.size⟩ =
      ⟨.struct ⟨r.structs.size⟩, s.size, s.align, s.depth⟩ := by
  simp [info, withStruct, Array.getD_eq_getD_getElem?]

/-- A struct laid out from members of a consistent registry is an entry of it. -/
theorem Consistent.entry_withStruct (h : r.Consistent) (hds : r.Holds ds) (hb : r.Buildable ds)
    (name : Option String) :
    Entry (r.withStruct (r.structOf name ds)) ⟨r.types.size⟩ := by
  have hg := grows_withStruct r (r.structOf name ds)
  have hmembers (d : MemberDecl) (hd : d ∈ ds) :
      (r.withStruct (r.structOf name ds)).extentOf d.ty = r.extentOf d.ty :=
    hg.extentOf_eq (hds d hd)
  have htype := structType_withStruct r (r.structOf name ds)
  refine .of_info (info_withStruct r (r.structOf name ds)) ?built ?older ?cached
    (h.widest_mem hds) (Layout.dvd_roundUp _ _) hb.size
    (Nat.le_trans hb.depth (Nat.le_max_left _ _))
  case built =>
    refine ⟨by simp [Registry.withStruct], ?_⟩
    rw [htype]
    exact ⟨ds, hb.placeable.congr hmembers, (structOf_congr name hmembers).symm⟩
  case older =>
    intro i hi
    simp only [refs, htype, map_ty_structOf r name ds (fun i => i)] at hi
    obtain ⟨d, hd, rfl⟩ := List.mem_map.mp hi
    exact hds d hd
  case cached =>
    simp only [extentWith, htype]
    rw [map_ty_structOf r name ds]
    exact congrArg Extent.ofMembers (extents_congr hmembers).symm

theorem Consistent.withStruct (h : r.Consistent) (hds : r.Holds ds) (hb : r.Buildable ds)
    (name : Option String) :
    (r.withStruct (r.structOf name ds)).Consistent := by
  refine h.enter (grows_withStruct r _) rfl rfl ?_ (h.entry_withStruct hds hb name) fun s hs => ?_
  · cases hget : r.ids[Ty.struct ⟨r.structs.size⟩]? with
    | none => rfl
    | some id =>
      obtain ⟨hid, hty⟩ := (h.lookup _ id).mp hget
      have hbuilt := (h.entry id hid).built
      rw [hty] at hbuilt
      exact absurd hbuilt.1 (Nat.lt_irrefl _)
  · have hlt : s.index < r.structs.size + 1 := by simpa [Registry.withStruct] using hs
    rcases Nat.lt_succ_iff_lt_or_eq.mp hlt with hlt | heq
    · exact .inl hlt
    · exact .inr (by cases s; simp_all)

end MiniC.Registry
