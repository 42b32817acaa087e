import MiniC.Proofs.Layout.Building
/-!
Runs of calls on the registry of types. Main statements: every registry that calls reach from a new
one satisfies the invariant, no call changes an entry that is there, a failing call leaves the types,
the ids and the structs as they were, and in every such registry structs are laid out as specified.
-/
namespace MiniC.Registry

open Layout (Extent alignments maxObjectSize)

variable {r r' : Registry} {id : TypeId} {model : DataModel} {limit : Nat}

/-- What a caller can ask of the registry. -/
inductive Call where
  | intern (ty : Ty)
  | pointerTo (pointee : TypeId)
  | arrayOf (element : TypeId) (length : Nat)
  | buildStruct (name : Option String) (members : List MemberDecl)

/-- The outcome of a call and the registry after it; only names outlive a failure. -/
def Call.run (r : Registry) : Call → Except LayoutError TypeId × Registry
  | intern ty => enter (r.intern ty)
  | pointerTo pointee => enter (r.pointerTo pointee)
  | arrayOf element length => enter (r.arrayOf element length)
  | buildStruct name members => r.buildStruct name members
where
  enter : Except LayoutError (TypeId × Registry) → Except LayoutError TypeId × Registry
    | .ok (id, r') => (.ok id, r')
    | .error e => (.error e, r)

/-- A type built from what the registry holds. -/
def Formed (r : Registry) : Ty → Prop
  | .void => True
  | .int bytes _ => bytes ∈ widths
  | .pointer pointee => pointee.index < r.types.size
  | .array element _ => element.index < r.types.size
  | .struct s => s.index < r.structs.size

/-- A call that mentions only ids of the registry, while there are ids left. -/
def Call.Proper (r : Registry) (c : Call) : Prop :=
  r.types.size < capacity ∧
    match c with
    | intern ty => r.Formed ty
    | pointerTo pointee => r.Formed (.pointer pointee)
    | arrayOf element length => r.Formed (.array element length)
    | buildStruct _ members => r.Holds members

inductive Reachable (model : DataModel) (limit : Nat) : Registry → Prop
  | new : Reachable model limit (initial (Layout.Config.withMaxDepth { model } limit))
  | call {r : Registry} (c : Call) (reached : Reachable model limit r) (proper : c.Proper r) :
      Reachable model limit (c.run r).2

/-! Types that enter. -/

/-- The registry once a type other than a struct has entered it. -/
def withType (r : Registry) (info : TypeInfo) : Registry :=
  { r with types := r.types.push info, ids := r.ids.insert info.ty ⟨r.types.size⟩ }

theorem grows_withType (r : Registry) (info : TypeInfo) : Grows r (r.withType info) :=
  ⟨⟨rfl, by simp [withType]⟩, List.prefix_rfl⟩

theorem info_withType (r : Registry) (info : TypeInfo) :
    (r.withType info).info ⟨r.types.size⟩ = info := by
  simp [Registry.info, withType, Array.getD_eq_getD_getElem?]

/-- Interning finds a type, or enters it within the limits. -/
theorem intern_cases {ty : Ty} (h : r.intern ty = .ok (id, r')) :
    (r.ids[ty]? = some id ∧ r' = r) ∨
      (r.ids[ty]? = none ∧ ∃ info, r.measure ty = .ok info ∧ info.depth ≤ r.config.maxDepth ∧
        id = ⟨r.types.size⟩ ∧ r' = r.withType info) := by
  unfold intern at h
  split at h
  · rename_i found hfound
    cases h
    exact .inl ⟨hfound, rfl⟩
  · rename_i hnone
    split at h
    · cases h
    · rename_i info hinfo
      split at h
      · cases h
      · rename_i hdepth
        unfold insert at h
        split at h
        · cases h
          refine .inr ⟨hnone, info, hinfo, ?_, rfl, rfl⟩
          unfold checkDepth at hdepth
          split at hdepth
          · cases hdepth
          · exact Nat.le_of_not_lt ‹_›
        · cases h

theorem measure_ty {ty : Ty} {info : TypeInfo} (h : r.measure ty = .ok info) : info.ty = ty := by
  cases ty with
  | array element length =>
    simp only [measure] at h
    split at h
    · cases h; rfl
    · cases h
  | _ => cases h; rfl

/-- A scalar or a struct of the registry is there already. -/
theorem Consistent.found {ty : Ty} (h : r.Consistent) (hformed : r.Formed ty) :
    (∃ id, r.ids[ty]? = some id) ∨ (∃ pointee, ty = .pointer pointee) ∨
      ∃ element length, ty = .array element length := by
  cases ty with
  | void =>
    refine .inl ⟨void, (h.lookup _ _).mpr ⟨?_, ?_⟩⟩
    · exact Nat.lt_of_lt_of_le (Nat.zero_lt_succ 8) h.scalars.size_le
    · have hty : r.ty void = (initial r.config).ty void := h.scalars.ty_eq (Nat.zero_lt_succ 8)
      exact hty
  | int bytes signed =>
    refine .inl ⟨int bytes signed, (h.lookup _ _).mpr ⟨?_, h.scalars.ty_int hformed⟩⟩
    refine Nat.lt_of_lt_of_le (?_ : _ < 9) h.scalars.size_le
    simp only [Formed, widths, List.mem_cons, List.not_mem_nil, or_false] at hformed
    rcases hformed with rfl | rfl | rfl | rfl <;> cases signed <;> decide
  | pointer pointee => exact .inr (.inl ⟨pointee, rfl⟩)
  | array element length => exact .inr (.inr ⟨element, length, rfl⟩)
  | struct s => exact .inl (h.structs s hformed)

/-- The entry of a pointer or of an array that has just entered. -/
theorem Consistent.entry_withType {ty : Ty} {info : TypeInfo} (h : r.Consistent)
    (hformed : r.Formed ty) (hnew : r.ids[ty]? = none) (hinfo : r.measure ty = .ok info)
    (hdepth : info.depth ≤ r.config.maxDepth) : Entry (r.withType info) ⟨r.types.size⟩ := by
  have hg := grows_withType r info
  have hlast := info_withType r info
  replace hdepth := Nat.le_trans hdepth (Nat.le_max_left _ 1)
  rcases h.found hformed with ⟨id, hid⟩ | ⟨pointee, rfl⟩ | ⟨element, length, rfl⟩
  · rw [hid] at hnew
    cases hnew
  · cases hinfo
    have hpointer : r.config.model.pointerAlign ∈ alignments ∧
        r.config.model.pointerAlign ∣ r.config.model.pointerSize ∧
          r.config.model.pointerSize ≤ maxObjectSize := by
      cases r.config.model <;> decide
    refine .of_info hlast trivial (by simpa [refs, Formed] using hformed) ?_ hpointer.1 hpointer.2.1
      hpointer.2.2 hdepth
    simp only [extentWith, hg.extentOf_eq hformed, hg.config]
    rfl
  · simp only [measure] at hinfo
    split at hinfo
    · rename_i hsize
      cases hinfo
      have hentry := h.entry element hformed
      refine .of_info hlast trivial (by simpa [refs, Formed] using hformed) ?_ hentry.align
        (Nat.dvd_mul_right_of_dvd hentry.dvd length) hsize hdepth
      simp only [extentWith, hg.extentOf_eq hformed]
      rfl
    · cases hinfo

theorem Consistent.intern {ty : Ty} (h : r.Consistent) (hformed : r.Formed ty)
    (hok : r.intern ty = .ok (id, r')) :
    r'.Consistent ∧ Grows r r' ∧ r'.ids[ty]? = some id := by
  rcases intern_cases hok with ⟨hfound, rfl⟩ | ⟨hnew, info, hinfo, hdepth, rfl, rfl⟩
  · exact ⟨h, Grows.refl _, hfound⟩
  · obtain rfl := measure_ty hinfo
    have hentry := h.entry_withType hformed hnew hinfo hdepth
    refine ⟨h.enter (grows_withType r info) rfl rfl hnew hentry fun s hs => .inl hs,
      grows_withType r info, ?_⟩
    simp [withType]

/-! Calls. -/

/-- Names do not enter the invariant. -/
theorem grows_names (r : Registry) (names : Std.HashSet String) : Grows r { r with names } :=
  ⟨⟨rfl, List.prefix_rfl⟩, List.prefix_rfl⟩

theorem Consistent.names (h : r.Consistent) (names : Std.HashSet String) :
    { r with names }.Consistent where
  scalars := h.scalars.within (grows_names r names).toWithin
  lookup := h.lookup
  structs := h.structs
  entry id hid := (h.entry id hid).grows (grows_names r names) hid

/-- What a proper call does to a consistent registry. -/
structure Kept (r : Registry) (result : Except LayoutError TypeId) (r' : Registry) : Prop where
  grows : Grows r r'
  consistent : r'.Consistent
  returned : ∀ id, result = .ok id → id.index < r'.types.size
  failed : ∀ e, result = .error e →
    r'.types = r.types ∧ r'.ids = r.ids ∧ r'.structs = r.structs

theorem Consistent.kept_intern {ty : Ty} (h : r.Consistent) (hformed : r.Formed ty) :
    Kept r (Call.run.enter r (r.intern ty)).1 (Call.run.enter r (r.intern ty)).2 := by
  cases hok : r.intern ty with
  | error e =>
    exact ⟨Grows.refl r, h, fun id hid => (by cases hid), fun _ _ => ⟨rfl, rfl, rfl⟩⟩
  | ok result =>
    obtain ⟨id, r'⟩ := result
    obtain ⟨hconsistent, hgrows, hfound⟩ := h.intern hformed hok
    refine ⟨hgrows, hconsistent, fun i hi => ?_, fun e he => by cases he⟩
    obtain rfl := Except.ok.inj hi
    exact hconsistent.lookup_lt hfound

/-- A failure leaves nothing but names behind. -/
theorem Consistent.kept_error (h : r.Consistent) (noted : List MemberDecl) (e : LayoutError) :
    Kept r (.error e) (r.noteNames noted) := by
  obtain ⟨names, hnames⟩ := noteNames_eq r noted
  rw [hnames]
  exact ⟨grows_names r names, h.names names, fun id hid => (by cases hid), fun _ _ => ⟨rfl, rfl, rfl⟩⟩

theorem Consistent.kept_buildStruct {ds : List MemberDecl} (h : r.Consistent) (hds : r.Holds ds)
    (name : Option String) : Kept r (r.buildStruct name ds).1 (r.buildStruct name ds).2 := by
  by_cases hb : r.Buildable ds
  · by_cases hcapacity : r.types.size < capacity
    · rw [h.buildStruct_buildable hds name hcapacity hb]
      obtain ⟨names, hnames⟩ := noteNames_eq r ds
      have heq : (r.noteNames ds).withStruct (r.structOf name ds) =
          { r.withStruct (r.structOf name ds) with names } := by
        rw [hnames]
        rfl
      simp only [heq]
      refine ⟨(grows_withStruct r _).trans (grows_names _ _), (h.withStruct hds hb name).names names,
        fun id hid => ?_, fun e he => (by cases he)⟩
      obtain rfl := Except.ok.inj hid
      simp [Registry.withStruct]
    · rw [h.buildStruct_full hds name hcapacity hb]
      exact h.kept_error ds _
  · obtain ⟨e, he⟩ := exists_refused hb
    obtain ⟨noted, hnoted⟩ := h.buildStruct_refused hds name he
    rw [hnoted]
    exact h.kept_error noted e

theorem Consistent.kept_run (h : r.Consistent) {c : Call} (hproper : c.Proper r) :
    Kept r (c.run r).1 (c.run r).2 := by
  obtain ⟨-, hids⟩ := hproper
  cases c with
  | intern ty => exact h.kept_intern hids
  | pointerTo pointee => exact h.kept_intern hids
  | arrayOf element length => exact h.kept_intern hids
  | buildStruct name members => exact h.kept_buildStruct hids name

theorem Reachable.consistent (h : Reachable model limit r) : r.Consistent := by
  induction h with
  | new => exact consistent_initial _
  | call c _ proper ih => exact (ih.kept_run proper).consistent

theorem Reachable.config_eq (h : Reachable model limit r) :
    r.config = Layout.Config.withMaxDepth ⟨model, limit⟩ limit := by
  induction h with
  | new => rfl
  | call c reached proper ih =>
    exact (reached.consistent.kept_run proper).grows.config.trans ih

theorem Consistent.asStruct_eq (h : r.Consistent) (hg : Grows r r') (hid : id.index < r.types.size) :
    r'.asStruct? id = r.asStruct? id := by
  simp only [asStruct?, hg.ty_eq hid]
  cases hty : r.ty id with
  | struct s =>
    have hbuilt := (h.entry id hid).built
    rw [hty] at hbuilt
    simp only [hg.structType_eq hbuilt.1]
  | _ => rfl

/-- The invariant in terms of the ids alone. -/
structure Invariant (depthLimit : Nat) (r : Registry) : Prop where
  distinct : ∀ id id' : TypeId, id.index < r.types.size → id'.index < r.types.size →
    r.ty id = r.ty id' → id = id'
  lookup : ∀ ty id, r.ids[ty]? = some id ↔ id.index < r.types.size ∧ r.ty id = ty
  older : ∀ id : TypeId, id.index < r.types.size → ∀ i ∈ r.refs (r.ty id), i.index < id.index
  cached : ∀ id : TypeId, id.index < r.types.size →
    ⟨r.sizeOf id, r.alignOf id, r.depthOf id⟩ = r.extent id
  align : ∀ id : TypeId, id.index < r.types.size →
    r.alignOf id ∈ [1, 2, 4, 8] ∧ r.alignOf id ∣ r.sizeOf id
  size : ∀ id : TypeId, id.index < r.types.size → r.sizeOf id ≤ maxObjectSize
  depth : ∀ id : TypeId, id.index < r.types.size → r.depthOf id ≤ depthLimit

/-- A call changes no entry that is there, and nothing but names if it fails. -/
structure Unchanged (r r' : Registry) (result : Except LayoutError TypeId) : Prop where
  info : ∀ id : TypeId, id.index < r.types.size →
    id.index < r'.types.size ∧ r'.info id = r.info id ∧ r'.asStruct? id = r.asStruct? id
  returned : ∀ id, result = .ok id → id.index < r'.types.size
  failed : ∀ e, result = .error e →
    r'.types = r.types ∧ r'.ids = r.ids ∧ r'.structs = r.structs

theorem invariant_and_unchanged (h : Reachable model limit r) :
    Invariant (max limit 1) r ∧
      ∀ c : Call, c.Proper r → Unchanged r (c.run r).2 (c.run r).1 := by
  have hconsistent := h.consistent
  have hlimit : max r.config.maxDepth 1 = max limit 1 := by
    rw [h.config_eq]
    exact Nat.max_eq_left (Nat.le_max_right _ _)
  constructor
  · constructor
    case distinct => exact fun id id' hid hid' hty => hconsistent.injective hid hid' hty
    case lookup => exact hconsistent.lookup
    case older => exact fun id hid => (hconsistent.entry id hid).older
    case cached => exact fun id hid => hconsistent.extent_eq hid
    case align =>
      exact fun id hid => ⟨(hconsistent.entry id hid).align, (hconsistent.entry id hid).dvd⟩
    case size => exact fun id hid => (hconsistent.entry id hid).size
    case depth => exact fun id hid => hlimit ▸ (hconsistent.entry id hid).depth
  · intro c hproper
    have hkept := hconsistent.kept_run hproper
    refine ⟨fun id hid => ?_, hkept.returned, hkept.failed⟩
    exact ⟨Nat.lt_of_lt_of_le hid hkept.grows.size_le, hkept.grows.info_eq hid,
      hconsistent.asStruct_eq hkept.grows hid⟩

theorem invariant_after_pointer_to_int :
    let r := ((Call.pointerTo cInt).run (initial ⟨.lp64, 64⟩)).2
    Invariant (max 64 1) r ∧
      ∀ c : Call, c.Proper r → Unchanged r (c.run r).2 (c.run r).1 := by
  have hproper : (Call.pointerTo cInt).Proper (initial ⟨.lp64, 64⟩) :=
    ⟨by decide +kernel, by unfold Formed; decide +kernel⟩
  have hreached : Reachable .lp64 64 ((Call.pointerTo cInt).run (initial ⟨.lp64, 64⟩)).2 :=
    .call _ .new hproper
  exact invariant_and_unchanged hreached

/-- A struct is built exactly if it can be laid out as specified; it then is, and otherwise the first
defect is reported. -/
theorem buildStruct_specified (h : Reachable model limit r) (hcapacity : r.types.size < capacity)
    {ds : List MemberDecl} (hds : r.Holds ds) (name : Option String) :
    ((∃ id, (r.buildStruct name ds).1 = .ok id) ↔ r.Buildable ds) ∧
      (∀ id, (r.buildStruct name ds).1 = .ok id →
        ∃ s stop, (r.buildStruct name ds).2.asStruct? id = some s ∧ Specified r name ds stop s ∧
          (r.buildStruct name ds).2.sizeOf id = s.size ∧
          (r.buildStruct name ds).2.alignOf id = s.align) ∧
      ∀ e, (r.buildStruct name ds).1 = .error e ↔ r.Refused ds e := by
  have hconsistent := h.consistent
  have herror {e : LayoutError} (he : r.Refused ds e) : (r.buildStruct name ds).1 = .error e := by
    obtain ⟨noted, hnoted⟩ := hconsistent.buildStruct_refused hds name he
    rw [hnoted]
  by_cases hb : r.Buildable ds
  · have hbuilt := hconsistent.buildStruct_buildable hds name hcapacity hb
    have hok : (r.buildStruct name ds).1 = .ok ⟨r.types.size⟩ := by rw [hbuilt]
    refine ⟨⟨fun _ => hb, fun _ => ⟨_, hok⟩⟩, fun id hid => ?_, fun e => ⟨fun he => ?_, herror⟩⟩
    · obtain rfl : (⟨r.types.size⟩ : TypeId) = id := Except.ok.inj (hok.symm.trans hid)
      obtain ⟨names, hnames⟩ := noteNames_eq r ds
      have hinfo := info_withStruct r (r.structOf name ds)
      have hstruct := structType_withStruct r (r.structOf name ds)
      refine ⟨r.structOf name ds, _, ?_, hconsistent.specified_structOf hds name, ?_, ?_⟩
      all_goals rw [hbuilt, hnames]
      · change (r.withStruct (r.structOf name ds)).asStruct? _ = _
        simp only [asStruct?, ty, hinfo, hstruct]
      · exact congrArg TypeInfo.size hinfo
      · exact congrArg TypeInfo.align hinfo
    · rw [hok] at he
      cases he
  · obtain ⟨e, he⟩ := exists_refused hb
    have hfailed := herror he
    refine ⟨⟨fun hok => ?_, fun hb' => absurd hb' hb⟩, fun id hid => ?_,
      fun e' => ⟨fun he' => ?_, herror⟩⟩
    · obtain ⟨id, hid⟩ := hok
      rw [hfailed] at hid
      cases hid
    · rw [hfailed] at hid
      cases hid
    · obtain rfl : e = e' := Except.error.inj (hfailed.symm.trans he')
      exact he

theorem buildStruct_char_and_int :
    let ds : List MemberDecl := [⟨"c", cChar, Span.nowhere⟩, ⟨"i", cInt, Span.nowhere⟩]
    let r := initial ⟨.lp64, 64⟩
    ∃ s stop, (r.buildStruct none ds).2.asStruct? ⟨9⟩ = some s ∧ Specified r none ds stop s ∧
      (r.buildStruct none ds).2.sizeOf ⟨9⟩ = s.size ∧
      (r.buildStruct none ds).2.alignOf ⟨9⟩ = s.align := by
  intro ds r
  have hreached : Reachable .lp64 64 r := .new
  have hds : r.Holds ds := by unfold Holds; decide +kernel
  exact (buildStruct_specified hreached (by decide +kernel) hds none).2.1 ⟨9⟩ (by decide +kernel)

end MiniC.Registry
