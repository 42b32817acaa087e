import MiniC.Proofs.Layout.Leaves
import MiniC.Proofs.Typing.Ready
/-!
The limit on the nesting of types. A written type is surveyed without a registry: its size, alignment
and depth follow from those of the structs around it, unless something other than its depth is wrong
with it. Main statement: a type resolves exactly if its survey finds nothing wrong and its depth is
within the limit; a type that is only too deep is reported as such.
-/
namespace MiniC

open Layout (Extent roundUp alignments maxObjectSize)

/-! Types that enter a registry. -/

theorem Layout.Extent.stop_prefix_le {before members : List Extent}
    (h : ∀ e ∈ members, 0 < e.align) (hpre : before <+: members) :
    Extent.stop 0 before ≤ Extent.stop 0 members := by
  induction members using List.reverseRecOn with
  | nil => rw [List.prefix_nil.mp hpre]
  | append_singleton members last ih =>
    rcases List.prefix_concat_iff.mp hpre with rfl | hpre
    · exact Nat.le_refl _
    · have hrest := ih (fun e he => h e (by simp [he])) hpre
      have hlast := Layout.le_roundUp (n := Extent.stop 0 members) (h last (by simp))
      rw [Extent.stop_snoc]
      omega

theorem Layout.Extent.deepest_cons (x : Extent) (members : List Extent) :
    Extent.deepest (x :: members) = max x.depth (Extent.deepest members) := by
  induction members using List.reverseRecOn with
  | nil => simp [Extent.deepest]
  | append_singleton members last ih =>
    rw [← List.cons_append, Extent.deepest_snoc, ih, Extent.deepest_snoc, Nat.max_assoc]

namespace Registry

variable {r r' : Registry} {id : TypeId}

/-- What a pointer or an array adds to a registry. -/
structure Entered (r r' : Registry) (ty : Ty) (x : Extent) (id : TypeId) : Prop where
  consistent : r'.Consistent
  grows : Grows r r'
  ty : r'.ty id = ty
  extent : r'.extentOf id = x
  room : r'.types.size ≤ r.types.size + 1

/-- A type enters, or has entered before, exactly if it is not too deep. -/
theorem Consistent.intern_exact {ty : Ty} {info : TypeInfo} (h : r.Consistent)
    (hformed : r.Formed ty) (hroom : r.types.size < capacity) (hlimit : 1 ≤ r.config.maxDepth)
    (hinfo : r.measure ty = .ok info)
    (hcached : ∀ i, r.ty i = ty → r.extentOf i = ⟨info.size, info.align, info.depth⟩) :
    (info.depth ≤ r.config.maxDepth ∧ ∃ id r', r.intern ty = .ok (id, r') ∧
        Entered r r' ty ⟨info.size, info.align, info.depth⟩ id) ∨
      (r.config.maxDepth < info.depth ∧
        r.intern ty = .error (.typeTooDeep r.config.maxDepth Span.nowhere)) := by
  cases hfound : r.ids[ty]? with
  | some id =>
    obtain ⟨hid, hty⟩ := (h.lookup ty id).mp hfound
    have hok : r.intern ty = .ok (id, r) := by simp only [Registry.intern, hfound]
    have hentry := (h.entry id hid).depth
    have heq : r.depthOf id = info.depth := congrArg Extent.depth (hcached id hty)
    rw [Nat.max_eq_left hlimit, heq] at hentry
    exact .inl ⟨hentry, id, r, hok, h, Grows.refl r, hty, hcached id hty, Nat.le_succ _⟩
  | none =>
    rcases Nat.lt_or_ge r.config.maxDepth info.depth with hdeep | hdepth
    · have hcheck : r.checkDepth info.depth =
          .error (.typeTooDeep r.config.maxDepth Span.nowhere) := if_pos hdeep
      exact .inr ⟨hdeep, by simp only [Registry.intern, hfound, hinfo, hcheck]⟩
    · have hcheck : r.checkDepth info.depth = .ok () := if_neg (Nat.not_lt.mpr hdepth)
      have hok : r.intern ty = .ok (⟨r.types.size⟩, r.withType info) := by
        simp only [Registry.intern, hfound, hinfo, hcheck, Registry.insert]
        rw [if_pos hroom]
        rfl
      obtain ⟨hconsistent, hgrows, -⟩ := h.intern hformed hok
      have hlast := info_withType r info
      refine .inl ⟨hdepth, _, _, hok, hconsistent, hgrows, ?_, ?_, by simp [withType]⟩
      · rw [Registry.ty, hlast, measure_ty hinfo]
      · rw [extentOf, sizeOf, alignOf, depthOf, hlast]

theorem Consistent.pointerTo_exact (h : r.Consistent) (hid : id.index < r.types.size)
    (hroom : r.types.size < capacity) (hlimit : 1 ≤ r.config.maxDepth) :
    (r.depthOf id + 1 ≤ r.config.maxDepth ∧ ∃ t r', r.pointerTo id = .ok (t, r') ∧
        Entered r r' (.pointer id)
          ⟨r.config.model.pointerSize, r.config.model.pointerAlign, r.depthOf id + 1⟩ t) ∨
      (r.config.maxDepth < r.depthOf id + 1 ∧
        r.pointerTo id = .error (.typeTooDeep r.config.maxDepth Span.nowhere)) := by
  refine h.intern_exact (show r.Formed (.pointer id) from hid) hroom hlimit rfl fun i hty => ?_
  have hcached := (h.entry_of_ty (t := i) (by simp [hty])).cached
  rwa [hty] at hcached

theorem Consistent.extentOf_array {element : TypeId} {length : Nat} (h : r.Consistent)
    (hty : r.ty id = .array element length) :
    r.extentOf id = ⟨r.sizeOf element * length, r.alignOf element, r.depthOf element + 1⟩ := by
  have hcached := (h.entry_of_ty (t := id) (by simp [hty])).cached
  rwa [hty] at hcached

theorem Consistent.arrayOf_exact {length : Nat} (h : r.Consistent) (hid : id.index < r.types.size)
    (hroom : r.types.size < capacity) (hlimit : 1 ≤ r.config.maxDepth)
    (hsize : r.sizeOf id * length ≤ maxObjectSize) :
    (r.depthOf id + 1 ≤ r.config.maxDepth ∧ ∃ t r', r.arrayOf id length = .ok (t, r') ∧
        Entered r r' (.array id length) ⟨r.sizeOf id * length, r.alignOf id, r.depthOf id + 1⟩ t) ∨
      (r.config.maxDepth < r.depthOf id + 1 ∧
        r.arrayOf id length = .error (.typeTooDeep r.config.maxDepth Span.nowhere)) := by
  have hinfo : r.measure (.array id length) =
      .ok ⟨.array id length, r.sizeOf id * length, r.alignOf id, r.depthOf id + 1⟩ := by
    simp only [measure, if_pos hsize]
  exact h.intern_exact (show r.Formed (.array id length) from hid) hroom hlimit hinfo
    fun i hty => h.extentOf_array hty

theorem Consistent.arrayOf_tooLarge {length : Nat} (h : r.Consistent)
    (hsize : ¬ r.sizeOf id * length ≤ maxObjectSize) :
    r.arrayOf id length = .error (.typeTooLarge Span.nowhere) := by
  cases hfound : r.ids[Ty.array id length]? with
  | some t =>
    obtain ⟨ht, hty⟩ := (h.lookup _ t).mp hfound
    have heq : r.sizeOf t = r.sizeOf id * length := congrArg Extent.size (h.extentOf_array hty)
    exact absurd (heq ▸ (h.entry t ht).size) hsize
  | none => simp only [arrayOf, Registry.intern, hfound, measure, if_neg hsize]

/-- Members can be placed if their names differ and the struct is within the size of objects. -/
theorem Consistent.placeable_of_size {ds : List MemberDecl} (h : r.Consistent) (hds : r.Holds ds)
    (hnames : (ds.map (·.name)).Nodup)
    (hsize : (Extent.ofMembers (r.extents ds)).size ≤ maxObjectSize) : r.Placeable ds := by
  have hpos (e : Extent) (he : e ∈ r.extents ds) : 0 < e.align := by
    obtain ⟨d, hd, rfl⟩ := List.mem_map.mp he
    exact (Layout.bounds_of_mem_alignments (h.alignOf_mem hds d hd)).1
  refine ⟨hnames, fun before hbefore => Nat.le_trans ?_ hsize⟩
  have hwidest := (Layout.bounds_of_mem_alignments (h.widest_mem hds)).1
  exact Nat.le_trans (Extent.stop_prefix_le hpos (hbefore.map _)) (Layout.le_roundUp hwidest)

theorem Consistent.buildStruct_exact {ds : List MemberDecl} (h : r.Consistent) (hds : r.Holds ds)
    (name : Option String) (hroom : r.types.size < capacity) (hnames : (ds.map (·.name)).Nodup)
    (hsize : (Extent.ofMembers (r.extents ds)).size ≤ maxObjectSize) :
    (∃ t r', r.buildStruct name ds = (.ok t, r') ∧ r'.Consistent ∧ Grows r r' ∧
        r'.isStruct t = true ∧ r'.extentOf t = Extent.ofMembers (r.extents ds) ∧
        r'.types.size ≤ r.types.size + 1) ∨
      (r.config.maxDepth < (Extent.ofMembers (r.extents ds)).depth ∧
        (r.buildStruct name ds).1 = .error (.typeTooDeep r.config.maxDepth Span.nowhere)) := by
  have hplaceable := h.placeable_of_size hds hnames hsize
  rcases Nat.lt_or_ge r.config.maxDepth (Extent.ofMembers (r.extents ds)).depth with hdeep | hdepth
  · obtain ⟨noted, hnoted⟩ := h.buildStruct_refused hds name (.tooDeep hplaceable hsize hdeep)
    exact .inr ⟨hdeep, by rw [hnoted]⟩
  · have hbuilt := h.buildStruct_buildable hds name hroom ⟨hplaceable, hsize, hdepth⟩
    have hkept := h.kept_buildStruct hds name
    obtain ⟨names, hnames⟩ := noteNames_eq r ds
    have hinfo : ((r.noteNames ds).withStruct (r.structOf name ds)).info ⟨r.types.size⟩ =
        ⟨.struct ⟨r.structs.size⟩, (r.structOf name ds).size, (r.structOf name ds).align,
          (r.structOf name ds).depth⟩ := by
      rw [hnames]
      exact info_withStruct r (r.structOf name ds)
    rw [hbuilt] at hkept
    refine .inl ⟨_, _, hbuilt, hkept.consistent, hkept.grows, ?_, ?_, ?_⟩
    · simp only [isStruct, ty, hinfo]
    · simp only [extentOf, sizeOf, alignOf, depthOf, hinfo]
      rfl
    · rw [hnames]
      simp [Registry.withStruct]

/-- Members that cannot be placed are no struct. -/
theorem Consistent.buildStruct_misplaced {ds : List MemberDecl} (h : r.Consistent)
    (hds : r.Holds ds) (name : Option String)
    (hbad : ¬ ((ds.map (·.name)).Nodup ∧
      (Extent.ofMembers (r.extents ds)).size ≤ maxObjectSize)) :
    ∃ e, (r.buildStruct name ds).1 = .error e := by
  obtain ⟨e, he⟩ := exists_refused fun hb : r.Buildable ds => hbad ⟨hb.placeable.distinct, hb.size⟩
  obtain ⟨noted, hnoted⟩ := h.buildStruct_refused hds name he
  exact ⟨e, by rw [hnoted]⟩

end Registry

namespace Typing

open Syntax Check
open Registry (Grows)

/-! The survey of a type. -/

/-- The extents of the structs around a type: of the specifiers that are resolved and of the tags in
scope, and which tags are bound in the innermost frame. -/
structure Surroundings where
  specs : Nat → Option Extent
  tags : String → Option Extent
  taken : String → Bool

namespace Surroundings

def resolve (K : Surroundings) (id : Nat) (x : Extent) : Surroundings :=
  { K with specs := fun i => if id = i then some x else K.specs i }

def bind (K : Surroundings) (tag : String) (x : Extent) : Surroundings :=
  { K with
    tags := fun name => if tag = name then some x else K.tags name
    taken := fun name => tag = name || K.taken name }

end Surroundings

def intBytes (model : DataModel) : IntWidth → Nat
  | .char => 1
  | .short => 2
  | .int => 4
  | .long => model.longSize
  | .longLong => 8

/-- A body whose members have these names and extents, once all of it is surveyed. -/
def surveyStruct (K : Surroundings) (tag : Option String) (names : List String) (xs : List Extent) :
    Option (Extent × Surroundings) :=
  if names.Nodup ∧ (Extent.ofMembers xs).size ≤ maxObjectSize then
    match tag with
    | none => some (Extent.ofMembers xs, K)
    | some name =>
      if K.taken name then none else some (Extent.ofMembers xs, K.bind name (Extent.ofMembers xs))
  else none

mutual

/-- The extent of a written type, and the surroundings with what the type declares. There is none
if the type is wrong for another reason than its depth, on which there is no limit here. -/
def surveyType (model : DataModel) (K : Surroundings) : TypeExpr → Option (Extent × Surroundings)
  | ⟨kind, _, _⟩ => surveyKind model K kind

def surveyKind (model : DataModel) (K : Surroundings) : TypeKind → Option (Extent × Surroundings)
  | .void => some (⟨0, 1, 1⟩, K)
  | .int width _ => some (⟨intBytes model width, model.intAlign (intBytes model width), 1⟩, K)
  | .pointer inner =>
    match surveyType model K inner with
    | none => none
    | some (x, K) => some (⟨model.pointerSize, model.pointerAlign, x.depth + 1⟩, K)
  | .array element size =>
    match surveyType model K element with
    | none => none
    | some (x, K) =>
      match size with
      | none => none
      | some length =>
        if element.isVoid = false ∧ x.size * length ≤ maxObjectSize then
          some (⟨x.size * length, x.align, x.depth + 1⟩, K)
        else none
  | .struct spec => surveySpec model K spec

def surveySpec (model : DataModel) (K : Surroundings) : StructSpec → Option (Extent × Surroundings)
  | ⟨id, tag, members, _⟩ =>
    match K.specs id with
    | some x => some (x, K)
    | none =>
      match surveyBody model K tag members with
      | none => none
      | some (x, K) => some (x, K.resolve id x)

def surveyBody (model : DataModel) (K : Surroundings) (tag : Option String) :
    Option (List StructMember) → Option (Extent × Surroundings)
  | none =>
    match K.tags (tag.getD "") with
    | none => none
    | some x => some (x, K)
  | some members =>
    match surveyMembers model K members with
    | none => none
    | some (xs, K) => surveyStruct K tag (members.map (·.name)) xs

def surveyMembers (model : DataModel) (K : Surroundings) :
    List StructMember → Option (List Extent × Surroundings)
  | [] => some ([], K)
  | m :: ms =>
    match surveyMember model K m with
    | none => none
    | some (x, K) =>
      match surveyMembers model K ms with
      | none => none
      | some (xs, K) => some (x :: xs, K)

def surveyMember (model : DataModel) (K : Surroundings) :
    StructMember → Option (Extent × Surroundings)
  | ⟨_, ty, _⟩ => if ty.isVoid then none else surveyType model K ty

end

/-! How many types a written type can add to a registry. -/

mutual

def typesIn : TypeExpr → Nat
  | ⟨kind, _, _⟩ => typesInKind kind

def typesInKind : TypeKind → Nat
  | .void | .int .. => 0
  | .pointer inner => typesIn inner + 1
  | .array element _ => typesIn element + 1
  | .struct ⟨_, _, members, _⟩ => typesInBody members

def typesInBody : Option (List StructMember) → Nat
  | none => 0
  | some members => typesInMembers members + 1

def typesInMembers : List StructMember → Nat
  | [] => 0
  | ⟨_, ty, _⟩ :: ms => typesIn ty + typesInMembers ms

end

/-! States. -/

/-- The registry keeps its invariant, and specifiers and tags stand for structs of it. -/
structure Sane (s : State) : Prop where
  consistent : s.registry.Consistent
  tags : ∀ frame ∈ s.scope.inner :: s.scope.outer, ∀ tag ∈ frame.tags,
    s.registry.isStruct tag.ty = true
  specs : ∀ (id : Nat) (t : TypeId), s.specs[id]? = some t → s.registry.isStruct t = true

def State.surroundings (s : State) : Surroundings where
  specs id := s.specs[id]?.map s.registry.extentOf
  tags name := (s.scope.lookupTag name).map s.registry.extentOf
  taken name := (s.scope.inner.tag? name).isSome

section
variable {s s' s₁ : State} {K : Surroundings} {α β γ δ : Type} {n l : Nat}

theorem sane_initial (config : Layout.Config) : Sane (State.initial config) where
  consistent := Registry.consistent_initial config
  tags frame hframe tag htag := by
    simp [State.initial, Scope.replace, Scope.empty, ScopeFrame.put, ScopeFrame.empty] at hframe
    simp [hframe] at htag
  specs id t ht := by simp [State.initial] at ht

theorem Sane.tag? (h : Sane s) {name : String} {t : TypeId} (ht : s.scope.lookupTag name = some t) :
    s.registry.isStruct t = true := by
  obtain ⟨tag, htag, rfl⟩ := Option.map_eq_some_iff.mp ht
  obtain ⟨frame, hframe, hfind⟩ := List.exists_of_findSome?_eq_some htag
  exact h.tags frame hframe tag (List.mem_of_find?_eq_some hfind)

/-- Only the registry grew. -/
theorem Sane.grows {r : Registry} (h : Sane s) (hg : Grows s.registry r) (hr : r.Consistent) :
    Sane { s with registry := r } where
  consistent := hr
  tags frame hframe tag htag := Registry.isStruct_grows (h.tags frame hframe tag htag) hg
  specs id t ht := Registry.isStruct_grows (h.specs id t ht) hg

theorem surroundings_grows {r : Registry} (h : Sane s) (hg : Grows s.registry r) :
    { s with registry := r }.surroundings = s.surroundings := by
  refine congrArg₂ (Surroundings.mk · · _) (funext fun id => ?_) (funext fun name => ?_)
  · refine Option.map_congr fun t ht => hg.extentOf_eq ?_
    exact Registry.valid_of_isStruct (h.specs id t ht)
  · refine Option.map_congr fun t ht => hg.extentOf_eq ?_
    exact Registry.valid_of_isStruct (h.tag? ht)

/-- A type is resolved in a state that goes on from another. -/
structure After (s s' : State) (K : Surroundings) (n : Nat) : Prop where
  sane : Sane s'
  grows : Grows s.registry s'.registry
  known : s'.surroundings = K
  room : s'.registry.types.size ≤ s.registry.types.size + n

theorem After.refl (h : Sane s) (n : Nat) : After s s s.surroundings n :=
  ⟨h, Grows.refl _, rfl, Nat.le_add_right _ _⟩

theorem After.trans {K' : Surroundings} (h : After s s₁ K n) (k : After s₁ s' K' l) :
    After s s' K' (n + l) :=
  ⟨k.sane, h.grows.trans k.grows, k.known, by have := h.room; have := k.room; omega⟩

/-- A run ends as surveyed: refused for another reason than its depth, or too deep, or done. -/
inductive Exact (s : State) (n : Nat) (deep : β → Prop) (P : State → α → β → Prop) :
    Option (β × Surroundings) → Verdict α × State → Prop
  | refused {e : TypingError} {s' : State} : Exact s n deep P none (.error e, s')
  | tooDeep {x : β} {K : Surroundings} {span : Span} {s' : State} (at_ : deep x) :
      Exact s n deep P (some (x, K))
        (.error (.layout (.typeTooDeep s.registry.config.maxDepth span)), s')
  | done {x : β} {K : Surroundings} {a : α} {s' : State} (after : After s s' K n) (holds : P s' a x) :
      Exact s n deep P (some (x, K)) (.ok a, s')

variable {deep : β → Prop} {P : State → α → β → Prop} {found : Option (β × Surroundings)}
  {deep' : δ → Prop} {P' : State → γ → δ → Prop} {found' : Option (δ × Surroundings)}

theorem Exact.later {run : Verdict γ × State} (h : After s s₁ K l)
    (hrun : Exact s₁ n deep' P' found' run) : Exact s (l + n) deep' P' found' run := by
  cases hrun with
  | refused => exact .refused
  | tooDeep hdeep =>
    rw [h.grows.config]
    exact .tooDeep hdeep
  | done after holds => exact .done (h.trans after) holds

/-- What goes on from a run that is done decides; what is wrong with a part is wrong with the whole. -/
theorem Exact.bind {c : Check α} {k : α → Check γ} (h : Exact s n deep P found (outcome c s))
    (hrefused : found = none → found' = none)
    (hdeep : ∀ x K, found = some (x, K) → deep x → ∀ y ∈ found', deep' y.1)
    (hdone : ∀ x K a s₁, found = some (x, K) → After s s₁ K n → P s₁ a x →
      Exact s₁ l deep' P' found' (outcome (k a) s₁)) :
    Exact s (n + l) deep' P' found' (outcome (c >>= k) s) := by
  rw [outcome_bind]
  generalize outcome c s = run at h
  cases h with
  | refused =>
    rw [hrefused rfl]
    exact .refused
  | tooDeep hx =>
    cases hfound : found' with
    | none => exact .refused
    | some y => exact .tooDeep (hdeep _ _ rfl hx y hfound)
  | done after holds => exact (hdone _ _ _ _ rfl after holds).later after

/-! Resolution. -/

/-- What a type resolves to. -/
structure Resolved (void : Bool) (s : State) (t : TypeId) (x : Extent) : Prop where
  valid : s.registry.Valid t
  extent : s.registry.extentOf t = x
  void : s.registry.isVoid t = void

/-- At this depth the type is nested too deeply. -/
def Deep (s : State) (depth : Nat) (x : Extent) : Prop :=
  s.registry.config.maxDepth + 1 < depth + x.depth

theorem Resolved.of_isStruct {t : TypeId} (h : s.registry.isStruct t = true) :
    Resolved false s t (s.registry.extentOf t) := by
  refine ⟨Registry.valid_of_isStruct h, rfl, ?_⟩
  unfold Registry.isStruct at h
  unfold Registry.isVoid
  cases hty : s.registry.ty t <;> simp [hty] at h ⊢

theorem intType_eq (r : Registry) (width : IntWidth) (signed : Bool) :
    intType r width signed = Registry.int (intBytes r.config.model width) signed := by
  cases width <;> rfl

theorem resolved_intType (h : Sane s) (width : IntWidth) (signed : Bool) :
    Resolved false s (intType s.registry width signed)
      ⟨intBytes s.registry.config.model width,
        s.registry.config.model.intAlign (intBytes s.registry.config.model width), 1⟩ := by
  have hbytes : intBytes s.registry.config.model width ∈ Registry.widths := by
    cases width <;> cases s.registry.config.model <;> decide
  have hty : s.registry.ty (intType s.registry width signed) =
      .int (intBytes s.registry.config.model width) signed := by
    rw [intType_eq]
    exact h.consistent.scalars.ty_int hbytes
  have hcached := (h.consistent.entry_of_ty (t := intType s.registry width signed) (by simp [hty])).cached
  rw [hty] at hcached
  exact ⟨Registry.valid_of_ty (by simp [hty]), hcached, by simp only [Registry.isVoid, hty]⟩

theorem Sane.depth_pos (h : Sane s) {t : TypeId} (ht : s.registry.isStruct t = true) :
    1 ≤ s.registry.depthOf t := by
  unfold Registry.isStruct at ht
  cases hty : s.registry.ty t with
  | struct id =>
    have hcached := (h.consistent.entry_of_ty (t := t) (by simp [hty])).cached
    rw [hty] at hcached
    have hdepth : s.registry.depthOf t = 1 + _ := congrArg Extent.depth hcached
    omega
  | _ => simp [hty] at ht

/-- Every type is at least one level deep. -/
theorem surveySpec_pos (h : Sane s) {spec : StructSpec} {x : Extent}
    (hx : surveySpec s.registry.config.model s.surroundings spec = some (x, K)) : 1 ≤ x.depth := by
  obtain ⟨id, tag, members, span⟩ := spec
  rw [surveySpec] at hx
  cases hspec : s.specs[id]? with
  | some t =>
    simp only [State.surroundings, hspec, Option.map_some, Option.some.injEq, Prod.mk.injEq] at hx
    obtain ⟨rfl, -⟩ := hx
    exact h.depth_pos (h.specs id t hspec)
  | none =>
    have hnone : s.surroundings.specs id = none := by simp [State.surroundings, hspec]
    simp only [hnone] at hx
    cases members with
    | none =>
      rw [surveyBody] at hx
      cases htag : s.scope.lookupTag (tag.getD "") with
      | none => simp [State.surroundings, htag] at hx
      | some t =>
        simp only [State.surroundings, htag, Option.map_some, Option.some.injEq, Prod.mk.injEq] at hx
        obtain ⟨rfl, -⟩ := hx
        exact h.depth_pos (h.tag? htag)
    | some ms =>
      have hbody (xs : List Extent) : 1 ≤ (Extent.ofMembers xs).depth := by
        simp only [Extent.ofMembers]
        omega
      rw [surveyBody] at hx
      simp only [surveyStruct] at hx
      grind

theorem surveyType_pos (h : Sane s) {ty : TypeExpr} {x : Extent}
    (hx : surveyType s.registry.config.model s.surroundings ty = some (x, K)) : 1 ≤ x.depth := by
  obtain ⟨kind, qualifiers, span⟩ := ty
  rw [surveyType] at hx
  cases kind with
  | struct spec => exact surveySpec_pos h (by rwa [surveyKind] at hx)
  | _ => rw [surveyKind] at hx; grind

theorem After.deep_eq {depth : Nat} (h : After s s₁ K n) : Deep s₁ depth = Deep s depth := by
  unfold Deep
  rw [h.grows.config]

theorem Exact.pure {a : α} {x : β} (h : Sane s) (n : Nat) (holds : P s a x) :
    Exact s n deep P (some (x, s.surroundings)) (outcome (Pure.pure a : Check α) s) :=
  .done (.refl h n) holds

/-- A pointer or an array enters the registry as surveyed. -/
theorem Exact.intern {f : Registry → Except LayoutError (TypeId × Registry)} {ty : Ty} {x : Extent}
    {span : Span} {depth : Nat} (h : Sane s) (hdepth : 1 ≤ depth) (hvoid : ty ≠ .void)
    (hty : (x.depth ≤ s.registry.config.maxDepth ∧ ∃ t r, f s.registry = .ok (t, r) ∧
        Registry.Entered s.registry r ty x t) ∨
      (s.registry.config.maxDepth < x.depth ∧
        f s.registry = .error (.typeTooDeep s.registry.config.maxDepth Span.nowhere))) :
    Exact s 1 (Deep s depth) (Resolved false) (some (x, s.surroundings))
      (outcome (Check.intern f span) s) := by
  rw [outcome_intern]
  rcases hty with ⟨-, t, r, hok, hentered⟩ | ⟨hdeep, herror⟩
  · rw [hok]
    refine .done ⟨h.grows hentered.grows hentered.consistent, hentered.grows,
      surroundings_grows h hentered.grows, hentered.room⟩
      ⟨Registry.valid_of_ty (by rwa [hentered.ty]), hentered.extent, ?_⟩
    have hlast : r.ty t = ty := hentered.ty
    cases ty with
    | void => exact absurd rfl hvoid
    | _ => simp only [Registry.isVoid, hlast]
  · rw [herror]
    refine .tooDeep ?_
    simp only [Deep]
    omega

theorem exact_pointerTo {t : TypeId} {x : Extent} {span : Span} {depth : Nat} {void : Bool}
    (h : Sane s) (hdepth : 1 ≤ depth) (hlimit : depth ≤ s.registry.config.maxDepth)
    (hroom : s.registry.types.size < Registry.capacity) (ht : Resolved void s t x) :
    Exact s 1 (Deep s depth) (Resolved false)
      (some (⟨s.registry.config.model.pointerSize, s.registry.config.model.pointerAlign, x.depth + 1⟩,
        s.surroundings)) (outcome (Check.pointerTo t span) s) := by
  obtain rfl := ht.extent
  exact .intern h hdepth (nofun : Ty.pointer t ≠ .void)
    (h.consistent.pointerTo_exact ht.valid hroom (hdepth.trans hlimit))

theorem exact_arrayOf {t : TypeId} {x : Extent} {length : Nat} {span : Span} {depth : Nat}
    {void : Bool} (h : Sane s) (hdepth : 1 ≤ depth) (hlimit : depth ≤ s.registry.config.maxDepth)
    (hroom : s.registry.types.size < Registry.capacity) (ht : Resolved void s t x) :
    Exact s 1 (Deep s depth) (Resolved false)
      (if x.size * length ≤ maxObjectSize then
        some (⟨x.size * length, x.align, x.depth + 1⟩, s.surroundings) else none)
      (outcome (Check.arrayOf t length span) s) := by
  obtain rfl := ht.extent
  by_cases hsize : s.registry.sizeOf t * length ≤ maxObjectSize
  · rw [if_pos (show (s.registry.extentOf t).size * length ≤ maxObjectSize from hsize)]
    exact .intern h hdepth (nofun : Ty.array t length ≠ .void)
      (h.consistent.arrayOf_exact ht.valid hroom (hdepth.trans hlimit) hsize)
  · rw [if_neg (show ¬ (s.registry.extentOf t).size * length ≤ maxObjectSize from hsize)]
    have herror : s.registry.arrayOf t length = .error (.typeTooLarge Span.nowhere) :=
      h.consistent.arrayOf_tooLarge hsize
    rw [Check.arrayOf, outcome_intern, herror]
    exact .refused

/-! A struct with its tag and its specifier. -/

theorem surroundings_defineTag {tag : StructTag} :
    { s with scope := { s.scope with inner := s.scope.inner.putTag tag } }.surroundings =
      s.surroundings.bind tag.name (s.registry.extentOf tag.ty) := by
  refine congrArg₂ (Surroundings.mk _) (funext fun name => ?_) (funext fun name => ?_)
  · simp only [Scope.lookupTag, List.findSome?_cons, ScopeFrame.tag?_putTag, State.surroundings]
    by_cases hname : tag.name = name <;> simp [hname]
  · simp only [ScopeFrame.tag?_putTag]
    by_cases hname : tag.name = name <;> simp [hname, State.surroundings]

theorem surroundings_insert (id : Nat) (t : TypeId) :
    { s with specs := s.specs.insert id t }.surroundings =
      s.surroundings.resolve id (s.registry.extentOf t) := by
  refine congrArg (Surroundings.mk · _ _) (funext fun i => ?_)
  simp only [Table.getElem?_insert, beq_iff_eq, State.surroundings]
  by_cases hid : id = i <;> simp [hid]

theorem Sane.defineTag {tag : StructTag} (h : Sane s)
    (ht : s.registry.isStruct tag.ty = true) :
    Sane { s with scope := { s.scope with inner := s.scope.inner.putTag tag } } where
  consistent := h.consistent
  tags frame hframe := by
    rcases List.mem_cons.mp hframe with rfl | hframe
    · exact List.forall_mem_cons.mpr ⟨ht, h.tags _ List.mem_cons_self⟩
    · exact h.tags frame (List.mem_cons_of_mem _ hframe)
  specs := h.specs

theorem Sane.insert {id : Nat} {t : TypeId} (h : Sane s) (ht : s.registry.isStruct t = true) :
    Sane { s with specs := s.specs.insert id t } where
  consistent := h.consistent
  tags := h.tags
  specs i u hu := by
    rw [Table.getElem?_insert] at hu
    split at hu
    · cases hu
      exact ht
    · exact h.specs i u hu

/-- What a struct resolves to. -/
structure ResolvedStruct (s : State) (t : TypeId) (x : Extent) : Prop where
  isStruct : s.registry.isStruct t = true
  extent : s.registry.extentOf t = x

theorem ResolvedStruct.resolved {t : TypeId} {x : Extent} (h : ResolvedStruct s t x) :
    Resolved false s t x := by
  obtain ⟨hstruct, rfl⟩ := h
  exact .of_isStruct hstruct

theorem Exact.imp {Q : State → α → β → Prop} {run : Verdict α × State}
    (h : Exact s n deep P found run) (hQ : ∀ s a x, P s a x → Q s a x) :
    Exact s n deep Q found run := by
  cases h with
  | refused => exact .refused
  | tooDeep hdeep => exact .tooDeep hdeep
  | done after holds => exact .done after (hQ _ _ _ holds)

/-- What the members of a struct resolve to. -/
structure ResolvedMembers (names : List String) (s : State) (ds : List MemberDecl)
    (xs : List Extent) : Prop where
  holds : s.registry.Holds ds
  extents : s.registry.extents ds = xs
  names : ds.map (·.name) = names

theorem outcome_checkWritten (depth : Nat) (span : Span) (s : State) :
    outcome (checkWritten depth span) s =
      (if s.registry.config.maxDepth < depth then
        .error (.layout (.typeTooDeep s.registry.config.maxDepth span)) else .ok (), s) := by
  unfold checkWritten
  rw [outcome_registry_bind]
  dsimp only
  split <;> rfl

theorem outcome_checkElement (t : TypeId) (span : Span) (s : State) :
    outcome (checkElement t span) s =
      (if s.registry.isVoid t then .error (.type .voidElement span) else .ok (), s) := by
  unfold checkElement
  rw [outcome_registry_bind]
  split <;> rfl

/-- Members that are resolved are built into a struct, which is bound to its tag. -/
theorem exact_close {ds : List MemberDecl} {xs : List Extent} {names : List String} {depth : Nat}
    (h : Sane s) (hdepth : 1 ≤ depth) (hroom : s.registry.types.size < Registry.capacity)
    (hds : ResolvedMembers names s ds xs) (tag : Option String) (span : Span) :
    Exact s 1 (Deep s depth) ResolvedStruct (surveyStruct s.surroundings tag names xs) (outcome (do
        let t ← Check.buildStruct tag ds span
        match tag with
        | some name => Check.enter (·.defineTag ⟨name, t, span⟩) span
        | none => pure ()
        return t) s) := by
  obtain ⟨hholds, rfl, rfl⟩ := hds
  rw [outcome_bind, outcome_buildStruct]
  unfold surveyStruct
  by_cases hplaced : (ds.map (·.name)).Nodup ∧
      (Extent.ofMembers (s.registry.extents ds)).size ≤ maxObjectSize
  · rw [if_pos hplaced]
    rcases h.consistent.buildStruct_exact hholds tag hroom hplaced.1 hplaced.2 with
      ⟨t, r, hbuilt, hr, hgrows, hstruct, hextent, hsize⟩ | ⟨hdeep, herror⟩
    · have hknown := surroundings_grows h hgrows
      have hsane := h.grows hgrows hr
      rw [hbuilt]
      cases tag with
      | none => exact .done ⟨hsane, hgrows, hknown, hsize⟩ ⟨hstruct, hextent⟩
      | some name =>
        simp only [Except.mapError]
        rw [outcome_bind, outcome_enter]
        cases htag : s.scope.inner.tag? name with
        | some previous => simpa [Scope.defineTag, State.surroundings, htag] using .refused
        | none =>
          have hnew : s.surroundings.taken name = false := by simp [State.surroundings, htag]
          simp only [Scope.defineTag, htag, hnew, Bool.false_eq_true, if_false]
          refine .done ⟨hsane.defineTag hstruct, hgrows, ?_, hsize⟩
            ⟨hstruct, hextent⟩
          rw [← hknown, ← hextent]
          exact surroundings_defineTag (s := { s with registry := r })
    · have hrun : (s.registry.buildStruct tag ds).1.mapError (TypingError.ofLayout · span) =
          .error (.layout (.typeTooDeep s.registry.config.maxDepth span)) := by
        rw [herror]
        rfl
      rw [hrun]
      have hbelow : Deep s depth (Extent.ofMembers (s.registry.extents ds)) := by
        simp only [Deep]
        omega
      cases tag with
      | none => exact .tooDeep hbelow
      | some name =>
        dsimp only
        split
        · exact .refused
        · exact .tooDeep hbelow
  · rw [if_neg hplaced]
    obtain ⟨e, he⟩ := h.consistent.buildStruct_misplaced hholds tag hplaced
    rw [he]
    exact .refused

mutual

theorem exact_resolveAt {depth : Nat} (hdepth : 1 ≤ depth) : ∀ {s : State} (ty : TypeExpr), Sane s →
    s.registry.types.size + typesIn ty ≤ Registry.capacity →
    Exact s (typesIn ty) (Deep s depth) (Resolved ty.isVoid)
      (surveyType s.registry.config.model s.surroundings ty) (outcome (resolveAt depth ty) s)
  | s, ⟨kind, qualifiers, span⟩, h, hroom => by
    rw [typesIn] at hroom ⊢
    rw [resolveAt, outcome_bind, outcome_checkWritten]
    by_cases hlimit : s.registry.config.maxDepth < depth
    · rw [if_pos hlimit]
      dsimp only
      cases hfound : surveyType s.registry.config.model s.surroundings ⟨kind, qualifiers, span⟩ with
      | none => exact .refused
      | some found =>
        have hpos := surveyType_pos h hfound
        exact .tooDeep (by simp only [Deep]; omega)
    · rw [if_neg hlimit, surveyType]
      exact exact_resolveKind hdepth span kind h (Nat.le_of_not_lt hlimit) hroom

theorem exact_resolveKind {depth : Nat} (hdepth : 1 ≤ depth) (span : Span) : ∀ {s : State}
    (kind : TypeKind), Sane s → depth ≤ s.registry.config.maxDepth →
    s.registry.types.size + typesInKind kind ≤ Registry.capacity →
    Exact s (typesInKind kind) (Deep s depth) (Resolved (TypeExpr.isVoid ⟨kind, {}, span⟩))
      (surveyKind s.registry.config.model s.surroundings kind) (outcome (resolveKind depth span kind) s)
  | s, .void, h, _, _ => by
    rw [resolveKind, surveyKind]
    have hty := h.consistent.scalars.ty_void
    refine .pure h _ ⟨?_, ?_, by simp only [Registry.isVoid, hty, TypeExpr.isVoid]⟩
    · exact Nat.lt_of_lt_of_le (Nat.zero_lt_succ 8) h.consistent.scalars.size_le
    · have hinfo : s.registry.info Registry.void = Registry.scalarInfo s.registry.config.model .void :=
        h.consistent.scalars.info_scalar rfl
      simp only [Registry.extentOf, Registry.sizeOf, Registry.alignOf, Registry.depthOf, hinfo]
      rfl
  | s, .int width signed, h, _, _ => by
    rw [resolveKind, surveyKind, outcome_registry_bind]
    exact .pure h _ (resolved_intType h width signed)
  | s, .pointer inner, h, hlimit, hroom => by
    rw [resolveKind, surveyKind]
    rw [typesInKind] at hroom ⊢
    refine (exact_resolveAt (Nat.le_succ_of_le hdepth) inner h (by omega)).bind ?_ ?_ ?_
    · intro hnone
      rw [hnone]
    · intro x K hfound hdeep y hy
      rw [hfound] at hy
      cases hy
      simp only [Deep] at hdeep ⊢
      omega
    · intro x K t s₁ hfound hafter ht
      have hroom' := hafter.room
      rw [hfound, ← hafter.deep_eq, ← hafter.known]
      dsimp only
      rw [← hafter.grows.config]
      exact exact_pointerTo hafter.sane hdepth (hafter.grows.config ▸ hlimit) (by omega) ht
  | s, .array element size, h, hlimit, hroom => by
    rw [resolveKind, surveyKind]
    rw [typesInKind] at hroom ⊢
    refine (exact_resolveAt (Nat.le_succ_of_le hdepth) element h (by omega)).bind ?_ ?_ ?_
    · intro hnone
      rw [hnone]
    · intro x K hfound hdeep y hy
      rw [hfound] at hy
      cases size with
      | none => cases hy
      | some length =>
        simp only [Option.mem_def, Option.ite_none_right_eq_some, Option.some.injEq] at hy
        obtain ⟨-, rfl⟩ := hy
        simp only [Deep] at hdeep ⊢
        omega
    · intro x K t s₁ hfound hafter ht
      have hroom' := hafter.room
      rw [hfound, ← hafter.deep_eq, ← hafter.known, outcome_bind, outcome_checkElement, ht.void]
      cases size with
      | none => cases element.isVoid <;> exact .refused
      | some length =>
        cases element.isVoid with
        | true => simpa using .refused
        | false =>
          simp only [true_and, Bool.false_eq_true, if_false]
          exact exact_arrayOf hafter.sane hdepth (hafter.grows.config ▸ hlimit) (by omega) ht
  | s, .struct spec, h, hlimit, hroom => by
    rw [resolveKind, surveyKind]
    exact (exact_resolveSpec hdepth spec h hlimit hroom).imp fun _ _ _ ht => ht.resolved

theorem exact_resolveSpec {depth : Nat} (hdepth : 1 ≤ depth) : ∀ {s : State} (spec : StructSpec),
    Sane s → depth ≤ s.registry.config.maxDepth →
    s.registry.types.size + typesInKind (.struct spec) ≤ Registry.capacity →
    Exact s (typesInKind (.struct spec)) (Deep s depth) ResolvedStruct
      (surveySpec s.registry.config.model s.surroundings spec) (outcome (resolveSpec depth spec) s)
  | s, ⟨id, tag, members, span⟩, h, hlimit, hroom => by
    rw [resolveSpec, surveySpec, outcome_get_bind]
    rw [typesInKind] at hroom ⊢
    cases hspec : s.specs[id]? with
    | some t =>
      have hknown : s.surroundings.specs id = some (s.registry.extentOf t) := by
        simp only [State.surroundings, hspec, Option.map_some]
      rw [hknown]
      exact .pure h _ ⟨h.specs id t hspec, rfl⟩
    | none =>
      have hunknown : s.surroundings.specs id = none := by
        simp only [State.surroundings, hspec, Option.map_none]
      rw [hunknown]
      refine (exact_resolveBody hdepth tag span members h hlimit hroom).bind (l := 0) ?_ ?_ ?_
      · intro hnone
        rw [hnone]
      · intro x K hfound hdeep y hy
        rw [hfound] at hy
        cases hy
        exact hdeep
      · intro x K t s₁ hfound hafter ht
        rw [hfound, ← ht.extent, ← hafter.known]
        dsimp only
        rw [← surroundings_insert]
        exact .done ⟨hafter.sane.insert ht.isStruct, Grows.refl _, rfl, Nat.le_refl _⟩
          ⟨ht.isStruct, rfl⟩

theorem exact_resolveBody {depth : Nat} (hdepth : 1 ≤ depth) (tag : Option String) (span : Span) :
    ∀ {s : State} (members : Option (List StructMember)), Sane s → depth ≤ s.registry.config.maxDepth →
    s.registry.types.size + typesInBody members ≤ Registry.capacity →
    Exact s (typesInBody members) (Deep s depth) ResolvedStruct
      (surveyBody s.registry.config.model s.surroundings tag members)
      (outcome (resolveBody depth tag span members) s)
  | s, none, h, hlimit, hroom => by
    rw [resolveBody, surveyBody, outcome_get_bind]
    cases htag : s.scope.lookupTag (tag.getD "") with
    | none =>
      have hunknown : s.surroundings.tags (tag.getD "") = none := by
        simp only [State.surroundings, htag, Option.map_none]
      rw [hunknown]
      exact .refused
    | some t =>
      have hknown : s.surroundings.tags (tag.getD "") = some (s.registry.extentOf t) := by
        simp only [State.surroundings, htag, Option.map_some]
      rw [hknown]
      exact .pure h _ ⟨h.tag? htag, rfl⟩
  | s, some ms, h, hlimit, hroom => by
    rw [resolveBody, surveyBody]
    rw [typesInBody] at hroom ⊢
    refine (exact_resolveMembers (Nat.le_succ_of_le hdepth) ms h (by omega)).bind ?_ ?_ ?_
    · intro hnone
      rw [hnone]
    · intro xs K hfound hdeep y hy
      have hbelow : Deep s depth (Extent.ofMembers xs) := by
        simp only [Deep, Extent.ofMembers]
        omega
      rw [hfound] at hy
      simp only [surveyStruct] at hy
      grind
    · intro xs K ds s₁ hfound hafter hds
      have hroom' := hafter.room
      rw [hfound, ← hafter.deep_eq, ← hafter.known]
      exact exact_close hafter.sane hdepth (by omega) hds tag span

theorem exact_resolveMembers {depth : Nat} (hdepth : 1 ≤ depth) : ∀ {s : State}
    (ms : List StructMember), Sane s → s.registry.types.size + typesInMembers ms ≤ Registry.capacity →
    Exact s (typesInMembers ms)
      (fun xs => s.registry.config.maxDepth + 1 < depth + Extent.deepest xs)
      (ResolvedMembers (ms.map (·.name)))
      (surveyMembers s.registry.config.model s.surroundings ms) (outcome (resolveMembers depth ms) s)
  | s, [], h, hroom => by
    rw [resolveMembers, surveyMembers]
    exact .pure h _ ⟨nofun, rfl, rfl⟩
  | s, ⟨name, ty, span⟩ :: ms, h, hroom => by
    rw [resolveMembers, surveyMembers]
    rw [typesInMembers] at hroom ⊢
    refine (exact_resolveMember hdepth ⟨name, ty, span⟩ h (by dsimp only; omega)).bind ?_ ?_ ?_
    · intro hnone
      rw [hnone]
    · intro x K hfound hdeep y hy
      rw [hfound] at hy
      cases hrest : surveyMembers s.registry.config.model K ms with
      | none => simp [hrest] at hy
      | some rest =>
        simp only [hrest, Option.mem_def, Option.some.injEq] at hy
        subst hy
        simp only [Deep] at hdeep
        simp only [Extent.deepest_cons]
        omega
    · intro x K d s₁ hfound hafter hd
      have hroom' : s₁.registry.types.size ≤ s.registry.types.size + typesIn ty := hafter.room
      rw [hfound, ← hafter.known, ← hafter.grows.config]
      dsimp only
      refine (exact_resolveMembers hdepth ms hafter.sane (by omega)).bind (l := 0) ?_ ?_ ?_
      · intro hnone
        rw [hnone]
      · intro xs K' hrest hdeep y hy
        rw [hrest] at hy
        cases hy
        simp only [Extent.deepest_cons]
        omega
      · intro xs K' ds s₂ hrest hafter' hds
        rw [hrest, ← hafter'.known]
        obtain ⟨hname, hvalid, rfl⟩ := hd
        obtain ⟨hholds, rfl, hnames⟩ := hds
        refine .pure hafter'.sane _ ⟨?_, ?_, ?_⟩
        · exact List.forall_mem_cons.mpr ⟨hafter'.grows.valid hvalid, hholds⟩
        · show s₂.registry.extentOf d.ty :: s₂.registry.extents ds = _
          rw [hafter'.grows.extentOf_eq hvalid]
        · simp only [List.map_cons, hname, hnames]

theorem exact_resolveMember {depth : Nat} (hdepth : 1 ≤ depth) : ∀ {s : State} (m : StructMember),
    Sane s → s.registry.types.size + typesIn m.ty ≤ Registry.capacity →
    Exact s (typesIn m.ty) (Deep s depth)
      (fun s d x => d.name = m.name ∧ s.registry.Valid d.ty ∧ s.registry.extentOf d.ty = x)
      (surveyMember s.registry.config.model s.surroundings m) (outcome (resolveMember depth m) s)
  | s, ⟨name, ty, span⟩, h, hroom => by
    rw [resolveMember, surveyMember]
    refine (exact_resolveAt hdepth ty h hroom).bind (l := 0) ?_ ?_ ?_
    · intro hnone
      rw [hnone, ite_self]
    · intro x K hfound hdeep y hy
      rw [hfound] at hy
      simp only [Option.mem_def, Option.ite_none_left_eq_some, Option.some.injEq] at hy
      obtain ⟨-, rfl⟩ := hy
      exact hdeep
    · intro x K t s₁ hfound hafter ht
      rw [hfound, ← hafter.known, outcome_registry_bind, ht.void]
      cases ty.isVoid with
      | true => exact .refused
      | false => exact .pure hafter.sane _ ⟨rfl, ht.valid, ht.extent⟩

end

theorem Ready.sane {C : Site} {G : List Symbol} (h : Ready C G s) : Sane s :=
  ⟨h.sound.consistent, h.tags, h.specs⟩

/-- What is resolved was not too deep as written. -/
theorem one_le_of_resolveAt {ty : TypeExpr} {t : TypeId} {depth : Nat}
    (h : (outcome (resolveAt depth ty) s).1 = .ok t) : depth ≤ s.registry.config.maxDepth := by
  obtain ⟨kind, qualifiers, span⟩ := ty
  rw [resolveAt, outcome_bind, outcome_checkWritten] at h
  by_cases hlimit : s.registry.config.maxDepth < depth
  · rw [if_pos hlimit] at h
    cases h
  · exact Nat.le_of_not_lt hlimit

/-- The limit admits exactly what is nested no deeper. -/
structure Guarded (limit : Nat) (x : Extent) (run : Verdict TypeId × State) : Prop where
  resolves : (∃ t, run.1 = .ok t) ↔ x.depth ≤ limit
  reported : limit < x.depth → ∃ span, run.1 = .error (.layout (.typeTooDeep limit span))
  depth : ∀ t, run.1 = .ok t → run.2.registry.depthOf t = x.depth

/-- With nothing else wrong, a type resolves exactly up to the limit on its nesting; and the survey
finds all else that can be wrong with it. -/
theorem resolve_guarded (h : Sane s) (ty : TypeExpr)
    (hroom : s.registry.types.size + typesIn ty ≤ Registry.capacity) :
    (∀ x K, surveyType s.registry.config.model s.surroundings ty = some (x, K) →
        Guarded s.registry.config.maxDepth x (outcome (resolve ty) s)) ∧
      (surveyType s.registry.config.model s.surroundings ty = none →
        ∃ e, (outcome (resolve ty) s).1 = .error e) := by
  have hexact := exact_resolveAt (Nat.le_refl 1) ty h hroom
  have hlimit (t : TypeId) (ht : (outcome (resolve ty) s).1 = .ok t) :
      1 ≤ s.registry.config.maxDepth := one_le_of_resolveAt ht
  generalize hrun : outcome (resolve ty) s = run at hlimit
  rw [show outcome (resolveAt 1 ty) s = run from hrun] at hexact
  generalize surveyType s.registry.config.model s.surroundings ty = found at hexact ⊢
  cases hexact with
  | refused =>
    refine ⟨fun x K hfound => ?_, fun _ => ⟨_, rfl⟩⟩
    cases hfound
  | tooDeep hdeep =>
    refine ⟨fun x K hfound => ?_, fun hnone => nomatch hnone⟩
    cases hfound
    simp only [Deep] at hdeep
    exact ⟨⟨fun ⟨t, ht⟩ => (nomatch ht), fun hle => absurd hdeep (by omega)⟩,
      fun _ => ⟨_, rfl⟩, fun t ht => nomatch ht⟩
  | @done _ _ t s' after holds =>
    refine ⟨fun x K hfound => ?_, fun hnone => nomatch hnone⟩
    cases hfound
    obtain rfl := holds.extent
    have hle := (after.sane.consistent.entry t holds.valid).depth
    rw [after.grows.config, Nat.max_eq_left (hlimit t rfl)] at hle
    refine ⟨⟨fun _ => hle, fun _ => ⟨t, rfl⟩⟩, fun hdeep => absurd hdeep (Nat.not_lt.mpr hle), ?_⟩
    rintro _ ⟨⟩
    rfl

end

/-- A pointer to a struct with one member is three levels deep, and so too deep for two. -/
theorem pointer_to_struct_guarded :
    let body : TypeExpr :=
      ⟨.struct ⟨0, some "s", some [⟨"a", ⟨.int .int true, {}, Span.nowhere⟩, Span.nowhere⟩],
        Span.nowhere⟩, {}, Span.nowhere⟩
    Guarded 2 ⟨8, 8, 3⟩ (outcome (resolve (body.pointerTo {} Span.nowhere))
      (State.initial ⟨.lp64, 2⟩)) := by
  intro body
  have hroom : (State.initial ⟨.lp64, 2⟩).registry.types.size +
      typesIn (body.pointerTo {} Span.nowhere) ≤ Registry.capacity := by decide +kernel
  have hsurvey : (surveyType .lp64 (State.initial ⟨.lp64, 2⟩).surroundings
      (body.pointerTo {} Span.nowhere)).map (·.1) = some ⟨8, 8, 3⟩ := by
    decide +kernel
  obtain ⟨⟨x, K⟩, hfound, rfl⟩ := Option.map_eq_some_iff.mp hsurvey
  exact (resolve_guarded (sane_initial ⟨.lp64, 2⟩) _ hroom).1 _ K hfound

end Typing
end MiniC
