import MiniC.Proofs.Syntax.Tags
import MiniC.Proofs.Typing.Runs
import MiniC.Proofs.Typing.Traces
/-!
Struct types and struct specifiers. Main statements: a run that resolves all that a script asks for
walks through its tags, each body is a struct of its own, laid out as it says, whatever shares a
specifier has the type that was found first, and what has no body has the type of the body that its
tag is bound to.
-/
namespace MiniC

namespace Registry

variable {r r' : Registry}

theorem placeAll_ok {ds : List MemberDecl} {d d' : StructDraft} (h : r.placeAll d ds = (.ok d', r')) :
    (∃ names, r' = { r with names }) ∧
      d'.members.map (fun m => (m.name, m.ty)) =
        d.members.map (fun m => (m.name, m.ty)) ++ ds.map fun d => (d.name, d.ty) := by
  induction ds generalizing r d with
  | nil =>
    cases h
    exact ⟨⟨r'.names, rfl⟩, (List.append_nil _).symm⟩
  | cons m ms ih =>
    rw [placeAll] at h
    cases hplace : d.place (r.noteName m.name) m with
    | error e =>
      simp only [hplace] at h
      cases h
    | ok next =>
      simp only [hplace] at h
      obtain ⟨⟨names, rfl⟩, hmembers⟩ := ih h
      refine ⟨⟨names, rfl⟩, ?_⟩
      unfold StructDraft.place at hplace
      split at hplace
      · cases hplace
      · split at hplace
        · cases hplace
        · cases hplace
          rw [hmembers]
          simp

/-- A struct that is built is a new one, with the members that were asked for. -/
theorem entered_of_buildStruct {name : Option String} {ds : List MemberDecl} {id : TypeId}
    (h : r.buildStruct name ds = (.ok id, r')) :
    Grows r r' ∧ ∃ st : StructType, r'.structs = r.structs.push st ∧ st.name = name ∧
      st.members.map (fun m => (m.name, m.ty)) = ds.map (fun d => (d.name, d.ty)) ∧
      r'.ids = r.ids.insert (.struct ⟨r.structs.size⟩) id := by
  unfold buildStruct at h
  split at h
  · cases h
  · rename_i d _ hplace
    obtain ⟨⟨names, rfl⟩, hmembers⟩ := placeAll_ok hplace
    unfold finishStruct at h
    split at h
    · cases h
    · rename_i st hfinish
      unfold StructDraft.finish at hfinish
      split at hfinish
      · cases hfinish
      · cases hfinish
        unfold addStruct at h
        split at h
        · rename_i hadd
          cases h
        · rename_i hadd
          split at hadd
          · cases hadd
          · unfold insert at hadd
            split at hadd
            · cases hadd
              cases h
              refine ⟨⟨⟨rfl, ?_⟩, ?_⟩, _, rfl, rfl, by simpa [StructDraft.empty] using hmembers, rfl⟩
              · simp
              · simp
            · cases hadd

end Registry

namespace Typing

open Syntax Check
open Registry (Interns)

/-! What is written stands for a type. -/

/-- What written types are read with: the integers, the types that are built from others, and the
types of struct specifiers. -/
structure Reading where
  int : IntWidth → Bool → TypeId
  built : Ty → TypeId → Prop
  struct : Nat → Option TypeId

/-- More can be read. -/
structure Reading.Le (M M' : Reading) : Prop where
  int : M'.int = M.int
  built : ∀ ty t, M.built ty t → M'.built ty t
  struct : ∀ id t, M.struct id = some t → M'.struct id = some t

mutual

def TypeExpr.Stands (M : Reading) : TypeExpr → TypeId → Prop
  | ⟨kind, _, _⟩, t => TypeKind.Stands M kind t

/-- A struct specifier stands for one type wherever it occurs, under whatever pointers and arrays. -/
def TypeKind.Stands (M : Reading) : TypeKind → TypeId → Prop
  | .void, t => t = Registry.void
  | .int width signed, t => t = M.int width signed
  | .pointer inner, t => ∃ u, TypeExpr.Stands M inner u ∧ M.built (.pointer u) t
  | .array element size, t =>
    ∃ u n, TypeExpr.Stands M element u ∧ M.built (.array u n) t ∧ ∀ length, size = some length → n = length
  | .struct spec, t => M.struct spec.id = some t

end

/-- A parameter of array type is a pointer. -/
def Written.Stands (M : Reading) : Written → TypeId → Prop
  | .value ty, t | .object ty _, t => TypeExpr.Stands M ty t
  | .param ty, t =>
    match ty.kind with
    | .array element _ => ∃ u, TypeExpr.Stands M element u ∧ M.built (.pointer u) t
    | _ => TypeExpr.Stands M ty t
  | .struct spec, t => M.struct spec.id = some t

mutual

theorem TypeExpr.Stands.mono {M M' : Reading} (hM : M.Le M') {t : TypeId} : ∀ {ty : TypeExpr},
    TypeExpr.Stands M ty t → TypeExpr.Stands M' ty t
  | ⟨kind, _, _⟩, h => by
    rw [TypeExpr.Stands] at h ⊢
    exact TypeKind.Stands.mono hM h

theorem TypeKind.Stands.mono {M M' : Reading} (hM : M.Le M') {t : TypeId} : ∀ {kind : TypeKind},
    TypeKind.Stands M kind t → TypeKind.Stands M' kind t
  | .void, h => by
    rw [TypeKind.Stands] at h ⊢
    exact h
  | .int width signed, h => by
    rw [TypeKind.Stands] at h ⊢
    rwa [hM.int]
  | .pointer inner, h => by
    rw [TypeKind.Stands] at h ⊢
    obtain ⟨u, hu, ht⟩ := h
    exact ⟨u, TypeExpr.Stands.mono hM hu, hM.built _ _ ht⟩
  | .array element size, h => by
    rw [TypeKind.Stands] at h ⊢
    obtain ⟨u, n, hu, ht, hn⟩ := h
    exact ⟨u, n, TypeExpr.Stands.mono hM hu, hM.built _ _ ht, hn⟩
  | .struct spec, h => by
    rw [TypeKind.Stands] at h ⊢
    exact hM.struct _ _ h

end

theorem Written.Stands.mono {M M' : Reading} (hM : M.Le M') {x : Written} {t : TypeId}
    (h : Written.Stands M x t) : Written.Stands M' x t := by
  cases x with
  | value ty | object ty init => exact TypeExpr.Stands.mono hM h
  | param ty =>
    unfold Written.Stands at h ⊢
    simp only at h ⊢
    split at h
    · obtain ⟨u, hu, ht⟩ := h
      exact ⟨u, hu.mono hM, hM.built _ _ ht⟩
    · exact h.mono hM
  | struct spec => exact hM.struct _ _ h

/-! What is known of struct types while a script is followed. -/

/-- What can be read so far. -/
def State.reading (s : State) : Reading :=
  ⟨intType s.registry, fun ty t => s.registry.ids[ty]? = some t, fun id => s.specs[id]?⟩

/-- A body is a struct of that number, with the members that are written in it. -/
def Laid (M : Reading) (structs : Array StructType) (i : Nat) (spec : StructSpec) : Prop :=
  ∃ t st ms, M.struct spec.id = some t ∧ M.built (.struct ⟨i⟩) t ∧ structs[i]? = some st ∧
    st.name = spec.name ∧ spec.members = some ms ∧
    List.Forall₂ (fun m (x : Member) => x.name = m.name ∧ TypeExpr.Stands M m.ty x.ty) ms st.members

/-- The tags of a frame have the types of the bodies that they are bound to. -/
def Binds (specs : Nat → Option TypeId) (f : List (String × Nat)) (frame : ScopeFrame) : Prop :=
  List.Forall₂ (fun p (tag : StructTag) => tag.name = p.1 ∧ specs p.2 = some tag.ty) f frame.tags

structure Tracks (L : List StructSpec) (W : Tags) (s : State) : Prop where
  met : ∀ id, id ∈ W.met ↔ ∃ t, s.specs[id]? = some t
  frames : List.Forall₂ (Binds s.reading.struct) W.frames (s.scope.inner :: s.scope.outer)
  count : s.registry.structs.size = W.bodies.length
  fresh : ∀ i, s.registry.structs.size ≤ i → s.registry.ids[Ty.struct ⟨i⟩]? = none
  laid : ∀ spec ∈ L, ∀ i, W.bodies[i]? = some spec.id → Laid s.reading s.registry.structs i spec
  uses : ∀ id b?, (id, b?) ∈ W.uses →
    ∃ b t, b? = some b ∧ s.specs[id]? = some t ∧ s.specs[b]? = some t

variable {L : List StructSpec} {W : Tags} {s s' : State}

theorem Laid.mono {M M' : Reading} {structs structs' : Array StructType} {i : Nat} {spec : StructSpec}
    (hM : M.Le M') (hstructs : structs.toList <+: structs'.toList) (h : Laid M structs i spec) :
    Laid M' structs' i spec := by
  obtain ⟨t, st, ms, ht, hi, hst, hname, hms, hmembers⟩ := h
  refine ⟨t, st, ms, hM.struct _ _ ht, hM.built _ _ hi, ?_, hname, hms,
    hmembers.imp fun m x hx => ⟨hx.1, hx.2.mono hM⟩⟩
  obtain ⟨rest, hrest⟩ := hstructs
  rw [← Array.getElem?_toList] at hst ⊢
  rw [← hrest, List.getElem?_append_left (List.getElem?_eq_some_iff.mp hst).1, hst]

theorem Binds.mono {specs specs' : Nat → Option TypeId}
    (hspecs : ∀ id t, specs id = some t → specs' id = some t) {f : List (String × Nat)}
    {frame : ScopeFrame} (h : Binds specs f frame) : Binds specs' f frame :=
  List.Forall₂.imp (fun _ _ h => ⟨h.1, hspecs _ _ h.2⟩) h

theorem Binds.find {specs : Nat → Option TypeId} {f : List (String × Nat)} {frame : ScopeFrame}
    (h : Binds specs f frame) (tag : String) :
    (frame.tag? tag = none ∧ f.find? (·.1 == tag) = none) ∨ ∃ p u,
      frame.tag? tag = some u ∧ f.find? (·.1 == tag) = some p ∧ specs p.2 = some u.ty := by
  unfold Binds at h
  unfold ScopeFrame.tag?
  generalize frame.tags = tags at h ⊢
  induction h with
  | nil => exact .inl ⟨rfl, rfl⟩
  | @cons p u ps us hp _ ih =>
    rw [List.find?_cons, List.find?_cons, hp.1]
    cases p.1 == tag with
    | true => exact .inr ⟨p, u, rfl, rfl, hp.2⟩
    | false => exact ih

theorem reading_le_of_idle (h : Idle s s') : s.reading.Le s'.reading where
  int := by
    funext width signed
    cases width <;> simp [State.reading, intType, Registry.cLong, h.registry.grows.config]
  built := h.registry.ids
  struct id t hid := by
    show s'.specs[id]? = _
    rw [h.specs]
    exact hid

theorem Tracks.idle (h : Tracks L W s) (hi : Idle s s') : Tracks L W s' where
  met id := by rw [hi.specs, h.met]
  frames := by
    obtain ⟨f, fs, hf, hfs, heq⟩ := List.forall₂_cons_right_iff.mp h.frames
    have hreading : s'.reading.struct = s.reading.struct := by
      funext id
      show s'.specs[id]? = s.specs[id]?
      rw [hi.specs]
    rw [heq, hreading, hi.outer]
    refine .cons ?_ hfs
    unfold Binds at hf ⊢
    rwa [hi.tags]
  count := by rw [hi.registry.structs, h.count]
  fresh i hle := hi.registry.fresh _ (h.fresh i (by rwa [hi.registry.structs] at hle))
  laid spec hspec i hb :=
    (h.laid spec hspec i hb).mono (reading_le_of_idle hi) 
      (hi.registry.structs ▸ List.prefix_rfl)
  uses id b hb := by
    rw [hi.specs]
    exact h.uses id b hb

theorem Tracks.congr (h : Tracks L W s) (hregistry : s'.registry = s.registry)
    (hscope : s'.scope = s.scope) (hspecs : s'.specs = s.specs) : Tracks L W s' := by
  have hreading : s'.reading = s.reading := by
    unfold State.reading
    rw [hregistry, hspecs]
  constructor
  case met => exact hspecs ▸ h.met
  case frames =>
    rw [hreading, hscope]
    exact h.frames
  case count => exact hregistry ▸ h.count
  case fresh => exact hregistry ▸ h.fresh
  case laid =>
    rw [hreading, hregistry]
    exact h.laid
  case uses => exact hspecs ▸ h.uses

theorem Tracks.enter (h : Tracks L W s) :
    Tracks L W.enter { s with scope := s.scope.push } where
  met := h.met
  frames := .cons .nil h.frames
  count := h.count
  fresh := h.fresh
  laid := h.laid
  uses := h.uses

theorem Tracks.leave (h : Tracks L W s) {f g : List (String × Nat)} {fs : List (List (String × Nat))}
    (hframes : W.frames = f :: g :: fs) : Tracks L W.leave { s with scope := s.scope.pop } where
  met := h.met
  frames := by
    have hall := h.frames
    rw [hframes] at hall
    obtain ⟨-, hrest⟩ := List.forall₂_cons.mp hall
    obtain ⟨frame, outer, hg, hfs, houter⟩ := List.forall₂_cons_left_iff.mp hrest
    show List.Forall₂ _ W.frames.tail (s.scope.pop.inner :: s.scope.pop.outer)
    rw [hframes, Scope.pop, Scope.pop?, houter]
    exact .cons hg hfs
  count := h.count
  fresh := h.fresh
  laid := h.laid
  uses := h.uses

/-- What a tag means to the walk and to the analysis. -/
theorem Tracks.binding (h : Tracks L W s) {tag : String} {t : TypeId}
    (ht : s.scope.lookupTag tag = some t) : ∃ b, W.binding? tag = some b ∧ s.specs[b]? = some t := by
  have hframes := h.frames
  unfold Scope.lookupTag at ht
  unfold Tags.binding?
  generalize s.scope.inner :: s.scope.outer = frames at hframes ht
  generalize W.frames = fs at hframes
  induction hframes with
  | nil => cases ht
  | @cons f frame fs frames hf _ ih =>
    rw [List.findSome?_cons]
    rw [List.findSome?_cons] at ht
    rcases Binds.find hf tag with ⟨hnone, hnone'⟩ | ⟨p, u, hsome, hsome', hp⟩
    · rw [hnone] at ht
      rw [hnone']
      exact ih ht
    · rw [hsome] at ht
      rw [hsome']
      exact ⟨p.2, rfl, hp.trans ht⟩

/-- A type is kept for a specifier that was not met before. -/
theorem reading_le_of_insert (h : Tracks L W s) {id : Nat} (hnew : id ∉ W.met) {r : Registry}
    (hconfig : r.config = s.registry.config)
    (hids : ∀ (ty : Ty) (u : TypeId), s.registry.ids[ty]? = some u → r.ids[ty]? = some u) (scope : Scope) (t : TypeId) :
    s.reading.Le { s with registry := r, scope, specs := s.specs.insert id t }.reading where
  int := by
    funext width signed
    cases width <;> simp [State.reading, intType, Registry.cLong, hconfig]
  built := hids
  struct other u hu := by
    have hmet := (h.met other).mpr ⟨u, hu⟩
    show (s.specs.insert id t)[other]? = some u
    rw [Table.getElem?_insert, if_neg]
    · exact hu
    · rw [beq_iff_eq]
      rintro rfl
      exact hnew hmet

theorem met_insert (h : Tracks L W s) (id : Nat) (t : TypeId) (other : Nat) :
    other ∈ id :: W.met ↔ ∃ u, (s.specs.insert id t)[other]? = some u := by
  rw [Table.getElem?_insert, List.mem_cons, h.met]
  by_cases heq : id = other
  · simp [heq]
  · simp [heq, Ne.symm heq]

theorem Tracks.refer (h : Tracks L W s) {id : Nat} (hnew : id ∉ W.met) {tag : String} {t : TypeId}
    (ht : s.scope.lookupTag tag = some t) :
    Tracks L (W.refer tag id) { s with specs := s.specs.insert id t } := by
  have hle := reading_le_of_insert h hnew (r := s.registry) rfl (fun _ _ hid => hid) s.scope t
  constructor
  case met => exact met_insert h id t
  case frames => exact h.frames.imp fun _ _ hb => hb.mono hle.struct
  case count => exact h.count
  case fresh => exact h.fresh
  case laid => exact fun spec hspec i hb => (h.laid spec hspec i hb).mono hle List.prefix_rfl
  case uses =>
    intro other b hb
    rcases List.mem_cons.mp hb with heq | hb
    · cases heq
      obtain ⟨b, hb, hbt⟩ := h.binding ht
      exact ⟨b, t, hb, Table.getElem?_insert_self, hle.struct _ _ hbt⟩
    · obtain ⟨b, u, rfl, hother, hu⟩ := h.uses other b hb
      exact ⟨b, u, rfl, hle.struct _ _ hother, hle.struct _ _ hu⟩

/-- The end of a body: the struct has been built and its tag bound. -/
theorem Tracks.close (h : Tracks L W s) (hL : Numbered L) {spec : StructSpec} (hspec : spec ∈ L)
    (hnew : spec.id ∉ W.met) {ms : List StructMember}
    (hms : spec.members = some ms) {ds : List MemberDecl}
    (hds : List.Forall₂ (fun m (d : MemberDecl) => d.name = m.name ∧
      TypeExpr.Stands s.reading m.ty d.ty) ms ds)
    {t : TypeId} {r : Registry} (hbuild : s.registry.buildStruct spec.name ds = (.ok t, r))
    {scope : Scope} (houter : scope.outer = s.scope.outer)
    (hinner : scope.inner.tags =
      spec.name.elim s.scope.inner.tags fun name => ⟨name, t, spec.span⟩ :: s.scope.inner.tags) :
    Tracks L (W.close spec.name spec.id)
      { s with registry := r, scope, specs := s.specs.insert spec.id t } ∧
    s.reading.Le { s with registry := r, scope, specs := s.specs.insert spec.id t }.reading := by
  obtain ⟨hgrows, st, hstructs, hname, hmembers, hids⟩ := Registry.entered_of_buildStruct hbuild
  have hkept (ty : Ty) (u : TypeId) (hu : s.registry.ids[ty]? = some u) : r.ids[ty]? = some u := by
    rw [hids, Table.getElem?_insert, if_neg]
    · exact hu
    · rw [beq_iff_eq]
      rintro rfl
      rw [h.fresh _ (Nat.le_refl _)] at hu
      cases hu
  have hle := reading_le_of_insert h hnew hgrows.config hkept scope t
  have hself : (s.specs.insert spec.id t)[spec.id]? = some t := Table.getElem?_insert_self
  refine ⟨?_, hle⟩
  constructor
  case met => exact met_insert h spec.id t
  case frames =>
    obtain ⟨f, fs, hf, hfs, heq⟩ := List.forall₂_cons_right_iff.mp h.frames
    have hf := hf.mono hle.struct
    show List.Forall₂ _ (Tags.bind spec.name spec.id W.frames) (scope.inner :: scope.outer)
    rw [heq, Tags.bind, houter]
    refine .cons ?_ (hfs.imp fun _ _ hb => hb.mono hle.struct)
    unfold Binds at hf ⊢
    rw [hinner]
    cases spec.name with
    | none => exact hf
    | some name => exact .cons ⟨rfl, hself⟩ hf
  case count =>
    show r.structs.size = (W.bodies ++ [spec.id]).length
    rw [hstructs, Array.size_push, h.count, List.length_append, List.length_singleton]
  case fresh =>
    intro i hi
    have hsize : r.structs.size = s.registry.structs.size + 1 := by rw [hstructs, Array.size_push]
    replace hi : r.structs.size ≤ i := hi
    show r.ids[Ty.struct ⟨i⟩]? = none
    rw [hids, Table.getElem?_insert, if_neg]
    · exact h.fresh i (by omega)
    · rw [beq_iff_eq]
      intro heq
      cases heq
      omega
  case laid =>
    intro other hother i hi
    replace hi : (W.bodies ++ [spec.id])[i]? = some other.id := hi
    rw [List.getElem?_append] at hi
    split at hi
    · exact (h.laid other hother i hi).mono hle hgrows.structs
    · rename_i hlast
      obtain ⟨hi, heq⟩ := List.getElem?_eq_some_iff.mp hi
      rw [List.length_singleton] at hi
      obtain rfl : spec = other := hL.unique spec hspec other hother (by simpa using heq)
      obtain rfl : i = s.registry.structs.size := by
        rw [h.count]
        omega
      refine ⟨t, st, ms, hself, ?_, ?_, hname, hms, ?_⟩
      · show r.ids[Ty.struct ⟨s.registry.structs.size⟩]? = some t
        rw [hids, Table.getElem?_insert_self]
      · rw [hstructs, Array.getElem?_push_size]
      · have hpairs : List.Forall₂ (fun (m : StructMember) (p : String × TypeId) => p.1 = m.name ∧
            TypeExpr.Stands s.reading m.ty p.2) ms (ds.map fun d => (d.name, d.ty)) :=
          List.forall₂_map_right_iff.mpr hds
        rw [← hmembers, List.forall₂_map_right_iff] at hpairs
        exact hpairs.imp fun m x hx => ⟨hx.1, hx.2.mono hle⟩
  case uses =>
    intro other b hb
    obtain ⟨b, u, rfl, hother, hu⟩ := h.uses other b hb
    exact ⟨b, u, rfl, hle.struct _ _ hother, hle.struct _ _ hu⟩

/-! Resolution follows the walk. -/

theorem Idles.idle {α : Type} {c : Check α} (h : Idles c) {v : Verdict α}
    (hrun : outcome c s = (v, s')) : Idle s s' := by
  have hidle := h s
  rwa [hrun] at hidle

theorem Reading.Le.refl (M : Reading) : M.Le M := ⟨rfl, fun _ _ h => h, fun _ _ h => h⟩

theorem Reading.Le.trans {M M' M'' : Reading} (h : M.Le M') (h' : M'.Le M'') : M.Le M'' :=
  ⟨h'.int.trans h.int, fun _ _ hb => h'.built _ _ (h.built _ _ hb),
    fun _ _ hs => h'.struct _ _ (h.struct _ _ hs)⟩

/-- A built type can be read from then on. -/
theorem built_of_intern {ty : Ty} {span : Span} {t : TypeId} (hty : ∀ s, ty ≠ .struct s)
    (h : outcome (Check.intern (·.intern ty) span) s = (.ok t, s')) : s'.reading.built ty t := by
  rw [outcome_intern] at h
  cases hintern : s.registry.intern ty with
  | error e =>
    simp only [hintern] at h
    cases h
  | ok y =>
    simp only [hintern] at h
    cases h
    exact (Interns.intern hintern hty).2

theorem built_of_buildStruct {name : Option String} {ds : List MemberDecl} {span : Span} {t : TypeId}
    (h : outcome (Check.buildStruct name ds span) s = (.ok t, s')) :
    ∃ r, s.registry.buildStruct name ds = (.ok t, r) ∧ s' = { s with registry := r } := by
  rw [outcome_buildStruct] at h
  obtain ⟨⟨result, r⟩, hbuild⟩ : ∃ y, s.registry.buildStruct name ds = y := ⟨_, rfl⟩
  rw [hbuild] at h
  cases result with
  | error e => cases h
  | ok u =>
    cases h
    exact ⟨r, hbuild, rfl⟩

/-- The walk has been followed to here, and all that could be read before can still be read. -/
structure Follows (L : List StructSpec) (W : Tags) (s s' : State) : Prop where
  tracks : Tracks L W s'
  le : s.reading.Le s'.reading

theorem Follows.idle {s'' : State} (h : Follows L W s s') (hi : Idle s' s'') : Follows L W s s'' :=
  ⟨h.tracks.idle hi, h.le.trans (reading_le_of_idle hi)⟩

theorem Follows.after {s₀ : State} (h : Follows L W s s') (hle : s₀.reading.Le s.reading) :
    Follows L W s₀ s' :=
  ⟨h.tracks, hle.trans h.le⟩

mutual

theorem resolveAt_follows {L : List StructSpec} {W : Tags} {s s' : State} {t : TypeId}
    (hL : Numbered L) (depth : Nat) : ∀ ty : TypeExpr, ty.specs ⊆ L → W.Gathers L → W.frames ≠ [] →
    Tracks L W s → outcome (resolveAt depth ty) s = (.ok t, s') →
    Follows L (ty.walk W) s s' ∧ TypeExpr.Stands s'.reading ty t
  | ⟨kind, _, span⟩, hspecs, hg, hframes, h, hrun => by
    rw [resolveAt] at hrun
    obtain ⟨_, s₁, hcheck, hrun⟩ := outcome_bind_eq_ok hrun
    have hidle := (idles_checkWritten depth span).idle hcheck
    rw [TypeExpr.specs] at hspecs
    rw [TypeExpr.walk, TypeExpr.Stands]
    obtain ⟨hfollows, hstands⟩ := resolveKind_follows hL depth span kind hspecs hg hframes
      (h.idle hidle) hrun
    exact ⟨hfollows.after (reading_le_of_idle hidle), hstands⟩

theorem resolveKind_follows {L : List StructSpec} {W : Tags} {s s' : State} {t : TypeId}
    (hL : Numbered L) (depth : Nat) (span : Span) : ∀ kind : TypeKind, kind.specs ⊆ L →
    W.Gathers L → W.frames ≠ [] → Tracks L W s → outcome (resolveKind depth span kind) s = (.ok t, s') →
    Follows L (kind.walk W) s s' ∧ TypeKind.Stands s'.reading kind t
  | .void, _, _, _, h, hrun => by
    rw [resolveKind] at hrun
    cases hrun
    rw [TypeKind.walk, TypeKind.Stands]
    exact ⟨⟨h, .refl _⟩, rfl⟩
  | .int width signed, _, _, _, h, hrun => by
    rw [resolveKind] at hrun
    cases hrun
    rw [TypeKind.walk, TypeKind.Stands]
    exact ⟨⟨h, .refl _⟩, rfl⟩
  | .pointer inner, hspecs, hg, hframes, h, hrun => by
    rw [resolveKind] at hrun
    obtain ⟨u, s₁, hu, hrun⟩ := outcome_bind_eq_ok hrun
    rw [TypeKind.specs] at hspecs
    obtain ⟨hfollows, hstands⟩ := resolveAt_follows hL (depth + 1) inner hspecs hg hframes h hu
    have hidle := (Idles.pointerTo u span).idle hrun
    rw [TypeKind.walk, TypeKind.Stands]
    exact ⟨hfollows.idle hidle, u, hstands.mono (reading_le_of_idle hidle),
      built_of_intern (fun _ h => by cases h) hrun⟩
  | .array element size, hspecs, hg, hframes, h, hrun => by
    rw [resolveKind] at hrun
    obtain ⟨u, s₁, hu, hrun⟩ := outcome_bind_eq_ok hrun
    rw [TypeKind.specs] at hspecs
    obtain ⟨hfollows, hstands⟩ := resolveAt_follows hL (depth + 1) element hspecs hg hframes h hu
    obtain ⟨_, s₂, hcheck, hrun⟩ := outcome_bind_eq_ok hrun
    have hidle := (idles_checkElement u element.span).idle hcheck
    rw [TypeKind.walk, TypeKind.Stands]
    cases size with
    | none => cases hrun
    | some length =>
      have hidle := hidle.trans ((Idles.arrayOf u length span).idle hrun)
      exact ⟨hfollows.idle hidle, u, length, hstands.mono (reading_le_of_idle hidle),
        built_of_intern (fun _ h => by cases h) hrun, fun _ h => Option.some.inj h⟩
  | .struct spec, hspecs, hg, hframes, h, hrun => by
    rw [resolveKind] at hrun
    rw [TypeKind.specs] at hspecs
    rw [TypeKind.walk, TypeKind.Stands]
    exact resolveSpec_follows hL depth spec hspecs hg hframes h hrun

theorem resolveSpec_follows {L : List StructSpec} {W : Tags} {s s' : State} {t : TypeId}
    (hL : Numbered L) (depth : Nat) : ∀ spec : StructSpec, spec.specs ⊆ L → W.Gathers L →
    W.frames ≠ [] → Tracks L W s → outcome (resolveSpec depth spec) s = (.ok t, s') →
    Follows L (spec.walk W) s s' ∧ s'.reading.struct spec.id = some t
  | ⟨id, name, members, span⟩, hspecs, hg, hframes, h, hrun => by
    rw [resolveSpec, outcome_get_bind] at hrun
    rw [StructSpec.walk]
    rw [StructSpec.specs] at hspecs
    obtain ⟨hspec, hinner⟩ := List.cons_subset.mp hspecs
    cases hfound : s.specs[id]? with
    | some u =>
      simp only [hfound] at hrun
      cases hrun
      rw [if_pos ((h.met id).mpr ⟨t, hfound⟩)]
      exact ⟨⟨h, .refl _⟩, hfound⟩
    | none =>
      simp only [hfound] at hrun
      have hnew : id ∉ W.met := by
        rw [h.met, hfound]
        exact nofun
      rw [if_neg hnew]
      obtain ⟨u, s₁, hbody, hrun⟩ := outcome_bind_eq_ok hrun
      cases hrun
      refine ⟨?_, Table.getElem?_insert_self⟩
      exact resolveBody_follows hL hspec hnew depth members rfl hinner hg hframes h hbody

theorem resolveBody_follows {L : List StructSpec} {W : Tags} {s s' : State} {t : TypeId}
    (hL : Numbered L) {spec : StructSpec} (hspec : spec ∈ L) (hnew : spec.id ∉ W.met) (depth : Nat) :
    ∀ members, spec.members = members → specsOfBody members ⊆ L → W.Gathers L → W.frames ≠ [] →
    Tracks L W s → outcome (resolveBody depth spec.name spec.span members) s = (.ok t, s') →
    Follows L (walkBody spec.id spec.name members W) s
      { s' with specs := s'.specs.insert spec.id t }
  | none, hmembers, _, hg, hframes, h, hrun => by
    rw [resolveBody, outcome_get_bind] at hrun
    cases htag : s.scope.lookupTag (spec.name.getD "") with
    | none =>
      simp only [htag] at hrun
      cases hrun
    | some u =>
      simp only [htag] at hrun
      cases hrun
      rw [walkBody]
      exact ⟨h.refer hnew htag,
        reading_le_of_insert h hnew (r := s.registry) rfl (fun _ _ hid => hid) s.scope t⟩
  | some ms, hmembers, hms, hg, hframes, h, hrun => by
    rw [resolveBody] at hrun
    obtain ⟨ds, s₁, hds, hrun⟩ := outcome_bind_eq_ok hrun
    rw [specsOfBody] at hms
    obtain ⟨hfollows, hds⟩ := resolveMembers_follows hL (depth + 1) ms hms hg hframes h hds
    obtain ⟨-, hgains⟩ := gathers_members hL ms hms hg hframes
    have hstill := hgains.not_mem hnew fun inner hi => hL.inner spec hspec inner (by
      rw [hmembers, specsOfBody]
      exact hi)
    obtain ⟨u, s₂, hrunBuild, hrun⟩ := outcome_bind_eq_ok hrun
    obtain ⟨r, hbuild, rfl⟩ := built_of_buildStruct hrunBuild
    have hclose (scope : Scope) (houter : scope.outer = s₁.scope.outer)
        (hinner : scope.inner.tags = spec.name.elim s₁.scope.inner.tags fun name =>
          ⟨name, u, spec.span⟩ :: s₁.scope.inner.tags) :
        Follows L ((walkMembers ms W).close spec.name spec.id) s
          { s₁ with registry := r, scope, specs := s₁.specs.insert spec.id u } := by
      obtain ⟨htracks, hle⟩ := hfollows.tracks.close hL hspec hstill hmembers hds hbuild houter hinner
      exact ⟨htracks, hfollows.le.trans hle⟩
    rw [walkBody]
    cases htag : spec.name with
    | none =>
      rw [htag] at hrun hclose
      cases hrun
      exact hclose _ rfl rfl
    | some name =>
      rw [htag] at hrun hclose
      obtain ⟨_, s₃, henter, hrun⟩ := outcome_bind_eq_ok hrun
      cases hrun
      rw [outcome_enter] at henter
      unfold Scope.defineTag at henter
      simp only at henter
      split at henter
      · rename_i hdefine
        cases henter
        split at hdefine
        · cases hdefine
        · cases hdefine
          exact hclose _ rfl rfl
      · cases henter

theorem resolveMembers_follows {L : List StructSpec} {W : Tags} {s s' : State} {ds : List MemberDecl}
    (hL : Numbered L) (depth : Nat) : ∀ ms : List StructMember, specsOfMembers ms ⊆ L →
    W.Gathers L → W.frames ≠ [] → Tracks L W s → outcome (resolveMembers depth ms) s = (.ok ds, s') →
    Follows L (walkMembers ms W) s s' ∧ List.Forall₂ (fun m (d : MemberDecl) =>
      d.name = m.name ∧ TypeExpr.Stands s'.reading m.ty d.ty) ms ds
  | [], _, _, _, h, hrun => by
    rw [resolveMembers] at hrun
    cases hrun
    rw [walkMembers]
    exact ⟨⟨h, .refl _⟩, .nil⟩
  | m :: ms, hspecs, hg, hframes, h, hrun => by
    rw [resolveMembers] at hrun
    rw [specsOfMembers] at hspecs
    obtain ⟨hm, hms⟩ := List.append_subset.mp hspecs
    obtain ⟨d, s₁, hd, hrun⟩ := outcome_bind_eq_ok hrun
    obtain ⟨ds', s₂, hds, hrun⟩ := outcome_bind_eq_ok hrun
    cases hrun
    obtain ⟨hfollows, hname, hstands⟩ := resolveMember_follows hL depth m hm hg hframes h hd
    obtain ⟨hg', hgains⟩ := m.gathers hL hm hg hframes
    obtain ⟨hfollows', hds⟩ := resolveMembers_follows hL depth ms hms hg' hgains.ne_nil
      hfollows.tracks hds
    rw [walkMembers]
    exact ⟨hfollows'.after hfollows.le, .cons ⟨hname, hstands.mono hfollows'.le⟩ hds⟩

theorem resolveMember_follows {L : List StructSpec} {W : Tags} {s s' : State} {d : MemberDecl}
    (hL : Numbered L) (depth : Nat) : ∀ m : StructMember, m.specs ⊆ L → W.Gathers L →
    W.frames ≠ [] → Tracks L W s → outcome (resolveMember depth m) s = (.ok d, s') →
    Follows L (m.walk W) s s' ∧ d.name = m.name ∧ TypeExpr.Stands s'.reading m.ty d.ty
  | ⟨name, ty, span⟩, hspecs, hg, hframes, h, hrun => by
    rw [resolveMember] at hrun
    rw [StructMember.specs] at hspecs
    obtain ⟨u, s₁, hu, hrun⟩ := outcome_bind_eq_ok hrun
    obtain ⟨hfollows, hstands⟩ := resolveAt_follows hL depth ty hspecs hg hframes h hu
    rw [outcome_registry_bind] at hrun
    rw [StructMember.walk]
    split at hrun <;> cases hrun
    exact ⟨hfollows, rfl, hstands⟩

end

theorem findType_follows (hL : Numbered L) {x : Written} {t : TypeId} (hspecs : x.specs ⊆ L)
    (hg : W.Gathers L) (hframes : W.frames ≠ []) (h : Tracks L W s)
    (hrun : outcome (findType x) s = (.ok t, s')) :
    Follows L (x.walk W) s s' ∧ Written.Stands s'.reading x t := by
  cases x with
  | value ty => exact resolveAt_follows hL 1 ty hspecs hg hframes h hrun
  | struct spec => exact resolveSpec_follows hL 1 spec hspecs hg hframes h hrun
  | object ty init =>
    obtain ⟨kind, qualifiers, span⟩ := ty
    unfold findType resolveObject at hrun
    simp only at hrun
    split at hrun
    · rename_i element
      split at hrun
      · rename_i length _
        obtain ⟨u, s₁, hu, hrun⟩ := outcome_bind_eq_ok hrun
        obtain ⟨_, s₂, hcheck, hrun⟩ := outcome_bind_eq_ok hrun
        replace hspecs : element.specs ⊆ L := by rwa [Written.specs, TypeExpr.specs, TypeKind.specs] at hspecs
        obtain ⟨hfollows, hstands⟩ := resolveAt_follows hL 2 element hspecs hg hframes h hu
        have hidle := ((idles_checkElement u element.span).idle hcheck).trans
          ((Idles.arrayOf u length span).idle hrun)
        rw [Written.walk, TypeExpr.walk, TypeKind.walk, Written.Stands, TypeExpr.Stands,
          TypeKind.Stands]
        exact ⟨hfollows.idle hidle, u, length, hstands.mono (reading_le_of_idle hidle),
          built_of_intern (fun _ h => by cases h) hrun, fun _ h => by cases h⟩
      · cases hrun
    · exact resolveAt_follows hL 1 _ hspecs hg hframes h hrun
  | param ty =>
    obtain ⟨kind, qualifiers, span⟩ := ty
    unfold findType resolveParam at hrun
    cases kind with
    | array element size =>
      obtain ⟨u, s₁, hu, hrun⟩ := outcome_bind_eq_ok hrun
      replace hspecs : element.specs ⊆ L := by rwa [Written.specs, TypeExpr.specs, TypeKind.specs] at hspecs
      obtain ⟨hfollows, hstands⟩ := resolveAt_follows hL 2 element hspecs hg hframes h hu
      have hidle := (Idles.pointerTo u span).idle hrun
      rw [Written.walk, TypeExpr.walk, TypeKind.walk]
      exact ⟨hfollows.idle hidle, u, hstands.mono (reading_le_of_idle hidle),
        built_of_intern (fun _ h => by cases h) hrun⟩
    | void | int | pointer | struct => exact resolveAt_follows hL 1 _ hspecs hg hframes h hrun

/-- A whole run follows the walk of its script, and what it has found can be read at its end. -/
theorem Steps.follows (hL : Numbered L) {tr : Trace} {o : Script} (henacts : Enacts tr o)
    (hspecs : o.specs ⊆ L) (hsteps : Steps tr s s') (hg : W.Gathers L) (hframes : W.frames ≠ [])
    (h : Tracks L W s) :
    Follows L (o.walk false W) s s' ∧ ∀ p ∈ tr.pairs, Written.Stands s'.reading p.1 p.2 := by
  induction henacts generalizing W s s' with
  | done =>
    cases hsteps with
    | done hi => exact ⟨Follows.idle ⟨h, .refl _⟩ hi, List.forall_mem_nil _⟩
  | @found x t tr o _ ih =>
    cases hsteps with
    | found hi hfind hrest =>
      rw [Script.specs_written] at hspecs
      obtain ⟨hx, ho⟩ := List.append_subset.mp hspecs
      obtain ⟨hfollows, hstands⟩ := findType_follows hL hx hg hframes (h.idle hi) hfind
      obtain ⟨hg', hgains⟩ := x.gathers hL hx hg hframes
      obtain ⟨hfollows', hpairs⟩ := ih ho hrest hg' hgains.ne_nil hfollows.tracks
      refine ⟨(hfollows'.after hfollows.le).after (reading_le_of_idle hi), ?_⟩
      exact List.forall_mem_cons.mpr ⟨hstands.mono hfollows'.le, hpairs⟩
  | @scope inner tr i o _ _ ihi ih =>
    cases hsteps with
    | scope hi hinner hrest =>
      rw [Script.specs_scope] at hspecs
      obtain ⟨hi', ho⟩ := List.append_subset.mp hspecs
      obtain ⟨hfollows, hpairs⟩ := ihi hi' hinner hg.enter (List.cons_ne_nil _ _) (h.idle hi).enter
      obtain ⟨-, hgains⟩ := i.gathers hL false hi' hg.enter (List.cons_ne_nil _ _)
      obtain ⟨hg', hgains'⟩ := Script.gathers hL false (o := .scope i .done)
        (by simpa using hi') hg hframes
      obtain ⟨f, f', fs, hf, hf'⟩ := hgains.outer
      obtain ⟨g, gs, hgs⟩ := List.exists_cons_of_ne_nil hframes
      cases hf
      rw [hgs] at hf'
      obtain ⟨hfollows', hpairs'⟩ := ih ho hrest hg' hgains'.ne_nil (hfollows.tracks.leave hf')
      have hle := (reading_le_of_idle hi).trans hfollows.le
      refine ⟨hfollows'.after hle, ?_⟩
      exact List.forall_mem_append.mpr ⟨fun p hp => (hpairs p hp).mono hfollows'.le, hpairs'⟩
  | @doWhile tr body cond o _ ih =>
    have h := ih (by simpa [or_assoc, and_left_comm] using hspecs) hsteps hg hframes h
    rwa [Script.walk_append, Script.walk_append] at h
  | @loop inner tr i o _ _ ihi ih =>
    cases hsteps with
    | loop hi hinner hrest =>
      rw [Script.specs_append] at hspecs
      obtain ⟨hi', ho⟩ := List.append_subset.mp hspecs
      obtain ⟨hfollows, hpairs⟩ := ihi hi' hinner hg hframes ((h.idle hi).congr rfl rfl rfl)
      obtain ⟨hg', hgains⟩ := i.gathers hL false hi' hg hframes
      obtain ⟨hfollows', hpairs'⟩ := ih ho hrest hg' hgains.ne_nil (hfollows.tracks.congr rfl rfl rfl)
      have hle := (reading_le_of_idle hi).trans hfollows.le
      rw [Script.walk_append]
      refine ⟨hfollows'.after hle, ?_⟩
      exact List.forall_mem_append.mpr ⟨fun p hp => (hpairs p hp).mono hfollows'.le, hpairs'⟩
  | @function inner tr i o _ _ ihi ih =>
    cases hsteps with
    | function hi hinner hrest =>
      rw [Script.specs_append] at hspecs
      obtain ⟨hi', ho⟩ := List.append_subset.mp hspecs
      obtain ⟨hfollows, hpairs⟩ := ihi hi' hinner hg hframes ((h.idle hi).congr rfl rfl rfl)
      obtain ⟨hg', hgains⟩ := i.gathers hL false hi' hg hframes
      obtain ⟨hfollows', hpairs'⟩ := ih ho hrest hg' hgains.ne_nil (hfollows.tracks.congr rfl rfl rfl)
      have hle := (reading_le_of_idle hi).trans hfollows.le
      rw [Script.walk_append]
      refine ⟨hfollows'.after hle, ?_⟩
      exact List.forall_mem_append.mpr ⟨fun p hp => (hpairs p hp).mono hfollows'.le, hpairs'⟩

/-! A whole unit. -/

theorem tracks_initial (L : List StructSpec) (config : Layout.Config) :
    Tracks L .start (State.initial config) where
  met id := ⟨fun h => absurd h List.not_mem_nil, fun ⟨t, ht⟩ => by
    rw [State.initial, Table.getElem?_empty] at ht
    cases ht⟩
  frames := .cons .nil .nil
  count := rfl
  fresh i _ := by
    by_contra hsome
    obtain ⟨id, hid⟩ := Option.ne_none_iff_exists'.mp hsome
    have hconsistent := Registry.consistent_initial config
    obtain ⟨hlt, hty⟩ := (hconsistent.lookup _ _).mp hid
    have hbuilt := (hconsistent.entry id hlt).built
    rw [hty] at hbuilt
    exact absurd hbuilt.1 (Nat.not_lt_zero _)
  laid _ _ i hi := by
    rw [Tags.start] at hi
    cases hi
  uses _ _ h := absurd h List.not_mem_nil

theorem Written.stands_bare {M : Reading} {x : Written} {t : TypeId} :
    Written.Stands M (bare x) t ↔ Written.Stands M x t := by
  cases x <;> rfl

/-- What an accepted unit leaves is what the walk of its script says. -/
theorem followed_of_analyze {config : Layout.Config} {u : CompilationUnit}
    (hL : Numbered u.script.specs) (h : (analyze config u).errors = []) :
    ∃ s : State, (analyze config u).registry = s.registry ∧
      Tracks u.script.specs (u.script.walk false .start) s ∧
      ∀ c ∈ claimsOf (Node.ofUnit (analyze config u).tree), Written.Stands s.reading c.1 c.2 := by
  obtain ⟨ds, s, hrun, hanalyze⟩ := run_of_analyze config u
  obtain ⟨tr, hsteps, -, hclean⟩ := walks_topDecls [] u.decls (State.initial config)
  rw [run_bind hrun] at hsteps hclean
  rw [hanalyze] at h ⊢
  have herrors : s.errors.toList = [] ++ tr.errors := hsteps.errors
  obtain ⟨henacts, hclaims⟩ := hclean ds () rfl (herrors.symm.trans h)
  obtain ⟨hfollows, hpairs⟩ := hsteps.follows hL henacts (List.Subset.refl _) Tags.gathers_start
    (List.cons_ne_nil _ _) (tracks_initial _ config)
  refine ⟨s, rfl, hfollows.tracks, fun c hc => ?_⟩
  have hmem := hclaims hc
  rw [List.append_nil] at hmem
  obtain ⟨p, hp, rfl⟩ := List.mem_map.mp hmem
  exact Written.stands_bare.mpr (hpairs p hp)

end Typing
end MiniC
