import MiniC.Proofs.Layout.Leaves
/-!
Members by name, in every registry that calls reach. Main statements: a struct has exactly the members
that it was declared with, at the offsets of its layout; offsets add up along a path, a path ends
inside the object that it starts from, and paths of which neither continues the other lead to parts
that do not overlap.
-/
namespace MiniC

/-- Where a path from a member leads, seen from the object that the member is part of. -/
def MemberRef.within (m n : MemberRef) : MemberRef := ⟨n.ty, m.offset + n.offset⟩

namespace Registry

open Layout (Extent maxObjectSize)

variable {r r' : Registry} {id : TypeId} {model : DataModel} {limit : Nat}

/-! Declarations. -/

/-- Proper calls lead from one registry to another. -/
inductive Leads : Registry → Registry → Prop
  | refl (r : Registry) : Leads r r
  | call {r r' : Registry} (c : Call) (before : Leads r r') (proper : c.Proper r') :
      Leads r (c.run r').2

/-- The struct entered the registry, on the way to it, with these members. -/
inductive Declared (model : DataModel) (limit : Nat) (r : Registry) (id : TypeId)
    (name : Option String) (ds : List MemberDecl) : Prop
  | intro {before after : Registry} (reached : Reachable model limit before)
      (proper : (Call.buildStruct name ds).Proper before)
      (built : (Call.buildStruct name ds).run before = (.ok id, after)) (later : Leads after r)

theorem Leads.kept (h : Leads r r') (hr : r.Consistent) : Grows r r' ∧ r'.Consistent := by
  induction h with
  | refl => exact ⟨Grows.refl _, hr⟩
  | call c before proper ih =>
    obtain ⟨hgrows, hconsistent⟩ := ih
    have hkept := hconsistent.kept_run proper
    exact ⟨hgrows.trans hkept.grows, hkept.consistent⟩

/-- What interning adds is no struct: those of the registry have their ids. -/
theorem Consistent.isStruct_withType {ty : Ty} {info : TypeInfo} (h : r.Consistent)
    (hformed : r.Formed ty) (hnew : r.ids[ty]? = none) (hinfo : r.measure ty = .ok info) :
    (r.withType info).isStruct ⟨r.types.size⟩ = false := by
  have hty : (r.withType info).ty ⟨r.types.size⟩ = ty := by
    rw [Registry.ty, info_withType, measure_ty hinfo]
  refine isStruct_of_ty hty fun s hs => ?_
  rcases h.found hformed with ⟨id, hid⟩ | ⟨pointee, rfl⟩ | ⟨element, length, rfl⟩
  · rw [hid] at hnew
    cases hnew
  · cases hs
  · cases hs

theorem Consistent.isStruct_intern {ty : Ty} (h : r.Consistent) (hformed : r.Formed ty)
    (hid : id.index < (Call.run.enter r (r.intern ty)).2.types.size)
    (hstruct : (Call.run.enter r (r.intern ty)).2.isStruct id = true) :
    id.index < r.types.size := by
  cases hok : r.intern ty with
  | error e => rwa [hok] at hid
  | ok result =>
    obtain ⟨t, after⟩ := result
    simp only [hok, Call.run.enter] at hid hstruct
    rcases intern_cases hok with ⟨-, rfl⟩ | ⟨hnew, info, hinfo, -, -, rfl⟩
    · exact hid
    · by_contra hlt
      have hsize : (r.withType info).types.size = r.types.size + 1 := by simp [withType]
      obtain rfl : id = ⟨r.types.size⟩ := by
        cases id
        exact congrArg _ (by dsimp only at hid hlt; omega)
      rw [h.isStruct_withType hformed hnew hinfo] at hstruct
      cases hstruct

/-- A struct that a call adds is the one that the call declares. -/
theorem Consistent.built_of_new {c : Call} (h : r.Consistent) (hproper : c.Proper r)
    (hnew : ¬ id.index < r.types.size) (hid : id.index < (c.run r).2.types.size)
    (hstruct : (c.run r).2.isStruct id = true) :
    ∃ name ds, c = .buildStruct name ds ∧ (c.run r).1 = .ok id := by
  cases c with
  | intern ty => exact absurd (h.isStruct_intern hproper.2 hid hstruct) hnew
  | pointerTo pointee => exact absurd (h.isStruct_intern hproper.2 hid hstruct) hnew
  | arrayOf element length => exact absurd (h.isStruct_intern hproper.2 hid hstruct) hnew
  | buildStruct name ds =>
    refine ⟨name, ds, rfl, ?_⟩
    have hkept := h.kept_buildStruct hproper.2 name
    simp only [Call.run] at hid ⊢
    replace hnew : r.types.size ≤ id.index := Nat.le_of_not_lt hnew
    cases hresult : (r.buildStruct name ds).1 with
    | error e =>
      obtain ⟨htypes, -, -⟩ := hkept.failed e hresult
      rw [htypes] at hid
      exact absurd hid (Nat.not_lt.mpr hnew)
    | ok built =>
      obtain ⟨rfl, names, hafter⟩ := h.buildStruct_ok hproper.2 (Prod.ext hresult rfl)
      have hsize : (r.buildStruct name ds).2.types.size = r.types.size + 1 := by
        refine (congrArg (fun r : Registry => r.types.size) hafter).trans ?_
        simp [Registry.withStruct]
      refine congrArg Except.ok ?_
      cases id
      exact congrArg _ (by dsimp only at hid hnew; omega)

/-- Every struct of a registry was declared. -/
theorem Reachable.declared (h : Reachable model limit r) (hstruct : r.isStruct id = true) :
    ∃ name ds, Declared model limit r id name ds := by
  have hlt : id.index < r.types.size := by
    by_contra hlt
    rw [isStruct_of_ty (ty_of_not_lt hlt) (by simp)] at hstruct
    cases hstruct
  induction h with
  | new =>
    obtain ⟨ty, hscalar, hinfo⟩ := info_initial hlt
    have hmem := List.mem_of_getElem? hscalar
    have hty : (initial (Layout.Config.withMaxDepth { model } limit)).ty id = ty := by
      rw [Registry.ty, hinfo, ty_scalarInfo]
    rw [isStruct_of_ty hty fun s hs => by simp [hs, scalars] at hmem] at hstruct
    cases hstruct
  | @call before c reached proper ih =>
    have hkept := reached.consistent.kept_run proper
    by_cases hold : id.index < before.types.size
    · have hsame : before.isStruct id = true := by
        rw [← hstruct]
        simp only [isStruct, hkept.grows.ty_eq hold]
      obtain ⟨name, ds, hreached, hproper, hbuilt, hlater⟩ := ih hsame hold
      exact ⟨name, ds, hreached, hproper, hbuilt, .call c hlater proper⟩
    · obtain ⟨name, ds, rfl, hok⟩ := reached.consistent.built_of_new proper hold hlt hstruct
      exact ⟨name, ds, reached, proper, Prod.ext hok rfl, .refl _⟩

/-- The members of a struct are the declared ones, laid out in order. -/
theorem Declared.structOf {name : Option String} {ds : List MemberDecl}
    (h : Declared model limit r id name ds) :
    ∃ s, r.ty id = .struct s ∧ r.structType s = r.structOf name ds ∧ r.Placeable ds ∧
      Specified r name ds (Extent.stop 0 (r.extents ds)) (r.structType s) := by
  obtain @⟨before, after, hreached, hproper, hbuilt, hlater⟩ := h
  have hbefore := hreached.consistent
  obtain ⟨rfl, names, rfl⟩ := hbefore.buildStruct_ok hproper.2 hbuilt
  have hbuildable : before.Buildable ds := by
    by_contra hb
    obtain ⟨e, he⟩ := exists_refused hb
    obtain ⟨noted, hnoted⟩ := hbefore.buildStruct_refused hproper.2 name he
    rw [Call.run, hnoted] at hbuilt
    cases hbuilt
  have hafter := (hbefore.withStruct hproper.2 hbuildable name).names names
  obtain ⟨hlater, hr⟩ := hlater.kept hafter
  have hgrows := ((grows_withStruct before (before.structOf name ds)).trans
    (grows_names _ names)).trans hlater
  have hsize : before.types.size < (before.withStruct (before.structOf name ds)).types.size := by
    simp [Registry.withStruct]
  have hstructs : before.structs.size <
      (before.withStruct (before.structOf name ds)).structs.size := by
    simp [Registry.withStruct]
  have hmembers (d : MemberDecl) (hd : d ∈ ds) : r.extentOf d.ty = before.extentOf d.ty :=
    hgrows.extentOf_eq (hproper.2 d hd)
  have hds : r.Holds ds := fun d hd => Nat.lt_of_lt_of_le (hproper.2 d hd) hgrows.size_le
  have hstruct : r.structType ⟨before.structs.size⟩ = r.structOf name ds := by
    rw [structOf_congr name hmembers, ← structType_withStruct before (before.structOf name ds)]
    exact hlater.structType_eq hstructs
  refine ⟨⟨before.structs.size⟩, ?_, hstruct, hbuildable.placeable.congr hmembers, ?_⟩
  · exact (hlater.ty_eq hsize).trans
      (congrArg TypeInfo.ty (info_withStruct before (before.structOf name ds)))
  · rw [hstruct]
    exact hr.specified_structOf hds name

/-! One member. -/

/-- The members of a struct differ in their names. -/
theorem Consistent.distinct {s : StructId} (h : r.Consistent) (hty : r.ty id = .struct s) :
    ((r.structType s).members.map (·.name)).Nodup := by
  obtain ⟨hlt, ds, hplaceable, heq⟩ : r.Built (.struct s) := by
    rw [← hty]
    exact (h.entry_of_ty (t := id) (by simp [hty])).built
  have hnames : (r.structType s).members.map (·.name) = ds.map (·.name) := by
    rw [heq]
    exact map_layOut r 0 ds (·.name)
  rw [hnames]
  exact hplaceable.distinct

theorem Consistent.member_eq_ok {s : StructId} {name : String} {m : MemberRef} (h : r.Consistent)
    (hty : r.ty id = .struct s) :
    r.member id name = .ok m ↔
      ∃ l ∈ (r.structType s).members, l.name = name ∧ m = ⟨l.ty, l.offset⟩ := by
  simp only [member, asStruct?, hty]
  constructor
  · intro hm
    cases hfind : (r.structType s).members.find? (·.name == name) with
    | none => simp [hfind] at hm
    | some l =>
      simp only [hfind, Except.ok.injEq] at hm
      exact ⟨l, List.mem_of_find?_eq_some hfind, by simpa using List.find?_some hfind, hm.symm⟩
  · rintro ⟨l, hl, rfl, rfl⟩
    cases hfind : (r.structType s).members.find? (·.name == l.name) with
    | none => exact absurd (List.find?_eq_none.mp hfind l hl) (by simp)
    | some found =>
      have hname : found.name = l.name := by simpa using List.find?_some hfind
      obtain rfl : found = l :=
        List.inj_on_of_nodup_map (h.distinct hty) (List.mem_of_find?_eq_some hfind) hl hname
      rfl

/-- What looking up members of a struct gives, from the declaration of the struct. -/
structure Members (r : Registry) (id : TypeId) (name : Option String) (ds : List MemberDecl) :
    Prop where
  /-- The declared members lie in the struct as the layout places them, and no others do. -/
  laidOut : ∃ s, r.asStruct? id = some s ∧ Specified r name ds (Extent.stop 0 (r.extents ds)) s ∧
    ∀ field m, r.member id field = .ok m ↔
      ∃ l ∈ s.members, l.name = field ∧ m = ⟨l.ty, l.offset⟩
  declared : ∀ d ∈ ds, ∃ offset, r.member id d.name = .ok ⟨d.ty, offset⟩
  unknown : ∀ field, (∀ d ∈ ds, d.name ≠ field) →
    r.member id field = .error (.unknownMember field (r.display id) Span.nowhere)

theorem members_of_declared {name : Option String} {ds : List MemberDecl} (hr : r.Consistent)
    (h : Declared model limit r id name ds) : Members r id name ds := by
  obtain ⟨s, hty, hstruct, hplaceable, hspecified⟩ := h.structOf
  have hmap := map_layOut r 0 ds (fun d => (d.name, d.ty))
  have hmembers : (r.structType s).members = r.layOut 0 ds := by rw [hstruct]; rfl
  constructor
  case laidOut =>
    refine ⟨r.structType s, by simp only [asStruct?, hty], hspecified, fun field m => ?_⟩
    exact hr.member_eq_ok hty
  case declared =>
    intro d hd
    have hpair : (d.name, d.ty) ∈ (r.layOut 0 ds).map fun m => (m.name, m.ty) := by
      rw [hmap]
      exact List.mem_map_of_mem hd
    obtain ⟨l, hl, heq⟩ := List.mem_map.mp hpair
    obtain ⟨hname, hlty⟩ := Prod.mk.inj heq
    refine ⟨l.offset, (hr.member_eq_ok hty).mpr ⟨l, hmembers ▸ hl, hname, ?_⟩⟩
    rw [hlty]
  case unknown =>
    intro field hfield
    have hfind : (r.structType s).members.find? (·.name == field) = none := by
      refine List.find?_eq_none.mpr fun l hl heq => ?_
      rw [hmembers] at hl
      have hpair : (l.name, l.ty) ∈ ds.map fun d => (d.name, d.ty) := by
        rw [← hmap]
        exact List.mem_map_of_mem hl
      obtain ⟨d, hd, hsame⟩ := List.mem_map.mp hpair
      exact hfield d hd ((Prod.mk.inj hsame).1.trans (eq_of_beq heq))
    simp only [member, asStruct?, hty, hfind]

/-- What is no struct has no members. -/
theorem member_of_not_struct (h : r.isStruct id = false) (field : String) :
    r.member id field = .error (.notAStruct (r.display id) Span.nowhere) := by
  unfold member asStruct?
  cases hty : r.ty id <;> simp [isStruct, hty] at h ⊢

/-! Paths. -/

theorem pathFrom_eq (r : Registry) (m : MemberRef) (p : List String) :
    r.pathFrom m p = (r.path m.ty p).map m.within := by
  induction p generalizing m with
  | nil => rfl
  | cons name p ih =>
    unfold path
    simp only [pathFrom]
    cases hm : r.member m.ty name with
    | error e => rfl
    | ok n =>
      dsimp only
      rw [ih, ih ⟨n.ty, 0 + n.offset⟩]
      cases r.path n.ty p with
      | error e => rfl
      | ok l =>
        refine congrArg Except.ok (congrArg (MemberRef.mk l.ty) ?_)
        simp only [MemberRef.within]
        omega

theorem path_cons (r : Registry) (id : TypeId) (name : String) (p : List String) :
    r.path id (name :: p) = (r.member id name).bind fun m => (r.path m.ty p).map m.within := by
  rw [path, pathFrom]
  cases hm : r.member id name with
  | error e => rfl
  | ok m =>
    dsimp only
    rw [pathFrom_eq]
    simp only [Nat.zero_add]
    rfl

theorem path_cons_ok {name : String} {p : List String} {n : MemberRef} :
    r.path id (name :: p) = .ok n ↔
      ∃ m l, r.member id name = .ok m ∧ r.path m.ty p = .ok l ∧ n = m.within l := by
  rw [path_cons]
  cases hm : r.member id name with
  | error e => simp [Except.bind]
  | ok m =>
    cases hl : r.path m.ty p with
    | error e => simp [Except.bind, Except.map, hl]
    | ok l => simp [Except.bind, Except.map, hl, eq_comm]

theorem path_append (r : Registry) (id : TypeId) (p q : List String) :
    r.path id (p ++ q) = (r.path id p).bind fun m => (r.path m.ty q).map m.within := by
  induction p generalizing id with
  | nil =>
    have hwithin : (MemberRef.mk id 0).within = fun n => n := by
      funext n
      simp only [MemberRef.within, Nat.zero_add]
    show r.path id q = (r.path id q).map (MemberRef.mk id 0).within
    rw [hwithin]
    cases r.path id q <;> rfl
  | cons name p ih =>
    rw [List.cons_append, path_cons, path_cons]
    cases hm : r.member id name with
    | error e => rfl
    | ok m =>
      simp only [Except.bind, ih]
      cases hp : r.path m.ty p with
      | error e => rfl
      | ok l =>
        dsimp only [Except.map]
        cases hq : r.path l.ty q with
        | error e => simp only [MemberRef.within, hq]
        | ok n => simp only [MemberRef.within, hq, Nat.add_assoc]

/-- A path fails at its first name that is no member of what the names before it lead to. -/
theorem path_eq_error {p : List String} {e : LayoutError} :
    r.path id p = .error e ↔
      ∃ before name after m, p = before ++ name :: after ∧ r.path id before = .ok m ∧
        r.member m.ty name = .error e := by
  constructor
  · intro hp
    induction p generalizing id with
    | nil => cases hp
    | cons name p ih =>
      rw [path_cons] at hp
      cases hm : r.member id name with
      | error e' =>
        rw [hm] at hp
        obtain rfl : e' = e := Except.error.inj hp
        exact ⟨[], name, p, ⟨id, 0⟩, rfl, rfl, hm⟩
      | ok m =>
        have hrest : r.path m.ty p = .error e := by
          rw [hm] at hp
          simp only [Except.bind] at hp
          cases hl : r.path m.ty p with
          | error e' => rw [hl] at hp; exact hp
          | ok l => rw [hl] at hp; cases hp
        obtain ⟨before, next, after, n, rfl, hn, he⟩ := ih hrest
        exact ⟨name :: before, next, after, m.within n, rfl,
          path_cons_ok.mpr ⟨m, n, hm, hn, rfl⟩, he⟩
  · rintro ⟨before, name, after, m, rfl, hm, he⟩
    rw [path_append, hm]
    simp only [Except.bind]
    rw [path_cons, he]
    rfl

theorem Consistent.path_inside (h : r.Consistent) {p : List String} {m : MemberRef}
    (hp : r.path id p = .ok m) : m.offset + r.sizeOf m.ty ≤ r.sizeOf id := by
  induction p generalizing id m with
  | nil =>
    cases hp
    exact Nat.le_of_eq (Nat.zero_add _)
  | cons name p ih =>
    obtain ⟨first, l, hfirst, hl, rfl⟩ := path_cons_ok.mp hp
    have hmember := (h.inside_of_member hfirst).2
    have hrest := ih hl
    simp only [MemberRef.within]
    omega

/-- Of two members either can be the earlier one. -/
theorem apart_of_pairwise {ms : List Member}
    (h : ms.Pairwise fun m m' => m.offset + r.sizeOf m.ty ≤ m'.offset) {m m' : Member}
    (hm : m ∈ ms) (hm' : m' ∈ ms) (hne : m ≠ m') :
    m.offset + r.sizeOf m.ty ≤ m'.offset ∨ m'.offset + r.sizeOf m'.ty ≤ m.offset := by
  induction h with
  | nil => cases hm
  | cons first _ ih =>
    rcases List.mem_cons.mp hm with rfl | hrest
    · rcases List.mem_cons.mp hm' with rfl | hrest'
      · exact absurd rfl hne
      · exact .inl (first _ hrest')
    · rcases List.mem_cons.mp hm' with rfl | hrest'
      · exact .inr (first _ hrest)
      · exact ih hrest hrest'

/-- Members of different names do not overlap. -/
theorem Consistent.member_disjoint (h : r.Consistent) {name name' : String} {m m' : MemberRef}
    (hm : r.member id name = .ok m) (hm' : r.member id name' = .ok m') (hne : name ≠ name') :
    m.offset + r.sizeOf m.ty ≤ m'.offset ∨ m'.offset + r.sizeOf m'.ty ≤ m.offset := by
  have hstruct := (h.inside_of_member hm).1
  cases hty : r.ty id with
  | struct s =>
    obtain ⟨l, hl, rfl, rfl⟩ := (h.member_eq_ok hty).mp hm
    obtain ⟨l', hl', rfl, rfl⟩ := (h.member_eq_ok hty).mp hm'
    obtain ⟨ds, stop, -, hspecified, -⟩ := h.specified hty
    have hapart : l ≠ l' := fun heq => hne (congrArg Member.name heq)
    exact apart_of_pairwise hspecified.disjoint hl hl' hapart
  | _ => simp [isStruct, hty] at hstruct

theorem Consistent.path_disjoint (h : r.Consistent) {p q : List String} {m n : MemberRef}
    (hp : r.path id p = .ok m) (hq : r.path id q = .ok n) (hpq : ¬ p <+: q) (hqp : ¬ q <+: p) :
    m.offset + r.sizeOf m.ty ≤ n.offset ∨ n.offset + r.sizeOf n.ty ≤ m.offset := by
  induction p generalizing id m n q with
  | nil => exact absurd List.nil_prefix hpq
  | cons name p ih =>
    cases q with
    | nil => exact absurd List.nil_prefix hqp
    | cons name' q =>
      obtain ⟨first, l, hfirst, hl, rfl⟩ := path_cons_ok.mp hp
      obtain ⟨first', l', hfirst', hl', rfl⟩ := path_cons_ok.mp hq
      simp only [MemberRef.within]
      by_cases hname : name = name'
      · subst hname
        obtain rfl : first = first' := Except.ok.inj (hfirst.symm.trans hfirst')
        have hrest := ih hl hl' (fun hpre => hpq (List.cons_prefix_cons.mpr ⟨rfl, hpre⟩))
          fun hpre => hqp (List.cons_prefix_cons.mpr ⟨rfl, hpre⟩)
        omega
      · have hinside := h.path_inside hl
        have hinside' := h.path_inside hl'
        have hapart := h.member_disjoint hfirst hfirst' hname
        omega

/-- What following names from a type gives. -/
structure Paths (r : Registry) (id : TypeId) : Prop where
  append : ∀ p q, r.path id (p ++ q) =
    match r.path id p with
    | .error e => .error e
    | .ok m =>
      match r.path m.ty q with
      | .error e => .error e
      | .ok n => .ok ⟨n.ty, m.offset + n.offset⟩
  failed : ∀ p e, r.path id p = .error e ↔
    ∃ before name after m, p = before ++ name :: after ∧ r.path id before = .ok m ∧
      r.member m.ty name = .error e
  inside : ∀ p m, r.path id p = .ok m →
    m.offset + r.sizeOf m.ty ≤ r.sizeOf id ∧ r.sizeOf id ≤ maxObjectSize
  disjoint : ∀ p q m n, r.path id p = .ok m → r.path id q = .ok n → ¬ p <+: q → ¬ q <+: p →
    m.offset + r.sizeOf m.ty ≤ n.offset ∨ n.offset + r.sizeOf n.ty ≤ m.offset

theorem members_and_paths (h : Reachable model limit r) (id : TypeId) :
    (r.isStruct id = true → ∃ name ds, Declared model limit r id name ds) ∧
      (∀ name ds, Declared model limit r id name ds → Members r id name ds) ∧
      (r.isStruct id = false → ∀ field,
        r.member id field = .error (.notAStruct (r.display id) Span.nowhere)) ∧
      Paths r id := by
  have hr := h.consistent
  refine ⟨h.declared, fun name ds hdeclared => members_of_declared hr hdeclared,
    member_of_not_struct, ?_⟩
  constructor
  case append =>
    intro p q
    rw [path_append]
    cases hp : r.path id p with
    | error e => rfl
    | ok m => cases hq : r.path m.ty q <;> simp [Except.bind, Except.map, hq, MemberRef.within]
  case failed => exact fun p e => path_eq_error
  case inside =>
    intro p m hp
    refine ⟨hr.path_inside hp, ?_⟩
    by_cases hlt : id.index < r.types.size
    · exact (hr.entry id hlt).size
    · simp [sizeOf, info, Array.getElem?_eq_none (Nat.le_of_not_lt hlt), Array.getD_eq_getD_getElem?]
      decide
  case disjoint => exact fun p q m n hp hq hpq hqp => hr.path_disjoint hp hq hpq hqp

theorem members_and_paths_of_char_and_int :
    let ds : List MemberDecl := [⟨"c", cChar, Span.nowhere⟩, ⟨"i", cInt, Span.nowhere⟩]
    let r := ((Call.buildStruct (some "s") ds).run (initial ⟨.lp64, 64⟩)).2
    Members r ⟨9⟩ (some "s") ds ∧ Paths r ⟨9⟩ := by
  intro ds r
  have hproper : (Call.buildStruct (some "s") ds).Proper (initial ⟨.lp64, 64⟩) :=
    ⟨by decide +kernel, by dsimp only; unfold Holds; decide +kernel⟩
  have hreached : Reachable .lp64 64 r := .call _ .new hproper
  have hbuilt : ((Call.buildStruct (some "s") ds).run (initial ⟨.lp64, 64⟩)).1 = .ok ⟨9⟩ := by
    decide +kernel
  obtain ⟨-, hmembers, -, hpaths⟩ := members_and_paths hreached ⟨9⟩
  exact ⟨hmembers (some "s") ds ⟨.new, hproper, Prod.ext hbuilt rfl, .refl r⟩, hpaths⟩

end Registry
end MiniC
