import MiniC.Proofs.Layout.Paths
/-!
The scalars of an object, in every registry that calls reach. An access path names members and counts
elements on the way to a scalar. Main statement: flattening a type lists one move for every access
path, where the path leads and as wide as the scalar there, in order of address.
-/
namespace MiniC.Registry

variable {r : Registry} {t : TypeId} {model : DataModel} {limit : Nat}

/-- One step into an object. -/
inductive Segment where
  | member (name : String)
  | subscript (index : Nat)
  deriving DecidableEq, Repr

/-- What one step reaches; a subscript has to be in range. -/
def step? (r : Registry) (t : TypeId) : Segment → Option MemberRef
  | .member name => (r.member t name).toOption
  | .subscript i =>
    match r.ty t with
    | .array element length => if i < length then some ⟨element, i * r.sizeOf element⟩ else none
    | _ => none

/-- What the steps of an access path reach, with the offsets added up. -/
def follow? (r : Registry) (t : TypeId) : List Segment → Option MemberRef
  | [] => some ⟨t, 0⟩
  | s :: p =>
    match r.step? t s with
    | none => none
    | some m => (r.follow? m.ty p).map m.within

/-- The access path leads to the scalar that the move moves. -/
def LeadsTo (r : Registry) (t : TypeId) (p : List Segment) (m : ScalarMove) : Prop :=
  ∃ leaf, r.follow? t p = some ⟨leaf, m.offset⟩ ∧ r.access? leaf = some m.access ∧
    r.alignOf leaf ∣ m.offset

/-! Elements and members alike. -/

/-- The elements of an array or the members of a struct. -/
def parts (r : Registry) (t : TypeId) : List (Segment × MemberRef) :=
  match r.ty t with
  | .array element length =>
    (List.range length).map fun i => (.subscript i, ⟨element, i * r.sizeOf element⟩)
  | .struct s => (r.structType s).members.map fun m => (.member m.name, ⟨m.ty, m.offset⟩)
  | .void | .int .. | .pointer _ => []

theorem Consistent.moves_eq_parts (h : r.Consistent) (ha : r.access? t = none) :
    r.moves t = (r.parts t).flatMap fun part => (r.moves part.2.ty).map (·.shift part.2.offset) := by
  rw [moves]
  cases hty : r.ty t with
  | void => simp [parts, hty]
  | int | pointer => simp [access?, hty] at ha
  | array element length =>
    obtain ⟨-, hindex⟩ := h.size_array hty
    simp only [parts, hty, if_pos hindex, List.flatMap_map]
  | struct s =>
    simp only [parts, hty, List.flatMap_map]
    refine List.flatMap_congr fun m hm => ?_
    rw [if_pos (h.member_inside hty hm).2]

theorem parts_of_access {a : Access} (ha : r.access? t = some a) : r.parts t = [] := by
  unfold access? at ha
  cases hty : r.ty t <;> simp [parts, hty] at ha ⊢

theorem Consistent.mem_parts (h : r.Consistent) {s : Segment} {m : MemberRef} :
    (s, m) ∈ r.parts t ↔ r.step? t s = some m := by
  unfold parts
  cases hty : r.ty t with
  | array element length =>
    cases s with
    | member name => simp [step?, member, asStruct?, hty, Except.toOption]
    | subscript i =>
      simp only [step?, hty, List.mem_map, List.mem_range, Prod.mk.injEq, Segment.subscript.injEq,
        Option.ite_none_right_eq_some, Option.some.injEq]
      constructor
      · rintro ⟨j, hj, rfl, rfl⟩
        exact ⟨hj, rfl⟩
      · rintro ⟨hi, rfl⟩
        exact ⟨i, hi, rfl, rfl⟩
  | struct id =>
    cases s with
    | member name =>
      have hmember : r.member t name = .ok m ↔ _ := h.member_eq_ok hty
      simp only [step?, List.mem_map, Prod.mk.injEq, Segment.member.injEq]
      cases hfound : r.member t name with
      | error e =>
        rw [hfound] at hmember
        simpa [Except.toOption, eq_comm] using hmember
      | ok n =>
        rw [hfound] at hmember
        simpa [Except.toOption, eq_comm] using hmember.symm
    | subscript i => simp [step?, hty]
  | void | int | pointer =>
    cases s with
    | member name => simp [step?, member, asStruct?, hty, Except.toOption]
    | subscript i => simp [step?, hty]

theorem Consistent.parts_distinct (h : r.Consistent) (t : TypeId) :
    ((r.parts t).map Prod.fst).Nodup := by
  unfold parts
  cases hty : r.ty t with
  | array element length =>
    rw [List.map_map]
    exact List.nodup_range.map fun i j hij => Segment.subscript.inj hij
  | struct s =>
    have hnames := (h.distinct hty).map fun a b hab => Segment.member.inj hab
    rwa [List.map_map] at hnames ⊢
  | void | int | pointer => exact List.nodup_nil

/-- Where a part lies in its object. -/
structure Part (r : Registry) (t : TypeId) (m : MemberRef) : Prop where
  older : m.ty.index < t.index
  inside : m.offset + r.sizeOf m.ty ≤ r.sizeOf t
  align : r.alignOf m.ty ∣ r.alignOf t
  aligned : r.alignOf m.ty ∣ m.offset

theorem dvd_of_mem_alignments {a b : Nat} (ha : a ∈ Layout.alignments) (hb : b ∈ Layout.alignments)
    (hle : a ≤ b) : a ∣ b := by
  have hall : ∀ a ∈ Layout.alignments, ∀ b ∈ Layout.alignments, a ≤ b → a ∣ b := by decide
  exact hall a ha b hb hle

/-- A struct is aligned like its most aligned member. -/
theorem Consistent.align_member {s : StructId} {m : Member} (h : r.Consistent)
    (hty : r.ty t = .struct s) (hm : m ∈ (r.structType s).members) :
    r.alignOf m.ty ∣ r.alignOf t ∧ r.alignOf m.ty ∣ m.offset := by
  obtain ⟨ds, stop, -, hspecified, -, halign, holder⟩ := h.specified hty
  have hentry := h.entry_of_ty (t := t) (by simp [hty])
  have hlt : t.index < r.types.size := by
    by_contra hlt
    rw [ty_of_not_lt hlt] at hty
    cases hty
  obtain ⟨hdeclared, haligned⟩ := hspecified.members.aligned m hm
  refine ⟨?_, haligned⟩
  have hmember := (h.entry m.ty (Nat.lt_trans (holder m hm) hlt)).align
  refine dvd_of_mem_alignments hmember hentry.align ?_
  rw [halign, hspecified.align]
  exact Layout.Extent.le_widest hdeclared

theorem Consistent.part (h : r.Consistent) {part : Segment × MemberRef} (hpart : part ∈ r.parts t) :
    Part r t part.2 := by
  unfold parts at hpart
  cases hty : r.ty t with
  | array element length =>
    simp only [hty, List.mem_map, List.mem_range] at hpart
    obtain ⟨i, hi, rfl⟩ := hpart
    obtain ⟨hsize, hindex⟩ := h.size_array hty
    have hentry := h.entry_of_ty (t := t) (by simp [hty])
    have halign : r.alignOf t = r.alignOf element := by
      have hcached := hentry.cached
      rw [hty] at hcached
      exact congrArg Layout.Extent.align hcached
    have hlt : t.index < r.types.size := by
      by_contra hlt
      rw [ty_of_not_lt hlt] at hty
      cases hty
    refine ⟨hindex, ?_, halign ▸ Nat.dvd_refl _, ?_⟩
    · have hspace := Nat.mul_le_mul_right (r.sizeOf element) (Nat.succ_le_of_lt hi)
      rw [Nat.succ_mul] at hspace
      rw [hsize, Nat.mul_comm (r.sizeOf element) length]
      exact hspace
    · exact Nat.dvd_mul_left_of_dvd (h.entry element (Nat.lt_trans hindex hlt)).dvd i
  | struct s =>
    simp only [hty, List.mem_map] at hpart
    obtain ⟨m, hm, rfl⟩ := hpart
    obtain ⟨hinside, hindex⟩ := h.member_inside hty hm
    obtain ⟨halign, haligned⟩ := h.align_member hty hm
    exact ⟨hindex, hinside, halign, haligned⟩
  | void | int | pointer => simp [hty] at hpart

/-- Every part ends before the next begins. -/
theorem Consistent.parts_ordered (h : r.Consistent) (t : TypeId) :
    (r.parts t).Pairwise fun a b => a.2.offset + r.sizeOf a.2.ty ≤ b.2.offset := by
  unfold parts
  cases hty : r.ty t with
  | array element length =>
    refine List.pairwise_map.mpr (List.pairwise_lt_range.imp fun {i j} hij => ?_)
    have hspace := Nat.mul_le_mul_right (r.sizeOf element) (Nat.succ_le_of_lt hij)
    rwa [Nat.succ_mul] at hspace
  | struct s =>
    obtain ⟨ds, stop, -, hspecified, -⟩ := h.specified hty
    exact List.pairwise_map.mpr hspecified.disjoint
  | void | int | pointer => exact .nil

/-- The scalars of a part are scalars of the whole. -/
theorem Consistent.isLeaf_of_part (h : r.Consistent) {part : Segment × MemberRef} (hpart : part ∈ r.parts t)
    {o : Nat} (ho : r.IsLeaf part.2.ty o) : r.IsLeaf t (part.2.offset + o) := by
  have ha : r.access? t = none := by
    cases ha : r.access? t with
    | none => rfl
    | some a =>
      rw [parts_of_access ha] at hpart
      cases hpart
  obtain ⟨m, hm, hle, hlt⟩ := ho
  rw [IsLeaf, h.moves_eq_parts ha]
  refine ⟨m.shift part.2.offset, List.mem_flatMap.mpr ⟨part, hpart, List.mem_map_of_mem hm⟩, ?_⟩
  simp only [ScalarMove.shift]
  omega

/-! Access paths. -/

/-- Where an access path leads, everything is aligned. -/
theorem Consistent.follow_aligned (h : r.Consistent) {p : List Segment} {m : MemberRef}
    (hp : r.follow? t p = some m) : r.alignOf m.ty ∣ r.alignOf t ∧ r.alignOf m.ty ∣ m.offset := by
  induction p generalizing t m with
  | nil =>
    cases hp
    exact ⟨Nat.dvd_refl _, Nat.dvd_zero _⟩
  | cons s p ih =>
    rw [follow?] at hp
    cases hs : r.step? t s with
    | none => simp [hs] at hp
    | some first =>
      simp only [hs, Option.map_eq_some_iff] at hp
      obtain ⟨rest, hrest, rfl⟩ := hp
      have hpart := h.part (h.mem_parts.mpr hs)
      obtain ⟨halign, haligned⟩ := ih hrest
      exact ⟨Nat.dvd_trans halign hpart.align,
        Nat.dvd_add (Nat.dvd_trans halign hpart.aligned) haligned⟩

theorem leadsTo_nil {m : ScalarMove} :
    LeadsTo r t [] m ↔ m.offset = 0 ∧ r.access? t = some m.access := by
  constructor
  · rintro ⟨leaf, hleaf, ha, -⟩
    obtain ⟨rfl, hoffset⟩ := MemberRef.mk.inj (Option.some.inj hleaf)
    exact ⟨hoffset.symm, ha⟩
  · rintro ⟨hoffset, ha⟩
    exact ⟨t, by rw [hoffset]; rfl, ha, by rw [hoffset]; exact Nat.dvd_zero _⟩

/-- An access path into an object goes on into one of its parts. -/
theorem leadsTo_cons (h : r.Consistent) {s : Segment} {p : List Segment} {m : ScalarMove} :
    LeadsTo r t (s :: p) m ↔
      ∃ part n, (s, part) ∈ r.parts t ∧ LeadsTo r part.ty p n ∧ m = n.shift part.offset := by
  constructor
  · rintro ⟨leaf, hleaf, ha, haligned⟩
    rw [follow?] at hleaf
    cases hs : r.step? t s with
    | none => simp [hs] at hleaf
    | some part =>
      simp only [hs, Option.map_eq_some_iff] at hleaf
      obtain ⟨rest, hrest, heq⟩ := hleaf
      obtain ⟨rfl, hoffset⟩ := MemberRef.mk.inj heq
      refine ⟨part, ⟨rest.offset, m.access⟩, h.mem_parts.mpr hs,
        ⟨rest.ty, hrest, ha, (h.follow_aligned hrest).2⟩, ?_⟩
      cases m
      exact congrArg (ScalarMove.mk · _) hoffset.symm
  · rintro ⟨part, n, hpart, ⟨leaf, hleaf, ha, -⟩, rfl⟩
    have hfollow : r.follow? t (s :: p) = some ⟨leaf, part.offset + n.offset⟩ := by
      rw [follow?, h.mem_parts.mp hpart]
      simp only [hleaf, Option.map_some, MemberRef.within]
    exact ⟨leaf, hfollow, ha, (h.follow_aligned hfollow).2⟩

/-- The access paths of a type, each once, and the move that each stands for. -/
structure Enumerates (r : Registry) (t : TypeId) (ps : List (List Segment)) : Prop where
  once : ps.Nodup
  all : ∀ p, p ∈ ps ↔ ∃ m, LeadsTo r t p m
  moves : List.Forall₂ (LeadsTo r t) ps (r.moves t)

theorem enumerates_scalar {a : Access} (h : r.Consistent) (ha : r.access? t = some a) :
    Enumerates r t [[]] := by
  constructor
  case once => exact List.nodup_singleton _
  case all =>
    intro p
    cases p with
    | nil => simpa using ⟨⟨0, a⟩, leadsTo_nil.mpr ⟨rfl, ha⟩⟩
    | cons s p => simp [leadsTo_cons h, parts_of_access ha]
  case moves =>
    rw [moves_scalar ha]
    exact .cons (leadsTo_nil.mpr ⟨rfl, ha⟩) .nil

/-- The access paths of an object are those of its parts, after the step to the part. -/
theorem enumerates_parts (h : r.Consistent) (ha : r.access? t = none)
    {inner : TypeId → List (List Segment)}
    (hinner : ∀ part ∈ r.parts t, Enumerates r part.2.ty (inner part.2.ty)) :
    Enumerates r t ((r.parts t).flatMap fun part => (inner part.2.ty).map (part.1 :: ·)) := by
  constructor
  case once =>
    refine List.nodup_flatMap.mpr ⟨fun part hpart => ?_, ?_⟩
    · exact (hinner part hpart).once.map List.cons_injective
    · refine (List.pairwise_map.mp (h.parts_distinct t)).imp fun {a b} hne p hp hp' => ?_
      obtain ⟨_, _, rfl⟩ := List.mem_map.mp hp
      obtain ⟨_, _, heq⟩ := List.mem_map.mp hp'
      exact hne (List.cons.inj heq).1.symm
  case all =>
    intro p
    cases p with
    | nil => simp [leadsTo_nil, ha]
    | cons s p =>
      simp only [leadsTo_cons h, List.mem_flatMap, List.mem_map, List.cons.injEq]
      constructor
      · rintro ⟨⟨_, part⟩, hpart, _, hp, rfl, rfl⟩
        obtain ⟨n, hn⟩ := ((hinner _ hpart).all _).mp hp
        exact ⟨_, part, n, hpart, hn, rfl⟩
      · rintro ⟨_, part, n, hpart, hn, -⟩
        exact ⟨(s, part), hpart, p, ((hinner _ hpart).all p).mpr ⟨n, hn⟩, rfl, rfl⟩
  case moves =>
    rw [h.moves_eq_parts ha]
    refine List.rel_flatMap (R := fun a b => a = b ∧ a ∈ r.parts t)
      (List.forall₂_same.mpr fun part hpart => ⟨rfl, hpart⟩) ?_
    rintro part _ ⟨rfl, hpart⟩
    rw [List.forall₂_map_left_iff, List.forall₂_map_right_iff]
    exact (hinner part hpart).moves.imp fun p n hn =>
      (leadsTo_cons h).mpr ⟨part.2, n, hpart, hn, rfl⟩

theorem Consistent.exists_enumerates (h : r.Consistent) (t : TypeId) :
    ∃ ps, Enumerates r t ps := by
  induction hn : t.index using Nat.strongRecOn generalizing t with
  | ind n ih =>
    subst hn
    cases ha : r.access? t with
    | some a => exact ⟨_, enumerates_scalar h ha⟩
    | none =>
      choose! inner hinner using fun (u : TypeId) (hu : u.index < t.index) => ih u.index hu u rfl
      exact ⟨_, enumerates_parts h ha fun part hpart => hinner _ (h.part hpart).older⟩

/-- Every move ends before the next begins. -/
theorem Consistent.moves_ordered (h : r.Consistent) (t : TypeId) :
    (r.moves t).Pairwise fun m n => m.offset + m.access.size ≤ n.offset := by
  induction hn : t.index using Nat.strongRecOn generalizing t with
  | ind n ih =>
    subst hn
    cases ha : r.access? t with
    | some a =>
      rw [moves_scalar ha]
      exact List.pairwise_singleton _ _
    | none =>
      rw [h.moves_eq_parts ha]
      refine List.pairwise_flatMap.mpr ⟨fun part hpart => ?_, ?_⟩
      · refine List.pairwise_map.mpr ((ih _ (h.part hpart).older _ rfl).imp fun {m n} hmn => ?_)
        simp only [ScalarMove.shift]
        omega
      · refine (h.parts_ordered t).imp fun {a b} hab m hm n hn => ?_
        obtain ⟨m, hmoves, rfl⟩ := List.mem_map.mp hm
        obtain ⟨n, -, rfl⟩ := List.mem_map.mp hn
        have hinside := h.move_inside a.2.ty hmoves
        simp only [ScalarMove.shift]
        omega

/-- The moves of a type are its scalars, in order of address. -/
structure Flattened (r : Registry) (t : TypeId) : Prop where
  paths : ∃ ps, Enumerates r t ps
  ordered : (r.moves t).Pairwise fun m n => m.offset + m.access.size ≤ n.offset
  inside : ∀ m ∈ r.moves t, m.offset + m.access.size ≤ r.sizeOf t

theorem moves_flatten (h : Reachable model limit r) (t : TypeId) : Flattened r t :=
  ⟨h.consistent.exists_enumerates t, h.consistent.moves_ordered t,
    fun _ hm => h.consistent.move_inside t hm⟩

theorem moves_of_char_and_int :
    let ds : List MemberDecl := [⟨"c", cChar, Span.nowhere⟩, ⟨"i", cInt, Span.nowhere⟩]
    Flattened ((Call.buildStruct none ds).run (initial ⟨.lp64, 64⟩)).2 ⟨9⟩ := by
  intro ds
  have hproper : (Call.buildStruct none ds).Proper (initial ⟨.lp64, 64⟩) :=
    ⟨by decide +kernel, by dsimp only; unfold Holds; decide +kernel⟩
  have hreached : Reachable .lp64 64 ((Call.buildStruct none ds).run (initial ⟨.lp64, 64⟩)).2 :=
    .call _ .new hproper
  exact moves_flatten hreached ⟨9⟩

end MiniC.Registry
