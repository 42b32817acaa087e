import Mathlib.Data.List.Nodup
import MiniC.Proofs.Syntax.Script
/-!
Struct tags in the order of the source. A body binds its tag in the innermost scope once it has
ended, and a specifier without a body refers to the innermost binding of its tag. A specifier counts
where it is met first, so the declarators that share one do not count again. Main statements: at the
end every specifier was met, the bodies are those of the source, each once, and whatever has no body
refers to a body that was met before.
-/
namespace MiniC.Syntax

/-- What is known of tags somewhere in a source. Specifiers are given by their numbers. -/
structure Tags where
  /-- The bodies that tags are bound to, innermost scope first. -/
  frames : List (List (String × Nat))
  met : List Nat
  /-- The specifiers with bodies, in the order in which the bodies end. -/
  bodies : List Nat
  /-- The specifiers without bodies, with what their tags were bound to where they were met. -/
  uses : List (Nat × Option Nat)

namespace Tags

def start : Tags := ⟨[[]], [], [], []⟩

/-- What the innermost scope that binds this tag binds it to. -/
def binding? (W : Tags) (tag : String) : Option Nat :=
  (W.frames.findSome? (·.find? (·.1 == tag))).map (·.2)

def enter (W : Tags) : Tags := { W with frames := [] :: W.frames }

def leave (W : Tags) : Tags := { W with frames := W.frames.tail }

/-- A tag is bound in the innermost scope. -/
def bind (tag : Option String) (id : Nat) : List (List (String × Nat)) → List (List (String × Nat))
  | [] => []
  | f :: fs => (tag.elim f fun name => (name, id) :: f) :: fs

/-- The end of a body. -/
def close (W : Tags) (tag : Option String) (id : Nat) : Tags :=
  { W with
    frames := bind tag id W.frames
    met := id :: W.met
    bodies := W.bodies ++ [id] }

/-- A specifier without a body. -/
def refer (W : Tags) (tag : String) (id : Nat) : Tags :=
  { W with met := id :: W.met, uses := (id, W.binding? tag) :: W.uses }

end Tags

mutual

def TypeExpr.walk : TypeExpr → Tags → Tags
  | ⟨kind, _, _⟩, W => kind.walk W

def TypeKind.walk : TypeKind → Tags → Tags
  | .void, W | .int .., W => W
  | .pointer inner, W => inner.walk W
  | .array element _, W => element.walk W
  | .struct spec, W => spec.walk W

def StructSpec.walk : StructSpec → Tags → Tags
  | ⟨id, name, members, _⟩, W => if id ∈ W.met then W else walkBody id name members W

def walkBody (id : Nat) (name : Option String) : Option (List StructMember) → Tags → Tags
  | none, W => W.refer (name.getD "") id
  | some ms, W => (walkMembers ms W).close name id

def walkMembers : List StructMember → Tags → Tags
  | [], W => W
  | m :: ms, W => walkMembers ms (m.walk W)

def StructMember.walk : StructMember → Tags → Tags
  | ⟨_, ty, _⟩, W => ty.walk W

end

def Written.walk : Written → Tags → Tags
  | .value ty, W | .object ty _, W | .param ty, W => ty.walk W
  | .struct spec, W => spec.walk W

/-- Either in the order of the source, or with the condition of each loop before its body. -/
def Script.walk (asWritten : Bool) : Script → Tags → Tags
  | .done, W => W
  | .written x rest, W => rest.walk asWritten (x.walk W)
  | .scope inner rest, W => rest.walk asWritten (inner.walk asWritten W.enter).leave
  | .doWhile body cond rest, W =>
    rest.walk asWritten
      (if asWritten then cond.walk asWritten (body.walk asWritten W)
        else body.walk asWritten (cond.walk asWritten W))

theorem Script.walk_append (asWritten : Bool) (o o' : Script) (W : Tags) :
    (o.append o').walk asWritten W = o'.walk asWritten (o.walk asWritten W) := by
  induction o generalizing W with
  | done => rfl
  | written x rest ih => exact ih _
  | scope inner rest _ ih => exact ih _
  | doWhile body cond rest _ _ ih => exact ih _

/-! The two orders agree where no condition behind its body has a struct specifier. -/

mutual

theorem TypeExpr.walk_eq_self {W : Tags} : ∀ ty : TypeExpr, ty.specs = [] → ty.walk W = W
  | ⟨kind, _, _⟩, h => by
    rw [TypeExpr.specs] at h
    rw [TypeExpr.walk]
    exact kind.walk_eq_self h

theorem TypeKind.walk_eq_self {W : Tags} : ∀ kind : TypeKind, kind.specs = [] → kind.walk W = W
  | .void, _ | .int .., _ => by rw [TypeKind.walk]
  | .pointer inner, h | .array inner _, h => by
    rw [TypeKind.specs] at h
    rw [TypeKind.walk]
    exact inner.walk_eq_self h
  | .struct ⟨id, name, members, span⟩, h => by
    rw [TypeKind.specs, StructSpec.specs] at h
    cases h

end

theorem Written.walk_eq_self {W : Tags} {x : Written} (h : x.specs = []) : x.walk W = W := by
  cases x with
  | value ty | object ty init | param ty => exact ty.walk_eq_self h
  | struct spec => exact (TypeKind.struct spec).walk_eq_self h

theorem Script.walk_eq_self {asWritten : Bool} {o : Script} (h : o.specs = []) {W : Tags} :
    o.walk asWritten W = W := by
  induction o generalizing W with
  | done => rfl
  | written x rest ih =>
    rw [specs_written, List.append_eq_nil_iff] at h
    rw [walk, Written.walk_eq_self h.1]
    exact ih h.2
  | scope inner rest ihi ih =>
    rw [specs_scope, List.append_eq_nil_iff] at h
    rw [walk, ihi h.1]
    exact ih h.2
  | doWhile body cond rest ihb ihc ih =>
    rw [specs_doWhile, List.append_eq_nil_iff, List.append_eq_nil_iff] at h
    rw [walk, ihb h.1, ihc h.2.1, ihb h.1, ite_self]
    exact ih h.2.2

/-- No condition that stands behind its loop's body has a struct specifier. -/
def Script.Straight : Script → Prop
  | .done => True
  | .written _ rest => rest.Straight
  | .scope inner rest => inner.Straight ∧ rest.Straight
  | .doWhile body cond rest => cond.specs = [] ∧ body.Straight ∧ rest.Straight

theorem Script.walk_eq_of_straight {o : Script} (h : o.Straight) {W : Tags} :
    o.walk true W = o.walk false W := by
  induction o generalizing W with
  | done => rfl
  | written x rest ih => exact ih h
  | scope inner rest ihi ih =>
    rw [walk, walk, ihi h.1]
    exact ih h.2
  | doWhile body cond rest ihb _ ih =>
    rw [walk, walk, if_pos rfl, if_neg Bool.false_ne_true, walk_eq_self h.1, walk_eq_self h.1,
      ihb h.2.1]
    exact ih h.2.2

/-! What a walk gathers. -/

/-- Numbers tell specifiers apart, and a specifier has a greater number than those in its body. -/
structure Numbered (L : List StructSpec) : Prop where
  unique : ∀ spec ∈ L, ∀ spec' ∈ L, spec.id = spec'.id → spec = spec'
  inner : ∀ spec ∈ L, ∀ inner ∈ specsOfBody spec.members, inner.id < spec.id

/-- What is known of the specifiers of a source, wherever a walk has got to. -/
structure Tags.Gathers (L : List StructSpec) (W : Tags) : Prop where
  inner : ∀ spec ∈ L, spec.id ∈ W.met → ∀ inner ∈ specsOfBody spec.members, inner.id ∈ W.met
  used : ∀ spec ∈ L, spec.id ∈ W.met → spec.members = none → ∃ b, (spec.id, b) ∈ W.uses
  bodies : ∀ b, b ∈ W.bodies ↔ b ∈ W.met ∧ ∃ spec ∈ L, spec.id = b ∧ spec.hasBody = true
  nodup : W.bodies.Nodup
  bound : ∀ f ∈ W.frames, ∀ p ∈ f, p.2 ∈ W.bodies
  uses : ∀ id b, (id, some b) ∈ W.uses → b ∈ W.bodies

/-- These specifiers were met, and outer scopes are as they were. -/
structure Tags.Gains (specs : List StructSpec) (W W' : Tags) : Prop where
  met : ∀ id, id ∈ W'.met ↔ id ∈ W.met ∨ ∃ spec ∈ specs, spec.id = id
  outer : ∃ f f' fs, W.frames = f :: fs ∧ W'.frames = f' :: fs

namespace Tags

variable {L : List StructSpec} {W W' W'' : Tags} {specs specs' : List StructSpec}

theorem gathers_start : start.Gathers L where
  inner _ _ h := absurd h List.not_mem_nil
  used _ _ h := absurd h List.not_mem_nil
  bodies b := ⟨fun h => absurd h List.not_mem_nil, fun h => absurd h.1 List.not_mem_nil⟩
  nodup := List.nodup_nil
  bound f hf p hp := by
    rw [start, List.mem_singleton] at hf
    rw [hf] at hp
    cases hp
  uses _ _ h := absurd h List.not_mem_nil

theorem Gains.nil (h : W.frames ≠ []) : Gains [] W W where
  met id := by simp
  outer := by
    obtain ⟨f, fs, hf⟩ := List.exists_cons_of_ne_nil h
    exact ⟨f, f, fs, hf, hf⟩

theorem Gains.ne_nil (h : Gains specs W W') : W'.frames ≠ [] := by
  obtain ⟨f, f', fs, -, hf⟩ := h.outer
  rw [hf]
  exact List.cons_ne_nil _ _

theorem Gains.append (h : Gains specs W W') (h' : Gains specs' W' W'') :
    Gains (specs ++ specs') W W'' where
  met id := by
    rw [h'.met, h.met]
    simp only [List.mem_append]
    grind
  outer := by
    obtain ⟨f, f', fs, hf, hf'⟩ := h.outer
    obtain ⟨g, g', gs, hg, hg'⟩ := h'.outer
    rw [hf'] at hg
    cases hg
    exact ⟨f, g', fs, hf, hg'⟩

theorem Gains.comm (h : Gains (specs ++ specs') W W') : Gains (specs' ++ specs) W W' where
  met id := by
    rw [h.met]
    simp only [List.mem_append, or_comm]
  outer := h.outer

/-- A number greater than all that were met is still new. -/
theorem Gains.not_mem (h : Gains specs W W') {id : Nat} (hnew : id ∉ W.met)
    (hlt : ∀ spec ∈ specs, spec.id < id) : id ∉ W'.met := by
  intro hmet
  rcases (h.met id).mp hmet with hmet | ⟨spec, hspec, heq⟩
  · exact hnew hmet
  · have := hlt spec hspec
    omega

theorem mem_bodies_of_binding (h : W.Gathers L) {tag : String} {b : Nat}
    (hb : W.binding? tag = some b) : b ∈ W.bodies := by
  obtain ⟨p, hp, rfl⟩ := Option.map_eq_some_iff.mp hb
  obtain ⟨f, hf, hfind⟩ := List.exists_of_findSome?_eq_some hp
  exact h.bound f hf p (List.mem_of_find?_eq_some hfind)

theorem mem_bind {tag : Option String} {id : Nat} {frames : List (List (String × Nat))}
    {f : List (String × Nat)} {p : String × Nat} (hf : f ∈ bind tag id frames) (hp : p ∈ f) :
    (∃ g ∈ frames, p ∈ g) ∨ p.2 = id := by
  cases frames with
  | nil => cases hf
  | cons g gs =>
    rcases List.mem_cons.mp hf with rfl | hf
    · cases tag with
      | none => exact .inl ⟨g, List.mem_cons_self, hp⟩
      | some name =>
        rcases List.mem_cons.mp hp with rfl | hp
        · exact .inr rfl
        · exact .inl ⟨g, List.mem_cons_self, hp⟩
    · exact .inl ⟨f, List.mem_cons_of_mem _ hf, hp⟩

theorem Gathers.close (h : W.Gathers L) (hL : Numbered L) {spec : StructSpec} (hspec : spec ∈ L)
    (hbody : spec.hasBody = true) (hinner : ∀ inner ∈ specsOfBody spec.members, inner.id ∈ W.met)
    (hnew : spec.id ∉ W.met) : (W.close spec.name spec.id).Gathers L := by
  have hmem {b : Nat} : b ∈ W.bodies ++ [spec.id] ↔ b ∈ W.bodies ∨ b = spec.id := by simp
  constructor
  case inner =>
    intro other hother hmet inner hi
    refine List.mem_cons_of_mem _ ?_
    rcases List.mem_cons.mp hmet with heq | hmet
    · obtain rfl := hL.unique other hother spec hspec heq
      exact hinner inner hi
    · exact h.inner other hother hmet inner hi
  case used =>
    intro other hother hmet hnone
    rcases List.mem_cons.mp hmet with heq | hmet
    · obtain rfl := hL.unique other hother spec hspec heq
      rw [StructSpec.hasBody, hnone] at hbody
      cases hbody
    · obtain ⟨b, hb⟩ := h.used other hother hmet hnone
      exact ⟨b, hb⟩
  case bodies =>
    intro b
    show b ∈ W.bodies ++ [spec.id] ↔ b ∈ spec.id :: W.met ∧ _
    rw [hmem, List.mem_cons, h.bodies]
    constructor
    · rintro (⟨hmet, hb⟩ | rfl)
      · exact ⟨.inr hmet, hb⟩
      · exact ⟨.inl rfl, spec, hspec, rfl, hbody⟩
    · rintro ⟨rfl | hmet, hb⟩
      · exact .inr rfl
      · exact .inl ⟨hmet, hb⟩
  case nodup =>
    refine List.Nodup.append h.nodup (List.nodup_singleton _) fun b hb hb' => ?_
    rw [List.mem_singleton] at hb'
    exact hnew (hb' ▸ ((h.bodies b).mp hb).1)
  case bound =>
    intro f hf p hp
    exact hmem.mpr ((mem_bind hf hp).imp (fun ⟨g, hg, hp⟩ => h.bound g hg p hp) id)
  case uses => exact fun id b hb => hmem.mpr (.inl (h.uses id b hb))

theorem Gathers.refer (h : W.Gathers L) (hL : Numbered L) {spec : StructSpec} (hspec : spec ∈ L)
    (hnone : spec.members = none) : (W.refer (spec.name.getD "") spec.id).Gathers L := by
  constructor
  case inner =>
    intro other hother hmet inner hi
    refine List.mem_cons_of_mem _ ?_
    rcases List.mem_cons.mp hmet with heq | hmet
    · obtain rfl := hL.unique other hother spec hspec heq
      rw [hnone, specsOfBody] at hi
      cases hi
    · exact h.inner other hother hmet inner hi
  case used =>
    intro other hother hmet hother'
    rcases List.mem_cons.mp hmet with heq | hmet
    · rw [heq]
      exact ⟨_, List.mem_cons_self⟩
    · obtain ⟨b, hb⟩ := h.used other hother hmet hother'
      exact ⟨b, List.mem_cons_of_mem _ hb⟩
  case bodies =>
    intro b
    show b ∈ W.bodies ↔ b ∈ spec.id :: W.met ∧ _
    rw [h.bodies, List.mem_cons]
    constructor
    · exact fun hb => ⟨.inr hb.1, hb.2⟩
    · rintro ⟨rfl | hmet, other, hother, heq, hbody⟩
      · obtain rfl := hL.unique other hother spec hspec heq
        rw [StructSpec.hasBody, hnone] at hbody
        cases hbody
      · exact ⟨hmet, other, hother, heq, hbody⟩
  case nodup => exact h.nodup
  case bound => exact h.bound
  case uses =>
    intro id b hb
    rcases List.mem_cons.mp hb with heq | hb
    · exact mem_bodies_of_binding h (congrArg Prod.snd heq).symm
    · exact h.uses id b hb

end Tags

open Tags

mutual

theorem TypeExpr.gathers {L : List StructSpec} (hL : Numbered L) {W : Tags} : ∀ ty : TypeExpr,
    ty.specs ⊆ L → W.Gathers L → W.frames ≠ [] →
    (ty.walk W).Gathers L ∧ Gains ty.specs W (ty.walk W)
  | ⟨kind, _, _⟩, hspecs, h, hframes => by
    rw [TypeExpr.specs] at hspecs ⊢
    rw [TypeExpr.walk]
    exact kind.gathers hL hspecs h hframes

theorem TypeKind.gathers {L : List StructSpec} (hL : Numbered L) {W : Tags} : ∀ kind : TypeKind,
    kind.specs ⊆ L → W.Gathers L → W.frames ≠ [] →
    (kind.walk W).Gathers L ∧ Gains kind.specs W (kind.walk W)
  | .void, _, h, hframes | .int .., _, h, hframes => by
    rw [TypeKind.specs, TypeKind.walk]
    exact ⟨h, .nil hframes⟩
  | .pointer inner, hspecs, h, hframes | .array inner _, hspecs, h, hframes => by
    rw [TypeKind.specs] at hspecs ⊢
    rw [TypeKind.walk]
    exact inner.gathers hL hspecs h hframes
  | .struct spec, hspecs, h, hframes => by
    rw [TypeKind.specs] at hspecs ⊢
    rw [TypeKind.walk]
    exact spec.gathers hL hspecs h hframes

theorem StructSpec.gathers {L : List StructSpec} (hL : Numbered L) {W : Tags} : ∀ spec : StructSpec,
    spec.specs ⊆ L → W.Gathers L → W.frames ≠ [] →
    (spec.walk W).Gathers L ∧ Gains spec.specs W (spec.walk W)
  | ⟨id, name, members, span⟩, hspecs, h, hframes => by
    rw [StructSpec.specs] at hspecs ⊢
    rw [StructSpec.walk]
    obtain ⟨hspec, hinner⟩ := List.cons_subset.mp hspecs
    split
    · rename_i hmet
      refine ⟨h, fun i => ⟨.inl, ?_⟩, (Gains.nil hframes).outer⟩
      rintro (hi | ⟨other, hother, rfl⟩)
      · exact hi
      · rcases List.mem_cons.mp hother with rfl | hother
        · exact hmet
        · exact h.inner _ hspec hmet other hother
    · rename_i hnew
      exact gathers_body hL hspec hnew members rfl hinner h hframes

theorem gathers_body {L : List StructSpec} (hL : Numbered L) {W : Tags} {spec : StructSpec}
    (hspec : spec ∈ L) (hnew : spec.id ∉ W.met) : ∀ members, spec.members = members →
    specsOfBody members ⊆ L → W.Gathers L → W.frames ≠ [] →
    (walkBody spec.id spec.name members W).Gathers L ∧
      Gains (spec :: specsOfBody members) W (walkBody spec.id spec.name members W)
  | none, hmembers, _, h, hframes => by
    rw [walkBody, specsOfBody]
    refine ⟨h.refer hL hspec hmembers, fun id => ?_, (Gains.nil hframes).outer⟩
    show id ∈ spec.id :: W.met ↔ _
    simp only [List.mem_cons, List.not_mem_nil]
    grind
  | some ms, hmembers, hms, h, hframes => by
    rw [walkBody, specsOfBody]
    rw [specsOfBody] at hms
    obtain ⟨hgathers, hgains⟩ := gathers_members hL ms hms h hframes
    have hinner : specsOfBody spec.members = specsOfMembers ms := by rw [hmembers, specsOfBody]
    have hin (inner : StructSpec) (hi : inner ∈ specsOfMembers ms) :
        inner.id ∈ (walkMembers ms W).met := (hgains.met _).mpr (.inr ⟨inner, hi, rfl⟩)
    have hstill := hgains.not_mem hnew fun inner hi => hL.inner spec hspec inner (hinner ▸ hi)
    refine ⟨hgathers.close hL hspec (by rw [StructSpec.hasBody, hmembers]; rfl) (hinner ▸ hin) hstill,
      fun id => ?_, ?_⟩
    · show id ∈ spec.id :: (walkMembers ms W).met ↔ _
      rw [List.mem_cons, hgains.met]
      simp only [List.mem_cons]
      grind
    · obtain ⟨f, f', fs, hf, hf'⟩ := hgains.outer
      refine ⟨f, spec.name.elim f' fun name => (name, spec.id) :: f', fs, hf, ?_⟩
      show Tags.bind _ _ _ = _
      rw [hf', Tags.bind]

theorem gathers_members {L : List StructSpec} (hL : Numbered L) {W : Tags} : ∀ ms,
    specsOfMembers ms ⊆ L → W.Gathers L → W.frames ≠ [] →
    (walkMembers ms W).Gathers L ∧ Gains (specsOfMembers ms) W (walkMembers ms W)
  | [], _, h, hframes => by
    rw [specsOfMembers, walkMembers]
    exact ⟨h, .nil hframes⟩
  | m :: ms, hspecs, h, hframes => by
    rw [specsOfMembers] at hspecs ⊢
    rw [walkMembers]
    obtain ⟨hm, hms⟩ := List.append_subset.mp hspecs
    obtain ⟨hgathers, hgains⟩ := m.gathers hL hm h hframes
    obtain ⟨hgathers', hgains'⟩ := gathers_members hL ms hms hgathers hgains.ne_nil
    exact ⟨hgathers', hgains.append hgains'⟩

theorem StructMember.gathers {L : List StructSpec} (hL : Numbered L) {W : Tags} :
    ∀ m : StructMember, m.specs ⊆ L → W.Gathers L → W.frames ≠ [] →
    (m.walk W).Gathers L ∧ Gains m.specs W (m.walk W)
  | ⟨_, ty, _⟩, hspecs, h, hframes => by
    rw [StructMember.specs] at hspecs ⊢
    rw [StructMember.walk]
    exact ty.gathers hL hspecs h hframes

end

theorem Written.gathers {L : List StructSpec} (hL : Numbered L) {W : Tags} {x : Written}
    (hspecs : x.specs ⊆ L) (h : W.Gathers L) (hframes : W.frames ≠ []) :
    (x.walk W).Gathers L ∧ Gains x.specs W (x.walk W) := by
  cases x with
  | value ty | object ty init | param ty => exact ty.gathers hL hspecs h hframes
  | struct spec => exact spec.gathers hL hspecs h hframes

theorem Tags.Gathers.enter {L : List StructSpec} {W : Tags} (h : W.Gathers L) :
    W.enter.Gathers L where
  inner := h.inner
  used := h.used
  bodies := h.bodies
  nodup := h.nodup
  bound f hf p hp := by
    rcases List.mem_cons.mp hf with rfl | hf
    · cases hp
    · exact h.bound f hf p hp
  uses := h.uses

theorem Tags.Gathers.leave {L : List StructSpec} {W : Tags} (h : W.Gathers L) :
    W.leave.Gathers L where
  inner := h.inner
  used := h.used
  bodies := h.bodies
  nodup := h.nodup
  bound f hf := h.bound f (List.mem_of_mem_tail hf)
  uses := h.uses

theorem Script.gathers {L : List StructSpec} (hL : Numbered L) (asWritten : Bool) {o : Script}
    (hspecs : o.specs ⊆ L) {W : Tags} (h : W.Gathers L) (hframes : W.frames ≠ []) :
    (o.walk asWritten W).Gathers L ∧ Gains o.specs W (o.walk asWritten W) := by
  induction o generalizing W with
  | done => exact ⟨h, .nil hframes⟩
  | written x rest ih =>
    rw [specs_written] at hspecs ⊢
    obtain ⟨hx, hrest⟩ := List.append_subset.mp hspecs
    obtain ⟨hgathers, hgains⟩ := x.gathers hL hx h hframes
    obtain ⟨hgathers', hgains'⟩ := ih hrest hgathers hgains.ne_nil
    exact ⟨hgathers', hgains.append hgains'⟩
  | scope inner rest ihi ih =>
    rw [specs_scope] at hspecs ⊢
    obtain ⟨hinner, hrest⟩ := List.append_subset.mp hspecs
    obtain ⟨hgathers, hgains⟩ := ihi hinner h.enter (List.cons_ne_nil _ _)
    have hleave : Gains inner.specs W (inner.walk asWritten W.enter).leave := by
      refine ⟨hgains.met, ?_⟩
      obtain ⟨f, f', fs, hf, hf'⟩ := hgains.outer
      cases hf
      obtain ⟨f, fs, hf⟩ := List.exists_cons_of_ne_nil hframes
      refine ⟨f, f, fs, hf, ?_⟩
      show List.tail _ = _
      rw [hf', List.tail_cons, hf]
    obtain ⟨hgathers', hgains'⟩ := ih hrest hgathers.leave hleave.ne_nil
    exact ⟨hgathers', hleave.append hgains'⟩
  | doWhile body cond rest ihb ihc ih =>
    rw [specs_doWhile] at hspecs ⊢
    obtain ⟨hbody, hspecs⟩ := List.append_subset.mp hspecs
    obtain ⟨hcond, hrest⟩ := List.append_subset.mp hspecs
    rw [walk, ← List.append_assoc]
    cases asWritten with
    | true =>
      rw [if_pos rfl]
      obtain ⟨hb, hgb⟩ := ihb hbody h hframes
      obtain ⟨hc, hgc⟩ := ihc hcond hb hgb.ne_nil
      obtain ⟨hr, hgr⟩ := ih hrest hc hgc.ne_nil
      exact ⟨hr, (hgb.append hgc).append hgr⟩
    | false =>
      rw [if_neg Bool.false_ne_true]
      obtain ⟨hc, hgc⟩ := ihc hcond h hframes
      obtain ⟨hb, hgb⟩ := ihb hbody hc hgc.ne_nil
      obtain ⟨hr, hgr⟩ := ih hrest hb hgb.ne_nil
      exact ⟨hr, (hgc.append hgb).comm.append hgr⟩

end MiniC.Syntax
