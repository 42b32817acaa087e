import Mathlib.Data.List.Dedup
import Mathlib.Data.List.Perm.Basic
import MiniC.Proofs.Compilation.Safety
import MiniC.Proofs.Syntax.Numbers
import MiniC.Proofs.Typing.Signatures
import MiniC.Proofs.Typing.Structs
/-!
Struct specifiers of an accepted source. Main statement: every body is one struct, distinct bodies are
distinct structs, whatever shares a specifier has one type, and a specifier without a body has the type
of the innermost body that its tag is bound to, where the condition of a loop counts as standing before
its body.
-/
namespace MiniC

open Syntax (CompilationUnit Numbered StructSpec Tags)
open Typing (Laid Node Reading Written.Stands claimsOf)

/-- The numbers of the struct specifiers with a body. -/
def Syntax.CompilationUnit.bodies (u : CompilationUnit) : List Nat :=
  ((u.script.specs.filter (·.hasBody)).map (·.id)).dedup

theorem Syntax.CompilationUnit.mem_bodies {u : CompilationUnit} {id : Nat} :
    id ∈ u.bodies ↔ ∃ spec ∈ u.script.specs, spec.id = id ∧ spec.hasBody = true := by
  simp only [CompilationUnit.bodies, List.mem_dedup, List.mem_map, List.mem_filter]
  grind

/-- What types are, with the types of struct specifiers. -/
def Registry.reading (r : Registry) (types : Nat → Option TypeId) : Reading :=
  ⟨Typing.intType r, fun ty t => r.ty t = ty, types⟩

/-- The structs of a registry are the bodies of a unit. -/
structure Typing.Settled (u tree : CompilationUnit) (r : Registry) (types : Nat → Option TypeId) :
    Prop where
  /-- One number for each specifier, however often its type occurs. -/
  numbered : Numbered u.script.specs
  count : r.structs.size = u.bodies.length
  /-- A body is a struct with the members that are written in it. -/
  laid : ∀ spec ∈ u.script.specs, spec.hasBody = true →
    ∃ i, Laid (r.reading types) r.structs i spec
  distinct : ∀ spec ∈ u.script.specs, spec.hasBody = true → ∀ spec' ∈ u.script.specs,
    spec'.hasBody = true → types spec.id = types spec'.id → spec = spec'
  /-- Variables, parameters, results and casts have the types that are written, and what shares a
  specifier has one struct there. -/
  shared : ∀ c ∈ claimsOf (Node.ofUnit tree), Written.Stands (r.reading types) c.1 c.2
  /-- A tag means the body that it was bound to where its specifier was met first. -/
  tags : ∀ asWritten, (asWritten = true → u.script.Straight) →
    ∀ spec ∈ u.script.specs, spec.members = none →
      ∃ b ∈ u.bodies, (spec.id, some b) ∈ (u.script.walk asWritten .start).uses ∧
        types spec.id = types b ∧ (types b).isSome = true

theorem Compilation.structs_settled {layout : Layout.Config} {source : String}
    {tree : CompilationUnit} {registry : Registry}
    (h : (do check layout (← parse source)) = .ok (tree, registry)) :
    ∃ u types, parse source = .ok u ∧ Typing.Settled u tree registry types := by
  obtain ⟨u, hu, hcheck⟩ := Machine.except_bind_eq_ok.mp h
  obtain ⟨herrors, rfl, rfl⟩ := accepted_of_check hcheck
  have hL := Syntax.numbered_of_parse (mapError_eq_ok hu)
  obtain ⟨s, hregistry, htracks, hclaims⟩ := Typing.followed_of_analyze hL herrors
  obtain ⟨G, hsound, -, -, -⟩ := Typing.signed_of_analyze herrors
  obtain ⟨hgathers, hgains⟩ := u.script.gathers hL false (List.Subset.refl _) Tags.gathers_start
    (List.cons_ne_nil _ _)
  have hconsistent : s.registry.Consistent := hregistry ▸ hsound.consistent
  rw [hregistry]
  have hle : s.reading.Le (s.registry.reading fun id => s.specs[id]?) :=
    ⟨rfl, fun ty t ht => ((hconsistent.lookup ty t).mp ht).2, fun _ _ ht => ht⟩
  have hmet (spec : StructSpec) (hspec : spec ∈ u.script.specs) :
      spec.id ∈ (u.script.walk false .start).met :=
    (hgains.met _).mpr (.inr ⟨spec, hspec, rfl⟩)
  have hbodies (b : Nat) : b ∈ (u.script.walk false .start).bodies ↔ b ∈ u.bodies := by
    rw [hgathers.bodies, CompilationUnit.mem_bodies]
    exact ⟨fun hb => hb.2, fun hb => ⟨by obtain ⟨spec, hspec, rfl, -⟩ := hb; exact hmet spec hspec, hb⟩⟩
  have hplace (spec : StructSpec) (hspec : spec ∈ u.script.specs) (hbody : spec.hasBody = true) :
      ∃ i : Nat, (u.script.walk false .start).bodies[i]? = some spec.id :=
    List.mem_iff_getElem?.mp ((hbodies _).mpr (CompilationUnit.mem_bodies.mpr ⟨spec, hspec, rfl, hbody⟩))
  refine ⟨u, fun id => s.specs[id]?, hu, hL, ?_, ?_, ?_, ?_, ?_⟩
  · rw [htracks.count]
    exact ((List.perm_ext_iff_of_nodup hgathers.nodup (List.nodup_dedup _)).mpr hbodies).length_eq
  · intro spec hspec hbody
    obtain ⟨i, hi⟩ := hplace spec hspec hbody
    exact ⟨i, (htracks.laid spec hspec i hi).mono hle List.prefix_rfl⟩
  · intro spec hspec hbody spec' hspec' hbody' heq
    obtain ⟨i, hi⟩ := hplace spec hspec hbody
    obtain ⟨j, hj⟩ := hplace spec' hspec' hbody'
    obtain ⟨t, -, -, ht, hti, -⟩ := (htracks.laid spec hspec i hi).mono hle List.prefix_rfl
    obtain ⟨t', -, -, ht', htj, -⟩ := (htracks.laid spec' hspec' j hj).mono hle List.prefix_rfl
    obtain rfl : t = t' := Option.some.inj (ht.symm.trans (heq.trans ht'))
    have hindex : Ty.struct ⟨i⟩ = Ty.struct ⟨j⟩ := Eq.trans (Eq.symm hti) htj
    cases hindex
    exact hL.unique spec hspec spec' hspec' (Option.some.inj (hi.symm.trans hj))
  · exact fun c hc => (hclaims c hc).mono hle
  · intro asWritten hstraight spec hspec hnone
    have hwalk : u.script.walk asWritten .start = u.script.walk false .start := by
      cases asWritten with
      | true => exact Syntax.Script.walk_eq_of_straight (hstraight rfl)
      | false => rfl
    obtain ⟨b?, hb⟩ := hgathers.used spec hspec (hmet spec hspec) hnone
    obtain ⟨b, t, rfl, ht, hbt⟩ := htracks.uses spec.id b? hb
    refine ⟨b, (hbodies b).mp (hgathers.uses _ _ hb), hwalk ▸ hb, ht.trans hbt.symm, ?_⟩
    show (s.specs[b]?).isSome = true
    rw [hbt]
    rfl

/-- Two variables of one specifier, the size of whose struct a function returns. -/
theorem Compilation.shared_body_settled :
    ∃ u tree registry types, parse "struct S { int a; } x, y; int f(void) { return sizeof(y); }" =
        .ok u ∧ Typing.Settled u tree registry types ∧ registry.structs.size = 1 := by
  have hrun : ((do check ⟨.lp64, 64⟩ (← parse
      "struct S { int a; } x, y; int f(void) { return sizeof(y); }")).toOption.map
        fun x : CompilationUnit × Registry => x.2.structs.size) = some 1 := by
    decide +kernel
  obtain ⟨⟨tree, registry⟩, hcheck, hsize⟩ := Option.map_eq_some_iff.mp hrun
  obtain ⟨u, types, hparse, hsettled⟩ := structs_settled (ok_of_toOption hcheck)
  exact ⟨u, tree, registry, types, hparse, hsettled, hsize⟩

end MiniC
