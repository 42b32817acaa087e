import MiniC.Proofs.Compilation.Safety
import MiniC.Proofs.Lowering.Routines
import MiniC.Proofs.Machine.Contracts
import MiniC.Proofs.Typing.Signatures
/-!
The terms of compiled code: a struct is passed as the address of an object of its type, and what a
function returns is a word of its type. Main statement: at every level of optimization the code of an
accepted source keeps them, if it follows no pointer or all of memory may be accessed.
-/
namespace MiniC.Compilation

open Code (Obeys Terms)
open Lowering (Pact Suits)
open Machine (Abides Extent Honors Loaded Routine)
open Syntax (FuncDecl TopDecl)
open Typing (Direct Node Signed)

def terms (r : Registry) (ds : List TopDecl) (l : Loaded)
    (reach : Int64 → Int64 → Nat → Prop) : Terms where
  reach := reach
  symbol name a := l.address? name = some a
  param name i v := ∀ f, .function f ∈ ds → f.name = name → ∀ p t, f.params[i]? = some p →
    p.resolved = some t → r.isStruct t = true → reach v 0 (r.sizeOf t)
  result name v := ∀ f, .function f ∈ ds → f.name = name → ∀ t a, f.resolvedReturn = some t →
    r.access? t = some a → a.truncate v = v

/-- What may be accessed has parts, and takes in the globals. -/
structure Admits (r : Registry) (G : List Symbol) (l : Loaded)
    (reach : Int64 → Int64 → Nat → Prop) : Prop where
  parts : ∀ ⦃a o n d k⦄, reach a o n → d + k ≤ n → reach a (o + Int64.ofNat d) k
  moves : ∀ ⦃a o n⦄, reach a o n → reach (a + o) 0 n
  objects : ∀ sym ∈ G, sym.IsObject → ∀ a, l.address? sym.name = some a →
    reach a 0 (r.sizeOf sym.ty)

section Terms

variable {r : Registry} {G : List Symbol} {ds : List TopDecl} {l : Loaded}
  {reach : Int64 → Int64 → Nat → Prop}

/-- A declaration of a function says what each of its symbols says. -/
theorem signature_of_declared (h : Signed ds G) {f : FuncDecl} (hf : .function f ∈ ds) {sym : Symbol}
    (hsym : sym ∈ G) (hname : sym.name = f.name) {sig : Signature} (hkind : sym.kind = .function sig) :
    f.params.map (·.resolved) = sig.params.map some ∧ f.resolvedReturn = some sym.ty := by
  obtain ⟨sym', hsym', sig', hname', hkind', hparams, hreturns⟩ := h.functions f hf
  obtain ⟨hsame, hty⟩ := h.coherent sym hsym sym' hsym' (hname.trans hname'.symm) sig sig' hkind hkind'
  exact ⟨hsame ▸ hparams, hty ▸ hreturns⟩

theorem suits_terms (hc : r.Consistent) (h : Signed ds G) (hfits : ∀ sym ∈ G, sym.Fits r)
    (hadmits : Admits r G l reach)
    (hallows : Direct (ds.flatMap Node.ofTopDecl) ∨ ∀ a o n, reach a o n) :
    Suits (terms r ds l reach) r G ds where
  sound f hf returns hreturns :=
    { consistent := hc
      parts := hadmits.parts
      moves := hadmits.moves
      objects := fun sym hsym hobject a ha => hadmits.objects sym hsym hobject a ha
      results := fun sym hsym sig hkind => by
        obtain ⟨-, hsig⟩ := hfits sym hsym
        simp only [hkind] at hsig
        exact hsig.1.elim Registry.isStruct_of_isVoid Registry.isStruct_of_isScalar
      arguments := fun sym hsym sig hkind i v hv g hg hname p t hp ht hstruct => by
        obtain ⟨hparams, -⟩ := signature_of_declared h hg hsym hname.symm hkind
        have hget := congrArg (·[i]?) hparams
        simp only [List.getElem?_map, hp, Option.map_some, ht] at hget
        obtain ⟨u, hu, heq⟩ := Option.map_eq_some_iff.mp hget.symm
        obtain rfl : u = t := Option.some.inj heq
        exact hv u hu hstruct
      result := fun v hv g hg hname t a ht ha => by
        obtain ⟨sym, hsym, sig, hname', hkind, -, hsame⟩ := h.functions f hf
        obtain ⟨-, hsame'⟩ := signature_of_declared h hg hsym (hname'.trans hname.symm) hkind
        obtain rfl : t = returns :=
          Option.some.inj (ht.symm.trans (hsame'.trans (hsame.symm.trans hreturns)))
        exact hv a ha }
  params f hf i p t hp ht v hv := hv f hf rfl p t hp ht
  allows f hf := by
    intro n hn hindirect
    rcases hallows with hdirect | hopen
    · rw [hdirect n (List.mem_flatMap.mpr ⟨_, hf, hn⟩)] at hindirect
      cases hindirect
    · exact hopen

end Terms

namespace Made

variable {s : Settings} {source : String} {c : Compilation} (made : Made s source c)

def registry : Registry := (Typing.analyze s.layout made.parsed).registry

/-- The terms of the compiled unit. -/
def terms (l : Loaded) (reach : Int64 → Int64 → Nat → Prop) : Terms :=
  Compilation.terms made.registry made.tree.decls l reach

/-- What a machine may access while those blocks live is right for the unit. -/
structure Guards (l : Loaded) (image : Set Extent) (safe : Prop) (size : Nat)
    (reach : Set Extent → Int64 → Int64 → Nat → Prop) : Prop where
  admits : ∀ G, Signed made.tree.decls G → ∀ Ω, Admits made.registry G l (reach Ω)
  grows : ∀ Ω Ω', Ω ⊆ Ω' → ∀ a o n, reach Ω a o n → reach Ω' a o n
  inside : safe → ∀ Ω a o n, reach Ω a o n → Machine.Inside (image ∪ Ω) a o n
  blocks : ∀ Ω, ∀ e ∈ Ω, e.stop ≤ size → reach Ω (Int64.ofNat e.start) 0 e.size
  follows : Direct (Node.ofUnit made.parsed) ∨ ∀ Ω a o n, reach Ω a o n

theorem honors {limits : Machine.Limits} {l : Loaded} (hload : Machine.load c.code limits = .ok l)
    {image : Set Extent} {safe : Prop} {size : Nat}
    {reach : Set Extent → Int64 → Int64 → Nat → Prop} (h : made.Guards l image safe size reach) :
    Honors (fun Ω => made.terms l (reach Ω)) image safe size l.program := by
  obtain ⟨G, hsound, hunit, hsigned, hfits⟩ := Typing.signed_of_analyze made.accepted
  have hsuits (Ω : Set Extent) : Suits (made.terms l (reach Ω)) made.registry G made.tree.decls :=
    suits_terms hsound.consistent hsigned hfits (h.admits G hsigned Ω)
      (h.follows.imp Typing.direct_analyze fun hall => hall Ω)
  have hobeys (Ω : Set Extent) := Lowering.obeys_lower hunit (hsuits Ω) made.lowered_eq
  exact
    { grows := fun Ω Ω' hΩ => ⟨h.grows Ω Ω' hΩ, fun _ _ h => h,
        fun _ _ _ hv f hf hname p t hp ht hstruct =>
          h.grows Ω Ω' hΩ _ _ _ (hv f hf hname p t hp ht hstruct), fun _ _ h => h⟩
      reach := h.inside
      blocks := h.blocks
      symbols := fun _ _ _ ha => ha
      zero := fun _ _ _ _ _ _ a _ _ => a.truncate_zero
      results := fun _ _ _ _ hv => hv
      routines := fun name routine hr => by
        obtain ⟨placements, memory, stack, hloads⟩ := Machine.loads_of_load hload
        obtain rfl := Except.ok.inj ((hloads.load_eq c.code.functions).symm.trans hload)
        obtain ⟨g, hg, rfl, rfl⟩ := Machine.mem_of_getElem?_routinesOf hr
        obtain ⟨⟨S, horderly⟩, -⟩ := made.orderly hg
        refine ⟨rfl, S, Abides.of_orderly horderly fun Ω => ?_⟩
        rw [made.code_eq] at hg
        obtain ⟨g₀, hg₀, rfl⟩ := List.mem_map.mp hg
        have hleaves := Code.Pass.leaves_rounds (Code.Pass.ofLevel s.level) Code.Pass.maxRounds g₀
        obtain ⟨T, hT⟩ := hobeys Ω g₀ hg₀
        rw [hleaves.name]
        exact ⟨T, Code.obeys_rewritten hT hleaves.rewrites⟩ }

end Made

end MiniC.Compilation
