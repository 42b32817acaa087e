import MiniC.Proofs.Compilation.Safety
import MiniC.Proofs.Syntax.Numbers
import MiniC.Proofs.Typing.TwinUnits
/-!
The bodies of functions. Struct specifiers are numbered in the order of the source, so in a unit that was
parsed no specifier in the body of a function stands anywhere else. The failures of a unit are those that
its declarations add, one after the other. Main statement: with another body for one of its functions, all
other declarations of a unit add the same failures, and no body leaves anything behind in the scopes around
it.
-/
namespace MiniC.Syntax

/-- The specifiers outside the body. -/
def FuncDecl.heading (f : FuncDecl) : List StructSpec := f.returns.specs ++ (scriptOfParams f.params).specs

/-- A unit without the body of one of its functions. -/
def aroundBody (before : List TopDecl) (f : FuncDecl) (after : List TopDecl) : List StructSpec :=
  (scriptOfDecls before).specs ++ (f.heading ++ (scriptOfDecls after).specs)

/-- No specifier has its number in both lists. -/
def Apart (L L' : List StructSpec) : Prop := ∀ spec ∈ L, ∀ other ∈ L', spec.id ≠ other.id

instance (L L' : List StructSpec) : Decidable (Apart L L') :=
  inferInstanceAs (Decidable (∀ spec ∈ L, ∀ other ∈ L', spec.id ≠ other.id))

/-- All of the first were numbered before all of the second. -/
def Precedes (L L' : List StructSpec) : Prop := ∀ spec ∈ L, ∀ other ∈ L', spec.id < other.id

theorem Precedes.apart {L L' : List StructSpec} (h : Precedes L L') : Apart L' L :=
  fun spec hspec other hother => Ne.symm (Nat.ne_of_lt (h other hother spec hspec))

theorem Fresh.precedes {lo mid hi : Nat} {L L' : List StructSpec} (h : Fresh lo mid L)
    (h' : Fresh mid hi L') : Precedes L L' := fun spec hspec other hother =>
  Nat.lt_of_lt_of_le (h.within spec hspec).2 (h'.within other hother).1

/-- The body of a function is numbered after its head. -/
def TopDecl.Split : TopDecl → Prop
  | .declaration _ => True
  | .function f => ∀ b, f.body = some b → Precedes f.heading b.script.specs

theorem FuncDecl.specs_script {f : FuncDecl} {b : Block} (h : f.body = some b) :
    f.script.specs = f.heading ++ b.script.specs := by
  rw [FuncDecl.script, h, Option.elim_some, Script.specs_written, Script.specs_append,
    Script.specs_scope, Script.specs_done, List.append_nil, ← List.append_assoc]
  rfl

/-- The numbers in a unit are those of its declarations, one after the other. -/
structure Sequenced (hi : Nat) (ds : List TopDecl) : Prop where
  below : ∀ d ∈ ds, ∀ spec ∈ d.script.specs, spec.id < hi
  ordered : ds.Pairwise fun d d' => Precedes d.script.specs d'.script.specs
  split : ∀ d ∈ ds, d.Split

theorem Sequenced.push {lo hi : Nat} {ds : List TopDecl} {d : TopDecl} (h : Sequenced lo ds)
    (hd : Fresh lo hi d.script.specs) (hsplit : d.Split) : Sequenced hi (ds ++ [d]) where
  below e he spec hspec := by
    rcases List.mem_append.mp he with he | he
    · exact Nat.lt_of_lt_of_le (h.below e he spec hspec) hd.le
    · obtain rfl := List.mem_singleton.mp he
      exact (hd.within spec hspec).2
  ordered := by
    refine List.pairwise_append.mpr ⟨h.ordered, List.pairwise_singleton _ _, fun e he d' hd' => ?_⟩
    obtain rfl := List.mem_singleton.mp hd'
    exact fun spec hspec other hother =>
      Nat.lt_of_lt_of_le (h.below e he spec hspec) (hd.within other hother).1
  split e he := by
    rcases List.mem_append.mp he with he | he
    · exact h.split e he
    · obtain rfl := List.mem_singleton.mp he
      exact hsplit

theorem Sequenced.apart {hi : Nat} {before after : List TopDecl} {f : FuncDecl} {b : Block}
    (h : Sequenced hi (before ++ .function f :: after)) (hbody : f.body = some b) :
    Apart b.script.specs (aroundBody before f after) := by
  obtain ⟨-, hordered, hsplit⟩ := h
  obtain ⟨-, htail, hbefore⟩ := List.pairwise_append.mp hordered
  obtain ⟨hafter, -⟩ := List.pairwise_cons.mp htail
  have hb : b.script.specs ⊆ (TopDecl.function f).script.specs := by
    rw [TopDecl.script, f.specs_script hbody]
    exact List.subset_append_right _ _
  intro spec hspec other hother
  rw [aroundBody, specs_scriptOfDecls, specs_scriptOfDecls] at hother
  rcases List.mem_append.mp hother with hother | hother
  · obtain ⟨d, hd, hother⟩ := List.mem_flatMap.mp hother
    exact (hbefore d hd _ List.mem_cons_self).apart spec (hb hspec) other hother
  rcases List.mem_append.mp hother with hother | hother
  · exact (hsplit _ (List.mem_append_right _ List.mem_cons_self) b hbody).apart spec hspec other hother
  · obtain ⟨d, hd, hother⟩ := List.mem_flatMap.mp hother
    exact Nat.ne_of_lt (hafter d hd spec (hb hspec) other hother)

namespace Parser

variable {α β : Type}

/-- Specifiers that this reads are numbered anew. -/
theorem Numbers.fresh {p : Parser α} {L : α → List StructSpec} (h : Numbers [] p L) (s : ParseState) :
    Ends (fun a s' => Fresh s.nextStruct s'.nextStruct (L a)) (fun _ => True) (p s) :=
  (h s.nextStruct s (.nil (Nat.le_refl _))).mono fun a s' hs => by rwa [List.append_nil] at hs

theorem Keeps.ends_bind {p : Parser α} {k : α → Parser β} {post : β → ParseState → Prop}
    {s : ParseState} (hp : Keeps p)
    (hk : ∀ a s', s'.nextStruct = s.nextStruct → Ends post (fun _ => True) (k a s')) :
    Ends post (fun _ => True) ((p >>= k) s) :=
  Parser.ends_bind ((hp s).mono hk)

theorem Ends.and {post post' : α → ParseState → Prop} {x : EStateM.Result ParseError ParseState α}
    (h : Ends post (fun _ => True) x) (h' : Ends post' (fun _ => True) x) :
    Ends (fun a s => post a s ∧ post' a s) (fun _ => True) x := by
  cases x with
  | ok a s => exact ⟨h, h'⟩
  | error e s => trivial

theorem splits_functionRest (d : Declarator) (start : Span) {lo : Nat} {s : ParseState}
    (hd : Fresh lo s.nextStruct d.ty.specs) :
    Ends (fun t _ => t.Split) (fun _ => True) (functionRest d start s) := by
  refine (Keeps.expectKind _).ends_bind fun _ s₁ h₁ => ends_bind ?_
  refine (numbers_parameters d.ty.specs lo s₁ (h₁ ▸ hd)).mono fun x s₂ h₂ =>
    (Keeps.expectKind _).ends_bind fun _ s₃ h₃ => ends_bind ?_
  have hhead : Fresh lo s₃.nextStruct (d.ty.specs ++ (scriptOfParams x.1).specs) := by
    rw [specs_scriptOfParams, h₃]
    exact h₂.subset (by grind)
  have hbody : Ends (fun body _ => ∀ b, body = some b →
      Precedes (d.ty.specs ++ (scriptOfParams x.1).specs) b.script.specs) (fun _ => True)
      ((do if ← atPunct .lBrace then return some (← block allowance)
           else
            let _ ← expect .semi
            return none : Parser (Option Block)) s₃) := by
    refine (Keeps.atKind _).ends_bind fun found s₄ h₄ => ?_
    split
    · refine ends_bind (((numbers_block [] allowance).fresh s₄).mono fun b s₅ h₅ => ?_)
      rintro b' ⟨⟩
      exact Fresh.precedes (h₄ ▸ hhead) h₅
    · exact (Keeps.expectKind _).ends_bind fun _ _ _ => nofun
  exact hbody.mono fun body s₄ h₄ => (Keeps.spanFrom start).ends_bind fun _ _ _ => h₄

theorem splits_topDecl (s : ParseState) : Ends (fun t _ => t.Split) (fun _ => True) (topDecl s) := by
  refine Keeps.span.ends_bind fun start s₁ _ => ends_bind
    (((numbers_specifiers [] allowance).fresh s₁).mono fun base s₂ h₂ =>
      (Keeps.accept _).ends_bind fun found s₃ h₃ => ?_)
  split
  · refine (Keeps.spanFrom start).ends_bind fun span s₄ _ => ?_
    cases base.kind <;> trivial
  · refine ends_bind ((numbers_declarator base.specs allowance (List.Subset.refl _) _ s₃ (h₃ ▸ h₂)).mono
      fun d s₄ h₄ => (Keeps.atKind _).ends_bind fun found s₅ h₅ => ?_)
    split
    · exact splits_functionRest d start ((h₅ ▸ h₄).subset (List.subset_append_left _ _))
    · refine ends_bind ?_
      cases varDecls allowance d base start s₅ with
      | ok decl s₆ => trivial
      | error e s₆ => trivial

theorem sequenced_compilationUnit (s : ParseState) :
    Ends (fun u s' => Sequenced s'.nextStruct u.decls) (fun _ => True) (compilationUnit s) := by
  refine ends_bind (ends_rounds (I := fun (acc : Array TopDecl) s' => Sequenced s'.nextStruct acc.toList)
    (fun acc s₁ h₁ => ?_) ?_)
  · refine (Keeps.atKind _).ends_bind fun ended s₂ h₂ => ?_
    split
    · show Sequenced s₂.nextStruct acc.toList
      exact h₂ ▸ h₁
    · refine ends_bind ((Ends.and ((numbers_topDecl []).fresh s₂) (splits_topDecl s₂)).mono
        fun d s₃ h₃ => ?_)
      show Sequenced s₃.nextStruct (acc.push d).toList
      rw [Array.toList_push]
      exact h₁.push (h₂ ▸ h₃.1) h₃.2
  · exact ⟨List.forall_mem_nil _, List.Pairwise.nil, List.forall_mem_nil _⟩

end Parser

theorem apart_of_parse {source : String} {u : CompilationUnit}
    (h : CompilationUnit.parse source = .ok u) {before after : List TopDecl} {f : FuncDecl} {b : Block}
    (hu : u.decls = before ++ .function f :: after) (hbody : f.body = some b) :
    Apart b.script.specs (aroundBody before f after) := by
  unfold CompilationUnit.parse at h
  split at h
  · cases h
  · rename_i s _
    have hsequenced := Parser.sequenced_compilationUnit s
    split at h
    · rename_i hrun
      cases h
      rw [hrun] at hsequenced
      replace hsequenced : Sequenced _ u.decls := hsequenced
      rw [hu] at hsequenced
      exact hsequenced.apart hbody
    · cases h

end MiniC.Syntax

namespace MiniC

open Syntax (Apart Block CompilationUnit FuncDecl TopDecl aroundBody)

namespace Typing

variable {layout : Layout.Config}

/-- The state after some declarations. -/
def after (layout : Layout.Config) (ds : List TopDecl) : State := (topDecls ds (State.initial layout)).2

/-- What a declaration adds to the failures of those before it. -/
def report (layout : Layout.Config) (ds : List TopDecl) (i : Nat) : List TypingError :=
  (analyze layout ⟨ds.take (i + 1)⟩).errors.drop (analyze layout ⟨ds.take i⟩).errors.length

theorem errors_analyze (ds : List TopDecl) :
    (analyze layout ⟨ds⟩).errors = (after layout ds).errors.toList := rfl

theorem after_append (ds ds' : List TopDecl) :
    after layout (ds ++ ds') = (topDecls ds' (after layout ds)).2 := topDecls_append ds ds' _

theorem exists_errors_append (ds ds' : List TopDecl) :
    ∃ es, (analyze layout ⟨ds ++ ds'⟩).errors = (analyze layout ⟨ds⟩).errors ++ es := by
  obtain ⟨tr, hsteps, -⟩ := walks_topDecls [] ds' (after layout ds)
  refine ⟨tr.errors, ?_⟩
  rw [errors_analyze, errors_analyze, after_append]
  exact hsteps.errors

/-- The failures of a unit are the reports of its declarations. -/
theorem errors_eq_reports (ds : List TopDecl) :
    (analyze layout ⟨ds⟩).errors = (List.range ds.length).flatMap (report layout ds) := by
  have hprefix : ∀ n ≤ ds.length, (analyze layout ⟨ds.take n⟩).errors =
      (List.range n).flatMap (report layout ds) := by
    intro n
    induction n with
    | zero => exact fun _ => rfl
    | succ n ih =>
      intro hn
      obtain ⟨es, hes⟩ : ∃ es, (analyze layout ⟨ds.take n ++ [ds[n]]⟩).errors =
          (analyze layout ⟨ds.take n⟩).errors ++ es := exists_errors_append _ _
      rw [List.take_append_getElem] at hes
      rw [List.range_succ, List.flatMap_append, List.flatMap_singleton, ← ih (Nat.le_of_succ_le hn),
        report, hes, List.drop_left]
  simpa using hprefix ds.length (Nat.le_refl _)

theorem full_after_append {ds : List TopDecl} (ds' : List TopDecl) (h : Full (after layout ds)) :
    Full (after layout (ds ++ ds')) := by
  rw [after_append]
  exact h.mono (x := topDecls ds')

theorem linked_after (ds : List TopDecl) (hroom : ¬ Full (after layout ds)) :
    Linked Rift.whole (after layout ds) (after layout ds) := by
  rcases twin_topDecls _ ds (clear_whole _) _ _ (linked_initial layout) le_rfl with hm | hfull
  · exact hm.linked
  · exact absurd (hfull.elim id id) hroom

section

variable {before rest : List TopDecl} {f : FuncDecl} {b b' : Block}

/-- Behind the function that has one body or the other, the same failures are added. -/
theorem exists_errors_behind (hbody : f.body = some b) (hold : Apart b.script.specs (aroundBody before f rest))
    (hnew : Apart b'.script.specs (aroundBody before f rest))
    (hroom : ¬ Full (after layout (before ++ .function f :: rest)))
    (hroom' : ¬ Full (after layout (before ++ .function { f with body := some b' } :: rest))) :
    ∃ E E', ∀ later, later <+: rest → ∃ es,
      (analyze layout ⟨before ++ .function f :: later⟩).errors = E ++ es ∧
        (analyze layout ⟨before ++ .function { f with body := some b' } :: later⟩).errors = E' ++ es := by
  have hsplit (d : TopDecl) (ds : List TopDecl) :
      after layout (before ++ d :: ds) = (topDecls ds (topDecls [d] (after layout before)).2).2 := by
    rw [← List.singleton_append, ← List.append_assoc, after_append, after_append]
  have hs := linked_after before fun hfull => hroom (full_after_append _ hfull)
  rw [hsplit] at hroom hroom'
  obtain ⟨W, hlinked, hhidden⟩ := linked_function hbody b' hs
    (fun hfull => hroom (hfull.mono (x := topDecls rest)))
    (fun hfull => hroom' (hfull.mono (x := topDecls rest)))
  have hclear : W.Clear (Syntax.scriptOfDecls rest).specs := by
    intro other hother hmem
    obtain ⟨spec, hspec, heq⟩ := hhidden other.id hmem
    have haround : other ∈ aroundBody before f rest :=
      List.mem_append_right _ (List.mem_append_right _ hother)
    rcases List.mem_append.mp hspec with hspec | hspec
    · exact hold spec hspec other haround heq
    · exact hnew spec hspec other haround heq
  refine ⟨W.before, W.before', fun later hlater => ?_⟩
  obtain ⟨last, rfl⟩ := hlater
  rw [Syntax.specs_scriptOfDecls, List.flatMap_append, ← Syntax.specs_scriptOfDecls] at hclear
  rw [topDecls_append] at hroom hroom'
  rw [errors_analyze, errors_analyze, hsplit, hsplit]
  rcases twin_topDecls _ later (clear_append.mp hclear).1 _ _ hlinked le_rfl with hm | hfull | hfull
  · exact hm.linked.errors
  · exact absurd (hfull.mono (x := topDecls last)) hroom
  · exact absurd (hfull.mono (x := topDecls last)) hroom'

theorem report_eq_of_ne (hbody : f.body = some b) (hold : Apart b.script.specs (aroundBody before f rest))
    (hnew : Apart b'.script.specs (aroundBody before f rest))
    (hroom : ¬ Full (after layout (before ++ .function f :: rest)))
    (hroom' : ¬ Full (after layout (before ++ .function { f with body := some b' } :: rest))) {i : Nat}
    (hi : i ≠ before.length) :
    report layout (before ++ .function { f with body := some b' } :: rest) i =
      report layout (before ++ .function f :: rest) i := by
  rcases Nat.lt_or_gt_of_ne hi with hi | hi
  · rw [report, report, List.take_append_of_le_length hi, List.take_append_of_le_length hi,
      List.take_append_of_le_length (Nat.le_of_lt hi), List.take_append_of_le_length (Nat.le_of_lt hi)]
  obtain ⟨j, rfl⟩ := Nat.exists_eq_add_of_lt hi
  obtain ⟨E, E', hes⟩ := exists_errors_behind hbody hold hnew hroom hroom'
  have htake (d : TopDecl) (n : Nat) :
      (before ++ d :: rest).take (before.length + (n + 1)) = before ++ d :: rest.take n := by
    rw [List.take_length_add_append, List.take_succ_cons]
  have hdrop (E es es' : List TypingError) : (E ++ es').drop (E ++ es).length = es'.drop es.length := by
    rw [List.length_append, List.drop_length_add_append]
  obtain ⟨es, he, he'⟩ := hes (rest.take j) (List.take_prefix _ _)
  obtain ⟨es', hnext, hnext'⟩ := hes (rest.take (j + 1)) (List.take_prefix _ _)
  rw [report, report, Nat.add_assoc, Nat.add_assoc, htake, htake, htake, htake, he, he', hnext, hnext',
    hdrop, hdrop]

end

end Typing

/-- If one function definition of a parsed source gets another body, whose struct specifiers are its own,
then all other declarations add the same failures, in the same order, and the failures of both units are
those that their declarations add. At the end of any analysis, whatever failed, no scope, loop or
function is open, and a body leaves the names and tags in scope as they were. -/
theorem Compilation.bodies_do_not_interfere {layout : Layout.Config} {source : String}
    {u : CompilationUnit} (hparse : parse source = .ok u) {before rest : List TopDecl} {f : FuncDecl}
    {b b' : Block} (hu : u.decls = before ++ .function f :: rest) (hbody : f.body = some b)
    (hfresh : Apart b'.script.specs (aroundBody before f rest))
    (hroom : (Typing.analyze layout u).registry.types.size < Registry.capacity)
    (hroom' : (Typing.analyze layout ⟨before ++ .function { f with body := some b' } :: rest⟩
      ).registry.types.size < Registry.capacity) :
    (∀ i, i ≠ before.length →
      Typing.report layout (before ++ .function { f with body := some b' } :: rest) i =
        Typing.report layout u.decls i) ∧
      (∀ ds, (Typing.analyze layout ⟨ds⟩).errors =
        (List.range ds.length).flatMap (Typing.report layout ds)) ∧
      (∀ ds, Typing.AtRest (Typing.after layout ds)) ∧
      ∀ ret ps b s, (Typing.functionBody ret ps b s).2.scope = s.scope := by
  obtain ⟨ds⟩ := u
  obtain rfl : ds = _ := hu
  have hold := Syntax.apart_of_parse (mapError_eq_ok hparse) rfl hbody
  exact ⟨fun i hi => Typing.report_eq_of_ne hbody hold hfresh (Nat.not_le_of_lt hroom)
      (Nat.not_le_of_lt hroom') hi,
    Typing.errors_eq_reports, Typing.atRest_topDecls layout,
    fun ret ps b s => (Typing.spared_functionBody ret ps b s).2.1⟩

/-- A loop that defines a struct and then fails in the scope of its body. -/
def Compilation.failingBody : Block :=
  let member : Syntax.StructMember := ⟨"s", ⟨.int .int true, {}, ⟨15, 18⟩⟩, ⟨19, 20⟩⟩
  let struct : Syntax.Declaration := ⟨.struct ⟨0, some "S", some [member], ⟨15, 20⟩⟩, ⟨15, 21⟩⟩
  let name : Syntax.Stmt := ⟨.expr (.untyped (.name "d") ⟨22, 23⟩), ⟨22, 24⟩⟩
  let loop : Syntax.Stmt := ⟨.loop .for_ none none none
    ⟨.block ⟨[.declaration struct, .statement name], ⟨14, 25⟩⟩, ⟨14, 25⟩⟩, ⟨14, 25⟩⟩
  ⟨[.statement loop], ⟨13, 26⟩⟩

/-- The function a unit begins with, and what follows it. -/
def Compilation.firstFunction : CompilationUnit → Option (FuncDecl × List TopDecl)
  | ⟨.function f :: rest⟩ => some (f, rest)
  | _ => none

theorem Compilation.decls_of_firstFunction {u : CompilationUnit} {x : FuncDecl × List TopDecl}
    (h : firstFunction u = some x) : u.decls = .function x.1 :: x.2 := by
  unfold firstFunction at h
  split at h
  · cases h
    rfl
  · cases h

/-- With this body for the first function, the second one still has too few arguments in its call. -/
theorem Compilation.second_report_of_failingBody :
    ∃ u f b rest, parse "int f(int a) { return c; } int g(void) { return f(); }" = .ok u ∧
      u.decls = .function f :: rest ∧ f.body = some b ∧
      Typing.report ⟨.lp64, 64⟩ (.function { f with body := some failingBody } :: rest) 0 =
        [.name (.undeclared "d") ⟨22, 23⟩] ∧
      Typing.report ⟨.lp64, 64⟩ (.function { f with body := some failingBody } :: rest) 1 =
        Typing.report ⟨.lp64, 64⟩ u.decls 1 ∧
      Typing.report ⟨.lp64, 64⟩ u.decls 1 = [.type (.argumentCount 1 0) ⟨48, 51⟩] := by
  have hrun : ((parse "int f(int a) { return c; } int g(void) { return f(); }").toOption.bind
      firstFunction).any (fun x => x.1.body.isSome && decide
        (Apart failingBody.script.specs (aroundBody [] x.1 x.2) ∧
          (Typing.analyze ⟨.lp64, 64⟩ ⟨.function x.1 :: x.2⟩).registry.types.size < Registry.capacity ∧
          (Typing.analyze ⟨.lp64, 64⟩ ⟨.function { x.1 with body := some failingBody } :: x.2⟩
            ).registry.types.size < Registry.capacity ∧
          Typing.report ⟨.lp64, 64⟩ (.function { x.1 with body := some failingBody } :: x.2) 0 =
            [.name (.undeclared "d") ⟨22, 23⟩] ∧
          Typing.report ⟨.lp64, 64⟩ (.function x.1 :: x.2) 1 =
            [.type (.argumentCount 1 0) ⟨48, 51⟩])) = true := by decide +kernel
  obtain ⟨x, hx, hrun⟩ := (Option.any_eq_true ..).mp hrun
  obtain ⟨u, hparse, hx⟩ := Option.bind_eq_some_iff.mp hx
  replace hparse := ok_of_toOption hparse
  have hdecls := decls_of_firstFunction hx
  obtain ⟨hbody, hfacts⟩ := Bool.and_eq_true_iff.mp hrun
  obtain ⟨b, hb⟩ := Option.isSome_iff_exists.mp hbody
  obtain ⟨hfresh, hroom, hroom', hfirst, hlast⟩ := of_decide_eq_true hfacts
  obtain ⟨ds⟩ := u
  obtain rfl : ds = [] ++ .function x.1 :: x.2 := hdecls
  have hothers := (bodies_do_not_interfere hparse rfl hb hfresh hroom hroom').1
  exact ⟨_, x.1, b, x.2, hparse, rfl, hb, hfirst, hothers 1 (by decide), hlast⟩

end MiniC
