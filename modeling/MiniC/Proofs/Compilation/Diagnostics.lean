import MiniC.Proofs.Compilation.Safety
import MiniC.Proofs.Syntax.Spans
import MiniC.Proofs.Typing.Blame
/-!
Where errors are. Main statement: whatever keeps a source from being compiled, if it is a matter of the
source, then it points into the source.
-/
namespace MiniC

namespace CompileError

/-- All places that a single error points to; only errors of the source have any. -/
def spans : CompileError → List Span
  | lexer _ span | parser _ span | semantic _ span | type _ span => [span]
  | layout e => e.spans
  | codegen _ | runtime _ | multiple _ | io _ => []

theorem mem_leavesAll {es : List CompileError} {leaf : CompileError} :
    leaf ∈ leavesAll es ↔ ∃ e ∈ es, leaf ∈ e.leaves := by
  induction es with
  | nil => simp [leavesAll]
  | cons e es ih => rw [leavesAll, List.mem_append, ih, List.exists_mem_cons_iff]

theorem mem_leaves_ofList {es : List CompileError} {leaf : CompileError} :
    leaf ∈ (ofList es).leaves ↔ ∃ e ∈ es, leaf ∈ e.leaves := by
  rw [← mem_leavesAll]
  unfold ofList
  split
  · rw [leavesAll, leavesAll, List.append_nil]
  · rw [leaves]

end CompileError

variable {leaf : CompileError} {source : String}

theorem Typing.TypingError.leaf_spans {e : TypingError} (h : leaf ∈ e.toCompileError.leaves) :
    leaf.spans = e.spans := by
  cases e <;> (obtain rfl := List.mem_singleton.mp h; rfl)

theorem Syntax.ParseError.leaf_within {e : ParseError} (he : (placedWithin source).fault e)
    (h : leaf ∈ e.toCompileError.leaves) : ∀ span ∈ leaf.spans, span.Within source := by
  cases e with
  | lexical e =>
    obtain rfl := List.mem_singleton.mp h
    exact List.forall_mem_singleton.mpr he
  | grammar cause span =>
    obtain rfl := List.mem_singleton.mp h
    exact List.forall_mem_singleton.mpr he.1

theorem mapError_eq_error {ε ε' α : Type} {f : ε → ε'} {x : Except ε α} {e' : ε'}
    (h : x.mapError f = .error e') : ∃ e, x = .error e ∧ f e = e' := by
  cases x with
  | ok a => cases h
  | error e => exact ⟨e, rfl, Except.error.inj h⟩

theorem leaf_within_of_parse {e : CompileError} (h : parse source = .error e) (hleaf : leaf ∈ e.leaves) :
    ∀ span ∈ leaf.spans, span.Within source := by
  obtain ⟨e, hparse, rfl⟩ := mapError_eq_error h
  exact Syntax.ParseError.leaf_within ((Syntax.placed_of_parse source).2 e hparse) hleaf

theorem leaf_within_of_check {layout : Layout.Config} {u : Syntax.CompilationUnit} {e : CompileError}
    (hu : (Syntax.placedWithin source).unit u) (h : check layout u = .error e)
    (hleaf : leaf ∈ e.leaves) :
    ∀ span ∈ leaf.spans, span.Within source := by
  have hplaces := Typing.place_of_analyze layout hu
  unfold check at h
  simp only at h
  split at h
  · rename_i e' hfailure
    cases h
    unfold Typing.Analyzed.failure? at hfailure
    split at hfailure
    · cases hfailure
    · cases hfailure
      obtain ⟨_, hmem, hleaf⟩ := CompileError.mem_leaves_ofList.mp hleaf
      obtain ⟨err, herr, rfl⟩ := List.mem_map.mp hmem
      rw [Typing.TypingError.leaf_spans hleaf]
      exact hplaces err herr
  · cases h

theorem except_bind_eq_error {ε α β : Type} {x : Except ε α} {k : α → Except ε β} {e : ε}
    (h : (x >>= k) = .error e) : x = .error e ∨ ∃ a, x = .ok a ∧ k a = .error e := by
  cases x with
  | ok a => exact .inr ⟨a, rfl, h⟩
  | error e' =>
    cases h
    exact .inl rfl

/-- If a source is not compiled, in whatever data model and with whatever bounds, then each of the
errors that is one of the source has all its places in the source, also that of an earlier member of
the same name: they start and end between characters, in order, and are not the place that stands for
none. -/
theorem Compilation.spans_within {s : Settings} {file : String} {e : CompileError}
    (h : ofSource s source file = .error e) :
    ∀ leaf ∈ e.leaves, ∀ span ∈ leaf.spans, span.Within source := by
  intro leaf hleaf
  rcases except_bind_eq_error h with hlanguage | ⟨_, -, h⟩
  · unfold languageOf at hlanguage
    split at hlanguage
    · cases hlanguage
    · cases hlanguage
      obtain rfl := List.mem_singleton.mp hleaf
      exact List.forall_mem_nil _
  · rcases except_bind_eq_error h with hparse | ⟨u, hparse, h⟩
    · exact leaf_within_of_parse hparse hleaf
    · have hu : (Syntax.placedWithin source).unit u :=
        (Syntax.placed_of_parse source).1 u (mapError_eq_ok hparse)
      rcases except_bind_eq_error h with hcheck | ⟨⟨tree, registry⟩, -, h⟩
      · exact leaf_within_of_check hu hcheck hleaf
      · rcases except_bind_eq_error h with hlower | ⟨_, -, h⟩
        · obtain ⟨e, -, rfl⟩ := mapError_eq_error hlower
          obtain rfl := List.mem_singleton.mp hleaf
          exact List.forall_mem_nil _
        · cases h

/-- A struct with two members of one name, and a name that nothing declares. -/
theorem Compilation.spans_within_of_two_errors :
    ∃ e, ofSource ⟨⟨.m68k, 8⟩, 1⟩ "struct S { int a; char a; }; int f(void) { return b; }" "f.c" =
        .error e ∧
      e.leaves.map CompileError.spans = [[⟨23, 24⟩, ⟨15, 16⟩], [⟨50, 51⟩]] ∧
        ∀ leaf ∈ e.leaves, ∀ span ∈ leaf.spans,
          span.Within "struct S { int a; char a; }; int f(void) { return b; }" := by
  have hspans : (match ofSource ⟨⟨.m68k, 8⟩, 1⟩
      "struct S { int a; char a; }; int f(void) { return b; }" "f.c" with
    | .ok _ => []
    | .error e => e.leaves.map CompileError.spans) = [[⟨23, 24⟩, ⟨15, 16⟩], [⟨50, 51⟩]] := by
    decide +kernel
  cases h : ofSource ⟨⟨.m68k, 8⟩, 1⟩ "struct S { int a; char a; }; int f(void) { return b; }" "f.c" with
  | ok c =>
    rw [h] at hspans
    cases hspans
  | error e =>
    rw [h] at hspans
    exact ⟨e, rfl, hspans, spans_within h⟩

end MiniC
