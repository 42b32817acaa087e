import MiniC.Proofs.Syntax.Sources
import MiniC.Proofs.Token.Texts
/-!
Places in a source. A span within a source starts and ends between characters of it, and it is not the
empty span at zero, which stands for no place. Main statements: whatever a source is parsed to is
placed within it, and so is what keeps it from being parsed.
-/
namespace MiniC

/-- From one character of a source to the end of one behind it. -/
structure Span.Within (s : Span) (source : String) : Prop where
  ordered : s.start ≤ s.stop
  bounded : s.stop ≤ source.utf8ByteSize
  start : String.Pos.Raw.IsValid source ⟨s.start⟩
  stop : String.Pos.Raw.IsValid source ⟨s.stop⟩
  somewhere : s ≠ Span.nowhere

namespace Span.Within

variable {a b : Span} {source : String}

theorem stop_pos (h : a.Within source) : 0 < a.stop := by
  refine Nat.pos_of_ne_zero fun hstop => h.somewhere ?_
  obtain ⟨start, stop⟩ := a
  obtain rfl : stop = 0 := hstop
  obtain rfl : start = 0 := Nat.le_zero.mp h.ordered
  rfl

/-- A span that ends behind the first character is somewhere. -/
theorem of_stop_pos (hordered : a.start ≤ a.stop) (hstart : String.Pos.Raw.IsValid source ⟨a.start⟩)
    (hstop : String.Pos.Raw.IsValid source ⟨a.stop⟩) (hpos : 0 < a.stop) : a.Within source where
  ordered := hordered
  bounded := hstop.le_rawEndPos
  start := hstart
  stop := hstop
  somewhere := by
    rintro rfl
    exact Nat.lt_irrefl 0 hpos

/-- Before anything has been read, the span of the last token is nowhere. -/
theorem cover (ha : a.Within source) (hb : b.Within source ∨ b = Span.nowhere) :
    (a.cover b).Within source := by
  have hstart : String.Pos.Raw.IsValid source ⟨b.start⟩ := by
    rcases hb with hb | rfl
    · exact hb.start
    · exact String.Pos.Raw.isValid_zero
  have hstop : b.stop ≤ a.stop ∨ String.Pos.Raw.IsValid source ⟨b.stop⟩ := by
    rcases hb with hb | rfl
    · exact .inr hb.stop
    · exact .inl (Nat.zero_le _)
  obtain ⟨hle, -⟩ := a.cover_start_le b
  obtain ⟨hge, -⟩ := a.le_cover_stop b
  refine .of_stop_pos (hle.trans (ha.ordered.trans hge)) ?_ ?_ (ha.stop_pos.trans_le hge)
  · rcases Nat.le_total a.start b.start with h | h
    · rw [Span.cover, Nat.min_eq_left h]
      exact ha.start
    · rw [Span.cover, Nat.min_eq_right h]
      exact hstart
  · rcases Nat.le_total b.stop a.stop with h | h
    · rw [Span.cover, Nat.max_eq_left h]
      exact ha.stop
    · rw [Span.cover, Nat.max_eq_right h]
      rcases hstop with h' | h'
      · rw [← Nat.le_antisymm h h']
        exact ha.stop
      · exact h'

end Span.Within

namespace Lexer

/-- Behind its first characters a source has a boundary. -/
theorem isValid_lengthOf {source : String} {before after : List Char}
    (h : source.toList = before ++ after) :
    String.Pos.Raw.IsValid source ⟨Bytes.lengthOf before⟩ := by
  refine String.Pos.Raw.isValid_iff_exists_append.mpr
    ⟨String.ofList before, String.ofList after, ?_, String.Pos.Raw.ext (lengthOf_eq before)⟩
  rw [← String.ofList_append, ← h, String.ofList_toList]

def Step.span : Step → Span
  | .ok t => t.span
  | .error e => e.span

/-- By induction on the text, as it is read. -/
theorem within_stepsFrom {source : String} (hsource : source ≠ "") (pos : Nat) (cs : List Char) :
    ∀ before, source.toList = before ++ cs → pos = Bytes.lengthOf before →
      ∀ step ∈ stepsFrom pos cs, (Step.span step).Within source := by
  have hread {before : List Char} {c : Char} {rest : List Char} {n : Nat}
      (h : source.toList = before ++ c :: rest) :
      source.toList = before ++ c :: rest.take n ++ rest.drop n := by
    rw [h, List.append_assoc, List.cons_append, List.take_append_drop]
  have hlexeme {before : List Char} {c : Char} {rest : List Char} {n : Nat}
      (h : source.toList = before ++ c :: rest) :
      (Span.mk (Bytes.lengthOf before)
        (Bytes.lengthOf before + Bytes.lengthOf (c :: rest.take n))).Within source := by
    refine .of_stop_pos (Nat.le_add_right _ _) (isValid_lengthOf h) ?_ ?_
    · rw [← lengthOf_append]
      exact isValid_lengthOf (hread h)
    · exact Nat.add_pos_right _ (Nat.add_pos_left c.utf8Size_pos _)
  fun_induction stepsFrom pos cs with
  | case1 pos =>
    rintro before hbefore rfl step hstep
    obtain rfl := List.mem_singleton.mp hstep
    have hvalid := isValid_lengthOf hbefore
    refine .of_stop_pos (Nat.le_refl _) hvalid hvalid (Nat.pos_of_ne_zero fun hzero => hsource ?_)
    rw [List.append_nil] at hbefore
    rw [← hbefore, lengthOf_eq, String.ofList_toList] at hzero
    exact String.utf8ByteSize_eq_zero_iff.mp hzero
  | case2 pos c rest l text stop later hreading ih =>
    rintro before hbefore rfl
    exact ih _ (hread hbefore) (lengthOf_append _ _).symm
  | case3 pos c rest l text stop later kind hreading ih =>
    rintro before hbefore rfl
    exact List.forall_mem_cons.mpr
      ⟨hlexeme hbefore, ih _ (hread hbefore) (lengthOf_append _ _).symm⟩
  | case4 pos c rest l text stop later hreading ih =>
    rintro before hbefore rfl
    exact List.forall_mem_cons.mpr
      ⟨hlexeme hbefore, ih _ (hread hbefore) (lengthOf_append _ _).symm⟩

end Lexer

namespace Syntax

/-- Everything is placed within the source. -/
def placedWithin (source : String) : Demands where
  node _ := True
  place span := span.Within source
  read _ := True
  name _ := True

variable {source : String}

theorem sound_placedWithin : (placedWithin source).Sound where
  node _ _ _ := trivial
  moved _ _ := trivial
  cover := Span.Within.cover

theorem tokens_placedWithin (h : source ≠ "") : (placedWithin source).Tokens source where
  steps step hstep := by
    have hwithin := Lexer.within_stepsFrom h 0 source.toList [] rfl rfl step hstep
    cases step with
    | ok t => exact ⟨hwithin, fun _ _ => trivial⟩
    | error e => exact hwithin
  read := trivial
  stop := by
    refine ⟨?_, nofun⟩
    have hvalid : String.Pos.Raw.IsValid source ⟨source.utf8ByteSize⟩ :=
      String.Pos.Raw.isValid_rawEndPos
    exact .of_stop_pos (Nat.le_refl _) hvalid hvalid
      (Nat.pos_of_ne_zero fun hzero => h (String.utf8ByteSize_eq_zero_iff.mp hzero))

/-- An empty source has an empty tree. -/
theorem parse_empty : CompilationUnit.parse "" = .ok ⟨[]⟩ := by
  have hsteps : Lexer.steps "" = [.ok ⟨.eof, ⟨0, 0⟩⟩] := Lexer.stepsFrom.eq_1 0
  have hstart : ParseState.start "" = .ok ⟨⟨[], ⟨.eof, ⟨0, 0⟩⟩⟩, ⟨.eof, ⟨0, 0⟩⟩, Span.nowhere, 0, 0,
      Nat.zero_le _⟩ := by
    unfold ParseState.start Lexer.Cursor.ofSource
    rw [hsteps]
    rfl
  unfold CompilationUnit.parse
  rw [hstart]
  rfl

theorem placed_of_parse (source : String) :
    (∀ u, CompilationUnit.parse source = .ok u → (placedWithin source).unit u) ∧
      ∀ e, CompilationUnit.parse source = .error e → (placedWithin source).fault e := by
  by_cases h : source = ""
  · subst h
    rw [parse_empty]
    refine ⟨fun u hu => ?_, nofun⟩
    cases hu
    exact List.forall_mem_nil _
  · exact CompilationUnit.meets_parse sound_placedWithin (tokens_placedWithin h)

end Syntax

end MiniC
