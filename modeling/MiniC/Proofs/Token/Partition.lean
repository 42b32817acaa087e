import MiniC.Proofs.Token.Locality
/-!
A text and its tokens. Main statement: the tokens of a text, with blanks and comments between them, are the
whole text; each is read again from its own text; and they are delivered in order, however far one looks
ahead.
-/
namespace MiniC.Lexer

/-! Pieces of a text. -/

/-- What stands between tokens when `more` stands behind it. A line comment ends with its line, a block
comment at the first mark that closes it. -/
inductive Gap (more : List Char) : List Char → Prop where
  | nil : Gap more []
  | blank {c : Char} {cs : List Char} (hc : isBlank c = true) (h : Gap more cs) : Gap more (c :: cs)
  | lineComment {line cs : List Char} (hline : '\n' ∉ line)
      (hend : ∀ c, (cs ++ more).head? = some c → c = '\n') (h : Gap more cs) :
      Gap more ('/' :: '/' :: (line ++ cs))
  | blockComment {body cs : List Char}
      (hbody : ∀ i < body.length, ¬ ['*', '/'] <+: (body ++ ['*', '/']).drop i) (h : Gap more cs) :
      Gap more ('/' :: '*' :: (body ++ '*' :: '/' :: cs))

/-- A token of a text, with what stands before it. -/
structure Piece where
  gap : List Char
  slice : List Char
  kind : TokenKind
  deriving Repr

def Piece.text (p : Piece) : List Char := p.gap ++ p.slice

/-- A text as pieces and a last gap. Each slice is the longest text that a rule accepts there. -/
inductive Splits : List Char → List Piece → Prop where
  | last {gap : List Char} (hgap : Gap [] gap) : Splits gap []
  | piece {gap slice cs : List Char} {R : Rule} {kind : TokenKind} {ps : List Piece}
      (hgap : Gap (slice ++ cs) gap) (hslice : Munch slice cs R)
      (hkind : R.reading slice = some (.ok kind)) (h : Splits cs ps) :
      Splits (gap ++ (slice ++ cs)) (⟨gap, slice, kind⟩ :: ps)

/-- The tokens of pieces that start at byte `pos`. -/
def placed (pos : Nat) : List Piece → List Token
  | [] => []
  | p :: ps =>
    let start := pos + Bytes.lengthOf p.gap
    let stop := start + Bytes.lengthOf p.slice
    ⟨p.kind, ⟨start, stop⟩⟩ :: placed stop ps

/-- What the tokens of a text are. -/
def kinds (source : String) : Except LexError (List TokenKind) := (tokens source).map (·.map (·.kind))

section Gaps

variable {more gap w cs : List Char} {R : Rule}

theorem not_close_of_unclosed {body : List Char} (h : Unclosed (body ++ ['*'])) {i : Nat} (hi : i < body.length) :
    ¬ ['*', '/'] <+: (body ++ ['*', '/']).drop i := by
  intro hclose
  have hdrop : (body ++ ['*', '/']).drop i = (body ++ ['*']).drop i ++ ['/'] := by
    rw [List.drop_append_of_le_length (by omega), List.drop_append_of_le_length (by omega),
      List.append_assoc]
    rfl
  have hlength : ['*', '/'].length ≤ ((body ++ ['*']).drop i).length := by
    simp only [List.length_cons, List.length_nil, List.length_drop, List.length_append]
    omega
  rw [hdrop] at hclose
  have hinner := List.prefix_of_prefix_length_le hclose (List.prefix_append _ _) hlength
  exact h (hinner.isInfix.trans (List.drop_suffix i _).isInfix)

theorem valued_reading_ne_none (kind : Option TokenKind) : (Lexeme.valued kind 0).reading ≠ none := by
  cases kind <;> exact nofun

theorem Gap.blanks (hw : ∀ c ∈ w, isBlank c = true) (h : Gap more gap) : Gap more (w ++ gap) := by
  induction w with
  | nil => exact h
  | cons c w ih =>
    obtain ⟨hc, hw⟩ := List.forall_mem_cons.mp hw
    exact .blank hc (ih hw)

/-- What a rule reads as nothing belongs to the gap. -/
theorem Gap.unit (hw : Munch w (gap ++ more) R) (hR : R.reading w = none) (h : Gap more gap) :
    Gap more (w ++ gap) := by
  cases R with
  | blank => exact h.blanks (mem_plus_one.mp hw.accepts).2
  | lineComment =>
    obtain ⟨line, hline, rfl⟩ := mem_exactly_mul.mp hw.accepts
    have hline : ∀ c ∈ line, (c != '\n') = true := mem_many.mp hline
    refine .lineComment (fun hmem => ?_) (fun c hc => ?_) h
    · exact absurd (hline _ hmem) (by decide)
    · -- otherwise the comment goes on
      by_contra hne
      obtain ⟨v, hv⟩ := List.head?_eq_some_iff.mp hc
      have hlonger : '/' :: '/' :: (line ++ [c]) ∈ Rule.lineComment.language := by
        refine mem_exactly_mul.mpr ⟨line ++ [c], mem_many.mpr fun d hd => ?_, rfl⟩
        rcases List.mem_append.mp hd with hd | hd
        · exact hline d hd
        · obtain rfl := List.mem_singleton.mp hd
          simpa using hne
      have hfits : '/' :: '/' :: (line ++ [c]) <+: ['/', '/'] ++ line ++ (gap ++ more) :=
        ⟨v, by rw [hv]; simp⟩
      have hle := hw.longest _ _ hfits hlonger
      simp only [List.length_append, List.length_cons, List.length_nil] at hle
      omega
  | blockComment =>
    obtain ⟨body, rfl, hbody⟩ := mem_blockComment.mp hw.accepts
    have hsplit : '/' :: '*' :: (body ++ ['*', '/']) ++ gap = '/' :: '*' :: (body ++ '*' :: '/' :: gap) := by
      simp
    rw [hsplit]
    exact .blockComment (fun i => not_close_of_unclosed hbody) h
  | hexadecimal | binary | octal | decimal | character | string =>
    exact absurd hR (valued_reading_ne_none _)
  | _ => cases hR

/-- More of the gap in front of the first token. -/
theorem Splits.behind {ps : List Piece} (hw : Munch w cs R) (hR : R.reading w = none) (h : Splits cs ps) :
    ∃ ps', Splits (w ++ cs) ps' ∧ ∀ pos, placed pos ps' = placed (pos + Bytes.lengthOf w) ps := by
  cases h with
  | last hgap =>
    refine ⟨[], .last (.unit (by rwa [List.append_nil]) hR hgap), fun pos => rfl⟩
  | @piece gap slice cs R' kind ps hgap hslice hkind h =>
    refine ⟨⟨w ++ gap, slice, kind⟩ :: ps, ?_, fun pos => ?_⟩
    · rw [← List.append_assoc]
      exact .piece (.unit hw hR hgap) hslice hkind h
    · simp only [placed, lengthOf_append, Nat.add_assoc]

end Gaps

/-! From a text to its pieces. -/

section Steps

variable {pos : Nat} {c : Char} {v more : List Char} {R : Rule} {ts : List Token}

/-- One lexeme. -/
theorem stepsFrom_lexes (hlexeme : lexeme c (v ++ more) = ⟨R.reading (c :: v), v.length⟩) :
    stepsFrom pos (c :: v ++ more) =
      match R.reading (c :: v) with
      | none => stepsFrom (pos + Bytes.lengthOf (c :: v)) more
      | some (.ok kind) =>
        .ok ⟨kind, ⟨pos, pos + Bytes.lengthOf (c :: v)⟩⟩ :: stepsFrom (pos + Bytes.lengthOf (c :: v)) more
      | some (.error ()) =>
        .error ⟨String.ofList (c :: v), ⟨pos, pos + Bytes.lengthOf (c :: v)⟩⟩ ::
          stepsFrom (pos + Bytes.lengthOf (c :: v)) more := by
  rw [List.cons_append, stepsFrom, hlexeme]
  rcases R.reading (c :: v) with _ | kind | error <;> simp only [List.take_left, List.drop_left]

theorem stepsFrom_nil_eq (h : stepsFrom pos [] = ts.map .ok) : ts = [⟨.eof, ⟨pos, pos⟩⟩] := by
  rw [stepsFrom] at h
  cases ts with
  | nil => cases h
  | cons t ts =>
    obtain ⟨ht, hts⟩ := List.cons.inj h
    cases ht
    rw [List.map_eq_nil_iff.mp hts.symm]

theorem cons_eq_map_ok {step : Step} {steps : List Step} (h : step :: steps = ts.map .ok) :
    ∃ t ts', ts = t :: ts' ∧ step = .ok t ∧ steps = ts'.map .ok := by
  cases ts with
  | nil => cases h
  | cons t ts =>
    obtain ⟨ht, hts⟩ := List.cons.inj h
    exact ⟨t, ts, rfl, ht, hts⟩

/-- By induction on the text, one lexeme after the other. -/
theorem splits_stepsFrom {cs : List Char} (h : stepsFrom pos cs = ts.map .ok) : ∃ ps, Splits cs ps ∧
    ts = placed pos ps ++ [⟨.eof, ⟨pos + Bytes.lengthOf cs, pos + Bytes.lengthOf cs⟩⟩] := by
  induction hn : cs.length using Nat.strongRecOn generalizing pos cs ts with
  | ind n ih =>
    cases cs with
    | nil =>
      obtain rfl := stepsFrom_nil_eq h
      exact ⟨[], .last .nil, rfl⟩
    | cons c rest =>
      rcases scans c rest with ⟨R, w, more, hcs, hmunch, hlexeme⟩ | ⟨herror, -⟩
      · obtain ⟨d, v, rfl, -⟩ := family_of_mem hmunch.accepts
        obtain ⟨rfl, rfl⟩ : c = d ∧ rest = v ++ more := List.cons.inj hcs
        have hshorter : more.length < n := by
          rw [← hn, List.length_cons, List.length_append]
          omega
        have hstop : pos + Bytes.lengthOf (c :: v) + Bytes.lengthOf more =
            pos + Bytes.lengthOf (c :: (v ++ more)) := by
          rw [← List.cons_append, lengthOf_append, Nat.add_assoc]
        have hstep := @stepsFrom_lexes pos _ _ _ _ hlexeme
        rw [List.cons_append, h] at hstep
        cases hreading : R.reading (c :: v) with
        | none =>
          rw [hreading] at hstep
          obtain ⟨ps, hps, rfl⟩ := ih more.length hshorter hstep.symm rfl
          obtain ⟨ps', hps', hplaced⟩ := hps.behind hmunch hreading
          exact ⟨ps', hps', by rw [hplaced, hstop]⟩
        | some reading =>
          rw [hreading] at hstep
          cases reading with
          | error e =>
            obtain ⟨t, ts', -, herror, -⟩ := cons_eq_map_ok hstep.symm
            cases herror
          | ok kind =>
            obtain ⟨t, ts', rfl, ht, hts⟩ := cons_eq_map_ok hstep.symm
            cases ht
            obtain ⟨ps, hps, rfl⟩ := ih more.length hshorter hts rfl
            refine ⟨⟨[], c :: v, kind⟩ :: ps, .piece .nil hmunch hreading hps, ?_⟩
            rw [hstop]
            rfl
      · rw [stepsFrom] at h
        simp only [herror] at h
        obtain ⟨t, ts', -, herror, -⟩ := cons_eq_map_ok h
        cases herror

end Steps

theorem mapM_id_eq_ok {ε α : Type} {xs : List (Except ε α)} {ys : List α} :
    xs.mapM id = .ok ys ↔ xs = ys.map .ok := by
  induction xs generalizing ys with
  | nil => cases ys <;> simp [pure, Except.pure]
  | cons x xs ih =>
    rw [List.mapM_cons]
    cases x with
    | error e => cases ys <;> simp [bind, Except.bind]
    | ok y =>
      cases hxs : xs.mapM id with
      | error e => cases ys <;> simp [bind, Except.bind, ← ih, hxs]
      | ok ys' => cases ys <;> simp [bind, Except.bind, pure, Except.pure, ← ih, hxs]

theorem tokens_eq_ok {source : String} {ts : List Token} :
    tokens source = .ok ts ↔ stepsFrom 0 source.toList = ts.map .ok := mapM_id_eq_ok

/-! Places. -/

section Places

variable {ps : List Piece} {cs : List Char}

theorem lengthOf_pos (h : cs ≠ []) : 0 < Bytes.lengthOf cs := by
  cases cs with
  | nil => exact absurd rfl h
  | cons c cs => exact Nat.add_pos_left c.utf8Size_pos _

theorem Splits.slice_ne_nil (h : Splits cs ps) : ∀ p ∈ ps, p.slice ≠ [] := by
  induction h with
  | last => exact List.forall_mem_nil _
  | piece _ hslice _ _ ih =>
    obtain ⟨c, v, heq, -⟩ := family_of_mem hslice.accepts
    refine List.forall_mem_cons.mpr ⟨?_, ih⟩
    rw [heq]
    exact List.cons_ne_nil _ _

theorem reading_ne_eof {R : Rule} {w : List Char} : R.reading w ≠ some (.ok .eof) := by
  have hvalued {α : Type} (f : α → TokenKind) (hf : ∀ a, f a ≠ .eof) (value : Option α) :
      (Lexeme.valued (value.map f) 0).reading ≠ some (.ok .eof) := by
    cases value with
    | none => exact nofun
    | some a => exact fun h => hf a (Except.ok.inj (Option.some.inj h))
  cases R with
  | hexadecimal | binary | octal | decimal => exact hvalued TokenKind.integer (fun _ => nofun) _
  | character => exact hvalued TokenKind.character (fun _ => nofun) (Literal.character? _)
  | string => exact hvalued TokenKind.string (fun _ => nofun) (Literal.string? _)
  | _ => exact nofun

theorem Splits.kind_ne_eof (h : Splits cs ps) (pos : Nat) : ∀ t ∈ placed pos ps, t.kind ≠ .eof := by
  induction h generalizing pos with
  | last => exact List.forall_mem_nil _
  | piece _ _ hkind _ ih =>
    refine List.forall_mem_cons.mpr ⟨?_, ih _⟩
    rintro rfl
    exact reading_ne_eof hkind

/-- Every piece is behind the ones before it. -/
theorem placed_within (hne : ∀ p ∈ ps, p.slice ≠ []) (pos : Nat) : ∀ t ∈ placed pos ps,
    pos ≤ t.span.start ∧ t.span.start < t.span.stop ∧
      t.span.stop ≤ pos + Bytes.lengthOf (ps.flatMap Piece.text) := by
  induction ps generalizing pos with
  | nil => exact List.forall_mem_nil _
  | cons p ps ih =>
    obtain ⟨hp, hps⟩ := List.forall_mem_cons.mp hne
    have hpos := lengthOf_pos hp
    rw [List.flatMap_cons, Piece.text, lengthOf_append, lengthOf_append]
    refine List.forall_mem_cons.mpr ⟨⟨?_, ?_, ?_⟩, fun t ht => ?_⟩
    · exact Nat.le_add_right _ _
    · exact Nat.lt_add_of_pos_right hpos
    · show pos + _ + _ ≤ _
      omega
    · obtain ⟨hstart, hspan, hstop⟩ := ih hps _ t ht
      omega

theorem placed_pairwise (hne : ∀ p ∈ ps, p.slice ≠ []) (pos : Nat) :
    (placed pos ps).Pairwise fun t u => t.span.stop ≤ u.span.start := by
  induction ps generalizing pos with
  | nil => exact List.Pairwise.nil
  | cons p ps ih =>
    obtain ⟨-, hps⟩ := List.forall_mem_cons.mp hne
    exact List.pairwise_cons.mpr ⟨fun t ht => (placed_within hps _ t ht).1, ih hps _⟩

theorem Splits.length_le (h : Splits cs ps) :
    Bytes.lengthOf (ps.flatMap Piece.text) ≤ Bytes.lengthOf cs := by
  induction h with
  | last => exact Nat.zero_le _
  | piece _ _ _ _ ih =>
    rw [List.flatMap_cons, Piece.text]
    simp only [lengthOf_append]
    omega

theorem Splits.readAs (h : Splits cs ps) : ∀ p ∈ ps, ReadAs p.kind p.slice := by
  induction h with
  | last => exact List.forall_mem_nil _
  | piece _ hslice hkind _ ih => exact List.forall_mem_cons.mpr ⟨hslice.readAs hkind, ih⟩

theorem kinds_joined (h : ∀ p ∈ ps, ReadAs p.kind p.slice) :
    kinds (String.ofList ([' '].intercalate (ps.map Piece.slice))) = .ok (ps.map Piece.kind ++ [.eof]) := by
  obtain ⟨ts, hts, hkinds⟩ := stepsFrom_joined Piece.kind Piece.slice h 0
  have htokens : tokens (String.ofList ([' '].intercalate (ps.map Piece.slice))) = .ok ts :=
    tokens_eq_ok.mpr (by rw [String.toList_ofList, hts])
  rw [kinds, htokens, ← hkinds]
  rfl

end Places

/-! Looking ahead. -/

namespace Cursor

/-- What a reader may ask for. -/
inductive Call where
  | next | peek
  deriving DecidableEq, Repr

def answer (c : Cursor) : Call → Step
  | .next => c.next.1
  | .peek => c.peek.1

/-- The cursor after some calls. -/
def after (c : Cursor) (calls : List Call) : Cursor :=
  calls.foldl (fun c call => match call with
    | .next => c.next.2
    | .peek => c.peek.2) c

/-- Only what is taken moves the cursor. -/
theorem after_eq {c : Cursor} {ts : List Token} (h : c.pending = ts.map .ok) (calls : List Call) :
    c.after calls = ⟨(ts.drop (calls.count .next)).map .ok, c.stop⟩ := by
  induction calls generalizing c ts with
  | nil =>
    rw [List.count_nil, List.drop_zero, ← h]
    rfl
  | cons call calls ih =>
    obtain ⟨pending, stop⟩ := c
    obtain rfl : pending = ts.map .ok := h
    cases call with
    | next =>
      rw [List.count_cons_self]
      cases ts with
      | nil =>
        have hrest := @ih ⟨[], stop⟩ [] rfl
        rwa [List.drop_nil] at hrest ⊢
      | cons t ts => exact ih (c := ⟨ts.map .ok, stop⟩) rfl
    | peek =>
      rw [List.count_cons_of_ne (by decide)]
      cases ts with
      | nil => exact @ih ⟨[], stop⟩ [] rfl
      | cons t ts => exact ih (c := ⟨(t :: ts).map .ok, stop⟩) rfl

theorem answer_eq {c : Cursor} {ts : List Token} (h : c.pending = ts.map .ok) (call : Call) :
    c.answer call = .ok (ts.headD c.stop) := by
  obtain ⟨pending, stop⟩ := c
  obtain rfl : pending = ts.map .ok := h
  cases call <;> cases ts <;> rfl

end Cursor

/-- The tokens of a text are slices of it that are not empty, in order and apart, and then the end of
file. Between them there are only blanks and comments. Each slice alone is this one token, and so are the
slices with single spaces between them. A reader that has taken some tokens, and looked ahead as often as it
likes, is given the next one. -/
theorem tokens_partition {source : String} {ts : List Token} (h : tokens source = .ok ts) :
    ∃ ps, Splits source.toList ps ∧
      ts = placed 0 ps ++ [⟨.eof, ⟨source.utf8ByteSize, source.utf8ByteSize⟩⟩] ∧
      (∀ t ∈ placed 0 ps, t.kind ≠ .eof ∧ t.span.start < t.span.stop) ∧
      ts.Pairwise (fun t u => t.span.stop ≤ u.span.start) ∧
      (∀ p ∈ ps, kinds (String.ofList p.slice) = .ok [p.kind, .eof]) ∧
      kinds (String.ofList ([' '].intercalate (ps.map Piece.slice))) = .ok (ps.map Piece.kind ++ [.eof]) ∧
      ∀ calls call, ((Cursor.ofSource source).after calls).answer call =
        .ok ((ts[calls.count .next]?).getD ⟨.eof, ⟨source.utf8ByteSize, source.utf8ByteSize⟩⟩) := by
  have hsteps := tokens_eq_ok.mp h
  obtain ⟨ps, hps, hts⟩ := splits_stepsFrom hsteps
  have hsize : 0 + Bytes.lengthOf source.toList = source.utf8ByteSize := by
    rw [Nat.zero_add, lengthOf_eq, String.ofList_toList]
  rw [hsize] at hts
  have hne := hps.slice_ne_nil
  refine ⟨ps, hps, hts, fun t ht => ⟨hps.kind_ne_eof 0 t ht, (placed_within hne 0 t ht).2.1⟩, ?_,
    fun p hp => ?_, kinds_joined hps.readAs, fun calls call => ?_⟩
  · rw [hts, List.pairwise_append]
    refine ⟨placed_pairwise hne 0, List.pairwise_singleton _ _, fun t ht u hu => ?_⟩
    obtain rfl := List.mem_singleton.mp hu
    rw [← hsize]
    exact (placed_within hne 0 t ht).2.2.trans (Nat.add_le_add_left hps.length_le 0)
  · have hone := @kinds_joined [p] (List.forall_mem_singleton.mpr (hps.readAs p hp))
    rwa [List.map_singleton, List.intercalate_singleton] at hone
  · rw [Cursor.after_eq hsteps, Cursor.answer_eq rfl, List.headD_eq_head?_getD, List.head?_drop]
    rfl

/-- The first asterisk and slash behind the opening of this comment belong to the opening. -/
theorem tokens_partition_of_comment : ∃ ps, Splits "a /*/ **/ += 0x1fu// 1".toList ps ∧
    placed 0 ps = [⟨.identifier "a", ⟨0, 1⟩⟩, ⟨.punct .plusEq, ⟨10, 12⟩⟩, ⟨.integer 31, ⟨13, 18⟩⟩] := by
  have htokens : tokens "a /*/ **/ += 0x1fu// 1" = .ok [⟨.identifier "a", ⟨0, 1⟩⟩,
      ⟨.punct .plusEq, ⟨10, 12⟩⟩, ⟨.integer 31, ⟨13, 18⟩⟩, ⟨.eof, ⟨22, 22⟩⟩] := by decide +kernel
  obtain ⟨ps, hsplits, hplaced, -⟩ := tokens_partition htokens
  refine ⟨ps, hsplits, ?_⟩
  exact (List.append_inj_left' hplaced rfl).symm

end MiniC.Lexer
