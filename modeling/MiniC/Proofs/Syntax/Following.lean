import MiniC.Syntax.Parser.Grammar
/-!
Reading tokens that are known. Main statements: rules for the parts that constructs are made of, by
which a parser that faces certain tokens reads some of them and gives a certain result, unless it is
refused further levels or further calls.
-/
namespace MiniC.Syntax

/-- The kinds of the current token and of all that come after it. -/
def ParseState.Faces (s : ParseState) (ks : List TokenKind) : Prop :=
  ∃ ts : List Token, s.cursor.pending = ts.map .ok ∧ ks = s.current.kind :: ts.map (·.kind)

/-- Too many levels or calls. -/
def ParseError.Overrun (e : ParseError) : Prop :=
  ∃ span, e = .grammar .nesting span ∨ e = .grammar .exhausted span

namespace Parser

variable {α β : Type}

def Reached (ks : List TokenKind) (Q : α → Prop) : EStateM.Result ParseError ParseState α → Prop
  | .ok a s => s.Faces ks ∧ Q a
  | .error e _ => e.Overrun

/-- Reads from the tokens `ks` up to the tokens `ks'`. -/
def Follows (p : Parser α) (ks ks' : List TokenKind) (Q : α → Prop) : Prop :=
  ∀ s, s.Faces ks → Reached ks' Q (p s)

namespace Follows

variable {p q : Parser α} {k : α → Parser β} {c h : TokenKind} {ks ks' ks'' : List TokenKind}
  {P : α → Prop} {Q : β → Prop}

theorem pure {a : α} (h : P a) : Follows (Pure.pure a) ks ks P := fun _ hs => ⟨hs, h⟩

theorem bind (h : Follows p ks ks' P) (hk : ∀ a, P a → Follows (k a) ks' ks'' Q) :
    Follows (p >>= k) ks ks'' Q := by
  intro s hs
  have hfirst := h s hs
  show Reached ks'' Q (EStateM.bind p k s)
  unfold EStateM.bind
  cases hp : p s with
  | ok a s' =>
    rw [hp] at hfirst
    exact hk a hfirst.2 s' hfirst.1
  | error e s' =>
    rw [hp] at hfirst
    exact hfirst

theorem mono {P' : α → Prop} (h : Follows p ks ks' P) (hP : ∀ a, P a → P' a) :
    Follows p ks ks' P' := by
  intro s hs
  have hends := h s hs
  cases hp : p s with
  | ok a s' =>
    rw [hp] at hends
    exact ⟨hends.1, hP a hends.2⟩
  | error e s' =>
    rw [hp] at hends
    exact hends

theorem exhausted : Follows (exhausted : Parser α) ks ks' P :=
  fun s _ => ⟨s.current.span, .inr rfl⟩

theorem kind_bind {k : TokenKind → Parser β} (hk : Follows (k h) (h :: ks) ks' Q) :
    Follows (kind >>= k) (h :: ks) ks' Q := by
  intro s hs
  obtain ⟨ts, hpending, heq⟩ := hs
  obtain ⟨rfl, rfl⟩ := List.cons.inj heq
  exact hk s ⟨ts, hpending, rfl⟩

theorem span_bind {k : Span → Parser β} (hk : ∀ span, Follows (k span) ks ks' Q) :
    Follows (span >>= k) ks ks' Q :=
  fun s hs => hk s.current.span s hs

theorem spanFrom_bind {k : Span → Parser β} {start : Span}
    (hk : ∀ span, Follows (k span) ks ks' Q) : Follows (spanFrom start >>= k) ks ks' Q :=
  fun s hs => hk (start.cover s.previous) s hs

theorem advance : Follows advance (c :: h :: ks) (h :: ks) fun _ => True := by
  intro s hs
  obtain ⟨ts, hpending, heq⟩ := hs
  obtain ⟨rfl, hks⟩ := List.cons.inj heq
  cases ts with
  | nil => cases hks
  | cons t ts =>
    obtain ⟨rfl, rfl⟩ := List.cons.inj hks
    unfold Parser.advance Lexer.Cursor.next
    rw [hpending]
    exact ⟨⟨ts, rfl, rfl⟩, trivial⟩

theorem advance_bind {k : Token → Parser β} (hk : ∀ t, Follows (k t) (h :: ks) ks' Q) :
    Follows (Parser.advance >>= k) (c :: h :: ks) ks' Q :=
  advance.bind fun t _ => hk t

theorem atKind_bind {k : Bool → Parser β} (hk : Follows (k (h == c)) (h :: ks) ks' Q) :
    Follows (atKind c >>= k) (h :: ks) ks' Q := by
  intro s hs
  obtain ⟨ts, hpending, heq⟩ := hs
  obtain ⟨rfl, rfl⟩ := List.cons.inj heq
  exact hk s ⟨ts, hpending, rfl⟩

theorem accept_bind {c : Punct} {k : Bool → Parser β} (hk : Follows (k true) (h :: ks) ks' Q) :
    Follows (accept c >>= k) (.punct c :: h :: ks) ks' Q := by
  refine bind (P := fun b => b = true) ?_ fun b hb => hb ▸ hk
  refine atKind_bind ?_
  rw [beq_self_eq_true]
  exact advance_bind fun _ => .pure rfl

theorem refuse_bind {c : Punct} {k : Bool → Parser β} (hc : h ≠ .punct c)
    (hk : Follows (k false) (h :: ks) ks' Q) : Follows (accept c >>= k) (h :: ks) ks' Q := by
  refine bind (P := fun b => b = false) ?_ fun b hb => hb ▸ hk
  refine atKind_bind ?_
  rw [beq_eq_false_iff_ne.mpr hc]
  exact .pure rfl

theorem expect_bind {c : Punct} {k : Token → Parser β} (hk : ∀ t, Follows (k t) (h :: ks) ks' Q) :
    Follows (expect c >>= k) (.punct c :: h :: ks) ks' Q := by
  refine bind (P := fun _ => True) ?_ fun t _ => hk t
  refine kind_bind ?_
  rw [if_pos (beq_self_eq_true _)]
  exact advance

theorem expectName_bind {what name : String} {k : String × Span → Parser β}
    (hk : ∀ span, Follows (k (name, span)) (h :: ks) ks' Q) :
    Follows (expectName what >>= k) (.identifier name :: h :: ks) ks' Q := by
  refine bind (P := fun x => x.1 = name) (kind_bind (advance_bind fun _ => .pure rfl)) ?_
  rintro ⟨name', span⟩ rfl
  exact hk span

theorem atParenBefore_bind {test : TokenKind → Bool} {k : Bool → Parser β}
    (hk : Follows (k (c == .punct .lParen && test h)) (c :: h :: ks) ks' Q) :
    Follows (atParenBefore test >>= k) (c :: h :: ks) ks' Q := by
  refine bind (P := fun b => b = (c == .punct .lParen && test h)) ?_ fun b hb => hb ▸ hk
  refine atKind_bind ?_
  split
  · rename_i hc
    rw [hc]
    refine bind (P := fun t => t = h) (fun s hs => ?_) fun t ht => .pure (congrArg test ht)
    obtain ⟨ts, hpending, heq⟩ := hs
    obtain ⟨rfl, hks⟩ := List.cons.inj heq
    cases ts with
    | nil => cases hks
    | cons t ts =>
      obtain ⟨rfl, rfl⟩ := List.cons.inj hks
      unfold peekKind Lexer.Cursor.peek
      rw [hpending]
      exact ⟨⟨t :: ts, hpending, rfl⟩, rfl⟩
  · rename_i hc
    rw [Bool.eq_false_iff.mpr hc]
    exact .pure rfl

theorem chain (h : Follows p ks ks' P) : Follows (chain p) ks ks' P := by
  intro s hs
  have hends := h s hs
  unfold Parser.chain
  cases hp : p s with
  | ok a s' =>
    rw [hp] at hends
    exact hends
  | error e s' =>
    rw [hp] at hends
    exact hends

theorem link_bind {k : PUnit → Parser β} (hk : Follows (k ⟨⟩) ks ks' Q) :
    Follows (link >>= k) ks ks' Q := by
  have hlink : Follows link ks ks fun _ => True := by
    intro s hs
    unfold link
    split
    · exact ⟨hs, trivial⟩
    · exact ⟨s.current.span, .inl rfl⟩
  exact hlink.bind fun _ _ => hk

theorem nested (h : Follows p ks ks' P) : Follows (nested p) ks ks' P :=
  .chain (link_bind h)

end Follows

/-! Loops, with any number of rounds left. -/

def Rounds (step : β → Parser (β × Bool)) (b : β) (ks ks' : List TokenKind) (Q : β → Prop) : Prop :=
  ∀ limit, Follows (loop step limit b) ks ks' Q

variable {step : β → Parser (β × Bool)} {b : β} {ks ks' ks'' : List TokenKind} {P Q : β → Prop}

theorem Rounds.iterate (h : Rounds step b ks ks' Q) : Follows (iterate step b) ks ks' Q :=
  fun s hs => h (s.unread + 1) s hs

/-- One more round. -/
theorem Rounds.more (h : Follows (step b) ks ks' fun x => x.2 = true ∧ P x.1)
    (hk : ∀ b', P b' → Rounds step b' ks' ks'' Q) : Rounds step b ks ks'' Q := by
  intro limit
  cases limit with
  | zero => exact .exhausted
  | succ limit =>
    intro s hs
    have hround := h s hs
    unfold loop
    cases hp : step b s with
    | error e s' =>
      rw [hp] at hround
      exact hround
    | ok x s' =>
      rw [hp] at hround
      obtain ⟨b', more⟩ := x
      obtain ⟨hs', rfl, hb'⟩ := hround
      simp only [Bool.not_true, Bool.false_eq_true, if_false]
      split
      · exact hk b' hb' limit s' hs'
      · exact ⟨s'.current.span, .inr rfl⟩

/-- The last round. -/
theorem Rounds.done (h : Follows (step b) ks ks' fun x => x.2 = false ∧ Q x.1) :
    Rounds step b ks ks' Q := by
  intro limit
  cases limit with
  | zero => exact .exhausted
  | succ limit =>
    intro s hs
    have hround := h s hs
    unfold loop
    cases hp : step b s with
    | error e s' =>
      rw [hp] at hround
      exact hround
    | ok x s' =>
      rw [hp] at hround
      obtain ⟨b', more⟩ := x
      obtain ⟨hs', rfl, hb'⟩ := hround
      exact ⟨hs', hb'⟩

end Parser

end MiniC.Syntax
