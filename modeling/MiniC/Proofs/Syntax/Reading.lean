import MiniC.Proofs.Syntax.Demands
import MiniC.Syntax.Parser.Grammar
/-!
How a construct of the grammar is read. Main statements: rules for the parts that constructs are made
of, by which a parser whose tokens are good gives a good tree, reads on in every round of a loop, and
fails at a good place and never for being endless.
-/
namespace MiniC.Syntax

/-- No expression is higher. -/
def maxHeight : Nat := maxNesting * (maxNesting + 3) + 3

/-- What is asked of trees holds of what a parser makes. -/
structure Demands.Sound (D : Demands) : Prop where
  node : ∀ {kind span}, D.place span → kind.height ≤ maxHeight →
    (∀ text, kind = .string text → D.joins text) → D.node (.untyped kind span)
  moved : ∀ {e : Expr} {span}, D.node e → D.place span → D.node { e with span }
  cover : ∀ {a b}, D.place a → D.place b ∨ b = Span.nowhere → D.place (a.cover b)

namespace Demands

variable (D : Demands)

def token (t : Token) : Prop :=
  D.place t.span ∧ ∀ name, t.kind = .identifier name → D.name name

def step : Lexer.Step → Prop
  | .ok t => D.token t
  | .error e => D.place e.span

def fault : ParseError → Prop
  | .lexical e => D.place e.span
  | .grammar cause span => D.place span ∧ cause ≠ .exhausted

end Demands

/-- The last token is the end of file. -/
structure ParseState.Sound (D : Demands) (s : ParseState) : Prop where
  current : D.token s.current
  stop : D.token s.cursor.stop
  pending : ∀ step ∈ s.cursor.pending, D.step step
  previous : D.place s.previous ∨ s.previous = Span.nowhere
  last : ∀ step ∈ s.cursor.pending.getLast?, ∃ t, step = .ok t ∧ t.kind = .eof
  ended : s.cursor.pending = [] → s.current.kind = .eof
  stopped : s.cursor.stop.kind = .eof
  rest : s.cursor.pending = [] ∨
    ∃ steps before, D.read steps ∧ steps = before ++ .ok s.current :: s.cursor.pending

/-- Neither structs nor levels are asked for. -/
theorem ParseState.Sound.congr {D : Demands} {s s' : ParseState} (h : s.Sound D)
    (hcurrent : s'.current = s.current) (hcursor : s'.cursor = s.cursor)
    (hprevious : s'.previous = s.previous) : s'.Sound D where
  current := hcurrent ▸ h.current
  stop := hcursor ▸ h.stop
  pending := hcursor ▸ h.pending
  previous := hprevious ▸ h.previous
  last := hcursor ▸ h.last
  ended := by rw [hcurrent, hcursor]; exact h.ended
  stopped := hcursor ▸ h.stopped
  rest := by rw [hcurrent, hcursor]; exact h.rest

/-- There are at most `r` levels below, and fewer than `v` tokens to read. -/
structure ParseState.Ahead (D : Demands) (r v : Nat) (s : ParseState) : Prop where
  sound : s.Sound D
  levels : maxNesting ≤ s.depth + r
  unread : s.unread < v

theorem ParseState.Ahead.mono {D : Demands} {r r' v v' : Nat} {s : ParseState} (h : s.Ahead D r v)
    (hr : r ≤ r') (hv : v ≤ v') : s.Ahead D r' v' where
  sound := h.sound
  levels := Nat.le_trans h.levels (Nat.add_le_add_left hr _)
  unread := Nat.lt_of_lt_of_le h.unread hv

namespace Parser

variable {α β : Type} {D : Demands} {r v : Nat}

def Ends (post : α → ParseState → Prop) (err : ParseError → Prop) :
    EStateM.Result ParseError ParseState α → Prop
  | .ok a s => post a s
  | .error e _ => err e

theorem Ends.mono {post post' : α → ParseState → Prop} {err : ParseError → Prop}
    {x : EStateM.Result ParseError ParseState α} (h : Ends post err x)
    (hpost : ∀ a s, post a s → post' a s) : Ends post' err x := by
  cases x with
  | ok a s => exact hpost a s h
  | error e s => exact h

/-- From any state that satisfies `pre`. -/
def Meets (D : Demands) (pre : ParseState → Prop) (p : Parser α) (post : α → ParseState → Prop) :
    Prop :=
  ∀ s, pre s → Ends post D.fault (p s)

theorem Meets.bind {pre : ParseState → Prop} {p : Parser α} {mid : α → ParseState → Prop}
    {k : α → Parser β} {post : β → ParseState → Prop} (h : Meets D pre p mid)
    (hk : ∀ a, Meets D (mid a) (k a) post) : Meets D pre (p >>= k) post := by
  intro s hs
  have hfirst := h s hs
  show Ends post D.fault (EStateM.bind p k s)
  unfold EStateM.bind
  cases hp : p s with
  | ok a s' =>
    rw [hp] at hfirst
    exact hk a s' hfirst
  | error e s' =>
    rw [hp] at hfirst
    exact hfirst

theorem Meets.kind_bind {pre : ParseState → Prop} {k : TokenKind → Parser β}
    {post : β → ParseState → Prop}
    (h : ∀ c, Meets D (fun s => pre s ∧ s.current.kind = c) (k c) post) :
    Meets D pre (kind >>= k) post :=
  fun s hs => h s.current.kind s ⟨hs, rfl⟩

/-- Leaves fewer than `v'` tokens to read, and gives what satisfies `Q`. -/
def Reads (D : Demands) (r v : Nat) (p : Parser α) (v' : α → Nat) (Q : α → Prop) : Prop :=
  Meets D (ParseState.Ahead D r v) p fun a s => s.Ahead D r (v' a) ∧ Q a

/-- The same when the current token is known. -/
def ReadsAt (D : Demands) (k : TokenKind) (r v : Nat) (p : Parser α) (v' : α → Nat)
    (Q : α → Prop) : Prop :=
  Meets D (fun s => s.Ahead D r v ∧ s.current.kind = k) p fun a s => s.Ahead D r (v' a) ∧ Q a

section Rules

variable {p : Parser α} {v' : α → Nat} {w : β → Nat} {P : α → Prop} {Q : β → Prop}
  {k : α → Parser β}

theorem ReadsAt.any {c : TokenKind} (h : Reads D r v p v' P) : ReadsAt D c r v p v' P :=
  fun s hs => h s hs.1

namespace Reads

theorem pure {a : α} (h : P a) (hv : v ≤ v' a) : Reads D r v (Pure.pure a) v' P :=
  fun _ hs => ⟨hs.mono (Nat.le_refl _) hv, h⟩

theorem bind (h : Reads D r v p v' P) (hk : ∀ a, P a → Reads D r (v' a) (k a) w Q) :
    Reads D r v (p >>= k) w Q :=
  Meets.bind h fun a s hs => hk a hs.2 s hs.1

/-- The same when it has to be said what the first part gives. -/
theorem part (u : Nat) (P : α → Prop) (h : Reads D r v p (fun _ => u) P)
    (hk : ∀ a, P a → Reads D r u (k a) w Q) : Reads D r v (p >>= k) w Q :=
  h.bind hk

theorem mono {u : α → Nat} {R : α → Prop} (h : Reads D r v p v' P) (hv : ∀ a, v' a ≤ u a)
    (hP : ∀ a, P a → R a) : Reads D r v p u R :=
  fun s hs => (h s hs).mono fun a _ ha => ⟨ha.1.mono (Nat.le_refl _) (hv a), hP a ha.2⟩

/-- What reads a token may also be used where no progress is asked for. -/
theorem loose (h : ∀ v, Reads D r (v + 1) p (fun _ => v) P) : Reads D r v p (fun _ => v) P := by
  cases v with
  | zero => exact fun s hs => absurd hs.unread (Nat.not_lt_zero _)
  | succ v => exact (h v).mono (fun _ => Nat.le_succ v) fun _ ha => ha

theorem ite {c : Prop} [Decidable c] {q : Parser α} (hp : c → Reads D r v p v' P)
    (hq : ¬ c → Reads D r v q v' P) : Reads D r v (if c then p else q) v' P := by
  split
  · exact hp ‹_›
  · exact hq ‹_›

theorem failAt {cause : SyntaxCause} {span : Span} (hspan : D.place span)
    (hcause : cause ≠ .exhausted) : Reads D r v (failAt cause span) v' P :=
  fun _ _ => ⟨hspan, hcause⟩

theorem fail {cause : SyntaxCause} (hcause : cause ≠ .exhausted) : Reads D r v (fail cause) v' P :=
  fun _ hs => ⟨hs.sound.current.1, hcause⟩

theorem unsupported (what : String) : Reads D r v (unsupported what) v' P := .fail nofun

/-- Past a test that only fails. -/
theorem guard {c : Prop} [Decidable c] {cause : SyntaxCause} {q : Parser β}
    (hcause : cause ≠ .exhausted) (hq : Reads D r v q w Q) :
    Reads D r v (if c then Parser.fail cause >>= k else q) w Q :=
  .ite (fun _ => part v (fun _ => False) (.fail hcause) fun _ h => h.elim)
    fun _ => hq

theorem span : Reads D r v span (fun _ => v) D.place :=
  fun _ hs => ⟨hs, hs.sound.current.1⟩

theorem kind_bind {k : TokenKind → Parser β} (h : ∀ a, ReadsAt D a r v (k a) w Q) :
    Reads D r v (kind >>= k) w Q :=
  Meets.kind_bind h

theorem spanFrom (hD : D.Sound) {start : Span} (hstart : D.place start) :
    Reads D r v (spanFrom start) (fun _ => v) D.place :=
  fun _ hs => ⟨hs, hD.cover hstart hs.sound.previous⟩

/-- A result with the span of the construct. -/
theorem spanned (hD : D.Sound) {f : Span → α} {start : Span} (hstart : D.place start)
    (h : ∀ span, D.place span → P (f span)) :
    Reads D r v (do return f (← Parser.spanFrom start)) (fun _ => v) P :=
  (spanFrom hD hstart).bind fun span hspan => .pure (h span hspan) (Nat.le_refl _)

theorem atKind_bind {c : TokenKind} {k : Bool → Parser β} (ht : ReadsAt D c r v (k true) w Q)
    (hf : Reads D r v (k false) w Q) : Reads D r v (atKind c >>= k) w Q := by
  intro s hs
  show Ends _ D.fault (k (s.current.kind == c) s)
  by_cases hc : s.current.kind = c
  · rw [beq_iff_eq.mpr hc]
    exact ht s ⟨hs, hc⟩
  · rw [beq_eq_false_iff_ne.mpr hc]
    exact hf s hs

/-- Either way. -/
theorem atPunct_any {c : Punct} {k : Bool → Parser β} (h : ∀ b, Reads D r v (k b) w Q) :
    Reads D r v (atPunct c >>= k) w Q :=
  fun s hs => h (s.current.kind == .punct c) s hs

theorem ifKind {c : TokenKind} {p q : Parser α} (hp : ReadsAt D c r v p v' P)
    (hq : Reads D r v q v' P) : Reads D r v (do if ← atKind c then p else q) v' P :=
  atKind_bind hp hq

theorem ifPunct {c : Punct} {p q : Parser α} (hp : ReadsAt D (.punct c) r v p v' P)
    (hq : Reads D r v q v' P) : Reads D r v (do if ← atPunct c then p else q) v' P :=
  atKind_bind hp hq

theorem freshStruct : Reads D r v freshStruct (fun _ => v) fun _ => True :=
  fun _ ⟨hsound, hlevels, hunread⟩ => ⟨⟨hsound.congr rfl rfl rfl, hlevels, hunread⟩, trivial⟩

theorem atPunct_bind {c : Punct} {k : Bool → Parser β} (ht : ReadsAt D (.punct c) r v (k true) w Q)
    (hf : Reads D r v (k false) w Q) : Reads D r v (atPunct c >>= k) w Q :=
  atKind_bind ht hf

end Reads

/-- The current token is read, and if it is not the last one, then there are fewer. -/
theorem ends_advance {s : ParseState} (hs : s.Ahead D r v) :
    Ends (fun t s' => t = s.current ∧ s'.Ahead D r v ∧
      (s.current.kind ≠ .eof → s'.unread < s.unread)) D.fault (advance s) := by
  obtain ⟨hsound, hlevels, hunread⟩ := hs
  obtain ⟨cursor, current, previous, nextStruct, depth, depth_le⟩ := s
  obtain ⟨hcurrent, hstop, hpending, -, hlast, hended, hstopped, hahead⟩ := hsound
  obtain ⟨pending, stop⟩ := cursor
  cases pending with
  | nil =>
    exact ⟨rfl, ⟨⟨hstop, hstop, hpending, .inl hcurrent.1, hlast, fun _ => hstopped, hstopped,
      .inl rfl⟩, hlevels, hunread⟩, fun hne => absurd (hended rfl) hne⟩
  | cons step rest =>
    have hrest : ∀ x ∈ rest, D.step x := fun x hx => hpending x (List.mem_cons_of_mem _ hx)
    cases step with
    | error e => exact hpending _ (List.mem_cons_self ..)
    | ok t =>
      have hread : D.token t := hpending _ (List.mem_cons_self ..)
      refine ⟨rfl, ⟨⟨hread, hstop, hrest, .inl hcurrent.1, fun x hx => ?_, fun h => ?_, hstopped, ?_⟩,
        hlevels, Nat.lt_of_le_of_lt (Nat.le_succ _) hunread⟩, fun _ => Nat.lt_succ_self _⟩
      · refine hlast x ?_
        cases rest with
        | nil => cases hx
        | cons y rest => exact hx
      · obtain rfl : rest = [] := h
        obtain ⟨t', ht', heof⟩ := hlast (.ok t) rfl
        cases ht'
        exact heof
      · obtain ⟨steps, before, hsteps, heq⟩ := hahead.resolve_left (List.cons_ne_nil _ _)
        exact .inr ⟨steps, before ++ [.ok current], hsteps, by rw [heq, List.append_assoc]; rfl⟩

/-- One level further down, at the same token. -/
theorem ends_link {s : ParseState} (hs : s.Ahead D r v) :
    Ends (fun _ s' => s'.current = s.current ∧ ∃ r', r = r' + 1 ∧ s'.Ahead D r' v) D.fault (link s) := by
  unfold link
  split
  · rename_i hdepth
    have hlevels := hs.levels
    exact ⟨rfl, r - 1, by omega, hs.sound.congr rfl rfl rfl,
      show maxNesting ≤ s.depth + 1 + (r - 1) by omega, hs.unread⟩
  · exact ⟨hs.sound.current.1, nofun⟩

theorem Meets.link_bind {c : TokenKind} {k : PUnit → Parser β} {post : β → ParseState → Prop}
    (h : ∀ r', r = r' + 1 →
      Meets D (fun s => s.Ahead D r' v ∧ s.current.kind = c) (k ⟨⟩) post) :
    Meets D (fun s => s.Ahead D r v ∧ s.current.kind = c) (link >>= k) post := by
  have hlink : Meets D (fun s => s.Ahead D r v ∧ s.current.kind = c) link
      fun _ s => ∃ r', r = r' + 1 ∧ s.Ahead D r' v ∧ s.current.kind = c :=
    fun s hs => (ends_link hs.1).mono fun _ s' ⟨hcurrent, r', hr, hs'⟩ =>
      ⟨r', hr, hs', hcurrent ▸ hs.2⟩
  exact hlink.bind fun _ s ⟨r', hr, hs⟩ => h r' hr s hs

theorem Reads.advance : Reads D r v advance (fun _ => v) D.token :=
  fun _ hs => (ends_advance hs).mono fun _ _ h => ⟨h.2.1, h.1 ▸ hs.sound.current⟩

namespace ReadsAt

variable {c : TokenKind}

/-- Any token but the last is gone once it is read. -/
theorem advance (hc : c ≠ .eof) :
    ReadsAt D c r (v + 1) advance (fun _ => v) fun t => D.token t ∧ t.kind = c := by
  intro s ⟨hs, hcurrent⟩
  refine (ends_advance hs).mono fun t s' ⟨ht, hs', hless⟩ => ?_
  have hfewer := hless (hcurrent ▸ hc)
  have hbound := hs.unread
  exact ⟨⟨hs'.sound, hs'.levels, show s'.unread < v by omega⟩, ht ▸ hs.sound.current,
    ht ▸ hcurrent⟩

theorem bind {p : Parser α} {k : α → Parser β} (h : ReadsAt D c r v p v' P)
    (hk : ∀ a, P a → Reads D r (v' a) (k a) w Q) : ReadsAt D c r v (p >>= k) w Q :=
  Meets.bind h fun a s hs => hk a hs.2 s hs.1

theorem advance_bind {k : Token → Parser β} (hc : c ≠ .eof)
    (h : ∀ t, D.token t → t.kind = c → Reads D r v (k t) w Q) :
    ReadsAt D c r (v + 1) (Parser.advance >>= k) w Q :=
  (advance hc).bind fun t ht => h t ht.1 ht.2

theorem link_bind {k : PUnit → Parser β}
    (h : ∀ r', r = r' + 1 → ReadsAt D c r' v (k ⟨⟩) w Q) : ReadsAt D c r v (link >>= k) w Q :=
  Meets.link_bind fun r' hr s hs => (h r' hr s hs).mono fun _ _ hb =>
    ⟨hb.1.mono (hr ▸ Nat.le_succ r') (Nat.le_refl _), hb.2⟩

theorem guard {b : Prop} [Decidable b] {cause : SyntaxCause} {k : α → Parser β} {q : Parser β}
    (hcause : cause ≠ .exhausted) (hq : ReadsAt D c r v q w Q) :
    ReadsAt D c r v (if b then Parser.fail cause >>= k else q) w Q := by
  split
  · exact .any (Reads.part v (fun _ => False) (.fail hcause) fun _ h => h.elim)
  · exact hq

end ReadsAt

namespace Reads

theorem atEnd_bind {k : Bool → Parser β} (ht : Reads D r v (k true) w Q)
    (hf : Reads D r v (k false) w Q) : Reads D r v (atEnd >>= k) w Q :=
  atKind_bind (.any ht) hf

/-- In a loop, where accepting a token makes another round. -/
theorem accept_bind {c : Punct} {k : Bool → Parser β} (ht : Reads D r v (k true) w Q)
    (hf : Reads D r (v + 1) (k false) w Q) : Reads D r (v + 1) (accept c >>= k) w Q := by
  have haccept : Reads D r (v + 1) (accept c) (cond · v (v + 1)) fun _ => True :=
    atPunct_bind (.advance_bind nofun fun _ _ _ => .pure trivial (Nat.le_refl _))
      (.pure trivial (Nat.le_refl _))
  refine haccept.bind fun b _ => ?_
  cases b with
  | true => exact ht
  | false => exact hf

/-- Accepting a token need not read one. -/
theorem ifAccepts {c : Punct} {p q : Parser β} (hp : Reads D r v p w Q) (hq : Reads D r v q w Q) :
    Reads D r v (do if ← accept c then p else q) w Q := by
  have haccept : Reads D r v (accept c) (fun _ => v) fun _ => True :=
    atPunct_bind (.any (Reads.advance.bind fun _ _ => .pure trivial (Nat.le_refl _)))
      (.pure trivial (Nat.le_refl _))
  exact haccept.bind fun b _ => .ite (fun _ => hp) fun _ => hq

theorem ifAcceptsKeyword {c : Keyword} {p q : Parser β} (hp : Reads D r v p w Q)
    (hq : Reads D r v q w Q) : Reads D r v (do if ← acceptKeyword c then p else q) w Q := by
  have haccept : Reads D r v (acceptKeyword c) (fun _ => v) fun _ => True :=
    atKind_bind (.any (Reads.advance.bind fun _ _ => .pure trivial (Nat.le_refl _)))
      (.pure trivial (Nat.le_refl _))
  exact haccept.bind fun b _ => .ite (fun _ => hp) fun _ => hq

theorem expectKind {c : TokenKind} (hc : c ≠ .eof) :
    Reads D r (v + 1) (expectKind c) (fun _ => v) D.token := by
  refine kind_bind fun found => ?_
  by_cases h : found = c
  · rw [if_pos (beq_iff_eq.mpr h)]
    exact fun s hs => (ReadsAt.advance (h ▸ hc) s hs).mono fun _ _ ht => ⟨ht.1, ht.2.1⟩
  · rw [if_neg (by simpa using h)]
    exact .any (.fail nofun)

theorem expect (c : Punct) : Reads D r (v + 1) (expect c) (fun _ => v) D.token := expectKind nofun

theorem expectKeyword (c : Keyword) : Reads D r (v + 1) (expectKeyword c) (fun _ => v) D.token :=
  expectKind nofun

theorem expectName (what : String) :
    Reads D r (v + 1) (expectName what) (fun _ => v) fun x => D.name x.1 ∧ D.place x.2 := by
  refine kind_bind fun found => ?_
  cases found with
  | identifier name =>
    exact .advance_bind nofun fun t ht hkind => .pure ⟨ht.2 name hkind, ht.1⟩ (Nat.le_refl _)
  | _ => exact .any (.fail nofun)

/-- Looking ahead reads nothing. -/
theorem peekKind : Reads D r v peekKind (fun _ => v) fun _ => True := by
  intro s hs
  unfold Parser.peekKind Lexer.Cursor.peek
  cases hp : s.cursor.pending with
  | nil => exact ⟨hs, trivial⟩
  | cons step rest =>
    cases step with
    | ok t => exact ⟨hs, trivial⟩
    | error e => exact hs.sound.pending (.error e) (hp ▸ List.mem_cons_self ..)

theorem atParenBefore_bind {test : TokenKind → Bool} {k : Bool → Parser β}
    (h : ∀ b, Reads D r v (k b) w Q) : Reads D r v (atParenBefore test >>= k) w Q := by
  have hat : Reads D r v (atParenBefore test) (fun _ => v) fun _ => True :=
    atPunct_bind (.any (Reads.peekKind.bind fun _ _ => .pure trivial (Nat.le_refl _)))
      (.pure trivial (Nat.le_refl _))
  exact hat.bind fun b _ => h b

/-- However deep it went, a chain ends where it began. -/
theorem chain {p : Parser α} {r' : Nat} {P : α → Prop}
    (h : Meets D (ParseState.Ahead D r v) p fun a s => s.Ahead D r' (v' a) ∧ P a) :
    Reads D r v (chain p) v' P := by
  intro s hs
  have hends := h s hs
  unfold Parser.chain
  cases hp : p s with
  | ok a s' =>
    rw [hp] at hends
    obtain ⟨⟨hsound, -, hunread⟩, ha⟩ := hends
    exact ⟨⟨hsound.congr rfl rfl rfl, hs.levels, hunread⟩, ha⟩
  | error e s' =>
    rw [hp] at hends
    exact hends

theorem link_bind {k : PUnit → Parser β}
    (h : ∀ r', r = r' + 1 → Reads D r' v (k ⟨⟩) w Q) : Reads D r v (link >>= k) w Q :=
  fun s hs => ReadsAt.link_bind (c := s.current.kind) (fun r' hr => .any (h r' hr)) s ⟨hs, rfl⟩

theorem nested {p : Parser α} (h : ∀ r', r = r' + 1 → Reads D r' v p v' P) :
    Reads D r v (nested p) v' P :=
  .chain (Reads.link_bind h)

end Reads

/-! Loops. -/

theorem ends_iterate {I : β → ParseState → Prop} {post : β → ParseState → Prop}
    {err : ParseError → Prop} {step : β → Parser (β × Bool)}
    (hstep : ∀ b s, I b s → Ends (fun x s' => (x.2 = true → s'.unread < s.unread ∧ I x.1 s') ∧
      (x.2 = false → post x.1 s')) err (step b s)) {b : β} {s : ParseState} (hs : I b s) :
    Ends post err (iterate step b s) := by
  have hloop : ∀ limit b s, s.unread < limit → I b s → Ends post err (loop step limit b s) := by
    intro limit
    induction limit with
    | zero => exact fun _ _ h => absurd h (Nat.not_lt_zero _)
    | succ limit ih =>
      intro b s hlimit hs
      have hround := hstep b s hs
      unfold loop
      cases hp : step b s with
      | error e s' =>
        rw [hp] at hround
        exact hround
      | ok x s' =>
        rw [hp] at hround
        obtain ⟨b', more⟩ := x
        cases more with
        | false => exact hround.2 rfl
        | true =>
          obtain ⟨hless, hnext⟩ := hround.1 rfl
          show Ends post err (if s'.unread < s.unread then _ else _)
          rw [if_pos hless]
          exact ih b' s' (by omega) hnext
  exact hloop _ b s (Nat.lt_succ_self _) hs

/-- How a round of a chain ends: a level further down if it asks for more. -/
def Links (D : Demands) (I : Nat → β → Prop) (r v : Nat) (x : β × Bool) (s : ParseState) : Prop :=
  if x.2 then ∃ r', r = r' + 1 ∧ s.Ahead D r' v ∧ I r' x.1 else s.Ahead D r (v + 1) ∧ I r x.1

namespace Reads

/-- A loop that goes down a level in every round, in the chain that gives the levels back. -/
theorem links {I : Nat → β → Prop} {step : β → Parser (β × Bool)} {p : Parser β}
    (hfirst : Reads D r v p (fun _ => v) (I r))
    (hstep : ∀ r' ≤ r, ∀ b v, I r' b → Meets D (ParseState.Ahead D r' (v + 1)) (step b)
      (Links D I r' v))
    (hpost : ∀ r' ≤ r, ∀ b, I r' b → Q b) :
    Reads D r v (Parser.chain (p >>= iterate step)) (fun _ => v) Q := by
  have hround : ∀ b s, (∃ r' ≤ r, s.Ahead D r' v ∧ I r' b) →
      Ends (fun x s' => (x.2 = true → s'.unread < s.unread ∧ ∃ r' ≤ r, s'.Ahead D r' v ∧ I r' x.1) ∧
        (x.2 = false → s'.Ahead D r v ∧ Q x.1)) D.fault (step b s) := by
    rintro b s ⟨r', hr, hs, hb⟩
    have hbound := hs.unread
    refine (hstep r' hr b s.unread hb s ⟨hs.sound, hs.levels, Nat.lt_succ_self _⟩).mono ?_
    rintro ⟨b', more⟩ s' hx
    cases more with
    | true =>
      obtain ⟨r'', hr', hs', hb'⟩ := hx
      exact ⟨fun _ => ⟨hs'.unread, r'', by omega,
        hs'.mono (Nat.le_refl _) (Nat.le_of_lt hbound), hb'⟩, nofun⟩
    | false => exact ⟨nofun, fun _ => ⟨hx.1.mono hr hbound, hpost r' hr b' hx.2⟩⟩
  have hall : Meets D (ParseState.Ahead D r v) (p >>= Parser.iterate step)
      fun b s => s.Ahead D r v ∧ Q b :=
    Meets.bind hfirst fun b s hs => ends_iterate hround ⟨r, Nat.le_refl r, hs⟩
  exact .chain hall

/-- A round that asks for more has read a token. -/
theorem iterate {I : β → Prop} {step : β → Parser (β × Bool)}
    (hstep : ∀ b v, I b → Reads D r (v + 1) (step b) (fun x => cond x.2 v (v + 1)) fun x => I x.1)
    {b : β} (hb : I b) : Reads D r v (iterate step b) (fun _ => v) I := by
  intro s hs
  refine ends_iterate (I := fun b s => s.Ahead D r v ∧ I b) (fun b s ⟨hs, hb⟩ => ?_) ⟨hs, hb⟩
  have hbound := hs.unread
  refine (hstep b s.unread hb s ⟨hs.sound, hs.levels, Nat.lt_succ_self _⟩).mono ?_
  rintro ⟨b', more⟩ s' ⟨hs', hx⟩
  cases more with
  | true => exact ⟨fun _ => ⟨hs'.unread, hs'.mono (Nat.le_refl _) (Nat.le_of_lt hbound), hx⟩, nofun⟩
  | false => exact ⟨nofun, fun _ => ⟨hs'.mono (Nat.le_refl _) hbound, hx⟩⟩

theorem untilBrace {p : Parser α} {P : α → Prop}
    (h : ∀ v, Reads D r (v + 1) p (fun _ => v) P) :
    Reads D r v (untilBrace p) (fun _ => v) fun as => ∀ a ∈ as, P a := by
  have hempty : ∀ a ∈ (#[] : Array α), P a := fun a ha => absurd ha (Array.not_mem_empty a)
  refine (Reads.iterate (I := fun acc : Array α => ∀ a ∈ acc, P a) (fun acc v hacc => ?_) hempty).bind
    fun acc hacc => .pure (fun a ha => hacc a (Array.mem_toList_iff.mp ha)) (Nat.le_refl _)
  have hitem : Reads D r (v + 1) (do return (acc.push (← p), true)) (fun x => cond x.2 v (v + 1))
      fun x => ∀ a ∈ x.1, P a := by
    refine (h v).bind fun a ha => .pure (fun b hb => ?_) (Nat.le_refl _)
    rcases Array.mem_push.mp hb with hb | rfl
    · exact hacc b hb
    · exact ha
  have hstop : Reads D r (v + 1) (Pure.pure (acc, false)) (fun x => cond x.2 v (v + 1))
      fun x => ∀ a ∈ x.1, P a := .pure hacc (Nat.le_refl _)
  exact atPunct_bind (.any (atEnd_bind hstop hstop)) (atEnd_bind hstop hitem)

theorem separated {p : Parser α} {P : α → Prop} (h : ∀ v, Reads D r v p (fun _ => v) P) :
    Reads D r v (separated p) (fun _ => v) fun as => ∀ a ∈ as, P a := by
  have hempty : ∀ a ∈ (#[] : Array α), P a := fun a ha => absurd ha (Array.not_mem_empty a)
  refine (Reads.iterate (I := fun acc : Array α => ∀ a ∈ acc, P a) (fun acc v hacc => ?_) hempty).bind
    fun acc hacc => .pure (fun a ha => hacc a (Array.mem_toList_iff.mp ha)) (Nat.le_refl _)
  refine (h (v + 1)).bind fun a ha => ?_
  have hpush : ∀ b ∈ acc.push a, P b := by
    intro b hb
    rcases Array.mem_push.mp hb with hb | rfl
    · exact hacc b hb
    · exact ha
  exact accept_bind (.pure hpush (Nat.le_refl _)) (.pure hpush (Nat.le_refl _))

end Reads

end Rules

end Parser

end MiniC.Syntax
