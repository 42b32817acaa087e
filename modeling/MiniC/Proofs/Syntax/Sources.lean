import MiniC.Proofs.Syntax.Constructs
/-!
From a source text to its tree. Main statements: if what is asked holds of every token and every
error that a source is read as, then it holds of its tree, or parsing fails at a good place; parsing
always comes to an end; and the name of every global in a tree that was parsed begins as a word does.
-/
namespace MiniC

namespace Lexer

/-- The end of file is the last token. -/
theorem getLast?_stepsFrom (pos : Nat) (cs : List Char) :
    ∃ n, (stepsFrom pos cs).getLast? = some (.ok ⟨.eof, ⟨n, n⟩⟩) := by
  have hcons {step last : Step} {steps : List Step} (h : steps.getLast? = some last) :
      (step :: steps).getLast? = some last := by
    rw [List.getLast?_cons, h]
    rfl
  fun_induction stepsFrom pos cs with
  | case1 pos => exact ⟨pos, rfl⟩
  | case2 pos c rest l text stop later hreading ih => exact ih
  | case3 pos c rest l text stop later kind hreading ih => exact ih.imp fun n h => hcons h
  | case4 pos c rest l text stop later hreading ih => exact ih.imp fun n h => hcons h

end Lexer

namespace Syntax

variable {D : Demands} {source : String}

/-- What is asked of the tokens of a source. -/
structure Demands.Tokens (D : Demands) (source : String) : Prop where
  steps : ∀ step ∈ Lexer.steps source, D.step step
  read : D.read (Lexer.steps source)
  stop : D.token ⟨.eof, ⟨source.utf8ByteSize, source.utf8ByteSize⟩⟩

theorem ParseState.ahead_start (h : D.Tokens source) {s : ParseState}
    (hs : ParseState.start source = .ok s) : s.Ahead D maxNesting (s.unread + 1) := by
  obtain ⟨hsteps, hread, hstop⟩ := h
  obtain ⟨n, hlast⟩ := Lexer.getLast?_stepsFrom 0 source.toList
  unfold Lexer.steps at hsteps
  unfold ParseState.start Lexer.Cursor.ofSource Lexer.Cursor.next Lexer.steps at hs
  cases hp : Lexer.stepsFrom 0 source.toList with
  | nil =>
    rw [hp] at hlast
    cases hlast
  | cons step rest =>
    rw [hp] at hs hsteps hlast
    cases step with
    | error e => cases hs
    | ok t =>
      cases hs
      refine ⟨⟨hsteps _ (List.mem_cons_self ..), hstop, fun x hx => hsteps x
        (List.mem_cons_of_mem _ hx), .inr rfl, fun x hx => ⟨⟨.eof, ⟨n, n⟩⟩, ?_, rfl⟩,
        fun (h : rest = []) => ?_, rfl, .inr ⟨_, [], hread, hp⟩⟩, Nat.le_add_left _ _, Nat.lt_succ_self _⟩
      · rw [List.getLast?_cons, show rest.getLast? = some x from hx] at hlast
        exact Option.some.inj hlast
      · subst h
        cases hlast
        rfl

/-- Nothing is asked of what is read. -/
def anything : Demands where
  node _ := True
  place _ := True
  read _ := True
  name _ := True

theorem sound_anything : anything.Sound where
  node _ _ _ := trivial
  moved _ _ := trivial
  cover _ _ := trivial

theorem tokens_anything (source : String) : anything.Tokens source where
  steps step _ := by
    cases step with
    | ok t => exact ⟨trivial, fun _ _ => trivial⟩
    | error e => trivial
  read := trivial
  stop := ⟨trivial, fun _ _ => trivial⟩

namespace CompilationUnit

/-- What the parser makes of a source. -/
theorem meets_parse (hD : D.Sound) (h : D.Tokens source) :
    (∀ u, parse source = .ok u → D.unit u) ∧ ∀ e, parse source = .error e → D.fault e := by
  unfold parse
  cases hs : ParseState.start source with
  | error e =>
    refine ⟨nofun, fun e' he' => ?_⟩
    cases he'
    unfold ParseState.start Lexer.Cursor.next at hs
    split at hs
    · rename_i e cursor hnext
      cases hs
      split at hnext
      · cases hnext
      · rename_i step rest hp
        cases hnext
        exact h.steps _ (hp ▸ List.mem_cons_self ..)
    · cases hs
  | ok s =>
    have hends := Parser.reads_compilationUnit hD s (ParseState.ahead_start h hs)
    simp only
    cases hu : Parser.compilationUnit s with
    | ok u s' =>
      rw [hu] at hends
      refine ⟨fun u' hu' => ?_, nofun⟩
      cases hu'
      exact hends.2
    | error e s' =>
      rw [hu] at hends
      refine ⟨nofun, fun e' he' => ?_⟩
      cases he'
      exact hends

end CompilationUnit

end Syntax

/-- A name that begins as a word. -/
def Spelled (name : String) : Prop := ∃ c cs, name.toList = c :: cs ∧ Lexer.isWordStart c = true

def Token.Spelled (t : Token) : Prop := ∀ name, t.kind = .identifier name → MiniC.Spelled name

namespace Lexer

variable {c : Char} {rest : List Char} {name : String}

/-- Only a word is a name. -/
def Lexeme.Nameless (l : Lexeme) : Prop := ∀ name, l.reading ≠ some (.ok (.identifier name))

theorem nameless_valued {kind : Option TokenKind} (n : Nat)
    (h : ∀ name, kind ≠ some (.identifier name)) : (Lexeme.valued kind n).Nameless := by
  intro name hname
  cases kind with
  | none => cases hname
  | some kind =>
    have hkind : kind = .identifier name := by injection hname with hname; injection hname
    exact h name (congrArg some hkind)

theorem nameless_punct (cs : List Char) : (punct cs).Nameless := by
  intro name hname
  unfold punct at hname
  split at hname <;> cases hname

theorem nameless_number (c : Char) (rest : List Char) : (number c rest).Nameless := by
  intro name hname
  unfold number at hname
  simp only at hname
  split at hname
  · cases hname
  · exact nameless_valued _ (fun name h => by simp at h) name hname

theorem nameless_quoted {value : List Char → Option TokenKind}
    (h : ∀ cs name, value cs ≠ some (.identifier name)) : (quoted c value rest).Nameless := by
  intro name hname
  unfold quoted at hname
  simp only at hname
  split at hname
  · exact nameless_valued _ (h _) name hname
  · cases hname

theorem spelled_word {s : String} (hs : Spelled s) (h : word s = .identifier name) :
    Spelled name := by
  unfold word at h
  split at h
  · cases h
  · split at h
    · cases h
    · cases h
      exact hs

theorem spelled_lexeme (h : (lexeme c rest).reading = some (.ok (.identifier name))) :
    Spelled name := by
  unfold lexeme at h
  split at h
  · cases h
  · split at h
    · rename_i hstart
      injection h with h
      injection h with h
      exact spelled_word ⟨c, _, String.toList_ofList, hstart⟩ h
    · refine absurd h ?_
      split
      · exact nameless_number c rest name
      · split
        · exact nameless_quoted (fun cs name h => by simp at h) name
        · split
          · exact nameless_quoted (fun cs name h => by simp at h) name
          · split
            · exact nofun
            · split
              · exact nofun
              · exact nofun
            · split
              · exact nofun
              · exact nameless_punct _ name
            · exact nameless_punct _ name

/-- By induction on the text, as it is read. -/
theorem spelled_stepsFrom (pos : Nat) (cs : List Char) {t : Token}
    (h : .ok t ∈ stepsFrom pos cs) : t.Spelled := by
  fun_induction stepsFrom pos cs with
  | case1 pos =>
    obtain rfl := Except.ok.inj (List.mem_singleton.mp h)
    intro name hname
    cases hname
  | case2 pos c rest l text stop later hreading ih => exact ih h
  | case3 pos c rest l text stop later kind hreading ih =>
    rcases List.mem_cons.mp h with h | h
    · obtain rfl := Except.ok.inj h
      rintro name rfl
      exact spelled_lexeme hreading
    · exact ih h
  | case4 pos c rest l text stop later hreading ih =>
    rcases List.mem_cons.mp h with h | h
    · cases h
    · exact ih h

end Lexer

namespace Syntax

/-- Names are words. -/
def spelling : Demands where
  node _ := True
  place _ := True
  read _ := True
  name := Spelled

theorem sound_spelling : spelling.Sound where
  node _ _ _ := trivial
  moved _ _ := trivial
  cover _ _ := trivial

theorem tokens_spelling (source : String) : spelling.Tokens source where
  steps step hstep := by
    cases step with
    | ok t => exact ⟨trivial, Lexer.spelled_stepsFrom 0 source.toList hstep⟩
    | error e => trivial
  read := trivial
  stop := ⟨trivial, nofun⟩

/-- Whatever is parsed, its globals have names. -/
theorem spelled_of_parse {source : String} {u : CompilationUnit}
    (h : CompilationUnit.parse source = .ok u) :
    ∀ d ∈ u.decls, ∀ name ∈ d.globals, Spelled name := by
  intro d hd name hname
  have hunit := (CompilationUnit.meets_parse sound_spelling (tokens_spelling source)).1 u h d hd
  rcases d with ⟨kind, span⟩ | f
  · obtain ⟨v, hv, rfl⟩ := List.mem_map.mp hname
    rcases kind with vars | spec
    · have hvar : spelling.varDecl v := spelling.varDecls_iff.mp hunit.2 v hv
      cases v
      exact hvar.1
    · cases hv
  · cases hname

end Syntax

end MiniC
