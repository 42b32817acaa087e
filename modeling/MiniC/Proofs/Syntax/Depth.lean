import MiniC.Proofs.Syntax.Sources
/-!
How deep the parser goes. Main statement: every source gives a tree or an error in calls that nest no
deeper than a constant times the levels, each round of a loop reads a token or is the last, and every
construct ends, well or not, at the depth where it began. Only what builds a chain of pointers or of
dimensions goes further down, and the chain around it comes back.
-/
namespace MiniC.Syntax.Parser

variable {α β : Type}

/-- The state in which a run ends, well or not. -/
def after : EStateM.Result ParseError ParseState α → ParseState
  | .ok _ s => s
  | .error _ s => s

/-- Where a run that begins at `d` may end. -/
def Leads (further : Bool) (d d' : Nat) : Prop := d' = d ∨ (further ∧ d ≤ d')

/-- Ends at the depth where it began, or further down if it may. -/
def Moves (further : Bool) (p : Parser α) : Prop :=
  ∀ s, Leads further s.depth (after (p s)).depth

/-- Ends at the depth where it began. -/
abbrev Restores (p : Parser α) : Prop := Moves false p

theorem restores_iff {p : Parser α} : Restores p ↔ ∀ s, (after (p s)).depth = s.depth :=
  forall_congr' fun _ => ⟨fun h => h.resolve_right nofun, .inl⟩

namespace Moves

variable {m : Bool} {p q : Parser α} {k : α → Parser β}

theorem leads_trans {d d' d'' : Nat} (h : Leads m d d') (h' : Leads m d' d'') : Leads m d d'' := by
  rcases h with rfl | ⟨hm, hle⟩
  · exact h'
  · rcases h' with rfl | ⟨-, hle'⟩
    · exact .inr ⟨hm, hle⟩
    · exact .inr ⟨hm, Nat.le_trans hle hle'⟩

theorem pure (a : α) : Moves m (Pure.pure a) := fun _ => .inl rfl

theorem bind (h : Moves m p) (hk : ∀ a, Moves m (k a)) : Moves m (p >>= k) := by
  intro s
  have hfirst := h s
  show Leads m s.depth (after (EStateM.bind p k s)).depth
  unfold EStateM.bind
  cases hp : p s with
  | ok a s' =>
    rw [hp] at hfirst
    exact leads_trans hfirst (hk a s')
  | error e s' =>
    rw [hp] at hfirst
    exact hfirst

theorem ite {c : Prop} [Decidable c] (hp : Moves m p) (hq : Moves m q) :
    Moves m (if c then p else q) := by
  split
  · exact hp
  · exact hq

theorem failAt (cause : SyntaxCause) (span : Span) : Moves m (failAt cause span : Parser α) :=
  fun _ => .inl rfl

theorem fail (cause : SyntaxCause) : Moves m (fail cause : Parser α) := fun _ => .inl rfl

theorem unsupported (what : String) : Moves m (unsupported what : Parser α) := .fail _

theorem exhausted : Moves m (exhausted : Parser α) := .fail _

theorem kind : Moves m kind := fun _ => .inl rfl

theorem span : Moves m span := fun _ => .inl rfl

theorem spanFrom (start : Span) : Moves m (spanFrom start) := fun _ => .inl rfl

theorem atKind (c : TokenKind) : Moves m (atKind c) := fun _ => .inl rfl

theorem freshStruct : Moves m freshStruct := fun _ => .inl rfl

theorem advance : Moves m advance := by
  intro s
  unfold Parser.advance
  split <;> exact .inl rfl

theorem peekKind : Moves m peekKind := by
  intro s
  unfold Parser.peekKind
  split <;> exact .inl rfl

theorem chain (p : Parser α) : Moves m (chain p) := by
  intro s
  unfold Parser.chain
  split <;> exact .inl rfl

theorem nested (p : Parser α) : Moves m (nested p) := .chain _

theorem link : Moves true link := by
  intro s
  unfold Parser.link
  split
  · exact .inr ⟨rfl, Nat.le_succ _⟩
  · exact .inl rfl

theorem iterate {step : β → Parser (β × Bool)} (h : ∀ b, Moves m (step b)) (b : β) :
    Moves m (iterate step b) := by
  have hloop : ∀ limit b, Moves m (loop step limit b) := by
    intro limit
    induction limit with
    | zero => exact fun b => .exhausted
    | succ limit ih =>
      intro b s
      have hround := h b s
      unfold loop
      cases hp : step b s with
      | error e s' =>
        rw [hp] at hround
        exact hround
      | ok x s' =>
        rw [hp] at hround
        simp only
        split
        · exact hround
        · split
          · exact leads_trans hround (ih x.1 s')
          · exact hround
  exact fun s => hloop _ b s

theorem accept (c : Punct) : Moves m (accept c) :=
  (atKind _).bind fun _ => .ite (advance.bind fun _ => .pure _) (.pure _)

theorem acceptKeyword (c : Keyword) : Moves m (acceptKeyword c) :=
  (atKind _).bind fun _ => .ite (advance.bind fun _ => .pure _) (.pure _)

theorem expectKind (c : TokenKind) : Moves m (expectKind c) :=
  kind.bind fun _ => .ite advance (.fail _)

theorem expect (c : Punct) : Moves m (expect c) := .expectKind _

theorem expectName (what : String) : Moves m (expectName what) := by
  refine kind.bind fun k => ?_
  split
  · exact advance.bind fun _ => .pure _
  · exact .fail _

theorem atParenBefore (test : TokenKind → Bool) : Moves m (atParenBefore test) :=
  (atKind _).bind fun _ => .ite (peekKind.bind fun _ => .pure _) (.pure _)

/-- A result with the span of the construct. -/
theorem spanned (f : Span → α) (start : Span) :
    Moves m (do return f (← Parser.spanFrom start)) :=
  (spanFrom start).bind fun _ => .pure _

/-- Past a test that only fails. -/
theorem guard {c : Prop} [Decidable c] {cause : SyntaxCause} {k : α → Parser β} {q : Parser β}
    (hq : Moves m q) : Moves m (if c then Parser.fail cause >>= k else q) := by
  split
  · exact fun _ => .inl rfl
  · exact hq

theorem untilBrace (hp : Moves m p) : Moves m (untilBrace p) := by
  refine (iterate (fun acc => ?_) _).bind fun _ => .pure _
  exact (atKind _).bind fun _ => (atKind _).bind fun _ => .ite (.pure _) (hp.bind fun _ => .pure _)

theorem separated (hp : Moves m p) : Moves m (separated p) :=
  (iterate (fun _ => hp.bind fun _ => (accept _).bind fun _ => .pure _) _).bind fun _ => .pure _

end Moves

section Constructs

variable {m : Bool}

theorem moves_qualifiers : Moves m qualifiers := by
  refine .iterate (fun q => Moves.kind.bind fun k => ?_) _
  split
  iterate 2 exact Moves.advance.bind fun _ => .pure _
  · exact .pure _

/-- Each star is a level further down. -/
theorem moves_pointers (base : TypeExpr) : Moves true (pointers base) :=
  .iterate (fun _ => (Moves.atKind _).bind fun _ => .ite (Moves.link.bind fun _ =>
    Moves.advance.bind fun _ => moves_qualifiers.bind fun _ => .pure _) (.pure _)) _

theorem moves_arraySizeOf (e : Expr) : Moves m (arraySizeOf e) := by
  unfold arraySizeOf
  split
  · exact .ite (.failAt _ _) (.pure _)
  · exact .failAt _ _

theorem moves_addSpecifier (sp : Specifiers) : Moves m sp.add := by
  refine Moves.kind.bind fun k => ?_
  split
  iterate 4 exact Moves.advance.bind fun _ => .pure _
  · have hword (k : Keyword) : Moves m (sp.addWord k) := .guard (Moves.advance.bind fun _ => .pure _)
    exact .ite ((hword _).bind fun _ => .pure _) (.pure _)
  · exact .unsupported _
  · exact .pure _

theorem moves_finish (sp : Specifiers) (start : Span) : Moves m (sp.finish start) := by
  refine (Moves.spanFrom start).bind fun span => ?_
  split
  · exact .pure _
  · split
    · exact .pure _
    · exact .failAt _ _

theorem moves_structSpecifier (n : Nat) : Moves m (structSpecifier n) := by
  cases n with
  | zero => exact .exhausted
  | succ n =>
    rw [structSpecifier]
    refine (Moves.expectKind _).bind fun start => Moves.bind ?_ fun name => Moves.bind ?_ fun members =>
      Moves.freshStruct.bind fun id => .spanned _ _
    · refine Moves.kind.bind fun k => ?_
      split
      · exact Moves.advance.bind fun _ => .pure _
      · exact .pure _
    · exact (Moves.atKind _).bind fun _ => .ite ((Moves.nested _).bind fun _ => .pure _)
        (.ite (Moves.kind.bind fun _ => .fail _) (.pure _))

theorem moves_specifiers (n : Nat) : Moves m (specifiers n) := by
  cases n with
  | zero => exact .exhausted
  | succ n =>
    rw [specifiers]
    refine Moves.span.bind fun start => (Moves.iterate (fun sp => ?_) _).bind fun sp =>
      moves_finish sp start
    exact (Moves.atKind _).bind fun _ => .ite (.ite (.fail _)
      ((moves_structSpecifier n).bind fun _ => .pure _)) (moves_addSpecifier sp)

theorem moves_declarator (n : Nat) (base : TypeExpr) : Moves m (declarator n base) := by
  cases n with
  | zero => exact .exhausted
  | succ n =>
    rw [declarator]
    exact .chain _

theorem moves_structBody (n : Nat) : Moves m (structBody n) := by
  cases n with
  | zero => exact .exhausted
  | succ n =>
    rw [structBody]
    refine (Moves.expect _).bind fun _ => (Moves.untilBrace ?_).bind fun groups =>
      (Moves.expect _).bind fun _ => .pure _
    refine (moves_specifiers n).bind fun base => (Moves.separated ?_).bind fun members =>
      (Moves.expect _).bind fun _ => .pure _
    exact (moves_declarator n base).bind fun d => (Moves.atKind _).bind fun _ => .guard (.pure _)

theorem moves_unary (n : Nat) : Moves m (unary n) := by
  cases n with
  | zero => exact .exhausted
  | succ n =>
    rw [unary]
    exact .nested _

theorem moves_binary (n least : Nat) : Moves m (binary n least) := by
  cases n with
  | zero => exact .exhausted
  | succ n =>
    rw [binary]
    exact .chain _

theorem moves_conditional (n : Nat) : Moves m (conditional n) := by
  cases n with
  | zero => exact .exhausted
  | succ n =>
    rw [conditional]
    exact (moves_binary n 1).bind fun _ => (Moves.accept _).bind fun _ => .ite
      ((Moves.nested _).bind fun _ => (Moves.expect _).bind fun _ => (Moves.nested _).bind fun _ =>
        .pure _) (.pure _)

/-- Each dimension is a level further down. -/
theorem moves_arraySuffix (n : Nat) (element : TypeExpr) : Moves true (arraySuffix n element) := by
  cases n with
  | zero => exact .exhausted
  | succ n =>
    rw [arraySuffix]
    refine (Moves.iterate (fun acc => (Moves.atKind _).bind fun _ => .ite ?_ (.pure _)) _).bind
      fun dimensions => .pure _
    refine Moves.link.bind fun _ => Moves.advance.bind fun start => Moves.bind ?_ fun size =>
      (Moves.expect _).bind fun _ => (Moves.spanFrom _).bind fun _ => .pure _
    exact (Moves.atKind _).bind fun _ => .ite (.pure _) ((moves_conditional n).bind fun e =>
      (moves_arraySizeOf e).bind fun _ => .pure _)

theorem moves_typeName (n : Nat) : Moves m (typeName n) := by
  cases n with
  | zero => exact .exhausted
  | succ n =>
    rw [typeName]
    exact (moves_specifiers n).bind fun base => .chain _

theorem moves_assignment (n : Nat) : Moves m (assignment n) := by
  cases n with
  | zero => exact .exhausted
  | succ n =>
    rw [assignment]
    refine (moves_conditional n).bind fun left => Moves.kind.bind fun k => ?_
    split
    · exact Moves.advance.bind fun _ => (Moves.nested _).bind fun _ => .pure _
    · exact .pure _

theorem moves_expression (n : Nat) : Moves m (expression n) := by
  cases n with
  | zero => exact .exhausted
  | succ n =>
    rw [expression]
    exact (moves_assignment n).bind fun first => (Moves.accept _).bind fun _ => .ite
      ((Moves.separated (moves_assignment n)).bind fun more => .spanned _ _) (.pure _)

theorem moves_expressionUnless (n : Nat) (stop : Punct) : Moves m (expressionUnless n stop) := by
  cases n with
  | zero => exact .exhausted
  | succ n =>
    rw [expressionUnless]
    exact (Moves.atKind _).bind fun _ => .ite (.pure _) ((moves_expression n).bind fun _ => .pure _)

theorem moves_parenthesized (n : Nat) : Moves m (parenthesized n) := by
  cases n with
  | zero => exact .exhausted
  | succ n =>
    rw [parenthesized]
    exact (Moves.expect _).bind fun _ => (moves_expression n).bind fun e =>
      (Moves.expect _).bind fun _ => .pure _

theorem moves_initializer (n : Nat) : Moves m (initializer n) := by
  cases n with
  | zero => exact .exhausted
  | succ n =>
    rw [initializer]
    exact (Moves.atKind _).bind fun _ => .ite (.nested _) ((moves_assignment n).bind fun _ => .pure _)

theorem moves_initializerList (n : Nat) : Moves m (initializerList n) := by
  cases n with
  | zero => exact .exhausted
  | succ n =>
    rw [initializerList]
    refine (Moves.expect _).bind fun start => (Moves.iterate (fun acc => ?_) _).bind fun items =>
      (Moves.expect _).bind fun _ => .spanned _ _
    refine (Moves.atKind _).bind fun _ => .ite (.pure _) ((Moves.atKind _).bind fun _ =>
      (Moves.atKind _).bind fun _ => .guard ?_)
    exact (moves_initializer n).bind fun i => (Moves.accept _).bind fun _ => .pure _

theorem moves_varDecls (n : Nat) (first : Declarator) (base : TypeExpr) (start : Span) :
    Moves m (varDecls n first base start) := by
  cases n with
  | zero => exact .exhausted
  | succ n =>
    rw [varDecls]
    refine (Moves.iterate (fun x => Moves.bind ?_ fun init => ?_) _).bind fun x =>
      (Moves.expect _).bind fun _ => .spanned _ _
    · exact (Moves.accept _).bind fun _ => .ite ((moves_initializer n).bind fun _ => .pure _) (.pure _)
    · exact (Moves.accept _).bind fun _ => .ite ((moves_declarator n base).bind fun _ => .pure _)
        (.pure _)

theorem moves_declaration (n : Nat) : Moves m (declaration n) := by
  cases n with
  | zero => exact .exhausted
  | succ n =>
    rw [declaration]
    refine Moves.span.bind fun start => (moves_specifiers n).bind fun base =>
      (Moves.accept _).bind fun _ => .ite ((Moves.spanFrom start).bind fun span => ?_) ?_
    · split
      · exact .pure _
      · exact .failAt _ _
    · exact (moves_declarator n base).bind fun d => (Moves.atKind _).bind fun _ =>
        .guard (moves_varDecls n d base start)

theorem moves_statement (n : Nat) : Moves m (statement n) := by
  cases n with
  | zero => exact .exhausted
  | succ n =>
    rw [statement]
    exact .nested _

theorem moves_block (n : Nat) : Moves m (block n) := by
  cases n with
  | zero => exact .exhausted
  | succ n =>
    rw [block]
    refine Moves.span.bind fun start => (Moves.expect _).bind fun _ =>
      (Moves.untilBrace ?_).bind fun items => (Moves.expect _).bind fun _ => .spanned _ _
    exact Moves.kind.bind fun k => .ite ((moves_declaration n).bind fun _ => .pure _)
      ((moves_statement n).bind fun _ => .pure _)

theorem moves_ifStatement (n : Nat) : Moves m (ifStatement n) := by
  cases n with
  | zero => exact .exhausted
  | succ n =>
    rw [ifStatement]
    refine (Moves.expectKind _).bind fun start => (moves_parenthesized n).bind fun condition =>
      (moves_statement n).bind fun yes => Moves.bind ?_ fun no => .spanned _ _
    exact (Moves.acceptKeyword _).bind fun _ => .ite ((moves_statement n).bind fun _ => .pure _)
      (.pure _)

theorem moves_forClauses (n : Nat) : Moves m (forClauses n) := by
  cases n with
  | zero => exact .exhausted
  | succ n =>
    rw [forClauses]
    refine (Moves.expect _).bind fun _ => Moves.bind ?_ fun init =>
      (moves_expressionUnless n _).bind fun condition => (Moves.expect _).bind fun _ =>
        (moves_expressionUnless n _).bind fun update => (Moves.expect _).bind fun _ =>
          (moves_statement n).bind fun body => .pure _
    refine (Moves.accept _).bind fun _ => .ite (.pure _) (Moves.kind.bind fun k => .ite ?_ ?_)
    · exact (moves_declaration n).bind fun _ => .pure _
    · exact (moves_expression n).bind fun e => (Moves.expect _).bind fun _ => .pure _

theorem moves_loopStatement (n : Nat) : Moves m (loopStatement n) := by
  cases n with
  | zero => exact .exhausted
  | succ n =>
    rw [loopStatement]
    refine Moves.advance.bind fun start => Moves.bind ?_ fun kind => .spanned _ _
    split
    · exact (moves_parenthesized n).bind fun condition => (moves_statement n).bind fun body => .pure _
    · exact (moves_statement n).bind fun body => (Moves.expectKind _).bind fun _ =>
        (moves_parenthesized n).bind fun condition => (Moves.expect _).bind fun _ => .pure _
    · exact moves_forClauses n

theorem moves_jumpStatement (kind : StmtKind) : Moves m (jumpStatement kind) :=
  Moves.span.bind fun _ => Moves.advance.bind fun _ => (Moves.expect _).bind fun _ => .spanned _ _

theorem moves_statementInner (n : Nat) : Moves m (statementInner n) := by
  cases n with
  | zero => exact .exhausted
  | succ n =>
    rw [statementInner]
    refine Moves.span.bind fun start => Moves.kind.bind fun k => ?_
    split
    · exact (moves_block n).bind fun b => .pure _
    · exact moves_ifStatement n
    iterate 3 exact moves_loopStatement n
    iterate 2 exact moves_jumpStatement _
    · exact Moves.advance.bind fun _ => (moves_expressionUnless n _).bind fun value =>
        (Moves.expect _).bind fun _ => .spanned _ _
    · exact Moves.advance.bind fun _ => .pure _
    · exact .unsupported _
    · exact .ite (.failAt _ _) ((moves_expression n).bind fun e => (Moves.expect _).bind fun _ =>
        .spanned _ _)

theorem moves_sizeQuery (n : Nat) (query : SizeQuery) (start : Span) :
    Moves m (sizeQuery n query start) := by
  cases n with
  | zero => exact .exhausted
  | succ n =>
    rw [sizeQuery]
    refine Moves.advance.bind fun _ => (Moves.atParenBefore _).bind fun _ => .ite ?_ ?_
    · exact Moves.advance.bind fun _ => (moves_typeName n).bind fun ty =>
        (Moves.expect _).bind fun _ => .spanned _ _
    · exact (moves_unary n).bind fun operand => .spanned _ _

theorem moves_suffixed (n : Nat) : Moves m (suffixed n) := by
  cases n with
  | zero => exact .exhausted
  | succ n =>
    rw [suffixed]
    exact .chain _

theorem moves_unaryInner (n : Nat) : Moves m (unaryInner n) := by
  cases n with
  | zero => exact .exhausted
  | succ n =>
    rw [unaryInner]
    refine Moves.span.bind fun start => (Moves.atParenBefore _).bind fun isCast =>
      Moves.kind.bind fun k => ?_
    split
    · exact Moves.advance.bind fun _ => moves_unary n
    iterate 2 exact moves_sizeQuery n _ start
    · refine .ite ?_ ?_
      · exact Moves.advance.bind fun _ => (moves_typeName n).bind fun ty =>
          (Moves.expect _).bind fun _ => (moves_unary n).bind fun operand => .pure _
      · split
        · exact Moves.advance.bind fun _ => (moves_unary n).bind fun operand => .pure _
        · exact moves_suffixed n

theorem moves_suffix (n : Nat) (e : Expr) : Moves m (suffix n e) := by
  cases n with
  | zero => exact .exhausted
  | succ n =>
    rw [suffix]
    refine Moves.kind.bind fun k => ?_
    split
    · exact Moves.advance.bind fun _ => (moves_expression n).bind fun index =>
        (Moves.expect _).bind fun _ => .pure _
    · refine Moves.advance.bind fun _ => Moves.bind ?_ fun args => (Moves.expect _).bind fun _ =>
        .pure _
      exact (Moves.atKind _).bind fun _ => .ite (.pure _) (.separated (moves_assignment n))
    iterate 2 exact Moves.advance.bind fun _ => (Moves.expectName _).bind fun _ => .pure _
    iterate 2 exact Moves.advance.bind fun _ => .pure _
    · exact .pure _

theorem moves_stringLiteral : Moves m stringLiteral := by
  refine Moves.span.bind fun start => (Moves.iterate (fun text => Moves.kind.bind fun k => ?_) _).bind
    fun text => .spanned _ _
  split
  · exact Moves.advance.bind fun _ => .pure _
  · exact .pure _

theorem moves_primary (n : Nat) : Moves m (primary n) := by
  cases n with
  | zero => exact .exhausted
  | succ n =>
    rw [primary]
    refine Moves.span.bind fun start => (Moves.atParenBefore _).bind fun isBlock =>
      Moves.kind.bind fun k => ?_
    split
    · exact moves_stringLiteral
    · refine .ite ?_ ?_
      · exact Moves.advance.bind fun _ => (moves_block n).bind fun b => (Moves.expect _).bind fun _ =>
          .spanned _ _
      · exact (moves_parenthesized n).bind fun e => .spanned _ _
    iterate 2 exact .unsupported _
    · split
      · exact Moves.advance.bind fun _ => .pure _
      · exact .failAt _ _

theorem moves_parameter : Moves m parameter :=
  Moves.span.bind fun _ => (moves_specifiers _).bind fun _ => (Moves.chain _).bind fun _ =>
    .spanned _ _

theorem moves_parameters : Moves m parameters := by
  have hlist : Moves m (do
      let x ← iterate (fun x => do
        if ← accept .ellipsis then return ((x.1, true), false)
        let p ← parameter
        return ((x.1.push p, false), ← accept .comma)) (#[], false)
      return (x.1.toList, x.2)) :=
    (Moves.iterate (fun _ => (Moves.accept _).bind fun _ => .ite (.pure _)
      (moves_parameter.bind fun _ => (Moves.accept _).bind fun _ => .pure _)) _).bind fun _ => .pure _
  refine (Moves.atKind _).bind fun _ => .ite (.pure _) ((Moves.atKind _).bind fun _ => .ite ?_ hlist)
  exact Moves.peekKind.bind fun _ => .ite (Moves.advance.bind fun _ => .pure _) hlist

theorem moves_functionRest (d : Declarator) (start : Span) : Moves m (functionRest d start) := by
  refine (Moves.expect _).bind fun _ => moves_parameters.bind fun x => (Moves.expect _).bind fun _ =>
    Moves.bind ?_ fun body => .spanned _ _
  exact (Moves.atKind _).bind fun _ => .ite ((moves_block _).bind fun _ => .pure _)
    ((Moves.expect _).bind fun _ => .pure _)

theorem moves_topDecl : Moves m topDecl := by
  refine Moves.span.bind fun start => (moves_specifiers _).bind fun base =>
    (Moves.accept _).bind fun _ => .ite ((Moves.spanFrom start).bind fun span => ?_) ?_
  · split
    · exact .pure _
    · exact .failAt _ _
  · exact (moves_declarator _ base).bind fun d => (Moves.atKind _).bind fun _ =>
      .ite (moves_functionRest d start) ((moves_varDecls _ d base start).bind fun _ => .pure _)

theorem moves_compilationUnit : Moves m compilationUnit :=
  (Moves.iterate (fun _ => (Moves.atKind _).bind fun _ => .ite (.pure _)
    (moves_topDecl.bind fun _ => .pure _)) _).bind fun _ => .pure _

end Constructs

/-- The constructs of the grammar, with any number of calls allowed to them. -/
inductive Construct : {α : Type} → Parser α → Prop
  | specifiers (n : Nat) : Construct (specifiers n)
  | structSpecifier (n : Nat) : Construct (structSpecifier n)
  | structBody (n : Nat) : Construct (structBody n)
  | declarator (n : Nat) (base : TypeExpr) : Construct (declarator n base)
  | typeName (n : Nat) : Construct (typeName n)
  | varDecls (n : Nat) (first : Declarator) (base : TypeExpr) (start : Span) :
    Construct (varDecls n first base start)
  | declaration (n : Nat) : Construct (declaration n)
  | initializer (n : Nat) : Construct (initializer n)
  | initializerList (n : Nat) : Construct (initializerList n)
  | statement (n : Nat) : Construct (statement n)
  | statementInner (n : Nat) : Construct (statementInner n)
  | block (n : Nat) : Construct (block n)
  | parenthesized (n : Nat) : Construct (parenthesized n)
  | ifStatement (n : Nat) : Construct (ifStatement n)
  | loopStatement (n : Nat) : Construct (loopStatement n)
  | forClauses (n : Nat) : Construct (forClauses n)
  | expressionUnless (n : Nat) (stop : Punct) : Construct (expressionUnless n stop)
  | expression (n : Nat) : Construct (expression n)
  | assignment (n : Nat) : Construct (assignment n)
  | conditional (n : Nat) : Construct (conditional n)
  | binary (n least : Nat) : Construct (binary n least)
  | unary (n : Nat) : Construct (unary n)
  | unaryInner (n : Nat) : Construct (unaryInner n)
  | sizeQuery (n : Nat) (query : SizeQuery) (start : Span) : Construct (sizeQuery n query start)
  | suffixed (n : Nat) : Construct (suffixed n)
  | suffix (n : Nat) (e : Expr) : Construct (suffix n e)
  | primary (n : Nat) : Construct (primary n)
  | stringLiteral : Construct stringLiteral
  | parameter : Construct parameter
  | parameters : Construct parameters
  | functionRest (d : Declarator) (start : Span) : Construct (functionRest d start)
  | topDecl : Construct topDecl
  | compilationUnit : Construct compilationUnit

theorem Construct.restores {p : Parser α} (h : Construct p) : Restores p := by
  cases h with
  | specifiers n => exact moves_specifiers n
  | structSpecifier n => exact moves_structSpecifier n
  | structBody n => exact moves_structBody n
  | declarator n base => exact moves_declarator n base
  | typeName n => exact moves_typeName n
  | varDecls n first base start => exact moves_varDecls n first base start
  | declaration n => exact moves_declaration n
  | initializer n => exact moves_initializer n
  | initializerList n => exact moves_initializerList n
  | statement n => exact moves_statement n
  | statementInner n => exact moves_statementInner n
  | block n => exact moves_block n
  | parenthesized n => exact moves_parenthesized n
  | ifStatement n => exact moves_ifStatement n
  | loopStatement n => exact moves_loopStatement n
  | forClauses n => exact moves_forClauses n
  | expressionUnless n stop => exact moves_expressionUnless n stop
  | expression n => exact moves_expression n
  | assignment n => exact moves_assignment n
  | conditional n => exact moves_conditional n
  | binary n least => exact moves_binary n least
  | unary n => exact moves_unary n
  | unaryInner n => exact moves_unaryInner n
  | sizeQuery n query start => exact moves_sizeQuery n query start
  | suffixed n => exact moves_suffixed n
  | suffix n e => exact moves_suffix n e
  | primary n => exact moves_primary n
  | stringLiteral => exact moves_stringLiteral
  | parameter => exact moves_parameter
  | parameters => exact moves_parameters
  | functionRest d start => exact moves_functionRest d start
  | topDecl => exact moves_topDecl
  | compilationUnit => exact moves_compilationUnit

/-- Parsing comes to an end: no source makes the calls nest without end or a loop go on without
reading a token, so the calls nest no deeper than `allowance`; no level is deeper than the limit, and
every construct gives back the levels it took. -/
theorem parsing_ends :
    (∀ source span, CompilationUnit.parse source ≠ .error (.grammar .exhausted span)) ∧
      allowance ≤ 33 * maxNesting ∧
      (∀ s : ParseState, s.depth ≤ maxNesting) ∧
      (∀ {α : Type} {p : Parser α}, Construct p → ∀ s, (after (p s)).depth = s.depth) ∧
      (∀ base s, s.depth ≤ (after (pointers base s)).depth) ∧
      ∀ n element s, s.depth ≤ (after (arraySuffix n element s)).depth := by
  have hdeeper {α : Type} {p : Parser α} (h : Moves true p) (s : ParseState) :
      s.depth ≤ (after (p s)).depth := (h s).elim (fun heq => heq.ge) And.right
  refine ⟨fun source span hexhausted => ?_, by decide, fun s => s.depth_le,
    fun hp => restores_iff.mp hp.restores, fun base => hdeeper (moves_pointers base),
    fun n element => hdeeper (moves_arraySuffix n element)⟩
  have hfault := (CompilationUnit.meets_parse sound_anything (tokens_anything source)).2 _ hexhausted
  exact hfault.2 rfl

theorem parsing_ends_on_open_parenthesis :
    CompilationUnit.parse "int a[(" ≠ .error (.grammar .exhausted ⟨6, 7⟩) ∧
      ∀ s, (after (parenthesized allowance s)).depth = s.depth :=
  ⟨parsing_ends.1 "int a[(" ⟨6, 7⟩, parsing_ends.2.2.2.1 (.parenthesized allowance)⟩

/-- At the star of `int *`. -/
def atStar : ParseState :=
  ⟨⟨[], ⟨.eof, ⟨5, 5⟩⟩⟩, ⟨.punct .star, ⟨4, 5⟩⟩, ⟨0, 3⟩, 0, 0, Nat.zero_le _⟩

/-- Reading the pointers ends a level further down. -/
theorem not_restores_pointers :
    (after (pointers ⟨.int .int true, {}, ⟨0, 3⟩⟩ atStar)).depth ≠ atStar.depth := by
  decide

end MiniC.Syntax.Parser
