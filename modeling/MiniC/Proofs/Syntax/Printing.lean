import MiniC.Proofs.Syntax.Demands
import MiniC.Proofs.Token.Spelling
import MiniC.Syntax.Parser.Grammar
/-!
How an expression is written. A place in the grammar asks for a level, and an expression that binds
looser than its place asks stands in parentheses; there are no others. Levels are those of the
grammar: 0 for the comma, 1 for assignments, 2 for conditionals, 3 to 12 for the binary operators, 13
for what stands before its operand, 14 for what stands behind it and 15 for the rest.
-/
namespace MiniC.Syntax

/-! Operators. -/

def BinaryOp.punct : BinaryOp → Punct
  | add => .plus | sub => .minus | mul => .star | div => .slash | mod => .percent
  | bitAnd => .amp | bitOr => .pipe | bitXor => .caret | shl => .ltLt | shr => .gtGt
  | logAnd => .ampAmp | logOr => .pipePipe
  | eq => .eqEq | ne => .notEq | lt => .lt | le => .ltEq | gt => .gt | ge => .gtEq

def BinaryOp.precedence : BinaryOp → Nat
  | logOr => 1
  | logAnd => 2
  | bitOr => 3
  | bitXor => 4
  | bitAnd => 5
  | eq | ne => 6
  | lt | le | gt | ge => 7
  | shl | shr => 8
  | add | sub => 9
  | mul | div | mod => 10

/-- The operators that an assignment may have. -/
def BinaryOp.assignPunct? : BinaryOp → Option Punct
  | add => some .plusEq
  | sub => some .minusEq
  | mul => some .starEq
  | div => some .slashEq
  | mod => some .percentEq
  | bitAnd => some .ampEq
  | bitOr => some .pipeEq
  | bitXor => some .caretEq
  | shl => some .ltLtEq
  | shr => some .gtGtEq
  | _ => none

def assignPunct : Option BinaryOp → Punct
  | none => .eq
  | some op => op.assignPunct?.getD .eq

def UnaryOp.punct : UnaryOp → Punct
  | neg => .minus
  | not => .bang
  | bitNot => .tilde

def stepPunct (decrement : Bool) : Punct := if decrement then .minusMinus else .plusPlus

def SizeQuery.keyword : SizeQuery → Keyword
  | size => .sizeof
  | align => .alignof

theorem precedence?_punct (op : BinaryOp) : op.punct.precedence? = some op.precedence := by
  cases op <;> rfl

theorem binaryOp?_punct (op : BinaryOp) : Parser.binaryOp? (.punct op.punct) = some op := by
  cases op <;> rfl

/-! Levels. -/

def ExprKind.level : ExprKind → Nat
  | .comma _ => 0
  | .assign .. => 1
  | .conditional .. => 2
  | .binary op _ _ => 2 + op.precedence
  | .unary .. | .query .. | .addressOf _ | .deref _ | .step _ _ false | .cast .. => 13
  | .call .. | .index .. | .member .. | .pointerMember .. | .step _ _ true => 14
  | .integer _ | .character _ | .string _ | .name _ | .typeQuery .. | .block _ => 15

def enclosed (tokens : List TokenKind) : List TokenKind :=
  .punct .lParen :: (tokens ++ [.punct .rParen])

section Tokens

-- the level of the place left of an assignment
variable (target : Nat)

mutual

/-- The tokens of an expression in a place that asks for a level. -/
def Expr.tokens (least : Nat) : Expr → List TokenKind
  | ⟨kind, _, _⟩ => if kind.level < least then enclosed kind.tokens else kind.tokens

def ExprKind.tokens : ExprKind → List TokenKind
  | .integer value => [.integer value]
  | .character value => [.character value]
  | .string text => [.string text]
  | .name x => [.identifier x]
  | .binary op left right =>
    left.tokens (2 + op.precedence) ++ .punct op.punct :: right.tokens (3 + op.precedence)
  | .unary op operand => .punct op.punct :: operand.tokens 13
  | .assign op place value => place.tokens target ++ .punct (assignPunct op) :: value.tokens 1
  | .conditional condition yes no =>
    condition.tokens 3 ++ .punct .question :: (yes.tokens 0 ++ .punct .colon :: no.tokens 2)
  | .call callee args => callee.tokens 14 ++ enclosed (listTokens args)
  | .index array index =>
    array.tokens 14 ++ .punct .lBracket :: (index.tokens 0 ++ [.punct .rBracket])
  | .member object field _ => object.tokens 14 ++ [.punct .dot, .identifier field]
  | .pointerMember pointer field _ => pointer.tokens 14 ++ [.punct .arrow, .identifier field]
  | .query query operand => .keyword query.keyword :: operand.tokens 13
  | .addressOf operand => .punct .amp :: operand.tokens 13
  | .deref operand => .punct .star :: operand.tokens 13
  | .step operand decrement true => operand.tokens 14 ++ [.punct (stepPunct decrement)]
  | .step operand decrement false => .punct (stepPunct decrement) :: operand.tokens 13
  | .comma items => listTokens items
  | .cast .. | .typeQuery .. | .block _ => []

def listTokens : List Expr → List TokenKind
  | [] => []
  | [e] => e.tokens 1
  | e :: es => e.tokens 1 ++ .punct .comma :: listTokens es

end

end Tokens

/-! The trees that can be written. -/

def ExprKind.Plain : ExprKind → Prop
  | .string text => ∀ c ∈ text.toList, c.toNat < 256
  | .name x => IsName x
  | .assign op _ _ => ∀ o ∈ op, o.assignPunct?.isSome
  | .member _ field resolved | .pointerMember _ field resolved => IsName field ∧ resolved = none
  | .comma items => 2 ≤ items.length
  | .cast .. | .typeQuery .. | .block _ => False
  | _ => True

/-- No types, no blocks, and nothing that analysis fills in. -/
def Demands.written : Demands where
  node e := e.kind.Plain ∧ e.ty = none
  place _ := True
  read _ := True
  name _ := True

abbrev Expr.Written (e : Expr) : Prop := Demands.written.expr e

abbrev ExprKind.Written (kind : ExprKind) : Prop := kind.Plain ∧ Demands.written.exprKind kind

theorem Expr.written_iff {e : Expr} : e.Written ↔ e.kind.Written ∧ e.ty = none := by
  rw [Written, Demands.expr_iff]
  exact ⟨fun ⟨_, ⟨hplain, hty⟩, hkind⟩ => ⟨⟨hplain, hkind⟩, hty⟩,
    fun ⟨⟨hplain, hkind⟩, hty⟩ => ⟨trivial, ⟨hplain, hty⟩, hkind⟩⟩

mutual

/-- An expression without the spans of its operands and its own. -/
def Expr.bare : Expr → Expr
  | ⟨kind, _, ty⟩ => ⟨kind.bare, Span.nowhere, ty⟩

def ExprKind.bare : ExprKind → ExprKind
  | .integer value => .integer value
  | .character value => .character value
  | .string text => .string text
  | .name x => .name x
  | .binary op left right => .binary op left.bare right.bare
  | .unary op operand => .unary op operand.bare
  | .assign op place value => .assign op place.bare value.bare
  | .conditional condition yes no => .conditional condition.bare yes.bare no.bare
  | .call callee args => .call callee.bare (bareList args)
  | .index array index => .index array.bare index.bare
  | .member object field resolved => .member object.bare field resolved
  | .pointerMember pointer field resolved => .pointerMember pointer.bare field resolved
  | .cast ty operand => .cast ty operand.bare
  | .query query operand => .query query operand.bare
  | .typeQuery query ty => .typeQuery query ty
  | .addressOf operand => .addressOf operand.bare
  | .deref operand => .deref operand.bare
  | .step operand decrement yieldsOld => .step operand.bare decrement yieldsOld
  | .comma items => .comma (bareList items)
  | .block b => .block b

def bareList : List Expr → List Expr
  | [] => []
  | e :: es => e.bare :: bareList es

end

theorem Expr.bare_eq (e : Expr) : e.bare = ⟨e.kind.bare, Span.nowhere, e.ty⟩ := by
  cases e
  rfl

theorem bareList_eq (es : List Expr) : bareList es = es.map Expr.bare := by
  induction es with
  | nil => rfl
  | cons e es ih => rw [bareList, ih, List.map_cons]

/-! Tokens that are read as they are spelled. -/

section Spelling

variable (target : Nat)

theorem spellable_enclosed {ts : List TokenKind} (h : ∀ k ∈ ts, k.Spellable) :
    ∀ k ∈ enclosed ts, k.Spellable := by
  simp only [enclosed, List.forall_mem_cons, List.forall_mem_append]
  exact ⟨trivial, h, trivial, nofun⟩

mutual

theorem spellable_expr (least : Nat) : ∀ e : Expr, e.Written →
    ∀ k ∈ e.tokens target least, k.Spellable
  | ⟨kind, span, ty⟩, he => by
    rw [Expr.tokens]
    split
    · exact spellable_enclosed (spellable_kind kind (Expr.written_iff.mp he).1)
    · exact spellable_kind kind (Expr.written_iff.mp he).1

theorem spellable_kind : ∀ kind : ExprKind, kind.Written → ∀ k ∈ kind.tokens target, k.Spellable
  | .integer _, _ | .character _, _ => List.forall_mem_singleton.mpr trivial
  | .string _, h | .name _, h => List.forall_mem_singleton.mpr h.1
  | .binary _ l r, h | .assign _ l r, h =>
    List.forall_mem_append.mpr ⟨spellable_expr _ l h.2.1,
      List.forall_mem_cons.mpr ⟨trivial, spellable_expr _ r h.2.2⟩⟩
  | .conditional c y n, h =>
    List.forall_mem_append.mpr ⟨spellable_expr _ c h.2.1, List.forall_mem_cons.mpr ⟨trivial,
      List.forall_mem_append.mpr ⟨spellable_expr _ y h.2.2.1,
        List.forall_mem_cons.mpr ⟨trivial, spellable_expr _ n h.2.2.2⟩⟩⟩⟩
  | .call f args, h =>
    List.forall_mem_append.mpr ⟨spellable_expr _ f h.2.1,
      spellable_enclosed (spellable_list args h.2.2)⟩
  | .index a i, h =>
    List.forall_mem_append.mpr ⟨spellable_expr _ a h.2.1, List.forall_mem_cons.mpr ⟨trivial,
      List.forall_mem_append.mpr ⟨spellable_expr _ i h.2.2, List.forall_mem_singleton.mpr trivial⟩⟩⟩
  | .member a _ _, h | .pointerMember a _ _, h =>
    List.forall_mem_append.mpr ⟨spellable_expr _ a h.2,
      List.forall_mem_cons.mpr ⟨trivial, List.forall_mem_singleton.mpr h.1.1⟩⟩
  | .step e _ true, h =>
    List.forall_mem_append.mpr ⟨spellable_expr _ e h.2, List.forall_mem_singleton.mpr trivial⟩
  | .unary _ e, h | .query _ e, h | .addressOf e, h | .deref e, h | .step e _ false, h =>
    List.forall_mem_cons.mpr ⟨trivial, spellable_expr _ e h.2⟩
  | .comma items, h => spellable_list items h.2
  | .cast .., h | .typeQuery .., h | .block _, h => h.1.elim

theorem spellable_list : ∀ es : List Expr, Demands.written.exprs es →
    ∀ k ∈ listTokens target es, k.Spellable
  | [], _ => nofun
  | [e], h => spellable_expr 1 e h.1
  | e :: e' :: es, h =>
    List.forall_mem_append.mpr ⟨spellable_expr 1 e h.1,
      List.forall_mem_cons.mpr ⟨trivial, spellable_list (e' :: es) h.2⟩⟩

end

end Spelling

/-- The text of an expression, with single spaces between the tokens. -/
def Expr.text (target : Nat) (e : Expr) : String := String.ofList (spell (e.tokens target 0))

/-! What an expression begins with. -/

/-- The tokens that a written expression may begin with. -/
def opens : TokenKind → Bool
  | .integer _ | .character _ | .string _ | .identifier _ => true
  | .keyword k => k == .sizeof || k == .alignof
  | .punct p => p == .lParen || (Parser.leadingOp? (.punct p)).isSome
  | _ => false

/-- The first token passes a test, and a parenthesis there is neither of a cast nor of a block. -/
def Begins (test : TokenKind → Bool) (ts : List TokenKind) : Prop :=
  ∃ t us, ts = t :: us ∧ test t = true ∧
    (t = .punct .lParen → ∃ u vs, us = u :: vs ∧ opens u = true)

theorem Begins.append {test : TokenKind → Bool} {ts : List TokenKind} (h : Begins test ts)
    (more : List TokenKind) : Begins test (ts ++ more) := by
  obtain ⟨t, us, rfl, ht, hparen⟩ := h
  refine ⟨t, us ++ more, rfl, ht, fun hc => ?_⟩
  obtain ⟨u, vs, rfl, hu⟩ := hparen hc
  exact ⟨u, vs ++ more, rfl, hu⟩

theorem begins_enclosed {test : TokenKind → Bool} {ts : List TokenKind} (h : Begins opens ts)
    (htest : test (.punct .lParen) = true) : Begins test (enclosed ts) := by
  obtain ⟨t, us, rfl, ht, -⟩ := h
  exact ⟨_, _, rfl, htest, fun _ => ⟨t, us ++ [.punct .rParen], rfl, ht⟩⟩

/-- With a token behind them there are two to look at. -/
theorem Begins.two {test : TokenKind → Bool} {ts : List TokenKind} (h : Begins test ts)
    (next : TokenKind) (ks : List TokenKind) :
    ∃ c h' ks', ts ++ next :: ks = c :: h' :: ks' ∧ test c = true ∧
      (c = .punct .lParen → opens h' = true) := by
  obtain ⟨t, us, rfl, ht, hparen⟩ := h
  cases us with
  | nil =>
    refine ⟨t, next, ks, rfl, ht, fun hc => ?_⟩
    obtain ⟨u, vs, hnil, -⟩ := hparen hc
    cases hnil
  | cons u vs =>
    refine ⟨t, u, vs ++ next :: ks, rfl, ht, fun hc => ?_⟩
    obtain ⟨u', vs', heq, hu⟩ := hparen hc
    cases heq
    exact hu

section Opening

variable (target : Nat)

mutual

theorem opens_expr (least : Nat) : ∀ e : Expr, e.Written → Begins opens (e.tokens target least)
  | ⟨kind, span, ty⟩, he => by
    rw [Expr.tokens]
    split
    · exact begins_enclosed (opens_kind kind (Expr.written_iff.mp he).1) rfl
    · exact opens_kind kind (Expr.written_iff.mp he).1

theorem opens_kind : ∀ kind : ExprKind, kind.Written → Begins opens (kind.tokens target)
  | .integer _, _ | .character _, _ | .string _, _ | .name _, _ => ⟨_, _, rfl, rfl, nofun⟩
  | .binary _ left _, h | .assign _ left _, h | .call left _, h | .index left _, h
  | .conditional left _ _, h => (opens_expr _ left h.2.1).append _
  | .member object _ _, h | .pointerMember object _ _, h | .step object _ true, h =>
    (opens_expr _ object h.2).append _
  | .unary op _, _ => ⟨_, _, rfl, by cases op <;> rfl, by cases op <;> nofun⟩
  | .query query _, _ => ⟨_, _, rfl, by cases query <;> rfl, nofun⟩
  | .addressOf _, _ | .deref _, _ => ⟨_, _, rfl, rfl, nofun⟩
  | .step _ decrement false, _ =>
    ⟨_, _, rfl, by cases decrement <;> rfl, by cases decrement <;> nofun⟩
  | .comma [], h => absurd h.1 (Nat.not_succ_le_zero 1)
  | .comma [_], h => absurd h.1 (Nat.lt_irrefl 1)
  | .comma (e :: _ :: _), h => (opens_expr _ e h.2.1).append _
  | .cast .., h | .typeQuery .., h | .block _, h => h.1.elim

end

theorem opens_list {e : Expr} (he : e.Written) (es : List Expr) :
    Begins opens (listTokens target (e :: es)) := by
  cases es with
  | nil => exact opens_expr target 1 e he
  | cons e' es => exact (opens_expr target 1 e he).append _

end Opening

end MiniC.Syntax
