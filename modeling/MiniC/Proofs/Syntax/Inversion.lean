import MiniC.Proofs.Syntax.Following
import MiniC.Proofs.Syntax.Printing
import MiniC.Proofs.Syntax.Sources
/-!
Reading what was written. Main statements: at every level, the parser reads the tokens of an expression
as this expression, whatever token comes behind that does not hold on to it; so the text of an
expression, with parentheses only where its operands bind looser than their places ask, is read as this
expression, up to the spans, or refused for its nesting.
-/
namespace MiniC.Syntax.Parser

/-- How tightly a token holds on to the expression in front of it: one more than the level of what it
would make of it. -/
def grip : TokenKind → Nat
  | .punct p =>
    match p.precedence?, p with
    | some n, _ => 3 + n
    | none, .comma => 1
    | none, .question => 3
    | none, .lBracket | none, .lParen | none, .dot | none, .arrow => 15
    | none, .plusPlus | none, .minusMinus => 15
    | none, p => if (assignmentOp? (.punct p)).isSome then 2 else 0
  | .string _ => 16
  | _ => 0

theorem grip_punct (op : BinaryOp) : grip (.punct op.punct) = 3 + op.precedence := by
  cases op <;> rfl

theorem grip_assignPunct (op : Option BinaryOp) : grip (.punct (assignPunct op)) = 2 := by
  rcases op with _ | op
  · rfl
  · cases op <;> rfl

theorem assignmentOp?_assignPunct {op : Option BinaryOp} (h : ∀ o ∈ op, o.assignPunct?.isSome) :
    assignmentOp? (.punct (assignPunct op)) = some op := by
  rcases op with _ | op
  · rfl
  · have hop := h op rfl
    cases op <;> first | rfl | cases hop

theorem binaryAt?_punct {op : BinaryOp} {least : Nat} (h : least ≤ op.precedence) :
    binaryAt? (.punct op.punct) least = some (op, op.precedence) := by
  have hprecedence : (TokenKind.punct op.punct).precedence? = some op.precedence :=
    precedence?_punct op
  simp only [binaryAt?, binaryOp?_punct, hprecedence, if_pos h]

section Grip

variable {h : TokenKind}

theorem binaryAt?_of_grip {least : Nat} (hgrip : grip h ≤ least + 2) : binaryAt? h least = none := by
  unfold binaryAt?
  split
  · rename_i op p hop hp
    rw [if_neg]
    cases h with
    | punct q =>
      have hq : q.precedence? = some p := hp
      simp only [grip, hq] at hgrip
      omega
    | _ => cases hp
  · rfl

theorem assignmentOp?_of_grip (hgrip : grip h ≤ 1) : assignmentOp? h = none := by
  cases h with
  | punct p => revert hgrip; cases p <;> decide
  | _ => rfl

theorem ne_of_grip {p : Punct} (hgrip : grip h < grip (.punct p)) : h ≠ .punct p := by
  rintro rfl
  exact Nat.lt_irrefl _ hgrip

end Grip

/-! What is read. -/

/-- An expression of a certain kind, but for the spans, whose type is open. -/
def Like (kind : ExprKind) (e : Expr) : Prop := e.kind.bare = kind.bare ∧ e.ty = none

theorem Like.bare {e e' : Expr} (h : Like e.kind e') (he : e.Written) : e'.bare = e.bare := by
  rw [Expr.bare_eq, Expr.bare_eq, h.1, h.2, (Expr.written_iff.mp he).2]

/-- The tokens that a primary expression may begin with. -/
def starts : TokenKind → Bool
  | .integer _ | .character _ | .string _ | .identifier _ => true
  | .punct p => p == .lParen
  | _ => false

theorem not_startsDeclaration_of_opens {t : TokenKind} (h : opens t = true) :
    t.startsDeclaration = false := by
  cases t with
  | keyword k => revert h; cases k <;> decide
  | _ => rfl

theorem not_cast {c next : TokenKind} (h : c = .punct .lParen → opens next = true) :
    (c == .punct .lParen && next.startsDeclaration) = false := by
  by_cases hc : c = .punct .lParen
  · rw [not_startsDeclaration_of_opens (h hc), Bool.and_false]
  · rw [beq_eq_false_iff_ne.mpr hc, Bool.false_and]

/-- A round that adds a string to a string literal. -/
abbrev stringRound (text : String) : Parser (String × Bool) := do
  match ← kind with
  | .string part =>
    let _ ← advance
    return (text ++ part, true)
  | _ => return (text, false)

/-- A round of a chain of suffixes. -/
abbrev suffixRound (n : Nat) (e : Expr) : Parser (Expr × Bool) := do
  match ← suffix n e with
  | some kind =>
    link
    return (.untyped kind (← spanFrom e.span), true)
  | none => return (e, false)

/-- A round of a chain of binary operators. -/
abbrev binaryRound (n least : Nat) (left : Expr) : Parser (Expr × Bool) := do
  match binaryAt? (← kind) least with
  | some (op, precedence) =>
    link
    let _ ← advance
    let right ← binary n (precedence + 1)
    return (.untyped (.binary op left right) (left.span.cover right.span), true)
  | none => return (left, false)

section Levels

/-- The whole of the tokens is read as an expression of this kind. -/
def Whole (level : Nat) (p : Nat → Parser Expr) (ts : List TokenKind) (kind : ExprKind) : Prop :=
  ∀ n h ks, grip h ≤ level → Follows (p n) (ts ++ h :: ks) (h :: ks) (Like kind)

/-- The tokens are the first operand of a chain that goes on with operators of a level. -/
def Operand (level : Nat) (ts : List TokenKind) (kind : ExprKind) : Prop :=
  ∀ n least h ks ks' Q, least + 2 ≤ level → grip h ≤ level + 1 → grip h ≤ 13 →
    (∀ e, Like kind e → Rounds (binaryRound n least) e (h :: ks) ks' Q) →
      Follows (unary n >>= iterate (binaryRound n least)) (ts ++ h :: ks) ks' Q

/-- The tokens are what suffixes follow. -/
def Suffixable (ts : List TokenKind) (kind : ExprKind) : Prop :=
  Begins starts ts ∧ ∀ n h ks ks' Q, grip h ≤ 15 →
    (∀ e, Like kind e → Rounds (suffixRound n) e (h :: ks) ks' Q) →
      Follows (primary n >>= iterate (suffixRound n)) (ts ++ h :: ks) ks' Q

/-- The tokens are read as an expression of this kind by a construct of a level. -/
def Takes (level : Nat) (ts : List TokenKind) (kind : ExprKind) : Prop :=
  match level with
  | 0 => Whole 0 expression ts kind
  | 1 => Whole 1 assignment ts kind
  | 2 => Whole 2 conditional ts kind
  | 13 => Whole 13 unary ts kind
  | 14 => Suffixable ts kind
  | 15 => Begins starts ts ∧ Whole 15 primary ts kind
  | level => Operand level ts kind

variable {ts : List TokenKind} {kind : ExprKind} {level : Nat}

theorem takes_iff_operand (hleast : 3 ≤ level) (hmost : level ≤ 12) :
    Takes level ts kind ↔ Operand level ts kind := by
  unfold Takes
  split <;> first | omega | rfl

theorem operand_of_unary (h : Whole 13 unary ts kind) : Operand level ts kind :=
  fun n _ h' ks _ _ _ _ hmost hk =>
    (h n h' ks hmost).bind fun e he => (hk e he).iterate

theorem operand_of_takes (hleast : 3 ≤ level) (hmost : level ≤ 13) (h : Takes level ts kind) :
    Operand level ts kind := by
  by_cases hlevel : level = 13
  · subst hlevel
    exact operand_of_unary h
  · exact (takes_iff_operand hleast (by omega)).mp h

theorem Operand.lower (h : Operand (level + 1) ts kind) : Operand level ts kind :=
  fun n least h' ks ks' Q hleast hgrip hmost hk =>
    h n least h' ks ks' Q (by omega) (by omega) hmost hk

/-- Where no operator of its level follows, an operand is the whole chain. -/
theorem Operand.whole {least : Nat} (h : Operand (least + 2) ts kind) (hmost : least ≤ 11) (n : Nat)
    (h' : TokenKind) (ks : List TokenKind) (hgrip : grip h' ≤ least + 2) :
    Follows (binary n least) (ts ++ h' :: ks) (h' :: ks) (Like kind) := by
  cases n with
  | zero =>
    rw [binary]
    exact .exhausted
  | succ n =>
    rw [binary]
    refine .chain (h n least h' ks _ _ (Nat.le_refl _) (by omega) (by omega) fun e he => .done ?_)
    refine .kind_bind ?_
    rw [binaryAt?_of_grip hgrip]
    exact .pure ⟨rfl, he⟩

theorem conditional_of_operand (h : Operand 3 ts kind) : Whole 2 conditional ts kind := by
  intro n h' ks hgrip
  cases n with
  | zero =>
    rw [conditional]
    exact .exhausted
  | succ n =>
    rw [conditional]
    refine (h.whole (by decide) n _ _ (by omega)).bind fun e he => ?_
    exact .refuse_bind (ne_of_grip (Nat.lt_of_le_of_lt hgrip (by decide))) (.pure he)

theorem assignment_of_conditional (h : Whole 2 conditional ts kind) : Whole 1 assignment ts kind := by
  intro n h' ks hgrip
  cases n with
  | zero =>
    rw [assignment]
    exact .exhausted
  | succ n =>
    rw [assignment]
    refine (h n h' ks (by omega)).bind fun e he => .kind_bind ?_
    rw [assignmentOp?_of_grip hgrip]
    exact .pure he

theorem expression_of_assignment (h : Whole 1 assignment ts kind) : Whole 0 expression ts kind := by
  intro n h' ks hgrip
  cases n with
  | zero =>
    rw [expression]
    exact .exhausted
  | succ n =>
    rw [expression]
    refine (h n h' ks (by omega)).bind fun e he => ?_
    exact .refuse_bind (ne_of_grip (Nat.lt_of_le_of_lt hgrip (by decide))) (.pure he)

theorem suffixable_of_primary (h : Begins starts ts ∧ Whole 15 primary ts kind) : Suffixable ts kind :=
  ⟨h.1, fun n h' ks _ _ hgrip hk => (h.2 n h' ks hgrip).bind fun e he => (hk e he).iterate⟩

theorem suffix_of_grip {h : TokenKind} {ks : List TokenKind} {n : Nat} {e : Expr} (hgrip : grip h ≤ 14) :
    Follows (suffix n e) (h :: ks) (h :: ks) (· = none) := by
  cases n with
  | zero =>
    rw [suffix]
    exact .exhausted
  | succ n =>
    rw [suffix]
    refine .kind_bind ?_
    split
    iterate 6 exact absurd hgrip (by decide)
    · exact .pure rfl

theorem Suffixable.suffixed (h : Suffixable ts kind) : Whole 14 suffixed ts kind := by
  intro n h' ks hgrip
  cases n with
  | zero =>
    rw [Parser.suffixed]
    exact .exhausted
  | succ n =>
    rw [Parser.suffixed]
    refine .chain (h.2 n h' ks _ _ (Nat.le_succ_of_le hgrip) fun e he => .done ?_)
    refine (suffix_of_grip hgrip).bind fun kind? hkind => ?_
    subst hkind
    exact .pure ⟨rfl, he⟩

theorem unary_of_suffixable (h : Suffixable ts kind) : Whole 13 unary ts kind := by
  intro n h' ks hgrip
  cases n with
  | zero =>
    rw [unary]
    exact .exhausted
  | succ n =>
    rw [unary]
    refine .nested ?_
    cases n with
    | zero =>
      rw [unaryInner]
      exact .exhausted
    | succ n =>
      have hsuffixed := h.suffixed n h' ks (Nat.le_succ_of_le hgrip)
      obtain ⟨c, next, rest, heq, hstarts, hopens⟩ := h.1.two h' ks
      rw [heq] at hsuffixed ⊢
      rw [unaryInner]
      refine .span_bind fun start => .atParenBefore_bind ?_
      rw [not_cast hopens]
      refine .kind_bind ?_
      split
      iterate 3 cases hstarts
      · rw [if_neg Bool.false_ne_true]
        split
        · rename_i wrap hwrap
          cases c with
          | punct p => revert hstarts hwrap; cases p <;> simp [starts, leadingOp?]
          | _ => cases hwrap
        · exact hsuffixed

/-- What a level takes, every looser level takes too. -/
theorem Takes.down (h : Takes level ts kind) (hlevel : level ≤ 15) {least : Nat}
    (hle : least ≤ level) : Takes least ts kind := by
  have hstep : ∀ l < 15, Takes (l + 1) ts kind → Takes l ts kind := by
    intro l hl h
    match l with
    | 0 => exact expression_of_assignment h
    | 1 => exact assignment_of_conditional h
    | 2 => exact conditional_of_operand h
    | 12 => exact operand_of_unary h
    | 13 => exact unary_of_suffixable h
    | 14 => exact suffixable_of_primary h
    | 3 | 4 | 5 | 6 | 7 | 8 | 9 | 10 | 11 => exact Operand.lower h
    | l + 15 => omega
  induction level, hle using Nat.le_induction with
  | base => exact h
  | succ l hle ih => exact ih (hstep l (by omega) h) (by omega)

end Levels

/-! What each form of expression adds. -/

section Forms

variable {ts us : List TokenKind} {kind kind' : ExprKind}

theorem Like.mk {kind kind' : ExprKind} {span : Span} (h : kind'.bare = kind.bare) :
    Like kind (.untyped kind' span) := ⟨h, rfl⟩

theorem takes_leaf {c : TokenKind} (hleaf : leafKind? c = some kind) : Takes 15 [c] kind := by
  have hstarts : starts c = true ∧ c ≠ .punct .lParen ∧ (∀ text, c ≠ .string text) ∧
      (∀ text, c ≠ .real text) ∧ ∀ word, c ≠ .reserved word := by
    unfold leafKind? at hleaf
    split at hleaf <;> cases hleaf <;> refine ⟨rfl, ?_⟩ <;> simp
  obtain ⟨hstarts, hparen, hstring, hreal, hreserved⟩ := hstarts
  refine ⟨⟨c, [], rfl, hstarts, fun hc => absurd hc hparen⟩, fun n h ks _ => ?_⟩
  cases n with
  | zero =>
    rw [primary]
    exact .exhausted
  | succ n =>
    rw [primary]
    refine .span_bind fun start => .atParenBefore_bind (.kind_bind ?_)
    split
    · exact absurd rfl (hstring _)
    · exact absurd rfl hparen
    · exact absurd rfl (hreal _)
    · exact absurd rfl (hreserved _)
    · rw [hleaf]
      exact .advance_bind fun t => .pure (.mk rfl)

theorem takes_string (text : String) : Takes 15 [.string text] (.string text) := by
  refine ⟨⟨_, [], rfl, rfl, by simp⟩, fun n h ks hgrip => ?_⟩
  cases n with
  | zero =>
    rw [primary]
    exact .exhausted
  | succ n =>
    rw [primary]
    have hrounds : Rounds stringRound "" (.string text :: h :: ks) (h :: ks) (· = text) := by
      have hfirst : Follows (stringRound "") (.string text :: h :: ks) (h :: ks)
          fun x => x.2 = true ∧ x.1 = text :=
        .kind_bind (.advance_bind fun _ => .pure ⟨rfl, String.empty_append⟩)
      refine .more (P := (· = text)) hfirst fun t ht => .done (.kind_bind ?_)
      split
      · exact absurd hgrip (Nat.not_succ_le_self 15)
      · exact .pure ⟨rfl, ht⟩
    refine .span_bind fun start => .atParenBefore_bind (.kind_bind (.span_bind fun start => ?_))
    refine hrounds.iterate.bind fun t ht => .spanFrom_bind fun _ => .pure ?_
    exact ht ▸ .mk rfl

theorem takes_enclosed (h : Whole 0 expression ts kind) (hopens : Begins opens ts) :
    Takes 15 (enclosed ts) kind := by
  refine ⟨begins_enclosed hopens rfl, fun n h' ks _ => ?_⟩
  have hblock {t : TokenKind} (ht : opens t = true) : (t == .punct .lBrace) = false := by
    rw [beq_eq_false_iff_ne]
    rintro rfl
    cases ht
  obtain ⟨t, rest, rfl, ht, -⟩ := hopens
  rw [show enclosed (t :: rest) ++ h' :: ks =
    .punct .lParen :: t :: (rest ++ .punct .rParen :: h' :: ks) by simp [enclosed]]
  cases n with
  | zero =>
    rw [primary]
    exact .exhausted
  | succ n =>
    rw [primary]
    refine .span_bind fun start => .atParenBefore_bind ?_
    rw [hblock ht, Bool.and_false]
    have hinner : Follows (parenthesized n) (.punct .lParen :: t :: (rest ++ .punct .rParen :: h' :: ks))
        (h' :: ks) (Like kind) := by
      cases n with
      | zero =>
        rw [parenthesized]
        exact .exhausted
      | succ n =>
        rw [parenthesized]
        have hread := h n (.punct .rParen) (h' :: ks) (Nat.zero_le 0)
        exact .expect_bind fun _ => hread.bind fun e he => .expect_bind fun _ => .pure he
    exact .kind_bind (hinner.bind fun e he => .spanFrom_bind fun span => .pure ⟨he.1, he.2⟩)

/-- A token in front of its operand. -/
theorem takes_leading {c : TokenKind} (wrap : Expr → ExprKind) (hwrap : leadingOp? c = some wrap)
    {e : Expr} (he : e.Written) (hts : Whole 13 unary ts e.kind) :
    Whole 13 unary (c :: ts) (wrap e) := by
  have hlike {e' : Expr} (h : Like e.kind e') : (wrap e').bare = (wrap e).bare := by
    have hbare := h.bare he
    unfold leadingOp? at hwrap
    split at hwrap <;> cases hwrap <;> simp only [ExprKind.bare, hbare]
  have hc : c ≠ .punct .lParen ∧ c ≠ .punct .plus ∧ ∀ k, c ≠ .keyword k := by
    unfold leadingOp? at hwrap
    split at hwrap <;> cases hwrap <;> simp
  obtain ⟨hparen, hplus, hkeyword⟩ := hc
  intro n h ks hgrip
  cases n with
  | zero =>
    rw [unary]
    exact .exhausted
  | succ n =>
    rw [unary]
    refine .nested ?_
    cases n with
    | zero =>
      rw [unaryInner]
      exact .exhausted
    | succ n =>
      have hoperand := hts n h ks hgrip
      rw [List.cons_append]
      obtain ⟨t, rest, heq⟩ : ∃ t rest, ts ++ h :: ks = t :: rest := by
        cases ts <;> exact ⟨_, _, rfl⟩
      rw [heq] at hoperand ⊢
      rw [unaryInner]
      refine .span_bind fun start => .atParenBefore_bind (.kind_bind ?_)
      rw [beq_eq_false_iff_ne.mpr hparen, Bool.false_and]
      split
      · exact absurd rfl hplus
      iterate 2 exact absurd rfl (hkeyword _)
      · rw [if_neg Bool.false_ne_true, hwrap]
        exact .advance_bind fun _ => hoperand.bind fun e' he' => .pure (.mk (hlike he'))

theorem takes_query (query : SizeQuery) {e : Expr} (he : e.Written) (hopens : Begins opens ts)
    (hts : Whole 13 unary ts e.kind) :
    Whole 13 unary (.keyword query.keyword :: ts) (.query query e) := by
  have hlike {e' : Expr} (h : Like e.kind e') :
      (ExprKind.query query e').bare = (ExprKind.query query e).bare := by
    simp only [ExprKind.bare, h.bare he]
  intro n h ks hgrip
  cases n with
  | zero =>
    rw [unary]
    exact .exhausted
  | succ n =>
    rw [unary]
    refine .nested ?_
    cases n with
    | zero =>
      rw [unaryInner]
      exact .exhausted
    | succ n =>
      have hread (start : Span) : Follows (sizeQuery n query start)
          (.keyword query.keyword :: (ts ++ h :: ks)) (h :: ks) (Like (.query query e)) := by
        cases n with
        | zero =>
          rw [sizeQuery]
          exact .exhausted
        | succ n =>
          have hoperand := hts n h ks hgrip
          obtain ⟨c, next, rest, heq, -, hnext⟩ := hopens.two h ks
          rw [heq] at hoperand ⊢
          rw [sizeQuery]
          refine .advance_bind fun _ => .atParenBefore_bind ?_
          rw [not_cast hnext, if_neg Bool.false_ne_true]
          exact hoperand.bind fun e' he' => .spanFrom_bind fun _ => .pure (.mk (hlike he'))
      have hparen : ∀ k, (TokenKind.keyword k == .punct .lParen) = false := fun k =>
        beq_eq_false_iff_ne.mpr nofun
      obtain ⟨t, rest, heq⟩ : ∃ t rest, ts ++ h :: ks = t :: rest := by
        cases ts <;> exact ⟨_, _, rfl⟩
      rw [List.cons_append]
      rw [heq] at hread ⊢
      rw [unaryInner]
      refine .span_bind fun start => .atParenBefore_bind ?_
      rw [hparen, Bool.false_and]
      refine .kind_bind ?_
      cases query with
      | size => exact hread start
      | align => exact hread start

/-- A suffix that makes `kind` of what it follows. -/
theorem Suffixable.more {t : TokenKind} (h : Suffixable ts kind) (ht : grip (t) = 15)
    (hsuffix : ∀ n e h ks, Like kind e → Follows (suffix n e) (t :: us ++ h :: ks) (h :: ks)
      fun kind? => ∃ made, kind? = some made ∧ made.bare = kind'.bare) :
    Suffixable (ts ++ t :: us) kind' := by
  refine ⟨h.1.append _, fun n h' ks ks' Q hgrip hk => ?_⟩
  rw [List.append_assoc, List.cons_append]
  refine h.2 n t (us ++ h' :: ks) ks' Q ht.le fun e he => .more (P := Like kind') ?_ hk
  refine (hsuffix n e h' ks he).bind fun kind? hkind => ?_
  obtain ⟨made, rfl, hmade⟩ := hkind
  exact .link_bind (.spanFrom_bind fun _ => .pure ⟨rfl, .mk hmade⟩)

theorem suffixable_index {a i : Expr} (ha : a.Written) (hi : i.Written)
    (h : Suffixable ts a.kind) (hopens : Begins opens us) (hindex : Whole 0 expression us i.kind) :
    Suffixable (ts ++ .punct .lBracket :: (us ++ [.punct .rBracket])) (.index a i) := by
  refine h.more rfl fun n e h' ks he => ?_
  cases n with
  | zero =>
    rw [suffix]
    exact .exhausted
  | succ n =>
    have hread := hindex n (.punct .rBracket) (h' :: ks) (Nat.zero_le 0)
    obtain ⟨t, us, rfl, -⟩ := hopens
    rw [List.cons_append, List.append_assoc, suffix]
    refine .kind_bind (.advance_bind fun _ => hread.bind fun e' he' => .expect_bind fun _ =>
      .pure ⟨_, rfl, ?_⟩)
    simp only [ExprKind.bare, he.bare ha, he'.bare hi]

theorem suffixable_member {a : Expr} (ha : a.Written) (h : Suffixable ts a.kind) (field : String) :
    Suffixable (ts ++ [.punct .dot, .identifier field]) (.member a field none) := by
  refine h.more rfl fun n e h' ks he => ?_
  cases n with
  | zero =>
    rw [suffix]
    exact .exhausted
  | succ n =>
    rw [suffix]
    refine .kind_bind (.advance_bind fun _ => .expectName_bind fun _ => .pure ⟨_, rfl, ?_⟩)
    simp only [ExprKind.bare, he.bare ha]

theorem suffixable_pointerMember {a : Expr} (ha : a.Written) (h : Suffixable ts a.kind)
    (field : String) :
    Suffixable (ts ++ [.punct .arrow, .identifier field]) (.pointerMember a field none) := by
  refine h.more rfl fun n e h' ks he => ?_
  cases n with
  | zero =>
    rw [suffix]
    exact .exhausted
  | succ n =>
    rw [suffix]
    refine .kind_bind (.advance_bind fun _ => .expectName_bind fun _ => .pure ⟨_, rfl, ?_⟩)
    simp only [ExprKind.bare, he.bare ha]

theorem suffixable_step {a : Expr} (ha : a.Written) (h : Suffixable ts a.kind) (decrement : Bool) :
    Suffixable (ts ++ [.punct (stepPunct decrement)]) (.step a decrement true) := by
  refine h.more (by cases decrement <;> rfl) fun n e h' ks he => ?_
  cases n with
  | zero =>
    rw [suffix]
    exact .exhausted
  | succ n =>
    have hmade (d : Bool) : (ExprKind.step e d true).bare = (ExprKind.step a d true).bare := by
      simp only [ExprKind.bare, he.bare ha]
    rw [suffix]
    cases decrement with
    | true => exact .kind_bind (.advance_bind fun _ => .pure ⟨_, rfl, hmade true⟩)
    | false => exact .kind_bind (.advance_bind fun _ => .pure ⟨_, rfl, hmade false⟩)

theorem listTokens_cons (target : Nat) (e e' : Expr) (es : List Expr) :
    listTokens target (e :: e' :: es) =
      e.tokens target 1 ++ .punct .comma :: listTokens target (e' :: es) := rfl

/-- Items with commas between them, each as it is. -/
theorem separated_items (target n : Nat) {h : TokenKind} (ks : List TokenKind) (hgrip : grip h ≤ 0) :
    ∀ es : List Expr, es ≠ [] → (∀ e ∈ es, e.Written ∧ Whole 1 assignment (e.tokens target 1) e.kind) →
      ∀ acc : Array Expr, Rounds (fun acc => do
        let a ← assignment n
        return (acc.push a, ← accept .comma)) acc (listTokens target es ++ h :: ks) (h :: ks)
          fun r => ∃ as, r.toList = acc.toList ++ as ∧ bareList as = bareList es
  | [], hne, _, _ => absurd rfl hne
  | [e], _, hes, acc => by
    obtain ⟨he, hread⟩ := hes e (List.mem_singleton_self e)
    refine .done ((hread n h ks (Nat.le_succ_of_le hgrip)).bind fun a ha => ?_)
    refine .refuse_bind (ne_of_grip (Nat.lt_succ_of_le hgrip)) (.pure ⟨rfl, [a], Array.toList_push, ?_⟩)
    simp only [bareList, ha.bare he]
  | e :: e' :: es, _, hes, acc => by
    obtain ⟨⟨he, hread⟩, hes⟩ := List.forall_mem_cons.mp hes
    have hrest := separated_items target n ks hgrip (e' :: es) (List.cons_ne_nil _ _) hes
    obtain ⟨t, us, heq, -⟩ := opens_list target (hes e' (List.mem_cons_self ..)).1 es
    rw [listTokens_cons, List.append_assoc, List.cons_append, heq]
    rw [heq] at hrest
    refine .more (P := fun r => ∃ a, r = acc.push a ∧ a.bare = e.bare)
      ((hread n (.punct .comma) _ (Nat.le_refl 1)).bind fun a ha => .accept_bind
        (.pure ⟨rfl, a, rfl, ha.bare he⟩)) ?_
    rintro _ ⟨a, rfl, ha⟩ limit
    refine (hrest (acc.push a) limit).mono ?_
    rintro r ⟨as, hr, has⟩
    refine ⟨a :: as, ?_, ?_⟩
    · rw [hr, Array.toList_push, List.append_assoc, List.singleton_append]
    · rw [bareList, has, ha]
      rfl

theorem suffixable_call {target : Nat} {f : Expr} {args : List Expr} (hf : f.Written)
    (h : Suffixable ts f.kind)
    (hargs : ∀ e ∈ args, e.Written ∧ Whole 1 assignment (e.tokens target 1) e.kind) :
    Suffixable (ts ++ enclosed (listTokens target args)) (.call f args) := by
  refine h.more rfl fun n e h' ks he => ?_
  cases n with
  | zero =>
    rw [suffix]
    exact .exhausted
  | succ n =>
    rw [List.cons_append, List.append_assoc, suffix]
    have hread : Follows (do
        if ← atPunct .rParen then return [] else separated (assignment n))
        (listTokens target args ++ .punct .rParen :: h' :: ks) (.punct .rParen :: h' :: ks)
        fun as => bareList as = bareList args := by
      cases args with
      | nil => exact .atKind_bind (.pure rfl)
      | cons a args =>
        have hitems := separated_items (h := .punct .rParen) target n (h' :: ks) (Nat.le_refl 0) (a :: args)
          (List.cons_ne_nil _ _) hargs #[]
        obtain ⟨t, us, heq, ht, -⟩ := opens_list target (hargs a (List.mem_cons_self ..)).1 args
        have hclose : (t == .punct .rParen) = false := by
          rw [beq_eq_false_iff_ne]
          rintro rfl
          cases ht
        rw [heq] at hitems ⊢
        refine .atKind_bind ?_
        rw [hclose]
        refine hitems.iterate.bind fun r ⟨as, hr, has⟩ => .pure ?_
        rw [hr]
        exact has
    obtain ⟨t, rest, heq⟩ : ∃ t rest, listTokens target args ++ .punct .rParen :: h' :: ks = t :: rest := by
      cases listTokens target args <;> exact ⟨_, _, rfl⟩
    rw [List.singleton_append, heq]
    rw [heq] at hread
    refine .kind_bind (.advance_bind fun _ => hread.bind fun as has => .expect_bind fun _ =>
      .pure ⟨_, rfl, ?_⟩)
    simp only [ExprKind.bare, he.bare hf, has]

theorem operand_binary {op : BinaryOp} {l r : Expr} (hl : l.Written) (hr : r.Written)
    (hleft : Operand (2 + op.precedence) ts l.kind) (hopens : Begins opens us)
    (hright : Operand (3 + op.precedence) us r.kind) :
    Operand (2 + op.precedence) (ts ++ .punct op.punct :: us) (.binary op l r) := by
  have hprecedence : op.precedence ≤ 10 := by cases op <;> decide
  have hgripped := grip_punct op
  intro n least h ks ks' Q hleast hgrip hmost hk
  rw [List.append_assoc, List.cons_append]
  refine hleft n least (.punct op.punct) _ _ _ hleast (by omega) (by omega) fun l' hl' => ?_
  refine .more (P := Like (.binary op l r)) (.kind_bind ?_) hk
  have hright' : Operand (op.precedence + 1 + 2) us r.kind := by
    rwa [show op.precedence + 1 + 2 = 3 + op.precedence by omega]
  have hread := hright'.whole (by omega) n h ks (by omega)
  obtain ⟨t, us, rfl, -⟩ := hopens
  rw [binaryAt?_punct (by omega)]
  refine .link_bind (.advance_bind fun _ => hread.bind fun r' hr' => .pure ⟨rfl, .mk ?_⟩)
  simp only [ExprKind.bare, hl'.bare hl, hr'.bare hr]

theorem conditional_conditional {vs : List TokenKind} {c y n : Expr} (hc : c.Written) (hy : y.Written)
    (hn : n.Written) (hcond : Operand 3 ts c.kind) (hyesOpens : Begins opens us)
    (hyes : Whole 0 expression us y.kind) (hnoOpens : Begins opens vs)
    (hno : Whole 2 conditional vs n.kind) :
    Whole 2 conditional (ts ++ .punct .question :: (us ++ .punct .colon :: vs))
      (.conditional c y n) := by
  intro m h ks hgrip
  rw [List.append_assoc, List.cons_append, List.append_assoc, List.cons_append]
  cases m with
  | zero =>
    rw [conditional]
    exact .exhausted
  | succ m =>
    have hreadCond := hcond.whole (by decide) m (.punct .question)
      (us ++ .punct .colon :: (vs ++ h :: ks)) (Nat.le_refl 3)
    have hreadYes := hyes m (.punct .colon) (vs ++ h :: ks) (Nat.le_refl 0)
    have hreadNo := hno m h ks hgrip
    obtain ⟨t, us, rfl, -⟩ := hyesOpens
    obtain ⟨t', vs, rfl, -⟩ := hnoOpens
    rw [conditional]
    refine hreadCond.bind fun c' hc' => .accept_bind (hreadYes.nested.bind fun y' hy' =>
      .expect_bind fun _ => hreadNo.nested.bind fun n' hn' => .pure (.mk ?_))
    simp only [ExprKind.bare, hc'.bare hc, hy'.bare hy, hn'.bare hn]

theorem assignment_assign {op : Option BinaryOp} {p v : Expr} (hp : p.Written) (hv : v.Written)
    (hop : ∀ o ∈ op, o.assignPunct?.isSome) (hplace : Whole 2 conditional ts p.kind)
    (hopens : Begins opens us) (hvalue : Whole 1 assignment us v.kind) :
    Whole 1 assignment (ts ++ .punct (assignPunct op) :: us) (.assign op p v) := by
  intro n h ks hgrip
  rw [List.append_assoc, List.cons_append]
  cases n with
  | zero =>
    rw [assignment]
    exact .exhausted
  | succ n =>
    have hreadPlace := hplace n (.punct (assignPunct op)) (us ++ h :: ks) (grip_assignPunct op).le
    have hreadValue := hvalue n h ks hgrip
    obtain ⟨t, us, rfl, -⟩ := hopens
    rw [assignment]
    refine hreadPlace.bind fun p' hp' => .kind_bind ?_
    rw [assignmentOp?_assignPunct hop]
    refine .advance_bind fun _ => hreadValue.nested.bind fun v' hv' => .pure (.mk ?_)
    simp only [ExprKind.bare, hp'.bare hp, hv'.bare hv]

theorem expression_comma {target : Nat} {items : List Expr} (hlength : 2 ≤ items.length)
    (hitems : ∀ e ∈ items, e.Written ∧ Whole 1 assignment (e.tokens target 1) e.kind) :
    Whole 0 expression (listTokens target items) (.comma items) := by
  intro n h ks hgrip
  cases n with
  | zero =>
    rw [expression]
    exact .exhausted
  | succ n =>
    match items, hlength, hitems with
    | e :: e' :: es, _, hitems =>
      obtain ⟨⟨he, hread⟩, hes⟩ := List.forall_mem_cons.mp hitems
      have hrest := separated_items target n ks hgrip (e' :: es) (List.cons_ne_nil _ _) hes #[]
      obtain ⟨t, us, heq, -⟩ := opens_list target (hes e' (List.mem_cons_self ..)).1 es
      rw [listTokens_cons, List.append_assoc, List.cons_append, heq]
      rw [heq] at hrest
      rw [expression]
      refine (hread n (.punct .comma) _ (Nat.le_refl 1)).bind fun a ha => .accept_bind ?_
      refine Follows.bind (P := fun as => bareList as = bareList (e' :: es))
        (hrest.iterate.bind fun r ⟨as, hr, has⟩ => .pure ?_) fun as has =>
          .spanFrom_bind fun _ => .pure (.mk ?_)
      · rw [hr]
        exact has
      · simp only [ExprKind.bare, bareList, ha.bare he, has]

end Forms

/-! All of them. -/

theorem level_le (kind : ExprKind) : kind.level ≤ 15 := by
  unfold ExprKind.level
  split <;> first | decide | skip
  rename_i op _ _
  cases op <;> decide

section Whole

variable {target : Nat}

mutual

theorem takes_expr (hleast : 2 ≤ target) (hmost : target ≤ 15) (least : Nat) (hle : least ≤ 15) :
    ∀ e : Expr, e.Written → Takes least (e.tokens target least) e.kind
  | ⟨kind, span, ty⟩, he => by
    have hwritten : kind.Written := (Expr.written_iff.mp he).1
    have hkind := takes_kind hleast hmost kind hwritten
    rw [Expr.tokens]
    split
    · have henclosed := takes_enclosed (hkind.down (level_le kind) (Nat.zero_le _))
        (opens_kind target kind hwritten)
      exact henclosed.down (Nat.le_refl 15) hle
    · exact hkind.down (level_le kind) (by omega)

theorem takes_kind (hleast : 2 ≤ target) (hmost : target ≤ 15) :
    ∀ kind : ExprKind, kind.Written → Takes kind.level (kind.tokens target) kind
  | .integer _, _ | .character _, _ | .name _, _ => takes_leaf rfl
  | .string text, _ => takes_string text
  | .binary op l r, h => by
    have hprecedence : 1 ≤ op.precedence ∧ op.precedence ≤ 10 := by cases op <;> decide
    obtain ⟨hl, hr⟩ := h.2
    exact (takes_iff_operand (by show 3 ≤ 2 + _; omega) (by show 2 + _ ≤ 12; omega)).mpr
      (operand_binary hl hr
        (operand_of_takes (by omega) (by omega) (takes_expr hleast hmost _ (by omega) l hl))
        (opens_expr target _ r hr)
        (operand_of_takes (by omega) (by omega) (takes_expr hleast hmost _ (by omega) r hr)))
  | .unary op e, h =>
    takes_leading (.unary op) (by cases op <;> rfl) h.2
      (takes_expr hleast hmost 13 (by decide) e h.2)
  | .assign _ p v, h => by
    obtain ⟨hp, hv⟩ := h.2
    have hplace : Takes 2 (p.tokens target target) p.kind :=
      (takes_expr hleast hmost target hmost p hp).down hmost hleast
    exact assignment_assign hp hv h.1 hplace (opens_expr target 1 v hv)
      (takes_expr hleast hmost 1 (by decide) v hv)
  | .conditional c y n, h => by
    obtain ⟨hc, hy, hn⟩ := h.2
    exact conditional_conditional hc hy hn (takes_expr hleast hmost 3 (by decide) c hc)
      (opens_expr target 0 y hy) (takes_expr hleast hmost 0 (by decide) y hy)
      (opens_expr target 2 n hn) (takes_expr hleast hmost 2 (by decide) n hn)
  | .call f args, h => by
    obtain ⟨hf, hargs⟩ := h.2
    exact suffixable_call hf (takes_expr hleast hmost 14 (by decide) f hf)
      (takes_list hleast hmost args hargs)
  | .index a i, h => by
    obtain ⟨ha, hi⟩ := h.2
    exact suffixable_index ha hi (takes_expr hleast hmost 14 (by decide) a ha)
      (opens_expr target 0 i hi) (takes_expr hleast hmost 0 (by decide) i hi)
  | .member a field resolved, h => by
    obtain rfl : resolved = none := h.1.2
    exact suffixable_member h.2 (takes_expr hleast hmost 14 (by decide) a h.2) field
  | .pointerMember a field resolved, h => by
    obtain rfl : resolved = none := h.1.2
    exact suffixable_pointerMember h.2 (takes_expr hleast hmost 14 (by decide) a h.2) field
  | .query query e, h =>
    takes_query query h.2 (opens_expr target 13 e h.2) (takes_expr hleast hmost 13 (by decide) e h.2)
  | .addressOf e, h | .deref e, h =>
    takes_leading _ rfl h.2 (takes_expr hleast hmost 13 (by decide) e h.2)
  | .step e decrement true, h =>
    suffixable_step h.2 (takes_expr hleast hmost 14 (by decide) e h.2) decrement
  | .step e decrement false, h =>
    takes_leading (.step · decrement false) (by cases decrement <;> rfl) h.2
      (takes_expr hleast hmost 13 (by decide) e h.2)
  | .comma items, h => expression_comma h.1 (takes_list hleast hmost items h.2)
  | .cast .., h | .typeQuery .., h | .block _, h => h.1.elim

theorem takes_list (hleast : 2 ≤ target) (hmost : target ≤ 15) :
    ∀ es : List Expr, Demands.written.exprs es →
      ∀ e ∈ es, e.Written ∧ Whole 1 assignment (e.tokens target 1) e.kind
  | [], _ => nofun
  | e :: es, h => List.forall_mem_cons.mpr
    ⟨⟨h.1, takes_expr hleast hmost 1 (by decide) e h.1⟩, takes_list hleast hmost es h.2⟩

end

end Whole

end MiniC.Syntax.Parser

namespace MiniC.Syntax

open MiniC.Syntax.Parser

/-- The expression at the beginning of a text, and the state behind it. -/
def Expr.parse (source : String) : Except ParseError (Expr × ParseState) :=
  match ParseState.start source with
  | .error e => .error e
  | .ok s =>
    match expression allowance s with
    | .ok e s' => .ok (e, s')
    | .error e _ => .error e

theorem start_of_spell {ks : List TokenKind} (h : ∀ k ∈ ks, k.Spellable) :
    ∃ s, ParseState.start (String.ofList (spell ks)) = .ok s ∧ s.Faces (ks ++ [.eof]) := by
  obtain ⟨ts, hsteps, hkinds⟩ := Lexer.stepsFrom_spell h 0
  unfold ParseState.start Lexer.Cursor.ofSource Lexer.Cursor.next Lexer.steps
  rw [String.toList_ofList, hsteps]
  cases ts with
  | nil => exact absurd hkinds.symm (List.append_ne_nil_of_right_ne_nil _ (List.cons_ne_nil _ _))
  | cons t ts => exact ⟨_, rfl, ts, rfl, hkinds.symm⟩

/-- The levels of the place left of an assignment go from what is read there to what C asks for. -/
theorem parse_text {target : Nat} (hleast : 2 ≤ target) (hmost : target ≤ 13) {e : Expr}
    (he : e.Written) :
    (∃ span, Expr.parse (e.text target) = .error (.grammar .nesting span)) ∨
      ∃ e' s, Expr.parse (e.text target) = .ok (e', s) ∧ s.current.kind = .eof ∧
        s.cursor.pending = [] ∧ e'.bare = e.bare := by
  obtain ⟨s, hs, hfaces⟩ := start_of_spell (spellable_expr target 0 e he)
  have hread : Follows (expression allowance) (e.tokens target 0 ++ [.eof]) [.eof] (Like e.kind) :=
    takes_expr hleast (by omega) 0 (by decide) e he allowance .eof [] (Nat.le_refl 0)
  have hahead := reads_expression sound_anything allowance (enough_allowance (by decide)) s
    (ParseState.ahead_start (tokens_anything _) hs)
  have hreached := hread s hfaces
  unfold Expr.parse Expr.text
  rw [hs]
  simp only
  cases hx : expression allowance s with
  | ok e' s' =>
    rw [hx] at hreached
    obtain ⟨⟨ts, hpending, hkinds⟩, hlike⟩ := hreached
    obtain ⟨hcurrent, hts⟩ := List.cons.inj hkinds
    rw [List.map_eq_nil_iff.mp hts.symm] at hpending
    exact .inr ⟨e', s', rfl, hcurrent.symm, hpending, hlike.bare he⟩
  | error x s' =>
    rw [hx] at hreached hahead
    obtain ⟨span, rfl | rfl⟩ := hreached
    · exact .inl ⟨span, rfl⟩
    · exact absurd rfl hahead.2

/-- An assignment of a product or of what a call gives. -/
def assignedChoice : Expr :=
  have bare (kind : ExprKind) : Expr := .untyped kind Span.nowhere
  have a := bare (.name "a")
  have sum := bare (.binary .add a (bare (.unary .neg a)))
  bare (.assign (some .shl) (bare (.deref a)) (bare (.conditional (bare (.integer 3))
    (bare (.binary .mul sum a)) (bare (.call a [bare (.comma [a, bare (.string "\x01")])])))))

theorem parse_assignedChoice :
    assignedChoice.text 2 = "* a <<= 3 ? ( a + - a ) * a : a ( ( a , \"\\001\" ) )" ∧
      ∃ e s, Expr.parse (assignedChoice.text 2) = .ok (e, s) ∧ s.current.kind = .eof ∧
        e.bare = assignedChoice.bare := by
  have hname : IsName "a" := ⟨by decide, 'a', [], rfl, by decide, nofun⟩
  have hwritten : assignedChoice.Written := by
    simp [Expr.Written, assignedChoice, Expr.untyped, Demands.expr, Demands.exprKind, Demands.exprs,
      Demands.written, ExprKind.Plain, hname, BinaryOp.assignPunct?]
  have hok : (Expr.parse (assignedChoice.text 2)).toOption.isSome := by decide +kernel
  refine ⟨by decide +kernel, ?_⟩
  rcases parse_text (Nat.le_refl 2) (by decide) hwritten with
    ⟨span, herror⟩ | ⟨e, s, hparse, hend, -, hbare⟩
  · rw [herror] at hok
    cases hok
  · exact ⟨e, s, hparse, hend, hbare⟩

end MiniC.Syntax
