import MiniC.Proofs.Syntax.Reading
/-!
The constructs of the grammar. Main statements, one for each construct: it reads as far as its place
in the grammar says, its calls nest no deeper than the levels that are left allow, and an expression is
at most quadratically higher than these levels.
-/
namespace MiniC.Syntax.Parser

variable {D : Demands} {r v n : Nat}

/-- At `r` levels from the bottom, `n` calls may nest in a construct that takes `k` of them at most
before it goes down a level. -/
structure Enough (k r n : Nat) : Prop where
  levels : r ≤ maxNesting
  calls : 32 * r + k ≤ n

theorem Enough.call {j k : Nat} (h : Enough k r (n + 1)) (hj : j < k) : Enough j r n := by
  have hcalls := h.calls
  exact ⟨h.levels, by omega⟩

theorem Enough.below {j k : Nat} (h : Enough k r (n + 1)) (hj : j < 32) {r' : Nat}
    (hr : r = r' + 1) : Enough j r' n := by
  obtain ⟨hlevels, hcalls⟩ := h
  exact ⟨by omega, by omega⟩

theorem Enough.mono {k r' : Nat} (h : Enough k r n) (hr : r' ≤ r) : Enough k r' n := by
  obtain ⟨hlevels, hcalls⟩ := h
  exact ⟨by omega, by omega⟩

theorem Enough.absurd {k : Nat} {P : Prop} (h : Enough (k + 1) r 0) : P := by
  have hcalls := h.calls
  omega

/-- A chain of binary operators on operands that are `r * (r + 2)` high. -/
def chainHeight (r : Nat) : Nat := r * (r + 3)

/-- A good expression that is not too high. -/
def UpTo (D : Demands) (h : Nat) (e : Expr) : Prop := D.expr e ∧ e.height ≤ h

theorem chainHeight_le {r r' : Nat} (h : r ≤ r') : chainHeight r ≤ chainHeight r' :=
  Nat.mul_le_mul h (Nat.add_le_add_right h 3)

theorem le_maxHeight (hr : r ≤ maxNesting) : chainHeight r + 3 ≤ maxHeight :=
  Nat.add_le_add_right (chainHeight_le hr) 3

theorem UpTo.mono {h h' : Nat} {e : Expr} (he : UpTo D h e) (hle : h ≤ h') : UpTo D h' e :=
  ⟨he.1, Nat.le_trans he.2 hle⟩

/-- What is made of good parts, and not of text alone. -/
theorem UpTo.make (hD : D.Sound) {kind : ExprKind} {span : Span} {h : Nat} (hspan : D.place span)
    (hkind : D.exprKind kind) (hheight : kind.height ≤ h) (hmax : h ≤ maxHeight)
    (htext : ∀ text, kind ≠ .string text) : UpTo D h (.untyped kind span) :=
  ⟨D.expr_iff.mpr ⟨hspan, hD.node hspan (Nat.le_trans hheight hmax) fun text heq =>
    absurd heq (htext text), hkind⟩, hheight⟩

theorem UpTo.moved (hD : D.Sound) {e : Expr} {h : Nat} {span : Span} (he : UpTo D h e)
    (hspan : D.place span) : UpTo D h { e with span } := by
  obtain ⟨-, hnode, hkind⟩ := D.expr_iff.mp he.1
  exact ⟨D.expr_iff.mpr ⟨hspan, hD.moved hnode hspan, hkind⟩, e.height_eq.symm.trans_le he.2⟩

/-! Specifiers and declarators. -/

theorem typeKind_of_intKind? {words : List Keyword} {signed : Option Bool} {kind : TypeKind}
    (h : intKind? words signed = some kind) : D.typeKind kind := by
  unfold intKind? at h
  simp only at h
  split at h
  case h_3 => split at h <;> cases h; trivial
  all_goals cases h <;> trivial

/-- The struct among the specifiers, if there is one. -/
def goodSpecifiers (D : Demands) (sp : Specifiers) : Prop := ∀ spec ∈ sp.struct, D.spec spec

theorem reads_addSpecifier {sp : Specifiers} (hsp : goodSpecifiers D sp) :
    Reads D r (v + 1) sp.add (fun x => cond x.2 v (v + 1)) fun x => goodSpecifiers D x.1 := by
  refine .kind_bind fun k => ?_
  split
  iterate 4 exact .advance_bind nofun fun _ _ _ => .pure hsp (Nat.le_refl _)
  · split
    · have hword (k : Keyword) : ReadsAt D (.keyword k) r (v + 1) (sp.addWord k) (fun _ => v)
          (goodSpecifiers D) :=
        .guard nofun (.advance_bind nofun fun _ _ _ => .pure hsp (Nat.le_refl _))
      exact (hword _).bind fun _ h => .pure h (Nat.le_refl _)
    · exact .any (.pure hsp (Nat.le_refl _))
  · exact .any (.unsupported _)
  · exact .any (.pure hsp (Nat.le_refl _))

theorem reads_finish (hD : D.Sound) {sp : Specifiers} {start : Span}
    (hsp : goodSpecifiers D sp) (hstart : D.place start) :
    Reads D r v (sp.finish start) (fun _ => v) D.type := by
  refine (Reads.spanFrom hD hstart).bind fun span hspan => ?_
  split
  · rename_i spec heq
    exact .pure ⟨hspan, hsp spec heq⟩ (Nat.le_refl _)
  · split
    · rename_i kind heq
      exact .pure ⟨hspan, typeKind_of_intKind? heq⟩ (Nat.le_refl _)
    · exact .failAt hspan nofun

theorem reads_qualifiers : Reads D r v qualifiers (fun _ => v) fun _ => True := by
  refine .iterate (fun q v _ => .kind_bind fun k => ?_) trivial
  split
  iterate 2 exact .advance_bind nofun fun _ _ _ => .pure trivial (Nat.le_refl _)
  · exact .any (.pure trivial (Nat.le_refl _))

theorem reads_pointers (hD : D.Sound) {base : TypeExpr} (hbase : D.type base) :
    Reads D r v (pointers base) (fun _ => v) D.type := by
  refine .iterate (I := D.type) (fun ty v hty => .atPunct_bind ?_ ?_) hbase
  · refine .link_bind fun r' _ => .advance_bind nofun fun star hstar _ => ?_
    refine reads_qualifiers.bind fun q _ => .pure ?_ (Nat.le_refl _)
    exact D.type_iff.mpr ⟨hD.cover (D.type_iff.mp hty).1 (.inl hstar.1), hty⟩
  · exact .pure hty (Nat.le_refl _)

theorem reads_arraySizeOf {e : Expr} (he : D.expr e) :
    Reads D r v (arraySizeOf e) (fun _ => v) fun _ => True := by
  have hspan : D.place e.span := (D.expr_iff.mp he).1
  unfold arraySizeOf
  split
  · exact .ite (fun _ => .failAt hspan (by simp)) fun _ => .pure trivial (Nat.le_refl _)
  · exact .failAt hspan (by simp)

/-- A declarator with a good name and type. -/
def goodDeclarator (D : Demands) (d : Declarator) : Prop :=
  D.name d.name ∧ D.place d.span ∧ D.type d.ty

theorem type_wrapArrays {element : TypeExpr} {dimensions : List (Option Nat × Span)}
    (helement : D.type element) (hdimensions : ∀ x ∈ dimensions, D.place x.2) :
    D.type (wrapArrays element dimensions) := by
  induction dimensions with
  | nil => exact helement
  | cons x xs ih =>
    obtain ⟨hx, hxs⟩ := List.forall_mem_cons.mp hdimensions
    exact D.type_iff.mpr ⟨hx, ih hxs⟩

/-! Leaves. -/

/-- The strings that have been read make the text, and what stands behind them is still to be read. -/
def Joining (D : Demands) (text : String) (s : ParseState) : Prop :=
  ∃ steps before parts, D.read steps ∧
    steps = before ++ (parts.map stringStep ++ .ok s.current :: s.cursor.pending) ∧
    text = String.join (parts.map (·.1)) ∧ (parts = [] → ∃ part, s.current.kind = .string part)

theorem joining_empty {s : ParseState} {part : String} (hs : s.Sound D)
    (hkind : s.current.kind = .string part) : Joining D "" s := by
  have hne : s.cursor.pending ≠ [] := fun h => by cases hkind.symm.trans (hs.ended h)
  obtain ⟨steps, before, hsteps, heq⟩ := hs.rest.resolve_left hne
  exact ⟨steps, before, [], hsteps, heq, rfl, fun _ => ⟨part, hkind⟩⟩

theorem ends_part {s : ParseState} {text part : String} (hs : s.Ahead D r v)
    (hkind : s.current.kind = .string part) (hjoining : Joining D text s) :
    Ends (fun _ s' => s'.unread < s.unread ∧ s'.Ahead D r v ∧ Joining D (text ++ part) s') D.fault
      (advance s) := by
  have hends := ends_advance hs
  have hne : s.cursor.pending ≠ [] := fun h => by cases hkind.symm.trans (hs.sound.ended h)
  obtain ⟨steps, before, parts, hsteps, heq, htext, -⟩ := hjoining
  obtain ⟨cursor, current, previous, nextStruct, depth, depth_le⟩ := s
  obtain ⟨pending, stop⟩ := cursor
  cases pending with
  | nil => exact absurd rfl hne
  | cons step rest =>
    cases step with
    | error e => exact hends
    | ok t =>
      obtain ⟨-, hs', hless⟩ := hends
      obtain ⟨kind, span⟩ := current
      obtain rfl : kind = .string part := hkind
      refine ⟨hless nofun, hs', steps, before, parts ++ [(part, span)], hsteps, ?_, ?_, ?_⟩
      · rw [heq, List.map_append, List.append_assoc]
        rfl
      · rw [htext, List.map_append, String.join_append]
        rfl
      · exact fun h => absurd h (List.append_ne_nil_of_right_ne_nil _ (List.cons_ne_nil _ _))

/-- Strings are read as long as there are any. -/
theorem reads_stringLiteral (hD : D.Sound) {h : Nat} (hmax : 1 ≤ h) {part : String} :
    ReadsAt D (.string part) r v stringLiteral (fun _ => v) (UpTo D h) := by
  have hspan : Meets D (fun s => s.Ahead D r v ∧ s.current.kind = .string part) Parser.span
      fun start s => (s.Ahead D r v ∧ D.place start) ∧ s.current.kind = .string part :=
    fun s hs => ⟨⟨hs.1, hs.1.sound.current.1⟩, hs.2⟩
  refine hspan.bind fun start => ?_
  refine Meets.bind (?_ : Meets D _ _ fun text s => s.Ahead D r v ∧ D.place start ∧ D.joins text)
    fun text s hs => ?_
  · rintro s ⟨⟨hs, hstart⟩, hkind⟩
    refine ends_iterate (I := fun text s => s.Ahead D r v ∧ Joining D text s) ?_
      ⟨hs, joining_empty hs.sound hkind⟩
    rintro text s ⟨hs, hjoining⟩
    refine (Meets.kind_bind fun k => ?_ : Meets D (fun s' => s' = s) _ _) s rfl
    split
    · rename_i part
      rintro s' ⟨rfl, hkind⟩
      have hadvance : Meets D (fun s => s = s') advance fun _ s =>
          s.unread < s'.unread ∧ s.Ahead D r v ∧ Joining D (text ++ part) s := by
        rintro _ rfl
        exact ends_part hs hkind hjoining
      refine Meets.bind hadvance (fun _ s hs => ?_) s' rfl
      exact ⟨fun _ => hs, fun h => (by cases h)⟩
    · rename_i hother
      rintro s' ⟨rfl, hkind⟩
      obtain ⟨steps, before, parts, hsteps, heq, htext, hfirst⟩ := hjoining
      have hnot (part : String) : s'.current.kind ≠ .string part := fun h => hother part (hkind.symm.trans h)
      refine ⟨fun h => (by cases h), fun _ =>
        ⟨hs, hstart, steps, parts, hsteps, ⟨?_, before, _, heq, ?_⟩, htext⟩⟩
      · exact fun hnil => (hfirst hnil).elim hnot
      · rintro part rest hafter
        have hcurrent := (Except.ok.inj (List.cons.inj hafter).1)
        exact hnot part.1 (congrArg Token.kind hcurrent)
  · obtain ⟨hs, hstart, hjoins⟩ := hs
    refine Reads.spanned hD hstart (fun span hspan => ?_) s hs
    refine ⟨D.expr_iff.mpr ⟨hspan, hD.node hspan ?_ fun t heq => ?_, trivial⟩, hmax⟩
    · exact Nat.le_trans (Nat.le_add_left 1 2) (Nat.le_add_left 3 _)
    · cases heq
      exact hjoins

theorem reads_leaf (hD : D.Sound) {h : Nat} (hmax : 1 ≤ h) {found : TokenKind} {kind : ExprKind}
    (hleaf : leafKind? found = some kind) : Reads D r v (leaf kind) (fun _ => v) (UpTo D h) := by
  refine Reads.advance.bind fun t ht => .pure ?_ (Nat.le_refl _)
  have hone : UpTo D 1 (.untyped kind t.span) := by
    unfold leafKind? at hleaf
    split at hleaf <;> cases hleaf <;>
      exact .make hD ht.1 trivial (Nat.le_refl 1) (Nat.le_add_left 1 _) nofun
  exact hone.mono hmax

theorem reads_jumpStatement (hD : D.Sound) {kind : StmtKind} (hkind : D.stmtKind kind) :
    Reads D r (v + 1) (jumpStatement kind) (fun _ => v) D.stmt := by
  refine Reads.span.bind fun start hstart => Reads.advance.bind fun _ _ => ?_
  exact (Reads.expect .semi).bind fun _ _ => .spanned hD hstart fun span hspan => ⟨hspan, hkind⟩

/-! Heights. -/

/-- The height of an operand of a chain of binary operators. -/
def unaryHeight (r : Nat) : Nat := r * (r + 2)

theorem chainHeight_eq (r : Nat) : chainHeight r = unaryHeight r + r := rfl

theorem unaryHeight_succ (r : Nat) : unaryHeight (r + 1) = chainHeight r + r + 3 := by
  simp only [unaryHeight, chainHeight, Nat.add_mul, Nat.mul_add]
  omega

theorem chainHeight_succ (r : Nat) : chainHeight (r + 1) = chainHeight r + 2 * r + 4 := by
  rw [chainHeight_eq (r + 1), unaryHeight_succ]
  omega

theorem exprKind_leadingOp? {k : TokenKind} {wrap : Expr → ExprKind} (h : leadingOp? k = some wrap)
    {e : Expr} (he : D.expr e) : D.exprKind (wrap e) ∧ (wrap e).height = e.height + 1 ∧
      ∀ text, wrap e ≠ .string text := by
  unfold leadingOp? at h
  split at h <;> cases h <;> exact ⟨he, rfl, nofun⟩

/-- A suffix of an expression at `r` levels from the bottom. -/
def goodSuffix (D : Demands) (r : Nat) (e : Expr) (kind : ExprKind) : Prop :=
  D.exprKind kind ∧ kind.height ≤ max e.height (chainHeight r + 3) + 1 ∧
    ∀ text, kind ≠ .string text

/-! The constructs. -/

mutual

theorem reads_specifiers (hD : D.Sound) : ∀ n {r v}, Enough 2 r n →
    Reads D r v (specifiers n) (fun _ => v) D.type
  | 0, _, _, hn => hn.absurd
  | n + 1, r, v, hn => by
    rw [specifiers]
    refine Reads.span.bind fun start hstart => (Reads.iterate (I := goodSpecifiers D)
      (fun sp v hsp => .ifKind (.any ?_) (reads_addSpecifier hsp)) ?_).bind
      fun sp hsp => reads_finish hD hsp hstart
    · refine .ite (fun _ => .fail nofun) fun _ => ?_
      refine (reads_structSpecifier hD n (hn.call (by decide))).bind fun spec hspec =>
        .pure (fun spec' h => ?_) (Nat.le_refl _)
      cases h
      exact hspec
    · exact fun _ h => nomatch h

theorem reads_structSpecifier (hD : D.Sound) : ∀ n {r v}, Enough 1 r n →
    Reads D r (v + 1) (structSpecifier n) (fun _ => v) D.spec
  | 0, _, _, hn => hn.absurd
  | n + 1, r, v, hn => by
    rw [structSpecifier]
    refine (Reads.expectKeyword .struct).bind fun start hstart => ?_
    refine Reads.part v (fun _ => True) (.kind_bind fun k => ?_) fun name _ => ?_
    · split
      · exact .any (Reads.advance.bind fun _ _ => .pure trivial (Nat.le_refl _))
      · exact .any (.pure trivial (Nat.le_refl _))
    refine Reads.part v D.members? (.ifPunct (.any ?_) ?_)
      fun members hmembers => ?_
    · exact (Reads.nested fun r' hr => reads_structBody hD n (hn.below (by decide) hr)).bind
        fun ms hms => .pure hms (Nat.le_refl _)
    · exact .ite (fun _ => .kind_bind fun _ => .any (.fail nofun)) fun _ =>
        .pure trivial (Nat.le_refl _)
    · exact Reads.freshStruct.bind fun id _ =>
        .spanned hD hstart.1 fun span hspan => ⟨hspan, hmembers⟩

theorem reads_structBody (hD : D.Sound) : ∀ n {r v}, Enough 3 r n →
    Reads D r v (structBody n) (fun _ => v) D.members
  | 0, _, _, hn => hn.absurd
  | n + 1, r, v, hn => by
    rw [structBody]
    have hmember {base : TypeExpr} (hbase : D.type base) (v : Nat) : Reads D r v (do
        let d ← declarator n base
        if ← atPunct .colon then unsupported "a bit-field"
        return StructMember.mk d.name d.ty d.span) (fun _ => v) D.member :=
      (Reads.loose fun v => reads_declarator hD n (hn.call (by decide)) hbase).bind fun d hd =>
        .atPunct_any fun _ => .guard nofun (.pure hd.2 (Nat.le_refl _))
    have hgroup (v : Nat) : Reads D r (v + 1) (do
        let base ← specifiers n
        let members ← separated (do
          let d ← declarator n base
          if ← atPunct .colon then unsupported "a bit-field"
          return StructMember.mk d.name d.ty d.span)
        let _ ← expect .semi
        return members) (fun _ => v) D.members :=
      (reads_specifiers hD n (hn.call (by decide))).bind fun base hbase =>
        (Reads.separated (hmember hbase)).bind fun ms hms => (Reads.expect .semi).bind fun _ _ =>
          .pure (D.members_iff.mpr hms) (Nat.le_refl _)
    refine (Reads.loose fun v => .expect .lBrace).bind fun _ _ =>
      (Reads.untilBrace hgroup).bind fun groups hgroups =>
        (Reads.loose fun v => .expect .rBrace).bind fun _ _ => .pure ?_ (Nat.le_refl _)
    refine D.members_iff.mpr fun m hm => ?_
    obtain ⟨ms, hms, hm⟩ := List.mem_flatten.mp hm
    exact D.members_iff.mp (hgroups ms hms) m hm

theorem reads_declarator (hD : D.Sound) : ∀ n {r v base}, Enough 2 r n → D.type base →
    Reads D r (v + 1) (declarator n base) (fun _ => v) (goodDeclarator D)
  | 0, _, _, _, hn, _ => hn.absurd
  | n + 1, r, v, base, hn, hbase => by
    rw [declarator]
    have hname {ty : TypeExpr} (hty : D.type ty) : Reads D r (v + 1) (do
        let (name, span) ← expectName "identifier in declarator"
        return ⟨name, span, ← arraySuffix n ty⟩) (fun _ => v) (goodDeclarator D) :=
      (Reads.expectName _).bind fun x hx => (reads_arraySuffix hD n (hn.call (by decide)) hty).bind
        fun ty hty => .pure ⟨hx.1, hx.2, hty⟩ (Nat.le_refl _)
    exact .chain ((reads_pointers hD hbase).bind fun ty hty => .atPunct_any fun _ =>
      .guard nofun (hname hty))

theorem reads_arraySuffix (hD : D.Sound) : ∀ n {r v element}, Enough 1 r n → D.type element →
    Reads D r v (arraySuffix n element) (fun _ => v) D.type
  | 0, _, _, _, hn, _ => hn.absurd
  | n + 1, r, v, element, hn, helement => by
    rw [arraySuffix]
    have hempty : ∀ x ∈ (#[] : Array (Option Nat × Span)), D.place x.2 :=
      fun x hx => absurd hx (Array.not_mem_empty x)
    refine (Reads.iterate (I := fun acc : Array (Option Nat × Span) => ∀ x ∈ acc, D.place x.2)
      (fun acc v hacc => .ifPunct ?_ (.pure hacc (Nat.le_refl _))) hempty).bind fun acc hacc =>
      .pure (type_wrapArrays helement fun x hx => hacc x (Array.mem_toList_iff.mp hx)) (Nat.le_refl _)
    refine .link_bind fun r' hr => .advance_bind nofun fun start hstart _ => ?_
    refine Reads.part v (fun _ => True) (.ifPunct ?_ ?_) fun size _ => ?_
    · exact .any (.pure trivial (Nat.le_refl _))
    · exact (reads_conditional hD n (hn.below (by decide) hr)).bind fun e he =>
        (reads_arraySizeOf he.1).bind fun _ _ => .pure trivial (Nat.le_refl _)
    · refine (Reads.loose fun v => .expect .rBracket).bind fun _ _ =>
        (Reads.spanFrom hD hstart.1).bind fun span hspan => .pure (fun x hx => ?_) (Nat.le_refl _)
      rcases Array.mem_push.mp hx with hx | rfl
      · exact hacc x hx
      · exact hspan

theorem reads_typeName (hD : D.Sound) : ∀ n {r v}, Enough 3 r n →
    Reads D r v (typeName n) (fun _ => v) D.type
  | 0, _, _, hn => hn.absurd
  | n + 1, r, v, hn => by
    rw [typeName]
    exact (reads_specifiers hD n (hn.call (by decide))).bind fun base hbase =>
      .chain ((reads_pointers hD hbase).bind fun ty hty =>
        reads_arraySuffix hD n (hn.call (by decide)) hty)

theorem reads_varDecls (hD : D.Sound) : ∀ n {r v first base start}, Enough 6 r n →
    goodDeclarator D first → D.type base → D.place start →
    Reads D r v (varDecls n first base start) (fun _ => v) D.declaration
  | 0, _, _, _, _, _, hn, _, _, _ => hn.absurd
  | n + 1, r, v, first, base, start, hn, hfirst, hbase, hstart => by
    rw [varDecls]
    have hempty : ∀ x ∈ (#[] : Array VarDecl), D.varDecl x :=
      fun x hx => absurd hx (Array.not_mem_empty x)
    refine (Reads.iterate
      (I := fun x : Array VarDecl × Declarator => (∀ d ∈ x.1, D.varDecl d) ∧ goodDeclarator D x.2)
      (fun x v hx => ?_) ⟨hempty, hfirst⟩).bind fun x hx => ?_
    · refine Reads.part (v + 1) D.initializer? (.ifAccepts ?_ ?_)
        fun init hinit => ?_
      · exact (reads_initializer hD n (hn.call (by decide))).bind fun i hi => .pure hi (Nat.le_refl _)
      · exact .pure trivial (Nat.le_refl _)
      have hpush : ∀ d ∈ x.1.push (VarDecl.mk x.2.name x.2.ty init x.2.span none), D.varDecl d := by
        intro d hd
        rcases Array.mem_push.mp hd with hd | rfl
        · exact hx.1 d hd
        · exact ⟨hx.2.1, hx.2.2.1, hx.2.2.2, hinit⟩
      refine .accept_bind ?_ (.pure ⟨hpush, hx.2⟩ (Nat.le_refl _))
      exact (Reads.loose fun v => reads_declarator hD n (hn.call (by decide)) hbase).bind
        fun d hd => .pure ⟨hpush, hd⟩ (Nat.le_refl _)
    · refine (Reads.loose fun v => .expect .semi).bind fun _ _ => .spanned hD hstart
        fun span hspan => ⟨hspan, D.varDecls_iff.mpr fun d hd => hx.1 d (Array.mem_toList_iff.mp hd)⟩

theorem reads_declaration (hD : D.Sound) : ∀ n {r v}, Enough 7 r n →
    Reads D r (v + 1) (declaration n) (fun _ => v) D.declaration
  | 0, _, _, hn => hn.absurd
  | n + 1, r, v, hn => by
    rw [declaration]
    refine Reads.span.bind fun start hstart => (reads_specifiers hD n (hn.call (by decide))).bind
      fun base hbase => .accept_bind ?_ ?_
    · refine (Reads.spanFrom hD hstart).bind fun span hspan => ?_
      split
      · rename_i spec heq
        have hkind : D.typeKind base.kind := (D.type_iff.mp hbase).2
        rw [heq] at hkind
        exact .pure ⟨hspan, hkind⟩ (Nat.le_refl _)
      · exact .failAt hspan nofun
    · exact (reads_declarator hD n (hn.call (by decide)) hbase).bind fun d hd =>
        .atPunct_any fun _ => .guard nofun
          (reads_varDecls hD n (hn.call (by decide)) hd hbase hstart)

theorem reads_initializer (hD : D.Sound) : ∀ n {r v}, Enough 5 r n →
    Reads D r v (initializer n) (fun _ => v) D.initializer
  | 0, _, _, hn => hn.absurd
  | n + 1, r, v, hn => by
    rw [initializer]
    refine .ifPunct (.any ?_) ?_
    · exact .nested fun r' hr => reads_initializerList hD n (hn.below (by decide) hr)
    · exact (reads_assignment hD n (hn.call (by decide))).bind fun e he => .pure he.1 (Nat.le_refl _)

theorem reads_initializerList (hD : D.Sound) : ∀ n {r v}, Enough 6 r n →
    Reads D r v (initializerList n) (fun _ => v) D.initializer
  | 0, _, _, hn => hn.absurd
  | n + 1, r, v, hn => by
    rw [initializerList]
    have hempty : ∀ x ∈ (#[] : Array Initializer), D.initializer x :=
      fun x hx => absurd hx (Array.not_mem_empty x)
    refine (Reads.loose fun v => .expect .lBrace).bind fun start hstart =>
      (Reads.iterate (I := fun acc : Array Initializer => ∀ i ∈ acc, D.initializer i)
        (fun acc v hacc => .ifPunct ?_ ?_) hempty).bind fun acc hacc =>
      (Reads.loose fun v => .expect .rBrace).bind fun _ _ => .spanned hD hstart.1
        fun span hspan => ⟨hspan, D.initializers_iff.mpr fun i hi => hacc i (Array.mem_toList_iff.mp hi)⟩
    · exact .any (.pure hacc (Nat.le_refl _))
    · refine .atPunct_any fun _ => .atPunct_any fun _ => .guard nofun ?_
      refine (reads_initializer hD n (hn.call (by decide))).bind fun i hi => ?_
      have hpush : ∀ j ∈ acc.push i, D.initializer j := by
        intro j hj
        rcases Array.mem_push.mp hj with hj | rfl
        · exact hacc j hj
        · exact hi
      exact .accept_bind (.pure hpush (Nat.le_refl _)) (.pure hpush (Nat.le_refl _))

theorem reads_statement (hD : D.Sound) : ∀ n {r v}, Enough 1 r n →
    Reads D r (v + 1) (statement n) (fun _ => v) D.stmt
  | 0, _, _, hn => hn.absurd
  | n + 1, r, v, hn => by
    rw [statement]
    exact .nested fun r' hr => reads_statementInner hD n (hn.below (by decide) hr)

theorem reads_statementInner (hD : D.Sound) : ∀ n {r v}, Enough 10 r n →
    Reads D r (v + 1) (statementInner n) (fun _ => v) D.stmt
  | 0, _, _, hn => hn.absurd
  | n + 1, r, v, hn => by
    rw [statementInner]
    refine Reads.span.bind fun start hstart => .kind_bind fun k => ?_
    split
    · refine .any ((reads_block hD n (hn.call (by decide))).bind fun b hb => .pure ?_ (Nat.le_refl _))
      cases b
      exact ⟨hb.1, hb⟩
    · exact .any (reads_ifStatement hD n (hn.call (by decide)))
    iterate 3 exact reads_loopStatement hD n (hn.call (by decide)) nofun
    iterate 2 exact .any (reads_jumpStatement hD trivial)
    · exact .advance_bind nofun fun _ _ _ =>
        (reads_expressionUnless hD n (hn.call (by decide))).bind fun value hvalue =>
          (Reads.loose fun v => .expect .semi).bind fun _ _ => .spanned hD hstart
            fun span hspan => ⟨hspan, hvalue⟩
    · exact .advance_bind nofun fun _ _ _ => .pure ⟨hstart, trivial⟩ (Nat.le_refl _)
    · exact .any (.unsupported _)
    · refine .any (.ite (fun _ => .failAt hstart nofun) fun _ => ?_)
      exact (reads_expression hD n (hn.call (by decide))).bind fun e he =>
        (Reads.expect .semi).bind fun _ _ => .spanned hD hstart fun span hspan => ⟨hspan, he.1⟩

theorem reads_block (hD : D.Sound) : ∀ n {r v}, Enough 8 r n →
    Reads D r (v + 1) (block n) (fun _ => v) D.block
  | 0, _, _, hn => hn.absurd
  | n + 1, r, v, hn => by
    rw [block]
    have hitem (v : Nat) : Reads D r (v + 1) (do
        if (← kind).startsDeclaration then return .declaration (← declaration n)
        else return .statement (← statement n)) (fun _ => v) D.blockItem := by
      refine .kind_bind fun k => .any (.ite (fun _ => ?_) fun _ => ?_)
      · exact (reads_declaration hD n (hn.call (by decide))).bind fun d hd => .pure hd (Nat.le_refl _)
      · exact (reads_statement hD n (hn.call (by decide))).bind fun s hs => .pure hs (Nat.le_refl _)
    exact Reads.span.bind fun start hstart => (Reads.expect .lBrace).bind fun _ _ =>
      (Reads.untilBrace hitem).bind fun items hitems =>
        (Reads.loose fun v => .expect .rBrace).bind fun _ _ => .spanned hD hstart
          fun span hspan => ⟨hspan, D.blockItems_iff.mpr hitems⟩

theorem reads_parenthesized (hD : D.Sound) : ∀ n {r v}, Enough 6 r n →
    Reads D r v (parenthesized n) (fun _ => v) (UpTo D (chainHeight r + 3))
  | 0, _, _, hn => hn.absurd
  | n + 1, r, v, hn => by
    rw [parenthesized]
    exact (Reads.loose fun v => .expect .lParen).bind fun _ _ =>
      (reads_expression hD n (hn.call (by decide))).bind fun e he =>
        (Reads.loose fun v => .expect .rParen).bind fun _ _ => .pure he (Nat.le_refl _)

theorem reads_ifStatement (hD : D.Sound) : ∀ n {r v}, Enough 7 r n →
    Reads D r (v + 1) (ifStatement n) (fun _ => v) D.stmt
  | 0, _, _, hn => hn.absurd
  | n + 1, r, v, hn => by
    rw [ifStatement]
    refine (Reads.expectKeyword .if_).bind fun start hstart =>
      (reads_parenthesized hD n (hn.call (by decide))).bind fun condition hcondition =>
        (Reads.loose fun v => reads_statement hD n (hn.call (by decide))).bind fun yes hyes => ?_
    refine Reads.part v D.stmt? (.ifAcceptsKeyword ?_ ?_) fun no hno => ?_
    · exact (Reads.loose fun v => reads_statement hD n (hn.call (by decide))).bind fun s hs =>
        .pure hs (Nat.le_refl _)
    · exact .pure trivial (Nat.le_refl _)
    · exact .spanned hD hstart.1 fun span hspan => ⟨hspan, hcondition.1, hyes, hno⟩

theorem reads_loopStatement (hD : D.Sound) : ∀ n {r v c}, Enough 9 r n → c ≠ .eof →
    ReadsAt D c r (v + 1) (loopStatement n) (fun _ => v) D.stmt
  | 0, _, _, _, hn, _ => hn.absurd
  | n + 1, r, v, c, hn, hc => by
    rw [loopStatement]
    refine .advance_bind hc fun start hstart _ => ?_
    refine Reads.part v D.stmtKind ?_ fun kind hkind =>
      .spanned hD hstart.1 fun span hspan => ⟨hspan, hkind⟩
    split
    · exact (reads_parenthesized hD n (hn.call (by decide))).bind fun condition hcondition =>
        (Reads.loose fun v => reads_statement hD n (hn.call (by decide))).bind fun body hbody =>
          .pure ⟨trivial, hcondition.1, trivial, hbody⟩ (Nat.le_refl _)
    · exact (Reads.loose fun v => reads_statement hD n (hn.call (by decide))).bind fun body hbody =>
        (Reads.loose fun v => .expectKeyword .while_).bind fun _ _ =>
          (reads_parenthesized hD n (hn.call (by decide))).bind fun condition hcondition =>
            (Reads.loose fun v => .expect .semi).bind fun _ _ =>
              .pure ⟨trivial, hcondition.1, trivial, hbody⟩ (Nat.le_refl _)
    · exact reads_forClauses hD n (hn.call (by decide))

theorem reads_forClauses (hD : D.Sound) : ∀ n {r v}, Enough 8 r n →
    Reads D r v (forClauses n) (fun _ => v) D.stmtKind
  | 0, _, _, hn => hn.absurd
  | n + 1, r, v, hn => by
    rw [forClauses]
    refine (Reads.loose fun v => .expect .lParen).bind fun _ _ => ?_
    refine Reads.part v D.loopInit? (.ifAccepts ?_ ?_) fun init hinit => ?_
    · exact .pure trivial (Nat.le_refl _)
    · refine .kind_bind fun k => .any (.ite (fun _ => ?_) fun _ => ?_)
      · exact (Reads.loose fun v => reads_declaration hD n (hn.call (by decide))).bind fun d hd =>
          .pure hd (Nat.le_refl _)
      · exact (reads_expression hD n (hn.call (by decide))).bind fun e he =>
          (Reads.loose fun v => .expect .semi).bind fun _ _ => .pure he.1 (Nat.le_refl _)
    · exact (reads_expressionUnless hD n (hn.call (by decide))).bind fun condition hcondition =>
        (Reads.loose fun v => .expect .semi).bind fun _ _ =>
          (reads_expressionUnless hD n (hn.call (by decide))).bind fun update hupdate =>
            (Reads.loose fun v => .expect .rParen).bind fun _ _ =>
              (Reads.loose fun v => reads_statement hD n (hn.call (by decide))).bind
                fun body hbody => .pure ⟨hinit, hcondition, hupdate, hbody⟩ (Nat.le_refl _)

theorem reads_expressionUnless (hD : D.Sound) : ∀ n {r v stop}, Enough 6 r n →
    Reads D r v (expressionUnless n stop) (fun _ => v) D.expr?
  | 0, _, _, _, hn => hn.absurd
  | n + 1, r, v, stop, hn => by
    rw [expressionUnless]
    refine .ifPunct (.any (.pure trivial (Nat.le_refl _))) ?_
    exact (reads_expression hD n (hn.call (by decide))).bind fun e he => .pure he.1 (Nat.le_refl _)

theorem reads_expression (hD : D.Sound) : ∀ n {r v}, Enough 5 r n →
    Reads D r v (expression n) (fun _ => v) (UpTo D (chainHeight r + 3))
  | 0, _, _, hn => hn.absurd
  | n + 1, r, v, hn => by
    rw [expression]
    refine (reads_assignment hD n (hn.call (by decide))).bind fun first hfirst => .ifAccepts ?_ ?_
    · refine (Reads.separated fun v => reads_assignment hD n (hn.call (by decide))).bind
        fun more hmore => .spanned hD (D.expr_iff.mp hfirst.1).1 fun span hspan => ?_
      have hitems : ∀ e ∈ first :: more, UpTo D (chainHeight r + 2) e :=
        List.forall_mem_cons.mpr ⟨hfirst, hmore⟩
      refine .make hD hspan (D.exprs_iff.mpr fun e he => (hitems e he).1) ?_
        (le_maxHeight hn.levels) nofun
      exact Nat.succ_le_succ (heights_le_iff.mpr fun e he => (hitems e he).2)
    · exact .pure (hfirst.mono (by omega)) (Nat.le_refl _)

theorem reads_assignment (hD : D.Sound) : ∀ n {r v}, Enough 4 r n →
    Reads D r v (assignment n) (fun _ => v) (UpTo D (chainHeight r + 2))
  | 0, _, _, hn => hn.absurd
  | n + 1, r, v, hn => by
    rw [assignment]
    refine (reads_conditional hD n (hn.call (by decide))).bind fun left hleft =>
      .kind_bind fun k => ?_
    have hmax := le_maxHeight hn.levels
    split
    · refine .any (Reads.advance.bind fun _ _ => ?_)
      have hright : Reads D r v (nested (assignment n)) (fun _ => v)
          (UpTo D (chainHeight r + 1)) := by
        refine .nested fun r' hr => (reads_assignment hD n (hn.below (by decide) hr)).mono
          (fun _ => Nat.le_refl _) fun e he => he.mono ?_
        rw [hr, chainHeight_succ]
        omega
      refine hright.bind fun right hright => .pure ?_ (Nat.le_refl _)
      refine .make hD (hD.cover (D.expr_iff.mp hleft.1).1 (.inl (D.expr_iff.mp hright.1).1))
        ⟨hleft.1, hright.1⟩ ?_ (by omega) nofun
      exact Nat.succ_le_succ (Nat.max_le.mpr ⟨hleft.2, hright.2⟩)
    · exact .any (.pure (hleft.mono (Nat.le_succ _)) (Nat.le_refl _))

theorem reads_conditional (hD : D.Sound) : ∀ n {r v}, Enough 3 r n →
    Reads D r v (conditional n) (fun _ => v) (UpTo D (chainHeight r + 1))
  | 0, _, _, hn => hn.absurd
  | n + 1, r, v, hn => by
    rw [conditional]
    have hmax := le_maxHeight hn.levels
    refine (reads_binary hD n (hn.call (by decide))).bind fun condition hcondition =>
      .ifAccepts ?_ ?_
    · have hyes : Reads D r v (nested (expression n)) (fun _ => v) (UpTo D (chainHeight r)) := by
        refine .nested fun r' hr => (reads_expression hD n (hn.below (by decide) hr)).mono
          (fun _ => Nat.le_refl _) fun e he => he.mono ?_
        rw [hr, chainHeight_succ]
        omega
      have hno : Reads D r v (nested (conditional n)) (fun _ => v) (UpTo D (chainHeight r)) := by
        refine .nested fun r' hr => (reads_conditional hD n (hn.below (by decide) hr)).mono
          (fun _ => Nat.le_refl _) fun e he => he.mono ?_
        rw [hr, chainHeight_succ]
        omega
      refine hyes.bind fun yes hyes => (Reads.loose fun v => .expect .colon).bind fun _ _ =>
        hno.bind fun no hno => .pure ?_ (Nat.le_refl _)
      refine .make hD (hD.cover (D.expr_iff.mp hcondition.1).1 (.inl (D.expr_iff.mp hno.1).1))
        ⟨hcondition.1, hyes.1, hno.1⟩ ?_ (by omega) nofun
      exact Nat.succ_le_succ (Nat.max_le.mpr ⟨hcondition.2, Nat.max_le.mpr ⟨hyes.2, hno.2⟩⟩)
    · exact .pure (hcondition.mono (Nat.le_succ _)) (Nat.le_refl _)

/-- Each operator makes the chain one higher and leaves its right operand one level less. -/
theorem reads_binary (hD : D.Sound) : ∀ n {r v least}, Enough 2 r n →
    Reads D r v (binary n least) (fun _ => v) (UpTo D (chainHeight r))
  | 0, _, _, _, hn => hn.absurd
  | n + 1, r, v, least, hn => by
    rw [binary]
    have hmax := le_maxHeight hn.levels
    refine .links (I := fun r' e => D.expr e ∧ e.height + r' ≤ chainHeight r) ?_ ?_ ?_
    · exact (reads_unary hD n (hn.call (by decide))).mono (fun _ => Nat.le_refl _) fun e he =>
        ⟨he.1, Nat.add_le_add_right he.2 r⟩
    · refine fun r' hr' left v hleft => Meets.kind_bind fun c => ?_
      split
      · rename_i op precedence hop
        have hc : c ≠ .eof := by
          rintro rfl
          cases hop
        refine Meets.link_bind fun r'' hr'' => ?_
        have hround : ReadsAt D c r'' (v + 1) (do
            let _ ← advance
            let right ← binary n (precedence + 1)
            return (.untyped (.binary op left right) (left.span.cover right.span), true))
            (fun _ => v) fun x => x.2 = true ∧ D.expr x.1 ∧ x.1.height + r'' ≤ chainHeight r := by
          refine .advance_bind hc fun _ _ _ =>
            (reads_binary hD n ((hn.mono hr').below (by decide) hr'')).bind
              fun right hright => ?_
          have hheight : max left.height right.height + 1 + r'' ≤ chainHeight r := by
            have hbelow : chainHeight r'' + r' ≤ chainHeight r := by
              refine Nat.le_trans ?_ (chainHeight_le hr')
              rw [hr'', chainHeight_succ]
              omega
            have hr := hright.2
            have hl := hleft.2
            omega
          have hmade : UpTo D (max left.height right.height + 1)
              (.untyped (.binary op left right) (left.span.cover right.span)) :=
            .make hD (hD.cover (D.expr_iff.mp hleft.1).1 (.inl (D.expr_iff.mp hright.1).1))
              ⟨hleft.1, hright.1⟩ (Nat.le_refl _) (by omega) nofun
          exact .pure ⟨rfl, hmade.1, hheight⟩ (Nat.le_refl _)
        refine fun s hs => (hround s hs).mono fun x s' ⟨hs', hmore, hx⟩ => ?_
        rw [Links, if_pos hmore]
        exact ⟨r'', hr'', hs', hx⟩
      · exact fun s hs => ⟨hs.1, hleft⟩
    · exact fun r' _ e he => ⟨he.1, Nat.le_trans (Nat.le_add_right _ _) he.2⟩

theorem reads_unary (hD : D.Sound) : ∀ n {r v}, Enough 1 r n →
    Reads D r v (unary n) (fun _ => v) (UpTo D (unaryHeight r))
  | 0, _, _, hn => hn.absurd
  | n + 1, r, v, hn => by
    rw [unary]
    have hlevels := hn.levels
    refine .nested fun r' hr => ?_
    rw [hr, unaryHeight_succ]
    exact reads_unaryInner hD n (by omega) (hn.below (by decide) hr)

theorem reads_unaryInner (hD : D.Sound) : ∀ n {r v}, r < maxNesting → Enough 11 r n →
    Reads D r v (unaryInner n) (fun _ => v) (UpTo D (chainHeight r + r + 3))
  | 0, _, _, _, hn => hn.absurd
  | n + 1, r, v, hr, hn => by
    rw [unaryInner]
    have hmax : unaryHeight r + 1 ≤ maxHeight := by
      have hchain := le_maxHeight hn.levels
      rw [chainHeight_eq] at hchain
      omega
    have hle := chainHeight_eq r
    refine Reads.span.bind fun start hstart => .atParenBefore_bind fun isCast =>
      .kind_bind fun k => ?_
    split
    · exact .any (Reads.advance.bind fun _ _ => (reads_unary hD n (hn.call (by decide))).mono
        (fun _ => Nat.le_refl _) fun e he => he.mono (by omega))
    iterate 2 exact .any ((reads_sizeQuery hD n (hn.call (by decide)) hstart).mono
      (fun _ => Nat.le_refl _) fun e he => he.mono (by omega))
    · refine .any (.ite (fun _ => ?_) fun _ => ?_)
      · refine Reads.advance.bind fun _ _ => (reads_typeName hD n (hn.call (by decide))).bind
          fun ty hty => (Reads.loose fun v => .expect .rParen).bind fun _ _ =>
            (reads_unary hD n (hn.call (by decide))).bind fun operand hoperand =>
              .pure ?_ (Nat.le_refl _)
        have hmade : UpTo D (unaryHeight r + 1)
            (.untyped (.cast ty operand) (start.cover operand.span)) :=
          .make hD (hD.cover hstart (.inl (D.expr_iff.mp hoperand.1).1)) ⟨hty, hoperand.1⟩
            (Nat.succ_le_succ hoperand.2) hmax nofun
        exact hmade.mono (by omega)
      · split
        · rename_i wrap hwrap
          refine Reads.advance.bind fun _ _ => (reads_unary hD n (hn.call (by decide))).bind
            fun operand hoperand => .pure ?_ (Nat.le_refl _)
          obtain ⟨hkind, hheight, htext⟩ := exprKind_leadingOp? hwrap hoperand.1
          refine (UpTo.make hD (hD.cover hstart (.inl (D.expr_iff.mp hoperand.1).1)) hkind
            (hheight.trans_le (Nat.succ_le_succ hoperand.2)) hmax htext).mono (by omega)
        · exact reads_suffixed hD n hr (hn.call (by decide))

theorem reads_sizeQuery (hD : D.Sound) : ∀ n {r v query start}, Enough 4 r n → D.place start →
    Reads D r v (sizeQuery n query start) (fun _ => v) (UpTo D (unaryHeight r + 1))
  | 0, _, _, _, _, hn, _ => hn.absurd
  | n + 1, r, v, query, start, hn, hstart => by
    rw [sizeQuery]
    have hmax : unaryHeight r + 1 ≤ maxHeight := by
      have hchain := le_maxHeight hn.levels
      rw [chainHeight_eq] at hchain
      omega
    refine Reads.advance.bind fun _ _ => .atParenBefore_bind fun isType =>
      .ite (fun _ => ?_) fun _ => ?_
    · exact Reads.advance.bind fun _ _ => (reads_typeName hD n (hn.call (by decide))).bind
        fun ty hty => (Reads.loose fun v => .expect .rParen).bind fun _ _ => .spanned hD hstart
          fun span hspan => .make hD hspan hty (Nat.le_add_left 1 _) hmax nofun
    · exact (reads_unary hD n (hn.call (by decide))).bind fun operand hoperand => .spanned hD hstart
        fun span hspan => .make hD hspan hoperand.1 (Nat.succ_le_succ hoperand.2) hmax nofun

/-- Each suffix makes the chain one higher and leaves its arguments one level less. -/
theorem reads_suffixed (hD : D.Sound) : ∀ n {r v}, r < maxNesting → Enough 10 r n →
    Reads D r v (suffixed n) (fun _ => v) (UpTo D (chainHeight r + r + 3))
  | 0, _, _, _, hn => hn.absurd
  | n + 1, r, v, hr, hn => by
    rw [suffixed]
    have hmax : chainHeight r + r + 3 ≤ maxHeight := by
      rw [← unaryHeight_succ]
      have hchain := le_maxHeight (r := r + 1) hr
      rw [chainHeight_eq] at hchain
      omega
    refine .links (I := fun r' e => D.expr e ∧ e.height + r' ≤ chainHeight r + r + 3) ?_ ?_ ?_
    · exact (reads_primary hD n (hn.call (by decide))).mono (fun _ => Nat.le_refl _) fun e he =>
        ⟨he.1, by have := he.2; omega⟩
    · refine fun r' hr' e v he => ?_
      refine Meets.bind (reads_suffix hD n ((hn.mono hr').call (by decide)) he.1) fun suffix? s hs =>
        ?_
      obtain ⟨hs, hsuffix⟩ := hs
      cases suffix? with
      | none => exact ⟨hs, he⟩
      | some kind =>
        refine Meets.link_bind (c := s.current.kind) (fun r'' hr'' => ?_) s ⟨hs, rfl⟩
        obtain ⟨hkind, hheight, htext⟩ := hsuffix kind rfl
        have hbelow : chainHeight r' + r' ≤ chainHeight r + r :=
          Nat.add_le_add (chainHeight_le hr') hr'
        have hsum : kind.height + r'' ≤ chainHeight r + r + 3 := by
          have hle := he.2
          omega
        have hround : Reads D r'' v (do return (.untyped kind (← spanFrom e.span), true))
            (fun _ => v) fun x => x.2 = true ∧ D.expr x.1 ∧
              x.1.height + r'' ≤ chainHeight r + r + 3 := by
          refine (Reads.spanFrom hD (D.expr_iff.mp he.1).1).bind fun span hspan => ?_
          have hmade : UpTo D kind.height (.untyped kind span) :=
            .make hD hspan hkind (Nat.le_refl _) (by omega) htext
          exact .pure ⟨rfl, hmade.1, hsum⟩ (Nat.le_refl _)
        refine fun s hs => (hround s hs.1).mono fun x s' ⟨hs', hmore, hx⟩ => ?_
        rw [Links, if_pos hmore]
        exact ⟨r'', hr'', hs', hx⟩
    · exact fun r' _ e he => ⟨he.1, Nat.le_trans (Nat.le_add_right _ _) he.2⟩

theorem reads_suffix (hD : D.Sound) : ∀ n {r v e}, Enough 6 r n → D.expr e →
    Reads D r (v + 1) (suffix n e) (fun x => if x.isSome then v else v + 1)
      fun x => ∀ kind ∈ x, goodSuffix D r e kind
  | 0, _, _, _, hn, _ => hn.absurd
  | n + 1, r, v, e, hn, he => by
    rw [suffix]
    have hmember (wrap : String → ExprKind) (hwrap : ∀ field, goodSuffix D r e (wrap field)) :
        Reads D r v (do
          let (field, _) ← expectName "member name"
          return some (wrap field)) (fun x => if x.isSome then v else v + 1)
          fun x => ∀ kind ∈ x, goodSuffix D r e kind :=
      (Reads.loose fun v => .expectName _).bind fun x _ =>
        .pure (fun kind h => Option.some.inj h ▸ hwrap x.1) (Nat.le_refl _)
    refine .kind_bind fun k => ?_
    split
    · refine .advance_bind nofun fun _ _ _ => (reads_expression hD n (hn.call (by decide))).bind
        fun index hindex => (Reads.loose fun v => .expect .rBracket).bind fun _ _ =>
          .pure (fun kind h => ?_) (Nat.le_refl _)
      cases h
      have hheight : max e.height index.height ≤ max e.height (chainHeight r + 3) :=
        Nat.max_le.mpr ⟨Nat.le_max_left _ _, Nat.le_trans hindex.2 (Nat.le_max_right _ _)⟩
      exact ⟨⟨he, hindex.1⟩, Nat.succ_le_succ hheight, nofun⟩
    · refine .advance_bind nofun fun _ _ _ => ?_
      refine Reads.part v (fun args => ∀ a ∈ args, UpTo D (chainHeight r + 2) a)
        (.ifPunct ?_ ?_) fun args hargs => ?_
      · exact .any (.pure (fun _ h => nomatch h) (Nat.le_refl _))
      · exact .separated fun v => reads_assignment hD n (hn.call (by decide))
      · refine (Reads.loose fun v => .expect .rParen).bind fun _ _ =>
          .pure (fun kind h => ?_) (Nat.le_refl _)
        cases h
        have hheights : heights args ≤ chainHeight r + 2 :=
          heights_le_iff.mpr fun a ha => (hargs a ha).2
        have hheight : max e.height (heights args) ≤ max e.height (chainHeight r + 3) := by omega
        exact ⟨⟨he, D.exprs_iff.mpr fun a ha => (hargs a ha).1⟩, Nat.succ_le_succ hheight, nofun⟩
    · exact .advance_bind nofun fun _ _ _ => hmember (.member e · none) fun field =>
        ⟨he, Nat.succ_le_succ (Nat.le_max_left _ _), nofun⟩
    · exact .advance_bind nofun fun _ _ _ => hmember (.pointerMember e · none) fun field =>
        ⟨he, Nat.succ_le_succ (Nat.le_max_left _ _), nofun⟩
    iterate 2
      · refine .advance_bind nofun fun _ _ _ => .pure (fun kind h => ?_) (Nat.le_refl _)
        cases h
        exact ⟨he, Nat.succ_le_succ (Nat.le_max_left _ _), nofun⟩
    · exact .any (.pure nofun (Nat.le_refl _))

theorem reads_primary (hD : D.Sound) : ∀ n {r v}, Enough 9 r n →
    Reads D r v (primary n) (fun _ => v) (UpTo D (chainHeight r + 3))
  | 0, _, _, hn => hn.absurd
  | n + 1, r, v, hn => by
    rw [primary]
    have hmax := le_maxHeight hn.levels
    refine Reads.span.bind fun start hstart => .atParenBefore_bind fun isBlock =>
      .kind_bind fun k => ?_
    split
    · exact reads_stringLiteral hD (Nat.le_add_left 1 _)
    · refine .any (.ite (fun _ => ?_) fun _ => ?_)
      · refine Reads.advance.bind fun _ _ => (Reads.loose fun v => reads_block hD n
          (hn.call (by decide))).bind fun b hb => (Reads.loose fun v => .expect .rParen).bind
            fun _ _ => .spanned hD hstart fun span hspan => ?_
        exact .make hD hspan hb (Nat.le_add_left 1 _) hmax nofun
      · exact (reads_parenthesized hD n (hn.call (by decide))).bind fun e he =>
          .spanned hD hstart fun span hspan => he.moved hD hspan
    iterate 2 exact .any (.unsupported _)
    · split
      · rename_i kind hkind
        exact .any (reads_leaf hD (Nat.le_add_left 1 _) hkind)
      · exact .any (.failAt hstart nofun)

end

/-! File scope. -/

theorem enough_allowance {k : Nat} (hk : k ≤ 32) : Enough k maxNesting allowance :=
  ⟨Nat.le_refl _, Nat.add_le_add_left hk _⟩

theorem reads_parameter (hD : D.Sound) : Reads D maxNesting v parameter (fun _ => v) D.param := by
  refine Reads.span.bind fun start hstart =>
    (reads_specifiers hD allowance (enough_allowance (by decide))).bind fun base hbase => ?_
  refine Reads.part v (fun x => D.type x.2) ?_ fun x hx =>
    .spanned hD hstart fun span hspan => ⟨hspan, hx⟩
  refine .chain ((reads_pointers hD hbase).bind fun ty hty => ?_)
  refine Reads.part v (fun _ => True) (.kind_bind fun k => ?_) fun name _ => ?_
  · split
    · exact .any (Reads.advance.bind fun _ _ => .pure trivial (Nat.le_refl _))
    · exact .any (.pure trivial (Nat.le_refl _))
  · exact (reads_arraySuffix hD allowance (enough_allowance (by decide)) hty).bind
      fun ty hty => .pure hty (Nat.le_refl _)

theorem reads_parameters (hD : D.Sound) :
    Reads D maxNesting v parameters (fun _ => v) fun x => ∀ p ∈ x.1, D.param p := by
  have hnone : ∀ p ∈ ([] : List ParamDecl), D.param p := List.forall_mem_nil _
  have hempty : ∀ p ∈ (#[] : Array ParamDecl), D.param p :=
    fun p hp => absurd hp (Array.not_mem_empty p)
  have hlist (v : Nat) : Reads D maxNesting v (do
      let x ← iterate (fun x => do
        if ← accept .ellipsis then return ((x.1, true), false)
        let p ← parameter
        return ((x.1.push p, false), ← accept .comma)) (#[], false)
      return (x.1.toList, x.2)) (fun _ => v) fun x => ∀ p ∈ x.1, D.param p := by
    refine (Reads.iterate (I := fun x : Array ParamDecl × Bool => ∀ p ∈ x.1, D.param p)
      (fun x v hx => ?_) hempty).bind fun x hx =>
        .pure (fun p hp => hx p (Array.mem_toList_iff.mp hp)) (Nat.le_refl _)
    refine .ifAccepts (.pure hx (Nat.le_refl _)) ((reads_parameter hD).bind fun p hp => ?_)
    have hpush : ∀ q ∈ x.1.push p, D.param q := by
      intro q hq
      rcases Array.mem_push.mp hq with hq | rfl
      · exact hx q hq
      · exact hp
    exact .accept_bind (.pure hpush (Nat.le_refl _)) (.pure hpush (Nat.le_refl _))
  refine .ifPunct (.any (.pure hnone (Nat.le_refl _))) (.ifKind (.any ?_) (hlist v))
  refine Reads.peekKind.bind fun k _ => .ite (fun _ => ?_) fun _ => hlist v
  exact Reads.advance.bind fun _ _ => .pure hnone (Nat.le_refl _)

theorem reads_functionRest (hD : D.Sound) {d : Declarator} {start : Span}
    (hd : goodDeclarator D d) (hstart : D.place start) :
    Reads D maxNesting v (functionRest d start) (fun _ => v) D.topDecl := by
  refine (Reads.loose fun v => .expect .lParen).bind fun _ _ => (reads_parameters hD).bind
    fun x hx => (Reads.loose fun v => .expect .rParen).bind fun _ _ => ?_
  refine Reads.part v (fun body => ∀ b ∈ body, D.block b) (.ifPunct ?_ ?_)
    fun body hbody => ?_
  · refine .any ((Reads.loose fun v => reads_block hD allowance (enough_allowance (by decide))).bind
      fun b hb => .pure (fun b' h => ?_) (Nat.le_refl _))
    cases h
    exact hb
  · exact (Reads.loose fun v => .expect .semi).bind fun _ _ => .pure nofun (Nat.le_refl _)
  · exact .spanned hD hstart fun span hspan => ⟨hspan, hd.2.2, hx, hbody⟩

theorem reads_topDecl (hD : D.Sound) :
    Reads D maxNesting (v + 1) topDecl (fun _ => v) D.topDecl := by
  refine Reads.span.bind fun start hstart =>
    (reads_specifiers hD allowance (enough_allowance (by decide))).bind fun base hbase =>
      .accept_bind ?_ ?_
  · refine (Reads.spanFrom hD hstart).bind fun span hspan => ?_
    split
    · rename_i spec heq
      have hkind : D.typeKind base.kind := (D.type_iff.mp hbase).2
      rw [heq] at hkind
      exact .pure ⟨hspan, hkind⟩ (Nat.le_refl _)
    · exact .failAt hspan nofun
  · refine (reads_declarator hD allowance (enough_allowance (by decide)) hbase).bind fun d hd =>
      .ifPunct (.any (reads_functionRest hD hd hstart)) ?_
    exact (reads_varDecls hD allowance (enough_allowance (by decide)) hd hbase hstart).bind
      fun decl hdecl => .pure hdecl (Nat.le_refl _)

theorem reads_compilationUnit (hD : D.Sound) :
    Reads D maxNesting v compilationUnit (fun _ => v) D.unit := by
  have hempty : ∀ d ∈ (#[] : Array TopDecl), D.topDecl d :=
    fun d hd => absurd hd (Array.not_mem_empty d)
  refine (Reads.iterate (I := fun acc : Array TopDecl => ∀ d ∈ acc, D.topDecl d)
    (fun acc v hacc => .atEnd_bind ?_ ?_) hempty).bind fun acc hacc =>
      .pure (fun d hd => hacc d (Array.mem_toList_iff.mp hd)) (Nat.le_refl _)
  · exact .pure hacc (Nat.le_refl _)
  · refine (reads_topDecl hD).bind fun d hd => .pure (fun d' hd' => ?_) (Nat.le_refl _)
    rcases Array.mem_push.mp hd' with hd' | rfl
    · exact hacc d' hd'
    · exact hd

end MiniC.Syntax.Parser
