import MiniC.Proofs.Syntax.Reading
import MiniC.Proofs.Syntax.Tags
/-!
The numbers of struct specifiers. A specifier is numbered once its body has been read, and a number is
given once. Main statement: in a unit that was parsed, numbers tell specifiers apart, and those in the
body of a specifier have smaller numbers than it.
-/
namespace MiniC.Syntax

/-- Specifiers that were numbered in between. -/
structure Fresh (lo hi : Nat) (L : List StructSpec) : Prop where
  le : lo ≤ hi
  within : ∀ spec ∈ L, lo ≤ spec.id ∧ spec.id < hi
  numbered : Numbered L

namespace Fresh

variable {lo hi : Nat} {L L' : List StructSpec}

theorem nil (h : lo ≤ hi) : Fresh lo hi [] where
  le := h
  within := List.forall_mem_nil _
  numbered := ⟨List.forall_mem_nil _, List.forall_mem_nil _⟩

theorem subset (h : Fresh lo hi L) (hL : L' ⊆ L) : Fresh lo hi L' where
  le := h.le
  within spec hspec := h.within spec (hL hspec)
  numbered := ⟨fun spec hspec spec' hspec' => h.numbered.unique spec (hL hspec) spec' (hL hspec'),
    fun spec hspec => h.numbered.inner spec (hL hspec)⟩

/-- A specifier whose body has been read gets the next number. -/
theorem next (h : Fresh lo hi L) {spec : StructSpec} (hid : spec.id = hi)
    (hinner : specsOfBody spec.members ⊆ L) : Fresh lo (hi + 1) (spec :: L) where
  le := Nat.le_succ_of_le h.le
  within := by
    refine List.forall_mem_cons.mpr ⟨by have := h.le; omega, fun other hother => ?_⟩
    have := h.within other hother
    omega
  numbered := by
    constructor
    · intro a ha b hb heq
      rcases List.mem_cons.mp ha with rfl | ha'
      · rcases List.mem_cons.mp hb with rfl | hb'
        · rfl
        · have := h.within b hb'
          omega
      · rcases List.mem_cons.mp hb with rfl | hb'
        · have := h.within a ha'
          omega
        · exact h.numbered.unique a ha' b hb' heq
    · refine List.forall_mem_cons.mpr ⟨fun inner hi => ?_, h.numbered.inner⟩
      rw [hid]
      exact (h.within inner (hinner hi)).2

end Fresh

namespace Parser

variable {α β : Type} {K : List StructSpec}

/-- Among what was read before, what this reads is numbered anew. -/
def Numbers (K : List StructSpec) (p : Parser α) (L : α → List StructSpec) : Prop :=
  ∀ lo s, Fresh lo s.nextStruct K →
    Ends (fun a s' => Fresh lo s'.nextStruct (L a ++ K)) (fun _ => True) (p s)

/-- No specifier is numbered. -/
def Keeps (p : Parser α) : Prop :=
  ∀ s, Ends (fun _ s' => s'.nextStruct = s.nextStruct) (fun _ => True) (p s)

theorem ends_bind {p : Parser α} {k : α → Parser β} {post : β → ParseState → Prop} {s : ParseState}
    (h : Ends (fun a s' => Ends post (fun _ => True) (k a s')) (fun _ => True) (p s)) :
    Ends post (fun _ => True) ((p >>= k) s) := by
  show Ends _ _ (EStateM.bind p k s)
  unfold EStateM.bind
  cases hp : p s with
  | ok a s' =>
    rw [hp] at h
    exact h
  | error e s' => trivial

namespace Keeps

variable {p : Parser α} {k : α → Parser β}

theorem pure (a : α) : Keeps (Pure.pure a) := fun _ => rfl

theorem bind (hp : Keeps p) (hk : ∀ a, Keeps (k a)) : Keeps (p >>= k) := fun s =>
  ends_bind ((hp s).mono fun a s' hs => (hk a s').mono fun _ _ h => h.trans hs)

theorem ite {c : Prop} [Decidable c] {q : Parser α} (hp : Keeps p) (hq : Keeps q) :
    Keeps (if c then p else q) := by
  split
  · exact hp
  · exact hq

theorem failAt (cause : SyntaxCause) (span : Span) : Keeps (failAt cause span : Parser α) :=
  fun _ => trivial

theorem fail (cause : SyntaxCause) : Keeps (fail cause : Parser α) := fun _ => trivial

theorem kind : Keeps kind := fun _ => rfl

theorem span : Keeps span := fun _ => rfl

theorem spanFrom (start : Span) : Keeps (spanFrom start) := fun _ => rfl

theorem atKind (k : TokenKind) : Keeps (atKind k) := fun _ => rfl

theorem advance : Keeps advance := fun s => by
  unfold Parser.advance
  split
  · trivial
  · rfl

theorem peekKind : Keeps peekKind := fun s => by
  unfold Parser.peekKind
  split
  · trivial
  · rfl

theorem accept (c : Punct) : Keeps (accept c) :=
  (atKind _).bind fun _ => .ite (advance.bind fun _ => .pure _) (.pure _)

theorem acceptKeyword (c : Keyword) : Keeps (acceptKeyword c) :=
  (atKind _).bind fun _ => .ite (advance.bind fun _ => .pure _) (.pure _)

theorem expectKind (c : TokenKind) : Keeps (expectKind c) :=
  kind.bind fun _ => .ite advance (.fail _)

theorem expectName (what : String) : Keeps (expectName what) := by
  refine kind.bind fun k => ?_
  split
  · exact advance.bind fun _ => .pure _
  · exact .fail _

theorem link : Keeps link := fun s => by
  unfold Parser.link
  split
  · rfl
  · trivial

theorem chain (h : Keeps p) : Keeps (chain p) := fun s => by
  have hp := h s
  unfold Parser.chain
  cases hrun : p s with
  | ok a s' =>
    rw [hrun] at hp
    exact hp
  | error e s' => trivial

theorem atParenBefore (test : TokenKind → Bool) : Keeps (atParenBefore test) :=
  (atKind _).bind fun _ => .ite (peekKind.bind fun _ => .pure _) (.pure _)

end Keeps

/-- What holds before every round holds at the end, if there is one. -/
theorem ends_rounds {I : β → ParseState → Prop} {step : β → Parser (β × Bool)}
    (hstep : ∀ b s, I b s → Ends (fun x s' => I x.1 s') (fun _ => True) (step b s)) {b : β}
    {s : ParseState} (hs : I b s) : Ends I (fun _ => True) (iterate step b s) := by
  have hloop : ∀ limit b s, I b s → Ends I (fun _ => True) (loop step limit b s) := by
    intro limit
    induction limit with
    | zero => exact fun _ _ _ => trivial
    | succ limit ih =>
      intro b s hs
      have hround := hstep b s hs
      unfold loop
      cases hrun : step b s with
      | error e s' => trivial
      | ok x s' =>
        rw [hrun] at hround
        obtain ⟨b', more⟩ := x
        simp only
        split
        · exact hround
        · split
          · exact ih b' s' hround
          · trivial
  exact hloop _ b s hs

theorem Keeps.iterate {step : β → Parser (β × Bool)} (h : ∀ b, Keeps (step b)) (b : β) :
    Keeps (iterate step b) := fun s =>
  ends_rounds (I := fun _ s' => s'.nextStruct = s.nextStruct)
    (fun b s' hs => (h b s').mono fun _ _ hs' => hs'.trans hs) rfl

namespace Numbers

variable {p : Parser α} {k : α → Parser β} {L : α → List StructSpec} {M : β → List StructSpec}

theorem pure {a : α} (h : L a ⊆ K) : Numbers K (Pure.pure a) L := fun _ _ hs =>
  hs.subset (List.append_subset.mpr ⟨h, List.Subset.refl _⟩)

theorem bind (hp : Numbers K p L) (hk : ∀ a, Numbers (L a ++ K) (k a) M) : Numbers K (p >>= k) M :=
  fun lo s hs => ends_bind ((hp lo s hs).mono fun a s' hs' => (hk a lo s' hs').mono fun _ _ h =>
    h.subset (List.append_subset.mpr ⟨List.subset_append_left _ _,
      List.Subset.trans (List.subset_append_right _ _) (List.subset_append_right _ _)⟩))

theorem skip (hp : Keeps p) (hk : ∀ a, Numbers K (k a) M) : Numbers K (p >>= k) M := fun lo s hs =>
  ends_bind ((hp s).mono fun a s' hs' => hk a lo s' (hs' ▸ hs))

theorem ite {c : Prop} [Decidable c] {q : Parser α} (hp : Numbers K p L) (hq : Numbers K q L) :
    Numbers K (if c then p else q) L := by
  split
  · exact hp
  · exact hq

theorem failAt (cause : SyntaxCause) (span : Span) : Numbers K (failAt cause span) L :=
  fun _ _ _ => trivial

theorem fail (cause : SyntaxCause) : Numbers K (fail cause) L := fun _ _ _ => trivial

theorem exhausted : Numbers K exhausted L := .fail _

theorem unsupported (what : String) : Numbers K (unsupported what) L := .fail _

/-- Past a test that only fails. -/
theorem guard {c : Prop} [Decidable c] {e : Parser α} (he : ∀ s, ∃ x s', e s = .error x s')
    {q : Parser β} (hq : Numbers K q M) : Numbers K (if c then e >>= k else q) M := by
  split
  · intro lo s hs
    obtain ⟨x, s', hrun⟩ := he s
    refine ends_bind ?_
    rw [hrun]
    trivial
  · exact hq

theorem chain (h : Numbers K p L) : Numbers K (chain p) L := fun lo s hs => by
  have hp := h lo s hs
  unfold Parser.chain
  cases hrun : p s with
  | ok a s' =>
    rw [hrun] at hp
    exact hp
  | error e s' => trivial

theorem nested (h : Numbers K p L) : Numbers K (nested p) L := .chain (.skip .link fun _ => h)

theorem iterate {step : β → Parser (β × Bool)} (hstep : ∀ b, Numbers (M b ++ K) (step b) (M ·.1))
    {b : β} (hb : M b ⊆ K) : Numbers K (iterate step b) M := fun lo s hs => by
  refine ends_rounds (I := fun b s' => Fresh lo s'.nextStruct (M b ++ K)) (fun b s hs => ?_)
    (hs.subset (List.append_subset.mpr ⟨hb, List.Subset.refl _⟩))
  refine (hstep b lo s hs).mono fun x _ h => h.subset ?_
  exact List.append_subset.mpr ⟨List.subset_append_left _ _,
    List.Subset.trans (List.subset_append_right _ _) (List.subset_append_right _ _)⟩

theorem untilBrace {item : Parser α} (h : ∀ K, Numbers K item L) :
    Numbers K (untilBrace item) (·.flatMap L) := by
  refine (Numbers.iterate (M := fun acc : Array α => acc.toList.flatMap L) (fun acc =>
    .skip (.atKind _) fun _ => .skip (.atKind _) fun _ => .ite (.pure (List.subset_append_left _ _))
      ((h _).bind fun a => .pure ?_)) (List.nil_subset _)).bind
    fun acc => .pure (List.subset_append_left _ _)
  rw [Array.toList_push, List.flatMap_append, List.flatMap_singleton]
  grind

theorem separated {item : Parser α} (h : ∀ K', K ⊆ K' → Numbers K' item L) :
    Numbers K (separated item) (·.flatMap L) := by
  refine (Numbers.iterate (M := fun acc : Array α => acc.toList.flatMap L) (fun acc =>
    (h _ (List.subset_append_right _ _)).bind fun a => .skip (.accept _) fun _ => .pure ?_)
    (List.nil_subset _)).bind fun acc => .pure (List.subset_append_left _ _)
  rw [Array.toList_push, List.flatMap_append, List.flatMap_singleton]
  grind

end Numbers

/-! The constructs. -/

def specsOfSpecifiers (sp : Specifiers) : List StructSpec := sp.struct.elim [] StructSpec.specs

theorem numbers_addSpecifier {sp : Specifiers} (hsp : specsOfSpecifiers sp ⊆ K) :
    Numbers K sp.add fun x => specsOfSpecifiers x.1 := by
  refine .skip .kind fun k => ?_
  split
  iterate 4 exact .skip .advance fun _ => .pure hsp
  · have hword (k : Keyword) : Numbers K (sp.addWord k) specsOfSpecifiers :=
      .guard (fun s => ⟨_, s, rfl⟩) (.skip .advance fun _ => .pure hsp)
    exact .ite ((hword _).bind fun _ => .pure (List.subset_append_left _ _)) (.pure hsp)
  · exact .unsupported _
  · exact .pure hsp

theorem specs_of_intKind? {words : List Keyword} {signed : Option Bool} {kind : TypeKind}
    (h : intKind? words signed = some kind) : kind.specs = [] := by
  unfold intKind? at h
  simp only at h
  split at h
  case h_3 => split at h <;> cases h; rw [TypeKind.specs]
  all_goals cases h <;> rw [TypeKind.specs]

theorem numbers_finish {sp : Specifiers} {start : Span} (hsp : specsOfSpecifiers sp ⊆ K) :
    Numbers K (sp.finish start) TypeExpr.specs := by
  refine .skip (.spanFrom _) fun span => ?_
  split
  · rename_i spec heq
    refine .pure ?_
    rw [TypeExpr.specs, TypeKind.specs]
    rwa [specsOfSpecifiers, heq] at hsp
  · split
    · rename_i kind heq
      refine .pure ?_
      rw [TypeExpr.specs, specs_of_intKind? heq]
      exact List.nil_subset _
    · exact .failAt _ _

theorem keeps_qualifiers : Keeps qualifiers := by
  refine .iterate (fun q => Keeps.kind.bind fun k => ?_) _
  split
  iterate 2 exact .bind .advance fun _ => .pure _
  · exact .pure _

theorem numbers_pointers {base : TypeExpr} (hbase : base.specs ⊆ K) :
    Numbers K (pointers base) TypeExpr.specs := by
  refine .iterate (fun ty => .skip (.atKind _) fun _ => .ite ?_ (.pure (List.subset_append_left _ _)))
    hbase
  refine .skip .link fun _ => .skip .advance fun _ => .skip keeps_qualifiers fun _ => .pure ?_
  rw [TypeExpr.pointerTo, TypeExpr.specs, TypeKind.specs]
  exact List.subset_append_left _ _

theorem keeps_arraySizeOf (e : Expr) : Keeps (arraySizeOf e) := by
  unfold arraySizeOf
  split
  · exact .ite (.failAt _ _) (.pure _)
  · exact .failAt _ _

theorem specs_wrapArrays (element : TypeExpr) (dimensions : List (Option Nat × Span)) :
    (wrapArrays element dimensions).specs = element.specs := by
  induction dimensions with
  | nil => rfl
  | cons x xs ih =>
    show TypeExpr.specs (.arrayOf (wrapArrays element xs) x.1 x.2) = _
    rw [TypeExpr.arrayOf, TypeExpr.specs, TypeKind.specs, ih]

theorem numbers_stringLiteral : Numbers K stringLiteral (·.script.specs) := by
  refine .skip .span fun _ => .skip (.iterate (fun text => Keeps.kind.bind fun k => ?_) _) fun _ =>
    .skip (.spanFrom _) fun _ => .pure ?_
  · split
    · exact .bind .advance fun _ => .pure _
    · exact .pure _
  · rw [Expr.untyped, Expr.script, ExprKind.script]
    exact List.nil_subset _

theorem numbers_leaf {found : TokenKind} {kind : ExprKind} (hleaf : leafKind? found = some kind) :
    Numbers K (leaf kind) (·.script.specs) := by
  refine .skip .advance fun t => .pure ?_
  rw [Expr.untyped, Expr.script]
  unfold leafKind? at hleaf
  split at hleaf <;> cases hleaf <;> rw [ExprKind.script] <;> exact List.nil_subset _

theorem numbers_jumpStatement {kind : StmtKind} (hkind : kind.script.specs = []) :
    Numbers K (jumpStatement kind) (·.script.specs) := by
  refine .skip .span fun _ => .skip .advance fun _ => .skip (.expectKind _) fun _ =>
    .skip (.spanFrom _) fun _ => .pure ?_
  rw [Stmt.script, hkind]
  exact List.nil_subset _

theorem script_leadingOp? {k : TokenKind} {wrap : Expr → ExprKind} (h : leadingOp? k = some wrap)
    (e : Expr) : (wrap e).script = e.script := by
  unfold leadingOp? at h
  split at h <;> cases h <;> rw [ExprKind.script]

mutual

theorem numbers_specifiers (K : List StructSpec) : ∀ n, Numbers K (specifiers n) TypeExpr.specs
  | 0 => .exhausted
  | n + 1 => by
    rw [specifiers]
    refine .skip .span fun start => (Numbers.iterate (M := specsOfSpecifiers)
      (fun sp => .skip (.atKind _) fun _ => .ite (.ite (.fail _) ?_)
        (numbers_addSpecifier (List.subset_append_left _ _))) (List.nil_subset _)).bind
      fun sp => numbers_finish (List.subset_append_left _ _)
    exact (numbers_structSpecifier _ n).bind fun spec => .pure (List.subset_append_left _ _)

theorem numbers_structSpecifier (K : List StructSpec) : ∀ n,
    Numbers K (structSpecifier n) StructSpec.specs
  | 0 => .exhausted
  | n + 1 => by
    rw [structSpecifier]
    refine .skip (.expectKind _) fun start => .skip (Keeps.kind.bind fun k => ?_) fun name => ?_
    · split
      · exact .bind .advance fun _ => .pure _
      · exact .pure _
    refine Numbers.bind (L := specsOfBody) (.skip (.atKind _) fun _ => .ite ?_ ?_) fun members => ?_
    · refine (Numbers.nested (numbers_structBody K n)).bind fun ms => .pure ?_
      rw [specsOfBody]
      exact List.subset_append_left _ _
    · refine .ite (.skip .kind fun _ => .fail _) (.pure ?_)
      rw [specsOfBody]
      exact List.nil_subset _
    · intro lo s hs
      let spec : StructSpec := ⟨s.nextStruct, name, members, start.span.cover s.previous⟩
      have hid : spec.id = s.nextStruct := rfl
      exact (hs.next hid (List.subset_append_left _ _)).subset (by rw [StructSpec.specs]; grind)

theorem numbers_structBody (K : List StructSpec) : ∀ n,
    Numbers K (structBody n) specsOfMembers
  | 0 => .exhausted
  | n + 1 => by
    rw [structBody]
    have hgroup (K : List StructSpec) : Numbers K (do
        let base ← specifiers n
        let members ← separated (do
          let d ← declarator n base
          if ← atPunct .colon then unsupported "a bit-field"
          return StructMember.mk d.name d.ty d.span)
        let _ ← expect .semi
        return members) (·.flatMap fun m => m.ty.specs) := by
      refine (numbers_specifiers K n).bind fun base => (Numbers.separated fun K' hK' => ?_).bind
        fun ms => .skip (.expectKind _) fun _ => .pure (List.subset_append_left _ _)
      refine (numbers_declarator K' n (List.append_subset.mp hK').1).bind fun d =>
        .skip (.atKind _) fun _ => .guard (fun s => ⟨_, s, rfl⟩) (.pure ?_)
      exact List.subset_append_left _ _
    refine .skip (.expectKind _) fun _ => (Numbers.untilBrace hgroup).bind fun groups =>
      .skip (.expectKind _) fun _ => .pure ?_
    rw [specsOfMembers_eq, ← List.flatMap_id, List.flatMap_assoc]
    exact List.subset_append_left _ _

theorem numbers_declarator (K : List StructSpec) : ∀ n {base}, base.specs ⊆ K →
    Numbers K (declarator n base) (·.ty.specs)
  | 0, _, _ => .exhausted
  | n + 1, base, hbase => by
    rw [declarator]
    refine .chain ((numbers_pointers hbase).bind fun ty => .skip (.atKind _) fun _ =>
      .guard (fun s => ⟨_, s, rfl⟩) (.skip (.expectName _) fun x => ?_))
    exact (numbers_arraySuffix _ n (List.subset_append_left _ _)).bind fun ty =>
      .pure (List.subset_append_left _ _)

theorem numbers_arraySuffix (K : List StructSpec) : ∀ n {element}, element.specs ⊆ K →
    Numbers K (arraySuffix n element) TypeExpr.specs
  | 0, _, _ => .exhausted
  | n + 1, element, helement => by
    rw [arraySuffix]
    refine (Numbers.iterate (M := fun _ => element.specs) (fun acc => .skip (.atKind _) fun _ =>
      .ite ?_ (.pure (List.subset_append_left _ _))) helement).bind fun acc => .pure ?_
    · refine .skip .link fun _ => .skip .advance fun _ => Numbers.bind (L := fun _ => []) ?_ fun size =>
        .skip (.expectKind _) fun _ => .skip (.spanFrom _) fun _ => .pure (List.subset_append_left _ _)
      refine .skip (.atKind _) fun _ => .ite (.pure (List.nil_subset _)) ?_
      exact (numbers_conditional _ n).bind fun e => .skip (keeps_arraySizeOf e) fun _ =>
        .pure (List.nil_subset _)
    · rw [specs_wrapArrays]
      exact List.subset_append_left _ _

theorem numbers_typeName (K : List StructSpec) : ∀ n, Numbers K (typeName n) TypeExpr.specs
  | 0 => .exhausted
  | n + 1 => by
    rw [typeName]
    exact (numbers_specifiers K n).bind fun base => .chain
      ((numbers_pointers (List.subset_append_left _ _)).bind fun ty =>
        numbers_arraySuffix _ n (List.subset_append_left _ _))

theorem numbers_varDecls (K : List StructSpec) : ∀ n {first base start}, first.ty.specs ⊆ K →
    base.specs ⊆ K → Numbers K (varDecls n first base start) (·.script.specs)
  | 0, _, _, _, _, _ => .exhausted
  | n + 1, first, base, start, hfirst, hbase => by
    rw [varDecls]
    refine (Numbers.iterate (M := fun x : Array VarDecl × Declarator =>
      x.1.toList.flatMap (·.script.specs) ++ x.2.ty.specs) (fun x => ?_) hfirst).bind fun x =>
        .skip (.expectKind _) fun _ => .skip (.spanFrom _) fun _ => .pure ?_
    · refine Numbers.bind (L := fun init => (scriptOfInitializer? init).specs)
        (.skip (.accept _) fun _ => .ite ?_ ?_) fun init => .skip (.accept _) fun _ => ?_
      · refine (numbers_initializer _ n).bind fun i => .pure ?_
        rw [scriptOfInitializer?]
        exact List.subset_append_left _ _
      · refine .pure ?_
        rw [scriptOfInitializer?]
        exact List.nil_subset _
      have hpush : (VarDecl.mk x.2.name x.2.ty init x.2.span none).script.specs =
          x.2.ty.specs ++ (scriptOfInitializer? init).specs := by
        rw [VarDecl.script, Script.specs_written]
        rfl
      refine .ite ((numbers_declarator _ n ?_).bind fun d => .pure ?_) (.pure ?_)
      · exact fun _ hspec => List.mem_append_right _ (List.mem_append_right _ (hbase hspec))
      · rw [Array.toList_push, List.flatMap_append, List.flatMap_singleton, hpush]
        grind
      · rw [Array.toList_push, List.flatMap_append, List.flatMap_singleton, hpush]
        grind
    · rw [Declaration.script, DeclKind.script, specs_scriptOfVars]
      grind

theorem numbers_declaration (K : List StructSpec) : ∀ n, Numbers K (declaration n) (·.script.specs)
  | 0 => .exhausted
  | n + 1 => by
    rw [declaration]
    refine .skip .span fun start => (numbers_specifiers K n).bind fun base => .skip (.accept _)
      fun _ => .ite (.skip (.spanFrom _) fun span => ?_) ?_
    · split
      · rename_i spec heq
        refine .pure ?_
        obtain ⟨kind, qualifiers, span⟩ := base
        obtain rfl := heq
        rw [Declaration.script, DeclKind.script, Script.specs_written, TypeExpr.specs, TypeKind.specs,
          Script.specs_done, List.append_nil]
        exact List.subset_append_left _ _
      · exact .failAt _ _
    · exact (numbers_declarator _ n (List.subset_append_left _ _)).bind fun d => .skip (.atKind _)
        fun _ => .guard (fun s => ⟨_, s, rfl⟩) (numbers_varDecls _ n (List.subset_append_left _ _)
          (fun _ hspec => List.mem_append_right _ (List.mem_append_left _ hspec)))

theorem numbers_initializer (K : List StructSpec) : ∀ n, Numbers K (initializer n) (·.script.specs)
  | 0 => .exhausted
  | n + 1 => by
    rw [initializer]
    refine .skip (.atKind _) fun _ => .ite (.nested (numbers_initializerList K n)) ?_
    refine (numbers_assignment K n).bind fun e => .pure ?_
    rw [Initializer.script]
    exact List.subset_append_left _ _

theorem numbers_initializerList (K : List StructSpec) : ∀ n,
    Numbers K (initializerList n) (·.script.specs)
  | 0 => .exhausted
  | n + 1 => by
    rw [initializerList]
    refine .skip (.expectKind _) fun start => (Numbers.iterate
      (M := fun acc : Array Initializer => acc.toList.flatMap (·.script.specs)) (fun acc =>
        .skip (.atKind _) fun _ => .ite (.pure (List.subset_append_left _ _))
          (.skip (.atKind _) fun _ => .skip (.atKind _) fun _ => .guard (fun s => ⟨_, s, rfl⟩) ?_))
      (List.nil_subset _)).bind fun acc => .skip (.expectKind _) fun _ => .skip (.spanFrom _)
        fun _ => .pure ?_
    · refine (numbers_initializer _ n).bind fun i => .skip (.accept _) fun _ => .pure ?_
      rw [Array.toList_push, List.flatMap_append, List.flatMap_singleton]
      grind
    · rw [Initializer.script, specs_scriptOfInitializers]
      exact List.subset_append_left _ _

theorem numbers_statement (K : List StructSpec) : ∀ n, Numbers K (statement n) (·.script.specs)
  | 0 => .exhausted
  | n + 1 => by
    rw [statement]
    exact .nested (numbers_statementInner K n)

theorem numbers_statementInner (K : List StructSpec) : ∀ n,
    Numbers K (statementInner n) (·.script.specs)
  | 0 => .exhausted
  | n + 1 => by
    rw [statementInner]
    refine .skip .span fun start => .skip .kind fun k => ?_
    split
    · refine (numbers_block K n).bind fun b => .pure ?_
      rw [Stmt.script, StmtKind.script, Script.specs_scope, Script.specs_done, List.append_nil]
      exact List.subset_append_left _ _
    · exact numbers_ifStatement K n
    iterate 3 exact numbers_loopStatement K n
    iterate 2 exact numbers_jumpStatement (by rw [StmtKind.script]; rfl)
    · refine .skip .advance fun _ => (numbers_expressionUnless K n).bind fun value =>
        .skip (.expectKind _) fun _ => .skip (.spanFrom _) fun _ => .pure ?_
      rw [Stmt.script, StmtKind.script]
      exact List.subset_append_left _ _
    · refine .skip .advance fun _ => .pure ?_
      rw [Stmt.script, StmtKind.script]
      exact List.nil_subset _
    · exact .unsupported _
    · refine .ite (.failAt _ _) ((numbers_expression K n).bind fun e => .skip (.expectKind _)
        fun _ => .skip (.spanFrom _) fun _ => .pure ?_)
      rw [Stmt.script, StmtKind.script]
      exact List.subset_append_left _ _

theorem numbers_block (K : List StructSpec) : ∀ n, Numbers K (block n) (·.script.specs)
  | 0 => .exhausted
  | n + 1 => by
    rw [block]
    have hitem (K : List StructSpec) : Numbers K (do
        if (← kind).startsDeclaration then return BlockItem.declaration (← declaration n)
        else return BlockItem.statement (← statement n)) (·.script.specs) := by
      refine .skip .kind fun k => .ite ((numbers_declaration K n).bind fun d => .pure ?_)
        ((numbers_statement K n).bind fun s => .pure ?_)
      · rw [BlockItem.script]
        exact List.subset_append_left _ _
      · rw [BlockItem.script]
        exact List.subset_append_left _ _
    refine .skip .span fun start => .skip (.expectKind _) fun _ => (Numbers.untilBrace hitem).bind
      fun items => .skip (.expectKind _) fun _ => .skip (.spanFrom _) fun _ => .pure ?_
    rw [Block.script, specs_scriptOfItems]
    exact List.subset_append_left _ _

theorem numbers_parenthesized (K : List StructSpec) : ∀ n,
    Numbers K (parenthesized n) (·.script.specs)
  | 0 => .exhausted
  | n + 1 => by
    rw [parenthesized]
    exact .skip (.expectKind _) fun _ => (numbers_expression K n).bind fun e =>
      .skip (.expectKind _) fun _ => .pure (List.subset_append_left _ _)

theorem numbers_ifStatement (K : List StructSpec) : ∀ n, Numbers K (ifStatement n) (·.script.specs)
  | 0 => .exhausted
  | n + 1 => by
    rw [ifStatement]
    refine .skip (.expectKind _) fun start => (numbers_parenthesized K n).bind fun cond =>
      (numbers_statement _ n).bind fun yes => Numbers.bind (L := fun no => (scriptOfStmt? no).specs)
        (.skip (.acceptKeyword _) fun _ => .ite ?_ ?_) fun no => .skip (.spanFrom _) fun _ => .pure ?_
    · refine (numbers_statement _ n).bind fun s => .pure ?_
      rw [scriptOfStmt?]
      exact List.subset_append_left _ _
    · refine .pure ?_
      rw [scriptOfStmt?]
      exact List.nil_subset _
    · rw [Stmt.script, StmtKind.script, Script.specs_append, Script.specs_append]
      grind

theorem numbers_loopStatement (K : List StructSpec) : ∀ n,
    Numbers K (loopStatement n) (·.script.specs)
  | 0 => .exhausted
  | n + 1 => by
    rw [loopStatement]
    refine .skip .advance fun start => Numbers.bind (L := (·.script.specs)) ?_ fun kind =>
      .skip (.spanFrom _) fun _ => .pure ?_
    · split
      · refine (numbers_parenthesized K n).bind fun cond => (numbers_statement _ n).bind fun body =>
          .pure ?_
        simp only [StmtKind.script, LoopKind.testsFirst, if_true, scriptOfInit?, scriptOfExpr?,
          Script.append, Script.specs_scope, Script.specs_append, Script.specs_done]
        grind
      · refine (numbers_statement K n).bind fun body => .skip (.expectKind _) fun _ =>
          (numbers_parenthesized _ n).bind fun cond => .skip (.expectKind _) fun _ => .pure ?_
        simp only [StmtKind.script, LoopKind.testsFirst, Bool.false_eq_true, if_false, scriptOfInit?,
          scriptOfExpr?, Script.append, Script.append_done, Script.specs_scope, Script.specs_doWhile,
          Script.specs_done]
        grind
      · exact numbers_forClauses K n
    · rw [Stmt.script]
      exact List.subset_append_left _ _

theorem numbers_forClauses (K : List StructSpec) : ∀ n, Numbers K (forClauses n) (·.script.specs)
  | 0 => .exhausted
  | n + 1 => by
    rw [forClauses]
    refine .skip (.expectKind _) fun _ => Numbers.bind (L := fun init => (scriptOfInit? init).specs)
      ?_ fun init => (numbers_expressionUnless _ n).bind fun cond => .skip (.expectKind _) fun _ =>
        (numbers_expressionUnless _ n).bind fun update => .skip (.expectKind _) fun _ =>
          (numbers_statement _ n).bind fun body => .pure ?_
    · refine .skip (.accept _) fun _ => .ite (.pure ?_) (.skip .kind fun k => .ite ?_ ?_)
      · rw [scriptOfInit?]
        exact List.nil_subset _
      · refine (numbers_declaration K n).bind fun d => .pure ?_
        rw [scriptOfInit?, LoopInit.script]
        exact List.subset_append_left _ _
      · refine (numbers_expression K n).bind fun e => .skip (.expectKind _) fun _ => .pure ?_
        rw [scriptOfInit?, LoopInit.script]
        exact List.subset_append_left _ _
    · simp only [StmtKind.script, LoopKind.testsFirst, if_true, Script.specs_scope,
        Script.specs_append, Script.specs_done]
      grind

theorem numbers_expressionUnless (K : List StructSpec) : ∀ n {stop},
    Numbers K (expressionUnless n stop) fun e => (scriptOfExpr? e).specs
  | 0, _ => .exhausted
  | n + 1, stop => by
    rw [expressionUnless]
    refine .skip (.atKind _) fun _ => .ite (.pure ?_) ((numbers_expression K n).bind fun e => .pure ?_)
    · rw [scriptOfExpr?]
      exact List.nil_subset _
    · rw [scriptOfExpr?]
      exact List.subset_append_left _ _

theorem numbers_expression (K : List StructSpec) : ∀ n, Numbers K (expression n) (·.script.specs)
  | 0 => .exhausted
  | n + 1 => by
    rw [expression]
    refine (numbers_assignment K n).bind fun first => .skip (.accept _) fun _ => .ite ?_
      (.pure (List.subset_append_left _ _))
    refine (Numbers.separated fun K' _ => numbers_assignment K' n).bind fun more =>
      .skip (.spanFrom _) fun _ => .pure ?_
    rw [Expr.untyped, Expr.script, ExprKind.script, specs_scriptOfExprs, List.flatMap_cons]
    grind

theorem numbers_assignment (K : List StructSpec) : ∀ n, Numbers K (assignment n) (·.script.specs)
  | 0 => .exhausted
  | n + 1 => by
    rw [assignment]
    refine (numbers_conditional K n).bind fun left => .skip .kind fun k => ?_
    split
    · refine .skip .advance fun _ => (Numbers.nested (numbers_assignment _ n)).bind fun right =>
        .pure ?_
      rw [Expr.untyped, Expr.script, ExprKind.script, Script.specs_append]
      grind
    · exact .pure (List.subset_append_left _ _)

theorem numbers_conditional (K : List StructSpec) : ∀ n, Numbers K (conditional n) (·.script.specs)
  | 0 => .exhausted
  | n + 1 => by
    rw [conditional]
    refine (numbers_binary K n).bind fun cond => .skip (.accept _) fun _ => .ite ?_
      (.pure (List.subset_append_left _ _))
    refine (Numbers.nested (numbers_expression _ n)).bind fun yes => .skip (.expectKind _) fun _ =>
      (Numbers.nested (numbers_conditional _ n)).bind fun no => .pure ?_
    rw [Expr.untyped, Expr.script, ExprKind.script, Script.specs_append, Script.specs_append]
    grind

theorem numbers_binary (K : List StructSpec) : ∀ n {least}, Numbers K (binary n least) (·.script.specs)
  | 0, _ => .exhausted
  | n + 1, least => by
    rw [binary]
    refine .chain ((numbers_unary K n).bind fun first => .iterate (fun left => .skip .kind fun k => ?_)
      (List.subset_append_left _ _))
    split
    · refine .skip .link fun _ => .skip .advance fun _ => (numbers_binary _ n).bind fun right =>
        .pure ?_
      rw [Expr.untyped, Expr.script, ExprKind.script, Script.specs_append]
      grind
    · exact .pure (List.subset_append_left _ _)

theorem numbers_unary (K : List StructSpec) : ∀ n, Numbers K (unary n) (·.script.specs)
  | 0 => .exhausted
  | n + 1 => by
    rw [unary]
    exact .nested (numbers_unaryInner K n)

theorem numbers_unaryInner (K : List StructSpec) : ∀ n, Numbers K (unaryInner n) (·.script.specs)
  | 0 => .exhausted
  | n + 1 => by
    rw [unaryInner]
    refine .skip .span fun start => .skip (.atParenBefore _) fun isCast => .skip .kind fun k => ?_
    split
    · exact .skip .advance fun _ => numbers_unary K n
    iterate 2 exact numbers_sizeQuery K n
    · refine .ite ?_ ?_
      · refine .skip .advance fun _ => (numbers_typeName K n).bind fun ty => .skip (.expectKind _)
          fun _ => (numbers_unary _ n).bind fun operand => .pure ?_
        rw [Expr.untyped, Expr.script, ExprKind.script, Script.specs_written, Written.specs]
        grind
      · split
        · rename_i wrap hwrap
          refine .skip .advance fun _ => (numbers_unary K n).bind fun operand => .pure ?_
          rw [Expr.untyped, Expr.script, script_leadingOp? hwrap]
          exact List.subset_append_left _ _
        · exact numbers_suffixed K n

theorem numbers_sizeQuery (K : List StructSpec) : ∀ n {query start},
    Numbers K (sizeQuery n query start) (·.script.specs)
  | 0, _, _ => .exhausted
  | n + 1, query, start => by
    rw [sizeQuery]
    refine .skip .advance fun _ => .skip (.atParenBefore _) fun _ => .ite ?_ ?_
    · refine .skip .advance fun _ => (numbers_typeName K n).bind fun ty => .skip (.expectKind _)
        fun _ => .skip (.spanFrom _) fun _ => .pure ?_
      rw [Expr.untyped, Expr.script, ExprKind.script, Script.specs_written, Script.specs_done,
        List.append_nil]
      exact List.subset_append_left _ _
    · refine (numbers_unary K n).bind fun operand => .skip (.spanFrom _) fun _ => .pure ?_
      rw [Expr.untyped, Expr.script, ExprKind.script]
      exact List.subset_append_left _ _

theorem numbers_suffixed (K : List StructSpec) : ∀ n, Numbers K (suffixed n) (·.script.specs)
  | 0 => .exhausted
  | n + 1 => by
    rw [suffixed]
    refine .chain ((numbers_primary K n).bind fun first => .iterate (fun e => ?_)
      (List.subset_append_left _ _))
    refine (numbers_suffix _ n (List.subset_append_left _ _)).bind fun kind? => ?_
    cases kind? with
    | some kind =>
      refine .skip .link fun _ => .skip (.spanFrom _) fun _ => .pure ?_
      rw [Expr.untyped, Expr.script]
      exact List.subset_append_left _ _
    | none => exact .pure (fun _ h => List.mem_append_right _ (List.mem_append_left _ h))

theorem numbers_suffix (K : List StructSpec) : ∀ n {e}, e.script.specs ⊆ K →
    Numbers K (suffix n e) (·.elim [] (·.script.specs))
  | 0, _, _ => .exhausted
  | n + 1, e, he => by
    rw [suffix]
    refine .skip .kind fun k => ?_
    split
    · refine .skip .advance fun _ => (numbers_expression K n).bind fun index => .skip (.expectKind _)
        fun _ => .pure ?_
      rw [Option.elim_some, ExprKind.script, Script.specs_append]
      grind
    · refine .skip .advance fun _ => Numbers.bind (L := (·.flatMap (·.script.specs)))
        (.skip (.atKind _) fun _ => .ite (.pure (List.nil_subset _))
          (.separated fun K' _ => numbers_assignment K' n)) fun args => .skip (.expectKind _) fun _ =>
        .pure ?_
      rw [Option.elim_some, ExprKind.script, Script.specs_append, specs_scriptOfExprs]
      grind
    iterate 2
      refine .skip .advance fun _ => .skip (.expectName _) fun _ => .pure ?_
      rw [Option.elim_some, ExprKind.script]
      exact he
    iterate 2
      refine .skip .advance fun _ => .pure ?_
      rw [Option.elim_some, ExprKind.script]
      exact he
    · exact .pure (List.nil_subset _)

theorem numbers_primary (K : List StructSpec) : ∀ n, Numbers K (primary n) (·.script.specs)
  | 0 => .exhausted
  | n + 1 => by
    rw [primary]
    refine .skip .span fun start => .skip (.atParenBefore _) fun isBlock => .skip .kind fun k => ?_
    split
    · exact numbers_stringLiteral
    · refine .ite ?_ ?_
      · refine .skip .advance fun _ => (numbers_block K n).bind fun b => .skip (.expectKind _) fun _ =>
          .skip (.spanFrom _) fun _ => .pure ?_
        rw [Expr.untyped, Expr.script, ExprKind.script, Script.specs_scope, Script.specs_done,
          List.append_nil]
        exact List.subset_append_left _ _
      · refine (numbers_parenthesized K n).bind fun e => .skip (.spanFrom _) fun _ => .pure ?_
        obtain ⟨kind, span, ty⟩ := e
        rw [Expr.script, Expr.script]
        exact List.subset_append_left _ _
    iterate 2 exact .unsupported _
    · split
      · rename_i kind hkind
        exact numbers_leaf hkind
      · exact .failAt _ _

end

/-! File scope. -/

theorem numbers_parameter (K : List StructSpec) : Numbers K parameter (·.ty.specs) := by
  refine .skip .span fun start => (numbers_specifiers K allowance).bind fun base => Numbers.bind
    (L := (·.2.specs)) ?_ fun x => .skip (.spanFrom _) fun _ => .pure (List.subset_append_left _ _)
  refine .chain ((numbers_pointers (List.subset_append_left _ _)).bind fun ty => .skip
    (Keeps.kind.bind fun k => ?_) fun name =>
      (numbers_arraySuffix _ allowance (List.subset_append_left _ _)).bind fun ty =>
        .pure (List.subset_append_left _ _))
  split
  · exact .bind .advance fun _ => .pure _
  · exact .pure _

theorem numbers_parameters (K : List StructSpec) :
    Numbers K parameters (·.1.flatMap (·.ty.specs)) := by
  have hlist : Numbers K (do
      let x ← iterate (fun x => do
        if ← accept .ellipsis then return ((x.1, true), false)
        let p ← parameter
        return ((x.1.push p, false), ← accept .comma)) (#[], false)
      return (x.1.toList, x.2)) (·.1.flatMap (·.ty.specs)) := by
    refine (Numbers.iterate (M := fun x : Array ParamDecl × Bool =>
      x.1.toList.flatMap (·.ty.specs)) (fun x => .skip (.accept _) fun _ =>
        .ite (.pure (List.subset_append_left _ _)) ((numbers_parameter _).bind fun p =>
          .skip (.accept _) fun _ => .pure ?_)) (List.nil_subset _)).bind
      fun x => .pure (List.subset_append_left _ _)
    rw [Array.toList_push, List.flatMap_append, List.flatMap_singleton]
    grind
  refine .skip (.atKind _) fun _ => .ite (.pure (List.nil_subset _)) (.skip (.atKind _) fun _ =>
    .ite (.skip .peekKind fun _ => .ite (.skip .advance fun _ => .pure (List.nil_subset _)) hlist)
      hlist)

theorem numbers_functionRest {d : Declarator} {start : Span} (hd : d.ty.specs ⊆ K) :
    Numbers K (functionRest d start) (·.script.specs) := by
  refine .skip (.expectKind _) fun _ => (numbers_parameters K).bind fun x => .skip (.expectKind _)
    fun _ => Numbers.bind
      (L := fun body : Option Block => (body.elim .done fun b => .scope b.script .done : Script).specs)
      (.skip (.atKind _) fun _ => .ite ((numbers_block _ allowance).bind fun b => .pure ?_)
        (.skip (.expectKind _) fun _ => .pure (List.nil_subset _)))
      fun body => .skip (.spanFrom _) fun _ => .pure ?_
  · rw [Option.elim_some, Script.specs_scope, Script.specs_done, List.append_nil]
    exact List.subset_append_left _ _
  · rw [TopDecl.script, FuncDecl.script, Script.specs_written, Script.specs_append,
      specs_scriptOfParams, Written.specs]
    grind

theorem numbers_topDecl (K : List StructSpec) : Numbers K topDecl (·.script.specs) := by
  refine .skip .span fun start => (numbers_specifiers K allowance).bind fun base => .skip (.accept _)
    fun _ => .ite (.skip (.spanFrom _) fun span => ?_) ?_
  · split
    · rename_i spec heq
      refine .pure ?_
      obtain ⟨kind, qualifiers, span⟩ := base
      obtain rfl := heq
      rw [TopDecl.script, Declaration.script, DeclKind.script, Script.specs_written, TypeExpr.specs,
        TypeKind.specs, Script.specs_done, List.append_nil]
      exact List.subset_append_left _ _
    · exact .failAt _ _
  · refine (numbers_declarator _ allowance (List.subset_append_left _ _)).bind fun d =>
      .skip (.atKind _) fun _ => .ite (numbers_functionRest (List.subset_append_left _ _)) ?_
    refine (numbers_varDecls _ allowance (List.subset_append_left _ _) fun _ hspec =>
      List.mem_append_right _ (List.mem_append_left _ hspec)).bind fun decl => .pure ?_
    rw [TopDecl.script]
    exact List.subset_append_left _ _

theorem numbers_compilationUnit : Numbers [] compilationUnit (·.script.specs) := by
  refine (Numbers.iterate (M := fun acc : Array TopDecl => acc.toList.flatMap (·.script.specs))
    (fun acc => .skip (.atKind _) fun _ => .ite (.pure (List.subset_append_left _ _))
      ((numbers_topDecl _).bind fun d => .pure ?_)) (List.nil_subset _)).bind fun acc => .pure ?_
  · rw [Array.toList_push, List.flatMap_append, List.flatMap_singleton]
    grind
  · rw [CompilationUnit.script, specs_scriptOfDecls]
    exact List.subset_append_left _ _

end Parser

theorem numbered_of_parse {source : String} {u : CompilationUnit}
    (h : CompilationUnit.parse source = .ok u) : Numbered u.script.specs := by
  unfold CompilationUnit.parse at h
  split at h
  · cases h
  · rename_i s _
    have hnumbers := Parser.numbers_compilationUnit 0 s (.nil (Nat.zero_le _))
    split at h
    · rename_i hrun
      cases h
      rw [hrun] at hnumbers
      exact (hnumbers.subset (List.subset_append_left _ _)).numbered
    · cases h

end MiniC.Syntax
