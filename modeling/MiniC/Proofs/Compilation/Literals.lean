import MiniC.Proofs.Compilation.Accesses
import MiniC.Proofs.Compilation.Initial
import MiniC.Proofs.Machine.Loading
import MiniC.Proofs.Token.Literals
/-!
String literals in compiled code, from the source to the memory. Main statement: wherever a literal of an
accepted source is kept, as a text of the module or in an array that it initializes, there are its decoded
bytes as they are stored; these are the decoded bytes themselves exactly if all of them are below 128.
-/
namespace MiniC

open Bytes (ofText)
open Code (Function Label)
open Lowering (Agrees Inner Static.image slot? textLabel)
open Literal (stored textOf)
open Machine (Frame Loaded Routine nullGuard)
open Evaluation (Room)
open Simulation (Reached Setting Stand)
open Syntax (Adjacent CompilationUnit Demands Expr TopDecl VarDecl)
open Typing (Forms Initializes Node)

/-! Where texts come from. -/

namespace Lexer

/-- Strings of a source that are read one behind the other, up to something else, each with the bytes
that it decodes to. -/
def Spells (source : String) (bytes : List UInt8) : Prop :=
  ∃ ps : List (Token × List UInt8), ps ≠ [] ∧ (∀ p ∈ ps, Quotes source p.1 p.2) ∧
    bytes = ps.flatMap (·.2) ∧ ∃ before after, steps source = before ++ (ps.map (.ok ·.1) ++ after) ∧
      ∀ t rest text, after = .ok t :: rest → t.kind ≠ .string text

variable {source : String}

/-- Decoding gives each of several strings its bytes. -/
theorem exists_parts {parts : List (String × Span)}
    (h : ∀ part ∈ parts, Syntax.stringStep part ∈ steps source) :
    ∃ ps : List (Token × List UInt8), ps.map (.ok ·.1) = parts.map Syntax.stringStep ∧
      (∀ p ∈ ps, Quotes source p.1 p.2) ∧ String.join (parts.map (·.1)) = textOf (ps.flatMap (·.2)) := by
  induction parts with
  | nil => exact ⟨[], rfl, List.forall_mem_nil _, rfl⟩
  | cons part parts ih =>
    obtain ⟨hpart, hparts⟩ := List.forall_mem_cons.mp h
    obtain ⟨ps, hsteps, hquotes, htext⟩ := ih hparts
    obtain ⟨bytes, hbytes, hquote⟩ := exists_quotes hpart rfl
    refine ⟨(⟨.string part.1, part.2⟩, bytes) :: ps, ?_, List.forall_mem_cons.mpr ⟨hquote, hquotes⟩, ?_⟩
    · rw [List.map_cons, List.map_cons, hsteps]
      rfl
    · rw [List.map_cons, String.join_cons, htext, hbytes, Literal.textOf_append, List.flatMap_cons]

theorem spells_of_adjacent {parts : List (String × Span)} (h : Adjacent (steps source) parts) :
    ∃ bytes, Spells source bytes ∧ String.join (parts.map (·.1)) = textOf bytes := by
  obtain ⟨hne, before, after, heq, hafter⟩ := h
  have hmem : ∀ part ∈ parts, Syntax.stringStep part ∈ steps source := fun part hpart => by
    rw [heq]
    exact List.mem_append_right _ (List.mem_append_left _ (List.mem_map_of_mem hpart))
  obtain ⟨ps, hsteps, hquotes, htext⟩ := exists_parts hmem
  refine ⟨_, ⟨ps, ?_, hquotes, rfl, before, after, hsteps ▸ heq, ?_⟩, htext⟩
  · rintro rfl
    exact hne (List.map_eq_nil_iff.mp hsteps.symm)
  · rintro ⟨_, span⟩ rest text hrest rfl
    exact hafter (text, span) rest hrest

end Lexer

namespace Syntax

/-- A literal is spelled by strings of the source. -/
def spelledLiterals (source : String) : Demands where
  node e := ∀ text, e.kind = .string text → ∃ bytes, Lexer.Spells source bytes ∧ text = textOf bytes
  place _ := True
  read steps := steps = Lexer.steps source
  name _ := True

theorem sound_spelledLiterals (source : String) : (spelledLiterals source).Sound where
  node _ _ hjoins text hkind := by
    obtain ⟨steps, parts, rfl, hadjacent, rfl⟩ := hjoins text hkind
    exact Lexer.spells_of_adjacent hadjacent
  moved h _ := h
  cover _ _ := trivial

theorem tokens_spelledLiterals (source : String) : (spelledLiterals source).Tokens source where
  steps step _ := by
    cases step with
    | ok t => exact ⟨trivial, fun _ _ => trivial⟩
    | error e => trivial
  read := rfl
  stop := ⟨trivial, fun _ _ => trivial⟩

end Syntax

namespace Compilation

/-- Texts that are spelled in a source. -/
def spelledTexts (source : String) : Forms :=
  ⟨True, fun text => ∃ bytes, Lexer.Spells source bytes ∧ text = textOf bytes⟩

theorem spells_of_all {source : String} {ns : List Node} (h : (spelledTexts source).All ns)
    {e : Syntax.Expr} {text : String} (he : .expr e ∈ ns) (hkind : e.kind = .string text) :
    ∃ bytes, Lexer.Spells source bytes ∧ text = textOf bytes := by
  have hnode := h _ he
  unfold Forms.node Forms.kind at hnode
  simp only [hkind] at hnode
  exact hnode

/-- Every literal of a source is spelled in it. -/
theorem all_spelledTexts {source : String} {u : Syntax.CompilationUnit}
    (h : Syntax.CompilationUnit.parse source = .ok u) : (spelledTexts source).All (Node.ofUnit u) := by
  have hunit := (Syntax.CompilationUnit.meets_parse (Syntax.sound_spelledLiterals source)
    (Syntax.tokens_spelledLiterals source)).1 u h
  refine Typing.all_ofUnit (fun e he => ?_) hunit
  unfold Forms.kind
  split
  · trivial
  · trivial
  · trivial
  · exact he _ ‹_›
  · trivial

end Compilation

/-! What is loaded. -/

theorem Lowering.textLabel_injective : Function.Injective textLabel := by
  intro m n h
  have hlist := congrArg String.toList h
  simp only [textLabel, String.toList_append, List.append_cancel_left_eq] at hlist
  exact Nat.repr_injective (String.toList_injective hlist)

/-- The labels of texts are numbered. -/
theorem Lowering.nodup_labels {data : List Code.Datum}
    (h : ∀ n d, data[n]? = some d → d.label = textLabel n) : (data.map (·.label)).Nodup := by
  have hnumbered : data.map (·.label) = (List.range data.length).map textLabel := by
    refine List.ext_getElem? fun n => ?_
    rw [List.getElem?_map, List.getElem?_map]
    cases hd : data[n]? with
    | none => simpa using hd
    | some d =>
      have hlt := (List.getElem?_eq_some_iff.mp hd).1
      rw [List.getElem?_range hlt]
      exact congrArg some (h n d hd)
  rw [hnumbered]
  exact List.Nodup.map textLabel_injective List.nodup_range

section Loading

variable {layout : Layout.Config} {source : String} {u : CompilationUnit} {code : Code.Module}
  {limits : Machine.Limits} {l : Loaded}

/-- A global has room for its image, and a text for its bytes. -/
theorem Compilation.image_le_size {registry : Registry} {tree : CompilationUnit} (hc : registry.Consistent)
    (h : Lowering.lower registry tree = .ok code) :
    ∀ x ∈ Machine.contents code, x.2.1.length ≤ x.2.2 := by
  obtain ⟨hholds, -⟩ := Lowering.objects_of_lower h
  refine List.forall_mem_append.mpr ⟨List.forall_mem_map.mpr fun g hg => ?_,
    List.forall_mem_map.mpr fun d _ => Nat.le_succ _⟩
  obtain ⟨v, -, hv⟩ := Lowering.exists_of_forall₂ hholds.flip hg
  obtain ⟨t, ht⟩ := Option.isSome_iff_exists.mp hv.resolved
  cases hinit : v.init with
  | none =>
    rw [hv.blank hinit]
    exact Nat.zero_le _
  | some i =>
    obtain ⟨bytes, himage, hbytes⟩ := hv.image t i ht hinit
    rw [hbytes, hv.size t ht]
    exact (Lowering.Static.image_zero hc himage).1.le

/-- No two globals or texts have one name. -/
theorem Compilation.nodup_contents (hparse : CompilationUnit.parse source = .ok u)
    (herrors : (Typing.analyze layout u).errors = [])
    (h : Lowering.lower (Typing.analyze layout u).registry (Typing.analyze layout u).tree = .ok code) :
    ((Machine.contents code).map (·.1)).Nodup := by
  obtain ⟨hholds, htexts⟩ := Lowering.objects_of_lower h
  have hnames : code.globals.map (·.name) =
      (Typing.analyze layout u).tree.decls.flatMap TopDecl.globals := by
    have hsame : List.Forall₂ (· = ·) (code.globals.map (·.name))
        (((Typing.analyze layout u).tree.decls.flatMap TopDecl.variables).map (·.name)) := by
      rw [List.forall₂_map_left_iff, List.forall₂_map_right_iff]
      exact hholds.flip.imp fun _ _ h => h.name
    rw [List.forall₂_eq_eq_eq, List.map_flatMap] at hsame
    rw [hsame]
    exact congrArg (List.flatMap · _) (funext fun d => d.globals_eq.symm)
  have hcontents : (Machine.contents code).map (·.1) =
      code.globals.map (·.name) ++ code.data.map (·.label) := by
    simp [Machine.contents, Function.comp_def]
  rw [hcontents]
  refine List.nodup_append.mpr ⟨hnames ▸ Typing.nodup_globals_of_analyze herrors,
    Lowering.nodup_labels htexts, fun name hname label hlabel => ?_⟩
  rintro rfl
  obtain ⟨d, hd, rfl⟩ := List.mem_map.mp hlabel
  obtain ⟨n, hn⟩ := List.mem_iff_getElem?.mp hd
  rw [hnames, Typing.globals_analyze] at hname
  obtain ⟨d', hd', hmem⟩ := List.mem_flatMap.mp hname
  have hspelled := Syntax.spelled_of_parse hparse d' hd' _ hmem
  rw [htexts n d hn] at hspelled
  exact not_spelled_textLabel n hspelled

/-- What a module has is found in memory. -/
theorem Compilation.found (hparse : CompilationUnit.parse source = .ok u)
    (herrors : (Typing.analyze layout u).errors = [])
    (h : Lowering.lower (Typing.analyze layout u).registry (Typing.analyze layout u).tree = .ok code)
    (hload : Machine.load code limits = .ok l) :
    ∀ x ∈ Machine.contents code, ∃ start, l.address? x.1 = some (Int64.ofNat start) ∧
      l.state.memory.Holds start x.2.2 x.2.1 := by
  obtain ⟨G, hsound, -⟩ := Typing.judged_of_analyze herrors
  exact Machine.found_of_load hload (image_le_size hsound.consistent h)
    (nodup_contents hparse herrors h)

end Loading

/-! What becomes of a literal. -/

section Literals

variable {c : Lowering.Context} {s s' : Lowering.State} {text : String} {span : Span} {ty : TypeId}

/-- The code of a literal is its label. -/
theorem Lowering.text_of_expr {x : Lowering.Lowered}
    (h : Lowering.expr c ⟨.string text, span, some ty⟩ s = .ok (x, s')) :
    ∃ label, x = .value (.data label) ∧ ⟨label, text⟩ ∈ s'.data.toList := by
  rw [Lowering.expr, Lowering.exprKind] at h
  obtain ⟨label, t, htext, h⟩ := bind_eq_ok.mp h
  obtain ⟨rfl, rfl⟩ := pure_eq_ok.mp h
  cases htext
  refine ⟨_, rfl, ?_⟩
  rw [Array.toList_push]
  exact List.mem_append_right _ (List.mem_singleton_self _)

end Literals

/-- Clearing an object clears each byte of its scalars. -/
theorem Lowering.overlay_zeroed {r : Registry} (hc : r.Consistent) {memory : Array UInt8} {start o : Nat}
    (hmemory : start + r.sizeOf ty ≤ memory.size) (ho : r.IsLeaf ty o) :
    (Bytes.overlay memory start (zeroed r ty))[start + o]? = some 0 := by
  have hlt := lt_of_isLeaf hc ho
  have hsame : (Bytes.overlay memory start (zeroed r ty))[start + o]? =
      (Bytes.overlay (Array.replicate (r.sizeOf ty) 0) 0 (zeroed r ty))[0 + o]? :=
    Bytes.overlay_congr hmemory (by rw [Nat.zero_add, Array.size_replicate])
      (fun x hx => by have := inPart_zeroed hc x hx; omega) hlt (.inr (exists_mem_zeroed ho))
  rw [hsame]
  refine Bytes.overlay_zero (fun x hx => zero_of_mem_zeroed hx) ?_
  rw [Nat.zero_add, Array.getElem?_replicate, if_pos hlt]

/-- A name that is bound stands for its slot. -/
theorem Lowering.slot_of_bind {name : String} {slot t : Code.Temp}
    (h : Lowering.bind name slot s = .ok ((), s')) (ht : slot? s'.slots name = some t) : slot = t := by
  cases h
  simp only [slot?] at ht
  split at ht
  · cases ht
  · simpa using ht

namespace Simulation

/-- The machine at the code of a text that initializes an array stores the bytes of the text there. -/
theorem meets_text {p : Evaluation.Program} {code : Code.Module} {l : Loaded}
    (hlinked : Linked p code l.program) {g : Function} (hg : g ∈ code.functions) {returns : TypeId}
    {targets : Option (Label × Label)} {scopes : Evaluation.Scopes} {k : Evaluation.Counters}
    {s s' : Lowering.State} (hk : Agrees scopes k s) {target : Lowering.Place} {element : TypeId}
    {length : Nat} (hty : p.registry.ty target.ty = .array element length) {text : String} {span : Span}
    {ty : Option TypeId} (hroom : (ofText text).length ≤ length)
    (hrun : Lowering.initializer ⟨p.registry, returns, targets.map (·.1), targets.map (·.2)⟩ target
      (.expr ⟨.string text, span, ty⟩) s = .ok ((), s')) (hstand : Stand code g s') {f : Frame}
    {m : Machine.State} (hreached : Reached g s f) {base : Int64} {start : Nat}
    (hbase : Machine.value l.program f target.base = .ok base) (hbelow : target.base.Below s.temps)
    (hstart : base + target.offset = Int64.ofNat start) (hfits : Room m.memory start length) :
    ∃ f' m', Machine.Leads l.program m.steps (Routine.ofFunction g) f m f' m' ∧
      f'.pc = s'.code.size ∧
      m'.memory = ⟨Bytes.overlay m.memory.bytes start (Bytes.spread 0 (ofText text))⟩ := by
  let M := Setting.ofFunction p code l g 0 m
  rw [Lowering.initializer] at hrun
  simp only [hty, List.take_of_length_le hroom] at hrun
  have hgrows : Lowering.Extends id s s' :=
    Lowering.Grows.extends_of (Lowering.grows_storeBytes _ _) hrun
  have hat := hreached.at code l (p := p) hk (hgrows.code.trans hstand.code) 0 m
  have hlocates : Locates M s.temps target (Int64.ofNat start) f := ⟨base, ⟨hbase, hbelow⟩, hstart⟩
  have hmeets : Meets M targets s.temps f m (M.store f m) _ _ :=
    meets_storeBytes hrun (hlinked.hosts hg hstand 0 m) hat hlocates
  have hspace : Room (M.store f m).memory start length := hfits
  have hstores := hspace.storeBytes ((Nat.zero_add _).trans_le hroom)
  rw [Nat.add_zero] at hstores
  rw [hstores] at hmeets
  obtain ⟨f', m', hgoes, hpc, -⟩ := hmeets
  exact ⟨f', m', hgoes.leads, hpc, hgoes.stands.memory⟩

/-- The machine at the declaration of a local whose initializer may leave something out clears the scalars
of the local before it comes to the initializer, unless the stack is full. -/
theorem meets_cleared {p : Evaluation.Program} {code : Code.Module} {l : Loaded}
    (hlinked : Linked p code l.program) (hc : p.registry.Consistent) {g : Function}
    (hg : g ∈ code.functions) {returns : TypeId} {targets : Option (Label × Label)}
    {scopes : Evaluation.Scopes} {k : Evaluation.Counters} {s s' : Lowering.State} (hk : Agrees scopes k s)
    {name : String} {type : Syntax.TypeExpr} {span : Span} {ty : TypeId} {i : Syntax.Initializer}
    (hzeros : Lowering.needsZeros p.registry ty i = true)
    (hrun : Lowering.localVar ⟨p.registry, returns, targets.map (·.1), targets.map (·.2)⟩
      ⟨name, type, some i, span, some ty⟩ s = .ok ((), s')) (hstand : Stand code g s')
    {t : Code.Temp} (ht : slot? s'.slots name = some t) {f : Frame} {m : Machine.State}
    (hreached : Reached g s f) (hstack : nullGuard ≤ m.stack)
    (hwords : m.memory.size ≤ Layout.maxObjectSize)
    (hslot : ∀ address, f.slots.getD t none = some address →
      ∃ start, address = Int64.ofNat start ∧ Room m.memory start (p.registry.sizeOf ty)) :
    ∃ s₁, Lowering.initializer ⟨p.registry, returns, targets.map (·.1), targets.map (·.2)⟩
        ⟨.temp t, 0, ty⟩ i s₁ = .ok ((), s') ∧
      ((∃ f₁ m₁ start, Machine.Leads l.program m.steps (Routine.ofFunction g) f m f₁ m₁ ∧
          f₁.pc = s₁.code.size ∧ f₁.slots.getD t none = some (Int64.ofNat start) ∧
          ∀ o, p.registry.IsLeaf ty o → m₁.memory.bytes[start + o]? = some 0) ∨
        ∃ u, Machine.Finishes l.program Machine.anything (Routine.ofFunction g) f m
          (.error (.stackOverflow (p.registry.sizeOf ty))) u) := by
  let M := Setting.ofFunction p code l g 0 m
  rw [Lowering.localVar] at hrun
  simp only [Lowering.need, pure_bind, hzeros, if_true] at hrun
  obtain ⟨slot, a, hallocate, hrun⟩ := Lowering.bind_eq_ok.mp hrun
  obtain ⟨⟨⟩, b, hbind, hrun⟩ := Lowering.bind_eq_ok.mp hrun
  obtain ⟨⟨⟩, s₁, hzero, hinit⟩ := Lowering.bind_eq_ok.mp hrun
  have hgrows := Lowering.Grows.extends_of (Lowering.grows_initializer _ _ _) hinit
  have hslots₁ : s'.slots = s₁.slots := hgrows.slots
  have hslots : s'.slots = b.slots :=
    hslots₁.trans (Lowering.Grows.extends_of (Lowering.grows_zero _ _) hzero).slots
  obtain rfl : slot = t := Lowering.slot_of_bind hbind (hslots ▸ ht)
  have hstand₁ : Stand code g s₁ := ⟨hgrows.code.trans hstand.code,
    Nat.le_trans hgrows.temps hstand.temps, hgrows.data.trans hstand.data⟩
  have hzeroing (slot : Code.Temp) (scopes' : Evaluation.Scopes) :
      RunsFilling M targets scopes' ⟨.temp slot, 0, ty⟩ (Lowering.Place.zero p.registry ⟨.temp slot, 0, ty⟩)
        (return Evaluation.zero p.registry ty) := runs_zero p.registry ⟨.temp slot, 0, ty⟩
  have hprefix : (do
      let slot ← Lowering.allocate p.registry ty
      Lowering.bind name slot
      Lowering.Place.zero p.registry ⟨.temp slot, 0, ty⟩ : Lowering.Lower Unit) s = .ok ((), s₁) :=
    Lowering.bind_eq_ok.mpr ⟨_, a, hallocate, Lowering.bind_eq_ok.mpr ⟨(), b, hbind, hzero⟩⟩
  have hdeclares := runs_local p.registry hzeroing hprefix hk
  have hat := hreached.at code l (p := p) hk (hdeclares.grows.code.trans hstand₁.code) 0 m
  have hmeets := hdeclares.meets (hlinked.hosts hg hstand₁ 0 m) hat
  have hnumber : M.slots[k.locals]? = some slot :=
    Lowering.getElem?_of_prefix (hstand₁.code.filterMap _)
      (slot_of_declare hdeclares.agrees (hslots₁ ▸ ht))
  replace hmeets : Meets M targets s.temps f m (M.store f m) _ (EStateM.bind
      (Evaluation.reside k.locals (p.registry.sizeOf ty) (p.registry.alignOf ty))
      (Evaluation.zero p.registry ty) (M.store f m)) := hmeets
  unfold EStateM.bind at hmeets
  have htenable : Evaluation.Tenable (M.store f m) k.locals (p.registry.sizeOf ty) := by
    refine ⟨hstack, hwords, fun address haddress => hslot address ?_⟩
    simpa [Setting.store, hnumber] using haddress
  refine ⟨s₁, hinit, ?_⟩
  rcases Evaluation.reside_cases htenable with ⟨start, st', hreside, hmemory, hhome, hroom⟩ | hfull
  · have hcleared : Evaluation.zero p.registry ty (Int64.ofNat start) st' =
        .ok () (st'.fill start (Lowering.zeroed p.registry ty)) :=
      Room.zeroMoves (hmemory ▸ hroom) fun move hmove => hc.move_inside ty hmove
    rw [hreside] at hmeets
    replace hmeets : Meets _ _ _ _ _ _ _ (Evaluation.zero p.registry ty (Int64.ofNat start) st') := hmeets
    rw [hcleared] at hmeets
    obtain ⟨f', m', hgoes, hpc, -⟩ := hmeets
    refine .inl ⟨f', m', start, hgoes.leads, hpc, ?_, fun o ho => ?_⟩
    · rw [hgoes.stands.homes k.locals slot hnumber]
      exact hhome
    · rw [hgoes.stands.memory]
      exact Lowering.overlay_zeroed hc (by rw [hmemory]; exact hroom.fits) ho
  · rw [hfull] at hmeets
    obtain ⟨u, hfinishes, -⟩ := hmeets
    exact .inr ⟨u, hfinishes⟩

end Simulation

theorem Typing.bind_run {α β : Type} (c : Typing.Analysis α) (k : α → Typing.Analysis β)
    (s : Typing.State) : (c >>= k) s = k (c s).1 (c s).2 := rfl

/-- In every state of the analysis, a text gets the type of an array that holds its bytes, as they are
stored, and one more. -/
theorem Typing.type_of_text {s s' : Typing.State} {text : String} {span : Span} {ty : Option TypeId}
    {e : Expr} {t : TypeId} (hc : s.registry.Consistent)
    (h : Typing.expr ⟨.string text, span, ty⟩ s = ((e, .ok t), s')) :
    s'.registry.ty t = .array Registry.cChar ((ofText text).length + 1) := by
  have hchar : s.registry.isInteger Registry.cChar = true := Typing.isInteger_int hc (by decide)
  rw [Typing.expr, Typing.exprKind, Typing.typed, Typing.bind_run, Typing.Check.arrayOf,
    Typing.outcome_intern] at h
  cases hentered : s.registry.arrayOf Registry.cChar (text.utf8ByteSize + 1) with
  | error _ =>
    rw [hentered] at h
    cases h
  | ok y =>
    rw [hentered] at h
    cases h
    have hformed : s.registry.Formed (.array Registry.cChar (text.utf8ByteSize + 1)) :=
      Registry.valid_of_isInteger hchar
    obtain ⟨hconsistent, -, hfound⟩ := hc.intern hformed hentered
    rw [Bytes.length_ofText]
    exact ((hconsistent.lookup _ _).mp hfound).2

/-- Among the texts for an array of bytes, the analysis calls too long those that have more bytes than the
array, as they are stored. -/
theorem Typing.tooLong_iff {s : Typing.State} {t element : TypeId} {length : Nat} (isGlobal : Bool)
    {text : String} {span : Span} {ty : Option TypeId} (hty : s.registry.ty t = .array element length)
    (hsize : s.registry.sizeOf element = 1) (hinteger : s.registry.isInteger element = true) :
    (Typing.initialValue t isGlobal ⟨.string text, span, ty⟩ s).1.2 =
      .error (.type .stringTooLong span) ↔ length < (ofText text).length := by
  have hcheck : Typing.outcome (Typing.checkStringInit element length text span) s =
      (if length < text.utf8ByteSize then .error (.type .stringTooLong span) else .ok (), s) := by
    unfold Typing.checkStringInit
    rw [Typing.outcome_registry_bind]
    simp only [hsize, hinteger, bne_self_eq_false, Bool.not_true, Bool.or_self, Bool.false_eq_true,
      if_false]
    split <;> rfl
  have hget {α : Type} (k : Typing.State → Typing.Analysis α) : (get >>= k) s = k s s := rfl
  rw [Bytes.length_ofText, Typing.initialValue, hget]
  simp only [hty]
  rw [Typing.bind_run, hcheck]
  by_cases hlong : length < text.utf8ByteSize
  · simp only [hlong, if_true]
    exact iff_of_true rfl trivial
  · simp only [hlong, if_false, iff_false]
    rw [Typing.bind_run, Typing.exprKind]
    unfold Typing.typed
    rw [Typing.bind_run]
    unfold Typing.Check.arrayOf
    rw [Typing.outcome_intern]
    cases s.registry.arrayOf Registry.cChar (text.utf8ByteSize + 1) with
    | ok y =>
      intro h
      cases h
    | error e =>
      intro h
      cases h

namespace Simulation

/-- A function is at the beginning of the code between two states of lowering. -/
structure AtCode (code : Code.Module) (g : Function) (s s' : Lowering.State) (f : Frame) : Prop where
  member : g ∈ code.functions
  agrees : ∃ scopes k, Agrees scopes k s
  stand : Stand code g s'
  reached : Reached g s f

/-- The stack lies above the null guard, and the storage that a slot may have has room for a local. -/
structure Houses (m : Machine.State) (f : Frame) (slot : Code.Temp) (size : Nat) : Prop where
  stack : nullGuard ≤ m.stack
  words : m.memory.size ≤ Layout.maxObjectSize
  home : ∀ address, f.slots.getD slot none = some address →
    ∃ start, address = Int64.ofNat start ∧ Room m.memory start size

end Simulation

namespace Compilation

/-- A literal initializes an array of `length` elements, at `offset` in the variable `v` of type `t`. -/
structure Supplies (tree : CompilationUnit) (r : Registry) (e : Expr) (v : VarDecl)
    (i : Syntax.Initializer) (t array : TypeId) (offset length : Nat) : Prop where
  var : .var v ∈ Node.ofUnit tree
  init : v.init = some i
  resolved : v.resolved = some t
  inner : Inner r t 0 i array offset (.expr e)
  array : ∃ element, r.ty array = .array element length

/-- What a literal that is stored as `data` stands for in a loaded program. -/
structure Keeps (tree : CompilationUnit) (r : Registry) (code : Code.Module) (l : Loaded) (e : Expr)
    (data : List UInt8) : Prop where
  type : ∃ t, e.ty = some t ∧ r.ty t = .array Registry.cChar (data.length + 1)
  /-- As a value it is the address of the bytes and a zero. -/
  value : ∀ c s x s', Lowering.expr c e s = .ok (x, s') → s'.data.toList <+: code.data →
    ∃ label start, x = .value (.data label) ∧ l.address? label = some (Int64.ofNat start) ∧
      l.state.memory.Holds start (data.length + 1) data
  /-- It has as many elements as it needs, and one more, where the length was left out. -/
  room : ∀ {v i t array offset length}, Supplies tree r e v i t array offset length →
    data.length ≤ length ∧
      ∀ element, i = .expr e → v.ty.kind = .array element none → length = data.length + 1
  global : ∀ {v i t array offset length}, Supplies tree r e v i t array offset length →
    ∀ vs span, .declaration ⟨.vars vs, span⟩ ∈ tree.decls → v ∈ vs →
      ∃ start, l.address? v.name = some (Int64.ofNat start) ∧
        l.state.memory.Holds (start + offset) length data
  /-- Whatever else initializes a local, the array in it is cleared first. -/
  cleared : ∀ {v i t array offset length}, Supplies tree r e v i t array offset length →
    ∀ returns (targets : Option (Label × Label)) g s s' slot f m,
      Lowering.localVar ⟨r, returns, targets.map (·.1), targets.map (·.2)⟩ v s = .ok ((), s') →
      slot? s'.slots v.name = some slot → Simulation.AtCode code g s s' f →
      Simulation.Houses m f slot (r.sizeOf t) →
      ∃ s₁, Lowering.initializer ⟨r, returns, targets.map (·.1), targets.map (·.2)⟩
          ⟨.temp slot, 0, t⟩ i s₁ = .ok ((), s') ∧
        ((∃ f₁ m₁ start, Machine.Leads l.program m.steps (Routine.ofFunction g) f m f₁ m₁ ∧
            f₁.pc = s₁.code.size ∧ f₁.slots.getD slot none = some (Int64.ofNat start) ∧
            m₁.memory.Holds (start + offset) length []) ∨
          ∃ u, Machine.Finishes l.program Machine.anything (Routine.ofFunction g) f m
            (.error (.stackOverflow (r.sizeOf t))) u)
  /-- Its code stores the bytes in the array and changes nothing else. -/
  stored : ∀ {v i t array offset length}, Supplies tree r e v i t array offset length →
    ∀ returns (targets : Option (Label × Label)) g s s' (target : Lowering.Place) f m base start,
      target.ty = array →
      Lowering.initializer ⟨r, returns, targets.map (·.1), targets.map (·.2)⟩ target (.expr e) s =
        .ok ((), s') → Simulation.AtCode code g s s' f →
      Machine.value l.program f target.base = .ok base → target.base.Below s.temps →
      base + target.offset = Int64.ofNat start → Room m.memory start length →
      ∃ f' m', Machine.Leads l.program m.steps (Routine.ofFunction g) f m f' m' ∧
        f'.pc = s'.code.size ∧
        (∀ j < data.length, m'.memory.bytes[start + j]? = data[j]?) ∧
        ∀ o, o < start ∨ start + data.length ≤ o → m'.memory.bytes[o]? = m.memory.bytes[o]?
  /-- So the array holds the bytes and zeros, if the literal is all that initializes the local, or one of
  several literals that have an image. -/
  «local» : ∀ {v i t array offset length}, Supplies tree r e v i t array offset length →
    i = .expr e ∨ i.isLiteral = true ∧ (∃ image, Static.image r t i = .ok image) →
    ∀ returns (targets : Option (Label × Label)) g s s' slot f m,
      Lowering.localVar ⟨r, returns, targets.map (·.1), targets.map (·.2)⟩ v s = .ok ((), s') →
      slot? s'.slots v.name = some slot → Simulation.AtCode code g s s' f →
      Simulation.Houses m f slot (r.sizeOf t) →
      (∃ f' m' start, Machine.Leads l.program m.steps (Routine.ofFunction g) f m f' m' ∧
        f'.pc = s'.code.size ∧ f'.slots.getD slot none = some (Int64.ofNat start) ∧
        m'.memory.Holds (start + offset) length data) ∨
      ∃ u, Machine.Finishes l.program Machine.anything (Routine.ofFunction g) f m
        (.error (.stackOverflow (r.sizeOf t))) u

/-! What is kept of a literal. -/

open Simulation (Houses Linked AtCode)

section Supplied

variable {tree : CompilationUnit} {r : Registry} {G : List Symbol} {code : Code.Module} {l : Loaded}
  {e : Expr} {text : String} {v : VarDecl} {i : Syntax.Initializer} {t array : TypeId} {offset length : Nat}

/-- What is known of a text that initializes an array of a variable: the array is one of bytes, has room
for the text and lies in the variable. -/
structure Fitted (r : Registry) (t array : TypeId) (offset length : Nat) (text : String)
    (element : TypeId) : Prop where
  array : r.ty array = .array element length
  byte : r.sizeOf element = 1
  integer : r.isInteger element = true
  room : (ofText text).length ≤ length
  stop : offset + length ≤ r.sizeOf t
  leaf : ∀ j < length, r.IsLeaf t (offset + j)

theorem Supplies.initializes (hunit : Typing.IsUnit ⟨r, G⟩ tree)
    (h : Supplies tree r e v i t array offset length) : ∃ C, Initializes ⟨r, G⟩ C t i := by
  obtain ⟨C, t', ht, -, hinit⟩ := Typing.sensible_unit hunit _ h.var
  obtain rfl : t = t' := Option.some.inj (h.resolved.symm.trans ht)
  rw [h.init] at hinit
  cases hinit with
  | some hinit => exact ⟨C, hinit⟩

theorem Supplies.fitted (hc : r.Consistent) (hunit : Typing.IsUnit ⟨r, G⟩ tree)
    (h : Supplies tree r e v i t array offset length) (hkind : e.kind = .string text) :
    ∃ element, Fitted r t array offset length text element := by
  obtain ⟨C, hinit⟩ := h.initializes hunit
  obtain ⟨hinner, henclosed⟩ := h.inner.enclosed hc hinit
  obtain ⟨element, hty⟩ := h.array
  obtain ⟨kind, span, ty⟩ := e
  obtain rfl : kind = .string text := hkind
  obtain ⟨hbyte, hinteger, hroom⟩ := Lowering.room_of_text hty hinner
  have hstop := henclosed.stop
  rw [(hc.size_array hty).1, hbyte, Nat.one_mul, Nat.zero_add] at hstop
  refine ⟨element, hty, hbyte, hinteger, hroom, hstop, fun j hj => ?_⟩
  exact henclosed.leaf j (Lowering.isLeaf_bytes hc hty hbyte hinteger hj)

/-- An array that a text initializes is cleared before. -/
theorem Supplies.needsZeros (h : Supplies tree r e v i t array offset length) :
    Lowering.needsZeros r t i = true := by
  obtain ⟨element, hty⟩ := h.array
  have hinner := h.inner
  cases hinner with
  | self => simp [Lowering.needsZeros, Registry.isArray, hty]
  | item => rfl

theorem Supplies.image (hc : r.Consistent) (hunit : Typing.IsUnit ⟨r, G⟩ tree)
    (h : Supplies tree r e v i t array offset length) (hkind : e.kind = .string text) {image : List UInt8}
    (himage : Static.image r t i = .ok image) :
    ∀ j < length, image[offset + j]? = some ((ofText text).getD j 0) := by
  obtain ⟨C, hinit⟩ := h.initializes hunit
  obtain ⟨element, hty⟩ := h.array
  obtain ⟨kind, span, ty⟩ := e
  obtain rfl : kind = .string text := hkind
  exact fun j hj => Lowering.Static.image_text hc himage h.inner hinit hty hj

/-- A text by itself is an initializer that has an image. -/
theorem Supplies.whole (h : Supplies tree r e v i t array offset length) (hkind : e.kind = .string text)
    (hi : i = .expr e) : i.isLiteral = true ∧ ∃ image, Static.image r t i = .ok image := by
  obtain ⟨element, hty⟩ := h.array
  subst hi
  have hinner := h.inner
  cases hinner with
  | self =>
    refine ⟨by rw [Syntax.Initializer.isLiteral, hkind]; rfl, ?_⟩
    rw [Static.image, Lowering.Static.fill, Lowering.Static.single, hty, hkind]
    exact ⟨_, rfl⟩

/-- Where the length of an array is left out, its text has room and one element more. -/
theorem Supplies.length_eq (hunit : Typing.IsUnit ⟨r, G⟩ tree)
    (h : Supplies tree r e v i t array offset length) (hkind : e.kind = .string text) (hi : i = .expr e)
    {element : Syntax.TypeExpr} (hv : v.ty.kind = .array element none) :
    length = (ofText text).length + 1 := by
  obtain ⟨C, t', ht, hcounted, -⟩ := Typing.sensible_unit hunit _ h.var
  obtain rfl : t = t' := Option.some.inj (h.resolved.symm.trans ht)
  obtain ⟨u, n, hn, hty⟩ := hcounted element hv
  obtain ⟨kind, span, ty⟩ := e
  obtain rfl : kind = .string text := hkind
  subst hi
  obtain ⟨element', hty'⟩ := h.array
  have hinner := h.inner
  cases hinner with
  | self =>
    rw [h.init] at hn
    obtain ⟨-, rfl⟩ := Ty.array.inj (hty.symm.trans hty')
    rw [Bytes.length_ofText]
    exact (Option.some.inj hn).symm

end Supplied

section Kept

variable {p : Evaluation.Program} {code : Code.Module} {l : Loaded} {G : List Symbol} {e : Expr}
  {text : String} {v : VarDecl} {i : Syntax.Initializer} {t array : TypeId} {offset length : Nat}
  {returns : TypeId} {targets : Option (Label × Label)} {g : Code.Function} {s s' : Lowering.State}
  {f : Machine.Frame} {m : Machine.State}

/-- A literal is an array of its bytes, as they are stored, and one more. -/
theorem type_of_literal (hunit : Typing.IsUnit ⟨p.registry, G⟩ p.unit) (he : .expr e ∈ Node.ofUnit p.unit)
    (hkind : e.kind = .string text) :
    ∃ t, e.ty = some t ∧ p.registry.ty t = .array Registry.cChar ((ofText text).length + 1) := by
  obtain ⟨C, t, htype⟩ := Typing.sensible_unit hunit _ he
  have hty := htype.ty_eq
  obtain ⟨kind, span, ty⟩ := e
  obtain rfl : kind = .string text := hkind
  cases htype with
  | string harray => exact ⟨t, hty, by rw [Bytes.length_ofText]; exact harray⟩

/-- The address of a text of the module is that of its bytes and a zero. -/
theorem value_of_literal
    (hfound : ∀ x ∈ Machine.contents code, ∃ start, l.address? x.1 = some (Int64.ofNat start) ∧
      l.state.memory.Holds start x.2.2 x.2.1)
    (hkind : e.kind = .string text) (hty : e.ty = some t) {c : Lowering.Context} {x : Lowering.Lowered}
    (hrun : Lowering.expr c e s = .ok (x, s')) (hdata : s'.data.toList <+: code.data) :
    ∃ label start, x = .value (.data label) ∧ l.address? label = some (Int64.ofNat start) ∧
      l.state.memory.Holds start ((ofText text).length + 1) (ofText text) := by
  obtain ⟨kind, span, ty⟩ := e
  obtain rfl : kind = .string text := hkind
  obtain rfl : ty = some t := hty
  obtain ⟨label, rfl, hmem⟩ := Lowering.text_of_expr hrun
  obtain ⟨start, haddress, hholds⟩ :=
    hfound _ (List.mem_append_right _ (List.mem_map_of_mem (hdata.subset hmem)))
  exact ⟨label, start, rfl, haddress, hholds⟩

variable (hlinked : Linked p code l.program) (hc : p.registry.Consistent)
  (hunit : Typing.IsUnit ⟨p.registry, G⟩ p.unit) (hkind : e.kind = .string text)
  (h : Supplies p.unit p.registry e v i t array offset length)

include hlinked hc hunit hkind h

/-- A global has a text in the array that the text initializes, and zeros behind it. -/
theorem global_of_literal
    (hfound : ∀ x ∈ Machine.contents code, ∃ start, l.address? x.1 = some (Int64.ofNat start) ∧
      l.state.memory.Holds start x.2.2 x.2.1)
    {vs : List VarDecl} {span : Span} (hd : .declaration ⟨.vars vs, span⟩ ∈ p.unit.decls) (hv : v ∈ vs) :
    ∃ start, l.address? v.name = some (Int64.ofNat start) ∧
      l.state.memory.Holds (start + offset) length (ofText text) := by
  obtain ⟨hglobals, -⟩ := Lowering.objects_of_lower hlinked.lowered
  have hvariable : v ∈ p.unit.decls.flatMap Syntax.TopDecl.variables := List.mem_flatMap.mpr ⟨_, hd, hv⟩
  obtain ⟨g, hg, hholds⟩ := Lowering.exists_of_forall₂ hglobals hvariable
  obtain ⟨image, himage, hbytes⟩ := hholds.image t i h.resolved h.init
  obtain ⟨start, haddress, hmemory⟩ := hfound _ (List.mem_append_left _ (List.mem_map_of_mem hg))
  rw [hbytes, hholds.size t h.resolved] at hmemory
  obtain ⟨element, hfitted⟩ := h.fitted hc hunit hkind
  refine ⟨start, hholds.name ▸ haddress, fun j hj => ?_⟩
  have hplace := h.image hc hunit hkind himage j hj
  have hbyte := hmemory (offset + j) (Nat.lt_of_lt_of_le (Nat.add_lt_add_left hj _) hfitted.stop)
  rw [Nat.add_assoc, hbyte, Option.getD_some, List.getD_eq_getElem?_getD, hplace, Option.getD_some]

/-- A local is cleared before its initializer runs, so the array that a text initializes is. -/
theorem cleared_of_literal {slot : Code.Temp}
    (hrun : Lowering.localVar ⟨p.registry, returns, targets.map (·.1), targets.map (·.2)⟩ v s =
      .ok ((), s'))
    (hslot : slot? s'.slots v.name = some slot) (hat : AtCode code g s s' f)
    (hhouses : Houses m f slot (p.registry.sizeOf t)) :
    ∃ s₁, Lowering.initializer ⟨p.registry, returns, targets.map (·.1), targets.map (·.2)⟩
        ⟨.temp slot, 0, t⟩ i s₁ = .ok ((), s') ∧
      ((∃ f₁ m₁ start, Machine.Leads l.program m.steps (Routine.ofFunction g) f m f₁ m₁ ∧
          f₁.pc = s₁.code.size ∧ f₁.slots.getD slot none = some (Int64.ofNat start) ∧
          m₁.memory.Holds (start + offset) length []) ∨
        ∃ u, Machine.Finishes l.program Machine.anything (Routine.ofFunction g) f m
          (.error (.stackOverflow (p.registry.sizeOf t))) u) := by
  obtain ⟨element, hfitted⟩ := h.fitted hc hunit hkind
  obtain ⟨name, type, init, span, resolved⟩ := v
  obtain rfl : init = some i := h.init
  obtain rfl : resolved = some t := h.resolved
  obtain ⟨scopes, k, hk⟩ := hat.agrees
  obtain ⟨s₁, hinit, hcleared⟩ := Simulation.meets_cleared hlinked hc hat.member hk h.needsZeros hrun
    hat.stand hslot hat.reached hhouses.stack hhouses.words hhouses.home
  refine ⟨s₁, hinit, hcleared.imp_left ?_⟩
  rintro ⟨f₁, m₁, start, hleads, hpc, hhome, hzero⟩
  refine ⟨f₁, m₁, start, hleads, hpc, hhome, fun j hj => ?_⟩
  rw [Nat.add_assoc]
  exact hzero _ (hfitted.leaf j hj)

/-- The code of a text that initializes an array stores the bytes of the text and nothing else. -/
theorem stored_of_literal {target : Lowering.Place} {base : Int64} {start : Nat}
    (htarget : target.ty = array)
    (hrun : Lowering.initializer ⟨p.registry, returns, targets.map (·.1), targets.map (·.2)⟩ target
      (.expr e) s = .ok ((), s'))
    (hat : AtCode code g s s' f) (hbase : Machine.value l.program f target.base = .ok base)
    (hbelow : target.base.Below s.temps) (hstart : base + target.offset = Int64.ofNat start)
    (hroom : Evaluation.Room m.memory start length) :
    ∃ f' m', Machine.Leads l.program m.steps (Routine.ofFunction g) f m f' m' ∧ f'.pc = s'.code.size ∧
      (∀ j < (ofText text).length, m'.memory.bytes[start + j]? = (ofText text)[j]?) ∧
      ∀ o, o < start ∨ start + (ofText text).length ≤ o → m'.memory.bytes[o]? = m.memory.bytes[o]? := by
  obtain ⟨element, hfitted⟩ := h.fitted hc hunit hkind
  obtain ⟨scopes, k, hk⟩ := hat.agrees
  obtain ⟨kind, span, ty⟩ := e
  obtain rfl : kind = .string text := hkind
  obtain ⟨f', m', hleads, hpc, hmemory⟩ := Simulation.meets_text hlinked hat.member hk
    (htarget ▸ hfitted.array) hfitted.room hrun hat.stand hat.reached hbase hbelow hstart hroom
  have hfits : start + (ofText text).length ≤ m.memory.size :=
    Nat.le_trans (Nat.add_le_add_left hfitted.room _) hroom.fits
  rw [← Bytes.writeList_eq, Nat.add_zero] at hmemory
  refine ⟨f', m', hleads, hpc, fun j hj => ?_, fun o ho => ?_⟩
  · rw [hmemory]
    exact Bytes.getElem?_writeList hfits hj
  · rw [hmemory]
    exact Bytes.getElem?_writeList_of_outside ho

/-- A local that a text or several literals initialize has the text in the array that the text initializes,
and zeros behind it. -/
theorem local_of_literal
    (hwhole : i = .expr e ∨ i.isLiteral = true ∧ ∃ image, Static.image p.registry t i = .ok image)
    {slot : Code.Temp}
    (hrun : Lowering.localVar ⟨p.registry, returns, targets.map (·.1), targets.map (·.2)⟩ v s =
      .ok ((), s'))
    (hslot : slot? s'.slots v.name = some slot) (hat : AtCode code g s s' f)
    (hhouses : Houses m f slot (p.registry.sizeOf t)) :
    (∃ f' m' start, Machine.Leads l.program m.steps (Routine.ofFunction g) f m f' m' ∧
        f'.pc = s'.code.size ∧ f'.slots.getD slot none = some (Int64.ofNat start) ∧
        m'.memory.Holds (start + offset) length (ofText text)) ∨
      ∃ u, Machine.Finishes l.program Machine.anything (Routine.ofFunction g) f m
        (.error (.stackOverflow (p.registry.sizeOf t))) u := by
  obtain ⟨C, hinit⟩ := h.initializes hunit
  obtain ⟨element, hfitted⟩ := h.fitted hc hunit hkind
  obtain ⟨hliteral, image, himage⟩ := hwhole.elim (h.whole hkind) id
  have hplace := h.image hc hunit hkind himage
  obtain ⟨name, type, init, span, resolved⟩ := v
  obtain rfl : init = some i := h.init
  obtain rfl : resolved = some t := h.resolved
  obtain ⟨scopes, k, hk⟩ := hat.agrees
  refine (Simulation.meets_literal hlinked hc hinit hliteral himage hat.member hk hrun hat.stand
    hslot hat.reached hhouses.stack hhouses.words hhouses.home).imp_left ?_
  rintro ⟨f', m', start, hleads, hpc, hhome, hstored⟩
  refine ⟨f', m', start, hleads, hpc, hhome, fun j hj => ?_⟩
  rw [Nat.add_assoc, hstored.leaves _ (hfitted.leaf j hj), hplace j hj]

end Kept

/-- Every literal of an accepted unit is kept as its text. -/
theorem keeps_literal {layout : Layout.Config} {source : String} {u : CompilationUnit} {code : Code.Module}
    {limits : Machine.Limits} {l : Loaded} {e : Expr} {text : String}
    (hparse : CompilationUnit.parse source = .ok u) (herrors : (Typing.analyze layout u).errors = [])
    (hlower : Lowering.lower (Typing.analyze layout u).registry (Typing.analyze layout u).tree = .ok code)
    (hload : Machine.load code limits = .ok l)
    (he : .expr e ∈ Node.ofUnit (Typing.analyze layout u).tree) (hkind : e.kind = .string text) :
    Keeps (Typing.analyze layout u).tree (Typing.analyze layout u).registry code l e (ofText text) := by
  obtain ⟨G, hsound, hunit⟩ := Typing.judged_of_analyze herrors
  have hc := hsound.consistent
  have hlinked := Simulation.linked_of_load herrors hlower hload
  have hfound := found hparse herrors hlower hload
  obtain ⟨t, hty, hchars⟩ := type_of_literal (p := .ofLoaded _ _ l) hunit he hkind
  exact {
    type := ⟨t, hty, hchars⟩
    value := fun _ _ _ _ hrun hdata => value_of_literal hfound hkind hty hrun hdata
    room := fun h => by
      obtain ⟨element, hfitted⟩ := h.fitted hc hunit hkind
      exact ⟨hfitted.room, fun _ hi hv => h.length_eq hunit hkind hi hv⟩
    global := fun h _ _ hd hv => global_of_literal hlinked hc hunit hkind h hfound hd hv
    cleared := fun h _ _ _ _ _ _ _ _ hrun hslot hat hhouses =>
      cleared_of_literal hlinked hc hunit hkind h hrun hslot hat hhouses
    stored := fun h _ _ _ _ _ _ _ _ _ _ htarget hrun hat hbase hbelow hstart hroom =>
      stored_of_literal hlinked hc hunit hkind h htarget hrun hat hbase hbelow hstart hroom
    «local» := fun h hwhole _ _ _ _ _ _ _ _ hrun hslot hat hhouses =>
      local_of_literal hlinked hc hunit hkind h hwhole hrun hslot hat hhouses }

/-- Every literal of a source is spelled in it. The analysis gives it the type of an array with an element
for each of its bytes, as they are stored, and one more, and calls it too long for an array of bytes exactly
if the bytes are more than the array has. If the source is accepted, each literal is kept as these bytes
throughout the code and the loaded program. They are the decoded bytes exactly if all of them are below
128. -/
theorem literals_kept {layout : Layout.Config} {source : String} {u : CompilationUnit}
    (h : parse source = .ok u) :
    (∀ e text, .expr e ∈ Node.ofUnit u → e.kind = .string text →
      ∃ bytes, Lexer.Spells source bytes ∧ text = textOf bytes ∧
        (∀ (s : Typing.State) e' t s', s.registry.Consistent → Typing.expr e s = ((e', .ok t), s') →
          s'.registry.ty t = .array Registry.cChar ((bytes.flatMap stored).length + 1)) ∧
        ∀ (s : Typing.State) t element length isGlobal, s.registry.ty t = .array element length →
          s.registry.sizeOf element = 1 → s.registry.isInteger element = true →
          ((Typing.initialValue t isGlobal e s).1.2 = .error (.type .stringTooLong e.span) ↔
            length < (bytes.flatMap stored).length)) ∧
    ∀ tree registry code limits l, check layout u = .ok (tree, registry) →
      Lowering.lower registry tree = .ok code → Machine.load code limits = .ok l →
      ∀ e text, .expr e ∈ Node.ofUnit tree → e.kind = .string text →
        ∃ bytes, Lexer.Spells source bytes ∧ text = textOf bytes ∧
          Keeps tree registry code l e (bytes.flatMap stored) ∧
          (bytes.flatMap stored = bytes ↔ ∀ b ∈ bytes, b < 128) := by
  have hparse : CompilationUnit.parse source = .ok u := mapError_eq_ok h
  have hspelled := all_spelledTexts hparse
  refine ⟨fun e text he hkind => ?_,
    fun tree registry code limits l hcheck hlower hload e text he hkind => ?_⟩
  · obtain ⟨bytes, hspells, rfl⟩ := spells_of_all hspelled he hkind
    obtain ⟨kind, span, ty⟩ := e
    obtain rfl : kind = .string _ := hkind
    refine ⟨bytes, hspells, rfl, fun s e' t s' hc hrun => ?_,
      fun s t element length isGlobal hty hsize hinteger => ?_⟩
    · rw [← Literal.ofText_textOf]
      exact Typing.type_of_text hc hrun
    · rw [← Literal.ofText_textOf]
      exact Typing.tooLong_iff isGlobal hty hsize hinteger
  · obtain ⟨herrors, rfl, rfl⟩ := accepted_of_check hcheck
    obtain ⟨bytes, hspells, rfl⟩ := spells_of_all (Typing.all_analyze hspelled) he hkind
    refine ⟨bytes, hspells, rfl, ?_, ?_⟩
    · rw [← Literal.ofText_textOf]
      exact keeps_literal hparse herrors hlower hload he hkind
    · rw [← Literal.ofText_textOf]
      exact Literal.ofText_textOf_eq_iff bytes

/-- The only global and the only local of a unit, and the text that its function returns. -/
def partsOf : CompilationUnit → Option (VarDecl × VarDecl × String)
  | ⟨[.declaration ⟨.vars [g], _⟩, .function ⟨_, _, _, _, some ⟨[.declaration ⟨.vars [v], _⟩,
      .statement ⟨.return_ (some ⟨.string text, _, some _⟩), _⟩], _⟩, _, _⟩]⟩ => some (g, v, text)
  | _ => none

theorem mem_of_partsOf {tree : CompilationUnit} {g v : VarDecl} {text : String}
    (h : partsOf tree = some (g, v, text)) :
    (∃ span, .declaration ⟨.vars [g], span⟩ ∈ tree.decls) ∧
      (∀ n ∈ Node.ofVar g ++ Node.ofVar v, n ∈ Node.ofUnit tree) ∧
      ∃ span ty, .expr ⟨.string text, span, some ty⟩ ∈ Node.ofUnit tree := by
  unfold partsOf at h
  split at h
  · rename_i span ty _ _ _ _
    cases h
    refine ⟨⟨_, List.mem_cons_self⟩, fun n hn => ?_, span, ty, ?_⟩
    · rcases List.mem_append.mp hn with hn | hn <;>
        simp [Node.ofUnit, Node.ofTopDecl, Node.ofDecl, Node.ofVars, Node.ofItems, Node.ofItem, hn]
    · simp only [Node.ofUnit, Node.ofTopDecl, Node.ofItems, Node.ofItem, Node.ofStmt, Node.ofStmtKind,
        Node.ofExpr?, Node.ofExpr, List.flatMap_cons, List.mem_append, List.mem_cons, Option.elim_some,
        true_or, or_true]
  · cases h

/-- The text that initializes a variable, and the length of the array that it is. -/
def textOfVar (r : Registry) : VarDecl → Option (String × Nat)
  | ⟨_, _, some (.expr ⟨.string text, _, _⟩), _, some t⟩ =>
    match r.ty t with
    | .array _ length => some (text, length)
    | _ => none
  | _ => none

theorem mem_ofVar (v : VarDecl) : .var v ∈ Node.ofVar v := by
  cases v
  exact List.mem_cons_self

theorem supplies_of_textOfVar {tree : CompilationUnit} {r : Registry} {v : VarDecl} {text : String}
    {length : Nat} (hv : .var v ∈ Node.ofUnit tree) (h : textOfVar r v = some (text, length)) :
    ∃ e t, .expr e ∈ Node.ofVar v ∧ e.kind = .string text ∧ Supplies tree r e v (.expr e) t t 0 length := by
  unfold textOfVar at h
  split at h
  · split at h
    · rename_i hty
      cases h
      exact ⟨_, _, by simp [Node.ofVar, Node.ofInitializer?, Node.ofInitializer, Node.ofExpr], rfl,
        hv, rfl, rfl, .self, _, hty⟩
    · cases h
  · cases h

/-- A function that is entered is at the beginning of its code. -/
theorem atCode_enter {code : Code.Module} {g : Code.Function} {s : Lowering.State}
    (hg : g ∈ code.functions) (hstand : Simulation.Stand code g s) :
    AtCode code g { Lowering.State.initial with slots := [[]] } s
      (Machine.Frame.enter (Routine.ofFunction g) []) where
  member := hg
  agrees := ⟨[[]], ⟨0, 0⟩, ⟨rfl, rfl, nofun, .nil⟩, .cons .nil .nil⟩
  stand := hstand
  reached := ⟨rfl, by simp [Machine.Frame.enter, Routine.ofFunction],
    by simp [Machine.Frame.enter, Routine.ofFunction], by simp⟩

/-- When a function is entered, no slot has storage yet. -/
theorem houses_enter {m : Machine.State} (hstack : Machine.nullGuard ≤ m.stack)
    (hwords : m.memory.size ≤ Layout.maxObjectSize) (g : Code.Function) (slot : Code.Temp) (size : Nat) :
    Houses m (Machine.Frame.enter (Routine.ofFunction g) []) slot size where
  stack := hstack
  words := hwords
  home address haddress := by
    simp only [Machine.Frame.enter, Routine.ofFunction, Array.getD_eq_getD_getElem?,
      Array.getElem?_replicate] at haddress
    split at haddress <;> cases haddress

/-- Two strings for a global array, one for a local array, and one that is a pointer. -/
theorem literals_of_arrays_and_pointer :
    ∃ tree registry code l, (do check ⟨.lp64, 64⟩ (← parse ("char g[4] = \"a\" \"b\"; " ++
        "char *f(void) \x7b char v[3] = \"c\"; return \"d\"; \x7d"))) = .ok (tree, registry) ∧
      Lowering.lower registry tree = .ok code ∧ Machine.load code ⟨128, 4, 1000⟩ = .ok l ∧
      (∃ start, l.address? "g" = some (Int64.ofNat start) ∧ l.state.memory.Holds start 4 [97, 98]) ∧
      (∃ start, l.address? ".Lstr0" = some (Int64.ofNat start) ∧ l.state.memory.Holds start 2 [100]) ∧
      ∃ g ∈ code.functions, ∀ m : Machine.State, Machine.nullGuard ≤ m.stack →
        m.memory.size ≤ Layout.maxObjectSize →
        (∃ f' m' start, Machine.Leads l.program m.steps (Routine.ofFunction g)
            (Machine.Frame.enter (Routine.ofFunction g) []) m f' m' ∧ f'.pc = 5 ∧
          f'.slots.getD 0 none = some (Int64.ofNat start) ∧ m'.memory.Holds start 3 [99]) ∨
        ∃ u, Machine.Finishes l.program Machine.anything (Routine.ofFunction g)
          (Machine.Frame.enter (Routine.ofFunction g) []) m (.error (.stackOverflow 3)) u := by
  let source := "char g[4] = \"a\" \"b\"; " ++ "char *f(void) \x7b char v[3] = \"c\"; return \"d\"; \x7d"
  let before : Lowering.State := { Lowering.State.initial with slots := [[]] }
  let emitted : List Code.Inst := [.alloca 0 3 1, .store (.temp 0) 0 (.const 0) 1,
    .store (.temp 0) 1 (.const 0) 1, .store (.temp 0) 2 (.const 0) 1, .store (.temp 0) 0 (.const 99) 1]
  let context (r : Registry) : Lowering.Context := ⟨r, Registry.cInt, none, none⟩
  let tests (r : Registry) (x : VarDecl × VarDecl × String) : Bool :=
    decide (x.1.name = "g" ∧ textOfVar r x.1 = some ("ab", 4) ∧ x.2.1.name = "v" ∧
      textOfVar r x.2.1 = some ("c", 3) ∧ x.2.1.resolved.map r.sizeOf = some 3 ∧ x.2.2 = "d" ∧
      (Lowering.localVar (context r) x.2.1 before).toOption.map (fun y => decide (
        y.2.code.toList = emitted ∧ y.2.temps = 1 ∧ y.2.data.size = 0 ∧ y.2.slots = [[("v", 0)]])) =
        some true)
  have hrun : (parse source).toOption.bind (fun u : CompilationUnit =>
      (check ⟨.lp64, 64⟩ u).toOption.bind fun x : CompilationUnit × Registry =>
        (Lowering.lower x.2 x.1).toOption.bind fun code : Code.Module =>
          (Machine.load code ⟨128, 4, 1000⟩).toOption.bind fun _ =>
            (partsOf x.1).map fun y => (tests x.2 y,
              code.functions.map fun g : Code.Function => (g.temps, g.body.take 5), code.data)) =
      some (true, [(1, emitted)], [⟨".Lstr0", "d"⟩]) := by
    decide +kernel
  obtain ⟨u, hparse, hrun⟩ := Option.bind_eq_some_iff.mp hrun
  obtain ⟨⟨tree, registry⟩, hcheck, hrun⟩ := Option.bind_eq_some_iff.mp hrun
  obtain ⟨code, hlower, hrun⟩ := Option.bind_eq_some_iff.mp hrun
  obtain ⟨l, hload, hrun⟩ := Option.bind_eq_some_iff.mp hrun
  obtain ⟨⟨w, v, text⟩, hparts, hrun⟩ := Option.map_eq_some_iff.mp hrun
  replace hparse := ok_of_toOption hparse
  replace hcheck := ok_of_toOption hcheck
  replace hlower := ok_of_toOption hlower
  replace hload := ok_of_toOption hload
  obtain ⟨htests, hmodule⟩ := Prod.mk.inj hrun
  obtain ⟨hfunctions, hdata⟩ := Prod.mk.inj hmodule
  obtain ⟨hw, hwtext, hv, hvtext, hsize, rfl, hlocal⟩ := of_decide_eq_true htests
  obtain ⟨g, hg, hshape⟩ := List.map_eq_singleton_iff.mp hfunctions
  obtain ⟨htemps, hbody⟩ := Prod.mk.inj hshape
  obtain ⟨⟨span, hglobal⟩, hnodes, span', ty, hvalue⟩ := mem_of_partsOf hparts
  have hw' : ∀ n ∈ Node.ofVar w, n ∈ Node.ofUnit tree := fun n hn => hnodes n (List.mem_append_left _ hn)
  have hv' : ∀ n ∈ Node.ofVar v, n ∈ Node.ofUnit tree := fun n hn => hnodes n (List.mem_append_right _ hn)
  obtain ⟨e, t, he, hkind, hsupplies⟩ := supplies_of_textOfVar (hw' _ (mem_ofVar w)) hwtext
  obtain ⟨e', t', he', hkind', hsupplies'⟩ := supplies_of_textOfVar (hv' _ (mem_ofVar v)) hvtext
  have hkept := (literals_kept hparse).2 tree registry code _ l hcheck hlower hload
  have hstored {bytes data : List UInt8} {text : String} (h : text = textOf bytes)
      (hdata : ofText text = data) : bytes.flatMap stored = data := by
    rw [← hdata, h, Literal.ofText_textOf]
  have hpointer : Lowering.expr (context registry) ⟨.string "d", span', some ty⟩ before =
      .ok (.value (.data ".Lstr0"), { before with data := #[⟨".Lstr0", "d"⟩] }) := by
    have hname : Lowering.textLabel 0 = ".Lstr0" := by decide +kernel
    rw [Lowering.expr, Lowering.exprKind, ← hname]
    rfl
  refine ⟨tree, registry, code, l, Machine.except_bind_eq_ok.mpr ⟨u, hparse, hcheck⟩, hlower, hload,
    ?_, ?_, g, hg ▸ List.mem_cons_self, fun m hstack hwords => ?_⟩
  · obtain ⟨bytes, -, htext, hkeeps, -⟩ := hkept e "ab" (hw' _ he) hkind
    rw [hstored htext (by decide +kernel : ofText "ab" = [97, 98])] at hkeeps
    obtain ⟨start, haddress, hholds⟩ := hkeeps.global hsupplies [w] span hglobal (List.mem_singleton_self _)
    exact ⟨start, hw ▸ haddress, hholds⟩
  · obtain ⟨bytes, -, htext, hkeeps, -⟩ := hkept _ "d" hvalue rfl
    rw [hstored htext (by decide +kernel : ofText "d" = [100])] at hkeeps
    obtain ⟨label, start, hlabel, haddress, hholds⟩ :=
      hkeeps.value _ _ _ _ hpointer (hdata ▸ List.prefix_refl _)
    cases hlabel
    exact ⟨start, haddress, hholds⟩
  · obtain ⟨bytes, -, htext, hkeeps, -⟩ := hkept e' "c" (hv' _ he') hkind'
    rw [hstored htext (by decide +kernel : ofText "c" = [99])] at hkeeps
    obtain ⟨⟨⟨⟩, s'⟩, hlowered, hshape⟩ := Option.map_eq_some_iff.mp hlocal
    obtain ⟨hcode, htemps', hnone, hslots⟩ := of_decide_eq_true hshape
    have hsize' : registry.sizeOf t' = 3 := by
      rw [hsupplies'.resolved] at hsize
      exact Option.some.inj hsize
    have hpc : s'.code.size = 5 := by
      rw [← Array.length_toList, hcode]
      rfl
    have hstand : Simulation.Stand code g s' := by
      refine ⟨?_, ?_, ?_⟩
      · rw [hcode, ← hbody]
        exact List.take_prefix 5 g.body
      · rw [htemps', htemps]
      · rw [Array.eq_empty_of_size_eq_zero hnone]
        exact List.nil_prefix
    have hlocal' := hkeeps.local hsupplies' (.inl rfl) Registry.cInt none g before s' 0
      (Machine.Frame.enter (Routine.ofFunction g) []) m (ok_of_toOption hlowered)
      (by rw [hslots, hv]; rfl) (atCode_enter (hg ▸ List.mem_cons_self) hstand)
      (houses_enter hstack hwords g 0 _)
    rwa [hpc, hsize'] at hlocal'

/-- A byte from 128 on is two bytes in an array and in the length of a literal. -/
theorem literal_of_high_byte :
    Literal.unescape? (Literal.bytesOf ['\\', 'x', '8', '0']) = some [128] ∧
    ∃ tree registry code l v e t, (do check ⟨.lp64, 64⟩ (← parse
        "char g[] = \"\\x80\"; int f(void) \x7b return sizeof(\"\\x80\"); \x7d")) = .ok (tree, registry) ∧
      Lowering.lower registry tree = .ok code ∧ Machine.load code ⟨128, 4, 1000⟩ = .ok l ∧
      Supplies tree registry e v (.expr e) t t 0 3 ∧ e.kind = .string (textOf [128]) ∧
      (∃ start, l.address? "g" = some (Int64.ofNat start) ∧ l.state.memory.Holds start 3 [194, 128, 0]) ∧
      code.functions.map (·.body.head?) = [some (.ret (some (.const 3)))] := by
  refine ⟨by decide +kernel, ?_⟩
  have hrun : ((do check ⟨.lp64, 64⟩ (← parse
        "char g[] = \"\\x80\"; int f(void) \x7b return sizeof(\"\\x80\"); \x7d")).toOption.bind
      fun x : CompilationUnit × Registry => (Lowering.lower x.2 x.1).toOption.bind fun code : Code.Module =>
        (Machine.load code ⟨128, 4, 1000⟩).toOption.map fun _ =>
          ((varsOf x.1).map (textOfVar x.2), code.globals,
            code.functions.map fun f : Code.Function => f.body.head?)) =
      some ([some (textOf [128], 3)], [⟨"g", 3, 1, some [194, 128, 0]⟩],
        [some (.ret (some (.const 3)))]) := by
    decide +kernel
  obtain ⟨⟨tree, registry⟩, hcheck, hrun⟩ := Option.bind_eq_some_iff.mp hrun
  obtain ⟨code, hlower, hrun⟩ := Option.bind_eq_some_iff.mp hrun
  obtain ⟨l, hload, hrun⟩ := Option.map_eq_some_iff.mp hrun
  replace hcheck := ok_of_toOption hcheck
  replace hlower := ok_of_toOption hlower
  replace hload := ok_of_toOption hload
  obtain ⟨hvars, hmodule⟩ := Prod.mk.inj hrun
  obtain ⟨hglobals, hbodies⟩ := Prod.mk.inj hmodule
  obtain ⟨v, hv, htext⟩ := List.map_eq_singleton_iff.mp hvars
  have hvar : .var v ∈ Node.ofUnit tree := var_of_varsOf (hv ▸ List.mem_cons_self)
  obtain ⟨e, t, -, hkind, hsupplies⟩ := supplies_of_textOfVar hvar htext
  refine ⟨tree, registry, code, l, v, e, t, hcheck, hlower, hload, hsupplies, hkind, ?_, hbodies⟩
  obtain ⟨u, hparse, hcheck⟩ := Machine.except_bind_eq_ok.mp hcheck
  obtain ⟨herrors, rfl, rfl⟩ := accepted_of_check hcheck
  exact found (mapError_eq_ok hparse) herrors hlower hload ("g", [194, 128, 0], 3)
    (by simp [Machine.contents, hglobals])

end Compilation

end MiniC
