import MiniC.Proofs.Evaluation.Tree
import MiniC.Proofs.Lowering.Initial
/-!
Initializers of literals at run time. Evaluation puts the bytes that the initializer mentions where
they belong, and reaches nothing else. Main statement: a local that is declared with such an
initializer gets storage, which is then filled; memory outside the storage stays as it was.
-/
namespace MiniC

open Bytes (ofText ofWord overlay spread)
open Machine (Memory nullGuard)
open Syntax

/-- An integer, a character or a text. -/
def Syntax.ExprKind.isLiteral : ExprKind → Bool
  | .integer _ | .character _ | .string _ => true
  | _ => false

mutual

/-- All values of the initializer are literals. -/
def Syntax.Initializer.isLiteral : Initializer → Bool
  | .expr e => e.kind.isLiteral
  | .list items _ => Syntax.Initializer.areLiteral items

def Syntax.Initializer.areLiteral : List Initializer → Bool
  | [] => true
  | i :: is => i.isLiteral && Syntax.Initializer.areLiteral is

end

namespace Evaluation

open Lowering (filled needsZeros placed placedElements placedFirst placedMembers zeroed)
open Typing (Env Initializes InitializesAll Site)

/-- The bytes from `start` on that are put over those of memory. -/
def Store.fill (st : Store) (start : Nat) (ps : List (Nat × UInt8)) : Store :=
  { st with memory := ⟨overlay st.memory.bytes start ps⟩ }

/-- Bytes that can be reached, and whose addresses are words. -/
structure Room (m : Memory) (start size : Nat) : Prop where
  above : nullGuard ≤ start
  fits : start + size ≤ m.size
  words : m.size ≤ Layout.maxObjectSize

section Stores

variable {st : Store} {start size offset : Nat} {ps qs : List (Nat × UInt8)}

theorem Store.fill_nil (st : Store) (start : Nat) : st.fill start [] = st := rfl

theorem Store.fill_append (st : Store) (start : Nat) (ps qs : List (Nat × UInt8)) :
    st.fill start (ps ++ qs) = (st.fill start ps).fill start qs := by
  unfold Store.fill
  rw [Bytes.overlay_append]

@[simp]
theorem Store.size_fill (st : Store) (start : Nat) (ps : List (Nat × UInt8)) :
    (st.fill start ps).memory.size = st.memory.size := Bytes.size_overlay _ _ _

theorem Room.fill (h : Room st.memory start size) (ps : List (Nat × UInt8)) :
    Room (st.fill start ps).memory start size :=
  ⟨h.above, by rw [Store.size_fill]; exact h.fits, by rw [Store.size_fill]; exact h.words⟩

theorem Room.locate {m : Memory} (h : Room m start size) {n : Nat} (hn : offset + n ≤ size) :
    m.locate (Int64.ofNat (start + offset)) n = .ok (start + offset) := by
  have habove := h.above
  have hfits := h.fits
  have hlt : start + offset < 2 ^ 63 := by
    have hwords : m.size ≤ 2 ^ 63 - 1 := h.words
    omega
  have hnat : (Int64.ofNat (start + offset)).toInt = (start + offset : Nat) :=
    Int64.toInt_ofNat_of_lt hlt
  unfold Memory.locate
  rw [if_neg, Int64.toNatClampNeg, hnat, Int.toNat_natCast, if_neg (by omega), if_pos]
  · show start + offset + n ≤ m.size
    omega
  · rw [Int64.lt_iff_toInt_lt, hnat, Int64.toInt_zero]
    omega

theorem Room.write (h : Room st.memory start size) (offset : Nat) {n : Nat} (v : Int64) (hn : offset + n ≤ size) :
    write (Int64.ofNat (start + offset)) n v st =
      .ok () (st.fill start (spread offset (ofWord v.toUInt64 n))) := by
  have hstore : st.memory.store (Int64.ofNat (start + offset)) n v =
      .ok ⟨overlay st.memory.bytes start (spread offset (ofWord v.toUInt64 n))⟩ := by
    rw [Memory.store, h.locate hn, ← Bytes.writeList_eq, ← Bytes.writeWord_eq]
    rfl
  show EStateM.bind _ _ st = _
  unfold EStateM.bind
  show (match (lift (st.memory.store _ n v) >>= _ : Action Unit) st with | r => r) = _
  rw [hstore]
  rfl

theorem then_ok {α : Type} {x : Action Unit} {y : Action α} {st st' : Store}
    (hx : x st = .ok () st') : (do x; y) st = y st' := by
  show EStateM.bind _ _ st = _
  unfold EStateM.bind
  rw [hx]

theorem Room.storeBytes (h : Room st.memory start size) {data : List UInt8}
    (hdata : offset + data.length ≤ size) :
    storeBytes (Int64.ofNat (start + offset)) data st =
      .ok () (st.fill start (spread offset data)) := by
  induction data generalizing st offset with
  | nil => rfl
  | cons b data ih =>
    rw [List.length_cons] at hdata
    have hbyte : ofWord (Int64.ofNat b.toNat).toUInt64 1 = [b] := by
      simp [ofWord]
    have hnext : Int64.ofNat (start + offset) + 1 = Int64.ofNat (start + (offset + 1)) :=
      (Int64.ofNat_add (start + offset) 1).symm
    rw [Evaluation.storeBytes, then_ok (h.write _ (n := 1) (Int64.ofNat b.toNat) (by omega)), hbyte,
      hnext]
    exact ih (h.fill _) (by omega)

theorem Room.zeroMoves (h : Room st.memory start size) {ms : List ScalarMove}
    (hms : ∀ m ∈ ms, m.offset + m.access.size ≤ size) :
    zeroMoves (Int64.ofNat start) ms st =
      .ok () (st.fill start (ms.flatMap fun m => spread m.offset (List.replicate m.access.size 0))) := by
  induction ms generalizing st with
  | nil => rfl
  | cons m ms ih =>
    obtain ⟨hm, hms⟩ := List.forall_mem_cons.mp hms
    have hzero (n : Nat) : ofWord (0 : UInt64) n = List.replicate n 0 := by
      induction n with
      | zero => rfl
      | succ n ih => exact congrArg _ ih
    rw [Evaluation.zeroMoves, ← Int64.ofNat_add, then_ok (h.write _ 0 hm), List.flatMap_cons,
      Store.fill_append]
    exact (ih (h.fill _) hms).trans (by rw [← hzero]; rfl)

end Stores

/-! Initializers. -/

section Initializers

variable {E : Env} {C : Site} {st : Store} {start size : Nat}

/-- Filling a part of the room in which there is space for all of it. -/
def Fills (fill : Int64 → Action Unit) (start size offset extent : Nat)
    (ps : List (Nat × UInt8)) : Prop :=
  ∀ st : Store, Room st.memory start size → offset + extent ≤ size →
    fill (Int64.ofNat (start + offset)) st = .ok () (st.fill start ps)

theorem fills_nothing {offset extent : Nat} :
    Fills (fun _ => return ()) start size offset extent [] :=
  fun _ _ _ => rfl

/-- A literal that initializes a scalar is stored with the scalar's width. -/
theorem fills_scalar {c : Context} {t : TypeId} {e : Expr} {n : Int64} {access : Access} {k : Counters}
    {offset : Nat} (hc : c.registry.Consistent) (ha : c.registry.access? t = some access)
    (he : ∀ st, (valueOf c.registry (expr c e k).1) st = .ok n st) :
    Fills (fun address => do
        store c.registry t address (← converted c.registry t (valueOf c.registry (expr c e k).1)))
      start size offset (c.registry.sizeOf t)
      (spread offset (ofWord n.toUInt64 (c.registry.sizeOf t))) := by
  intro st hroom hfits
  obtain ⟨hsize, -⟩ := hc.access_size ha
  have hwrite := hroom.write offset (n := access.size) (access.truncate n) (by omega)
  rw [Bytes.ofWord_truncate (hc.access_le ha)] at hwrite
  rw [← hsize, ← hwrite]
  show EStateM.bind (EStateM.bind _ _) _ st = _
  unfold EStateM.bind
  simp only [he]
  show store c.registry t _ (convert c.registry n t) st = _
  rw [store, ha, convert, ha]

/-- An integer or a character comes to the constant that it is. -/
theorem value_literal {c : Context} {e : Expr} {n : Int64} {t : TypeId}
    (hliteral : e.kind.isLiteral = true) (hn : e.constant? = some n) (ht : e.ty = some t)
    (k : Counters) (st : Store) : valueOf c.registry (expr c e k).1 st = .ok n st := by
  obtain ⟨kind, span, ty⟩ := e
  obtain rfl : ty = some t := ht
  rw [Expr.constant?] at hn
  cases kind with
  | integer | character =>
    cases hn
    rw [expr, exprKind]
    rfl
  | string => cases hn
  | _ => cases hliteral

theorem fills_value {c : Context} {G : List Symbol} {t v : TypeId} {e : Expr} {k : Counters}
    {offset offset' : Nat} {image image' : Array UInt8} (hc : c.registry.Consistent)
    (hv : Typing.HasValue ⟨c.registry, G⟩ C e v) (hliteral : e.kind.isLiteral = true)
    (hfill : Lowering.Static.scalar c.registry t offset' e image = .ok image') :
    Fills (fun address => do
        store c.registry t address (← converted c.registry t (valueOf c.registry (expr c e k).1)))
      start size offset (c.registry.sizeOf t)
      (spread offset (ofWord (e.constant?.getD 0).toUInt64 (c.registry.sizeOf t))) := by
  unfold Lowering.Static.scalar at hfill
  split at hfill
  · cases hfill
  · cases hfill
  · rename_i n access hn ha
    obtain ⟨ty, hty⟩ := hv.exists_ty
    rw [hn]
    exact fills_scalar hc ha (value_literal hliteral hn hty k)

theorem Fills.widen {fill : Int64 → Action Unit} {offset extent whole : Nat}
    {ps : List (Nat × UInt8)} (h : Fills fill start size offset extent ps) (hle : extent ≤ whole) :
    Fills fill start size offset whole ps :=
  fun st hroom hfits => h st hroom (by omega)

/-- A part that begins some bytes further on. -/
theorem Fills.further {fill : Int64 → Action Unit} {offset distance extent whole : Nat}
    {ps : List (Nat × UInt8)} (h : Fills fill start size (offset + distance) extent ps)
    (hle : distance + extent ≤ whole) :
    Fills (fun address => fill (address + Int64.ofNat distance)) start size offset whole ps := by
  intro st hroom hfits
  show fill (Int64.ofNat (start + offset) + Int64.ofNat distance) st = _
  rw [← Int64.ofNat_add, Nat.add_assoc]
  exact h st hroom (by omega)

theorem Fills.andThen {first rest : Int64 → Action Unit} {offset whole : Nat}
    {ps qs : List (Nat × UInt8)} (hfirst : Fills first start size offset whole ps)
    (hrest : Fills rest start size offset whole qs) :
    Fills (fun address => do first address; rest address) start size offset whole (ps ++ qs) := by
  intro st hroom hfits
  rw [Store.fill_append]
  exact (then_ok (hfirst st hroom hfits)).trans (hrest _ (hroom.fill ps) hfits)

/-- A text fills an array of bytes, and any other literal a scalar. -/
theorem fills_literal {G : List Symbol} {c : Context} (hc : c.registry.Consistent) {t : TypeId}
    {e : Expr} (h : Initializes ⟨c.registry, G⟩ C t (.expr e)) (hliteral : e.kind.isLiteral = true)
    {offset' : Nat} {image image' : Array UInt8}
    (himage : Lowering.Static.single c.registry t offset' e image = .ok image') (k : Counters)
    (offset : Nat) :
    Fills (initializer c t (.expr e) k).1 start size offset (c.registry.sizeOf t)
      (placed c.registry t offset (.expr e)) := by
  rw [initializer, placed]
  cases h with
  | @text _ _ element length text span ty hty hone hinteger hlength hstring =>
    simp only [hty]
    intro st hroom hfits
    rw [Lowering.size_text hc hty hone] at hfits
    refine hroom.storeBytes ?_
    have htake := List.length_take_le length (ofText text)
    omega
  | value hmovable hv hassign hconstant =>
    unfold Lowering.Static.single at himage
    cases hty : c.registry.ty t with
    | void | int | pointer =>
      simp only [hty] at himage ⊢
      exact fills_value hc hv hliteral himage
    | array element length =>
      simp [Registry.Movable, Registry.isScalar, Registry.isInteger, Registry.isPointer,
        Registry.isStruct, hty] at hmovable
    | struct s =>
      simp only [hty, Lowering.Static.scalar, Registry.access?] at himage
      split at himage
      · cases himage
      · cases himage
      · rename_i haccess
        cases haccess

mutual

/-- What fits an object and has an image fills the object with the same bytes. -/
theorem fills_initializer {G : List Symbol} {c : Context} (hc : c.registry.Consistent) (t : TypeId) :
    ∀ i, Initializes ⟨c.registry, G⟩ C t i → i.isLiteral = true → ∀ offset' image image',
      Lowering.Static.fill c.registry t offset' i image = .ok image' → ∀ k offset,
        Fills (initializer c t i k).1 start size offset (c.registry.sizeOf t)
          (placed c.registry t offset i)
  | .expr e, h, hliteral, offset', image, image', himage, k, offset => by
    rw [Lowering.Static.fill] at himage
    exact fills_literal hc h hliteral himage k offset
  | .list items _, h, hliteral, offset', image, image', himage, k, offset => by
    rw [Initializer.isLiteral] at hliteral
    rw [Lowering.Static.fill] at himage
    rw [initializer, placed]
    cases h with
    | @elements _ _ element length _ _ hty hitems =>
      simp only [hty] at himage ⊢
      rw [(hc.size_array hty).1, Nat.mul_comm]
      exact fills_elements hc element length items hitems hliteral _ _ _ himage k offset
    | members hty hitems =>
      simp only [hty] at himage ⊢
      exact fills_members hc (c.registry.sizeOf t) _ items hitems
        (fun m hm => (hc.member_inside hty hm).1) hliteral _ _ _ himage k offset
    | @scalar _ _ e _ hscalar he =>
      rw [Initializer.areLiteral, Initializer.areLiteral, Bool.and_true] at hliteral
      cases hty : c.registry.ty t with
      | array | struct =>
        simp [Registry.isScalar, Registry.isInteger, Registry.isPointer, hty] at hscalar
      | void | int | pointer =>
        simp only [hty] at himage ⊢
        rw [Lowering.Static.first, Lowering.Static.fill] at himage
        rw [firstItem, placedFirst]
        exact fills_literal hc he hliteral himage k offset

theorem fills_elements {G : List Symbol} {c : Context} (hc : c.registry.Consistent) (element : TypeId)
    (n : Nat) : ∀ is, InitializesAll ⟨c.registry, G⟩ C (List.replicate n element) is →
      Initializer.areLiteral is = true → ∀ offset' image image',
      Lowering.Static.elements c.registry element offset' is image = .ok image' → ∀ k offset,
        Fills (elements c element is k).1 start size offset (n * c.registry.sizeOf element)
          (placedElements c.registry element offset is)
  | [], _, _, offset', image, image', himage, k, offset => by
    rw [elements, placedElements]
    exact fills_nothing
  | i :: is, h, hliteral, offset', image, image', himage, k, offset => by
    rw [Initializer.areLiteral, Bool.and_eq_true] at hliteral
    rw [Lowering.Static.elements] at himage
    rw [elements, placedElements]
    cases n with
    | zero => cases h
    | succ n =>
      cases h with
      | cons hi his =>
        split at himage
        · cases himage
        · rename_i between hfirst
          have hone := fills_initializer hc element i hi hliteral.1
            _ _ _ hfirst k offset
          have hrest := fills_elements hc element n is his hliteral.2
            _ _ _ himage (initializer c element i k).2 (offset + c.registry.sizeOf element)
          rw [Nat.succ_mul]
          exact (hone.widen (Nat.le_add_left _ _)).andThen (hrest.further (by omega))

theorem fills_members {G : List Symbol} {c : Context} (hc : c.registry.Consistent) (whole : Nat)
    (ms : List Member) : ∀ is, InitializesAll ⟨c.registry, G⟩ C (ms.map (·.ty)) is →
      (∀ m ∈ ms, m.offset + c.registry.sizeOf m.ty ≤ whole) →
      Initializer.areLiteral is = true → ∀ offset' image image',
      Lowering.Static.members c.registry offset' ms is image = .ok image' → ∀ k offset,
        Fills (members c ms is k).1 start size offset whole (placedMembers c.registry offset ms is)
  | [], _, _, _, offset', image, image', himage, k, offset => by
    rw [members, placedMembers]
    exact fills_nothing
  | i :: is, h, hms, hliteral, offset', image, image', himage, k, offset => by
    rw [Initializer.areLiteral, Bool.and_eq_true] at hliteral
    cases ms with
    | nil =>
      rw [members, placedMembers]
      exact fills_nothing
    | cons m ms =>
      rw [Lowering.Static.members] at himage
      rw [members, placedMembers]
      obtain ⟨hm, hms⟩ := List.forall_mem_cons.mp hms
      cases h with
      | cons hi his =>
        split at himage
        · cases himage
        · rename_i between hfirst
          have hone := fills_initializer hc m.ty i hi hliteral.1
            _ _ _ hfirst k (offset + m.offset)
          have hrest := fills_members hc whole ms is his hms
            hliteral.2 _ _ _ himage (initializer c m.ty i k).2 offset
          exact (hone.further hm).andThen hrest

end

end Initializers

/-! Locals. -/

section Locals

variable {C : Site} {c : Context} {st : Store} {t : TypeId} {i : Initializer} {bytes : List UInt8}

theorem le_of_alignTo {n align start : Nat} (h : Layout.alignTo n align = some start) : n ≤ start := by
  unfold Layout.alignTo at h
  dsimp only at h
  split at h
  · obtain rfl := Option.some.inj h
    have hle : (n + (align - 1)) &&& (align - 1) ≤ align - 1 := Nat.and_le_right
    omega
  · cases h

/-- The stack begins above the null guard, addresses are words, and a local that has storage has room
there. -/
structure Tenable (st : Store) (j size : Nat) : Prop where
  above : nullGuard ≤ st.stack
  words : st.memory.size ≤ Layout.maxObjectSize
  home : ∀ address, st.homes j = some address →
    ∃ start, address = Int64.ofNat start ∧ Room st.memory start size

/-- A local gets room, or there is none. -/
theorem reside_cases {j size align : Nat} (h : Tenable st j size) :
    (∃ start st', reside j size align st = .ok (Int64.ofNat start) st' ∧
      st'.memory = st.memory ∧ st'.homes j = some (Int64.ofNat start) ∧ Room st.memory start size) ∨
    reside j size align st = .error (.fault (.stackOverflow size)) st := by
  unfold reside
  show (∃ start st', EStateM.bind _ _ st = _ ∧ _) ∨ EStateM.bind _ _ st = _
  unfold EStateM.bind
  dsimp only [get, getThe, MonadStateOf.get]
  delta EStateM.get
  dsimp only
  cases hhome : st.homes j with
  | some address =>
    obtain ⟨start, rfl, hroom⟩ := h.home address hhome
    exact .inl ⟨start, st, rfl, rfl, hhome, hroom⟩
  | none =>
    cases halign : Layout.alignTo st.stack (max align 1) with
    | none => exact .inr rfl
    | some start =>
      by_cases hfits : start + size ≤ st.memory.size
      · have hroom : Room st.memory start size :=
          ⟨Nat.le_trans h.above (le_of_alignTo halign), hfits, h.words⟩
        simp only [if_pos hfits]
        exact .inl ⟨start, _, rfl, rfl, if_pos rfl, hroom⟩
      · simp only [if_neg hfits]
        exact .inr rfl

/-- With zeros before, where the initializer may leave something out. -/
theorem fills_local {G : List Symbol} (hc : c.registry.Consistent)
    (hi : Initializes ⟨c.registry, G⟩ C t i) (hliteral : i.isLiteral = true)
    (himage : Lowering.Static.image c.registry t i = .ok bytes) (start : Nat) (k : Counters) :
    Fills (fun address => do
        if needsZeros c.registry t i then zero c.registry t address
        (initializer c t i k).1 address)
      start (c.registry.sizeOf t) 0 (c.registry.sizeOf t) (filled c.registry t i) := by
  have hplaced : Fills (initializer c t i k).1 start (c.registry.sizeOf t) 0 (c.registry.sizeOf t)
      (placed c.registry t 0 i) := by
    unfold Lowering.Static.image at himage
    cases hfill : Lowering.Static.fill c.registry t 0 i (Array.replicate (c.registry.sizeOf t) 0) with
    | error e =>
      rw [hfill] at himage
      cases himage
    | ok image => exact fills_initializer hc t i hi hliteral _ _ _ hfill k 0
  have hzero : Fills (zero c.registry t) start (c.registry.sizeOf t) 0 (c.registry.sizeOf t)
      (zeroed c.registry t) :=
    fun st hroom _ => hroom.zeroMoves fun m hm => hc.move_inside t hm
  unfold filled
  by_cases hzeros : needsZeros c.registry t i = true
  · simp only [if_pos hzeros]
    exact hzero.andThen hplaced
  · simp only [if_neg hzeros]
    exact hplaced

/-- A local that is declared with an initializer of literals is filled, unless the stack is full. -/
theorem localVar_literal {G : List Symbol} (hc : c.registry.Consistent)
    (hi : Initializes ⟨c.registry, G⟩ C t i) (hliteral : i.isLiteral = true)
    (himage : Lowering.Static.image c.registry t i = .ok bytes) {name : String} {ty : TypeExpr}
    {span : Span} {k : Counters} (h : Tenable st k.locals (c.registry.sizeOf t)) :
    (∃ start st', (localVar c ⟨name, ty, some i, span, some t⟩ k).1.1 st = .ok () st' ∧
      Room st.memory start (c.registry.sizeOf t) ∧
      st'.homes k.locals = some (Int64.ofNat start) ∧
      st'.memory = ⟨overlay st.memory.bytes start (filled c.registry t i)⟩) ∨
    (localVar c ⟨name, ty, some i, span, some t⟩ k).1.1 st =
      .error (.fault (.stackOverflow (c.registry.sizeOf t))) st := by
  have hrun : (localVar c ⟨name, ty, some i, span, some t⟩ k).1.1 = (do
      let address ← reside k.locals (c.registry.sizeOf t) (c.registry.alignOf t)
      if needsZeros c.registry t i then zero c.registry t address
      (initializer { c with scopes := c.scopes.declare name k.locals } t i
        { k with locals := k.locals + 1 }).1 address : Action Unit) := by
    rw [localVar]
    rfl
  rw [hrun]
  rcases reside_cases h with
    ⟨start, st', hreside, hmemory, hhome, hroom⟩ | hreside
  · have hfills := fills_local (c := { c with scopes := c.scopes.declare name k.locals }) hc hi
      hliteral himage start { k with locals := k.locals + 1 } st' (hmemory ▸ hroom) (by simp)
    refine .inl ⟨start, st'.fill start (filled c.registry t i), ?_, hroom, hhome, ?_⟩
    · rw [← hfills]
      show EStateM.bind _ _ st = _
      unfold EStateM.bind
      rw [hreside]
      rfl
    · rw [Store.fill, hmemory]
  · refine .inr ?_
    show EStateM.bind _ _ st = _
    unfold EStateM.bind
    rw [hreside]

end Locals

end Evaluation
end MiniC
