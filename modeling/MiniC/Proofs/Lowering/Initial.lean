import MiniC.Proofs.Layout.Flattening
import MiniC.Proofs.Lowering.Lowerable
import MiniC.Proofs.Machine.Bytes
import MiniC.Proofs.Token.Texts
/-!
What initializers put where. The bytes that an initializer mentions are listed with their places in the
object, apart from whether they get there before a program runs or while it does. Main statements: the
image of a global is zero overlaid with these bytes, and all of them lie inside the object.
-/
namespace MiniC.Lowering

open Bytes (ofText ofWord overlay spread)
open Registry (Segment)
open Syntax
open Typing (Env Initializes InitializesAll Site)

mutual

/-- The bytes that an initializer mentions, with their places in the object. -/
def placed (r : Registry) (ty : TypeId) (offset : Nat) : Initializer → List (Nat × UInt8)
  | .expr e =>
    match r.ty ty, e.kind with
    | .array _ length, .string text => spread offset ((ofText text).take length)
    | _, _ => spread offset (ofWord (e.constant?.getD 0).toUInt64 (r.sizeOf ty))
  | .list items _ =>
    match r.ty ty with
    | .array element _ => placedElements r element offset items
    | .struct s => placedMembers r offset (r.structType s).members items
    | _ => placedFirst r ty offset items

def placedElements (r : Registry) (element : TypeId) (offset : Nat) :
    List Initializer → List (Nat × UInt8)
  | [] => []
  | i :: is => placed r element offset i ++ placedElements r element (offset + r.sizeOf element) is

def placedMembers (r : Registry) (offset : Nat) (ms : List Member) :
    List Initializer → List (Nat × UInt8)
  | [] => []
  | i :: is =>
    match ms with
    | [] => []
    | m :: ms => placed r m.ty (offset + m.offset) i ++ placedMembers r offset ms is

def placedFirst (r : Registry) (ty : TypeId) (offset : Nat) : List Initializer → List (Nat × UInt8)
  | [] => []
  | i :: _ => placed r ty offset i

end

/-- The bytes of an object's scalars, all zero. -/
def zeroed (r : Registry) (ty : TypeId) : List (Nat × UInt8) :=
  (r.moves ty).flatMap fun m => spread m.offset (List.replicate m.access.size 0)

/-- What is put into a local: zeros before the rest, where the initializer may leave something out. -/
def filled (r : Registry) (ty : TypeId) (i : Initializer) : List (Nat × UInt8) :=
  (if needsZeros r ty i then zeroed r ty else []) ++ placed r ty 0 i

/-! Images. -/

section Images

variable {r : Registry} {t element : TypeId} {ms : List Member} {offset : Nat}
  {image image' : Array UInt8}

namespace Static

theorem single_eq (hc : r.Consistent) {e : Expr}
    (h : single r t offset e image = .ok image') :
    image' = overlay image 0 (placed r t offset (.expr e)) := by
  unfold single at h
  split at h
  · rename_i hty hkind
    simp only [placed, hty, hkind]
    rw [← Bytes.writeList_eq, Nat.zero_add]
    exact (Except.ok.inj h).symm
  · rename_i hnot
    unfold scalar at h
    split at h
    · cases h
    · cases h
    · rename_i v access hv ha
      rw [placed]
      split
      · rename_i hty hkind
        exact absurd hkind (hnot _ _ _ hty)
      · rw [hv, Option.getD_some, ← (hc.access_size ha).1, ← Bytes.writeList_eq, Nat.zero_add,
          ← Bytes.writeWord_eq]
        exact (Except.ok.inj h).symm

mutual

/-- Whatever was there before, the bytes that the initializer mentions are put over it. -/
theorem fill_eq (hc : r.Consistent) (t : TypeId) : ∀ i offset image image',
    fill r t offset i image = .ok image' → image' = overlay image 0 (placed r t offset i)
  | .expr e, offset, image, image', h => by
    rw [fill] at h
    exact single_eq hc h
  | .list items _, offset, image, image', h => by
    rw [fill] at h
    rw [placed]
    cases hty : r.ty t with
    | array element length =>
      simp only [hty] at h ⊢
      exact elements_eq hc element items offset image image' h
    | struct s =>
      simp only [hty] at h ⊢
      exact members_eq hc offset _ items image image' h
    | void | int | pointer =>
      simp only [hty] at h ⊢
      exact first_eq hc t items offset image image' h

theorem elements_eq (hc : r.Consistent) (element : TypeId) : ∀ is offset image image',
    elements r element offset is image = .ok image' →
      image' = overlay image 0 (placedElements r element offset is)
  | [], offset, image, image', h => by
    rw [elements] at h
    rw [placedElements]
    exact (Except.ok.inj h).symm
  | i :: is, offset, image, image', h => by
    rw [elements] at h
    rw [placedElements, Bytes.overlay_append]
    split at h
    · cases h
    · rename_i between hfirst
      obtain rfl := fill_eq hc element i offset image between hfirst
      exact elements_eq hc element is _ _ image' h

theorem members_eq (hc : r.Consistent) (offset : Nat) (ms : List Member) : ∀ is image image',
    members r offset ms is image = .ok image' →
      image' = overlay image 0 (placedMembers r offset ms is)
  | [], image, image', h => by
    rw [members] at h
    rw [placedMembers]
    exact (Except.ok.inj h).symm
  | i :: is, image, image', h => by
    cases ms with
    | nil =>
      rw [members] at h
      rw [placedMembers]
      exact (Except.ok.inj h).symm
    | cons m ms =>
      rw [members] at h
      rw [placedMembers, Bytes.overlay_append]
      split at h
      · cases h
      · rename_i between hfirst
        obtain rfl := fill_eq hc m.ty i (offset + m.offset) image between hfirst
        exact members_eq hc offset ms is _ image' h

theorem first_eq (hc : r.Consistent) (t : TypeId) : ∀ is offset image image',
    first r t offset is image = .ok image' → image' = overlay image 0 (placedFirst r t offset is)
  | [], offset, image, image', h => by
    rw [first] at h
    rw [placedFirst]
    exact (Except.ok.inj h).symm
  | i :: _, offset, image, image', h => by
    rw [first] at h
    rw [placedFirst]
    exact fill_eq hc t i offset image image' h

end

theorem image_eq (hc : r.Consistent) {i : Initializer} {bytes : List UInt8}
    (h : Static.image r t i = .ok bytes) :
    bytes = (overlay (Array.replicate (r.sizeOf t) 0) 0 (placed r t 0 i)).toList := by
  unfold Static.image at h
  cases hfill : fill r t 0 i (Array.replicate (r.sizeOf t) 0) with
  | error e =>
    rw [hfill] at h
    cases h
  | ok image =>
    rw [hfill] at h
    rw [← fill_eq hc t i _ _ _ hfill]
    exact (Except.ok.inj h).symm

end Static

end Images

/-! Bounds. -/

section Bounds

variable {E : Env} {C : Site} {t : TypeId}

/-- Places within a part of an object. -/
def InPart (offset size : Nat) (ps : List (Nat × UInt8)) : Prop :=
  ∀ x ∈ ps, offset ≤ x.1 ∧ x.1 < offset + size

theorem inPart_nil (offset size : Nat) : InPart offset size [] := List.forall_mem_nil _

theorem inPart_spread {offset size : Nat} {data : List UInt8} (h : data.length ≤ size) :
    InPart offset size (spread offset data) := by
  intro x hx
  obtain ⟨hle, hlt⟩ := Bytes.mem_spread hx
  omega

theorem InPart.append {offset size : Nat} {ps qs : List (Nat × UInt8)} (hp : InPart offset size ps)
    (hq : InPart offset size qs) : InPart offset size (ps ++ qs) :=
  fun x hx => (List.mem_append.mp hx).elim (hp x) (hq x)

/-- What lies in a part lies in the whole. -/
theorem InPart.widen {offset size offset' size' : Nat} {ps : List (Nat × UInt8)}
    (h : InPart offset size ps) (hstart : offset' ≤ offset)
    (hstop : offset + size ≤ offset' + size') : InPart offset' size' ps := by
  intro x hx
  obtain ⟨hle, hlt⟩ := h x hx
  omega

/-- An array of bytes has as many of them as elements. -/
theorem size_text (hc : E.registry.Consistent) {element : TypeId} {length : Nat}
    (hty : E.registry.ty t = .array element length) (hsize : E.registry.sizeOf element = 1) :
    E.registry.sizeOf t = length := by
  rw [(hc.size_array hty).1, hsize, Nat.one_mul]

theorem inPart_single (hc : E.registry.Consistent) {e : Expr} (h : Initializes E C t (.expr e))
    (offset : Nat) : InPart offset (E.registry.sizeOf t) (placed E.registry t offset (.expr e)) := by
  rw [placed]
  split
  · rename_i hty hkind
    cases h with
    | text hty' hone _ _ _ =>
      obtain ⟨rfl, rfl⟩ := Ty.array.inj (hty.symm.trans hty')
      rw [size_text hc hty hone]
      exact inPart_spread (List.length_take_le _ _)
    | value hmovable =>
      simp [Registry.Movable, Registry.isScalar, Registry.isInteger, Registry.isPointer,
        Registry.isStruct, hty] at hmovable
  · exact inPart_spread (Nat.le_of_eq (Bytes.length_ofWord _ _))

mutual

/-- An initializer mentions nothing outside the object. -/
theorem inPart_placed (hc : E.registry.Consistent) (t : TypeId) : ∀ i, Initializes E C t i →
    ∀ offset, InPart offset (E.registry.sizeOf t) (placed E.registry t offset i)
  | .expr e, h, offset => inPart_single hc h offset
  | .list items _, h, offset => by
    rw [placed]
    cases h with
    | @elements _ _ element length _ _ hty hitems =>
      simp only [hty]
      rw [(hc.size_array hty).1, Nat.mul_comm]
      exact inPart_placedElements hc element length items hitems offset
    | members hty hitems =>
      simp only [hty]
      refine inPart_placedMembers hc (E.registry.sizeOf t) _ items hitems
        (fun m hm => (hc.member_inside hty hm).1) offset
    | @scalar _ _ e _ hscalar he =>
      split
      · rename_i hty
        simp [Registry.isScalar, Registry.isInteger, Registry.isPointer, hty] at hscalar
      · rename_i hty
        simp [Registry.isScalar, Registry.isInteger, Registry.isPointer, hty] at hscalar
      · rw [placedFirst]
        exact inPart_single hc he offset

theorem inPart_placedElements (hc : E.registry.Consistent) (element : TypeId) (n : Nat) : ∀ is,
    InitializesAll E C (List.replicate n element) is → ∀ offset,
      InPart offset (n * E.registry.sizeOf element) (placedElements E.registry element offset is)
  | [], _, offset => by
    rw [placedElements]
    exact inPart_nil _ _
  | i :: is, h, offset => by
    rw [placedElements]
    cases n with
    | zero => cases h
    | succ n =>
      cases h with
      | cons hi his =>
        have hfirst := inPart_placed hc element i hi offset
        have hrest := inPart_placedElements hc element n is his (offset + E.registry.sizeOf element)
        rw [Nat.succ_mul]
        exact (hfirst.widen (Nat.le_refl _) (by omega)).append
          (hrest.widen (Nat.le_add_right _ _) (by omega))

theorem inPart_placedMembers (hc : E.registry.Consistent) (size : Nat) (ms : List Member) : ∀ is,
    InitializesAll E C (ms.map (·.ty)) is →
    (∀ m ∈ ms, m.offset + E.registry.sizeOf m.ty ≤ size) → ∀ offset,
      InPart offset size (placedMembers E.registry offset ms is)
  | [], _, _, offset => by
    rw [placedMembers]
    exact inPart_nil _ _
  | i :: is, h, hms, offset => by
    cases ms with
    | nil =>
      rw [placedMembers]
      exact inPart_nil _ _
    | cons m ms =>
      rw [placedMembers]
      obtain ⟨hm, hms⟩ := List.forall_mem_cons.mp hms
      cases h with
      | cons hi his =>
        have hfirst := inPart_placed hc m.ty i hi (offset + m.offset)
        exact (hfirst.widen (Nat.le_add_right _ _) (by omega)).append
          (inPart_placedMembers hc size ms is his hms offset)

end

end Bounds

/-! Scalars. -/

section Scalars

variable {r : Registry} {t : TypeId} {i : Initializer} {o : Nat}

theorem zero_of_mem_spread {offset : Nat} {data : List UInt8} {x : Nat × UInt8}
    (h : x ∈ spread offset data) (hdata : ∀ b ∈ data, b = 0) : x.2 = 0 := by
  induction data generalizing offset with
  | nil => cases h
  | cons b data ih =>
    obtain ⟨hb, hdata⟩ := List.forall_mem_cons.mp hdata
    rcases List.mem_cons.mp h with rfl | h
    · exact hb
    · exact ih h hdata

theorem zero_of_mem_zeroed {x : Nat × UInt8} (h : x ∈ zeroed r t) : x.2 = 0 := by
  obtain ⟨m, -, hx⟩ := List.mem_flatMap.mp h
  exact zero_of_mem_spread hx fun b hb => List.eq_of_mem_replicate hb

theorem inPart_zeroed (hc : r.Consistent) : InPart 0 (r.sizeOf t) (zeroed r t) := by
  intro x hx
  obtain ⟨m, hm, hx⟩ := List.mem_flatMap.mp hx
  have hinside := hc.move_inside t hm
  have hplaces := Bytes.mem_spread hx
  rw [List.length_replicate] at hplaces
  omega

theorem exists_mem_zeroed (h : r.IsLeaf t o) : ∃ x ∈ zeroed r t, x.1 = o := by
  obtain ⟨m, hm, hle, hlt⟩ := h
  obtain ⟨x, hx, heq⟩ := Bytes.exists_mem_spread m.offset (List.replicate m.access.size 0)
    (j := o - m.offset) (by rw [List.length_replicate]; omega)
  exact ⟨x, List.mem_flatMap.mpr ⟨m, hm, hx⟩, by omega⟩

theorem lt_of_isLeaf (hc : r.Consistent) (h : r.IsLeaf t o) : o < r.sizeOf t := by
  obtain ⟨m, hm, -, hlt⟩ := h
  exact Nat.lt_of_lt_of_le hlt (hc.move_inside t hm)

/-- Without zeros before, the initializer mentions the one scalar that there is. -/
theorem exists_mem_placed (hc : r.Consistent) (hzeros : needsZeros r t i = false)
    (h : r.IsLeaf t o) : ∃ x ∈ placed r t 0 i, x.1 = o := by
  have hlt := lt_of_isLeaf hc h
  cases i with
  | list => cases hzeros
  | expr e =>
    rw [placed]
    split
    · rename_i hty hkind
      simp [needsZeros, Registry.isArray, hty] at hzeros
    · obtain ⟨x, hx, heq⟩ := Bytes.exists_mem_spread 0
        (ofWord (e.constant?.getD 0).toUInt64 (r.sizeOf t)) (j := o) (by rwa [Bytes.length_ofWord])
      exact ⟨x, hx, by omega⟩

theorem exists_mem_filled (hc : r.Consistent) (h : r.IsLeaf t o) : ∃ x ∈ filled r t i, x.1 = o := by
  unfold filled
  by_cases hzeros : needsZeros r t i = true
  · obtain ⟨x, hx, heq⟩ := exists_mem_zeroed h
    rw [if_pos hzeros]
    exact ⟨x, List.mem_append_left _ hx, heq⟩
  · obtain ⟨x, hx, heq⟩ := exists_mem_placed hc (Bool.eq_false_iff.mpr hzeros) h
    exact ⟨x, List.mem_append_right _ hx, heq⟩

/-- Filling any memory and filling the image give the same scalars. -/
theorem filled_eq_image (hc : r.Consistent) {bytes : List UInt8} {memory : Array UInt8} {start : Nat}
    (himage : Static.image r t i = .ok bytes) (hin : InPart 0 (r.sizeOf t) (filled r t i))
    (hmemory : start + r.sizeOf t ≤ memory.size) (h : r.IsLeaf t o) :
    (overlay memory start (filled r t i))[start + o]? = bytes[o]? := by
  have hlt := lt_of_isLeaf hc h
  have hzeros (ps : List (Nat × UInt8)) (hps : ∀ x ∈ ps, x.2 = 0) :
      (overlay (Array.replicate (r.sizeOf t) 0) 0 ps)[0 + o]? =
        (Array.replicate (r.sizeOf t) (0 : UInt8))[0 + o]? := by
    have hzero : (Array.replicate (r.sizeOf t) (0 : UInt8))[0 + o]? = some 0 := by
      rw [Nat.zero_add, Array.getElem?_replicate, if_pos hlt]
    rw [hzero, Bytes.overlay_zero hps hzero]
  calc (overlay memory start (filled r t i))[start + o]?
      = (overlay (Array.replicate (r.sizeOf t) 0) 0 (filled r t i))[0 + o]? :=
        Bytes.overlay_congr hmemory (by simp) (fun x hx => by have := hin x hx; omega) hlt
          (.inr (exists_mem_filled hc h))
    _ = (overlay (Array.replicate (r.sizeOf t) 0) 0 (placed r t 0 i))[0 + o]? := by
        rw [filled, Bytes.overlay_append]
        refine Bytes.overlay_congr (by simp) (by simp)
          (fun x hx => by have := hin x (List.mem_append_right _ hx); omega) hlt (.inl ?_)
        refine hzeros _ fun x hx => ?_
        split at hx
        · exact zero_of_mem_zeroed hx
        · cases hx
    _ = bytes[o]? := by
        rw [Static.image_eq hc himage, Nat.zero_add, Array.getElem?_toList]

end Scalars

/-! Parts. -/

/-- An initializer somewhere within another one, with the object that it initializes: the items of a list
initialize in turn the elements of an array or the members of a struct. -/
inductive Inner (r : Registry) : TypeId → Nat → Initializer → TypeId → Nat → Initializer → Prop where
  | self {t o i} : Inner r t o i t o i
  | item {t o items span t' o' i'} {n : Nat} {part : Segment × MemberRef} {i : Initializer} : (r.parts t)[n]? = some part → items[n]? = some i →
      Inner r part.2.ty (o + part.2.offset) i t' o' i' → Inner r t o (.list items span) t' o' i'

section Parts

variable {E : Env} {C : Site} {t t' : TypeId} {o o' : Nat} {i i' : Initializer} {items : List Initializer}
  {span : Span}

/-- What the parts of an object get from the items of a list. -/
def placedParts (r : Registry) (o : Nat) (parts : List (Segment × MemberRef)) (items : List Initializer) :
    List (Nat × UInt8) :=
  (parts.zip items).flatMap fun x => placed r x.1.2.ty (o + x.1.2.offset) x.2

theorem placedElements_eq (r : Registry) (element : TypeId) (o : Nat) {n : Nat} (k : Nat)
    (h : items.length ≤ n) : placedElements r element (o + k * r.sizeOf element) items =
      placedParts r o ((List.range' k n).map fun i => (.subscript i, ⟨element, i * r.sizeOf element⟩))
        items := by
  induction items generalizing k n with
  | nil => simp [placedElements, placedParts]
  | cons i items ih =>
    cases n with
    | zero => cases h
    | succ n =>
      have hrest := ih (k + 1) (Nat.le_of_succ_le_succ h)
      rw [Nat.succ_mul, ← Nat.add_assoc] at hrest
      rw [placedElements, hrest, List.range'_succ]
      rfl

theorem placedMembers_eq (r : Registry) (o : Nat) (ms : List Member) :
    placedMembers r o ms items =
      placedParts r o (ms.map fun m => (.member m.name, ⟨m.ty, m.offset⟩)) items := by
  induction items generalizing ms with
  | nil => simp [placedMembers, placedParts]
  | cons i items ih =>
    cases ms with
    | nil => rw [placedMembers]; rfl
    | cons m ms =>
      rw [placedMembers, ih]
      rfl

theorem length_le_of_initializesAll {ts : List TypeId} (h : InitializesAll E C ts items) :
    items.length ≤ ts.length := by
  induction items generalizing ts with
  | nil => exact Nat.zero_le _
  | cons i items ih =>
    cases h with
    | cons _ hrest => exact Nat.succ_le_succ (ih hrest)

theorem initializes_of_mem {ts : List TypeId} (h : InitializesAll E C ts items) :
    ∀ x ∈ ts.zip items, Initializes E C x.1 x.2 := by
  induction items generalizing ts with
  | nil => simp
  | cons i items ih =>
    cases h with
    | cons hi hrest => exact List.forall_mem_cons.mpr ⟨hi, ih hrest⟩

/-- An aggregate is initialized part by part. -/
theorem initializes_parts (hpart : E.registry.parts t ≠ []) (h : Initializes E C t (.list items span)) :
    InitializesAll E C ((E.registry.parts t).map (·.2.ty)) items ∧
      placed E.registry t o (.list items span) = placedParts E.registry o (E.registry.parts t) items := by
  cases h with
  | @elements _ _ element length _ _ hty hitems =>
    have hlength := length_le_of_initializesAll hitems
    rw [List.length_replicate] at hlength
    have hplaced := placedElements_eq E.registry element o 0 hlength
    rw [Nat.zero_mul, Nat.add_zero, ← List.range_eq_range'] at hplaced
    constructor
    · simpa [Registry.parts, hty, Function.comp_def] using hitems
    · simp only [placed, hty, hplaced, Registry.parts]
  | members hty hitems =>
    constructor
    · simpa [Registry.parts, hty, Function.comp_def] using hitems
    · simp only [placed, hty, placedMembers_eq, Registry.parts]
  | scalar hscalar =>
    refine absurd ?_ hpart
    unfold Registry.isScalar Registry.isInteger Registry.isPointer at hscalar
    unfold Registry.parts
    cases hty : E.registry.ty t <;> simp [hty] at hscalar ⊢

/-- Bytes apart from a part of an object. -/
def OutPart (offset size : Nat) (ps : List (Nat × UInt8)) : Prop :=
  ∀ x ∈ ps, x.1 < offset ∨ offset + size ≤ x.1

/-- Where the object of an inner initializer lies in the whole, and what else the whole mentions. -/
structure Enclosed (r : Registry) (t : TypeId) (o : Nat) (i : Initializer) (t' : TypeId) (o' : Nat)
    (i' : Initializer) : Prop where
  start : o ≤ o'
  stop : o' + r.sizeOf t' ≤ o + r.sizeOf t
  leaf : ∀ k, r.IsLeaf t' k → r.IsLeaf t (o' - o + k)
  bytes : ∃ ps qs, placed r t o i = ps ++ (placed r t' o' i' ++ qs) ∧ OutPart o' (r.sizeOf t') (ps ++ qs)

/-- Of parts in order, those before one end before it and those behind begin behind it. -/
theorem outPart_placedParts (hc : E.registry.Consistent) {parts : List (Segment × MemberRef)}
    (h : ∀ x ∈ parts.zip items, Initializes E C x.1.2.ty x.2) {p : MemberRef}
    (hparts : ∀ x ∈ parts, x.2.offset + E.registry.sizeOf x.2.ty ≤ p.offset ∨
      p.offset + E.registry.sizeOf p.ty ≤ x.2.offset) :
    OutPart (o + p.offset) (E.registry.sizeOf p.ty) (placedParts E.registry o parts items) := by
  intro y hy
  obtain ⟨x, hx, hy⟩ := List.mem_flatMap.mp hy
  have hin := inPart_placed hc x.1.2.ty x.2 (h x hx) (o + x.1.2.offset) y hy
  have hapart := hparts x.1 (List.of_mem_zip hx).1
  omega

theorem eq_append_of_getElem? {α : Type} {xs : List α} {n : Nat} {x : α} (h : xs[n]? = some x) :
    xs = xs.take n ++ x :: xs.drop (n + 1) := by
  obtain ⟨hlt, rfl⟩ := List.getElem?_eq_some_iff.mp h
  rw [← List.drop_eq_getElem_cons hlt, List.take_append_drop]

/-- One item of a list, with what the items before and behind it mention. -/
theorem enclosed_item (hc : E.registry.Consistent) (h : Initializes E C t (.list items span)) {n : Nat}
    {part : Segment × MemberRef} (hpart : (E.registry.parts t)[n]? = some part) (hi : items[n]? = some i) :
    Initializes E C part.2.ty i ∧
      Enclosed E.registry t o (.list items span) part.2.ty (o + part.2.offset) i := by
  have hmem := List.mem_of_getElem? hpart
  obtain ⟨hall, hplaced⟩ := initializes_parts (o := o) (List.ne_nil_of_mem hmem) h
  have hzip : ∀ x ∈ (E.registry.parts t).zip items, Initializes E C x.1.2.ty x.2 := by
    intro x hx
    refine initializes_of_mem hall (x.1.2.ty, x.2) ?_
    rw [List.zip_map_left]
    exact List.mem_map_of_mem (f := Prod.map (fun part : Segment × MemberRef => part.2.ty) id) hx
  have hparts := eq_append_of_getElem? hpart
  have hitems := eq_append_of_getElem? hi
  have hlength : ((E.registry.parts t).take n).length = (items.take n).length := by
    rw [List.length_take_of_le (Nat.le_of_lt (List.getElem?_eq_some_iff.mp hpart).1),
      List.length_take_of_le (Nat.le_of_lt (List.getElem?_eq_some_iff.mp hi).1)]
  have hpairs := hc.parts_ordered t
  rw [hparts] at hpairs
  obtain ⟨-, hrest, hbefore⟩ := List.pairwise_append.mp hpairs
  have hzipped : (E.registry.parts t).zip items =
      ((E.registry.parts t).take n).zip (items.take n) ++
        (part, i) :: ((E.registry.parts t).drop (n + 1)).zip (items.drop (n + 1)) := by
    rw [← List.zip_cons_cons, ← List.zip_append hlength, ← hparts, ← hitems]
  rw [hzipped] at hzip
  rw [placedParts, hzipped, List.flatMap_append, List.flatMap_cons] at hplaced
  obtain ⟨hfront, hmiddle⟩ := List.forall_mem_append.mp hzip
  obtain ⟨hinit, hback⟩ := List.forall_mem_cons.mp hmiddle
  have hinside := (hc.part hmem).inside
  refine ⟨hinit, Nat.le_add_right _ _, by omega, fun k hk => ?_, _, _, hplaced, fun x hx => ?_⟩
  · rw [Nat.add_sub_cancel_left]
    exact hc.isLeaf_of_part hmem hk
  · rcases List.mem_append.mp hx with hx | hx
    · exact outPart_placedParts hc hfront
        (fun y hy => .inl (hbefore y hy part List.mem_cons_self)) x hx
    · exact outPart_placedParts hc hback (fun y hy => .inr ((List.pairwise_cons.mp hrest).1 y hy)) x hx

theorem Enclosed.trans {r : Registry} {t₁ t₂ t₃ : TypeId} {o₁ o₂ o₃ : Nat} {i₁ i₂ i₃ : Initializer}
    (h : Enclosed r t₁ o₁ i₁ t₂ o₂ i₂) (h' : Enclosed r t₂ o₂ i₂ t₃ o₃ i₃) : Enclosed r t₁ o₁ i₁ t₃ o₃ i₃ := by
  have hstart := h.start
  have hstop := h.stop
  have hstart' := h'.start
  have hstop' := h'.stop
  obtain ⟨ps, qs, hbytes, hout⟩ := h.bytes
  obtain ⟨ps', qs', hbytes', hout'⟩ := h'.bytes
  refine ⟨Nat.le_trans hstart hstart', Nat.le_trans hstop' hstop, fun k hk => ?_,
    ps ++ ps', qs' ++ qs, ?_, fun x hx => ?_⟩
  · have hleaf := h.leaf _ (h'.leaf k hk)
    rwa [← Nat.add_assoc, show o₂ - o₁ + (o₃ - o₂) = o₃ - o₁ by omega] at hleaf
  · simp only [hbytes, hbytes', List.append_assoc]
  · have hall : x ∈ ps ++ qs ∨ x ∈ ps' ++ qs' := by
      simp only [List.mem_append] at hx ⊢
      tauto
    rcases hall with hx | hx
    · have hapart := hout x hx
      omega
    · exact hout' x hx

/-- By induction on the way from the whole to the part, one list after the other. -/
theorem Inner.enclosed {r : Registry} (hc : r.Consistent) {G : List Symbol} (h : Inner r t o i t' o' i')
    (hi : Initializes ⟨r, G⟩ C t i) : Initializes ⟨r, G⟩ C t' i' ∧ Enclosed r t o i t' o' i' := by
  induction h with
  | @self t o i =>
    refine ⟨hi, Nat.le_refl _, Nat.le_refl _, fun k hk => ?_, [], [], ?_, nofun⟩
    · rwa [Nat.sub_self, Nat.zero_add]
    · rw [List.nil_append, List.append_nil]
  | item hpart hitem _ ih =>
    obtain ⟨hinit, henclosed⟩ := enclosed_item hc hi hpart hitem
    obtain ⟨hinit', henclosed'⟩ := ih hinit
    exact ⟨hinit', henclosed.trans henclosed'⟩

end Parts

/-! Texts in arrays. -/

section Texts

variable {r : Registry} {G : List Symbol} {C : Site} {t t' element : TypeId} {o' length : Nat} {i : Initializer}
  {text : String} {span : Span} {ty : Option TypeId}

/-- Only an array of bytes that has room for all of a text is initialized by it. -/
theorem room_of_text (hty : r.ty t = .array element length)
    (h : Initializes ⟨r, G⟩ C t (.expr ⟨.string text, span, ty⟩)) :
    r.sizeOf element = 1 ∧ r.isInteger element = true ∧ (ofText text).length ≤ length := by
  cases h with
  | text hty' hsize hinteger hroom =>
    obtain ⟨rfl, rfl⟩ := Ty.array.inj (hty.symm.trans hty')
    rw [Bytes.length_ofText]
    exact ⟨hsize, hinteger, hroom⟩
  | value hmovable =>
    simp [Registry.Movable, Registry.isScalar, Registry.isInteger, Registry.isPointer,
      Registry.isStruct, hty] at hmovable

/-- There is no padding in an array of bytes. -/
theorem isLeaf_bytes (hc : r.Consistent) (hty : r.ty t = .array element length)
    (hsize : r.sizeOf element = 1) (hinteger : r.isInteger element = true) {j : Nat} (hj : j < length) :
    r.IsLeaf t j := by
  have hpart : ((.subscript j, ⟨element, j * r.sizeOf element⟩) : Segment × MemberRef) ∈ r.parts t := by
    simp only [Registry.parts, hty]
    exact List.mem_map_of_mem (List.mem_range.mpr hj)
  have hleaf : r.IsLeaf element 0 := by
    unfold Registry.isInteger at hinteger
    cases hint : r.ty element with
    | int bytes signed =>
      have ha : r.access? element = some ⟨bytes, signed⟩ := by simp only [Registry.access?, hint]
      have hbytes : bytes = r.sizeOf element := (hc.access_size ha).1
      rw [Registry.IsLeaf, Registry.moves_scalar ha]
      refine ⟨_, List.mem_singleton_self _, Nat.le_refl _, ?_⟩
      show 0 < 0 + bytes
      omega
    | _ => simp [hint] at hinteger
  have hbyte := hc.isLeaf_of_part hpart hleaf
  rwa [hsize, Nat.mul_one] at hbyte

/-- The image of an object has the bytes of a text in the array that it initializes, and zeros behind them. -/
theorem Static.image_text (hc : r.Consistent) {bytes : List UInt8} (himage : Static.image r t i = .ok bytes)
    (h : Inner r t 0 i t' o' (.expr ⟨.string text, span, ty⟩)) (hi : Initializes ⟨r, G⟩ C t i)
    (hty : r.ty t' = .array element length) {j : Nat} (hj : j < length) :
    bytes[o' + j]? = some ((ofText text).getD j 0) := by
  obtain ⟨hinit, henclosed⟩ := h.enclosed hc hi
  obtain ⟨hone, -, hroom⟩ := room_of_text hty hinit
  have hsize : r.sizeOf t' = length := by rw [(hc.size_array hty).1, hone, Nat.one_mul]
  have hstop := henclosed.stop
  obtain ⟨ps, qs, hplaced, hout⟩ := henclosed.bytes
  rw [hsize] at hstop hout
  have houtside (xs : List (Nat × UInt8)) (hxs : ∀ x ∈ xs, x ∈ ps ++ qs) (memory : Array UInt8) :
      (overlay memory 0 xs)[o' + j]? = memory[o' + j]? := by
    refine Bytes.getElem?_overlay_of_ne fun x hx => ?_
    have hapart := hout x (hxs x hx)
    omega
  have htext : placed r t' o' (.expr ⟨.string text, span, ty⟩) = spread o' (ofText text) := by
    simp only [placed, hty, List.take_of_length_le hroom]
  rw [Static.image_eq hc himage, hplaced, htext, Array.getElem?_toList, Bytes.overlay_append,
    Bytes.overlay_append, houtside qs fun x hx => List.mem_append_right _ hx]
  have hzero : (overlay (Array.replicate (r.sizeOf t) 0) 0 ps)[o' + j]? = some 0 := by
    rw [houtside ps fun x hx => List.mem_append_left _ hx, Array.getElem?_replicate, if_pos (by omega)]
  have hwrite := Bytes.writeList_eq (overlay (Array.replicate (r.sizeOf t) 0) 0 ps) 0 o' (ofText text)
  rw [Nat.zero_add] at hwrite
  rw [← hwrite]
  by_cases hlt : j < (ofText text).length
  · rw [Bytes.getElem?_writeList (by rw [Bytes.size_overlay, Array.size_replicate]; omega) hlt, List.getD_eq_getElem?_getD,
      List.getElem?_eq_getElem hlt, Option.getD_some]
  · rw [Bytes.getElem?_writeList_of_outside (.inr (by omega)), hzero, List.getD_eq_getElem?_getD,
      List.getElem?_eq_none (by omega), Option.getD_none]

end Texts

end MiniC.Lowering
