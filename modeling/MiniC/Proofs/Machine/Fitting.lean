import MiniC.Proofs.Layout.Placement
import MiniC.Proofs.Machine.Loading
import MiniC.Proofs.Machine.Words
/-!
Which modules fit into a memory. The objects of a module are laid out in unbounded arithmetic, each at
the least address that suits it above those before. Main statement: a module is loaded exactly if this
layout and the alignment of the stack stay within the memory; then it is the layout of the loaded image,
which has the initial bytes of every object and zeros everywhere else.
-/
namespace MiniC.Machine

open Code (Module)
open Layout (addressSpace maxObjectSize roundUp roundUp_le roundUp_lt le_roundUp)

/-- A global or a string: the bytes that it starts out with, and the room that it needs. -/
structure Item where
  name : String
  data : List UInt8
  size : Nat
  align : Nat
  deriving DecidableEq, Repr

def Item.ofGlobal (g : Code.Global) : Item := ⟨g.name, g.image.getD [], g.size, g.align⟩

/-- A string needs one byte more than it has, and every address suits it. -/
def Item.ofDatum (d : Code.Datum) : Item := ⟨d.label, Bytes.ofText d.text, sizeOfDatum d, 1⟩

def items (m : Module) : List Item := m.globals.map .ofGlobal ++ m.data.map .ofDatum

/-- Each item at the least multiple of its alignment above the items before it. -/
def layOut : (cursor : Nat) → List Item → List (Item × Nat)
  | _, [] => []
  | cursor, i :: is => (i, roundUp cursor i.align) :: layOut (roundUp cursor i.align + i.size) is

/-- Where the last item ends. -/
def endOf : (cursor : Nat) → List Item → Nat
  | cursor, [] => cursor
  | cursor, i :: is => endOf (roundUp cursor i.align + i.size) is

/-- The objects of a module at their addresses. -/
def layout (m : Module) : List (Item × Nat) := layOut nullGuard (items m)

/-- Where the stack begins, above all objects. -/
def stackStart (m : Module) : Nat := roundUp (endOf nullGuard (items m)) Image.stackAlign

def Item.placement (x : Item × Nat) : Placement := ⟨x.1.name, x.2, x.1.data⟩

section Layouts

variable {cursor : Nat} {is : List Item}

theorem layOut_append (cursor : Nat) (is is' : List Item) :
    layOut cursor (is ++ is') = layOut cursor is ++ layOut (endOf cursor is) is' := by
  induction is generalizing cursor with
  | nil => rfl
  | cons i is ih => exact congrArg _ (ih _)

theorem endOf_append (cursor : Nat) (is is' : List Item) :
    endOf cursor (is ++ is') = endOf (endOf cursor is) is' := by
  induction is generalizing cursor with
  | nil => rfl
  | cons i is ih => exact ih _

@[simp]
theorem map_fst_layOut (cursor : Nat) (is : List Item) : (layOut cursor is).map (·.1) = is := by
  induction is generalizing cursor with
  | nil => rfl
  | cons i is ih => exact congrArg _ (ih _)

theorem le_endOf (h : ∀ i ∈ is, 0 < i.align) : cursor ≤ endOf cursor is := by
  induction is generalizing cursor with
  | nil => exact Nat.le_refl _
  | cons i is ih =>
    obtain ⟨hi, his⟩ := List.forall_mem_cons.mp h
    have hstart := le_roundUp (n := cursor) hi
    have hrest : roundUp cursor i.align + i.size ≤ endOf (roundUp cursor i.align + i.size) is := ih his
    show cursor ≤ endOf (roundUp cursor i.align + i.size) is
    omega

theorem inside_layOut (h : ∀ i ∈ is, 0 < i.align) :
    ∀ x ∈ layOut cursor is, cursor ≤ x.2 ∧ x.2 + x.1.size ≤ endOf cursor is := by
  induction is generalizing cursor with
  | nil => exact nofun
  | cons i is ih =>
    obtain ⟨hi, his⟩ := List.forall_mem_cons.mp h
    have hstart := le_roundUp (n := cursor) hi
    refine List.forall_mem_cons.mpr ⟨⟨hstart, le_endOf his⟩, fun x hx => ?_⟩
    obtain ⟨hle, hstop⟩ := ih his x hx
    exact ⟨by omega, hstop⟩

theorem ordered_layOut (h : ∀ i ∈ is, 0 < i.align) :
    (layOut cursor is).Pairwise fun x y => x.2 + x.1.size ≤ y.2 := by
  induction is generalizing cursor with
  | nil => exact .nil
  | cons i is ih =>
    obtain ⟨hi, his⟩ := List.forall_mem_cons.mp h
    exact .cons (fun y hy => (inside_layOut his y hy).1) (ih his)

theorem aligned_layOut : ∀ x ∈ layOut cursor is, x.1.align ∣ x.2 := by
  induction is generalizing cursor with
  | nil => exact nofun
  | cons i is ih => exact List.forall_mem_cons.mpr ⟨Layout.dvd_roundUp cursor i.align, ih⟩

end Layouts

/-! Addresses that stop at the largest word. -/

section Saturated

variable {limits : Limits} {n k exact cursor : Nat}

theorem roundUp_one (n : Nat) : roundUp n 1 = n := by
  unfold roundUp
  omega

/-- Rounding up leaves the address space exactly if the rounded address does. -/
theorem alignTo_of_pos (hn : 0 < n) (k : Nat) :
    Layout.alignTo n (2 ^ k) =
      if roundUp n (2 ^ k) < addressSpace then some (roundUp n (2 ^ k)) else none := by
  have hpos : 0 < 2 ^ k := Nat.two_pow_pos k
  have hlt := roundUp_lt (n := n) hpos
  have hspace : addressSpace = 2 ^ 64 := by decide
  rw [Layout.alignTo_two_pow]
  by_cases htop : n + (2 ^ k - 1) < addressSpace
  · rw [if_pos htop, if_pos (by omega)]
  · rw [if_neg htop, if_neg ?_]
    rw [Nat.not_lt]
    by_cases hk : k ≤ 64
    · calc addressSpace = 2 ^ 64 / 2 ^ k * 2 ^ k := by
            rw [hspace, Nat.div_mul_cancel (Nat.pow_dvd_pow 2 hk)]
        _ ≤ roundUp n (2 ^ k) := Nat.mul_le_mul_right _ (Nat.div_le_div_right (by omega))
    · have hlarge : 2 ^ 64 ≤ 2 ^ k := Nat.pow_le_pow_right (by decide) (by omega)
      have hne : 0 < roundUp n (2 ^ k) := Nat.lt_of_lt_of_le hn (le_roundUp hpos)
      have hmultiple := Nat.le_of_dvd hne (Layout.dvd_roundUp n (2 ^ k))
      omega

theorem pos_of_two_pow {is : List Item} (h : ∀ i ∈ is, ∃ k, i.align = 2 ^ k) : ∀ i ∈ is, 0 < i.align := by
  intro i hi
  obtain ⟨k, hk⟩ := h i hi
  rw [hk]
  exact Nat.two_pow_pos k

theorem placeGlobals_of_fits {gs : List Code.Global} (limits : Limits)
    (hpow : ∀ g ∈ gs, ∃ k, g.align = 2 ^ k) (hcursor : 0 < cursor)
    (h : endOf cursor (gs.map .ofGlobal) < addressSpace - 1) :
    Image.placeGlobals limits cursor gs =
      .ok ((layOut cursor (gs.map .ofGlobal)).map Item.placement, endOf cursor (gs.map .ofGlobal)) := by
  induction gs generalizing cursor with
  | nil => rfl
  | cons g gs ih =>
    obtain ⟨⟨k, hk⟩, hgs⟩ := List.forall_mem_cons.mp hpow
    have hpos : 0 < g.align := by
      rw [hk]
      exact Nat.two_pow_pos k
    have hend : endOf (roundUp cursor g.align + g.size) (gs.map .ofGlobal) < addressSpace - 1 := h
    have hle : roundUp cursor g.align + g.size ≤ endOf _ (gs.map Item.ofGlobal) :=
      le_endOf (pos_of_two_pow (List.forall_mem_map.mpr hgs))
    have hstart := le_roundUp (n := cursor) hpos
    have halign : Layout.alignTo cursor (max g.align 1) = some (roundUp cursor g.align) := by
      rw [Nat.max_eq_left hpos, hk, alignTo_of_pos hcursor, if_pos (by rw [← hk]; omega)]
    have hadvance : Image.advance (roundUp cursor g.align) g.size = roundUp cursor g.align + g.size := by
      unfold Image.advance
      omega
    simp only [Image.placeGlobals, halign, hadvance, ih hgs (by omega) hend]
    rfl

/-- The cursor is the exact one, or the largest address. -/
theorem placeGlobals_of_overflow {gs : List Code.Global} (limits : Limits)
    (hpow : ∀ g ∈ gs, ∃ k, g.align = 2 ^ k) (hexact : 0 < exact)
    (h : addressSpace - 1 ≤ endOf exact (gs.map .ofGlobal)) :
    Image.placeGlobals limits (min exact (addressSpace - 1)) gs =
        .error (.outOfMemory (addressSpace - 1) limits.memory) ∨
      ∃ ps, Image.placeGlobals limits (min exact (addressSpace - 1)) gs = .ok (ps, addressSpace - 1) := by
  have hspace : 1 < addressSpace := by decide
  induction gs generalizing exact with
  | nil =>
    right
    refine ⟨[], ?_⟩
    have hlast : min exact (addressSpace - 1) = addressSpace - 1 := Nat.min_eq_right h
    rw [hlast]
    rfl
  | cons g gs ih =>
    obtain ⟨⟨k, hk⟩, hgs⟩ := List.forall_mem_cons.mp hpow
    have hpos : 0 < g.align := by
      rw [hk]
      exact Nat.two_pow_pos k
    have hstart := le_roundUp (n := exact) hpos
    rw [Image.placeGlobals, Nat.max_eq_left hpos]
    cases halign : Layout.alignTo (min exact (addressSpace - 1)) g.align with
    | none => exact .inl rfl
    | some address =>
      have hadvance : Image.advance address g.size =
          min (roundUp exact g.align + g.size) (addressSpace - 1) := by
        rw [hk, alignTo_of_pos (by omega)] at halign
        split at halign
        · rename_i hlt
          cases halign
          rw [← hk] at hlt ⊢
          have hle := le_roundUp (n := min exact (addressSpace - 1)) hpos
          unfold Image.advance
          by_cases hsmall : exact ≤ addressSpace - 1
          · rw [Nat.min_eq_left hsmall]
          · omega
        · cases halign
      have hend : addressSpace - 1 ≤ endOf (roundUp exact g.align + g.size) (gs.map .ofGlobal) := h
      simp only [hadvance]
      rcases @ih (roundUp exact g.align + g.size) hgs (by omega) hend with herror | ⟨ps, hok⟩
      · left
        simp only [herror]
      · right
        simp only [hok]
        exact ⟨_, rfl⟩

theorem placeData_of_fits {ds : List Code.Datum} (h : endOf cursor (ds.map .ofDatum) < addressSpace - 1) :
    Image.placeData cursor ds =
      ((layOut cursor (ds.map .ofDatum)).map Item.placement, endOf cursor (ds.map .ofDatum)) := by
  induction ds generalizing cursor with
  | nil => rfl
  | cons d ds ih =>
    have hplace : roundUp cursor (Item.ofDatum d).align = cursor := roundUp_one cursor
    have hpos : ∀ i ∈ ds.map Item.ofDatum, 0 < i.align :=
      List.forall_mem_map.mpr fun _ _ => Nat.one_pos
    rw [List.map_cons, endOf, hplace] at h
    have hle : cursor + (Item.ofDatum d).size ≤ endOf (cursor + (Item.ofDatum d).size) (ds.map .ofDatum) :=
      le_endOf hpos
    have hadvance : Image.advance cursor ((Bytes.ofText d.text).length + 1) =
        cursor + (Item.ofDatum d).size := by
      show min (cursor + (Item.ofDatum d).size) (addressSpace - 1) = _
      omega
    simp only [Image.placeData, hadvance, ih h]
    rw [List.map_cons, layOut, endOf, hplace]
    rfl

theorem end_placeData (exact : Nat) (ds : List Code.Datum) :
    (Image.placeData (min exact (addressSpace - 1)) ds).2 =
      min (endOf exact (ds.map .ofDatum)) (addressSpace - 1) := by
  induction ds generalizing exact with
  | nil => rfl
  | cons d ds ih =>
    have hadvance : Image.advance (min exact (addressSpace - 1)) ((Bytes.ofText d.text).length + 1) =
        min (exact + (Item.ofDatum d).size) (addressSpace - 1) := by
      show min (min exact (addressSpace - 1) + (Item.ofDatum d).size) (addressSpace - 1) = _
      omega
    have hplace : roundUp exact (Item.ofDatum d).align = exact := roundUp_one exact
    rw [List.map_cons, endOf, hplace, ← ih]
    simp only [Image.placeData, hadvance]

theorem stackBase_of_fits (hexact : 0 < exact) (hmemory : limits.memory < addressSpace)
    (h : roundUp exact Image.stackAlign ≤ limits.memory) :
    Image.stackBase limits exact = .ok (roundUp exact Image.stackAlign) := by
  have halign : Layout.alignTo exact Image.stackAlign = some (roundUp exact Image.stackAlign) := by
    have hpow := alignTo_of_pos hexact 4
    exact hpow.trans (if_pos (Nat.lt_of_le_of_lt h hmemory))
  rw [Image.stackBase, halign]
  exact if_pos h

theorem stackBase_of_overflow (hexact : 0 < exact) (h : limits.memory < roundUp exact Image.stackAlign) :
    ∃ needed, Image.stackBase limits (min exact (addressSpace - 1)) =
      .error (.outOfMemory needed limits.memory) := by
  have hspace : addressSpace = 2 ^ 64 := by decide
  refine ⟨min exact (addressSpace - 1), ?_⟩
  have hpow := alignTo_of_pos (n := min exact (addressSpace - 1)) (by omega) 4
  have halign : Layout.alignTo (min exact (addressSpace - 1)) Image.stackAlign = _ := hpow
  rw [Image.stackBase, halign]
  by_cases hsmall : exact < addressSpace - 1
  · rw [Nat.min_eq_left (Nat.le_of_lt hsmall)]
    split
    · rename_i base hbase
      split at hbase
      · cases hbase
        exact if_neg (Nat.not_le.mpr h)
      · cases hbase
    · rfl
  · have hlarge : addressSpace ≤ roundUp (min exact (addressSpace - 1)) (2 ^ 4) := by
      unfold roundUp
      omega
    rw [if_neg (Nat.not_lt.mpr hlarge)]

end Saturated

/-! Loading. -/

section Loading

variable {m : Module} {limits : Limits} {l : Loaded}

theorem pos_of_items (hpow : ∀ g ∈ m.globals, ∃ k, g.align = 2 ^ k) : ∀ i ∈ items m, 0 < i.align := by
  intro i hi
  rcases List.mem_append.mp hi with hi | hi
  · exact pos_of_two_pow (List.forall_mem_map.mpr hpow) i hi
  · obtain ⟨d, -, rfl⟩ := List.mem_map.mp hi
    exact Nat.one_pos

theorem endOf_lt (h : stackStart m < addressSpace) : endOf nullGuard (items m) < addressSpace - 1 := by
  have hspace : addressSpace = 2 ^ 64 := by decide
  have hle : endOf nullGuard (items m) ≤ roundUp (endOf nullGuard (items m)) Image.stackAlign :=
    le_roundUp (by decide)
  have hdvd := Layout.dvd_roundUp (endOf nullGuard (items m)) Image.stackAlign
  unfold stackStart at h
  unfold Image.stackAlign at *
  omega

/-- A text that fits is written. -/
theorem exists_writeBytes {memory : Memory} {start : Nat} {data : List UInt8} (hstart : nullGuard ≤ start)
    (hfits : start + data.length ≤ memory.size) (hwords : memory.size ≤ maxObjectSize) :
    ∃ memory', memory.writeBytes (Int64.ofNat start) data = .ok memory' ∧ memory'.size = memory.size := by
  have hint : (Int64.ofNat start).toInt = start := by
    have hmax : maxObjectSize = 2 ^ 63 - 1 := by decide
    rw [Int64.toInt_ofNat']
    simp only [Int64.size, Int.bmod]
    omega
  have hlocate : memory.locate (Int64.ofNat start) data.length = .ok start := by
    rw [Memory.locate_eq, if_pos ⟨by omega, by omega⟩, hint, Int.toNat_natCast]
  refine ⟨⟨Bytes.writeList memory.bytes start data⟩, ?_, Bytes.size_writeList ..⟩
  rw [Memory.writeBytes, hlocate]

theorem exists_fill {ps : List Placement} {memory : Memory} (hwords : memory.size ≤ maxObjectSize)
    (hps : ∀ p ∈ ps, nullGuard ≤ p.address ∧ p.address + p.bytes.length ≤ memory.size) :
    ∃ memory', Image.fill memory ps = .ok memory' := by
  induction ps generalizing memory with
  | nil => exact ⟨memory, rfl⟩
  | cons p ps ih =>
    obtain ⟨⟨hstart, hfits⟩, hps⟩ := List.forall_mem_cons.mp hps
    rw [Image.fill]
    by_cases hempty : p.bytes.isEmpty = true
    · rw [if_pos hempty]
      exact ih hwords hps
    · obtain ⟨filled, hwrite, hsize⟩ := exists_writeBytes hstart hfits hwords
      have hwrite' : memory.writeBytes (Image.address p) p.bytes = .ok filled := hwrite
      rw [if_neg hempty, hwrite']
      exact ih (by rwa [hsize]) (by rwa [hsize])

/-- The placements of a module that fits are those of its layout. -/
theorem placed_of_fits (hpow : ∀ g ∈ m.globals, ∃ k, g.align = 2 ^ k) (h : stackStart m < addressSpace)
    (limits : Limits) :
    ∃ globals cursor, Image.placeGlobals limits nullGuard m.globals = .ok (globals, cursor) ∧
      (Image.placeData cursor m.data).2 = endOf nullGuard (items m) ∧
      globals ++ (Image.placeData cursor m.data).1 = (layout m).map Item.placement := by
  have hend := endOf_lt h
  rw [items, endOf_append] at hend
  have hle : endOf nullGuard (m.globals.map .ofGlobal) ≤
      endOf (endOf nullGuard (m.globals.map .ofGlobal)) (m.data.map .ofDatum) :=
    le_endOf (List.forall_mem_map.mpr fun _ _ => Nat.one_pos)
  have hglobals := placeGlobals_of_fits limits hpow (by decide) (Nat.lt_of_le_of_lt hle hend)
  have hdata := placeData_of_fits hend
  refine ⟨_, _, hglobals, ?_, ?_⟩
  · rw [hdata, items, endOf_append]
  · rw [hdata, layout, items, layOut_append, List.map_append]

theorem load_of_overflow (hpow : ∀ g ∈ m.globals, ∃ k, g.align = 2 ^ k) (h : limits.memory < stackStart m) :
    ∃ needed, load m limits = .error (.outOfMemory needed limits.memory) := by
  have hpos := pos_of_items hpow
  have hguard : 0 < endOf nullGuard (items m) := Nat.lt_of_lt_of_le (by decide) (le_endOf hpos)
  obtain ⟨needed, hbase⟩ := stackBase_of_overflow hguard h
  -- The stack begins where it cannot, once the globals are placed.
  have hplaced {ps : List Placement} (hglobals : Image.placeGlobals limits nullGuard m.globals =
      .ok (ps, min (endOf nullGuard (m.globals.map .ofGlobal)) (addressSpace - 1))) :
      load m limits = .error (.outOfMemory needed limits.memory) := by
    have hdata := end_placeData (endOf nullGuard (m.globals.map .ofGlobal)) m.data
    rw [← endOf_append] at hdata
    simp only [load, hglobals, bind, Except.bind, hdata]
    rw [show endOf nullGuard (m.globals.map .ofGlobal ++ m.data.map .ofDatum) =
      endOf nullGuard (items m) from rfl, hbase]
  by_cases hfits : endOf nullGuard (m.globals.map .ofGlobal) < addressSpace - 1
  · have hok := placeGlobals_of_fits limits hpow (by decide : 0 < nullGuard) hfits
    rw [← Nat.min_eq_left (Nat.le_of_lt hfits)] at hok
    exact ⟨needed, hplaced hok⟩
  · rcases placeGlobals_of_overflow limits hpow (by decide : 0 < nullGuard) (Nat.le_of_not_lt hfits)
      with herror | ⟨ps, hok⟩
    · refine ⟨addressSpace - 1, ?_⟩
      have hstart : min nullGuard (addressSpace - 1) = nullGuard := by decide
      rw [hstart] at herror
      simp only [load, herror, bind, Except.bind]
    · refine ⟨needed, @hplaced ps ?_⟩
      rw [Nat.min_eq_right (Nat.le_of_not_lt hfits)]
      exact hok

theorem inside_layout (hpow : ∀ g ∈ m.globals, ∃ k, g.align = 2 ^ k) :
    ∀ x ∈ layout m, nullGuard ≤ x.2 ∧ x.2 + x.1.size ≤ stackStart m := by
  intro x hx
  obtain ⟨hstart, hstop⟩ := inside_layOut (pos_of_items hpow) x hx
  exact ⟨hstart, hstop.trans (le_roundUp (by decide))⟩

theorem mem_layout {x : Item × Nat} (hx : x ∈ layout m) : x.1 ∈ items m := by
  have hmem := List.mem_map_of_mem (f := (·.1)) hx
  rwa [layout, map_fst_layOut] at hmem

/-- The initial bytes of an object are no more than its room. -/
theorem data_le_size (hdata : ∀ g ∈ m.globals, (g.image.getD []).length ≤ g.size) :
    ∀ i ∈ items m, i.data.length ≤ i.size := by
  intro i hi
  rcases List.mem_append.mp hi with hi | hi
  · obtain ⟨g, hg, rfl⟩ := List.mem_map.mp hi
    exact hdata g hg
  · obtain ⟨d, -, rfl⟩ := List.mem_map.mp hi
    exact Nat.le_succ _

theorem load_of_fits (hpow : ∀ g ∈ m.globals, ∃ k, g.align = 2 ^ k)
    (hdata : ∀ g ∈ m.globals, (g.image.getD []).length ≤ g.size) (hmemory : limits.memory ≤ maxObjectSize)
    (h : stackStart m ≤ limits.memory) :
    ∃ memory, Image.fill (Memory.zeros limits.memory) ((layout m).map Item.placement) = .ok memory ∧
      load m limits = .ok ⟨⟨limits, routinesOf m.functions, symbolsOf ((layout m).map Item.placement)⟩,
        ⟨memory, stackStart m, 0, 0⟩⟩ := by
  have hspace : limits.memory < addressSpace := by
    have heq := Layout.addressSpace_eq
    omega
  have hpos := pos_of_items hpow
  obtain ⟨globals, cursor, hglobals, hend, hplaced⟩ := placed_of_fits hpow (Nat.lt_of_le_of_lt h hspace) limits
  have hbase := stackBase_of_fits (Nat.lt_of_lt_of_le (by decide : 0 < nullGuard) (le_endOf hpos))
    hspace h
  have hsize : (Memory.zeros limits.memory).size = limits.memory := Array.size_replicate
  obtain ⟨memory, hfill⟩ : ∃ memory,
      Image.fill (Memory.zeros limits.memory) ((layout m).map Item.placement) = .ok memory := by
    apply exists_fill
    · rwa [hsize]
    · rw [hsize]
      intro p hp
      obtain ⟨x, hx, rfl⟩ := List.mem_map.mp hp
      obtain ⟨hstart, hstop⟩ := inside_layout hpow x hx
      have hlength : x.1.data.length ≤ x.1.size := data_le_size hdata x.1 (mem_layout hx)
      refine ⟨hstart, ?_⟩
      show x.2 + x.1.data.length ≤ limits.memory
      omega
  refine ⟨memory, hfill, ?_⟩
  simp only [load, hglobals, bind, Except.bind, hend, hplaced, hbase, hfill]
  rfl

/-- Of placements with different names each is found by its name. -/
theorem getElem?_symbolsOf {ps : List Placement} (hnames : (ps.map (·.name)).Nodup) {p : Placement}
    (hp : p ∈ ps) : (symbolsOf ps)[p.name]? = some (Image.address p) := by
  rw [symbolsOf, getElem?_foldl_insert Placement.name Image.address]
  cases hfind : ps.reverse.find? (·.name == p.name) with
  | none =>
    have hne := List.find?_eq_none.mp hfind p (List.mem_reverse.mpr hp)
    simp at hne
  | some q =>
    have hq : q ∈ ps := List.mem_reverse.mp (List.mem_of_find?_eq_some hfind)
    have hname : q.name = p.name := by simpa using List.find?_some hfind
    rw [List.inj_on_of_nodup_map hnames hq hp hname]

end Loading

/-- An image that is laid out as its module asks. -/
structure LaidOut (m : Module) (limits : Limits) (l : Loaded) : Prop where
  stack : l.state.stack = stackStart m
  size : l.state.memory.size = limits.memory
  /-- Every name leads to the least suitable address above the objects before. -/
  found : ∀ x ∈ layout m, l.address? x.1.name = some (Int64.ofNat x.2)
  aligned : ∀ x ∈ layout m, x.1.align ∣ x.2
  apart : (layout m).Pairwise fun x y => x.2 + x.1.size ≤ y.2
  inside : ∀ x ∈ layout m, nullGuard ≤ x.2 ∧ x.2 + x.1.size ≤ l.state.stack
  holds : ∀ x ∈ layout m, l.state.memory.Holds x.2 x.1.size x.1.data
  /-- Whatever belongs to no object is zero. -/
  zero : ∀ j < limits.memory, (∀ x ∈ layout m, j < x.2 ∨ x.2 + x.1.size ≤ j) →
    l.state.memory.bytes[j]? = some 0

theorem laidOut_of_fits {m : Module} {limits : Limits}
    (hnames : (m.globals.map (·.name) ++ m.data.map (·.label)).Nodup)
    (hpow : ∀ g ∈ m.globals, ∃ k, g.align = 2 ^ k)
    (hdata : ∀ g ∈ m.globals, (g.image.getD []).length ≤ g.size) (hmemory : limits.memory ≤ maxObjectSize)
    (h : stackStart m ≤ limits.memory) : ∃ l, load m limits = .ok l ∧ LaidOut m limits l := by
  obtain ⟨memory, hfill, hload⟩ := load_of_fits hpow hdata hmemory h
  have hsize : memory.size = limits.memory := (size_fill hfill).trans Array.size_replicate
  have hinside := inside_layout hpow
  have hspace : limits.memory < addressSpace := by
    have heq := Layout.addressSpace_eq
    omega
  have hlength : ∀ x ∈ layout m, x.1.data.length ≤ x.1.size :=
    fun x hx => data_le_size hdata x.1 (mem_layout hx)
  refine ⟨_, hload, rfl, hsize, fun x hx => ?_, fun x hx => ?_, ordered_layOut (pos_of_items hpow), hinside,
    fun x hx => ?_, fun j hj hout => ?_⟩
  · have hnodup : (((layout m).map Item.placement).map (·.name)).Nodup := by
      have hmap : ((layout m).map Item.placement).map (·.name) = (items m).map (·.name) := by
        rw [← map_fst_layOut nullGuard (items m), List.map_map, List.map_map]
        rfl
      rw [hmap, items, List.map_append, List.map_map, List.map_map]
      exact hnames
    exact getElem?_symbolsOf hnodup (List.mem_map_of_mem hx)
  · exact aligned_layOut x hx
  · -- Every object lies in memory that is zero before it is filled.
    have hpairs : ((layout m).map fun x => (Item.placement x, x.1.size)).map (·.1) =
        (layout m).map Item.placement := by
      rw [List.map_map]
      rfl
    have hordered : Ordered ((layout m).map fun x => (Item.placement x, x.1.size)) :=
      List.pairwise_map.mpr (ordered_layOut (pos_of_items hpow))
    rw [← hpairs] at hfill
    refine holds_fill hfill hordered (List.forall_mem_map.mpr fun y hy => ?_)
      (List.forall_mem_map.mpr fun y hy j hj => ?_) _ (List.mem_map_of_mem hx)
    · have hroom := (hinside y hy).2
      exact ⟨by show y.2 < _; omega, hlength y hy⟩
    · have hroom := (hinside y hy).2
      show (Array.replicate limits.memory 0)[y.2 + j]? = some 0
      rw [Array.getElem?_replicate, if_pos (by omega)]
  · have hfilled : memory.bytes[j]? = (Memory.zeros limits.memory).bytes[j]? := by
      refine bytes_fill_of_outside hfill (List.forall_mem_map.mpr fun x hx => ?_)
        (List.forall_mem_map.mpr fun x hx => ?_)
      · have hroom := (hinside x hx).2
        show x.2 < addressSpace
        omega
      · have hbytes := hlength x hx
        show j < x.2 ∨ x.2 + x.1.data.length ≤ j
        rcases hout x hx with hlt | hle
        · exact .inl hlt
        · exact .inr (by omega)
    show memory.bytes[j]? = some 0
    rw [hfilled, Memory.zeros, Array.getElem?_replicate, if_pos hj]

/-- A module whose objects have names of their own, alignments that are powers of two and no more initial
bytes than room is loaded exactly if its objects, each at the least suitable address above those before,
and the alignment of the stack stay within the memory, in unbounded arithmetic; otherwise memory has run
out. What is loaded is laid out so. No memory is larger than the largest object. -/
theorem loaded_iff_fits {m : Module} {limits : Limits}
    (hnames : (m.globals.map (·.name) ++ m.data.map (·.label)).Nodup)
    (hpow : ∀ g ∈ m.globals, ∃ k, g.align = 2 ^ k)
    (hdata : ∀ g ∈ m.globals, (g.image.getD []).length ≤ g.size)
    (hmemory : limits.memory ≤ maxObjectSize) :
    ((∃ l, load m limits = .ok l) ↔ stackStart m ≤ limits.memory) ∧
    (¬ stackStart m ≤ limits.memory →
      ∃ needed, load m limits = .error (.outOfMemory needed limits.memory)) ∧
    ∀ l, load m limits = .ok l → LaidOut m limits l := by
  have hrefused (h : ¬ stackStart m ≤ limits.memory) := load_of_overflow hpow (Nat.lt_of_not_le h)
  have hfits {l : Loaded} (hl : load m limits = .ok l) : stackStart m ≤ limits.memory := by
    by_contra h
    obtain ⟨needed, herror⟩ := hrefused h
    rw [hl] at herror
    cases herror
  refine ⟨⟨fun ⟨l, hl⟩ => hfits hl, fun h => ?_⟩, hrefused, fun l hl => ?_⟩
  · obtain ⟨l, hl, -⟩ := laidOut_of_fits hnames hpow hdata hmemory h
    exact ⟨l, hl⟩
  · obtain ⟨l', hl', hlaid⟩ := laidOut_of_fits hnames hpow hdata hmemory (hfits hl)
    obtain rfl := Except.ok.inj (hl.symm.trans hl')
    exact hlaid

/-- Two globals with a gap between them and a string, which fit into 48 bytes and not into 47. -/
theorem loaded_iff_fits_of_two_globals :
    let m : Module := ⟨[], [⟨"c", 1, 1, some [7]⟩, ⟨"w", 8, 8, none⟩], [⟨"s", "ab"⟩]⟩
    (m.globals.map (·.name) ++ m.data.map (·.label)).Nodup ∧
    (layout m).map (fun x => (x.1.name, x.2)) = [("c", 16), ("w", 24), ("s", 32)] ∧
    (∃ l, load m ⟨48, 4, 100⟩ = .ok l ∧ l.address? "s" = some 32 ∧ l.state.memory.Holds 32 3 [97, 98] ∧
      l.state.memory.bytes[17]? = some 0) ∧
    ∃ needed, load m ⟨47, 4, 100⟩ = .error (.outOfMemory needed 47) := by
  intro m
  have hnames : (m.globals.map (·.name) ++ m.data.map (·.label)).Nodup := by decide
  have hpow : ∀ g ∈ m.globals, ∃ k, g.align = 2 ^ k :=
    List.forall_mem_cons.mpr ⟨⟨0, rfl⟩, List.forall_mem_singleton.mpr ⟨3, rfl⟩⟩
  have hdata : ∀ g ∈ m.globals, (g.image.getD []).length ≤ g.size := by decide
  have hlayout : layout m = [(⟨"c", [7], 1, 1⟩, 16), (⟨"w", [], 8, 8⟩, 24), (⟨"s", [97, 98], 3, 1⟩, 32)] := by
    decide +kernel
  have hstack : stackStart m = 48 := by decide +kernel
  obtain ⟨l, hl⟩ := (@loaded_iff_fits m ⟨48, 4, 100⟩ hnames hpow hdata (by decide)).1.mpr
    (Nat.le_of_eq hstack)
  have hlaid := (loaded_iff_fits hnames hpow hdata (by decide)).2.2 l hl
  have hstring : (⟨"s", [97, 98], 3, 1⟩, 32) ∈ layout m := by
    rw [hlayout]
    simp
  refine ⟨hnames, by rw [hlayout]; rfl, ⟨l, hl, hlaid.found _ hstring, hlaid.holds _ hstring, ?_⟩, ?_⟩
  · apply hlaid.zero 17 (by decide)
    rw [hlayout]
    decide
  · exact (@loaded_iff_fits m ⟨47, 4, 100⟩ hnames hpow hdata (by decide)).2.1
      (by rw [hstack]; decide)

end MiniC.Machine
