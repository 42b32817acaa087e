import MiniC.Proofs.Machine.Bytes
import MiniC.Proofs.Machine.Stack
/-!
What loading leaves in memory. Main statement: every global and every string has an object of its own,
which holds the bytes it was given, with zeros behind them up to its end; it is found under its name.
-/
namespace MiniC.Machine

open Code (Module)

/-- These bytes, and zeros behind them. -/
def Memory.Holds (m : Memory) (start size : Nat) (data : List UInt8) : Prop :=
  ∀ j < size, m.bytes[start + j]? = some (data.getD j 0)

/-- The objects of a module, each with its name, its bytes and its size. -/
def contents (m : Module) : List (String × List UInt8 × Nat) :=
  m.globals.map (fun g => (g.name, g.image.getD [], g.size)) ++
    m.data.map fun d => (d.label, Bytes.ofText d.text, sizeOfDatum d)

/-- An address that is negative as a word is refused. -/
theorem locate_ofNat {m : Memory} {k n pos : Nat} (hk : k < Layout.addressSpace)
    (h : m.locate (Int64.ofNat k) n = .ok pos) : pos = k ∧ k + n ≤ m.size := by
  unfold Memory.locate at h
  split at h
  · cases h
  rename_i hsign
  have hnat : (Int64.ofNat k).toInt = (k : Nat) := by
    rw [Int64.lt_iff_toInt_lt, Int64.toInt_zero, Int.not_lt, Int64.toInt_ofNat'] at hsign
    rw [Int64.toInt_ofNat']
    simp only [Layout.addressSpace, Bytes.range, Int64.size, Int.bmod] at hk hsign ⊢
    omega
  rw [Int64.toNatClampNeg, hnat, Int.toNat_natCast] at h
  simp only at h
  split at h
  · cases h
  · split at h
    · rename_i hfits
      exact ⟨(Except.ok.inj h).symm, hfits⟩
    · cases h

section Placing

variable {limits : Limits} {cursor stop : Nat}

/-- What is placed, with its size. -/
def content (x : Placement × Nat) : String × List UInt8 × Nat := (x.1.name, x.1.bytes, x.2)

theorem contents_placeGlobals {gs : List Code.Global} {ps : List Placement}
    (h : Image.placeGlobals limits cursor gs = .ok (ps, stop)) :
    (ps.zip (gs.map (·.size))).map content = gs.map fun g => (g.name, g.image.getD [], g.size) := by
  induction gs generalizing cursor ps stop with
  | nil =>
    cases h
    rfl
  | cons g gs ih =>
    rw [Image.placeGlobals] at h
    split at h
    · cases h
    split at h
    · cases h
    rename_i hrest
    cases h
    exact congrArg _ (ih hrest)

theorem contents_placeData (cursor : Nat) (ds : List Code.Datum) :
    ((Image.placeData cursor ds).1.zip (ds.map sizeOfDatum)).map content =
      ds.map fun d => (d.label, Bytes.ofText d.text, sizeOfDatum d) := by
  induction ds generalizing cursor with
  | nil => rfl
  | cons d ds ih => exact congrArg _ (ih _)

/-- One above the other. -/
def Ordered (xs : List (Placement × Nat)) : Prop :=
  xs.Pairwise fun x y => (Object.place x).stop ≤ y.1.address

theorem ordered_placeGlobals {gs : List Code.Global} {ps : List Placement}
    (h : Image.placeGlobals limits cursor gs = .ok (ps, stop)) (hstop : stop < Layout.addressSpace - 1) :
    Ordered (ps.zip (gs.map (·.size))) := by
  induction gs generalizing cursor ps stop with
  | nil =>
    cases h
    exact .nil
  | cons g gs ih =>
    rw [Image.placeGlobals] at h
    split at h
    · cases h
    rename_i address halign
    split at h
    · cases h
    rename_i rest stop' hrest
    cases h
    refine .cons (fun y hy => ?_) (ih hrest hstop)
    have hbelow := (inside_placeGlobals hrest (advance_le ..)).1
    have habove := above_placeGlobals hrest y.1 (List.of_mem_zip hy).1
    show address + g.size ≤ y.1.address
    unfold Image.advance at hbelow habove
    omega

theorem ordered_placeData (ds : List Code.Datum) (hcursor : cursor ≤ Layout.addressSpace - 1)
    (hstop : (Image.placeData cursor ds).2 < Layout.addressSpace - 1) :
    Ordered ((Image.placeData cursor ds).1.zip (ds.map sizeOfDatum)) := by
  induction ds generalizing cursor with
  | nil => exact .nil
  | cons d ds ih =>
    refine .cons (fun y hy => ?_) (ih (advance_le ..) hstop)
    have hbelow := (inside_placeData ds (advance_le cursor (sizeOfDatum d))).1
    have habove := above_placeData ds (advance_le cursor (sizeOfDatum d)) y.1 (List.of_mem_zip hy).1
    have hstop' : (Image.placeData (Image.advance cursor (sizeOfDatum d)) ds).2 < Layout.addressSpace - 1 :=
      hstop
    show cursor + sizeOfDatum d ≤ y.1.address
    unfold Image.advance at hbelow habove hstop'
    omega

/-- Writing changes no byte outside of all that is placed. -/
theorem bytes_fill_of_outside {ps : List Placement} {before after : Memory} {j : Nat}
    (h : Image.fill before ps = .ok after) (hps : ∀ p ∈ ps, p.address < Layout.addressSpace)
    (hj : ∀ p ∈ ps, j < p.address ∨ p.address + p.bytes.length ≤ j) :
    after.bytes[j]? = before.bytes[j]? := by
  induction ps generalizing before with
  | nil =>
    cases h
    rfl
  | cons p ps ih =>
    obtain ⟨hp, hps⟩ := List.forall_mem_cons.mp hps
    obtain ⟨hjp, hj⟩ := List.forall_mem_cons.mp hj
    rw [Image.fill] at h
    split at h
    · exact ih h hps hj
    split at h
    · cases h
    rename_i filled hwrite
    rw [ih h hps hj]
    unfold Memory.writeBytes at hwrite
    split at hwrite
    · cases hwrite
    rename_i pos hlocate
    obtain ⟨rfl, -⟩ := locate_ofNat hp hlocate
    cases hwrite
    exact Bytes.getElem?_writeList_of_outside hjp

/-- By induction on what is placed: nothing is written over what was placed before. -/
theorem holds_fill {xs : List (Placement × Nat)} {before after : Memory}
    (h : Image.fill before (xs.map (·.1)) = .ok after) (hordered : Ordered xs)
    (hxs : ∀ x ∈ xs, x.1.address < Layout.addressSpace ∧ x.1.bytes.length ≤ x.2)
    (hzero : ∀ x ∈ xs, ∀ j < x.2, before.bytes[x.1.address + j]? = some 0) :
    ∀ x ∈ xs, after.Holds x.1.address x.2 x.1.bytes := by
  induction xs generalizing before with
  | nil => exact nofun
  | cons x xs ih =>
    obtain ⟨⟨haddress, hbytes⟩, hxs⟩ := List.forall_mem_cons.mp hxs
    obtain ⟨hx, hzero⟩ := List.forall_mem_cons.mp hzero
    obtain ⟨habove, hordered⟩ := List.pairwise_cons.mp hordered
    -- Whatever is written for the others leaves what is written first.
    have hlater {filled : Memory} (hfill : Image.fill filled (xs.map (·.1)) = .ok after)
        (hfirst : filled.Holds x.1.address x.2 x.1.bytes) : after.Holds x.1.address x.2 x.1.bytes := by
      intro j hj
      rw [← hfirst j hj]
      refine bytes_fill_of_outside hfill ?_ ?_
      · exact List.forall_mem_map.mpr fun y hy => (hxs y hy).1
      · refine List.forall_mem_map.mpr fun y hy => .inl ?_
        have hle : x.1.address + x.2 ≤ y.1.address := habove y hy
        omega
    rw [List.map_cons, Image.fill] at h
    split at h
    · rename_i hempty
      have hnil : x.1.bytes = [] := List.isEmpty_iff.mp hempty
      refine List.forall_mem_cons.mpr ⟨hlater h fun j hj => ?_, ih h hordered hxs hzero⟩
      rw [hnil]
      exact hx j hj
    split at h
    · cases h
    rename_i filled hwrite
    unfold Memory.writeBytes at hwrite
    split at hwrite
    · cases hwrite
    rename_i pos hlocate
    obtain ⟨rfl, hfits⟩ := locate_ofNat haddress hlocate
    cases hwrite
    refine List.forall_mem_cons.mpr ⟨hlater h fun j hj => ?_, ih h hordered hxs fun y hy j hj => ?_⟩
    · by_cases hlt : j < x.1.bytes.length
      · rw [Bytes.getElem?_writeList hfits hlt, List.getD_eq_getElem?_getD, List.getElem?_eq_getElem hlt]
        rfl
      · rw [Bytes.getElem?_writeList_of_outside (.inr (by omega)), hx j hj, List.getD_eq_getElem?_getD,
          List.getElem?_eq_none (Nat.le_of_not_lt hlt)]
        rfl
    · have hle : x.1.address + x.2 ≤ y.1.address := habove y hy
      rw [← hzero y hy j hj]
      exact Bytes.getElem?_writeList_of_outside (.inr (by omega))

end Placing

/-- What is loaded is written to zeros, one object above the other. -/
theorem placed_of_load {m : Module} {limits : Limits} {l : Loaded} (h : load m limits = .ok l) :
    ∃ xs, objects limits m = xs.map Object.place ∧ xs.map content = contents m ∧ Ordered xs ∧
      l.state.stack < Layout.addressSpace ∧
      Image.fill (Memory.zeros limits.memory) (xs.map (·.1)) = .ok l.state.memory := by
  unfold load at h
  obtain ⟨⟨globals, cursor⟩, hglobals, h⟩ := except_bind_eq_ok.mp h
  obtain ⟨stack, hbase, h⟩ := except_bind_eq_ok.mp h
  obtain ⟨memory, hfill, h⟩ := except_bind_eq_ok.mp h
  cases h
  obtain ⟨hstop, hstack⟩ : (Image.placeData cursor m.data).2 < Layout.addressSpace - 1 ∧
      stack < Layout.addressSpace := by
    unfold Image.stackBase at hbase
    split at hbase
    · rename_i base halign
      have hlt := lt_of_alignTo halign
      have hle := alignTo_le halign
      split at hbase
      · cases hbase
        unfold Image.stackAlign Layout.addressSpace Bytes.range at *
        omega
      · cases hbase
    · cases hbase
  obtain ⟨-, hcursor, hinside⟩ := inside_placeGlobals hglobals (by decide)
  have hdata := (inside_placeData m.data hcursor).1
  have hlt := Nat.lt_of_le_of_lt hdata hstop
  have hlength := length_placeGlobals hglobals
  have hlength' := length_placeData cursor m.data
  refine ⟨globals.zip (m.globals.map (·.size)) ++
    (Image.placeData cursor m.data).1.zip (m.data.map sizeOfDatum), ?_, ?_, ?_, hstack, ?_⟩
  · rw [objects, hglobals]
  · rw [List.map_append, contents_placeGlobals hglobals, contents_placeData, contents]
  · refine List.pairwise_append.mpr
      ⟨ordered_placeGlobals hglobals hlt, ordered_placeData m.data hcursor hstop, fun x hx y hy => ?_⟩
    exact (hinside hlt x hx).trans (above_placeData m.data hcursor y.1 (List.of_mem_zip hy).1)
  · rw [List.map_append, List.map_fst_zip (by simp [hlength]), List.map_fst_zip (by simp [hlength'])]
    exact hfill

/-- What is loaded holds what the module has for it. -/
theorem holds_of_load {m : Module} {limits : Limits} {l : Loaded} (h : load m limits = .ok l)
    (himages : ∀ x ∈ contents m, x.2.1.length ≤ x.2.2) :
    ∀ x ∈ contents m, ∃ o ∈ objects limits m, o.name = x.1 ∧ o.size = x.2.2 ∧
      l.state.memory.Holds o.start o.size x.2.1 := by
  obtain ⟨hbelow, hfits, -⟩ := stack_of_load h
  have hsize := (guarded_of_load h).2.2
  obtain ⟨xs, hobjects, hcontents, hordered, hstack, hfill⟩ := placed_of_load h
  rw [hobjects] at hbelow ⊢
  rw [← hcontents] at himages ⊢
  have hroom (y : Placement × Nat) (hy : y ∈ xs) : y.1.address + y.2 ≤ l.state.stack :=
    hbelow _ (List.mem_map_of_mem hy)
  have hholds := holds_fill hfill hordered
    (fun y hy => ⟨by have := hroom y hy; omega, himages _ (List.mem_map_of_mem hy)⟩)
    (fun y hy j hj => by
      have := hroom y hy
      rw [Memory.zeros, Array.getElem?_replicate, if_pos (by omega)])
  intro x hx
  obtain ⟨y, hy, rfl⟩ := List.mem_map.mp hx
  exact ⟨_, List.mem_map_of_mem hy, rfl, rfl, hholds y hy⟩

/-- Objects whose names are their own are found at their addresses. -/
theorem found_of_load {m : Module} {limits : Limits} {l : Loaded} (h : load m limits = .ok l)
    (himages : ∀ x ∈ contents m, x.2.1.length ≤ x.2.2) (hnames : ((contents m).map (·.1)).Nodup) :
    ∀ x ∈ contents m, ∃ start, l.address? x.1 = some (Int64.ofNat start) ∧
      l.state.memory.Holds start x.2.2 x.2.1 := by
  intro x hx
  obtain ⟨hnamed, -, haddress⟩ := objects_of_load h
  obtain ⟨o, ho, hname, hsize, hholds⟩ := holds_of_load h himages x hx
  have hdistinct : ((objects limits m).map (·.name)).Nodup := by
    rw [hnamed]
    simpa [contents, Function.comp_def] using hnames
  have hfind : (objects limits m).reverse.find? (·.name == x.1) = some o := by
    cases hfound : (objects limits m).reverse.find? (·.name == x.1) with
    | none => exact absurd hname (by simpa using List.find?_eq_none.mp hfound o (List.mem_reverse.mpr ho))
    | some o' =>
      have ho' : o' ∈ objects limits m := List.mem_reverse.mp (List.mem_of_find?_eq_some hfound)
      have hname' : o'.name = x.1 := by simpa using List.find?_some hfound
      rw [List.inj_on_of_nodup_map hdistinct ho' ho (hname'.trans hname.symm)]
  refine ⟨o.start, ?_, hsize ▸ hholds⟩
  rw [haddress, hfind]
  rfl

end MiniC.Machine
