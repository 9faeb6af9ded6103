import WamrMigrate.Interp.Fetch
import WamrMigrate.Loader.FunctionSection

/-!
# The cells of locals

Which cells of a frame an access to a parameter or local reaches. The loader writes an offset below 128 into the instruction, with the width;
elsewhere the interpreter looks the offset and the type up by the index. Both start from `local_offsets`, which holds 16 bits of each offset, and
the frame has as many cells for locals as fit in 16 bits.
-/

namespace WamrMigrate.Interp

open Loader Tiles

/-- `is_32bit_type`. -/
def is32bitType (type : UInt8) : Bool := type = 0x7F ∨ type = 0x7D

/-- What an access to a local has behind its opcode after loading: the byte of the fast encoding or the index. -/
inductive LocalOperand where
  | fast (b : UInt8)
  | index (idx : Nat)
  deriving DecidableEq

end WamrMigrate.Interp

namespace WamrMigrate.Loader.WasmFunction

open Interp Tiles

/-- The types of the parameters and locals. -/
def varTypes (f : WasmFunction) : List UInt8 := f.type.params ++ f.localTypes

/-- An entry of `local_offsets`. -/
def localOffset (f : WasmFunction) (idx : Nat) : Nat := (f.localOffsets.getD idx 0).toNat

/-- The operand that `wasm_loader_prepare_bytecode` leaves for `get_local`, `set_local` and `tee_local`. -/
def localOperand (f : WasmFunction) (idx : Nat) : LocalOperand :=
  if f.localOffset idx < 0x80 then
    .fast (fastByte (if is32bitType (f.varTypes.getD idx 0) then .i32 else .i64) (f.localOffset idx))
  else .index idx

/-- The first cell and the number of cells that the interpreter accesses; none after the exception "invalid local type". -/
def accessedCells (f : WasmFunction) : LocalOperand → Option (Nat × Nat)
  | .fast b => some ((b &&& 0x7F).toNat, if b &&& 0x80 ≠ 0 then 2 else 1)
  | .index idx =>
    let type := f.varTypes.getD idx 0
    if type = 0x7F ∨ type = 0x7D then some (f.localOffset idx, 1)
    else if type = 0x7E ∨ type = 0x7C then some (f.localOffset idx, 2)
    else none

/-- An access to the parameter or local reaches the cell. -/
def Accesses (f : WasmFunction) (idx x : Nat) : Prop :=
  ∃ start n, f.accessedCells (f.localOperand idx) = some (start, n) ∧ start ≤ x ∧ x < start + n

/-- No two parameters or locals share a cell, and all cells are those that the frame has for them. -/
structure LocalsApart (f : WasmFunction) : Prop where
  apart : ∀ i j x, i < f.varTypes.length → j < f.varTypes.length → i ≠ j → f.Accesses i x → ¬f.Accesses j x
  inside : ∀ i x, i < f.varTypes.length → f.Accesses i x → x < f.paramCellNum.toNat + f.localCellNum.toNat

/-- The cell at which a parameter or local starts, before it is cut to 16 bits. -/
def startCell (f : WasmFunction) (idx : Nat) : Nat := total valueTypeCellNum (f.varTypes.take idx)

/-- The locals take at most 65535 cells, no local starts behind cell 65535, and no parameter with a byte that is no type starts
below cell 128. -/
structure LocalsFit (f : WasmFunction) : Prop where
  locals_le : total valueTypeCellNum f.localTypes ≤ 65535
  start_le : ∀ i < f.varTypes.length, f.startCell i ≤ 65535
  typed : ∀ i t, f.varTypes[i]? = some t → valueTypeCellNum t = 0 → 0x80 ≤ f.startCell i

section Loaded
variable {f : WasmFunction} {i x : Nat} {t : UInt8}

theorem Loaded.localOffset_eq (h : f.Loaded) (hi : i < f.varTypes.length) : f.localOffset i = f.startCell i % 65536 := by
  obtain ⟨offset, hget, hoffset⟩ := localOffsetsFrom_get (o := 0) hi
  unfold localOffset
  rw [h.offsets, List.getD_eq_getElem?_getD]
  unfold varTypes at hget
  rw [hget, Option.getD_some, hoffset]
  exact congrArg (· % 65536) (Nat.zero_add _)

theorem Loaded.paramCellNum_eq (h : f.Loaded) : f.paramCellNum.toNat = total valueTypeCellNum f.type.params := by
  have hle := f.type.params_le
  rw [h.params, UInt32.toNat_toUInt16, f.type.total_params]
  omega

theorem Loaded.localCellNum_eq (h : f.Loaded) : f.localCellNum.toNat = total valueTypeCellNum f.localTypes % 65536 := by
  rw [h.locals, UInt32.toNat_toUInt16, toNat_getCellNum]
  omega

/-- A type that takes one cell, a type that takes two, and a byte that is no type. -/
theorem type_cases (t : UInt8) : (is32bitType t = true ∧ (t = 0x7F ∨ t = 0x7D) ∧ valueTypeCellNum t = 1) ∨
      (is32bitType t = false ∧ ¬(t = 0x7F ∨ t = 0x7D) ∧ (t = 0x7E ∨ t = 0x7C) ∧ valueTypeCellNum t = 2) ∨
      (is32bitType t = false ∧ ¬(t = 0x7F ∨ t = 0x7D) ∧ ¬(t = 0x7E ∨ t = 0x7C) ∧ valueTypeCellNum t = 0) := by
  unfold is32bitType valueTypeCellNum
  by_cases h1 : t = 0x7F ∨ t = 0x7D
  · exact .inl ⟨decide_eq_true h1, h1, if_pos h1⟩
  · by_cases h2 : t = 0x7E ∨ t = 0x7C
    · exact .inr (.inl ⟨decide_eq_false h1, h1, h2, by rw [if_neg h1, if_pos h2]⟩)
    · exact .inr (.inr ⟨decide_eq_false h1, h1, h2, by rw [if_neg h1, if_neg h2]⟩)

/-- How many cells an access to a local at `offset` reaches: a byte that is no type is taken for a 64-bit type by the fast
encoding. -/
def reach (t : UInt8) (offset : Nat) : Nat :=
  if valueTypeCellNum t = 0 then (if offset < 0x80 then 2 else 0) else valueTypeCellNum t

theorem accesses_iff (ht : f.varTypes[i]? = some t) : f.Accesses i x ↔ f.localOffset i ≤ x ∧ x < f.localOffset i + reach t (f.localOffset i) := by
  have hd : f.varTypes.getD i 0 = t := by rw [List.getD_eq_getElem?_getD, ht, Option.getD_some]
  have hsome {start n : Nat} (h : f.accessedCells (f.localOperand i) = some (start, n)) :
      f.Accesses i x ↔ start ≤ x ∧ x < start + n := by
    unfold Accesses
    rw [h]
    constructor
    · rintro ⟨_, _, ⟨⟩, hx⟩
      exact hx
    · intro hx
      exact ⟨start, n, rfl, hx⟩
  unfold reach
  by_cases hlow : f.localOffset i < 0x80
  · -- the fast encoding
    have hfast (type : ValueType) (htype : (if is32bitType t then .i32 else .i64) = type) :
        f.accessedCells (f.localOperand i) = some (f.localOffset i, if type.is64bit then 2 else 1) := by
      obtain ⟨hcell, hwide⟩ := fastByte_spec type hlow
      rw [localOperand, if_pos hlow, hd, htype]
      simp only [accessedCells, hcell, ← hwide, decide_eq_true_eq]
    rcases type_cases t with ⟨h32, -, hn⟩ | ⟨h32, -, -, hn⟩ | ⟨h32, -, -, hn⟩
    · rw [hsome (hfast .i32 (by rw [h32]; rfl)), hn]
      rfl
    · rw [hsome (hfast .i64 (by rw [h32]; rfl)), hn]
      rfl
    · rw [hsome (hfast .i64 (by rw [h32]; rfl)), hn, if_pos rfl, if_pos hlow]
      rfl
  · have hindex : f.localOperand i = .index i := if_neg hlow
    rcases type_cases t with ⟨-, h1, hn⟩ | ⟨-, h1, h2, hn⟩ | ⟨-, h1, h2, hn⟩
    · rw [hsome (by rw [hindex, accessedCells, hd]; exact if_pos h1), hn]
      rfl
    · rw [hsome (by rw [hindex, accessedCells, hd]; exact (if_neg h1).trans (if_pos h2)), hn]
      rfl
    have hnone : f.accessedCells (f.localOperand i) = none := by
      rw [hindex, accessedCells, hd]
      exact (if_neg h1).trans (if_neg h2)
    rw [hn, if_pos rfl, if_neg hlow]
    constructor
    · rintro ⟨_, _, h, -⟩
      rw [hnone] at h
      cases h
    · intro hx
      omega

theorem total_varTypes : total valueTypeCellNum f.varTypes =
    total valueTypeCellNum f.type.params + total valueTypeCellNum f.localTypes := total_append _ _

theorem Loaded.untyped (h : f.Loaded) (ht : f.varTypes[i]? = some t) (hn : valueTypeCellNum t = 0) : i < f.type.params.length := by
  by_contra hge
  rw [varTypes, List.getElem?_append_right (Nat.le_of_not_lt hge)] at ht
  obtain ⟨hlo, hhi⟩ := h.valid t (List.mem_of_getElem? ht)
  rw [UInt8.le_iff_toNat_le] at hlo hhi
  have hne : ¬(t = 0x7F ∨ t = 0x7D) ∧ ¬(t = 0x7E ∨ t = 0x7C) := by
    rcases type_cases t with ⟨-, -, h1⟩ | ⟨-, -, -, h2⟩ | ⟨-, h1, h2, -⟩
    · exact absurd h1 (by omega)
    · exact absurd h2 (by omega)
    · exact ⟨h1, h2⟩
  simp only [← UInt8.toNat_inj] at hne
  have h7C : (0x7C : UInt8).toNat = 124 := rfl
  have h7D : (0x7D : UInt8).toNat = 125 := rfl
  have h7E : (0x7E : UInt8).toNat = 126 := rfl
  have h7F : (0x7F : UInt8).toNat = 127 := rfl
  omega

/-- A cell of the layout belongs to a parameter or local that starts at or before it, and an access to that one reaches it if no
offset so far is cut. -/
theorem Loaded.exists_access (h : f.Loaded) (hx : x < total valueTypeCellNum f.varTypes) (hlt : x < 65536) :
    ∃ (j : Nat) (u : UInt8), f.varTypes[j]? = some u ∧ valueTypeCellNum u ≠ 0 ∧ f.startCell j ≤ x ∧
      x < f.startCell j + valueTypeCellNum u ∧ f.localOffset j = f.startCell j ∧ f.Accesses j x := by
  obtain ⟨j, u, hu, hlo, hhi⟩ := exists_tile hx
  have hoffset : f.localOffset j = f.startCell j := by
    rw [h.localOffset_eq (List.getElem?_eq_some_iff.1 hu).1]
    exact Nat.mod_eq_of_lt (Nat.lt_of_le_of_lt hlo hlt)
  have hn : valueTypeCellNum u ≠ 0 := by omega
  refine ⟨j, u, hu, hn, hlo, hhi, hoffset, ?_⟩
  rw [accesses_iff hu, hoffset, reach, if_neg hn]
  exact ⟨hlo, hhi⟩

theorem startCell_param (hi : i < f.type.params.length) : f.startCell i ≤ 65535 := by
  have ht : total valueTypeCellNum _ + valueTypeCellNum _ ≤ _ := total_take_add_le_total (List.getElem?_eq_getElem hi)
  have hparams := f.type.total_params
  have hle := f.type.params_le
  unfold startCell varTypes
  rw [List.take_append_of_le_length (Nat.le_of_lt hi)]
  omega

/-- Where no two accesses share a cell, no offset is cut: the cut offset of a later local would be the cell of an earlier one. -/
theorem Loaded.start_le (h : f.Loaded) (ha : f.LocalsApart) (hi : i < f.varTypes.length) : f.startCell i ≤ 65535 := by
  by_contra hge
  have ht := List.getElem?_eq_getElem hi
  have hn : valueTypeCellNum f.varTypes[i] ≠ 0 := fun hn => hge (startCell_param (h.untyped ht hn))
  have htotal : total valueTypeCellNum _ + valueTypeCellNum _ ≤ _ := total_take_add_le_total ht
  have hx : f.startCell i % 65536 < total valueTypeCellNum f.varTypes := by
    unfold startCell at hge ⊢
    omega
  obtain ⟨j, u, hu, -, hlo, -, -, hj⟩ := h.exists_access hx (Nat.mod_lt _ (by decide))
  have hji : j ≠ i := by
    rintro rfl
    omega
  refine ha.apart j i _ (List.getElem?_eq_some_iff.1 hu).1 hi hji hj ?_
  rw [accesses_iff ht, h.localOffset_eq hi, reach, if_neg hn]
  exact ⟨Nat.le_refl _, Nat.lt_add_of_pos_right (Nat.pos_of_ne_zero hn)⟩

theorem total_le_of_start_le (hs : ∀ i < f.varTypes.length, f.startCell i ≤ 65535) : total valueTypeCellNum f.varTypes ≤ 65537 := by
  by_contra hgt
  obtain ⟨j, u, hu, hlo, hhi⟩ := @exists_tile _ valueTypeCellNum f.varTypes 65537 (by omega)
  have hj := hs j (List.getElem?_eq_some_iff.1 hu).1
  have hle := valueTypeCellNum_le u
  unfold startCell at hj
  omega

/-- Where every access stays in the frame, the cells of the locals are counted in full. -/
theorem Loaded.locals_le (h : f.Loaded) (ha : f.LocalsApart) : total valueTypeCellNum f.localTypes ≤ 65535 := by
  by_contra hge
  have htotal := total_le_of_start_le fun i hi => h.start_le ha hi
  rw [total_varTypes] at htotal
  obtain ⟨j, u, hu, -, -, -, -, hj⟩ := h.exists_access (x := 65535) (by rw [total_varTypes]; omega) (by decide)
  have hin := ha.inside j 65535 (List.getElem?_eq_some_iff.1 hu).1 hj
  rw [h.paramCellNum_eq, h.localCellNum_eq] at hin
  omega

/-- A byte that is no type, in reach of the fast encoding, shares its first cell with what follows or leaves the frame. -/
theorem Loaded.typed (h : f.Loaded) (ha : f.LocalsApart) (ht : f.varTypes[i]? = some t) (hn : valueTypeCellNum t = 0) : 0x80 ≤ f.startCell i := by
  by_contra hlow
  have hi := (List.getElem?_eq_some_iff.1 ht).1
  have hoffset : f.localOffset i = f.startCell i := by
    rw [h.localOffset_eq hi]
    exact Nat.mod_eq_of_lt (by omega)
  have hreach : ∀ x, f.Accesses i x ↔ f.startCell i ≤ x ∧ x < f.startCell i + 2 := by
    intro x
    rw [accesses_iff ht, hoffset, reach, if_pos hn, if_pos (by omega)]
  have hin := ha.inside i (f.startCell i) hi ((hreach _).2 ⟨Nat.le_refl _, by omega⟩)
  rw [h.paramCellNum_eq, h.localCellNum_eq] at hin
  have hx : f.startCell i < total valueTypeCellNum f.varTypes := by
    rw [total_varTypes]
    omega
  obtain ⟨j, u, hu, hu0, -, -, -, hj⟩ := h.exists_access hx (by omega)
  have hji : j ≠ i := by
    rintro rfl
    rw [ht] at hu
    cases hu
    exact hu0 hn
  exact ha.apart j i _ (List.getElem?_eq_some_iff.1 hu).1 hi hji hj ((hreach _).2 ⟨Nat.le_refl _, by omega⟩)

theorem Loaded.accesses_bounds (h : f.Loaded) (hf : f.LocalsFit) (ht : f.varTypes[i]? = some t) (hx : f.Accesses i x) :
    f.startCell i ≤ x ∧ x < f.startCell i + valueTypeCellNum t := by
  have hi := (List.getElem?_eq_some_iff.1 ht).1
  have hstart := hf.start_le i hi
  have hoffset : f.localOffset i = f.startCell i := by
    rw [h.localOffset_eq hi]
    exact Nat.mod_eq_of_lt (by omega)
  rw [accesses_iff ht, hoffset, reach] at hx
  by_cases hn : valueTypeCellNum t = 0
  · rw [if_pos hn, if_neg (Nat.not_lt.2 (hf.typed i t ht hn))] at hx
    omega
  · rwa [if_neg hn] at hx

theorem Loaded.apart_of_fit (h : f.Loaded) (hf : f.LocalsFit) : f.LocalsApart := by
  have hlater : ∀ i j x, i < j → i < f.varTypes.length → j < f.varTypes.length → f.Accesses i x → ¬f.Accesses j x := by
    intro i j x hij hi hj hxi hxj
    have hti := List.getElem?_eq_getElem hi
    have hbi := h.accesses_bounds hf hti hxi
    have hbj := h.accesses_bounds hf (List.getElem?_eq_getElem hj) hxj
    have hle : total valueTypeCellNum _ + valueTypeCellNum _ ≤ total valueTypeCellNum _ := total_take_add_le hti hij
    unfold startCell at hbi hbj
    omega
  refine ⟨fun i j x hi hj hij hxi hxj => ?_, fun i x hi hx => ?_⟩
  · rcases Nat.lt_or_gt_of_ne hij with hlt | hlt
    · exact hlater i j x hlt hi hj hxi hxj
    · exact hlater j i x hlt hj hi hxj hxi
  have ht := List.getElem?_eq_getElem hi
  have hb := h.accesses_bounds hf ht hx
  have htotal : total valueTypeCellNum _ + valueTypeCellNum _ ≤ _ := total_take_add_le_total ht
  have hlocals := hf.locals_le
  rw [total_varTypes] at htotal
  rw [h.paramCellNum_eq, h.localCellNum_eq, Nat.mod_eq_of_lt (by omega)]
  unfold startCell at hb
  omega

theorem Loaded.apart_iff (h : f.Loaded) : f.LocalsApart ↔ f.LocalsFit :=
  ⟨fun ha => ⟨h.locals_le ha, fun _ hi => h.start_le ha hi, fun _ _ ht hn => h.typed ha ht hn⟩, h.apart_of_fit⟩

end Loaded

/-- In a function that `load_function_section` accepts, different parameters and locals are accessed in different cells of the
frame's part for them exactly when the locals take at most 65535 cells, none starts behind cell 65535, and every parameter below
cell 128 has a type. -/
theorem locals_apart_iff (types : List WasmType) (code : Code) (bufEnd codeEnd buf : Nat) (bufCode : Option Nat)
    (allocs : Allocs) (fs : List WasmFunction)
    (h : loadFunctionSection types code bufEnd codeEnd allocs buf bufCode = .ok fs) :
    ∀ f ∈ fs, f.LocalsApart ↔ f.LocalsFit :=
  fun f hf => (loadFunctionSection_loaded h f hf).apart_iff

/-- Every allocation succeeds. -/
def allAllocs : Allocs := ⟨true, fun _ => true, fun _ => true, fun _ => true⟩

/-- A function section with one function of type 0 in the first two bytes, and then a code section with this body. -/
def oneFunction (body : List UInt8) : Code := fun k => ([1, 0, 1, UInt8.ofNat body.length] ++ body).getD k 0

/-- A type without parameters and results. -/
def noParams : WasmType := ⟨[], [], by decide, by decide, by decide, by decide⟩

/-- A type with two parameters: a byte that is no type, and i32. -/
def untypedParam : WasmType := ⟨[0x00, 0x7F], [], by decide, by decide, by decide, by decide⟩

/-- A function with 65536 locals of type i32 is accepted, and its frame has no cell for them; a function whose first parameter has
no type is accepted, and both its parameters are accessed in cell 0. -/
theorem locals_cut :
    (∃ f, loadFunctionSection [noParams] (oneFunction [1, 0x80, 0x80, 0x04, 0x7F, 0x0B]) 2 10 allAllocs 0 (some 2) = .ok [f] ∧
      f.localCellNum = 0 ∧ ¬f.LocalsApart) ∧
    ∃ f, loadFunctionSection [untypedParam] (oneFunction [0, 0x0B]) 2 6 allAllocs 0 (some 2) = .ok [f] ∧
      f.Accesses 0 0 ∧ f.Accesses 1 0 ∧ ¬f.LocalsApart := by
  constructor
  · obtain ⟨f, hload, hlocals⟩ : ∃ f, loadFunctionSection [noParams] (oneFunction [1, 0x80, 0x80, 0x04, 0x7F, 0x0B]) 2 10
        allAllocs 0 (some 2) = .ok [f] ∧ f.localTypes = List.replicate 65536 0x7F := ⟨_, rfl, rfl⟩
    have hf := loadFunctionSection_loaded hload f (List.mem_singleton_self f)
    have htotal : total valueTypeCellNum f.localTypes = 65536 := by rw [hlocals, total_replicate]; rfl
    refine ⟨f, hload, ?_, fun ha => ?_⟩
    · rw [← UInt16.toNat_inj, hf.localCellNum_eq, htotal]
      rfl
    · have := hf.locals_le ha
      omega
  · refine ⟨_, rfl, ⟨0, 2, rfl, by decide⟩, ⟨0, 1, rfl, by decide⟩, fun ha => ?_⟩
    exact ha.apart 0 1 0 (by decide) (by decide) (by decide) ⟨0, 2, rfl, by decide⟩ ⟨0, 1, rfl, by decide⟩

/-- A function with three locals of type i64. -/
theorem three_locals_apart :
    ∃ f, loadFunctionSection [noParams] (oneFunction [1, 3, 0x7E, 0x0B]) 2 8 allAllocs 0 (some 2) = .ok [f] ∧ f.LocalsApart := by
  refine ⟨_, rfl, (locals_apart_iff [noParams] (oneFunction [1, 3, 0x7E, 0x0B]) 2 8 0 (some 2) allAllocs _ rfl _
    (List.mem_singleton_self _)).2 ⟨by decide, by decide, ?_⟩⟩
  intro i t ht hn
  obtain rfl : t = 0x7E := List.eq_of_mem_replicate (List.mem_of_getElem? ht : t ∈ List.replicate 3 0x7E)
  exact absurd hn (by decide)

end WamrMigrate.Loader.WasmFunction
