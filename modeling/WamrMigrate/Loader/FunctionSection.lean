import WamrMigrate.Lib.Tiles
import WamrMigrate.Loader.Rewrite

/-!
# The function section

`load_function_section` reads the types of the functions from one section and their locals and bodies from another. `load_type_section` has taken
the bytes of the parameter types as they are: only their number and their cells are checked. The types of locals are checked, their cells are not,
and offsets and numbers of cells are kept in 16 bits.
-/

namespace WamrMigrate.Loader

open Tiles

variable {i bufEnd p codeEnd : Nat} {code : Code} {types : List WasmType} {allocs : Allocs}

/-- `wasm_value_type_cell_num`; a byte that is no type takes no cell. -/
def valueTypeCellNum (type : UInt8) : Nat :=
  if type = 0x7F ∨ type = 0x7D then 1 else if type = 0x7E ∨ type = 0x7C then 2 else 0

/-- `wasm_get_cell_num`. -/
def getCellNum (types : List UInt8) : UInt32 := types.foldl (fun n t => n + UInt32.ofNat (valueTypeCellNum t)) 0

/-- `WASMType` as `load_type_section` accepts it. -/
structure WasmType where
  params : List UInt8
  results : List UInt8
  params_le : (getCellNum params).toNat ≤ 65535
  results_le : (getCellNum results).toNat ≤ 65535
  param_count_le : params.length ≤ 65535
  result_count_le : results.length ≤ 65535

/-- The end of the body of the loop of `load_type_section`. -/
def makeType (params results : List UInt8) : Except String WasmType :=
  let tooLarge : Except String WasmType := .error "param count or result count too large"
  if hcount : params.length ≤ 65535 ∧ results.length ≤ 65535 then
    if hcells : (getCellNum params).toNat ≤ 65535 ∧ (getCellNum results).toNat ≤ 65535 then
      .ok ⟨params, results, hcells.1, hcells.2, hcount.1, hcount.2⟩
    else tooLarge
  else tooLarge

/-- `WASMFunction`. -/
structure WasmFunction where
  type : WasmType
  localTypes : List UInt8
  paramCellNum : UInt16
  retCellNum : UInt16
  localCellNum : UInt16
  localOffsets : List UInt16
  codeSize : Nat
  code : Code

/-- `sizeof(WASMFunction)`. -/
def sizeofWasmFunction : Nat := 64

/-- Which allocations succeed: the array of the functions, and for each function its structure, its body and its offsets. -/
structure Allocs where
  functions : Bool
  func : Nat → Bool
  code : Nat → Bool
  offsets : Nat → Bool

/-- `loader_malloc`, where the allocator would succeed if `ok` is set. -/
def loaderMalloc (ok : Bool) (size : Nat) : Except String Unit :=
  failIf (2 ^ 32 - 1 ≤ size ∨ ok = false) "allocate memory failed"

theorem loaderMalloc_iff {size : Nat} {ok : Bool} : loaderMalloc ok size = .ok () ↔ ok = true ∧ size < 0xFFFFFFFF := by
  have hmax : 0xFFFFFFFF = 2 ^ 32 - 1 := rfl
  rw [hmax, loaderMalloc, failIf_ok, not_or, Bool.not_eq_false, Nat.not_le, and_comm]

/-- The loops of `init_function_local_offsets`, from a parameter or local on. -/
def localOffsetsFrom : UInt32 → List UInt8 → List UInt16
  | _, [] => []
  | localOffset, t :: ts => localOffset.toUInt16 :: localOffsetsFrom (localOffset + UInt32.ofNat (valueTypeCellNum t)) ts

section Locals
variable (code : Code) (bufEnd : Nat)

/-- The first loop over the locals, which counts them: so many groups are left, so many locals are counted. -/
def sumLocals : Nat → Nat → Nat → Except String (Nat × Nat)
  | 0, localCount, p => .ok (localCount, p)
  | n + 1, localCount, p => do
    let (subLocalCount, p) ← readLebUint32 code bufEnd p
    failIf (2 ^ 32 - 1 - localCount < subLocalCount) "too many locals"
    failIf (bufEnd < p + 1) "unexpected end of section or function"
    sumLocals n (localCount + subLocalCount) (p + 1)

/-- A byte as `%02X` prints it. -/
def hexByte (b : UInt8) : String :=
  let digit (n : Nat) : Char := "0123456789ABCDEF".toList.getD n '0'
  String.ofList [digit (b.toNat / 16), digit (b.toNat % 16)]

/-- The message for a byte that is not the type of a local. -/
def invalidLocalType (type : UInt8) : String :=
  if type = 0x7B then "v128 value type requires simd feature"
  else if type = 0x70 ∨ type = 0x6F then "ref value type requires reference types feature"
  else "invalid local type 0x" ++ hexByte type

/-- The second loop over the locals, which takes their types. -/
def readLocalTypes (localCount : Nat) : Nat → List UInt8 → Nat → Except String (List UInt8)
  | 0, types, _ => .ok types
  | n + 1, types, p => do
    let (subLocalCount, p) ← readLebUint32 code bufEnd p
    failIf (subLocalCount = 0 ∨ 2 ^ 32 - 1 - subLocalCount < types.length ∨ localCount < types.length + subLocalCount)
      "invalid local count"
    failIf (bufEnd < p + 1) "unexpected end of section or function"
    failIf (code p < 0x7C ∨ 0x7F < code p) (invalidLocalType (code p))
    readLocalTypes localCount n (types ++ List.replicate subLocalCount (code p)) (p + 1)

end Locals

section Section
variable (types : List WasmType) (code : Code) (bufEnd codeEnd : Nat) (allocs : Allocs)

/-- The body of the loop of `load_function_section`: the function, and the positions behind it in the two sections. -/
def loadFunction (i p pCode : Nat) : Except String (WasmFunction × Nat × Nat) := do
  let (typeIndex, p) ← readLebUint32 code bufEnd p
  let type ← (types[typeIndex]?).elim (.error "unknown type") .ok
  let (codeSize, pCode) ← readLebUint32 code codeEnd pCode
  failIf (codeSize = 0 ∨ codeEnd < pCode + codeSize) "invalid function code size"
  let pCodeEnd := pCode + codeSize
  let (localSetCount, pCode) ← readLebUint32 code codeEnd pCode
  let (localCount, pBody) ← sumLocals code codeEnd localSetCount 0 pCode
  let codeSize := (((pCodeEnd : Int) - pBody) % 2 ^ 32).toNat
  loaderMalloc (allocs.func i) (sizeofWasmFunction + localCount)
  loaderMalloc (allocs.code i) codeSize
  let localTypes ← readLocalTypes code codeEnd localCount localSetCount [] pCode
  loaderMalloc (allocs.offsets i || decide (type.params.length + localCount = 0)) (2 * (type.params.length + localCount))
  return ({
    type
    localTypes
    paramCellNum := (getCellNum type.params).toUInt16
    retCellNum := (getCellNum type.results).toUInt16
    localCellNum := (getCellNum localTypes).toUInt16
    localOffsets := localOffsetsFrom 0 (type.params ++ localTypes)
    codeSize
    code := fun k => code (pBody + k) }, p, pCodeEnd)

/-- The loop of `load_function_section`, from the function with number `i` on; so many functions are left. -/
def loadFunctions : Nat → Nat → Nat → Nat → Except String (List WasmFunction × Nat)
  | 0, _, p, _ => .ok ([], p)
  | n + 1, i, p, pCode => do
    let (f, p, pCode) ← loadFunction types code bufEnd codeEnd allocs i p pCode
    let (fs, p) ← loadFunctions n (i + 1) p pCode
    return (f :: fs, p)

/-- `load_function_section`; there may be no code section. -/
def loadFunctionSection (buf : Nat) (bufCode : Option Nat) : Except String (List WasmFunction) := do
  let (funcCount, p) ← readLebUint32 code bufEnd buf
  let (codeCount, pCode) ← bufCode.elim (.ok (0, 0)) (readLebUint32 code codeEnd)
  failIf (funcCount ≠ codeCount) "function and code section have inconsistent lengths or unexpected end"
  loaderMalloc (allocs.functions || decide (funcCount = 0)) (8 * funcCount)
  let (fs, p) ← loadFunctions types code bufEnd codeEnd allocs funcCount 0 p pCode
  failIf (p ≠ bufEnd) "section size mismatch"
  return fs

end Section

/-! ## What a loaded function is made of -/

theorem getCellNum_foldl (types : List UInt8) (n : UInt32) : (types.foldl (fun n t => n + UInt32.ofNat (valueTypeCellNum t)) n).toNat =
      (n.toNat + total valueTypeCellNum types) % 2 ^ 32 := by
  induction types generalizing n with
  | nil => exact (Nat.mod_eq_of_lt n.toNat_lt).symm
  | cons t ts ih =>
    rw [List.foldl_cons, ih, UInt32.toNat_add, UInt32.toNat_ofNat', total_cons]
    omega

theorem toNat_getCellNum (types : List UInt8) : (getCellNum types).toNat = total valueTypeCellNum types % 2 ^ 32 := by
  rw [getCellNum, getCellNum_foldl]
  exact congrArg (· % 2 ^ 32) (Nat.zero_add _)

theorem valueTypeCellNum_le (type : UInt8) : valueTypeCellNum type ≤ 2 := by
  unfold valueTypeCellNum
  split
  · exact Nat.le_succ 1
  · split
    · exact Nat.le_refl 2
    · exact Nat.zero_le 2

theorem WasmType.total_params (t : WasmType) : total valueTypeCellNum t.params = (getCellNum t.params).toNat := by
  have hle : ∀ types : List UInt8, total valueTypeCellNum types ≤ 2 * types.length := by
    intro types
    induction types with
    | nil => exact Nat.le_refl 0
    | cons type types ih =>
      have := valueTypeCellNum_le type
      simp only [total_cons, List.length_cons]
      omega
  have h1 := hle t.params
  have h2 := t.param_count_le
  rw [toNat_getCellNum, Nat.mod_eq_of_lt (by omega)]

theorem localOffsetsFrom_get {types : List UInt8} {o : UInt32} (hi : i < types.length) : ∃ offset, (localOffsetsFrom o types)[i]? = some offset ∧
      offset.toNat = (o.toNat + total valueTypeCellNum (types.take i)) % 65536 := by
  induction types generalizing o i with
  | nil => cases hi
  | cons t ts ih =>
    cases i with
    | zero => exact ⟨o.toUInt16, rfl, UInt32.toNat_toUInt16 o⟩
    | succ i =>
      obtain ⟨offset, hget, hoffset⟩ := @ih i (o + UInt32.ofNat (valueTypeCellNum t)) (Nat.lt_of_succ_lt_succ hi)
      refine ⟨offset, hget, ?_⟩
      rw [hoffset, UInt32.toNat_add, UInt32.toNat_ofNat', List.take_succ_cons, total_cons]
      omega

/-- What `load_function_section` makes of the parameters and the locals of a function. -/
structure WasmFunction.Loaded (f : WasmFunction) : Prop where
  params : f.paramCellNum = (getCellNum f.type.params).toUInt16
  locals : f.localCellNum = (getCellNum f.localTypes).toUInt16
  offsets : f.localOffsets = localOffsetsFrom 0 (f.type.params ++ f.localTypes)
  valid : ∀ t ∈ f.localTypes, 0x7C ≤ t ∧ t ≤ 0x7F

theorem readLocalTypes_valid {localCount n : Nat} {types types' : List UInt8}
    (h : readLocalTypes code bufEnd localCount n types p = .ok types') (hv : ∀ t ∈ types, 0x7C ≤ t ∧ t ≤ 0x7F) :
    ∀ t ∈ types', 0x7C ≤ t ∧ t ≤ 0x7F := by
  induction n generalizing types p with
  | zero =>
    cases h
    exact hv
  | succ n ih =>
    rw [readLocalTypes] at h
    obtain ⟨⟨sub, p₁⟩, -, h⟩ := bind_ok_iff.1 h
    obtain ⟨_, -, h⟩ := bind_ok_iff.1 h
    obtain ⟨_, -, h⟩ := bind_ok_iff.1 h
    obtain ⟨_, htype, h⟩ := bind_ok_iff.1 h
    have htype := failIf_ok.1 htype
    refine ih h fun t ht => ?_
    rcases List.mem_append.1 ht with ht | ht
    · exact hv t ht
    · obtain rfl := List.eq_of_mem_replicate ht
      exact ⟨UInt8.not_lt.1 fun hlt => htype (.inl hlt), UInt8.not_lt.1 fun hlt => htype (.inr hlt)⟩

theorem loadFunction_loaded {pCode : Nat}
    {x : WasmFunction × Nat × Nat} (h : loadFunction types code bufEnd codeEnd allocs i p pCode = .ok x) : x.1.Loaded := by
  unfold loadFunction at h
  obtain ⟨⟨typeIndex, p₁⟩, -, h⟩ := bind_ok_iff.1 h
  obtain ⟨type, -, h⟩ := bind_ok_iff.1 h
  obtain ⟨⟨codeSize, p₂⟩, -, h⟩ := bind_ok_iff.1 h
  obtain ⟨_, -, h⟩ := bind_ok_iff.1 h
  obtain ⟨⟨localSetCount, p₃⟩, -, h⟩ := bind_ok_iff.1 h
  obtain ⟨⟨localCount, pBody⟩, -, h⟩ := bind_ok_iff.1 h
  obtain ⟨_, -, h⟩ := bind_ok_iff.1 h
  obtain ⟨_, -, h⟩ := bind_ok_iff.1 h
  obtain ⟨localTypes, hlocals, h⟩ := bind_ok_iff.1 h
  obtain ⟨_, -, h⟩ := bind_ok_iff.1 h
  cases h
  exact ⟨rfl, rfl, rfl, readLocalTypes_valid hlocals (fun t ht => nomatch ht)⟩

theorem loadFunctions_loaded {n pCode : Nat} {x : List WasmFunction × Nat} (h : loadFunctions types code bufEnd codeEnd allocs n i p pCode = .ok x) :
    ∀ f ∈ x.1, f.Loaded := by
  induction n generalizing i p pCode x with
  | zero =>
    cases h
    exact fun f hf => nomatch hf
  | succ n ih =>
    rw [loadFunctions] at h
    obtain ⟨⟨f, p₁, pCode₁⟩, hf, h⟩ := bind_ok_iff.1 h
    obtain ⟨⟨fs, p₂⟩, hfs, h⟩ := bind_ok_iff.1 h
    cases h
    exact List.forall_mem_cons.2 ⟨loadFunction_loaded hf, ih hfs⟩

/-- Every function of an accepted section is put together this way. -/
theorem loadFunctionSection_loaded {buf : Nat} {bufCode : Option Nat} {fs : List WasmFunction}
    (h : loadFunctionSection types code bufEnd codeEnd allocs buf bufCode = .ok fs) : ∀ f ∈ fs, f.Loaded := by
  unfold loadFunctionSection at h
  obtain ⟨⟨funcCount, p⟩, -, h⟩ := bind_ok_iff.1 h
  obtain ⟨⟨codeCount, pCode⟩, -, h⟩ := bind_ok_iff.1 h
  obtain ⟨_, -, h⟩ := bind_ok_iff.1 h
  obtain ⟨_, -, h⟩ := bind_ok_iff.1 h
  obtain ⟨⟨fs', p'⟩, hfs, h⟩ := bind_ok_iff.1 h
  obtain ⟨_, -, h⟩ := bind_ok_iff.1 h
  cases h
  exact loadFunctions_loaded hfs

end WamrMigrate.Loader
