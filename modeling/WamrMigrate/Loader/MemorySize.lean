import WamrMigrate.Lib.Words
import WamrMigrate.Loader.Context

/-!
# The size of the memory after loading

A memory is declared in pages of 64 KiB, at most 65536 of them. When no function has `memory.size` or `memory.grow`, the end of `load_from_sections`
makes one page of it, cut down to what lies before the heap if the module exports where its data ends and its heap starts. Page size and page count
have 32 bits.
-/

namespace WamrMigrate.Loader

/-! ## The memory section -/

/-- `WASMMemory` as `load_memory` leaves it, with 65536 bytes for each page. -/
structure DeclaredMemory where
  initPageCount : UInt32
  maxPageCount : UInt32
  init_le : initPageCount.toNat ≤ 65536

/-- `check_memory_init_size`, with what has been checked. -/
def checkMemoryInitSize (initSize : Nat) : Except String { n : Nat // n ≤ 65536 } :=
  if h : initSize ≤ 65536 then .ok ⟨initSize, h⟩ else .error "memory size must be at most 65536 pages (4GiB)"

/-- `check_memory_max_size`. -/
def checkMemoryMaxSize (initSize maxSize : Nat) : Except String Unit := do
  failIf (maxSize < initSize) "size minimum must not be greater than maximum"
  failIf (65536 < maxSize) "memory size must be at most 65536 pages (4GiB)"

/-- `load_memory`; the pool of the runtime limits the number of pages to `maxPageCount`. -/
def loadMemory (code : Code) (bufEnd : Nat) (maxPageCount : Nat) (p : Nat) : Except String (DeclaredMemory × Nat) := do
  let (flags, p₁) ← readLebUint32 code bufEnd p
  failIf (1 < p₁ - p) "integer representation too long"
  failIf (1 < flags) "integer too large"
  let (initPageCount, p₂) ← readLebUint32 code bufEnd p₁
  let init ← checkMemoryInitSize initPageCount
  let declared (max : Nat) : DeclaredMemory :=
    ⟨UInt32.ofNat init.1, UInt32.ofNat (min max maxPageCount), by
      rw [UInt32.toNat_ofNat']
      exact Nat.le_trans (Nat.mod_le _ _) init.2⟩
  if flags % 2 = 1 then do
    let (declaredMax, p₃) ← readLebUint32 code bufEnd p₂
    checkMemoryMaxSize initPageCount declaredMax
    return (declared declaredMax, p₃)
  else return (declared maxPageCount, p₂)

/-! ## The end of `load_from_sections` -/

/-- `InitializerExpression`. -/
inductive InitExpr where
  | i32Const (v : UInt32)
  | i64Const (v : UInt64)
  | f32Const (bits : UInt32)
  | f64Const (bits : UInt64)
  | getGlobal (index : UInt32)
  deriving DecidableEq

/-- `WASMGlobal`. -/
structure WasmGlobal where
  type : UInt8
  isMutable : Bool
  initExpr : InitExpr
  deriving DecidableEq

/-- The kinds of exports. -/
inductive ExportKind where
  | func | table | memory | global
  deriving DecidableEq

/-- `WASMExport`. -/
structure Export where
  name : String
  kind : ExportKind
  index : UInt32
  deriving DecidableEq

/-- `WASMMemory` and `WASMMemoryImport`, as far as their size is concerned. -/
structure WasmMemory where
  numBytesPerPage : UInt32
  initPageCount : UInt32
  maxPageCount : UInt32
  deriving DecidableEq

/-- A memory before the end of `load_from_sections`. -/
def DeclaredMemory.toMemory (d : DeclaredMemory) : WasmMemory := ⟨65536, d.initPageCount, d.maxPageCount⟩

/-- The number of bytes, as an integer without bound. -/
def WasmMemory.size (mem : WasmMemory) : Nat := mem.numBytesPerPage.toNat * mem.initPageCount.toNat

/-- `WASMModule` before the end of `load_from_sections`, as far as the size of its memory is concerned. `possibleMemoryGrow` is
set by `wasm_loader_prepare_bytecode` at a `memory.size` or `memory.grow`. -/
structure MemoryModule where
  exports : List Export
  importGlobalCount : UInt32
  globals : List WasmGlobal
  possibleMemoryGrow : Bool
  /-- What lies at an index outside the array of the globals. -/
  stray : UInt32 → WasmGlobal

/-- `align_uint`, for a boundary that is a power of two. -/
def alignUint (v b : UInt32) : UInt32 := (v + (b - 1)) &&& ~~~(b - 1)

/-- A constant of type i32 that cannot be changed. -/
def WasmGlobal.constant (g : WasmGlobal) : Option UInt32 :=
  if g.type = 0x7F ∧ g.isMutable = false then
    match g.initExpr with
    | .i32Const v => some v
    | _ => none
  else none

/-- A variable of type i32 that starts at a constant: what the stack pointer looks like. -/
def WasmGlobal.variable_ (g : WasmGlobal) : Option UInt32 :=
  if g.type = 0x7F ∧ g.isMutable = true then
    match g.initExpr with
    | .i32Const v => some v
    | _ => none
  else none

namespace MemoryModule

/-- `module->globals + global_index`. -/
def globalAt (m : MemoryModule) (index : UInt32) : WasmGlobal := m.globals[index.toNat]?.getD (m.stray index)

/-- What the loop over the exports has found: the values of the globals, with their indices in the exports. -/
structure Aux where
  heapBase : Option (UInt32 × UInt32) := none
  dataEnd : Option (UInt32 × UInt32) := none
  stackTop : Option UInt32 := none
  deriving DecidableEq

/-- The value of the stack-top global. -/
def findStackTop (m : MemoryModule) (heapBase : UInt32) : Option UInt32 :=
  m.globals.findSome? fun g => g.variable_.filter (· ≤ heapBase)

/-- What the loop takes from one export of a global. -/
def noteExport (m : MemoryModule) (e : Export) (a : Aux) : Aux :=
  let g := m.globalAt (e.index - m.importGlobalCount)
  if e.name = "__heap_base" then
    match g.constant with
    | some v => { a with heapBase := some (v, e.index) }
    | none => a
  else if e.name = "__data_end" then
    match g.constant with
    | some v => { a with dataEnd := some (alignUint v 16, e.index) }
    | none => a
  else a

/-- The loop that resolves the globals. -/
def resolveAux (m : MemoryModule) : List Export → Aux → Aux
  | [], a => a
  | e :: es, a =>
    if e.kind = .global then
      let a := m.noteExport e a
      match a.heapBase, a.dataEnd with
      | some h, some d => if d.1 ≤ h.1 then { a with stackTop := m.findStackTop h.1 } else m.resolveAux es a
      | _, _ => m.resolveAux es a
    else m.resolveAux es a

/-- All three globals: the value and the index of `__heap_base`, and the index of `__data_end`. -/
structure AuxGlobals where
  heapBase : UInt32
  heapBaseIndex : UInt32
  dataEndIndex : UInt32
  deriving DecidableEq

/-- The globals that the loop has found, when it has found all three. -/
def auxGlobals (m : MemoryModule) : Option AuxGlobals :=
  match m.resolveAux m.exports {} with
  | ⟨some h, some d, some _⟩ => some ⟨h.1, h.2, d.2⟩
  | _ => none

/-- The memory is cut down to what lies before the heap. -/
def shrinkMemory (m : MemoryModule) (mem : WasmMemory) : WasmMemory :=
  match m.auxGlobals with
  | some a =>
    let shrunkMemorySize := alignUint a.heapBase 8
    let initMemorySize := mem.numBytesPerPage.toUInt64 * mem.initPageCount.toUInt64
    if shrunkMemorySize.toUInt64 ≤ initMemorySize then { mem with numBytesPerPage := shrunkMemorySize, initPageCount := 1 }
    else mem
  | none => mem

/-- What the end of `load_from_sections` makes of a memory, be it imported or not. -/
def finishMemory (m : MemoryModule) (mem : WasmMemory) : WasmMemory :=
  if m.possibleMemoryGrow then mem
  else
    let mem := m.shrinkMemory mem
    { numBytesPerPage := mem.numBytesPerPage * mem.initPageCount, initPageCount := 1, maxPageCount := 1 }

/-- Both exported globals are globals of the module itself, not imported ones. -/
def Own (m : MemoryModule) (a : AuxGlobals) : Prop :=
  m.importGlobalCount ≤ a.heapBaseIndex ∧ m.importGlobalCount ≤ a.dataEndIndex

/-- The memory keeps its size, or is cut down to the start of the heap. -/
def SizeKept (m : MemoryModule) (d : DeclaredMemory) : Prop :=
  (m.finishMemory d.toMemory).size = d.initPageCount.toNat * 65536 ∨
    (m.possibleMemoryGrow = false ∧ ∃ a, m.auxGlobals = some a ∧ m.Own a ∧
      (m.finishMemory d.toMemory).size = (a.heapBase.toNat + 7) / 8 * 8)

/-- The condition under which the size is kept: the memory may grow; or it has less than 4 GiB and the module does not export
where its heap starts; or that place is not above 4 GiB - 8 and is a global of the module itself; or, as it is read and rounded,
it does not lie inside the memory. -/
def Keeps (m : MemoryModule) (d : DeclaredMemory) : Prop :=
  m.possibleMemoryGrow = true ∨
    match m.auxGlobals with
    | none => d.initPageCount.toNat < 65536
    | some a => (m.Own a ∧ a.heapBase.toNat ≤ 2 ^ 32 - 8) ∨ d.initPageCount.toNat * 65536 ≤ (alignUint a.heapBase 8).toNat

section Size
variable {m : MemoryModule} {d : DeclaredMemory}

theorem toNat_alignUint_eight (v : UInt32) : (alignUint v 8).toNat = (v.toNat + 7) % 2 ^ 32 / 8 * 8 := by
  unfold alignUint
  rw [Words.toNat_and_not_mask (v + (8 - 1)) (k := 3) rfl, UInt32.toNat_add]
  rfl

theorem size_flat : (65536 * d.initPageCount : UInt32).toNat * (1 : UInt32).toNat = d.initPageCount.toNat * 65536 % 2 ^ 32 := by
  rw [UInt32.toNat_mul, Nat.mul_comm]
  exact Nat.one_mul _ ▸ congrArg (· % 2 ^ 32) (Nat.mul_comm _ _)

theorem size_of_grow (hg : m.possibleMemoryGrow = true) : (m.finishMemory d.toMemory).size = d.initPageCount.toNat * 65536 := by
  rw [finishMemory, if_pos hg]
  exact Nat.mul_comm _ _

theorem size_of_none (hg : ¬m.possibleMemoryGrow = true) (ha : m.auxGlobals = none) :
    (m.finishMemory d.toMemory).size = d.initPageCount.toNat * 65536 % 2 ^ 32 := by
  rw [finishMemory, if_neg hg, shrinkMemory, ha]
  exact size_flat

theorem size_of_some {a : AuxGlobals} (hg : ¬m.possibleMemoryGrow = true) (ha : m.auxGlobals = some a) : (m.finishMemory d.toMemory).size =
      if (alignUint a.heapBase 8).toNat ≤ d.initPageCount.toNat * 65536 then (alignUint a.heapBase 8).toNat
      else d.initPageCount.toNat * 65536 % 2 ^ 32 := by
  have hle := d.init_le
  have hinit : ((65536 : UInt32).toUInt64 * d.initPageCount.toUInt64).toNat = d.initPageCount.toNat * 65536 := by
    have h65536 : (65536 : UInt32).toNat = 65536 := rfl
    rw [UInt64.toNat_mul, UInt32.toNat_toUInt64, UInt32.toNat_toUInt64, h65536]
    omega
  rw [finishMemory, if_neg hg, shrinkMemory, ha]
  simp only [DeclaredMemory.toMemory, UInt64.le_iff_toNat_le, hinit, UInt32.toNat_toUInt64]
  split
  · simp [WasmMemory.size]
  · exact size_flat

end Size

/-- After loading, the memory has the size that it was declared with, or was cut down to the start of the heap as it should,
exactly when none of the sizes on the way leaves 32 bits. -/
theorem size_kept_iff (m : MemoryModule) (d : DeclaredMemory) : m.SizeKept d ↔ m.Keeps d := by
  have hle := d.init_le
  unfold SizeKept Keeps
  by_cases hg : m.possibleMemoryGrow = true
  · exact ⟨fun _ => .inl hg, fun _ => .inl (size_of_grow hg)⟩
  have hg' : m.possibleMemoryGrow = false := Bool.eq_false_iff.2 hg
  cases ha : m.auxGlobals with
  | none =>
    rw [size_of_none hg ha]
    constructor
    · rintro (hsize | ⟨-, a, ha', -⟩)
      · right
        simp only
        omega
      · cases ha'
    rintro (hg | hlt)
    · exact absurd hg (by rw [hg']; decide)
    · left
      simp only at hlt
      omega
  | some a =>
    have hround := toNat_alignUint_eight a.heapBase
    have hlt := a.heapBase.toNat_lt
    rw [size_of_some hg ha]
    simp only [hg', Bool.false_eq_true, false_or, true_and, Option.some.injEq, exists_eq_left']
    by_cases hown : m.Own a
    · simp only [hown, true_and]
      split <;> omega
    · simp only [hown, false_and, or_false, false_or]
      split <;> omega

/-- A module without exports whose memory does not grow. -/
def plainModule : MemoryModule := ⟨[], 0, [], false, fun _ => ⟨0, false, .i32Const 0⟩⟩

/-- A module with a stack top at 1024, its data up to 2048 and its heap from 4294967290 on. -/
def highHeap : MemoryModule :=
  { plainModule with
    exports := [⟨"__data_end", .global, 1⟩, ⟨"__heap_base", .global, 2⟩]
    globals := [⟨0x7F, true, .i32Const 1024⟩, ⟨0x7F, false, .i32Const 2048⟩, ⟨0x7F, false, .i32Const 4294967290⟩] }

/-- Of 65536 pages nothing is left, and of one page nothing is left when the heap starts at 4294967290. -/
theorem size_lost :
    plainModule.finishMemory (DeclaredMemory.toMemory ⟨65536, 65536, by decide⟩) = ⟨0, 1, 1⟩ ∧
      ¬plainModule.SizeKept ⟨65536, 65536, by decide⟩ ∧
      highHeap.finishMemory (DeclaredMemory.toMemory ⟨1, 1, by decide⟩) = ⟨0, 1, 1⟩ ∧ ¬highHeap.SizeKept ⟨1, 1, by decide⟩ := by
  have hpages : plainModule.finishMemory (DeclaredMemory.toMemory ⟨65536, 65536, by decide⟩) = ⟨0, 1, 1⟩ := by decide
  have hhigh : highHeap.finishMemory (DeclaredMemory.toMemory ⟨1, 1, by decide⟩) = ⟨0, 1, 1⟩ := by decide
  refine ⟨hpages, ?_, hhigh, ?_⟩
  · rintro (hsize | ⟨-, a, ha, -⟩)
    · rw [hpages] at hsize
      exact absurd hsize (by decide)
    · cases ha
  rintro (hsize | ⟨-, a, ha, -, hsize⟩)
  · rw [hhigh] at hsize
    exact absurd hsize (by decide)
  · obtain rfl : (⟨4294967290, 2, 1⟩ : AuxGlobals) = a := Option.some.inj ha
    rw [hhigh] at hsize
    exact absurd hsize (by decide)

end MemoryModule

end WamrMigrate.Loader
