import WamrMigrate.Lib.Reader

/-!
# The registry of blocks

The runtime keeps a list of the blocks taken from its pool, with the type of what is in each: `root_info` of `wasm_memory.c`. Every allocation in
the interpreter build is followed by `alloc_info`, `alloc_info_buf`, `alloc_info_ex` or `alloc_infos`, and every free by `free_info`. The images
name a block by its offset from the start of the pool, cut to an `int` (`p_abs`); an array of objects has one more node for each of its elements but
the first.
-/

namespace WamrMigrate.Image

/-- `Data_Type` of `wasm_memory.h`, in its order; the `C` in three names tells the types of the C API from those of the interpreter. -/
inductive DataType where
  | charT | charTT | uint8T | uint16T | uint32T | uint64T
  | gcHeapT | baseAddrT | wasiContextT | wasmThreadArgT | externRefMapNodeT
  | fdTableT | fdPrestatsT | argvEnvironValuesT | uvwasiT | uvwasiPreopenT
  | wasmValT
  | wasmInstanceT | wasmEngineT | wasmStoreT | vectorT | wasmValtypeT | wasmFunctypeT | wasmValtypeVecT | wasmGlobaltypeT
  | wasmTabletypeT | wasmMemorytypeT | wasmImporttypeT | wasmByteVecT | wasmExporttypeT | wasmRefT | wasmFrameT | wasmTrapT
  | wasmForeignT | wasmModuleExT | wasmFuncT | wasmGlobalCT | wasmTableCT | wasmMemoryCT | wasmStoreVecT | wasmModuleVecT
  | wasmInstanceVecT | wasmExternVecT
  | wasmExecEnvT
  | nativeSymbolsNodeT
  | wasmModuleCommonT | wasmModuleInstanceCommonT | wasmModuleMemConsumptionT | wasmModuleInstMemConsumptionT
  | wasmMemoryInstanceCommonT | wasmSectionT | wasmCApiFrameT | wasmRegisteredModuleT | loadingModuleT
  | wasmSharedMemNodeT
  | wasmModuleT | wasmFunctionT | wasmFunctionTT | wasmGlobalT | wasmExportT | v128T | wasmValueT | initializerExpressionT
  | wasmTypeT | wasmTypeTT | wasmTableT | wasmMemoryT | wasmTableImportT | wasmMemoryImportT | wasmFunctionImportT
  | wasmGlobalImportT | wasmImportT | wasmTableSegT | wasmDataSegT | wasmDataSegTT | blockAddrT | wasiArgumentsT | stringNodeT
  | blockTypeT | wasmBranchBlockT
  | wasmInterpFrameT
  | branchBlockT | branchBlockPatchT | wasmLoaderContextT | constT
  | wasmModuleInstanceT | wasmFunctionInstanceT | wasmMemoryInstanceT | wasmMemoryInstanceTT | wasmTableInstanceT
  | wasmTableInstanceTT | wasmGlobalInstanceT | wasmExportFuncInstanceT | wasmExportGlobInstanceT | wasmSubModInstNodeT
  | wasmRuntimeFrameT
  | wasmOpcodeT | wasmMiscExtOpcodeT | wasmSimdExtOpcodeT | wasmAtomicExtOpcodeT | hashMapElemT | hashMapT | timerCtxT
  | appTimerT | bhQueueT | bhQueueNodeT
  | atomicWaitInfoT | atomicWaitNodeT
  | wasiIovecT | wasiCiovecT | wasiFileT
  deriving DecidableEq

namespace DataType

/-- The `int` that is written for a type. -/
def code (t : DataType) : UInt32 := UInt32.ofNat t.ctorIdx

/-- The type of an `int`; the tables of the runtime have no entry from `ERRORT` on. -/
def ofCode (c : UInt32) : Option DataType := if c.toNat ≤ wasiFileT.ctorIdx then some (ofNat c.toNat) else none

theorem ctorIdx_le (t : DataType) : t.ctorIdx ≤ wasiFileT.ctorIdx := by cases t <;> decide

theorem ofCode_code (t : DataType) : ofCode t.code = some t := by
  have hle := t.ctorIdx_le
  have hmax : wasiFileT.ctorIdx < UInt32.size := by decide
  have hcode : t.code.toNat = t.ctorIdx := UInt32.toNat_ofNat_of_lt' (Nat.lt_of_le_of_lt hle hmax)
  rw [ofCode, hcode, if_pos hle, ofNat_ctorIdx]

end DataType

/-- A node for an element of an array. -/
structure Elem where
  pAbs : UInt32
  pRaw : Nat
  deriving DecidableEq

/-- `Pool_Info`, an entry of the registry: `list` are the nodes of the elements after the first. `bytes` is the size of the block
at `pRaw`, which the runtime does not keep. -/
structure PoolInfo where
  pAbs : UInt32
  pRaw : Nat
  size : UInt32
  type : DataType
  list : List Elem
  bytes : Nat
  deriving DecidableEq

/-- The sizes that the compiler gives to the types: `sizeof`, or the offset of the last field where that is an array of any length. -/
structure Layout where
  size : DataType → Nat
  pos : ∀ t, 0 < size t
  lt : ∀ t, size t < 2 ^ 32

/-- A layout where every type takes 8 bytes. -/
def layout8 : Layout := ⟨fun _ => 8, fun _ => by decide, fun _ => by decide⟩

/-- `root_info` and `root_frame`, with the start of the pool. -/
structure Registry where
  pool : Nat
  rootInfo : List PoolInfo
  rootFrame : List PoolInfo
  deriving DecidableEq

/-- `addr - pool_allocator` as an `int`. -/
def absOf (pool addr : Nat) : UInt32 := UInt32.ofNat (((addr : Int) - pool) % 2 ^ 32).toNat

/-- The types that `alloc_infos` has a `CASE_INFOS` for in the interpreter build. -/
def hasCaseInfos : DataType → Bool
  | .charTT | .baseAddrT | .wasmThreadArgT | .externRefMapNodeT | .fdTableT | .fdPrestatsT | .argvEnvironValuesT | .uvwasiT
  | .uvwasiPreopenT | .wasmRegisteredModuleT | .loadingModuleT | .wasmFunctionTT | .wasmTypeTT | .wasmDataSegTT
  | .branchBlockPatchT | .wasmMemoryInstanceTT | .wasmTableInstanceTT | .wasmExportGlobInstanceT | .wasmSubModInstNodeT
  | .wasiFileT => false
  | _ => true

/-- The nodes that `CASE_INFOS` makes for an array of `n` elements. -/
def caseInfos (L : Layout) (pool addr : Nat) (type : DataType) (n : Nat) : List Elem :=
  (List.range (n - 1)).map fun i => ⟨absOf pool (addr + (i + 1) * L.size type), addr + (i + 1) * L.size type⟩

namespace Registry

variable (L : Layout) (R : Registry)

/-- Put an entry at the head of `root_info`; `none` is the end of the process for a NULL address. -/
def add (addr : Nat) (type : DataType) (size : Nat) (list : List Elem) (bytes : Nat) : Option Registry :=
  if addr = 0 then none
  else some { R with rootInfo := ⟨absOf R.pool addr, addr, UInt32.ofNat size, type, list, bytes⟩ :: R.rootInfo }

/-- `alloc_info_buf`. -/
def allocInfoBuf (addr : Nat) (type : DataType) (bufSize bytes : Nat) : Option Registry := R.add addr type bufSize [] bytes

/-- `alloc_info`. -/
def allocInfo (addr : Nat) (type : DataType) (bytes : Nat) : Option Registry := R.allocInfoBuf addr type 1 bytes

/-- `alloc_info_ex`. -/
def allocInfoEx (addr : Nat) (type : DataType) (size bytes : Nat) : Option Registry := R.add addr type size [] bytes

/-- `alloc_infos`. -/
def allocInfos (addr : Nat) (type : DataType) (size bytes : Nat) : Option Registry :=
  R.add addr type size (if hasCaseInfos type then caseInfos L R.pool addr type size else []) bytes

/-- `free_info`: the first entry with the address is removed, first in `root_info` and then in `root_frame`; the process ends when
there is none. (The last loop of the source compares the nodes themselves, which are not in the pool, with the address.) -/
def freeInfo (addr : Nat) : Option Registry :=
  if R.rootInfo.any (·.pRaw == addr) then some { R with rootInfo := R.rootInfo.eraseP (·.pRaw == addr) }
  else if R.rootFrame.any (·.pRaw == addr) then some { R with rootFrame := R.rootFrame.eraseP (·.pRaw == addr) }
  else none

end Registry

/-! ## The calls of the interpreter build -/

/-- The types of the blocks that hold one object, registered with `alloc_info`. -/
def singleTypes : List DataType :=
  [.gcHeapT, .wasiContextT, .fdTableT, .fdPrestatsT, .argvEnvironValuesT, .wasiFileT, .nativeSymbolsNodeT, .wasmModuleT,
    .wasmSectionT, .wasmLoaderContextT, .wasmDataSegT, .wasmModuleInstanceT, .wasmMemoryInstanceT, .hashMapElemT, .timerCtxT,
    .appTimerT, .bhQueueT, .bhQueueNodeT, .wasmEngineT, .wasmStoreVecT, .wasmStoreT, .wasmModuleVecT, .wasmInstanceVecT, .vectorT,
    .wasmValtypeT, .wasmFunctypeT, .wasmValtypeVecT, .wasmGlobaltypeT, .wasmTabletypeT, .wasmMemorytypeT, .wasmImporttypeT,
    .wasmByteVecT, .wasmExporttypeT, .wasmRefT, .wasmFrameT, .wasmTrapT, .wasmForeignT, .wasmModuleExT, .wasmFuncT, .wasmGlobalCT,
    .wasmValT, .wasmTableCT, .wasmMemoryCT, .wasmInstanceT, .wasmExternVecT]

/-- The types of the blocks of plain values or pointers, registered with `alloc_info_buf`. -/
def bufTypes : List DataType :=
  [.charT, .charTT, .uint8T, .uint16T, .uint32T, .uint64T, .wasmTypeTT, .wasmFunctionTT, .wasmDataSegTT, .wasmMemoryInstanceTT,
    .wasmTableInstanceTT]

/-- The types of the blocks that end with an array of any length, registered with `alloc_info_ex`. -/
def exTypes : List DataType := [.wasmExecEnvT, .wasmTypeT, .wasmTableInstanceT, .stringNodeT, .wasmFunctionT]

/-- The types of the arrays of objects, registered with `alloc_infos`. -/
def arrayTypes : List DataType :=
  [.wasmImportT, .wasmTableT, .wasmMemoryT, .wasmGlobalT, .wasmExportT, .wasmTableSegT, .branchBlockT, .wasmFunctionInstanceT,
    .wasmGlobalInstanceT, .wasmExportFuncInstanceT, .wasmValT, .wasiIovecT, .wasiCiovecT]

/-- The size of the block that `wasm_runtime_malloc` is asked for: an `unsigned int`, and at least one byte. -/
def request (n : Nat) : Nat := if n % 2 ^ 32 = 0 then 1 else n % 2 ^ 32

/-- The calls that register blocks in the interpreter build, each with the size that was asked for just before. -/
inductive Registry.Register (L : Layout) (R : Registry) : Registry → Prop
  | single {addr : Nat} {t : DataType} {R' : Registry} (ht : t ∈ singleTypes)
      (h : R.allocInfo addr t (request (L.size t)) = some R') : Register L R R'
  | buf {addr n : Nat} {t : DataType} {R' : Registry} (ht : t ∈ bufTypes) (hn : L.size t * n < 2 ^ 32)
      (h : R.allocInfoBuf addr t n (request (L.size t * n)) = some R') : Register L R R'
  /-- The lists of arguments and of the environment in `libc_wasi_wrapper.c` are registered with their size in bytes. -/
  | argv {addr n : Nat} {R' : Registry} (hn : n < 2 ^ 32) (h : R.allocInfoBuf addr .charTT n (request n) = some R') :
      Register L R R'
  | ex {addr n : Nat} {t : DataType} {R' : Registry} (ht : t ∈ exTypes) (hn : L.size t + n < 2 ^ 32)
      (h : R.allocInfoEx addr t n (request (L.size t + n)) = some R') : Register L R R'
  /-- A frame is a part of the stack of its execution environment. -/
  | frame {addr n : Nat} {R' : Registry} (hn : n < 2 ^ 32) (h : R.allocInfoEx addr .wasmInterpFrameT n n = some R') :
      Register L R R'
  /-- `bh_hash_map_create` registers what follows the fields of the map: its table, and its lock if it has one. -/
  | hashMap {addr n bytes : Nat} {R' : Registry} (hn : n < 2 ^ 31) (h8 : n % 8 = 0)
      (h : R.allocInfoEx addr .hashMapT n bytes = some R') : Register L R R'
  | array {addr n : Nat} {t : DataType} {R' : Registry} (ht : t ∈ arrayTypes) (hn : n < 2 ^ 31) (hs : L.size t * n < 2 ^ 32)
      (h : R.allocInfos L addr t n (request (L.size t * n)) = some R') : Register L R R'
  /-- `wasm_func_call` of the C API registers the cells for its arguments and results as an array. -/
  | argCells {addr n : Nat} {R' : Registry} (hn : n < 2 ^ 31) (hs : L.size .uint64T * n < 2 ^ 32)
      (h : R.allocInfos L addr .uint64T n (request (L.size .uint64T * n)) = some R') : Register L R R'

/-- The registries that the interpreter build can produce, from an empty one. -/
inductive Registry.Produced (L : Layout) (pool : Nat) : Registry → Prop
  | empty : Produced L pool ⟨pool, [], []⟩
  | register {R R' : Registry} (h : Produced L pool R) (hs : Registry.Register L R R') : Produced L pool R'
  | free {R R' : Registry} {addr : Nat} (h : Produced L pool R) (hf : R.freeInfo addr = some R') : Produced L pool R'

/-- What is known of an entry from the call that registered it. -/
inductive Registered (L : Layout) (pool : Nat) : PoolInfo → Prop
  | single {addr : Nat} {t : DataType} (ht : t ∈ singleTypes) :
      Registered L pool ⟨absOf pool addr, addr, 1, t, [], request (L.size t)⟩
  | buf {addr n : Nat} {t : DataType} (ht : t ∈ bufTypes) (hn : L.size t * n < 2 ^ 32) :
      Registered L pool ⟨absOf pool addr, addr, UInt32.ofNat n, t, [], request (L.size t * n)⟩
  | argv {addr n : Nat} : Registered L pool ⟨absOf pool addr, addr, UInt32.ofNat n, .charTT, [], request n⟩
  | ex {addr n : Nat} {t : DataType} (ht : t ∈ exTypes) (hn : L.size t + n < 2 ^ 32) :
      Registered L pool ⟨absOf pool addr, addr, UInt32.ofNat n, t, [], request (L.size t + n)⟩
  | frame {addr n : Nat} : Registered L pool ⟨absOf pool addr, addr, UInt32.ofNat n, .wasmInterpFrameT, [], n⟩
  | hashMap {addr n bytes : Nat} (hn : n < 2 ^ 31) (h8 : n % 8 = 0) :
      Registered L pool ⟨absOf pool addr, addr, UInt32.ofNat n, .hashMapT, [], bytes⟩
  | array {addr n : Nat} {t : DataType} (ht : t ∈ arrayTypes) (hn : n < 2 ^ 31) (hs : L.size t * n < 2 ^ 32) :
      Registered L pool ⟨absOf pool addr, addr, UInt32.ofNat n, t, caseInfos L pool addr t n, request (L.size t * n)⟩
  | argCells {addr n : Nat} (hs : L.size .uint64T * n < 2 ^ 32) :
      Registered L pool
        ⟨absOf pool addr, addr, UInt32.ofNat n, .uint64T, caseInfos L pool addr .uint64T n, request (L.size .uint64T * n)⟩

theorem hasCaseInfos_array : ∀ t ∈ arrayTypes, hasCaseInfos t = true := by decide

theorem Registry.add_eq_some {R R' : Registry} {addr size bytes : Nat} {t : DataType} {list : List Elem}
    (h : R.add addr t size list bytes = some R') :
    R' = { R with rootInfo := ⟨absOf R.pool addr, addr, UInt32.ofNat size, t, list, bytes⟩ :: R.rootInfo } := by
  rw [Registry.add] at h
  split at h
  · cases h
  · exact (Option.some.inj h).symm

theorem Registry.Register.cons {L : Layout} {R R' : Registry} (h : Registry.Register L R R') :
    ∃ e, R' = { R with rootInfo := e :: R.rootInfo } ∧ Registered L R.pool e := by
  cases h with
  | single ht h => exact ⟨_, Registry.add_eq_some h, Registered.single ht⟩
  | buf ht hn h => exact ⟨_, Registry.add_eq_some h, Registered.buf ht hn⟩
  | argv hn h => exact ⟨_, Registry.add_eq_some h, Registered.argv⟩
  | ex ht hn h => exact ⟨_, Registry.add_eq_some h, Registered.ex ht hn⟩
  | frame hn h => exact ⟨_, Registry.add_eq_some h, Registered.frame⟩
  | hashMap hn h8 h => exact ⟨_, Registry.add_eq_some h, Registered.hashMap hn h8⟩
  | array ht hn hs h =>
    rw [Registry.allocInfos, if_pos (hasCaseInfos_array _ ht)] at h
    exact ⟨_, Registry.add_eq_some h, Registered.array ht hn hs⟩
  | argCells hn hs h =>
    have hcase : hasCaseInfos .uint64T = true := rfl
    rw [Registry.allocInfos, if_pos hcase] at h
    exact ⟨_, Registry.add_eq_some h, Registered.argCells hs⟩

theorem Registry.freeInfo_subset {R R' : Registry} {addr : Nat} (h : R.freeInfo addr = some R') : R'.pool = R.pool ∧ R'.rootInfo ⊆ R.rootInfo := by
  rw [Registry.freeInfo] at h
  split at h
  · cases h
    exact ⟨rfl, List.eraseP_subset⟩
  split at h
  · cases h
    exact ⟨rfl, List.Subset.refl _⟩
  · cases h

/-- Every entry of a registry was registered by one of the calls. -/
theorem Registry.Produced.registered {L : Layout} {pool : Nat} {R : Registry} (h : Registry.Produced L pool R) :
    R.pool = pool ∧ ∀ e ∈ R.rootInfo, Registered L pool e := by
  induction h with
  | empty => exact ⟨rfl, fun e he => absurd he List.not_mem_nil⟩
  | register _ hs ih =>
    obtain ⟨e, rfl, he⟩ := hs.cons
    exact ⟨ih.1, List.forall_mem_cons.2 ⟨ih.1 ▸ he, ih.2⟩⟩
  | free _ hf ih =>
    obtain ⟨hp, hsub⟩ := Registry.freeInfo_subset hf
    exact ⟨hp.trans ih.1, fun e he => ih.2 e (hsub he)⟩

end WamrMigrate.Image
