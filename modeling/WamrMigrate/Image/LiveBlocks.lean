import Mathlib.Data.List.Perm.Basic
import WamrMigrate.Image.Registry

/-!
# Blocks in use and their entries

An entry for a block is made by a call of its own after `wasm_runtime_malloc`, while `wasm_runtime_free` ends the process when there is no entry.
Here are the sequences of these calls that the loader, the instances, the native calls and the utilities make, with their error paths. In some
places the entry does not follow at once: `wasm_runtime_invoke_c_api_native` makes entries for buffers on the C stack, `wasm_runtime_init_wasi`
makes those of a group of blocks when it has them all, `bh_read_file_to_buffer` makes none, and an exception leaves the entries of the frames it
unwinds.
-/

namespace WamrMigrate.Image

/-- Where the process ends: in `alloc_info` for NULL, or in `free_info` for an address without an entry. -/
inductive Exit where
  | allocInfo
  | freeInfo
  deriving DecidableEq

/-- The addresses that have an entry. -/
def Registry.keys (R : Registry) : List Nat := R.rootInfo.map PoolInfo.pRaw ++ R.rootFrame.map PoolInfo.pRaw

/-- The blocks allocated from the pool, the frames on the wasm stack with the newest first, and the registry. -/
structure Runtime where
  blocks : List Nat
  frames : List Nat
  registry : Registry
  deriving DecidableEq

/-- The calls that make an entry: `alloc_info`, `alloc_info_buf`, `alloc_info_ex` and `alloc_infos`. -/
inductive Info where
  | info (t : DataType)
  | buf (t : DataType) (n : Nat)
  | ex (t : DataType) (n : Nat)
  | infos (t : DataType) (n : Nat)

/-- The size of a request of a group, which is checked when it is not that of a type, and the answer to it; 0 is NULL. -/
inductive Request where
  | sized (size answer : Nat)
  | fixed (answer : Nat)

/-- The arguments of `wasm_runtime_invoke_c_api_native`, where its two buffers are, what `wasm_runtime_malloc` answers to it and
what `argv_to_params` does. -/
structure NativeCall where
  paramCount : Nat
  resultCount : Nat
  paramsBuf : Nat
  resultsBuf : Nat
  params : Nat
  results : Nat
  paramsOk : Bool

/-- The arguments of `wasm_runtime_init_wasi` that count here, what `wasm_runtime_malloc` answers to it, and whether it succeeds after
the last allocation. -/
structure WasiInit where
  hasMemory : Bool
  argc : Nat
  argvBufSize : Nat
  envCount : Nat
  envBufSize : Nat
  ctx : Nat
  argvList : Nat
  argvBuf : Nat
  envList : Nat
  envBuf : Nat
  curfds : Nat
  prestats : Nat
  argvEnviron : Nat
  rest : Bool

namespace Runtime

variable (L : Layout) (s : Runtime)

/-- The entry for a block that has just been allocated. -/
def enter (addr : Nat) : Info → Except Exit Runtime
  | .info t => record (s.registry.allocInfo addr t (request (L.size t)))
  | .buf t n => record (s.registry.allocInfoBuf addr t n (request (L.size t * n)))
  | .ex t n => record (s.registry.allocInfoEx addr t n (request (L.size t + n)))
  | .infos t n => record (s.registry.allocInfos L addr t n (request (L.size t * n)))
where
  record : Option Registry → Except Exit Runtime
    | none => .error .allocInfo
    | some R => .ok { s with registry := R }

/-- `free_info`. -/
def freeInfo (addr : Nat) : Except Exit Runtime :=
  match s.registry.freeInfo addr with
  | none => .error .freeInfo
  | some R => .ok { s with registry := R }

/-- `wasm_runtime_malloc`, with the answer of the allocator. -/
def wasmRuntimeMalloc (answer : Nat) : Runtime := if answer = 0 then s else { s with blocks := answer :: s.blocks }

/-- `wasm_runtime_realloc`, with the answer of the allocator. -/
def wasmRuntimeRealloc (ptr answer : Nat) : Except Exit Runtime :=
  if answer = 0 then .ok s else freeInfo { s with blocks := answer :: s.blocks.erase ptr } ptr

/-- `wasm_runtime_free`: NULL is not given to the allocator, but to `free_info`. -/
def wasmRuntimeFree (ptr : Nat) : Except Exit Runtime :=
  freeInfo (if ptr = 0 then s else { s with blocks := s.blocks.erase ptr }) ptr

/-- An allocation as it is made in most places: `loader_malloc` or `runtime_malloc`, an error for NULL, and the entry. -/
def allocate (i : Info) (answer : Nat) : Except Exit Runtime :=
  if answer = 0 then .ok s else (s.wasmRuntimeMalloc answer).enter L answer i

/-- An allocation as `alloc_vector_data` and `bh_strdup` make it: the entry is made for NULL as well. -/
def allocateUnchecked (i : Info) (answer : Nat) : Except Exit Runtime := (s.wasmRuntimeMalloc answer).enter L answer i

/-- The new block of `wasm_enlarge_memory`. -/
def enlargeMemory (memoryData totalSize realloc malloc : Nat) : Except Exit Runtime :=
  if realloc ≠ 0 then do
    let s ← s.wasmRuntimeRealloc memoryData realloc
    s.enter L realloc (.buf .uint8T totalSize)
  else if malloc = 0 then .ok s
  else do
    let s ← (s.wasmRuntimeMalloc malloc).wasmRuntimeFree memoryData
    s.enter L malloc (.buf .uint8T totalSize)

/-- The end of `wasm_runtime_invoke_c_api_native`, from the label `fail` on. -/
def nativeLeave (x : NativeCall) (params results : Nat) : Except Exit Runtime := do
  let s ← if params ≠ x.paramsBuf then s.wasmRuntimeFree params else .ok s
  if results ≠ x.resultsBuf then s.wasmRuntimeFree results else .ok s

/-- `wasm_runtime_invoke_c_api_native` up to the call of the native function, or to its end when that is not called. -/
def nativeEnter (x : NativeCall) : Except Exit Runtime :=
  let s₁ := if 16 < x.paramCount then s.wasmRuntimeMalloc x.params else s
  let params := if 16 < x.paramCount then x.params else x.paramsBuf
  if 16 < x.paramCount ∧ x.params = 0 then .ok s₁
  else do
    let s₂ ← s₁.enter L params (.infos .wasmValT x.paramCount)
    if x.paramsOk then
      let s₃ := if 4 < x.resultCount then s₂.wasmRuntimeMalloc x.results else s₂
      let results := if 4 < x.resultCount then x.results else x.resultsBuf
      -- `results` is NULL at the label and not the buffer
      if 4 < x.resultCount ∧ x.results = 0 then s₃.nativeLeave x params 0
      else s₃.enter L results (.infos .wasmValT x.resultCount)
    else s₂.nativeLeave x params x.resultsBuf

/-- The condition of `wasm_runtime_init_wasi` for a group: the blocks are allocated in turn up to the first failure. The result is
whether there was none, with the blocks; a block of 0 bytes is not asked for and stays NULL. -/
def mallocAll (s : Runtime) : List Request → Runtime × Bool × List Nat
  | [] => (s, true, [])
  | .sized size answer :: rs =>
    if 2 ^ 32 - 1 ≤ size then (s, false, [])
    else if size = 0 then
      let r := mallocAll s rs
      (r.1, r.2.1, 0 :: r.2.2)
    else if answer = 0 then (s, false, [])
    else
      let r := mallocAll (s.wasmRuntimeMalloc answer) rs
      (r.1, r.2.1, answer :: r.2.2)
  | .fixed answer :: rs =>
    if answer = 0 then (s, false, [])
    else
      let r := mallocAll (s.wasmRuntimeMalloc answer) rs
      (r.1, r.2.1, answer :: r.2.2)

/-- The entries of a group. -/
def enterAll (s : Runtime) : List (Nat × Info) → Except Exit Runtime
  | [] => .ok s
  | (addr, i) :: rest => if addr = 0 then enterAll s rest else (s.enter L addr i).bind fun s => enterAll s rest

/-- The blocks that are not NULL are freed in turn. -/
def freeAll (s : Runtime) : List Nat → Except Exit Runtime
  | [] => .ok s
  | p :: ps => if p = 0 then freeAll s ps else (s.wasmRuntimeFree p).bind fun s => freeAll s ps

/-- A group of blocks of `wasm_runtime_init_wasi`: the entries are made when all blocks are there, or else those of the list
`failed` are freed. -/
def wasiGroup (rs : List Request) (infos : List Info) (failed : List Nat → List Nat)
    (next : Runtime → List Nat → Except Exit Runtime) : Except Exit Runtime :=
  let r := s.mallocAll rs
  if r.2.1 then (enterAll L r.1 (r.2.2.zip infos)).bind fun s => next s r.2.2 else r.1.freeAll (failed r.2.2)

end Runtime

namespace WasiInit

variable (x : WasiInit)

def argvRequests : List Request := [.sized (8 * x.argc) x.argvList, .sized x.argvBufSize x.argvBuf]

def envRequests : List Request := [.sized (8 * x.envCount) x.envList, .sized x.envBufSize x.envBuf]

def tableRequests : List Request := [.fixed x.curfds, .fixed x.prestats, .fixed x.argvEnviron]

end WasiInit

namespace Runtime

variable (L : Layout) (s : Runtime)

/-- `wasm_runtime_init_wasi`; the tables that it fills at the end are left out. -/
def initWasi (x : WasiInit) : Except Exit Runtime :=
  if x.ctx = 0 then .ok s
  else
    ((s.wasmRuntimeMalloc x.ctx).enter L x.ctx (.info .wasiContextT)).bind fun s =>
      if x.hasMemory then
        s.wasiGroup L x.argvRequests [.buf .charTT x.argc, .buf .charT x.argvBufSize] List.reverse fun s argv =>
        s.wasiGroup L x.envRequests [.buf .charTT x.envCount, .buf .charT x.envBufSize] (argv.reverse ++ ·.reverse) fun s env =>
        s.wasiGroup L x.tableRequests [.info .fdTableT, .info .fdPrestatsT, .info .argvEnvironValuesT]
          (· ++ (argv.reverse ++ env.reverse)) fun s tables =>
        if x.rest then .ok s else s.freeAll (tables ++ (argv.reverse ++ env.reverse))
      else .ok s

/-- `bh_read_file_to_buffer`, for a file that can be opened, with whether all of it is read. -/
def bhReadFileToBuffer (answer : Nat) (read : Bool) : Except Exit Runtime :=
  if answer = 0 then .ok s
  else if read then .ok (s.wasmRuntimeMalloc answer)
  else (s.wasmRuntimeMalloc answer).wasmRuntimeFree answer

/-- `ALLOC_FRAME`, with the frame that the wasm stack has room for or NULL. -/
def allocFrame (frame size : Nat) : Except Exit Runtime :=
  if frame = 0 then .ok s else enter L { s with frames := frame :: s.frames } frame (.ex .wasmInterpFrameT size)

/-- `FREE_FRAME`: the top of the wasm stack is set to the frame, which ends the frames above it as well. -/
def freeFrame (frame : Nat) : Except Exit Runtime :=
  freeInfo { s with frames := (s.frames.dropWhile (· ≠ frame)).tail } frame

end Runtime

/-- What the runtime does with its blocks. -/
inductive PoolCall where
  | allocate (i : Info) (answer : Nat)
  | allocateUnchecked (i : Info) (answer : Nat)
  | free (ptr : Nat)
  | enlargeMemory (memoryData totalSize realloc malloc : Nat)
  | nativeEnter (x : NativeCall)
  | nativeLeave (x : NativeCall)
  | initWasi (x : WasiInit)
  | readFile (answer : Nat) (read : Bool)
  | allocFrame (frame size : Nat)
  | freeFrame (frame : Nat)

/-- A call, in a runtime. A native call that is left has made entries for the blocks that it was given. -/
def PoolCall.run (L : Layout) (s : Runtime) : PoolCall → Except Exit Runtime
  | .allocate i answer => s.allocate L i answer
  | .allocateUnchecked i answer => s.allocateUnchecked L i answer
  | .free ptr => s.wasmRuntimeFree ptr
  | .enlargeMemory data size realloc malloc => s.enlargeMemory L data size realloc malloc
  | .nativeEnter x => s.nativeEnter L x
  | .nativeLeave x =>
    s.nativeLeave x (if 16 < x.paramCount then x.params else x.paramsBuf) (if 4 < x.resultCount then x.results else x.resultsBuf)
  | .initWasi x => s.initWasi L x
  | .readFile answer read => s.bhReadFileToBuffer answer read
  | .allocFrame frame size => s.allocFrame L frame size
  | .freeFrame frame => s.freeFrame frame

namespace Runtime

variable (s : Runtime)

/-- The blocks and the frames. -/
def used : List Nat := s.blocks ++ s.frames

/-- Every block can be freed, and no entry is for anything but a block or a frame. -/
structure Exact : Prop where
  frees : ∀ p ∈ s.blocks, ∃ s', s.wasmRuntimeFree p = .ok s'
  entries : ∀ e ∈ s.registry.rootInfo ++ s.registry.rootFrame, e.pRaw ∈ s.used

/-- An address that the allocator may answer with: NULL or one not in use. -/
def Fresh (p : Nat) : Prop := p = 0 ∨ p ∉ s.used

end Runtime

/-- Blocks are registered exactly while they are in use: before the first call and after each one, and no call ends in `free_info`. -/
def ExactThroughout (L : Layout) : Runtime → List PoolCall → Prop
  | s, [] => s.Exact
  | s, c :: cs =>
    s.Exact ∧
      match c.run L s with
      | .ok s' => ExactThroughout L s' cs
      | .error .freeInfo => False
      | .error .allocInfo => True

/-! ## The ledger -/

section Ledger
variable {L : Layout} {s : Runtime} {U : List Nat} {p : Nat} {i : Info}

theorem Registry.keys_add {R : Registry} {t : DataType} {size bytes : Nat} {list : List Elem} (hp : p ≠ 0) :
    ∃ R', R.add p t size list bytes = some R' ∧ R'.keys = p :: R.keys := by
  unfold Registry.add
  rw [if_neg hp]
  exact ⟨_, rfl, rfl⟩

theorem map_eraseP_pRaw (l : List PoolInfo) (p : Nat) : (l.eraseP (·.pRaw == p)).map PoolInfo.pRaw = (l.map PoolInfo.pRaw).erase p := by
  induction l with
  | nil => rfl
  | cons e l ih =>
    by_cases he : e.pRaw = p
    · rw [List.eraseP_cons_of_pos (by simpa using he), List.map_cons, he, List.erase_cons_head]
    · rw [List.eraseP_cons_of_neg (by simpa using he), List.map_cons, List.map_cons, List.erase_cons_tail (by simpa using he), ih]

theorem any_pRaw_iff (l : List PoolInfo) (p : Nat) : l.any (·.pRaw == p) = true ↔ p ∈ l.map PoolInfo.pRaw := by
  simp only [List.any_eq_true, List.mem_map, beq_iff_eq]

theorem Registry.keys_freeInfo {R : Registry} (hp : p ∈ R.keys) : ∃ R', R.freeInfo p = some R' ∧ R'.keys = R.keys.erase p := by
  unfold Registry.freeInfo
  by_cases hinfo : p ∈ R.rootInfo.map PoolInfo.pRaw
  · rw [if_pos ((any_pRaw_iff _ _).2 hinfo)]
    refine ⟨_, rfl, ?_⟩
    unfold Registry.keys
    rw [map_eraseP_pRaw, List.erase_append_left _ hinfo]
  have hframe : p ∈ R.rootFrame.map PoolInfo.pRaw := (List.mem_append.1 hp).resolve_left hinfo
  rw [if_neg (mt (any_pRaw_iff _ _).1 hinfo), if_pos ((any_pRaw_iff _ _).2 hframe)]
  refine ⟨_, rfl, ?_⟩
  unfold Registry.keys
  rw [map_eraseP_pRaw, List.erase_append_right _ hinfo]

theorem Registry.freeInfo_eq_none {R : Registry} (hp : p ∉ R.keys) : R.freeInfo p = none := by
  unfold Registry.keys at hp
  rw [List.mem_append, not_or] at hp
  unfold Registry.freeInfo
  rw [if_neg (mt (any_pRaw_iff _ _).1 hp.1), if_neg (mt (any_pRaw_iff _ _).1 hp.2)]

namespace Runtime

/-- The blocks in `U` have no entry yet; all other blocks and all frames have one each, and there are no other entries. -/
structure Pending (s : Runtime) (U : List Nat) : Prop where
  perm : (s.registry.keys ++ U).Perm s.used
  nodup : s.used.Nodup
  ne_zero : 0 ∉ s.used
  sub : U ⊆ s.blocks

/-- Every block and every frame has one entry, and there are no others. -/
def Settled (s : Runtime) : Prop := s.Pending []

theorem enter_zero : s.enter L 0 i = .error .allocInfo := by
  cases i <;> rfl

theorem enter_eq (hp : p ≠ 0) : ∃ R, s.enter L p i = .ok { s with registry := R } ∧ R.keys = p :: s.registry.keys := by
  -- the four calls differ in what they put into the entry
  have hadd : ∀ {t : DataType} {size : Nat} {list : List Elem} {bytes : Nat},
      ∃ R, enter.record s (s.registry.add p t size list bytes) = .ok { s with registry := R } ∧ R.keys = p :: s.registry.keys := by
    intro t size list bytes
    obtain ⟨R, hR, hk⟩ := Registry.keys_add (R := s.registry) (t := t) hp
    exact ⟨R, by rw [hR]; rfl, hk⟩
  cases i <;> exact hadd

theorem freeInfo_of_mem (hp : p ∈ s.registry.keys) : ∃ R, s.freeInfo p = .ok { s with registry := R } ∧ R.keys = s.registry.keys.erase p := by
  obtain ⟨R, hR, hk⟩ := Registry.keys_freeInfo hp
  exact ⟨R, by rw [freeInfo, hR], hk⟩

theorem freeInfo_of_not_mem (hp : p ∉ s.registry.keys) : s.freeInfo p = .error .freeInfo := by
  rw [freeInfo, Registry.freeInfo_eq_none hp]

theorem wasmRuntimeMalloc_eq (hp : p ≠ 0) : s.wasmRuntimeMalloc p = { s with blocks := p :: s.blocks } := if_neg hp

theorem wasmRuntimeFree_eq (hp : p ≠ 0) : s.wasmRuntimeFree p = freeInfo { s with blocks := s.blocks.erase p } p := by
  rw [wasmRuntimeFree, if_neg hp]

theorem free_zero (h : 0 ∉ s.registry.keys) : s.wasmRuntimeFree 0 = .error .freeInfo := freeInfo_of_not_mem h

namespace Pending

theorem mem_keys (h : s.Pending U) : p ∈ s.registry.keys ↔ p ∈ s.used ∧ p ∉ U := by
  have hdisj := (List.nodup_append.1 (h.perm.nodup_iff.2 h.nodup)).2.2
  constructor
  · intro hp
    exact ⟨h.perm.mem_iff.1 (List.mem_append_left _ hp), fun hU => hdisj p hp p hU rfl⟩
  · rintro ⟨hp, hU⟩
    exact (List.mem_append.1 (h.perm.mem_iff.2 hp)).resolve_right hU

theorem ne_zero_of_mem (h : s.Pending U) (hp : p ∈ s.used) : p ≠ 0 := by
  rintro rfl
  exact h.ne_zero hp

theorem malloc (h : s.Pending U) (hp : p ∉ s.used) (h0 : p ≠ 0) : (s.wasmRuntimeMalloc p).Pending (p :: U) := by
  rw [wasmRuntimeMalloc_eq h0]
  refine ⟨List.perm_middle.trans (h.perm.cons p), List.nodup_cons.2 ⟨hp, h.nodup⟩, ?_, List.cons_subset_cons p h.sub⟩
  intro hmem
  rcases List.mem_cons.1 hmem with h0' | hmem
  · exact h0 h0'.symm
  · exact h.ne_zero hmem

theorem enter (h : s.Pending (p :: U)) : ∃ R, s.enter L p i = .ok { s with registry := R } ∧ Pending { s with registry := R } U := by
  have hblock : p ∈ s.blocks := h.sub List.mem_cons_self
  obtain ⟨R, hrun, hk⟩ := enter_eq (s := s) (L := L) (i := i) (h.ne_zero_of_mem (List.mem_append_left _ hblock))
  refine ⟨R, hrun, ?_, h.nodup, h.ne_zero, fun u hu => h.sub (List.mem_cons_of_mem p hu)⟩
  rw [hk]
  exact List.perm_middle.symm.trans h.perm

theorem free (h : s.Pending U) (hp : p ∈ s.blocks) (hU : p ∉ U) :
    ∃ R, s.wasmRuntimeFree p = .ok { s with blocks := s.blocks.erase p, registry := R } ∧
      Pending { s with blocks := s.blocks.erase p, registry := R } U := by
  have hused : p ∈ s.used := List.mem_append_left _ hp
  have hkey : p ∈ s.registry.keys := h.mem_keys.2 ⟨hused, hU⟩
  have herase : s.blocks.erase p ++ s.frames = s.used.erase p := (List.erase_append_left _ hp).symm
  obtain ⟨R, hrun, hk⟩ := freeInfo_of_mem (s := { s with blocks := s.blocks.erase p }) hkey
  refine ⟨R, (wasmRuntimeFree_eq (h.ne_zero_of_mem hused)).trans hrun, ?_, ?_, ?_, ?_⟩
  · show (R.keys ++ U).Perm (s.blocks.erase p ++ s.frames)
    rw [hk, herase, ← List.erase_append_left _ hkey]
    exact h.perm.erase p
  · show (s.blocks.erase p ++ s.frames).Nodup
    rw [herase]
    exact h.nodup.erase p
  · show 0 ∉ s.blocks.erase p ++ s.frames
    rw [herase]
    exact fun hmem => h.ne_zero (List.mem_of_mem_erase hmem)
  · intro u hu
    have hne : u ≠ p := fun he => hU (he ▸ hu)
    exact (List.mem_erase_of_ne hne).2 (h.sub hu)

theorem free_pending (h : s.Pending U) (hU : p ∈ U) : s.wasmRuntimeFree p = .error .freeInfo := by
  have hused : p ∈ s.used := List.mem_append_left _ (h.sub hU)
  rw [wasmRuntimeFree_eq (h.ne_zero_of_mem hused)]
  exact freeInfo_of_not_mem fun hkey => (h.mem_keys.1 hkey).2 hU

theorem zero_not_mem (h : s.Pending U) : 0 ∉ s.registry.keys := fun hkey => h.ne_zero (h.mem_keys.1 hkey).1

theorem not_exact (h : s.Pending U) (hU : p ∈ U) : ¬s.Exact := by
  intro he
  obtain ⟨s', hrun⟩ := he.frees p (h.sub hU)
  rw [h.free_pending hU] at hrun
  cases hrun

end Pending

theorem mem_keys_iff {R : Registry} : p ∈ R.keys ↔ ∃ e ∈ R.rootInfo ++ R.rootFrame, e.pRaw = p := by
  rw [Registry.keys, ← List.map_append, List.mem_map]

theorem Settled.keys_perm (h : s.Settled) : s.registry.keys.Perm s.used := by
  have hperm := h.perm
  rwa [List.append_nil] at hperm

theorem Settled.of_cons {t : Runtime} {l : List Nat} (hk : t.registry.keys.Perm (p :: l)) (hu : t.used.Perm (p :: l))
    (hl : (p :: l).Nodup) (h0 : 0 ∉ p :: l) : t.Settled := by
  refine ⟨?_, hu.nodup_iff.2 hl, fun hmem => h0 (hu.mem_iff.1 hmem), List.nil_subset _⟩
  rw [List.append_nil]
  exact hk.trans hu.symm

theorem Settled.exact (h : s.Settled) : s.Exact := by
  refine ⟨fun p hp => ?_, fun e he => ?_⟩
  · obtain ⟨R, hrun, -⟩ := h.free hp List.not_mem_nil
    exact ⟨_, hrun⟩
  · exact (h.mem_keys.1 (mem_keys_iff.2 ⟨e, he, rfl⟩)).1

theorem not_exact_of_key (hk : p ∈ s.registry.keys) (hp : p ∉ s.used) : ¬s.Exact := by
  intro he
  obtain ⟨e, hmem, rfl⟩ := mem_keys_iff.1 hk
  exact hp (he.entries e hmem)

end Runtime

end Ledger

end WamrMigrate.Image
