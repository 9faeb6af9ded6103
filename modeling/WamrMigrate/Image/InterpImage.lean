import WamrMigrate.Image.Resolve

/-!
# `interp.img`

The local variables of `wasm_interp_call_func_bytecode` are written to `interp.img` at a checkpoint and read back in the branch that `migr_flag`
enters: objects as offsets in the pool, pointers into the code and the stacks as distances. The branch jumps over every initialiser, adds the
distance of `global_addr` to `global_data` and never sets `global_addr` (`interpImage_roundTrip_iff`).
-/

namespace WamrMigrate.Image

open Reader

/-- The local variables of `wasm_interp_call_func_bytecode`; a pointer is an address, NULL is 0. `cacheItems` is not here: it is made
again from `execEnv` and `cacheIndex`. -/
structure Locals where
  module : UInt64
  execEnv : UInt64
  curFunc : UInt64
  prevFrame : UInt64
  memory : UInt64
  numBytesPerPage : UInt32
  globalData : UInt64
  linearMemSize : UInt32
  wasmTypes : UInt64
  globals : UInt64
  global : UInt64
  opcodeIMPDEP : UInt8
  frame : UInt64
  frameIp : UInt64
  frameLp : UInt64
  frameSp : UInt64
  frameCsp : UInt64
  frameIpEnd : UInt64
  opcode : UInt8
  i : UInt32
  depth : UInt32
  cond : UInt32
  count : UInt32
  fidx : UInt32
  tidx : UInt32
  lidx : UInt32
  frameSize : UInt32
  allCellNum : UInt64
  val : UInt32
  elseAddr : UInt64
  endAddr : UInt64
  maddr : UInt64
  localIdx : UInt32
  localOffset : UInt32
  globalIdx : UInt32
  localType : UInt8
  globalAddr : UInt64
  cacheIndex : UInt32
  typeIndex : UInt32
  cellNum : UInt32
  valueType : UInt8

/-- The fields of the objects of a process that the two branches read, by the address of the object. -/
structure Objects where
  /-- `wasm_get_func_code` of a function instance. -/
  code : UInt64 → UInt64
  /-- `wasm_get_func_code_end` of a function instance. -/
  codeEnd : UInt64 → UInt64
  /-- `lp` of a frame. -/
  lp : UInt64 → UInt64
  /-- `sp_bottom` of a frame. -/
  spBottom : UInt64 → UInt64
  /-- `csp_bottom` of a frame. -/
  cspBottom : UInt64 → UInt64
  /-- `memory_data` of a memory instance. -/
  memoryData : UInt64 → UInt64

/-- `DUMP_PTR`. -/
def dumpPtr (base : Nat) (p : UInt64) : UInt32 := if p = 0 then 0xFFFFFFFF else absOf base p.toNat

/-- The difference of two pointers to elements of `size` bytes. -/
def ptrDiff (size : Int) (p q : UInt64) : UInt64 := UInt64.ofInt ((p - q).toInt64.toInt.tdiv size)

/-- The distance of a pointer from the start of its array, -1 for NULL. -/
def dumpDist (size : Int) (p start : UInt64) : UInt64 := if p = 0 then 0xFFFFFFFFFFFFFFFF else ptrDiff size p start

/-- The pieces of `interp.img`, in the order in which they are written. -/
def interpPieces (base : Nat) (O : Objects) (v : Locals) : List (List UInt8) :=
  [put32 (dumpPtr base v.module), put32 (dumpPtr base v.execEnv), put32 (dumpPtr base v.curFunc), put32 (dumpPtr base v.prevFrame),
    put32 (dumpPtr base v.memory), put32 v.numBytesPerPage, put32 (dumpPtr base v.globalData), put32 v.linearMemSize,
    put32 (dumpPtr base v.wasmTypes), put32 (dumpPtr base v.globals), put32 (dumpPtr base v.global), put8 v.opcodeIMPDEP,
    put32 (dumpPtr base v.frame), put64 (dumpDist 1 v.frameIp (O.code v.curFunc)),
    -- `frame_sp` is a `uint32 *`, and a `WASMBranchBlock` has 32 bytes
    put64 (dumpDist 4 v.frameSp (O.spBottom v.frame)), put64 (dumpDist 32 v.frameCsp (O.cspBottom v.frame)),
    put8 v.opcode, put32 v.i, put32 v.depth, put32 v.cond, put32 v.count, put32 v.fidx, put32 v.tidx, put32 v.lidx,
    put32 v.frameSize, put64 v.allCellNum, put32 v.val, put64 (dumpDist 1 v.elseAddr (O.code v.curFunc)),
    put64 (dumpDist 1 v.endAddr (O.code v.curFunc)), put64 (dumpDist 1 v.maddr (O.memoryData v.memory)),
    put32 v.localIdx, put32 v.localOffset, put32 v.globalIdx, put8 v.localType, put64 (v.globalAddr - v.globalData),
    put32 v.cacheIndex, put32 v.typeIndex, put32 v.cellNum, put8 v.valueType]

/-- The branch that `sig_flag` enters. `SYNC_ALL_TO_FRAME` writes to the frame, also when there is none yet. -/
def dumpInterp (base : Nat) (O : Objects) (v : Locals) : Except Fault (List UInt8) :=
  if v.frame = 0 ∨ v.curFunc = 0 ∨ v.maddr ≠ 0 ∧ v.memory = 0 then .error .invalid
  else .ok (interpPieces base O v).flatten

/-- `RESTORE_PTR`: the address of what an offset is found to be. -/
def restorePtr (find : UInt32 → Except Fault (Option PoolInfo)) : Reader UInt64 := do
  let pAbs ← u32
  let info ← ofExcept (find pAbs)
  return match info with
    | none => 0
    | some n => UInt64.ofNat n.pRaw

/-- The pointer at a distance from the start of its array; `owner` is the object that has the start as a field. -/
def restoreDist (size : UInt64) (owner start : UInt64) : Reader UInt64 := do
  let dist ← u64
  if dist = 0xFFFFFFFFFFFFFFFF then return 0
  else if owner = 0 then fail .invalid
  else return dist * size + start

/-- The branch that `migr_flag` enters. `unset` is what `global_addr` holds: nothing assigns it. -/
def restoreInterp (R : Registry) (O : Objects) (unset : UInt64) : Reader Locals := do
  let module ← restorePtr (getInfo R.rootInfo)
  let execEnv ← restorePtr (getInfo R.rootInfo)
  let curFunc ← restorePtr (getInfo R.rootInfo)
  let prevFrame ← restorePtr (getFrameInfo R.rootFrame)
  let memory ← restorePtr (getInfo R.rootInfo)
  let numBytesPerPage ← u32
  let globalData ← restorePtr (getInfo R.rootInfo)
  let linearMemSize ← u32
  let wasmTypes ← restorePtr (getInfo R.rootInfo)
  let globals ← restorePtr (getInfo R.rootInfo)
  let global ← restorePtr (getInfo R.rootInfo)
  let opcodeIMPDEP ← u8
  let frame ← restorePtr (getFrameInfo R.rootFrame)
  let frameIp ← restoreDist 1 curFunc (O.code curFunc)
  let frameSp ← restoreDist 4 frame (O.spBottom frame)
  let frameCsp ← restoreDist 32 frame (O.cspBottom frame)
  -- `wasm_get_func_code_end` reads the function instance
  let frameIpEnd ← if curFunc = 0 then fail .invalid else pure (O.codeEnd curFunc)
  let opcode ← u8
  let i ← u32
  let depth ← u32
  let cond ← u32
  let count ← u32
  let fidx ← u32
  let tidx ← u32
  let lidx ← u32
  let frameSize ← u32
  let allCellNum ← u64
  let val ← u32
  let elseAddr ← restoreDist 1 curFunc (O.code curFunc)
  let endAddr ← restoreDist 1 curFunc (O.code curFunc)
  let maddr ← restoreDist 1 memory (O.memoryData memory)
  let localIdx ← u32
  let localOffset ← u32
  let globalIdx ← u32
  let localType ← u8
  let globalDist ← u64
  let cacheIndex ← u32
  let typeIndex ← u32
  let cellNum ← u32
  let valueType ← u8
  return {
    module, execEnv, curFunc, prevFrame, memory, numBytesPerPage
    -- line 1162 sets `global_data` where `global_addr` is meant
    globalData := globalDist + globalData
    linearMemSize, wasmTypes, globals, global, opcodeIMPDEP, frame, frameIp
    frameLp := O.lp frame
    frameSp, frameCsp, frameIpEnd, opcode, i, depth, cond, count, fidx, tidx, lidx, frameSize, allCellNum, val, elseAddr, endAddr
    maddr, localIdx, localOffset, globalIdx, localType
    globalAddr := unset
    cacheIndex, typeIndex, cellNum, valueType }

/-! ## What is meant to survive -/

/-- Where a pointer points after the objects have moved. -/
def relocated (moved : UInt64 → UInt64) (p : UInt64) : UInt64 := if p = 0 then 0 else moved p

/-- A pointer that is NULL, or whose offset is found to be the copy of its object. -/
def Found (find : UInt32 → Except Fault (Option PoolInfo)) (base : Nat) (moved : UInt64 → UInt64) (p : UInt64) : Prop :=
  p ≠ 0 → moved p ≠ 0 ∧ ∃ n, find (absOf base p.toNat) = .ok (some n) ∧ UInt64.ofNat n.pRaw = moved p

/-- What holds of the variables at a checkpoint, once a frame has been entered or before: the pointers to objects are NULL or point to
objects that the restoring process finds; `frame_ip`, `frame_sp` and `frame_csp` point into their arrays. Nothing is said of
`global`, `global_addr` and the other variables that no instruction may have assigned yet. -/
structure AtCheckpoint (base : Nat) (O : Objects) (R : Registry) (moved : UInt64 → UInt64) (v : Locals) : Prop where
  objects : ∀ p ∈ [v.module, v.execEnv, v.curFunc, v.memory, v.globalData, v.wasmTypes, v.globals], Found (getInfo R.rootInfo) base moved p
  frames : ∀ p ∈ [v.prevFrame, v.frame], Found (getFrameInfo R.rootFrame) base moved p
  curFunc : v.curFunc ≠ 0
  ip : v.frame ≠ 0 → v.frameIp ≠ 0 ∧ ∃ k : Nat, k < 2 ^ 32 ∧ v.frameIp - O.code v.curFunc = .ofNat k
  sp : v.frame ≠ 0 → v.frameSp ≠ 0 ∧ ∃ k : Nat, k < 2 ^ 32 ∧ v.frameSp - O.spBottom v.frame = .ofNat (4 * k)
  csp : v.frame ≠ 0 → v.frameCsp ≠ 0 ∧ ∃ k : Nat, k < 2 ^ 32 ∧ v.frameCsp - O.cspBottom v.frame = .ofNat (32 * k)
  maddr : v.maddr ≠ 0 → v.memory ≠ 0

/-- The variables that the next instructions rely on are what they were, up to the move of the objects. -/
structure Survives (O O' : Objects) (moved : UInt64 → UInt64) (v v' : Locals) : Prop where
  module : v'.module = relocated moved v.module
  execEnv : v'.execEnv = relocated moved v.execEnv
  curFunc : v'.curFunc = relocated moved v.curFunc
  prevFrame : v'.prevFrame = relocated moved v.prevFrame
  frame : v'.frame = relocated moved v.frame
  memory : v'.memory = relocated moved v.memory
  globalData : v'.globalData = relocated moved v.globalData
  wasmTypes : v'.wasmTypes = relocated moved v.wasmTypes
  globals : v'.globals = relocated moved v.globals
  frameIp : v'.frameIp - O'.code v'.curFunc = v.frameIp - O.code v.curFunc
  frameSp : v'.frameSp - O'.spBottom v'.frame = v.frameSp - O.spBottom v.frame
  frameCsp : v'.frameCsp - O'.cspBottom v'.frame = v.frameCsp - O.cspBottom v.frame
  globalAddr : v'.globalAddr - v'.globalData = v.globalAddr - v.globalData
  opcode : v'.opcode = v.opcode
  numBytesPerPage : v'.numBytesPerPage = v.numBytesPerPage
  linearMemSize : v'.linearMemSize = v.linearMemSize

/-- The checkpoint is written, the restoring process reads it to its end, and what matters survives. -/
def InterpRoundTrip (base : Nat) (O O' : Objects) (R : Registry) (moved : UInt64 → UInt64) (unset : UInt64) (v : Locals) : Prop :=
  ∃ bs v', dumpInterp base O v = .ok bs ∧ (restoreInterp R O' unset).run bs = .ok (v', []) ∧ Survives O O' moved v v'

/-! ## One pointer, one distance -/

section Pieces
variable {find : UInt32 → Except Fault (Option PoolInfo)} {base : Nat} {moved : UInt64 → UInt64} {p owner start : UInt64}

/-- What `RESTORE_PTR` makes of an offset. -/
def address (find : UInt32 → Except Fault (Option PoolInfo)) (pAbs : UInt32) : Except Fault UInt64 :=
  (find pAbs).map fun
    | none => 0
    | some n => UInt64.ofNat n.pRaw

theorem reads_restorePtr {pAbs : UInt32} {a : UInt64} (h : address find pAbs = .ok a) : Reads (restorePtr find) (put32 pAbs) a := by
  unfold address at h
  cases hf : find pAbs with
  | error e =>
    rw [hf] at h
    cases h
  | ok info =>
    rw [hf] at h
    cases h
    have hr : Reads (restorePtr find) (put32 pAbs ++ []) _ := (reads_u32 pAbs).bind (reads_ofExcept hf).bind_pure
    rwa [List.append_nil] at hr

theorem restorePtr_error {pAbs : UInt32} {e : Fault} {rest : List UInt8} (h : address find pAbs = .error e) :
    (restorePtr find).run (put32 pAbs ++ rest) = .error e := by
  unfold address at h
  cases hf : find pAbs with
  | ok info =>
    rw [hf] at h
    cases h
  | error e' =>
    rw [hf] at h
    cases h
    refine (run_bind_ok (reads_u32 pAbs rest)).trans (run_bind_error ?_)
    rw [hf]
    rfl

/-- A pointer to an object comes back as the pointer to its copy. -/
theorem reads_found (hnull : find 0xFFFFFFFF = .ok none) (h : Found find base moved p) :
    Reads (restorePtr find) (put32 (dumpPtr base p)) (relocated moved p) := by
  apply reads_restorePtr
  rw [dumpPtr, relocated]
  split
  · rw [address, hnull]
    rfl
  next hp =>
  obtain ⟨-, n, hf, hn⟩ := h hp
  rw [address, hf, ← hn]
  rfl

theorem reads_restoreDist {size dist : UInt64} (h : dist ≠ 0xFFFFFFFFFFFFFFFF → owner ≠ 0) :
    Reads (restoreDist size owner start) (put64 dist) (if dist = 0xFFFFFFFFFFFFFFFF then 0 else dist * size + start) := by
  have hr : Reads (restoreDist size owner start) (put64 dist ++ []) (if dist = 0xFFFFFFFFFFFFFFFF then 0 else dist * size + start) := by
    refine (reads_u64 dist).bind ?_
    split
    · exact reads_pure 0
    · next hd =>
      rw [if_neg (h hd)]
      exact reads_pure _
  rwa [List.append_nil] at hr

theorem ptrDiff_of_sub {size k : Nat} {q : UInt64} (hs : 0 < size) (hs' : size ≤ 32) (hk : k < 2 ^ 32)
    (h : p - q = UInt64.ofNat (size * k)) : ptrDiff size p q = UInt64.ofNat k := by
  have hlt : size * k < 2 ^ 63 := lt_of_le_of_lt (Nat.mul_le_mul hs' hk.le) (by decide)
  have hint : (UInt64.ofNat (size * k)).toInt64.toInt = ((size * k : Nat) : Int) := by
    rw [UInt64.toInt64_ofNat']
    exact Int64.toInt_ofNat_of_lt hlt
  have hmod : ((k : Int) % 2 ^ 64).toNat = k := by omega
  rw [ptrDiff, h, hint]
  push_cast
  rw [Int.mul_tdiv_cancel_left _ (by omega), UInt64.ofInt, hmod]

/-- A pointer into an array comes back at its distance from the start. -/
theorem restored_dist (size : Nat) {k : Nat} {q : UInt64} (hs : 0 < size) (hs' : size ≤ 32) (hp : p ≠ 0) (hk : k < 2 ^ 32)
    (h : p - q = UInt64.ofNat (size * k)) :
    (if dumpDist size p q = 0xFFFFFFFFFFFFFFFF then 0 else dumpDist size p q * UInt64.ofNat size + start) - start = p - q := by
  have hd : dumpDist size p q = UInt64.ofNat k := by rw [dumpDist, if_neg hp, ptrDiff_of_sub hs hs' hk h]
  rw [hd, if_neg (ofNat_ne_max hk), h, UInt64.add_sub_cancel, Nat.mul_comm, UInt64.ofNat_mul]

theorem relocated_ne_zero (h : Found find base moved p) (hp : p ≠ 0) : relocated moved p ≠ 0 := by
  rw [relocated, if_neg hp]
  exact (h hp).1

end Pieces

/-! ## The whole file -/

section Whole
variable {base : Nat} {O O' : Objects} {R : Registry} {moved : UInt64 → UInt64} {unset : UInt64} {v : Locals}

/-- The variables as they are read back, where `global` has become `g`. -/
def readBack (O O' : Objects) (moved : UInt64 → UInt64) (unset g : UInt64) (v : Locals) : Locals :=
  let curFunc := relocated moved v.curFunc
  let memory := relocated moved v.memory
  let frame := relocated moved v.frame
  let back := fun (size dist start : UInt64) => if dist = 0xFFFFFFFFFFFFFFFF then 0 else dist * size + start
  { v with
    module := relocated moved v.module
    execEnv := relocated moved v.execEnv
    curFunc
    prevFrame := relocated moved v.prevFrame
    memory
    globalData := v.globalAddr - v.globalData + relocated moved v.globalData
    wasmTypes := relocated moved v.wasmTypes
    globals := relocated moved v.globals
    global := g
    frame
    frameIp := back 1 (dumpDist 1 v.frameIp (O.code v.curFunc)) (O'.code curFunc)
    frameLp := O'.lp frame
    frameSp := back 4 (dumpDist 4 v.frameSp (O.spBottom v.frame)) (O'.spBottom frame)
    frameCsp := back 32 (dumpDist 32 v.frameCsp (O.cspBottom v.frame)) (O'.cspBottom frame)
    frameIpEnd := O'.codeEnd curFunc
    elseAddr := back 1 (dumpDist 1 v.elseAddr (O.code v.curFunc)) (O'.code curFunc)
    endAddr := back 1 (dumpDist 1 v.endAddr (O.code v.curFunc)) (O'.code curFunc)
    maddr := back 1 (dumpDist 1 v.maddr (O.memoryData v.memory)) (O'.memoryData memory)
    globalAddr := unset }

section
variable (h : AtCheckpoint base O R moved v) (hf : v.frame ≠ 0)
include h hf

/-- The file is read to its end, but for what happens to `global`. -/
theorem run_restoreInterp : (restoreInterp R O' unset).run (interpPieces base O v).flatten =
      (address (getInfo R.rootInfo) (dumpPtr base v.global)).map fun g => (readBack O O' moved unset g v, []) := by
  have hobj : ∀ p ∈ [v.module, v.execEnv, v.curFunc, v.memory, v.globalData, v.wasmTypes, v.globals],
      Reads (restorePtr (getInfo R.rootInfo)) (put32 (dumpPtr base p)) (relocated moved p) :=
    fun p hp => reads_found (getInfo_null _) (h.objects p hp)
  have hfr : ∀ p ∈ [v.prevFrame, v.frame],
      Reads (restorePtr (getFrameInfo R.rootFrame)) (put32 (dumpPtr base p)) (relocated moved p) :=
    fun p hp => reads_found (getFrameInfo_null _) (h.frames p hp)
  have hcur : relocated moved v.curFunc ≠ 0 := relocated_ne_zero (h.objects _ (by simp)) h.curFunc
  have hframe : relocated moved v.frame ≠ 0 := relocated_ne_zero (h.frames _ (by simp)) hf
  have hmem : dumpDist 1 v.maddr (O.memoryData v.memory) ≠ 0xFFFFFFFFFFFFFFFF → relocated moved v.memory ≠ 0 := by
    intro hd
    refine relocated_ne_zero (h.objects _ (by simp)) (h.maddr fun hm => hd ?_)
    rw [dumpDist, if_pos hm]
  rw [restoreInterp, interpPieces, (hobj v.module (by simp)).run_piece, (hobj v.execEnv (by simp)).run_piece,
    (hobj v.curFunc (by simp)).run_piece, (hfr v.prevFrame (by simp)).run_piece, (hobj v.memory (by simp)).run_piece,
    (reads_u32 _).run_piece, (hobj v.globalData (by simp)).run_piece, (reads_u32 _).run_piece,
    (hobj v.wasmTypes (by simp)).run_piece, (hobj v.globals (by simp)).run_piece]
  cases hg : address (getInfo R.rootInfo) (dumpPtr base v.global) with
  | error e => exact run_bind_error (restorePtr_error hg)
  | ok g =>
    rw [(reads_restorePtr hg).run_piece, (reads_u8 _).run_piece, (hfr v.frame (by simp)).run_piece,
      (reads_restoreDist fun _ => hcur).run_piece, (reads_restoreDist fun _ => hframe).run_piece,
      (reads_restoreDist fun _ => hframe).run_piece, if_neg hcur, run_bind_ok rfl, (reads_u8 _).run_piece, (reads_u32 _).run_piece,
      (reads_u32 _).run_piece, (reads_u32 _).run_piece, (reads_u32 _).run_piece, (reads_u32 _).run_piece, (reads_u32 _).run_piece,
      (reads_u32 _).run_piece, (reads_u32 _).run_piece, (reads_u64 _).run_piece, (reads_u32 _).run_piece,
      (reads_restoreDist fun _ => hcur).run_piece, (reads_restoreDist fun _ => hcur).run_piece, (reads_restoreDist hmem).run_piece,
      (reads_u32 _).run_piece, (reads_u32 _).run_piece, (reads_u32 _).run_piece, (reads_u8 _).run_piece, (reads_u64 _).run_piece,
      (reads_u32 _).run_piece, (reads_u32 _).run_piece, (reads_u32 _).run_piece, (reads_u8 _).run_piece]
    rfl

theorem survives_readBack {g : UInt64} :
    Survives O O' moved v (readBack O O' moved unset g v) ↔ v.globalAddr = v.globalData ∧ unset = relocated moved v.globalData := by
  obtain ⟨hip, k, hk, hd⟩ := h.ip hf
  obtain ⟨hsp, m, hm, hs⟩ := h.sp hf
  obtain ⟨hcsp, n, hn, hc⟩ := h.csp hf
  constructor
  · intro hsurv
    have hdata : v.globalAddr - v.globalData + relocated moved v.globalData = relocated moved v.globalData := hsurv.globalData
    have haddr : unset - (v.globalAddr - v.globalData + relocated moved v.globalData) = v.globalAddr - v.globalData := hsurv.globalAddr
    have hzero : v.globalAddr - v.globalData = 0 := by rwa [UInt64.add_eq_right] at hdata
    rw [hzero, UInt64.zero_add] at haddr
    rw [UInt64.sub_eq_iff_eq_add, UInt64.zero_add] at hzero
    rw [UInt64.sub_eq_iff_eq_add, UInt64.zero_add] at haddr
    exact ⟨hzero, haddr⟩
  rintro ⟨hga, hun⟩
  have hzero : v.globalAddr - v.globalData = 0 := by rw [hga, UInt64.sub_self]
  have hdata : v.globalAddr - v.globalData + relocated moved v.globalData = relocated moved v.globalData := by
    rw [hzero, UInt64.zero_add]
  have haddr : unset - (v.globalAddr - v.globalData + relocated moved v.globalData) = v.globalAddr - v.globalData := by
    rw [hdata, hzero, hun, UInt64.sub_self]
  rw [← Nat.one_mul k] at hd
  exact ⟨rfl, rfl, rfl, rfl, rfl, rfl, hdata, rfl, rfl, restored_dist 1 (by decide) (by decide) hip hk hd,
    restored_dist 4 (by decide) (by decide) hsp hm hs, restored_dist 32 (by decide) (by decide) hcsp hn hc, haddr, rfl, rfl, rfl⟩

theorem dumpInterp_ok : dumpInterp base O v = .ok (interpPieces base O v).flatten := by
  rw [dumpInterp, if_neg]
  rintro (hz | hz | ⟨hm, hz⟩)
  · exact hf hz
  · exact h.curFunc hz
  · exact h.maddr hm hz

end

theorem frame_of_roundTrip (h : InterpRoundTrip base O O' R moved unset v) : v.frame ≠ 0 := by
  rintro hf
  obtain ⟨bs, v', hbs, -⟩ := h
  rw [dumpInterp, if_pos (.inl hf)] at hbs
  cases hbs

theorem global_of_roundTrip (h : AtCheckpoint base O R moved v) (hr : InterpRoundTrip base O O' R moved unset v) :
    (∃ n, getInfo R.rootInfo (dumpPtr base v.global) = .ok n) ∧ v.globalAddr = v.globalData ∧ unset = relocated moved v.globalData := by
  have hf := frame_of_roundTrip hr
  obtain ⟨bs, v', hbs, hrun, hsurv⟩ := hr
  rw [dumpInterp_ok h hf] at hbs
  cases hbs
  rw [run_restoreInterp h hf, address] at hrun
  cases hg : getInfo R.rootInfo (dumpPtr base v.global) with
  | error e =>
    rw [hg] at hrun
    cases hrun
  | ok n =>
    rw [hg] at hrun
    cases hrun
    exact ⟨⟨n, rfl⟩, (survives_readBack h hf).1 hsurv⟩

/-- `interp.img` is read back, and what the next instructions rely on survives, exactly when a frame had been entered, `global` is
NULL or found, `global_addr` was at the start of the global data, and the `global_addr` that the restoring call never assigns
happens to be at the start of the new global data. -/
theorem interpImage_roundTrip_iff (h : AtCheckpoint base O R moved v) :
    InterpRoundTrip base O O' R moved unset v ↔
      v.frame ≠ 0 ∧ (∃ n, getInfo R.rootInfo (dumpPtr base v.global) = .ok n) ∧ v.globalAddr = v.globalData ∧
        unset = relocated moved v.globalData := by
  refine ⟨fun hr => ⟨frame_of_roundTrip hr, global_of_roundTrip h hr⟩, ?_⟩
  rintro ⟨hf, ⟨n, hn⟩, hsurv⟩
  obtain ⟨g, hg⟩ : ∃ g, address (getInfo R.rootInfo) (dumpPtr base v.global) = .ok g := by
    rw [address, hn]
    exact ⟨_, rfl⟩
  refine ⟨_, readBack O O' moved unset g v, dumpInterp_ok h hf, ?_, (survives_readBack h hf).2 hsurv⟩
  rw [run_restoreInterp h hf, hg]
  rfl

end Whole

/-! ## A checkpoint -/

/-- A restoring process with the copies of a module instance, an execution environment, a function instance and global data. -/
def movedObjects : Registry :=
  ⟨8192, [⟨16, 8208, 1, .wasmModuleInstanceT, [], 0⟩, ⟨32, 8224, 1, .wasmExecEnvT, [], 0⟩, ⟨48, 8240, 1, .wasmFunctionInstanceT, [], 0⟩,
    ⟨64, 8256, 8, .uint8T, [], 8⟩], [⟨96, 8288, 1, .wasmInterpFrameT, [], 0⟩]⟩

/-- The same layout in both processes: the code of the function, and the stacks of the frame behind it. -/
def fixedObjects : Objects := ⟨fun _ => 20000, fun _ => 20100, (· + 64), (· + 80), (· + 160), fun _ => 0⟩

/-- A checkpoint in the first function called, after an access to the global at the start of the global data. -/
def firstCheckpoint : Locals where
  module := 4112
  execEnv := 4128
  curFunc := 4144
  prevFrame := 0
  memory := 0
  numBytesPerPage := 0
  globalData := 4160
  linearMemSize := 0
  wasmTypes := 0
  globals := 0
  global := 0
  opcodeIMPDEP := 0xFF
  frame := 4192
  frameIp := 20001
  frameLp := 4256
  frameSp := 4276
  frameCsp := 4384
  frameIpEnd := 20100
  opcode := 0x23
  i := 0
  depth := 0
  cond := 0
  count := 0
  fidx := 0
  tidx := 0
  lidx := 0
  frameSize := 0
  allCellNum := 0
  val := 0
  elseAddr := 0
  endAddr := 0
  maddr := 0
  localIdx := 0
  localOffset := 0
  globalIdx := 0
  localType := 0
  globalAddr := 4160
  cacheIndex := 0
  typeIndex := 0
  cellNum := 0
  valueType := 0

theorem firstCheckpoint_at : AtCheckpoint 4096 fixedObjects movedObjects (· + 4096) firstCheckpoint where
  objects := by
    intro p hp
    simp only [List.mem_cons, List.not_mem_nil, or_false] at hp
    rcases hp with rfl | rfl | rfl | rfl | rfl | rfl | rfl
    · exact fun _ => ⟨by decide, ⟨16, 8208, 1, .wasmModuleInstanceT, [], 0⟩, by rfl, by decide⟩
    · exact fun _ => ⟨by decide, ⟨32, 8224, 1, .wasmExecEnvT, [], 0⟩, by rfl, by decide⟩
    · exact fun _ => ⟨by decide, ⟨48, 8240, 1, .wasmFunctionInstanceT, [], 0⟩, by rfl, by decide⟩
    · exact fun h => absurd rfl h
    · exact fun _ => ⟨by decide, ⟨64, 8256, 8, .uint8T, [], 8⟩, by rfl, by decide⟩
    · exact fun h => absurd rfl h
    · exact fun h => absurd rfl h
  frames := by
    intro p hp
    simp only [List.mem_cons, List.not_mem_nil, or_false] at hp
    rcases hp with rfl | rfl
    · exact fun h => absurd rfl h
    · exact fun _ => ⟨by decide, ⟨96, 8288, 1, .wasmInterpFrameT, [], 0⟩, by rfl, by decide⟩
  curFunc := by decide
  ip := fun _ => ⟨by decide, 1, by decide, by decide⟩
  sp := fun _ => ⟨by decide, 1, by decide, by decide⟩
  csp := fun _ => ⟨by decide, 1, by decide, by decide⟩
  maddr := fun h => absurd rfl h

theorem interpImage_first : InterpRoundTrip 4096 fixedObjects fixedObjects movedObjects (· + 4096) 8256 firstCheckpoint :=
  (interpImage_roundTrip_iff firstCheckpoint_at).2 ⟨by decide, ⟨none, rfl⟩, rfl, by decide⟩

/-- After an access to the global at offset 4, `global_data` itself comes back 4 bytes off, even where the variable `global_addr`
happens to hold the right address. -/
theorem global_access_breaks :
    AtCheckpoint 4096 fixedObjects movedObjects (· + 4096) { firstCheckpoint with globalAddr := 4164 } ∧
      ¬InterpRoundTrip 4096 fixedObjects fixedObjects movedObjects (· + 4096) 8260 { firstCheckpoint with globalAddr := 4164 } := by
  have hc := firstCheckpoint_at
  have hat : AtCheckpoint 4096 fixedObjects movedObjects (· + 4096) { firstCheckpoint with globalAddr := 4164 } :=
    ⟨hc.objects, hc.frames, hc.curFunc, hc.ip, hc.sp, hc.csp, hc.maddr⟩
  exact ⟨hat, fun hr => absurd (global_of_roundTrip hat hr).2.1 (by decide)⟩

end WamrMigrate.Image
