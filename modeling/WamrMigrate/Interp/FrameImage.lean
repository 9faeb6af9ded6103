import WamrMigrate.Image.Resolve
import WamrMigrate.Interp.Mirror

/-!
# `frame.img`

`dump_WASMInterpFrame` writes a record for each frame of the registry, and `restore_frame_internal` takes the frames again from the new wasm stack,
in the order of their offsets, and reads the records back. The frame of a host call has no function and its record ends there, so that `ip` and `sp`
are never set; the record of a native function is made from fields that a native call does not set. The frames of wasm functions come back as they
were (`frameImage_roundTrip_iff`).
-/

namespace WamrMigrate.Interp

open Image Reader

/-- `WASMBranchBlock`. -/
structure BranchBlock where
  beginAddr : Nat
  targetAddr : Nat
  frameSp : Nat
  cellNum : UInt32
  deriving DecidableEq

/-- `WASMInterpFrame`: an address is 0 for NULL, a field is `none` as long as nothing has been stored in it. `lp` are the cells from
`lp` on, `blocks` the control blocks from `csp_bottom` on. -/
structure InterpFrame where
  prevFrame : Nat
  function : Nat
  ip : Option Nat
  spBottom : Option Nat
  spBoundary : Option Nat
  sp : Option Nat
  cspBottom : Option Nat
  cspBoundary : Option Nat
  csp : Option Nat
  lp : Nat → UInt32
  blocks : Nat → BranchBlock

/-- A `WASMFunctionInstance` with the address of its code. -/
structure FuncInst extends Func where
  code : Nat

/-- `wasm_get_func_code`. -/
def FuncInst.getCode (g : FuncInst) : Nat := if g.isImportFunc then 0 else g.code

/-- The address of `lp` of a frame. -/
def lpOf (frame : Nat) : Nat := frame + 72

/-! ## Writing -/

/-- `DUMP_FRAME_PTR`. -/
def dumpFramePtr (base p : Nat) : UInt32 := if p = 0 then 0xFFFFFFFF else absOf base p

/-- The difference of two pointers to elements of `size` bytes. -/
def diff (size : Int) (p start : Nat) : UInt64 := UInt64.ofInt (((p : Int) - start).tdiv size)

/-- The distance of a pointer from the start of its array, -1 for NULL. -/
def dumpDist (size : Int) (p start : Nat) : UInt64 := if p = 0 then 0xFFFFFFFFFFFFFFFF else diff size p start

def dumpBlock (code spBottom : Nat) (b : BranchBlock) : List UInt8 :=
  put64 (dumpDist 1 b.beginAddr code) ++ (put64 (dumpDist 1 b.targetAddr code) ++
    (put64 (dumpDist 4 b.frameSp spBottom) ++ put32 b.cellNum))

/-- The `n` cells from index `i` on. -/
def cellsFrom (f : InterpFrame) (i n : Nat) : List UInt32 := (List.range n).map fun k => f.lp (i + k)

/-- What `dump_WASMInterpFrame` writes after the header of the record. It stops at a field that was never set. -/
def dumpWASMInterpFrame (base : Nat) (funcs : Nat → FuncInst) (frame : Nat) (f : InterpFrame) : Except Fault (List UInt8) :=
  if f.function = 0 then .ok (put32 (dumpFramePtr base f.function))
  else
    match f.ip, f.spBottom, f.sp, f.cspBottom, f.csp with
    | some ip, some spBottom, some sp, some cspBottom, some csp =>
      let g := funcs f.function
      let params := g.paramCellNum.toNat
      let bbNum := UInt32.ofNat (diff 32 csp cspBottom).toNat
      .ok (put32 (dumpFramePtr base f.function) ++ (put64 (diff 1 ip g.getCode) ++ (put64 (diff 4 sp spBottom) ++ (put32 bbNum ++
        (((List.range bbNum.toNat).map f.blocks).flatMap (dumpBlock g.getCode spBottom) ++ ((cellsFrom f 0 params).flatMap put32 ++
        ((cellsFrom f params g.localCellNum.toNat).flatMap put32 ++
        (cellsFrom f ((spBottom - lpOf frame) / 4) g.maxStackCellNum.toNat).flatMap put32)))))))
    | _, _, _, _, _ => .error .invalid

/-- `frame.img`: the records of the frames in the registry. -/
def dumpFrames (base : Nat) (funcs : Nat → FuncInst) (frames : Nat → InterpFrame) : List PoolInfo → Except Fault (List UInt8)
  | [] => .ok []
  | e :: es =>
    match dumpWASMInterpFrame base funcs e.pRaw (frames e.pRaw) with
    | .error f => .error f
    | .ok bs =>
      match dumpFrames base funcs frames es with
      | .error f => .error f
      | .ok bs' => .ok (put32 DataType.wasmInterpFrameT.code ++ (put32 e.size ++ (put32 e.pAbs ++ bs)) ++ bs')

/-! ## Reading -/

/-- A frame in memory that nothing has been stored in. -/
def blank : InterpFrame := ⟨0, 0, none, none, none, none, none, none, none, fun _ => 0, fun _ => ⟨0, 0, 0, 0⟩⟩

/-- A pointer at a distance from the start of its array. -/
def atDist (size : Nat) (d : UInt64) (start : Nat) : Nat := (d.toNat * size + start) % 2 ^ 64

/-- A pointer at a distance from the start of its array, NULL for -1. -/
def atDistOrNull (size : Nat) (d : UInt64) (start : Nat) : Nat := if d = 0xFFFFFFFFFFFFFFFF then 0 else atDist size d start

/-- `RESTORE_FRAME_PTR`. -/
def restoreFramePtr (root : List PoolInfo) : Reader Nat := do
  let pAbs ← u32
  let info ← ofExcept (getInfo root pAbs)
  return match info with
    | none => 0
    | some n => n.pRaw

def restoreBlock (code spBottom : Nat) : Reader BranchBlock := do
  let beginDist ← u64
  let targetDist ← u64
  let spDist ← u64
  let cellNum ← u32
  return ⟨atDistOrNull 1 beginDist code, atDistOrNull 1 targetDist code, atDistOrNull 4 spDist spBottom, cellNum⟩

/-- Store cells from index `i` on. -/
def storeCells (lp : Nat → UInt32) (i : Nat) (cells : List UInt32) : Nat → UInt32 := fun k =>
  if i ≤ k then cells.getD (k - i) (lp k) else lp k

/-- Store blocks from `csp_bottom` on. -/
def storeBlocks (blocks : Nat → BranchBlock) (bs : List BranchBlock) : Nat → BranchBlock := fun k => bs.getD k (blocks k)

/-- `restore_WASMInterpFrame`. -/
def restoreWASMInterpFrame (root : List PoolInfo) (funcs : Nat → FuncInst) (frame : Nat) (node : InterpFrame) : Reader InterpFrame := do
  let function ← restoreFramePtr root
  if function = 0 then return { node with function := 0 }
  else
    let g := funcs function
    let params := g.paramCellNum.toNat
    let ipDist ← u64
    let spBottom := lpOf frame + 4 * (params + g.localCellNum.toNat)
    let spBoundary := spBottom + 4 * g.maxStackCellNum.toNat
    let spDist ← u64
    let bbNum ← u32
    let bbs ← times (restoreBlock g.getCode spBottom) bbNum.toNat
    let paramCells ← times u32 params
    let localCells ← times u32 g.localCellNum.toNat
    let stackCells ← times u32 g.maxStackCellNum.toNat
    let lp := storeCells (storeCells node.lp 0 paramCells) params localCells
    return {
      prevFrame := node.prevFrame
      function := function
      ip := some (atDist 1 ipDist g.getCode)
      spBottom := some spBottom
      spBoundary := some spBoundary
      sp := some (atDist 4 spDist spBottom)
      cspBottom := some spBoundary
      cspBoundary := some (spBoundary + 32 * g.maxBlockNum.toNat)
      csp := some (spBoundary + 32 * bbNum.toNat)
      lp := storeCells lp (params + g.localCellNum.toNat) stackCells
      blocks := storeBlocks node.blocks bbs }

/-- The wasm stack of the restoring process while the frames are taken from it: `infos` are the entries seen so far. -/
structure Taken where
  top : Nat
  prev : Nat
  infos : List PoolInfo
  frames : Nat → InterpFrame

/-- A round of the loop of `restore_frame_internal` that takes the frames; a frame is NULL when the stack is full. -/
def Taken.take (topBoundary : Nat) (s : Taken) (e : PoolInfo) : Taken :=
  if topBoundary < s.top + e.size.toNat * 2 % 2 ^ 32 then { s with prev := 0, infos := s.infos ++ [{ e with pRaw := 0 }] }
  else
    { top := s.top + e.size.toNat
      prev := s.top
      infos := s.infos ++ [{ e with pRaw := s.top }]
      frames := Function.update s.frames s.top { s.frames s.top with prevFrame := s.prev } }

/-- A round of the loop that reads the records, after the type has been read. -/
def restoreRecord (root infos : List PoolInfo) (funcs : Nat → FuncInst) (frames : Nat → InterpFrame) (_type : UInt32) :
    Reader (Nat → InterpFrame) := do
  let _size ← u32
  let pAbs ← u32
  let info ← ofExcept (getFrameInfo infos pAbs)
  match info with
  | none => fail .invalid
  | some e =>
    if e.pRaw = 0 then fail .invalid
    else do
      let f ← restoreWASMInterpFrame root funcs e.pRaw (frames e.pRaw)
      return Function.update frames e.pRaw f

/-- `restore_frame_internal`, up to where it goes on to WASI: the current frame and the frames, from the file, the entries of
`root_frame` and the new wasm stack. -/
def restoreFrameInternal (root rootFrame : List PoolInfo) (funcs : Nat → FuncInst) (bottom topBoundary : Nat) (img : List UInt8) :
    Except Fault ((Nat × (Nat → InterpFrame)) × List UInt8) :=
  let s := rootFrame.foldl (Taken.take topBoundary) ⟨bottom, 0, [], fun _ => blank⟩
  ((whileWords (restoreRecord root s.infos funcs) (img.length + 1) s.frames).run img).map fun r => ((s.prev, r.1), r.2)

/-! ## What is meant to come back -/

/-- A pointer into an object that has moved. -/
def relocPtr (start start' p : Nat) : Nat := if p = 0 then 0 else p - start + start'

/-- A pointer into the code at distance less than the size of the code. -/
def IntoCode (code p : Nat) : Prop := ∃ d < 2 ^ 32, p = code + d

/-- The frame of a call from the host, as `wasm_interp_call_wasm` sets it. -/
structure EntryFrame (frame : Nat) (f : InterpFrame) : Prop where
  function : f.function = 0
  ip : f.ip = some 0
  sp : f.sp = some (lpOf frame)

/-- The frame of a native function, as `wasm_interp_call_func_native` sets it. -/
structure NativeFrame (funcs : Nat → FuncInst) (frame : Nat) (f : InterpFrame) : Prop where
  function : f.function ≠ 0
  isImportFunc : (funcs f.function).isImportFunc = true
  ip : f.ip = some 0
  sp : f.sp = some (lpOf frame + 8)
  spBottom : f.spBottom = none

/-- The cells of a function before its operand stack. -/
def Func.varCellNum (g : Func) : Nat := g.paramCellNum.toNat + g.localCellNum.toNat

/-- The frame of a wasm function, as `call_func_from_entry` and `SYNC_ALL_TO_FRAME` set it. -/
structure CodeFrame (funcs : Nat → FuncInst) (frame : Nat) (f : InterpFrame) (k n : Nat) : Prop where
  function : f.function ≠ 0
  isImportFunc : (funcs f.function).isImportFunc = false
  code : (funcs f.function).code ≠ 0
  ip : ∃ d < 2 ^ 32, f.ip = some ((funcs f.function).code + d)
  spBottom : f.spBottom = some (lpOf frame + 4 * (funcs f.function).varCellNum)
  spBoundary : f.spBoundary = some (lpOf frame + 4 * (funcs f.function).varCellNum + 4 * (funcs f.function).maxStackCellNum.toNat)
  sp : f.sp = some (lpOf frame + 4 * (funcs f.function).varCellNum + 4 * k)
  cspBottom : f.cspBottom = f.spBoundary
  csp : f.csp = f.spBoundary.map (· + 32 * n)
  operands : k < 2 ^ 32
  count : n < 2 ^ 32
  beginAddr : ∀ i < n, (f.blocks i).beginAddr ≠ 0 → IntoCode (funcs f.function).code (f.blocks i).beginAddr
  targetAddr : ∀ i < n, (f.blocks i).targetAddr ≠ 0 → IntoCode (funcs f.function).code (f.blocks i).targetAddr
  frameSp : ∀ i < n, (f.blocks i).frameSp ≠ 0 → ∃ j < 2 ^ 32, (f.blocks i).frameSp = lpOf frame + 4 * (funcs f.function).varCellNum + 4 * j

/-- The frame is that of a wasm function. -/
def IsCodeFrame (funcs : Nat → FuncInst) (frame : Nat) (f : InterpFrame) : Prop := ∃ k n, CodeFrame funcs frame f k n

def relocBlock (code code' frame frame' : Nat) (b : BranchBlock) : BranchBlock :=
  ⟨relocPtr code code' b.beginAddr, relocPtr code code' b.targetAddr, relocPtr frame frame' b.frameSp, b.cellNum⟩

/-- The frame `f'` at `frame'` is what `f` at `frame` was. -/
structure Back (funcs funcs' : Nat → FuncInst) (moved : Nat → Nat) (frame frame' : Nat) (f f' : InterpFrame) : Prop where
  function : f'.function = if f.function = 0 then 0 else moved f.function
  ip : f'.ip = f.ip.map (relocPtr (funcs f.function).getCode (funcs' f'.function).getCode)
  sp : f'.sp = f.sp.map (relocPtr frame frame')
  spBottom : f'.spBottom = f.spBottom.map (relocPtr frame frame')
  spBoundary : f'.spBoundary = f.spBoundary.map (relocPtr frame frame')
  cspBottom : f'.cspBottom = f.cspBottom.map (relocPtr frame frame')
  csp : f'.csp = f.csp.map (relocPtr frame frame')
  cells : f.function ≠ 0 → ∀ i < (funcs f.function).varCellNum + (funcs f.function).maxStackCellNum.toNat, f'.lp i = f.lp i
  blocks : ∀ bottom top, f.cspBottom = some bottom → f.csp = some top → ∀ i < (top - bottom) / 32,
    f'.blocks i = relocBlock (funcs f.function).getCode (funcs' f'.function).getCode frame frame' (f.blocks i)

/-- The chain of `prev_frame` from a frame. -/
def Chained (frames : Nat → InterpFrame) : Nat → List Nat → Prop
  | a, [] => a = 0
  | a, b :: bs => a = b ∧ b ≠ 0 ∧ Chained frames (frames b).prevFrame bs

/-- `root_frame` as `restore_runtime` builds it from the entries that `dump_runtime` wrote. -/
def rootFrameOf (es : List PoolInfo) : List PoolInfo := es.foldl (fun fs e => insertFrame ⟨e.pAbs, 0, e.size, e.type, [], 0⟩ fs) []

/-- The frames `cs` of a machine are live, each of one of the three kinds. The pool is smaller than 2 GiB and the size of the stack is
a `uint32`. -/
structure LiveFrames (m : Machine) (cs : List Nat) (funcs : Nat → FuncInst) (frames : Nat → InterpFrame) : Prop extends Stack m cs where
  entries : frameEntries m.registry = cs.map fun a => frameEntry m.registry.pool a (m.frames a).size
  pool : ∀ a ∈ cs, m.registry.pool ≤ a ∧ a < m.registry.pool + 2 ^ 31
  stackSize : m.topBoundary < m.bottom + 2 ^ 32
  kinds : ∀ a ∈ cs, EntryFrame a (frames a) ∨ NativeFrame funcs a (frames a) ∨ IsCodeFrame funcs a (frames a)

/-- The restoring process before `restore_frame_internal`: a wasm stack of the same size from `start` to `boundary`, and the functions
at `moved`. -/
structure ReadyFrames (m : Machine) (cs : List Nat) (funcs : Nat → FuncInst) (frames : Nat → InterpFrame) (root : List PoolInfo)
    (funcs' : Nat → FuncInst) (moved : Nat → Nat) (start boundary : Nat) : Prop where
  bottom : 0 < start
  stackSize : boundary + m.bottom = start + m.topBoundary
  address : boundary < 2 ^ 63
  found : ∀ a ∈ cs, (frames a).function ≠ 0 → moved (frames a).function ≠ 0 ∧
    ∃ n, getInfo root (absOf m.registry.pool (frames a).function) = .ok (some n) ∧ n.pRaw = moved (frames a).function
  funcs : ∀ a ∈ cs, (frames a).function ≠ 0 → (funcs' (moved (frames a).function)).toFunc = (funcs (frames a).function).toFunc ∧
    (funcs' (moved (frames a).function)).code < 2 ^ 63

/-- The records are written and read to the end of the file, the frames stand at the same distances in the new stack and in the same
order, and each is what it was. -/
def FrameRoundTrip (m : Machine) (cs : List Nat) (funcs : Nat → FuncInst) (frames : Nat → InterpFrame) (root : List PoolInfo)
    (funcs' : Nat → FuncInst) (moved : Nat → Nat) (start boundary : Nat) : Prop :=
  ∃ img cur frames', dumpFrames m.registry.pool funcs frames (frameEntries m.registry) = .ok img ∧
    restoreFrameInternal root (rootFrameOf (frameEntries m.registry)) funcs' start boundary img = .ok ((cur, frames'), []) ∧
    Chained frames' cur (cs.map fun a => a - m.bottom + start) ∧
    ∀ a ∈ cs, Back funcs funcs' moved a (a - m.bottom + start) (frames a) (frames' (a - m.bottom + start))

/-! ## One frame -/

section Dist
variable {size k start p q : Nat}

theorem diff_of_add (hs : 0 < size) (hk : k < 2 ^ 32) : diff size (start + size * k) start = UInt64.ofNat k := by
  have hsub : ((start + size * k : Nat) : Int) - start = size * k := by push_cast; ring
  have hdiv : ((size : Int) * k).tdiv size = k := Int.mul_tdiv_cancel_left _ (by omega)
  have hmod : ((k : Int) % 2 ^ 64).toNat = k := by omega
  rw [diff, hsub, hdiv, UInt64.ofInt, hmod]

theorem atDist_ofNat (hk : k < 2 ^ 32) (h : start + size * k < 2 ^ 64) : atDist size (UInt64.ofNat k) start = start + size * k := by
  rw [atDist, UInt64.toNat_ofNat_of_lt' (by unfold UInt64.size; omega), Nat.mul_comm, Nat.add_comm, Nat.mod_eq_of_lt h]

/-- A pointer at a distance from the start of its array comes back at that distance, or as NULL. -/
theorem atDist_dumpDist (hs : 0 < size) (hk : p ≠ 0 → ∃ k < 2 ^ 32, p = start + size * k ∧ q + size * k < 2 ^ 64) :
    atDistOrNull size (dumpDist size p start) q = relocPtr start q p := by
  rw [dumpDist, relocPtr]
  split
  · rfl
  next hp =>
  obtain ⟨k, hlt32, rfl, hlt⟩ := hk hp
  rw [diff_of_add hs hlt32, atDistOrNull, if_neg (ofNat_ne_max hlt32), atDist_ofNat hlt32 hlt]
  omega

end Dist

section Frame
variable {funcs funcs' : Nat → FuncInst} {moved : Nat → Nat} {root : List PoolInfo} {base frame frame' k n : Nat} {f node : InterpFrame} {g : FuncInst}

theorem reads_cells (cells : List UInt32) : Reads (times u32 cells.length) (cells.flatMap put32) cells := by
  have h : Reads (times u32 cells.length) (cells.flatMap put32) (cells.map id) := reads_times fun c _ => reads_u32 c
  rwa [List.map_id] at h

theorem length_cellsFrom (f : InterpFrame) (i n : Nat) : (cellsFrom f i n).length = n := by rw [cellsFrom, List.length_map, List.length_range]

theorem reads_cellsFrom (f : InterpFrame) (i n : Nat) : Reads (times u32 n) ((cellsFrom f i n).flatMap put32) (cellsFrom f i n) := by
  have h := reads_cells (cellsFrom f i n)
  rwa [length_cellsFrom] at h

/-- A pointer to a function instance comes back as the pointer to its copy. -/
theorem reads_restoreFramePtr {p : Nat} (h : p ≠ 0 → ∃ n, getInfo root (absOf base p) = .ok (some n) ∧ n.pRaw = moved p) :
    Reads (restoreFramePtr root) (put32 (dumpFramePtr base p)) (if p = 0 then 0 else moved p) := by
  have hr : Reads (restoreFramePtr root) (put32 (dumpFramePtr base p) ++ []) (if p = 0 then 0 else moved p) := by
    refine (reads_u32 _).bind ?_
    rw [dumpFramePtr]
    split
    · exact (reads_ofExcept (getInfo_null root)).bind_pure
    next hp =>
    obtain ⟨n, hn, hraw⟩ := h hp
    rw [← hraw]
    exact (reads_ofExcept hn).bind_pure
  rwa [List.append_nil] at hr

/-- The record of the frame of a call from the host gives nothing but the missing function. -/
theorem reads_entry (hf : f.function = 0) :
    Reads (restoreWASMInterpFrame root funcs' frame' node) (put32 (dumpFramePtr base f.function)) { node with function := 0 } := by
  have hptr : Reads (restoreFramePtr root) (put32 (dumpFramePtr base f.function)) 0 := by
    have hr : Reads (restoreFramePtr root) (put32 (dumpFramePtr base f.function)) (if f.function = 0 then 0 else id f.function) :=
      reads_restoreFramePtr fun h => absurd hf h
    rwa [if_pos hf] at hr
  have hr : Reads (restoreWASMInterpFrame root funcs' frame' node) (put32 (dumpFramePtr base f.function) ++ []) { node with function := 0 } :=
    hptr.bind (reads_pure _)
  rwa [List.append_nil] at hr

/-- The frame of a wasm function as it is read back. -/
def readBack (funcs' : Nat → FuncInst) (function frame' : Nat) (d k n : Nat) (code code' frame : Nat) (f node : InterpFrame) : InterpFrame :=
  let g := funcs' function
  let bottom := lpOf frame' + 4 * g.varCellNum
  { node with
    function := function
    ip := some (code' + d)
    spBottom := some bottom
    spBoundary := some (bottom + 4 * g.maxStackCellNum.toNat)
    sp := some (bottom + 4 * k)
    cspBottom := some (bottom + 4 * g.maxStackCellNum.toNat)
    cspBoundary := some (bottom + 4 * g.maxStackCellNum.toNat + 32 * g.maxBlockNum.toNat)
    csp := some (bottom + 4 * g.maxStackCellNum.toNat + 32 * n)
    lp := storeCells (storeCells (storeCells node.lp 0 (cellsFrom f 0 g.paramCellNum.toNat)) g.paramCellNum.toNat
      (cellsFrom f g.paramCellNum.toNat g.localCellNum.toNat)) g.varCellNum (cellsFrom f g.varCellNum g.maxStackCellNum.toNat)
    blocks := storeBlocks node.blocks ((List.range n).map fun i => relocBlock code code' frame frame' (f.blocks i)) }

theorem CodeFrame.dump (h : CodeFrame funcs frame f k n) {d : Nat} (hd : d < 2 ^ 32) (hip : f.ip = some ((funcs f.function).code + d)) :
    dumpWASMInterpFrame base funcs frame f = .ok (put32 (dumpFramePtr base f.function) ++ (put64 (.ofNat d) ++ (put64 (.ofNat k) ++
      (put32 (.ofNat n) ++ (((List.range n).map f.blocks).flatMap
        (dumpBlock (funcs f.function).code (lpOf frame + 4 * (funcs f.function).varCellNum)) ++
      ((cellsFrom f 0 (funcs f.function).paramCellNum.toNat).flatMap put32 ++
      ((cellsFrom f (funcs f.function).paramCellNum.toNat (funcs f.function).localCellNum.toNat).flatMap put32 ++
      (cellsFrom f (funcs f.function).varCellNum (funcs f.function).maxStackCellNum.toNat).flatMap put32))))))) := by
  have hcode : (funcs f.function).getCode = (funcs f.function).code := by rw [FuncInst.getCode, h.isImportFunc]; rfl
  have hcsp := h.csp
  have hcspb := h.cspBottom
  rw [h.spBoundary] at hcsp hcspb
  rw [Option.map_some] at hcsp
  have hd1 : diff 1 ((funcs f.function).code + d) (funcs f.function).code = .ofNat d := by
    have hone := @diff_of_add 1 d (funcs f.function).code (by decide) hd
    rwa [Nat.one_mul] at hone
  have hcells : (lpOf frame + 4 * (funcs f.function).varCellNum - lpOf frame) / 4 = (funcs f.function).varCellNum := by omega
  have hn : UInt32.ofNat (UInt64.ofNat n).toNat = .ofNat n := by
    rw [UInt64.toNat_ofNat_of_lt' (by have := h.count; unfold UInt64.size; omega)]
  have hn' : (UInt32.ofNat n).toNat = n := UInt32.toNat_ofNat_of_lt' h.count
  have hd4 := @diff_of_add 4 k (lpOf frame + 4 * (funcs f.function).varCellNum) (by decide) h.operands
  have hd32 := @diff_of_add 32 n (lpOf frame + 4 * (funcs f.function).varCellNum + 4 * (funcs f.function).maxStackCellNum.toNat)
    (by decide) h.count
  unfold dumpWASMInterpFrame
  rw [if_neg h.function, hip, h.spBottom, h.sp, hcspb, hcsp]
  simp only [hcode, hd1, hcells]
  push_cast at hd4 hd32
  rw [hd4, hd32, hn, hn']


/-- A control block comes back with its pointers at the same distances. -/
theorem CodeFrame.reads_block (h : CodeFrame funcs frame f k n) {code' var : Nat} (hvar : (funcs f.function).varCellNum = var)
    (hcode : code' < 2 ^ 63) (hlp : lpOf frame' + 4 * var < 2 ^ 63 + 2 ^ 20) {i : Nat} (hi : i < n) :
    Reads (restoreBlock code' (lpOf frame' + 4 * var))
      (dumpBlock (funcs f.function).code (lpOf frame + 4 * (funcs f.function).varCellNum) (f.blocks i))
      (relocBlock (funcs f.function).code code' frame frame' (f.blocks i)) := by
  have hinto : ∀ p, (p ≠ 0 → IntoCode (funcs f.function).code p) →
      atDistOrNull 1 (dumpDist 1 p (funcs f.function).code) code' = relocPtr (funcs f.function).code code' p := by
    intro p hp
    refine @atDist_dumpDist 1 _ _ _ (by decide) fun hne => ?_
    obtain ⟨d, hd, rfl⟩ := hp hne
    exact ⟨d, hd, by rw [Nat.one_mul], by omega⟩
  have hsp : atDistOrNull 4 (dumpDist 4 (f.blocks i).frameSp (lpOf frame + 4 * (funcs f.function).varCellNum)) (lpOf frame' + 4 * var) =
      relocPtr frame frame' (f.blocks i).frameSp := by
    have hr := @atDist_dumpDist 4 (lpOf frame + 4 * (funcs f.function).varCellNum) (f.blocks i).frameSp (lpOf frame' + 4 * var)
      (by decide) fun hne => by
        obtain ⟨j, hj, hp⟩ := h.frameSp i hi hne
        exact ⟨j, hj, hp, by omega⟩
    push_cast at hr
    rw [hr, relocPtr, relocPtr]
    split
    · rfl
    next hne =>
    obtain ⟨j, hj, hp⟩ := h.frameSp i hi hne
    rw [hp, ← hvar, lpOf, lpOf]
    omega
  rw [relocBlock, ← hsp, ← hinto _ (h.beginAddr i hi), ← hinto _ (h.targetAddr i hi)]
  exact (reads_u64 _).bind ((reads_u64 _).bind ((reads_u64 _).bind (reads_u32 _).bind_pure))

theorem CodeFrame.reads (h : CodeFrame funcs frame f k n) {d : Nat} (hd : d < 2 ^ 32) (hip : f.ip = some ((funcs f.function).code + d))
    (hmoved : moved f.function ≠ 0) (hfound : ∃ e, getInfo root (absOf base f.function) = .ok (some e) ∧ e.pRaw = moved f.function)
    (hg : funcs' (moved f.function) = g) (hfuncs : g.toFunc = (funcs f.function).toFunc) (hcode : g.code < 2 ^ 63)
    (hframe : frame' < 2 ^ 63) {bs : List UInt8} (hbs : dumpWASMInterpFrame base funcs frame f = .ok bs) :
    Reads (restoreWASMInterpFrame root funcs' frame' node) bs
      (readBack funcs' (moved f.function) frame' d k n (funcs f.function).code g.code frame f node) := by
  rw [h.dump hd hip] at hbs
  cases hbs
  have hparam : (funcs f.function).paramCellNum = g.paramCellNum := congrArg Func.paramCellNum hfuncs.symm
  have hlocal : (funcs f.function).localCellNum = g.localCellNum := congrArg Func.localCellNum hfuncs.symm
  have hmax : (funcs f.function).maxStackCellNum = g.maxStackCellNum := congrArg Func.maxStackCellNum hfuncs.symm
  have hvar : (funcs f.function).varCellNum = g.varCellNum := congrArg Func.varCellNum hfuncs.symm
  have hget : g.getCode = g.code := by
    have himp : g.isImportFunc = false := (congrArg Func.isImportFunc hfuncs).trans h.isImportFunc
    rw [FuncInst.getCode, himp]
    rfl
  have hn : (UInt32.ofNat n).toNat = n := UInt32.toNat_ofNat_of_lt' h.count
  have hptr : Reads (restoreFramePtr root) (put32 (dumpFramePtr base f.function)) (moved f.function) := by
    have hr : Reads (restoreFramePtr root) (put32 (dumpFramePtr base f.function)) (if f.function = 0 then 0 else moved f.function) :=
      reads_restoreFramePtr fun _ => hfound
    rwa [if_neg h.function] at hr
  have hlp : lpOf frame' + 4 * g.varCellNum < 2 ^ 63 + 2 ^ 20 := by
    have h1 := g.paramCellNum.toNat_lt
    have h2 := g.localCellNum.toNat_lt
    rw [lpOf, Func.varCellNum]
    omega
  have hip' : atDist 1 (.ofNat d) g.code = g.code + d := by
    rw [atDist_ofNat hd (by omega), Nat.one_mul]
  have hsp' : atDist 4 (.ofNat k) (lpOf frame' + 4 * g.varCellNum) = lpOf frame' + 4 * g.varCellNum + 4 * k := by
    have := h.operands
    exact atDist_ofNat h.operands (by omega)
  have hblocks : Reads (times (restoreBlock g.code (lpOf frame' + 4 * g.varCellNum)) n)
      (((List.range n).map f.blocks).flatMap (dumpBlock (funcs f.function).code (lpOf frame + 4 * (funcs f.function).varCellNum)))
      ((List.range n).map fun i => relocBlock (funcs f.function).code g.code frame frame' (f.blocks i)) := by
    have hr := reads_times fun i hi => h.reads_block hvar hcode hlp (List.mem_range.1 hi)
    rw [List.length_range] at hr
    rwa [List.flatMap_map]
  refine hptr.bind ?_
  simp only [if_neg hmoved, hg, hget]
  refine (reads_u64 _).bind ((reads_u64 _).bind ((reads_u32 _).bind ?_))
  rw [hn, hparam, hlocal, hmax]
  refine hblocks.bind ((reads_cellsFrom f 0 _).bind ((reads_cellsFrom f _ _).bind ?_))
  rw [Func.varCellNum] at hsp'
  rw [hip', hsp', hvar]
  subst hg
  exact (reads_cellsFrom f _ _).bind_pure


theorem storeCells_cellsFrom (lp : Nat → UInt32) (f : InterpFrame) (i n j : Nat) :
    storeCells lp i (cellsFrom f i n) j = if i ≤ j ∧ j < i + n then f.lp j else lp j := by
  rw [storeCells, cellsFrom]
  by_cases hi : i ≤ j
  · rw [if_pos hi]
    by_cases hj : j < i + n
    · have hlt : j - i < (List.range n).length := by rw [List.length_range]; omega
      rw [if_pos ⟨hi, hj⟩, List.getD_eq_getElem?_getD, List.getElem?_map, List.getElem?_eq_getElem hlt, List.getElem_range]
      simp only [Option.map_some, Option.getD_some]
      congr 1
      omega
    rw [if_neg (fun h => hj h.2), List.getD_eq_getElem?_getD, List.getElem?_eq_none]
    · rfl
    rw [List.length_map, List.length_range]
    omega
  · rw [if_neg hi, if_neg (fun h => hi h.1)]

theorem storeBlocks_map {blocks bs : Nat → BranchBlock} {j : Nat} (hj : j < n) : storeBlocks blocks ((List.range n).map bs) j = bs j := by
  have hlt : j < (List.range n).length := by rwa [List.length_range]
  rw [storeBlocks, List.getD_eq_getElem?_getD, List.getElem?_map, List.getElem?_eq_getElem hlt, List.getElem_range]
  rfl

theorem CodeFrame.back (h : CodeFrame funcs frame f k n) {d : Nat} (hip : f.ip = some ((funcs f.function).code + d))
    (hg : funcs' (moved f.function) = g) (hfuncs : g.toFunc = (funcs f.function).toFunc) : Back funcs funcs' moved frame frame' f
      (readBack funcs' (moved f.function) frame' d k n (funcs f.function).code g.code frame f node) := by
  have hvar : g.varCellNum = (funcs f.function).varCellNum := congrArg Func.varCellNum hfuncs
  have hmax : g.maxStackCellNum = (funcs f.function).maxStackCellNum := congrArg Func.maxStackCellNum hfuncs
  have himp : g.isImportFunc = false := (congrArg Func.isImportFunc hfuncs).trans h.isImportFunc
  have hget : (funcs f.function).getCode = (funcs f.function).code := by rw [FuncInst.getCode, h.isImportFunc]; rfl
  have hget' : g.getCode = g.code := by rw [FuncInst.getCode, himp]; rfl
  have hcsp := h.csp
  have hcspb := h.cspBottom
  rw [h.spBoundary] at hcsp hcspb
  rw [Option.map_some] at hcsp
  -- a pointer into the frame, at the same distance in the new one
  have hinto : ∀ {p : Option Nat} {x y : Nat}, p = some x → lpOf frame ≤ x → y + frame = x + frame' →
      some y = p.map (relocPtr frame frame') := by
    intro p x y hp hx hy
    rw [lpOf] at hx
    rw [hp, Option.map_some, relocPtr, if_neg (by omega)]
    congr 1
    omega
  have hsplit : g.varCellNum = g.paramCellNum.toNat + g.localCellNum.toNat := rfl
  subst hg
  constructor
  case function => rw [if_neg h.function]; rfl
  case ip =>
    have hne : (funcs f.function).code + d ≠ 0 := by
      have := h.code
      omega
    show some (_ + d) = _
    rw [hip, hget, Option.map_some, relocPtr, if_neg hne]
    show _ = some (_ + (funcs' (moved f.function)).getCode)
    rw [hget']
    congr 1
    omega
  case sp => exact hinto h.sp (by omega) (by rw [hvar, lpOf, lpOf]; omega)
  case spBottom => exact hinto h.spBottom (by omega) (by rw [hvar, lpOf, lpOf]; omega)
  case spBoundary => exact hinto h.spBoundary (by omega) (by rw [hvar, hmax, lpOf, lpOf]; omega)
  case cspBottom => exact hinto hcspb (by omega) (by rw [hvar, hmax, lpOf, lpOf]; omega)
  case csp => exact hinto hcsp (by omega) (by rw [hvar, hmax, lpOf, lpOf]; omega)
  case cells =>
    intro _ i hi
    show storeCells (storeCells (storeCells _ _ _) _ _) _ _ i = _
    rw [storeCells_cellsFrom, storeCells_cellsFrom, storeCells_cellsFrom]
    rw [← hvar, ← hmax] at hi
    split
    · rfl
    · split
      · rfl
      · rw [if_pos (by omega)]
  case blocks =>
    intro bottom top hbottom htop i hi
    rw [hcspb] at hbottom
    rw [hcsp] at htop
    cases hbottom
    cases htop
    rw [Nat.add_sub_cancel_left, Nat.mul_div_cancel_left _ (by decide)] at hi
    show storeBlocks _ _ i = relocBlock _ (funcs' (moved f.function)).getCode _ _ _
    rw [storeBlocks_map hi, hget, hget']

/-- The frame of a call from the host does not come back: `ip` is never set. -/
theorem EntryFrame.not_back (h : EntryFrame frame f) (hnode : node.ip = none) :
    ¬Back funcs funcs' moved frame frame' f { node with function := 0 } := by
  intro hb
  have hip := hb.ip
  rw [h.ip, Option.map_some] at hip
  exact absurd (hnode.symm.trans hip) (by simp)

end Frame

/-! ## Taking the frames -/

/-- An entry of `root_frame`, before its frame is taken. -/
def waiting (pool a size : Nat) : PoolInfo := ⟨absOf pool a, 0, UInt32.ofNat size, .wasmInterpFrameT, [], 0⟩

section Taken
variable {m : Machine} {cs : List Nat} {start boundary pool top : Nat} {size : Nat → Nat}

theorem toInt_absOf {a : Nat} (ha : pool ≤ a ∧ a < pool + 2 ^ 31) : toInt (absOf pool a) = (a : Int) - pool := by
  rw [toInt, toNat_absOf ha, if_pos (by omega)]
  omega

/-- Entries that come in descending order of their offsets are each put in front of the others. -/
theorem foldl_insertFrame (hpool : ∀ a ∈ cs, pool ≤ a ∧ a < pool + 2 ^ 31) (hdesc : cs.Pairwise (· > ·)) (acc : List PoolInfo)
    (hacc : ∀ a ∈ cs, ∀ f ∈ acc, toInt (absOf pool a) < toInt f.pAbs) :
    cs.foldl (fun fs a => insertFrame (waiting pool a (size a)) fs) acc = (cs.map fun a => waiting pool a (size a)).reverse ++ acc := by
  induction cs generalizing acc with
  | nil => rfl
  | cons a cs ih =>
    obtain ⟨hpa, hpcs⟩ := List.forall_mem_cons.1 hpool
    obtain ⟨haa, hacs⟩ := List.forall_mem_cons.1 hacc
    obtain ⟨hgt, hdesc⟩ := List.pairwise_cons.1 hdesc
    have hfront : insertFrame (waiting pool a (size a)) acc = waiting pool a (size a) :: acc := by
      cases acc with
      | nil => rfl
      | cons f fs =>
        have hlt : ¬toInt (waiting pool a (size a)).pAbs > toInt f.pAbs := Int.not_lt.2 (haa f List.mem_cons_self).le
        rw [insertFrame, if_neg hlt]
    rw [List.foldl_cons, hfront, ih hpcs hdesc]
    · rw [List.map_cons, List.reverse_cons, List.append_assoc]
      rfl
    intro b hb
    refine List.forall_mem_cons.2 ⟨?_, hacs b hb⟩
    rw [toInt_absOf (hpcs b hb)]
    show _ < toInt (absOf pool a)
    rw [toInt_absOf hpa]
    have := hgt b hb
    omega

theorem Tiled.pairwise {frames : Nat → FrameFields} {bottom : Nat} (h : Tiled frames bottom top cs) : cs.Pairwise (· > ·) := by
  induction cs generalizing top with
  | nil => exact List.Pairwise.nil
  | cons a cs ih => exact List.pairwise_cons.2 ⟨fun b hb => h.2.2.lt_top b hb, ih h.2.2⟩

theorem LiveFrames.rootFrame {funcs : Nat → FuncInst} {frames : Nat → InterpFrame} (h : LiveFrames m cs funcs frames) :
    rootFrameOf (frameEntries m.registry) = (cs.map fun a => waiting m.registry.pool a (m.frames a).size).reverse := by
  rw [h.entries, rootFrameOf, List.foldl_map]
  have hfold : cs.foldl (fun fs a => insertFrame (waiting m.registry.pool a (m.frames a).size) fs) [] =
      (cs.map fun a => waiting m.registry.pool a (m.frames a).size).reverse ++ [] :=
    foldl_insertFrame h.pool h.tiled.pairwise [] (by simp)
  rwa [List.append_nil] at hfold

/-- What has been taken for the frames `cs`. -/
structure TakenFor (m : Machine) (start top : Nat) (cs : List Nat) (s : Taken) : Prop where
  top : s.top + m.bottom = top + start
  prev : s.prev = (cs.map fun a => a - m.bottom + start).headD 0
  infos : s.infos = (cs.map fun a => { waiting m.registry.pool a (m.frames a).size with pRaw := a - m.bottom + start }).reverse
  chained : Chained s.frames s.prev (cs.map fun a => a - m.bottom + start)
  fresh : ∀ x, (s.frames x).ip = none

theorem Chained.congr {frames frames' : Nat → InterpFrame} {a : Nat} {bs : List Nat} (h : Chained frames a bs)
    (hf : ∀ b ∈ bs, (frames' b).prevFrame = (frames b).prevFrame) : Chained frames' a bs := by
  induction bs generalizing a with
  | nil => exact h
  | cons b bs ih =>
    obtain ⟨hab, hne, hrest⟩ := h
    obtain ⟨hb, hbs⟩ := List.forall_mem_cons.1 hf
    refine ⟨hab, hne, ?_⟩
    rw [hb]
    exact ih hrest hbs

/-- Every frame is taken again, at the same distance from the bottom of the stack. -/
theorem takenFor (hstart : 0 < start) (hsize : boundary + m.bottom = start + m.topBoundary) (hstack : m.topBoundary < m.bottom + 2 ^ 32)
    (htiled : Tiled m.frames m.bottom top cs) (hroom : ∀ a ∈ cs, a + (m.frames a).size * 2 ≤ m.topBoundary) : TakenFor m start top cs
      ((cs.map fun a => waiting m.registry.pool a (m.frames a).size).reverse.foldl (Taken.take boundary) ⟨start, 0, [], fun _ => blank⟩) := by
  rw [List.foldl_reverse]
  induction cs generalizing top with
  | nil =>
    obtain rfl : top = m.bottom := htiled
    exact ⟨Nat.add_comm _ _, rfl, rfl, rfl, fun _ => rfl⟩
  | cons a cs ih =>
    obtain ⟨htop, hsz, hrest⟩ := htiled
    obtain ⟨hra, hrcs⟩ := List.forall_mem_cons.1 hroom
    have hbot := hrest.bounds.1
    have hlts := hrest.lt_top
    have hb := hrest.bounds.2
    have hs := ih hrest hrcs
    rw [List.map_cons, List.foldr_cons]
    generalize (cs.map fun a => waiting m.registry.pool a (m.frames a).size).foldr (fun x y => Taken.take boundary y x) _ = s at hs ⊢
    have hstop : s.top = a - m.bottom + start := by
      have := hs.top
      omega
    have hw : (waiting m.registry.pool a (m.frames a).size).size.toNat = (m.frames a).size :=
      UInt32.toNat_ofNat_of_lt' (by unfold UInt32.size; omega)
    have hfits : ¬boundary < s.top + (waiting m.registry.pool a (m.frames a).size).size.toNat * 2 % 2 ^ 32 := by
      rw [hw, hstop]
      omega
    have hother : ∀ b ∈ cs, b - m.bottom + start ≠ s.top := by
      intro b hmem
      have h1 := hlts b hmem
      have h2 := (hb b hmem).1
      omega
    rw [Taken.take, if_neg hfits, hw]
    refine ⟨?_, ?_, ?_, ?_, ?_⟩
    · show s.top + (m.frames a).size + m.bottom = top + start
      omega
    · rw [List.map_cons, List.headD_cons]
      exact hstop
    · show s.infos ++ [_] = _
      rw [hs.infos, List.map_cons, List.reverse_cons, hstop]
    · rw [List.map_cons]
      refine ⟨hstop, by omega, ?_⟩
      rw [← hstop]
      show Chained _ (Function.update s.frames s.top _ s.top).prevFrame _
      rw [Function.update_self]
      refine hs.chained.congr fun b hmem => ?_
      obtain ⟨c, hc, rfl⟩ := List.mem_map.1 hmem
      show (Function.update s.frames s.top _ _).prevFrame = _
      rw [Function.update_of_ne (hother c hc)]
    intro x
    show (Function.update s.frames s.top _ x).ip = none
    by_cases hx : x = s.top
    · subst hx
      rw [Function.update_self]
      exact hs.fresh _
    · rw [Function.update_of_ne hx]
      exact hs.fresh x

end Taken

/-! ## Reading the records -/

section Records
variable {m : Machine} {cs as : List Nat} {funcs funcs' : Nat → FuncInst} {frames node : Nat → InterpFrame} {root infos : List PoolInfo}
  {moved : Nat → Nat} {start boundary base : Nat} {img : List UInt8} {es : List PoolInfo}

/-- What has been read into the frame at `a'` for the one at `a`: all of it, or that it has no function. -/
def ReadInto (funcs funcs' : Nat → FuncInst) (moved : Nat → Nat) (a a' : Nat) (f node f' : InterpFrame) : Prop :=
  f'.prevFrame = node.prevFrame ∧
    (f.function = 0 ∧ f' = { node with function := 0 } ∨ IsCodeFrame funcs a f ∧ Back funcs funcs' moved a a' f f')

theorem dumpFrames_cons_ok {e : PoolInfo} (h : dumpFrames base funcs frames (e :: es) = .ok img) :
    ∃ bs img', dumpWASMInterpFrame base funcs e.pRaw (frames e.pRaw) = .ok bs ∧ dumpFrames base funcs frames es = .ok img' ∧
      img = put32 DataType.wasmInterpFrameT.code ++ ((put32 e.size ++ (put32 e.pAbs ++ bs)) ++ img') := by
  rw [dumpFrames] at h
  split at h
  · cases h
  next bs hbs =>
  split at h
  · cases h
  next img' himg =>
  cases h
  exact ⟨bs, img', hbs, himg, by rw [List.append_assoc]⟩

theorem dumpFrames_ok (h : ∀ e ∈ es, ∃ bs, dumpWASMInterpFrame base funcs e.pRaw (frames e.pRaw) = .ok bs) :
    ∃ img, dumpFrames base funcs frames es = .ok img := by
  induction es with
  | nil => exact ⟨[], rfl⟩
  | cons e es ih =>
    obtain ⟨⟨bs, hbs⟩, hes⟩ := List.forall_mem_cons.1 h
    obtain ⟨img, himg⟩ := ih hes
    rw [dumpFrames, hbs, himg]
    exact ⟨_, rfl⟩

theorem dump_of_dumpFrames (h : dumpFrames base funcs frames es = .ok img) :
    ∀ e ∈ es, ∃ bs, dumpWASMInterpFrame base funcs e.pRaw (frames e.pRaw) = .ok bs := by
  induction es generalizing img with
  | nil => simp
  | cons e es ih =>
    obtain ⟨bs, img', hbs, himg, -⟩ := dumpFrames_cons_ok h
    exact List.forall_mem_cons.2 ⟨⟨bs, hbs⟩, ih himg⟩

theorem length_dumpFrames (h : dumpFrames base funcs frames es = .ok img) : es.length ≤ img.length := by
  induction es generalizing img with
  | nil => exact Nat.zero_le _
  | cons e es ih =>
    obtain ⟨bs, img', hbs, himg, rfl⟩ := dumpFrames_cons_ok h
    have := ih himg
    have hput : ∀ w, (put32 w).length = 4 := fun w => length_toBytes 4 _
    simp only [List.length_cons, List.length_append, hput]
    omega

/-- A round of the loop: the frame that the offset belongs to is filled. -/
theorem reads_record {a a' : Nat} {bs : List UInt8} {f' : InterpFrame} {e : PoolInfo} {size type : UInt32}
    (hinfo : getFrameInfo infos (absOf base a) = .ok (some e)) (hraw : e.pRaw = a') (hne : a' ≠ 0)
    (hread : Reads (restoreWASMInterpFrame root funcs' a' (node a')) bs f') :
    Reads (restoreRecord root infos funcs' node type) (put32 size ++ (put32 (absOf base a) ++ bs)) (Function.update node a' f') := by
  have hr : Reads (restoreRecord root infos funcs' node type) (put32 size ++ (put32 (absOf base a) ++ ([] ++ bs)))
      (Function.update node a' f') := by
    refine (reads_u32 _).bind ((reads_u32 _).bind ((reads_ofExcept hinfo).bind ?_))
    subst hraw
    simp only [if_neg hne]
    exact hread.bind_pure
  rwa [List.nil_append] at hr

theorem run_records {new : Nat → Nat} (hnodup : (as.map new).Nodup) (hne : ∀ a ∈ as, new a ≠ 0)
    (hinfo : ∀ a ∈ as, ∃ e, getFrameInfo infos (absOf base a) = .ok (some e) ∧ e.pRaw = new a)
    (hread : ∀ a ∈ as, ∀ bs f, dumpWASMInterpFrame base funcs a (frames a) = .ok bs →
      ∃ f', Reads (restoreWASMInterpFrame root funcs' (new a) f) bs f' ∧ ReadInto funcs funcs' moved a (new a) (frames a) f f')
    {size : Nat → Nat} (hdump : dumpFrames base funcs frames (as.map fun a => frameEntry base a (size a)) = .ok img) {fuel : Nat}
    (hfuel : as.length < fuel) : ∃ node', (whileWords (restoreRecord root infos funcs') fuel node).run img = .ok (node', []) ∧
      (∀ x, (∀ a ∈ as, x ≠ new a) → node' x = node x) ∧
      ∀ a ∈ as, ReadInto funcs funcs' moved a (new a) (frames a) (node (new a)) (node' (new a)) := by
  induction as generalizing node img fuel with
  | nil =>
    obtain ⟨fuel, rfl⟩ : ∃ n, fuel = n + 1 := ⟨fuel - 1, by simp at hfuel; omega⟩
    cases hdump
    exact ⟨node, whileWords_end, fun _ _ => rfl, by simp⟩
  | cons a as ih =>
    obtain ⟨fuel, rfl⟩ : ∃ n, fuel = n + 1 := ⟨fuel - 1, by omega⟩
    obtain ⟨bs, img', hbs, himg, rfl⟩ := dumpFrames_cons_ok hdump
    obtain ⟨hna, hnas⟩ := List.forall_mem_cons.1 hne
    obtain ⟨⟨e, he, hraw⟩, hias⟩ := List.forall_mem_cons.1 hinfo
    obtain ⟨hra, hras⟩ := List.forall_mem_cons.1 hread
    obtain ⟨hnot, hnodup⟩ := List.nodup_cons.1 hnodup
    obtain ⟨f', hreads, hinto⟩ := hra bs (node (new a)) hbs
    have hapart : ∀ b ∈ as, new b ≠ new a := fun b hb heq => hnot (heq ▸ List.mem_map_of_mem hb)
    have hfuel' : as.length < fuel := Nat.lt_of_succ_lt_succ hfuel
    obtain ⟨node', hrun, hkeep, hall⟩ := @ih (Function.update node (new a) f') _ hnodup hnas hias hras himg _ hfuel'
    refine ⟨node', ?_, ?_, List.forall_mem_cons.2 ⟨?_, ?_⟩⟩
    · have hrec : Reads (restoreRecord root infos funcs' node DataType.wasmInterpFrameT.code)
          (put32 (frameEntry base a (size a)).size ++ (put32 (absOf base a) ++ bs)) (Function.update node (new a) f') :=
        reads_record he hraw hna hreads
      exact (whileWords_step hrec).trans hrun
    · intro x hx
      obtain ⟨hxa, hxas⟩ := List.forall_mem_cons.1 hx
      rw [hkeep x hxas, Function.update_of_ne hxa]
    · rw [hkeep _ fun b hb => (hapart b hb).symm, Function.update_self]
      exact hinto
    · intro b hb
      have := hall b hb
      rwa [Function.update_of_ne (hapart b hb)] at this

theorem NativeFrame.dump {a : Nat} {f : InterpFrame} (h : NativeFrame funcs a f) : dumpWASMInterpFrame base funcs a f = .error .invalid := by
  rw [dumpWASMInterpFrame, if_neg h.function, h.ip, h.spBottom]

theorem TakenFor.find {s : Taken} {top a : Nat} (hs : TakenFor m start top cs s)
    (hpool : ∀ a ∈ cs, m.registry.pool ≤ a ∧ a < m.registry.pool + 2 ^ 31) (ha : a ∈ cs) :
    ∃ e, getFrameInfo s.infos (absOf m.registry.pool a) = .ok (some e) ∧ e.pRaw = a - m.bottom + start := by
  have hne : absOf m.registry.pool a ≠ 0xFFFFFFFF := by
    intro heq
    have hnat := congrArg UInt32.toNat heq
    have hlit : (0xFFFFFFFF : UInt32).toNat = 2 ^ 32 - 1 := rfl
    rw [toNat_absOf (hpool a ha), hlit] at hnat
    have := (hpool a ha).2
    omega
  rw [getFrameInfo, if_neg hne]
  cases hfind : s.infos.find? (·.pAbs = absOf m.registry.pool a) with
  | none =>
    rw [List.find?_eq_none] at hfind
    refine absurd (hfind { waiting m.registry.pool a (m.frames a).size with pRaw := a - m.bottom + start } ?_) (by simp [waiting])
    rw [hs.infos, List.mem_reverse]
    exact List.mem_map_of_mem ha
  | some e =>
    refine ⟨e, rfl, ?_⟩
    have hmem := List.mem_of_find?_eq_some hfind
    have hpabs : e.pAbs = absOf m.registry.pool a := by simpa using List.find?_some hfind
    rw [hs.infos, List.mem_reverse] at hmem
    obtain ⟨b, hb, rfl⟩ := List.mem_map.1 hmem
    obtain rfl : b = a := absOf_inj (hpool b hb) (hpool a ha) hpabs
    rfl

section
variable (h : LiveFrames m cs funcs frames) (hr : ReadyFrames m cs funcs frames root funcs' moved start boundary)
include h hr

/-- A record that was written is read back into the frame taken for it. -/
theorem LiveFrames.read {a : Nat}
    (ha : a ∈ cs) {bs : List UInt8} {f : InterpFrame} (hbs : dumpWASMInterpFrame m.registry.pool funcs a (frames a) = .ok bs) :
    ∃ f', Reads (restoreWASMInterpFrame root funcs' (a - m.bottom + start) f) bs f' ∧
      ReadInto funcs funcs' moved a (a - m.bottom + start) (frames a) f f' := by
  rcases h.kinds a ha with he | hn | hc
  · rw [dumpWASMInterpFrame, if_pos he.function] at hbs
    cases hbs
    exact ⟨_, reads_entry he.function, rfl, .inl ⟨he.function, rfl⟩⟩
  · rw [hn.dump] at hbs
    cases hbs
  have hcode := hc
  obtain ⟨k, n, hc⟩ := hc
  obtain ⟨d, hd, hip⟩ := hc.ip
  obtain ⟨hmoved, hfound⟩ := hr.found a ha hc.function
  obtain ⟨hfuncs, hlt⟩ := hr.funcs a ha hc.function
  have hframe : a - m.bottom + start < 2 ^ 63 := by
    have h1 := hr.address
    have h2 := hr.stackSize
    have h3 := h.room a ha
    have h4 := (h.tiled.bounds.2 a ha).1
    omega
  exact ⟨_, hc.reads hd hip hmoved hfound rfl hfuncs hlt hframe hbs, rfl, .inr ⟨hcode, hc.back hip rfl hfuncs⟩⟩

/-- What `restore_frame_internal` makes of the records that were written. -/
theorem LiveFrames.run (hdump : dumpFrames m.registry.pool funcs frames (frameEntries m.registry) = .ok img) :
    ∃ cur frames', restoreFrameInternal root (rootFrameOf (frameEntries m.registry)) funcs' start boundary img = .ok ((cur, frames'), []) ∧
      Chained frames' cur (cs.map fun a => a - m.bottom + start) ∧
      ∀ a ∈ cs, ∃ f, f.ip = none ∧ ReadInto funcs funcs' moved a (a - m.bottom + start) (frames a) f (frames' (a - m.bottom + start)) := by
  have hs := takenFor hr.bottom hr.stackSize h.stackSize h.tiled h.room
  rw [← h.rootFrame] at hs
  generalize hS : (rootFrameOf (frameEntries m.registry)).foldl (Taken.take boundary) ⟨start, 0, [], fun _ => blank⟩ = s at hs
  have hbottom := fun a ha => (h.tiled.bounds.2 a ha).1
  have hnodup : (cs.map fun a => a - m.bottom + start).Nodup := by
    refine List.Nodup.map_on ?_ h.tiled.nodup
    intro a ha b hb heq
    have h1 := hbottom a ha
    have h2 := hbottom b hb
    omega
  have hne : ∀ a ∈ cs, a - m.bottom + start ≠ 0 := fun a _ => by
    have := hr.bottom
    omega
  have hlen := length_dumpFrames hdump
  rw [h.entries, List.length_map] at hlen
  rw [h.entries] at hdump
  have hfuel : cs.length < img.length + 1 := Nat.lt_succ_of_le hlen
  obtain ⟨node', hrun, -, hall⟩ : ∃ node', (whileWords (restoreRecord root s.infos funcs') (img.length + 1) s.frames).run img = .ok (node', []) ∧
      (∀ x, (∀ a ∈ cs, x ≠ a - m.bottom + start) → node' x = s.frames x) ∧
      ∀ a ∈ cs, ReadInto funcs funcs' moved a (a - m.bottom + start) (frames a) (s.frames (a - m.bottom + start))
        (node' (a - m.bottom + start)) :=
    run_records hnodup hne (fun a ha => hs.find h.pool ha) (fun a ha bs f hbs => h.read hr ha hbs) hdump hfuel
  refine ⟨s.prev, node', ?_, ?_, fun a ha => ⟨s.frames (a - m.bottom + start), hs.fresh _, hall a ha⟩⟩
  · rw [restoreFrameInternal, hS]
    simp only [hrun]
    rfl
  · refine hs.chained.congr fun b hb => ?_
    obtain ⟨a, ha, rfl⟩ := List.mem_map.1 hb
    exact (hall a ha).1

theorem isCodeFrame_of_roundTrip
    (hrt : FrameRoundTrip m cs funcs frames root funcs' moved start boundary) {a : Nat} (ha : a ∈ cs) : IsCodeFrame funcs a (frames a) := by
  obtain ⟨img, cur, frames', hdump, hrestore, -, hback⟩ := hrt
  obtain ⟨cur', frames'', hrun, -, hall⟩ := h.run hr hdump
  rw [hrestore] at hrun
  cases hrun
  rcases h.kinds a ha with he | hn | hc
  · obtain ⟨f, hip, -, hinto⟩ := hall a ha
    rcases hinto with ⟨-, hf⟩ | ⟨hc, -⟩
    · have hb := hback a ha
      rw [hf] at hb
      exact absurd hb (he.not_back hip)
    · exact hc
  · have hmem : frameEntry m.registry.pool a (m.frames a).size ∈ frameEntries m.registry := by
      rw [h.entries]
      exact List.mem_map_of_mem ha
    obtain ⟨bs, hbs⟩ := dump_of_dumpFrames hdump _ hmem
    rw [show (frameEntry m.registry.pool a (m.frames a).size).pRaw = a from rfl, hn.dump] at hbs
    cases hbs
  · exact hc

end

/-- The frames come back exactly when all of them are those of wasm functions. -/
theorem frameImage_roundTrip_iff (h : LiveFrames m cs funcs frames)
    (hr : ReadyFrames m cs funcs frames root funcs' moved start boundary) :
    FrameRoundTrip m cs funcs frames root funcs' moved start boundary ↔ ∀ a ∈ cs, IsCodeFrame funcs a (frames a) := by
  refine ⟨fun hrt a ha => isCodeFrame_of_roundTrip h hr hrt ha, fun hcode => ?_⟩
  obtain ⟨img, hdump⟩ : ∃ img, dumpFrames m.registry.pool funcs frames (frameEntries m.registry) = .ok img := by
    refine dumpFrames_ok fun e he => ?_
    rw [h.entries] at he
    obtain ⟨a, ha, rfl⟩ := List.mem_map.1 he
    obtain ⟨k, n, hc⟩ := hcode a ha
    obtain ⟨d, hd, hip⟩ := hc.ip
    exact ⟨_, hc.dump hd hip⟩
  obtain ⟨cur, frames', hrun, hchain, hall⟩ := h.run hr hdump
  refine ⟨img, cur, frames', hdump, hrun, hchain, fun a ha => ?_⟩
  obtain ⟨f, -, -, hinto⟩ := hall a ha
  rcases hinto with ⟨hf, -⟩ | ⟨-, hb⟩
  · obtain ⟨k, n, hc⟩ := hcode a ha
    exact absurd hf hc.function
  · exact hb

end Records

/-! ## A checkpoint in a function called from the host -/

/-- The frame of `leaf`, with one operand and one control block. -/
def leafFrame (frame : Nat) : InterpFrame where
  prevFrame := 0
  function := 2048
  ip := some 20005
  spBottom := some (frame + 76)
  spBoundary := some (frame + 92)
  sp := some (frame + 80)
  cspBottom := some (frame + 92)
  cspBoundary := some (frame + 156)
  csp := some (frame + 124)
  lp := fun i => UInt32.ofNat i
  blocks := fun _ => ⟨20000, 20009, frame + 76, 0⟩

def leafInst (code : Nat) : FuncInst := ⟨leaf, code⟩

/-- The copy of the function instance of `leaf` in the restoring process. -/
def leafRoot : List PoolInfo := [⟨1024, 9000, 1, .wasmFunctionInstanceT, [], 0⟩]

theorem leafRoot_find : getInfo leafRoot (absOf 1024 2048) = .ok (some ⟨1024, 9000, 1, .wasmFunctionInstanceT, [], 0⟩) := by rfl

theorem leafFrame_code (frame : Nat) : CodeFrame (fun _ => leafInst 20000) frame (leafFrame frame) 1 1 where
  function := Nat.succ_ne_zero 2047
  isImportFunc := rfl
  code := by decide
  ip := ⟨5, by decide, rfl⟩
  spBottom := rfl
  spBoundary := rfl
  sp := rfl
  cspBottom := rfl
  csp := rfl
  operands := by decide
  count := by decide
  beginAddr := fun _ _ _ => ⟨0, by decide, rfl⟩
  targetAddr := fun _ _ _ => ⟨9, by decide, rfl⟩
  frameSp := fun _ _ _ => ⟨0, by decide, rfl⟩

/-- The frame of `leaf` alone on the stack. -/
def oneFrame : Machine :=
  { idle with
    top := 4276
    curFrame := 4096
    frames := fun _ => ⟨0, some leaf, true, 180⟩
    registry := ⟨1024, [frameEntry 1024 4096 180], []⟩ }

theorem oneFrame_live : LiveFrames oneFrame [4096] (fun _ => leafInst 20000) leafFrame where
  bottom := by decide
  linked := ⟨rfl, by decide, rfl⟩
  tiled := ⟨rfl, by decide, rfl⟩
  room := by simp [oneFrame, idle]
  entries := rfl
  pool := by simp [oneFrame]
  stackSize := by decide
  kinds := fun a _ => Or.inr (.inr ⟨1, 1, leafFrame_code a⟩)

theorem oneFrame_ready :
    ReadyFrames oneFrame [4096] (fun _ => leafInst 20000) leafFrame leafRoot (fun _ => leafInst 30000) (fun _ => 9000) 8192 10240 where
  bottom := by decide
  stackSize := by decide
  address := by decide
  found := fun _ _ _ => ⟨by decide, _, leafRoot_find, rfl⟩
  funcs := fun _ _ _ => ⟨rfl, by decide⟩

theorem frameImage_one :
    FrameRoundTrip oneFrame [4096] (fun _ => leafInst 20000) leafFrame leafRoot (fun _ => leafInst 30000) (fun _ => 9000) 8192 10240 :=
  (frameImage_roundTrip_iff oneFrame_live oneFrame_ready).2 fun a _ => ⟨1, 1, leafFrame_code a⟩

/-- The frame of `leaf` above the frame of the call from the host. -/
def twoFrames : Machine :=
  { idle with
    top := 4360
    curFrame := 4180
    frames := fun a => if a = 4096 then ⟨0, none, false, 84⟩ else ⟨4096, some leaf, true, 180⟩
    registry := ⟨1024, [frameEntry 1024 4180 180, frameEntry 1024 4096 84], []⟩ }

/-- The frame of the call from the host is at the bottom of the stack. -/
def calledFrames (frame : Nat) : InterpFrame :=
  if frame = 4096 then { blank with ip := some 0, sp := some 4168 } else leafFrame frame

/-- The frame of the call from the host comes back without `ip` and `sp`. -/
theorem entry_frame_breaks :
    LiveFrames twoFrames [4180, 4096] (fun _ => leafInst 20000) calledFrames ∧
      ReadyFrames twoFrames [4180, 4096] (fun _ => leafInst 20000) calledFrames leafRoot (fun _ => leafInst 30000) (fun _ => 9000)
        8192 10240 ∧
      ¬FrameRoundTrip twoFrames [4180, 4096] (fun _ => leafInst 20000) calledFrames leafRoot (fun _ => leafInst 30000) (fun _ => 9000)
        8192 10240 := by
  have hlive : LiveFrames twoFrames [4180, 4096] (fun _ => leafInst 20000) calledFrames := {
    bottom := by decide
    linked := ⟨rfl, by decide, rfl, by decide, rfl⟩
    tiled := ⟨rfl, by decide, rfl, by decide, rfl⟩
    room := by simp [twoFrames, idle]
    entries := rfl
    pool := by simp [twoFrames]
    stackSize := by decide
    kinds := by
      intro a ha
      rcases List.mem_cons.1 ha with rfl | ha
      · exact .inr (.inr ⟨1, 1, leafFrame_code 4180⟩)
      · obtain rfl := List.mem_singleton.1 ha
        exact .inl ⟨rfl, rfl, rfl⟩ }
  have hready : ReadyFrames twoFrames [4180, 4096] (fun _ => leafInst 20000) calledFrames leafRoot (fun _ => leafInst 30000)
      (fun _ => 9000) 8192 10240 := {
    bottom := by decide
    stackSize := by decide
    address := by decide
    found := by
      intro a ha hne
      rcases List.mem_cons.1 ha with rfl | ha
      · exact ⟨by decide, _, leafRoot_find, rfl⟩
      · obtain rfl := List.mem_singleton.1 ha
        exact absurd rfl hne
    funcs := fun _ _ _ => ⟨rfl, by decide⟩ }
  refine ⟨hlive, hready, fun hrt => ?_⟩
  obtain ⟨k, n, hc⟩ := isCodeFrame_of_roundTrip hlive hready hrt (a := 4096) (by simp)
  exact hc.function rfl

end WamrMigrate.Interp
