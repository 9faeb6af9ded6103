import WamrMigrate.Image.Registry

/-!
# The frames of the wasm stack

`ALLOC_FRAME` takes a frame from the wasm stack and registers it, `FREE_FRAME` gives it back. They are called by `wasm_interp_call_wasm` for a host
call, by `wasm_interp_call_func_bytecode` and by `wasm_interp_call_func_native`, which call each other. A machine is what they share: the stack, the
frames, the registry, and the local variables of the calls in progress.
-/

namespace WamrMigrate.Interp

open Image

/-- The cell counts of a `WASMFunctionInstance` and of its `WASMFunction`. -/
structure Func where
  isImportFunc : Bool
  paramCellNum : UInt16
  localCellNum : UInt16
  retCellNum : UInt16
  maxStackCellNum : UInt32
  maxBlockNum : UInt32
  deriving DecidableEq

/-- `all_cell_num` in `call_func_from_entry`; a `WASMBranchBlock` has 32 bytes. -/
def Func.allCellNum (f : Func) : Nat :=
  f.paramCellNum.toNat + f.localCellNum.toNat + f.maxStackCellNum.toNat + f.maxBlockNum.toNat * 32 / 4

/-- `wasm_interp_interp_frame_size`, in 32 bits; the fields before `lp` have 72 bytes. -/
def interpFrameSize (allCellNum : Nat) : Nat := ((72 + allCellNum * 5) % 2 ^ 32 + 3) % 2 ^ 32 / 4 * 4

/-- The fields of a frame that matter here. `size` is what it was allocated with, which the frame does not keep. -/
structure FrameFields where
  prevFrame : Nat
  function : Option Func
  /-- Whether `ip` is not NULL. -/
  ip : Bool
  size : Nat

/-- A call in progress, with its local variables. -/
inductive Act where
  /-- `wasm_interp_call_wasm`; `started` once it has called the function. -/
  | host (prevFrame frame : Nat) (function : Func) (started : Bool)
  /-- `wasm_interp_call_func_bytecode`; `frame` is NULL until the function has been entered. -/
  | code (frame prevFrame : Nat)
  /-- `wasm_interp_call_func_native`. -/
  | native (frame prevFrame : Nat)
  deriving DecidableEq

/-- The wasm stack of an execution environment, its current frame, the frames, the registry, and the calls in progress, the innermost
first. -/
structure Machine where
  bottom : Nat
  topBoundary : Nat
  top : Nat
  curFrame : Nat
  frames : Nat → FrameFields
  registry : Registry
  acts : List Act

/-- The registry entry of a frame. -/
def frameEntry (pool addr size : Nat) : PoolInfo := ⟨absOf pool addr, addr, UInt32.ofNat size, .wasmInterpFrameT, [], 0⟩

namespace Machine

variable (m : Machine)

/-- Write the fields of a frame. -/
def setFrame (addr : Nat) (f : FrameFields) : Machine := { m with frames := Function.update m.frames addr f }

/-- `ALLOC_FRAME`, with the `function` and `ip` that its callers set next; NULL when the stack is full. The size is doubled in 32
bits. -/
def allocFrame (size prevFrame : Nat) (function : Option Func) (ip : Bool) : Option (Nat × Machine) :=
  if m.topBoundary < m.top + size * 2 % 2 ^ 32 then none
  else some (m.top, { m.setFrame m.top ⟨prevFrame, function, ip, size⟩ with
    top := m.top + size
    registry := { m.registry with rootInfo := frameEntry m.registry.pool m.top size :: m.registry.rootInfo } })

/-- `FREE_FRAME`; the process ends when the frame is not registered. -/
def freeFrame (frame : Nat) : Option Machine := (m.registry.freeInfo frame).map fun R => { m with top := frame, registry := R }

/-- `call_func_from_entry` for a wasm function: a new frame, or the end of the call with an exception. -/
def enterCode (f : Func) (prevFrame : Nat) (rest : List Act) : Machine :=
  if 2 ^ 32 - 1 ≤ f.allCellNum then { m with acts := rest }
  else
    -- `ip` is set when the function calls another one
    match m.allocFrame (interpFrameSize f.allCellNum) prevFrame (some f) (m.frames m.top).ip with
    | none => { m with acts := rest }
    | some (frame, m) => { m with curFrame := frame, acts := .code frame prevFrame :: rest }

/-- `wasm_interp_call_func_native`, up to the call of the native function. -/
def enterNative (f : Func) (prevFrame : Nat) : Option Machine :=
  (m.allocFrame (interpFrameSize 2) prevFrame (some f) false).map fun (frame, m) =>
    { m with curFrame := frame, acts := .native frame prevFrame :: m.acts }

end Machine

/-- What can happen next. -/
inductive Event where
  /-- The host, or a native function, calls a function. -/
  | hostCall (f : Func)
  /-- `wasm_interp_call_wasm` goes on to the function it was called for. -/
  | start
  /-- The first instruction of `wasm_interp_call_func_bytecode` enters the function. -/
  | enter
  /-- An instruction calls a function. -/
  | call (f : Func)
  /-- The native function is back, with an exception or without. -/
  | nativeReturn (ok : Bool)
  /-- The function returns. -/
  | ret
  /-- An instruction raises an exception. -/
  | trap
  /-- `wasm_interp_call_wasm` is back from the function. -/
  | hostReturn
  /-- A block is registered. -/
  | register (e : PoolInfo)
  /-- A block is removed from the registry. -/
  | free (addr : Nat)

/-- The exception that a failed native call leaves ends the call of the function around it. -/
def unwind : List Act → List Act
  | .code _ _ :: rest => rest
  | acts => acts

/-- One step of the machine; `none` where the event cannot happen, or the process ends. -/
def step (m : Machine) : Event → Option Machine
  | .hostCall f =>
    match m.acts with
    | [] | .native _ _ :: _ =>
      match m.allocFrame (interpFrameSize (max f.retCellNum.toNat 2)) m.curFrame none false with
      | none => some m
      | some (frame, m') => some { m' with curFrame := frame, acts := .host m.curFrame frame f false :: m.acts }
    | _ => none
  | .start =>
    match m.acts with
    | .host p frame f false :: rest =>
      let m := { m with acts := .host p frame f true :: rest }
      if f.isImportFunc then some ((m.enterNative f frame).getD m) else some { m with acts := .code 0 frame :: m.acts }
    | _ => none
  | .enter =>
    match m.acts with
    | .code 0 p :: .host p' frame f s :: rest => some (m.enterCode f p (.host p' frame f s :: rest))
    | _ => none
  | .call f =>
    match m.acts with
    | .code frame _ :: rest =>
      if frame = 0 then none
      else
        -- `SYNC_ALL_TO_FRAME`
        let m := m.setFrame frame { m.frames frame with ip := true }
        if f.isImportFunc then some ((m.enterNative f frame).getD { m with acts := rest }) else some (m.enterCode f frame rest)
    | _ => none
  | .nativeReturn ok =>
    match m.acts with
    | .native frame p :: rest =>
      if ok then (m.freeFrame frame).map fun m => { m with curFrame := p, acts := rest }
      else some { m with acts := unwind rest }
    | _ => none
  | .ret =>
    match m.acts with
    | .code frame p :: rest =>
      if frame = 0 then none
      else (m.freeFrame frame).map fun m =>
        if (m.frames p).ip then { m with curFrame := p, acts := .code p (m.frames p).prevFrame :: rest }
        else { m with curFrame := p, acts := rest }
    | _ => none
  | .trap =>
    match m.acts with
    | .code frame _ :: rest => if frame = 0 then none else some { m with acts := rest }
    | _ => none
  | .hostReturn =>
    match m.acts with
    | .host p frame _ true :: rest => (m.freeFrame frame).map fun m' => { m' with curFrame := p, acts := rest }
    | _ => none
  | .register e =>
    if e.type = .wasmInterpFrameT ∨ m.bottom ≤ e.pRaw ∧ e.pRaw ≤ m.topBoundary then none
    else some { m with registry := { m.registry with rootInfo := e :: m.registry.rootInfo } }
  | .free addr =>
    if m.bottom ≤ addr ∧ addr ≤ m.topBoundary then none
    else (m.registry.freeInfo addr).map fun R => { m with registry := R }

end WamrMigrate.Interp
