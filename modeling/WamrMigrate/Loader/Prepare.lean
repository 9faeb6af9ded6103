import WamrMigrate.Loader.Context

/-!
# wasm_loader_prepare_bytecode

One pass over a function body that validates it and rewrites it where it stands. The build has one table, no reference types, no bulk memory, no
shared memory, no tail calls, and interprets the body itself: `WASM_ENABLE_FAST_INTERP`, `WASM_ENABLE_JIT` and `WASM_ENABLE_WAMR_COMPILER` are 0.
Allocations of the two stacks are taken to succeed. A block type that is an index is rewritten two bytes back from the byte read next, which is the
opcode only if the index took one byte.
-/

namespace WamrMigrate.Loader

/-- `WASMGlobal` and `WASMGlobalImport`, as far as a body is concerned. -/
structure Global where
  type : ValueType
  isMutable : Bool
  deriving DecidableEq, Repr

/-- `WASMModule`, as far as the bodies of its functions are concerned: functions by their types. -/
structure Module where
  types : List FuncType := []
  importFunctions : List FuncType := []
  functions : List FuncType := []
  importGlobals : List Global := []
  globals : List Global := []
  tableCount : Nat := 0
  memoryCount : Nat := 0
  auxStackSize : Nat := 0
  auxStackTopGlobalIndex : Nat := 0
  deriving DecidableEq, Repr

namespace Module

/-- The type of a function, imported ones first, after `check_function_index`. -/
def funcType (m : Module) (idx : Nat) : Except String FuncType :=
  if m.importFunctions.length + m.functions.length ≤ idx then .error ("unknown function " ++ toString idx)
  else if idx < m.importFunctions.length then .ok (m.importFunctions.getD idx ⟨[], []⟩)
  else .ok (m.functions.getD (idx - m.importFunctions.length) ⟨[], []⟩)

/-- A global, imported ones first, after the check of its index. -/
def global (m : Module) (idx : Nat) : Except String Global :=
  if m.importGlobals.length + m.globals.length ≤ idx then .error "unknown global"
  else if idx < m.importGlobals.length then .ok (m.importGlobals.getD idx ⟨.i32, false⟩)
  else .ok (m.globals.getD (idx - m.importGlobals.length) ⟨.i32, false⟩)

/-- A type, after the check of its index. -/
def type (m : Module) (idx : Nat) : Except String FuncType :=
  match m.types[idx]? with
  | some t => .ok t
  | none => .error "unknown type"

/-- `check_memory`. The counts are those of imported and defined ones together. -/
def checkMemory (m : Module) : Except String Unit := if m.memoryCount = 0 then .error "unknown memory" else .ok ()

/-- `check_table_index`. -/
def checkTableIndex (m : Module) (idx : Nat) : Except String Unit :=
  if idx ≠ 0 then .error "zero byte expected"
  else if m.tableCount ≤ idx then .error ("unknown table " ++ toString idx)
  else .ok ()

end Module

/-- `WASMFunction`: `localOffset` is `local_offsets`, a table of the cells at which parameters and locals start. The body is given by where
it stands in memory: `base` is the address `code`. -/
structure Func where
  type : FuncType
  localTypes : List ValueType := []
  localOffset : Nat → Nat := fun _ => 0
  code : Code
  base : Nat := 0
  codeSize : Nat

/-- The address behind the body. -/
def Func.codeEnd (f : Func) : Nat := f.base + f.codeSize

/-- The type of a parameter or local, after the check of its index. -/
def Func.localType (f : Func) (idx : Nat) : Except String ValueType :=
  if f.type.params.length + f.localTypes.length ≤ idx then .error "unknown local"
  else if idx < f.type.params.length then .ok (f.type.params.getD idx .i32)
  else .ok (f.localTypes.getD (idx - f.type.params.length) .i32)

/-- What the pass keeps: the position of the next byte, the code, the stacks, and what it notes about the function and the module. -/
structure State where
  p : Nat
  code : Code
  ctx : Ctx
  hasOpFuncCall : Bool := false
  hasOpMemoryGrow : Bool := false
  possibleMemoryGrow : Bool := false

/-- How a round of the loop ends: with another one to come, or after the `end` that closes the function. -/
inductive Round where
  | next (s : State)
  | closed (s : State)

/-- `*p = b`. -/
def writeByte (code : Code) (p : Nat) (b : UInt8) : Code := Function.update code p b

/-- `while (p < q) *p++ = WASM_OP_NOP`. -/
def fillNop (code : Code) (p q : Nat) : Code := fun k => if p ≤ k ∧ k < q then Opcode.nop.toByte else code k

/-- Two hexadecimal digits, or more where the number needs them. -/
def hex (n : Nat) : String :=
  let digits := String.ofList (Nat.toDigits 16 n)
  if digits.length < 2 then "0" ++ digits else digits

section

variable (m : Module) (f : Func)

/-- The block type at `p`, the types it stands for, and the position behind it. -/
def readBlockType (code : Code) (p : Nat) : Except String (BlockType × FuncType × Nat) :=
  match BlockType.ofByte (code p) with
  | some t => .ok (t, ⟨[], t.results⟩, p + 1)
  | none => do
    let (idx, p) ← readLebUint32 code f.codeEnd p
    let type ← m.type idx
    return (.index idx, type, p)

/-- The byte of a local access that names the cell: its highest bit says that the local takes two. -/
def fastByte (type : ValueType) (offset : Nat) : UInt8 :=
  if type.is64bit then UInt8.ofNat (offset ||| 0x80) else UInt8.ofNat offset

/-- The bytes that the handling of a local access leaves in place of `[pOrg, p)`. -/
def rewriteLocal (a : LocalAccess) (type : ValueType) (offset : Nat) (code : Code) (pOrg p : Nat) : Code :=
  if offset < 0x80 then
    fillNop (writeByte (writeByte code pOrg (Opcode.localFast a).toByte) (pOrg + 1) (fastByte type offset)) (pOrg + 2) p
  else code

/-- `block`, `loop` and `if`, from their block type on. -/
def blockOp (k : BlockKind) (s : State) : Except String Round := do
  let (blockType, type, p) ← readBlockType m f s.code s.p
  let code :=
    match blockType with
    | .index _ => writeByte s.code (p - 2) (Opcode.extBlock k).toByte
    | _ => s.code
  let ctx ← s.ctx.popTypes type.params
  return .next { s with p, code, ctx := (ctx.pushFrameCsp (.block k) type).pushTypes type.params }

/-- `else`. -/
def elseOp (s : State) : Except String Round := do
  failIf (s.ctx.cspNum < 2 ∨ s.ctx.cur.labelType ≠ .block .ite) "opcode else found without matched opcode if"
  let ctx ← s.ctx.checkBlockStack
  let ctx := { ctx with cur := { ctx.cur with elseAddr := some (s.p - 1) } }
  return .next { s with ctx := (ctx.resetStack.setPolymorphic false).pushTypes ctx.cur.type.params }

/-- `end`. The state that is cleared after an inner block was closed is the one of the block around it. -/
def endOp (s : State) : Except String Round := do
  let ctx ← s.ctx.checkBlockStack
  let cur := ctx.cur
  failIf (cur.labelType = .block .ite ∧ cur.elseAddr = none ∧ cur.type.params ≠ cur.type.results)
    "type mismatch: else branch missing"
  match ctx.outer with
  | [] => return .closed { s with p := f.codeEnd, ctx }
  | b :: bs => return .next { s with ctx := { ctx with cur := b, outer := bs, above := cur :: ctx.above }.setPolymorphic false }

/-- `check_branch_block`. -/
def checkBranchBlock (code : Code) (ctx : Ctx) (p : Nat) : Except String (Ctx × Nat × Nat) := do
  let (depth, p) ← readLebUint32 code f.codeEnd p
  let ctx ← ctx.checkBr depth
  return (ctx, depth, p)

/-- The types by which the targets of a `br_table` are compared: a loop counts as having none. The block of the target is found with the
depth itself, which for the largest one lies far outside the stack. -/
def tableTypes (ctx : Ctx) (depth : Nat) : Except String (List ValueType) := do
  failIf (depth + 1 = 2 ^ 32) "segmentation fault"
  let block ← ctx.target depth
  return if block.labelType = .block .loop then [] else block.type.results

/-- The loop over the targets of a `br_table` after the first one, whose types are `retTypes`. -/
def tableTargets (code : Code) (retTypes : List ValueType) : Nat → Ctx → Nat → Except String (Ctx × Nat)
  | 0, ctx, p => .ok (ctx, p)
  | n + 1, ctx, p => do
    let (ctx, depth, p) ← checkBranchBlock f code ctx p
    let types ← tableTypes ctx depth
    failIf (types ≠ retTypes) "type mismatch: br_table targets must all use same result type"
    tableTargets code retTypes n ctx p

/-- A call of a function of this type. -/
def callOp (type : FuncType) (p : Nat) (s : State) : Except String Round := do
  let ctx ← s.ctx.popTypes type.params
  return .next { s with p, ctx := ctx.pushTypes type.results, hasOpFuncCall := true }

/-- `drop`. -/
def dropOp (s : State) : Except String Round := do
  if s.ctx.available ≤ 0 then
    if s.ctx.cur.isStackPolymorphic then return .next s
    else throw "type mismatch, opcode drop was found but stack was empty"
  else
    match s.ctx.frameRef with
    | .type t :: _ =>
      let ctx := { s.ctx with frameRef := s.ctx.frameRef.drop t.cellNum }
      let code := if t.is64bit then writeByte s.code (s.p - 1) Opcode.drop64.toByte else s.code
      return .next { s with code, ctx }
    | _ => throw "type mismatch"

/-- `select`. -/
def selectOp (s : State) : Except String Round := do
  let ctx ← s.ctx.popFrameRef .i32
  if ctx.available ≤ 0 then
    if ctx.cur.isStackPolymorphic then return .next { s with ctx := ctx.pushCells [.any] }
    else throw "type mismatch or invalid result arity, opcode select was found but stack was empty"
  else
    match ctx.frameRef with
    | .type t :: _ =>
      let code := if t.is64bit then writeByte s.code (s.p - 1) Opcode.select64.toByte else s.code
      let ctx ← ctx.pushPopFrameRef ⟨2, t, t⟩
      return .next { s with code, ctx }
    | _ => throw "type mismatch"

/-- What an access to a local of this type does to the operands. -/
def localOperands (type : ValueType) (ctx : Ctx) : LocalAccess → Except String Ctx
  | .get => return ctx.pushFrameRef type
  | .set => ctx.popFrameRef type
  | .tee => do
    let ctx ← ctx.popFrameRef type
    return ctx.pushFrameRef type

/-- `get_local`, `set_local` and `tee_local`. -/
def localOp (a : LocalAccess) (s : State) : Except String Round := do
  let (idx, p) ← readLebUint32 s.code f.codeEnd s.p
  let type ← f.localType idx
  let ctx ← localOperands type s.ctx a
  return .next { s with p, ctx, code := rewriteLocal a type (f.localOffset idx) s.code (s.p - 1) p }

/-- `get_global`. -/
def getGlobalOp (s : State) : Except String Round := do
  let (idx, p) ← readLebUint32 s.code f.codeEnd s.p
  let g ← m.global idx
  let code := if g.type.is64bit then writeByte s.code (s.p - 1) Opcode.getGlobal64.toByte else s.code
  return .next { s with p, code, ctx := s.ctx.pushFrameRef g.type }

/-- `set_global`. -/
def setGlobalOp (s : State) : Except String Round := do
  let (idx, p) ← readLebUint32 s.code f.codeEnd s.p
  let g ← m.global idx
  failIf (g.isMutable = false) "global is immutable"
  let ctx ← s.ctx.popFrameRef g.type
  let code :=
    if g.type.is64bit then writeByte s.code (s.p - 1) Opcode.setGlobal64.toByte
    else if 0 < m.auxStackSize ∧ idx = m.auxStackTopGlobalIndex then
      writeByte s.code (s.p - 1) Opcode.setGlobalAuxStack.toByte
    else s.code
  return .next { s with p, code, ctx }

/-- What a load or store does to the operands. -/
def memoryOperands (sig : MemorySig) (ctx : Ctx) : Except String Ctx :=
  if sig.store then ctx.popTypes [.i32, sig.type] else ctx.pushPopFrameRef ⟨1, .i32, sig.type⟩

/-- The loads and stores. -/
def memoryOp (sig : MemorySig) (s : State) : Except String Round := do
  m.checkMemory
  let (align, p) ← readLebUint32 s.code f.codeEnd s.p
  let (_, p) ← readLebUint32 s.code f.codeEnd p
  failIf (sig.align < align) "alignment must not be larger than natural"
  let ctx ← memoryOperands sig s.ctx
  return .next { s with p, ctx }

/-- A round of the loop, with the opcode that was read and `p` behind it. -/
def dispatch (opcode : UInt8) (s : State) : Except String Round := do
  let unsupported : Except String Round := .error ("unsupported opcode " ++ hex opcode.toNat)
  match Opcode.ofByte opcode with
  | some .unreachable => return .next { s with ctx := s.ctx.resetStack.setPolymorphic true }
  | some .nop => return .next s
  | some (.block .ite) => do
    let ctx ← s.ctx.popFrameRef .i32
    blockOp m f .ite { s with ctx }
  | some (.block k) => blockOp m f k s
  | some .else_ => elseOp s
  | some .end_ => endOp f s
  | some .br => do
    let (ctx, _, p) ← checkBranchBlock f s.code s.ctx s.p
    return .next { s with p, ctx := ctx.resetStack.setPolymorphic true }
  | some .brIf => do
    let ctx ← s.ctx.popFrameRef .i32
    let (ctx, _, p) ← checkBranchBlock f s.code ctx s.p
    return .next { s with p, ctx }
  | some .brTable => do
    let (count, p) ← readLebUint32 s.code f.codeEnd s.p
    let ctx ← s.ctx.popFrameRef .i32
    let (ctx, depth, p) ← checkBranchBlock f s.code ctx p
    let retTypes ← tableTypes ctx depth
    let (ctx, p) ← tableTargets f s.code retTypes count ctx p
    return .next { s with p, ctx := ctx.resetStack.setPolymorphic true }
  | some .return_ => do
    let ctx ← s.ctx.popTypes f.type.results
    return .next { s with ctx := ctx.resetStack.setPolymorphic true }
  | some .call => do
    let (idx, p) ← readLebUint32 s.code f.codeEnd s.p
    let type ← m.funcType idx
    callOp type p s
  | some .callIndirect => do
    let (idx, p) ← readLebUint32 s.code f.codeEnd s.p
    failIf (f.codeEnd < p + 1) "unexpected end of section or function"
    m.checkTableIndex (s.code p).toNat
    let ctx ← s.ctx.popFrameRef .i32
    let type ← m.type idx
    callOp type (p + 1) { s with ctx }
  | some .drop | some .drop64 => dropOp s
  | some .select | some .select64 => selectOp s
  | some (.local_ a) => localOp f a s
  | some .getGlobal => getGlobalOp m f s
  | some .setGlobal => setGlobalOp m f s
  | some (.memory _ sig) => memoryOp m f sig s
  | some .memorySize => do
    m.checkMemory
    failIf (s.code s.p ≠ 0) "zero byte expected"
    return .next { s with p := s.p + 1, ctx := s.ctx.pushFrameRef .i32, possibleMemoryGrow := true }
  | some .memoryGrow => do
    m.checkMemory
    failIf (s.code s.p ≠ 0) "zero byte expected"
    let ctx ← s.ctx.pushPopFrameRef ⟨1, .i32, .i32⟩
    return .next { s with p := s.p + 1, ctx, hasOpMemoryGrow := true, possibleMemoryGrow := true }
  | some .i32Const => do
    let (_, p) ← readLebInt32 s.code f.codeEnd s.p
    return .next { s with p, ctx := s.ctx.pushFrameRef .i32 }
  | some .i64Const => do
    let (_, p) ← readLebInt64 s.code f.codeEnd s.p
    return .next { s with p, ctx := s.ctx.pushFrameRef .i64 }
  | some .f32Const => return .next { s with p := s.p + 4, ctx := s.ctx.pushFrameRef .f32 }
  | some .f64Const => return .next { s with p := s.p + 8, ctx := s.ctx.pushFrameRef .f64 }
  | some (.numeric _ sig) => do
    let ctx ← s.ctx.pushPopFrameRef sig
    return .next { s with ctx }
  | some .miscPrefix => do
    let (opcode1, p) ← readLebUint32 s.code f.codeEnd s.p
    match miscSig opcode1 with
    | some sig => do
      let ctx ← s.ctx.pushPopFrameRef sig
      return .next { s with p, ctx }
    | none => throw ("unsupported opcode fc " ++ hex opcode1)
  | some (.extBlock _) | some (.localFast _) | some .getGlobal64 | some .setGlobal64 | some .setGlobalAuxStack => unsupported
  | none => unsupported

/-- A round of the loop. -/
def step (s : State) : Except String Round := dispatch m f (s.code s.p) { s with p := s.p + 1 }

/-- The loop, which ends with the function's last `end` or with the code. The first argument bounds the number of rounds: each of them
takes a byte. -/
def loop : Nat → State → Except String State
  | 0, _ => .error "function body must end with END opcode"
  | n + 1, s =>
    if s.p < f.codeEnd then do
      match ← step m f s with
      | .next s => loop n s
      | .closed s => return s
    else .error "function body must end with END opcode"

/-- The state in front of the loop: the block of the function is open. -/
def start : State :=
  { p := f.base, code := f.code, ctx := { cur := { labelType := .function, type := f.type } } }

/-- `wasm_loader_prepare_bytecode`: the state it ends in, with the rewritten code. -/
def prepareBytecode : Except String State := loop m f (f.codeSize + 1) (start f)

end

end WamrMigrate.Loader
