import WamrMigrate.Loader.ImportSection

/-!
# Index spaces

Functions, globals and tables are counted with the imported ones first. The validator takes this into account at each lookup, but
`get_table_elem_type` adds the number of imports to the index of a table where it had to subtract it. The validator is modelled with the answers to
its lookups (`Lookups`): once those of the source, once the entries of the imports followed by the definitions. Opcodes that look nothing up are
left open (`other`), except a few that make up bodies to tell both apart. The build may have reference types and tail calls. Types are bytes here.
-/

namespace WamrMigrate.Loader

/-! ## The module -/

/-- `WASMGlobal` and `WASMGlobalImport`, with the byte of the type. -/
structure GlobalDecl where
  type : UInt8
  isMutable : Bool

/-- `WASMTableSeg`: `isDeclarative` is `wasm_elem_is_declarative` of its mode. -/
structure TableSeg where
  elemType : UInt8
  isDeclarative : Bool
  funcIndexes : List Nat

/-- `WASMModule`, as far as lookups are concerned. Tables are given by the types of their elements. `behindTables` are the bytes that are read as such a type
behind the array `tables`. The numbers of imports and definitions are bounded by the bytes that each of them takes in a file. -/
structure IndexedModule where
  refTypes : Option Bool
  tailCall : Bool
  types : List WasmType
  importFunctions : List WasmType
  functions : List WasmType
  importGlobals : List GlobalDecl
  globals : List GlobalDecl
  importTables : List UInt8
  tables : List UInt8
  behindTables : Nat → UInt8
  tableSegments : List TableSeg
  auxStackSize : Nat
  auxStackTopGlobalIndex : Nat
  functions_lt : importFunctions.length + functions.length < 2 ^ 32
  globals_lt : importGlobals.length + globals.length < 2 ^ 32
  tables_lt : 2 * importTables.length + tables.length < 2 ^ 32

/-- A `uint32` as `%d` prints it. -/
def printInt (n : Nat) : String := toString (BitVec.ofNat 32 n).toInt

/-- What the validator asks for: whether an index is in its space, and what is declared there. -/
structure Lookups where
  checkFunctionIndex : Nat → Except String Unit
  functionType : Nat → Except String WasmType
  global : Nat → Except String GlobalDecl
  checkTableIndex : Nat → Except String Unit
  tableElemType : Nat → Except String UInt8

/-- An entry of an array of this length. -/
def entry {α : Type} (xs : List α) (i : Nat) : Except String α := (xs[i]?).elim (.error "segmentation fault") .ok

namespace IndexedModule
variable (m : IndexedModule)

/-- `check_function_index`. -/
def checkFunctionIndex (idx : Nat) : Except String Unit :=
  failIf ((m.importFunctions.length + m.functions.length) % 2 ^ 32 ≤ idx) ("unknown function " ++ printInt idx)

/-- The type of a function in `call`. -/
def functionType (idx : Nat) : Except String WasmType := do
  m.checkFunctionIndex idx
  if idx < m.importFunctions.length then entry m.importFunctions idx else entry m.functions (idx - m.importFunctions.length)

/-- The global in `global.get` and `global.set`. -/
def global (idx : Nat) : Except String GlobalDecl := do
  failIf ((m.importGlobals.length + m.globals.length) % 2 ^ 32 ≤ idx) "unknown global"
  if idx < m.importGlobals.length then entry m.importGlobals idx else entry m.globals (idx - m.importGlobals.length)

/-- `check_table_index`. -/
def checkTableIndex (idx : Nat) : Except String Unit := do
  failIf (m.refTypes ≠ some true ∧ idx ≠ 0) "zero byte expected"
  failIf ((m.importTables.length + m.tables.length) % 2 ^ 32 ≤ idx) ("unknown table " ++ printInt idx)

/-- `module->tables[i].elem_type`, also behind the end of the array. -/
def tableSlot (i : Nat) : UInt8 := (m.tables[i]?).getD (m.behindTables i)

/-- `get_table_elem_type`. -/
def getTableElemType (idx : Nat) : Except String UInt8 := do
  m.checkTableIndex idx
  if idx < m.importTables.length then entry m.importTables idx else .ok (m.tableSlot ((m.importTables.length + idx) % 2 ^ 32))

/-- The lookups as the source makes them. -/
def lookups : Lookups := ⟨m.checkFunctionIndex, m.functionType, m.global, m.checkTableIndex, m.getTableElemType⟩

/-- The entry at an index of the imports followed by the definitions. -/
def joint {α : Type} (imports definitions : List α) (msg : String) (idx : Nat) : Except String α :=
  ((imports ++ definitions)[idx]?).elim (.error msg) .ok

/-- The lookups in the joint index spaces. Without reference types the only table is the first one. -/
def jointLookups : Lookups where
  checkFunctionIndex idx := (joint m.importFunctions m.functions ("unknown function " ++ printInt idx) idx).map fun _ => ()
  functionType idx := joint m.importFunctions m.functions ("unknown function " ++ printInt idx) idx
  global := joint m.importGlobals m.globals "unknown global"
  checkTableIndex idx := do
    failIf (m.refTypes ≠ some true ∧ idx ≠ 0) "zero byte expected"
    (joint m.importTables m.tables ("unknown table " ++ printInt idx) idx).map fun _ => ()
  tableElemType idx := do
    failIf (m.refTypes ≠ some true ∧ idx ≠ 0) "zero byte expected"
    joint m.importTables m.tables ("unknown table " ++ printInt idx) idx

end IndexedModule

/-! ## The stacks -/

/-- `BranchBlock`. -/
structure IndexedBlock where
  labelType : LabelType
  params : List UInt8
  results : List UInt8
  elseAddr : Option Nat := none
  stackCellNum : Int := 0
  isStackPolymorphic : Bool := false

/-- `WASMLoaderContext`. A byte that is no type is popped without a check, so that the stack of types can fall below its bottom: `frameRef` has the memory there too. -/
structure IndexedCtx where
  frameRef : Int → UInt8
  stackCellNum : Int
  cur : IndexedBlock
  outer : List IndexedBlock

/-- `type2str`. -/
def typeStr (type : UInt8) : String :=
  if type = 0x7B then "v128" else if type = 0x7C then "f64" else if type = 0x7D then "f32" else if type = 0x7E then "i64" else if type = 0x7F then "i32"
  else if type = 0x70 then "funcref" else if type = 0x6F then "externref" else "unknown type"

section
variable (refTypes : Option Bool)

/-- `is_32bit_type`. -/
def is32bitType (type : UInt8) : Bool := type = 0x7F ∨ type = 0x7D ∨ refTypes = some true ∧ (type = 0x70 ∨ type = 0x6F)

/-- `is_64bit_type`. -/
def is64bitType (type : UInt8) : Bool := type = 0x7E ∨ type = 0x7C

/-- `wasm_value_type_cell_num` in a build with or without reference types. -/
def typeCellNum (type : UInt8) : Nat :=
  if type = 0x7F ∨ type = 0x7D ∨ refTypes.isSome ∧ (type = 0x70 ∨ type = 0x6F) then 1 else if is64bitType type then 2 else 0

/-- `check_stack_top_values`, with the top of the stack at `top`. -/
def checkTopValues (frameRef : Int → UInt8) (top stackCellNum : Int) (type : UInt8) : Except String Unit := do
  failIf (is32bitType refTypes type ∧ stackCellNum < 1 ∨ is64bitType type ∧ stackCellNum < 2) "type mismatch: expect data but stack was empty"
  failIf (is32bitType refTypes type ∧ frameRef (top - 1) ≠ type ∨ is64bitType type ∧ (frameRef (top - 2) ≠ type ∨ frameRef (top - 1) ≠ type))
    ("type mismatch: expect " ++ typeStr type ++ " but got other")

/-- The loop over `check_stack_top_values` in `check_block_stack`, which goes through the types from the last one on. -/
def checkTopTypes (frameRef : Int → UInt8) : List UInt8 → Int → Int → Except String Unit
  | [], _, _ => .ok ()
  | t :: ts, top, num => do
    checkTopValues refTypes frameRef top num t
    checkTopTypes frameRef ts (top - typeCellNum refTypes t) (num - typeCellNum refTypes t)

namespace IndexedCtx

/-- `stack_cell_num - cur_block->stack_cell_num`. -/
def available (c : IndexedCtx) : Int := c.stackCellNum - c.cur.stackCellNum

/-- `check_stack_pop`. -/
def checkStackPop (type : UInt8) (c : IndexedCtx) : Except String Unit :=
  if 0 < c.available ∧ c.frameRef (c.stackCellNum - 1) = 0x42 then .ok ()
  else checkTopValues refTypes c.frameRef c.stackCellNum c.available type

/-- `wasm_loader_pop_frame_ref`. -/
def popFrameRef (type : UInt8) (c : IndexedCtx) : Except String IndexedCtx :=
  if c.available ≤ 0 ∧ c.cur.isStackPolymorphic then .ok c
  else if type = 0x40 then .ok c
  else do
    c.checkStackPop refTypes type
    if is32bitType refTypes type ∨ c.frameRef (c.stackCellNum - 1) = 0x42 then return { c with stackCellNum := c.stackCellNum - 1 }
    else return { c with stackCellNum := c.stackCellNum - 2 }

/-- `wasm_loader_push_frame_ref`. -/
def pushFrameRef (type : UInt8) (c : IndexedCtx) : IndexedCtx :=
  if type = 0x40 then c
  else
    let frameRef := Function.update c.frameRef c.stackCellNum type
    if is32bitType refTypes type ∨ type = 0x42 then { c with frameRef, stackCellNum := c.stackCellNum + 1 }
    else { c with frameRef := Function.update frameRef (c.stackCellNum + 1) type, stackCellNum := c.stackCellNum + 2 }

/-- The loops that pop the types of a list, the last one first. -/
def popTypes : List UInt8 → IndexedCtx → Except String IndexedCtx
  | [], c => .ok c
  | t :: ts, c => do
    let c ← popTypes ts c
    c.popFrameRef refTypes t

/-- The loops that push the types of a list. -/
def pushTypes (types : List UInt8) (c : IndexedCtx) : IndexedCtx := types.foldl (fun c t => c.pushFrameRef refTypes t) c

/-- `RESET_STACK` and `SET_CUR_BLOCK_STACK_POLYMORPHIC_STATE(true)`. -/
def setUnreachable (c : IndexedCtx) : IndexedCtx :=
  { c with stackCellNum := c.cur.stackCellNum, cur := { c.cur with isStackPolymorphic := true } }

/-- `check_block_stack`, on the innermost block. -/
def checkBlockStack (c : IndexedCtx) : Except String IndexedCtx :=
  if c.cur.isStackPolymorphic then do
    let c ← c.popTypes refTypes c.cur.results
    failIf (c.stackCellNum ≠ c.cur.stackCellNum) "type mismatch: stack size does not match block type"
    return c.pushTypes refTypes c.cur.results
  else do
    failIf (c.available ≠ (c.cur.results.map (typeCellNum refTypes)).sum) "type mismatch: stack size does not match block type"
    checkTopTypes refTypes c.frameRef c.cur.results.reverse c.stackCellNum c.available
    return c

end IndexedCtx

end

/-! ## The validator -/

/-- What the pass keeps, among it `possible_grow` of the imported and of the defined tables. -/
structure IndexedState where
  p : Nat
  code : Code
  ctx : IndexedCtx
  hasOpFuncCall : Bool := false
  importTableGrow : Nat → Bool := fun _ => false
  tableGrow : Nat → Bool := fun _ => false

inductive IndexedRound
  | next (s : IndexedState)
  | closed (s : IndexedState)

/-- A function: its type, its index among the defined functions, and its body, which is followed by other memory. -/
structure IndexedFunc where
  type : WasmType
  curFuncIdx : Nat
  code : Code
  codeSize : Nat
  frameRef : Int → UInt8

/-- The opcodes that look something up, and three more. -/
inductive IndexOp
  | unreachable
  | end_
  | i32Const
  | call (tail : Bool)
  | callIndirect (tail : Bool)
  | getGlobal
  | setGlobal
  | tableGet
  | tableSet
  | refFunc
  | misc

def IndexOp.ofByte (tailCall : Bool) (b : UInt8) : Option IndexOp :=
  if b = 0x00 then some .unreachable else if b = 0x0B then some .end_ else if b = 0x41 then some .i32Const
  else if b = 0x10 then some (.call false) else if b = 0x11 then some (.callIndirect false)
  else if b = 0x12 ∧ tailCall then some (.call true) else if b = 0x13 ∧ tailCall then some (.callIndirect true)
  else if b = 0x23 then some .getGlobal else if b = 0x24 then some .setGlobal
  else if b = 0x25 then some .tableGet else if b = 0x26 then some .tableSet
  else if b = 0xD2 then some .refFunc else if b = 0xFC then some .misc
  else none

/-- The opcodes on tables behind the prefix. -/
inductive TableOp
  | init
  | copy
  | grow
  | size
  | fill

def TableOp.ofNat (n : Nat) : Option TableOp :=
  if n = 0x0C then some .init else if n = 0x0E then some .copy else if n = 0x0F then some .grow else if n = 0x10 then some .size
  else if n = 0x11 then some .fill else none

section
variable (m : IndexedModule) (L : Lookups) (f : IndexedFunc)

/-- A call of a function of this type, which ends the function if it is a tail call. -/
def indexedCall (type : WasmType) (tail : Bool) (s : IndexedState) : Except String IndexedRound := do
  let ctx ← s.ctx.popTypes m.refTypes type.params
  if tail then
    failIf (type.results.length ≠ f.type.results.length) ("type mismatch: expect " ++ toString f.type.results.length ++ " return values but got other")
    let mismatch := (f.type.results.zip type.results).find? fun (expected, t) => t ≠ expected
    mismatch.elim (.ok ()) fun (expected, _) => .error ("type mismatch: expect " ++ typeStr expected ++ " but got other")
    return .next { s with ctx := ctx.setUnreachable, hasOpFuncCall := true }
  else return .next { s with ctx := ctx.pushTypes m.refTypes type.results, hasOpFuncCall := true }

/-- The index of the table in `call_indirect`: a byte, or an integer with reference types. -/
def callTableIndex (code : Code) (p : Nat) : Except String (Nat × Nat) :=
  if m.refTypes = some true then readLebUint32 code f.codeSize p
  else do
    failIf (f.codeSize < p + 1) "unexpected end of section or function"
    return ((code p).toNat, p + 1)

/-- `end`. -/
def indexedEnd (s : IndexedState) : Except String IndexedRound := do
  let ctx ← s.ctx.checkBlockStack m.refTypes
  let cur := ctx.cur
  failIf (cur.labelType = .block .ite ∧ cur.elseAddr = none ∧ cur.params ≠ cur.results) "type mismatch: else branch missing"
  match ctx.outer with
  | [] => return .closed { s with p := f.codeSize, ctx }
  | b :: bs => return .next { s with ctx := { ctx with cur := { b with isStackPolymorphic := false }, outer := bs } }

/-- The function is in a declarative segment. -/
def isDeclared (idx : Nat) : Bool := m.tableSegments.any fun seg => seg.elemType = 0x70 ∧ seg.isDeclarative ∧ idx ∈ seg.funcIndexes

/-- `get_table_seg_elem_type`. -/
def getTableSegElemType (idx : Nat) : Except String UInt8 :=
  (m.tableSegments[idx]?).elim (.error (if m.refTypes = some true then "unknown elem segment " ++ toString idx else "unknown table segment")) fun seg => .ok seg.elemType

/-- `possible_grow` of a table is set. -/
def markGrow (idx : Nat) (s : IndexedState) : IndexedState :=
  if idx < m.importTables.length then { s with importTableGrow := Function.update s.importTableGrow idx true }
  else { s with tableGrow := Function.update s.tableGrow (idx - m.importTables.length) true }

/-- The instructions on tables behind the prefix, with `p` behind the opcode. -/
def tableOp (op : TableOp) (s : IndexedState) : Except String IndexedRound :=
  match op with
  | .init => do
    let (segIdx, p) ← readLebUint32 s.code f.codeSize s.p
    let (idx, p) ← readLebUint32 s.code f.codeSize p
    let tblRefType ← L.tableElemType idx
    let segRefType ← getTableSegElemType m segIdx
    failIf (segRefType ≠ tblRefType) "type mismatch"
    let ctx ← s.ctx.popTypes m.refTypes [0x7F, 0x7F, 0x7F]
    return .next { s with p, ctx }
  | .copy => do
    let (srcIdx, p) ← readLebUint32 s.code f.codeSize s.p
    let srcRefType ← L.tableElemType srcIdx
    let (dstIdx, p) ← readLebUint32 s.code f.codeSize p
    let dstRefType ← L.tableElemType dstIdx
    failIf (srcRefType ≠ dstRefType) "type mismatch"
    let ctx ← s.ctx.popTypes m.refTypes [0x7F, 0x7F, 0x7F]
    return .next { s with p, ctx }
  | .size => do
    let (idx, p) ← readLebUint32 s.code f.codeSize s.p
    L.checkTableIndex idx
    return .next { s with p, ctx := s.ctx.pushFrameRef m.refTypes 0x7F }
  | .grow => do
    let (idx, p) ← readLebUint32 s.code f.codeSize s.p
    let declRefType ← L.tableElemType idx
    let s := markGrow m idx s
    let ctx ← s.ctx.popTypes m.refTypes [declRefType, 0x7F]
    return .next { s with p, ctx := ctx.pushFrameRef m.refTypes 0x7F }
  | .fill => do
    let (idx, p) ← readLebUint32 s.code f.codeSize s.p
    let declRefType ← L.tableElemType idx
    let ctx ← s.ctx.popTypes m.refTypes [0x7F, declRefType, 0x7F]
    return .next { s with p, ctx }

/-- A round for an opcode that was read at `pOrg`, with `s.p` behind it. -/
def indexOp (other : IndexedState → Except String IndexedRound) (pOrg : Nat) (s : IndexedState) : IndexOp → Except String IndexedRound
  | .unreachable => return .next { s with ctx := s.ctx.setUnreachable }
  | .end_ => indexedEnd m f s
  | .i32Const => do
    let (_, p) ← readLebInt32 s.code f.codeSize s.p
    return .next { s with p, ctx := s.ctx.pushFrameRef m.refTypes 0x7F }
  | .call tail => do
    let (idx, p) ← readLebUint32 s.code f.codeSize s.p
    let type ← L.functionType idx
    indexedCall m f type tail { s with p }
  | .callIndirect tail => do
    let (typeIdx, p) ← readLebUint32 s.code f.codeSize s.p
    let (tableIdx, p) ← callTableIndex m f s.code p
    L.checkTableIndex tableIdx
    let ctx ← s.ctx.popFrameRef m.refTypes 0x7F
    let type ← (m.types[typeIdx]?).elim (.error "unknown type") .ok
    indexedCall m f type tail { s with p, ctx }
  | .getGlobal => do
    let (idx, p) ← readLebUint32 s.code f.codeSize s.p
    let g ← L.global idx
    let code := if is64bitType g.type then writeByte s.code pOrg Opcode.getGlobal64.toByte else s.code
    return .next { s with p, code, ctx := s.ctx.pushFrameRef m.refTypes g.type }
  | .setGlobal => do
    let (idx, p) ← readLebUint32 s.code f.codeSize s.p
    let g ← L.global idx
    failIf (g.isMutable = false) "global is immutable"
    let ctx ← s.ctx.popFrameRef m.refTypes g.type
    let code :=
      if is64bitType g.type then writeByte s.code pOrg Opcode.setGlobal64.toByte
      else if 0 < m.auxStackSize ∧ idx = m.auxStackTopGlobalIndex then writeByte s.code pOrg Opcode.setGlobalAuxStack.toByte
      else s.code
    return .next { s with p, code, ctx }
  | .tableGet => do
    failIf (m.refTypes ≠ some true) "unsupported opcode 25"
    let (idx, p) ← readLebUint32 s.code f.codeSize s.p
    let declRefType ← L.tableElemType idx
    let ctx ← s.ctx.popFrameRef m.refTypes 0x7F
    return .next { s with p, ctx := ctx.pushFrameRef m.refTypes declRefType }
  | .tableSet => do
    failIf (m.refTypes ≠ some true) "unsupported opcode 26"
    let (idx, p) ← readLebUint32 s.code f.codeSize s.p
    let declRefType ← L.tableElemType idx
    let ctx ← s.ctx.popTypes m.refTypes [0x7F, declRefType]
    return .next { s with p, ctx }
  | .refFunc => do
    failIf (m.refTypes ≠ some true) "unsupported opcode d2"
    let (idx, p) ← readLebUint32 s.code f.codeSize s.p
    L.checkFunctionIndex idx
    -- `cur_func_idx` does not count the imported functions, `idx` does
    failIf (idx = f.curFuncIdx ∧ isDeclared m f.curFuncIdx = false) "undeclared function reference"
    return .next { s with p, ctx := s.ctx.pushFrameRef m.refTypes 0x70 }
  | .misc => do
    let (opcode1, p) ← readLebUint32 s.code f.codeSize s.p
    match TableOp.ofNat opcode1 with
    | some op =>
      failIf (m.refTypes = none) ("unsupported opcode fc " ++ hex opcode1)
      failIf (m.refTypes = some false) "unsupported opcode fc"
      tableOp m L f op { s with p }
    | none => other { s with p := pOrg }

/-- A round of the loop. -/
def indexedStep (other : IndexedState → Except String IndexedRound) (s : IndexedState) : Except String IndexedRound :=
  (IndexOp.ofByte m.tailCall (s.code s.p)).elim (other s) (indexOp m L f other s.p { s with p := s.p + 1 })

/-- The loop. The first argument bounds the number of rounds. -/
def indexedLoop (other : IndexedState → Except String IndexedRound) : Nat → IndexedState → Except String IndexedState
  | 0, _ => .error "function body must end with END opcode"
  | n + 1, s =>
    if s.p < f.codeSize then do
      match ← indexedStep m L f other s with
      | .next s => indexedLoop other n s
      | .closed s => return s
    else .error "function body must end with END opcode"

/-- The state in front of the loop. -/
def indexedStart : IndexedState where
  p := 0
  code := f.code
  ctx := ⟨f.frameRef, 0, { labelType := .function, params := f.type.params, results := f.type.results }, []⟩

/-- `wasm_loader_prepare_bytecode` with these lookups. -/
def indexedPrepare (other : IndexedState → Except String IndexedRound) : Except String IndexedState :=
  indexedLoop m L f other (f.codeSize + 1) (indexedStart f)

/-- The states at which the pass over a body starts a round. -/
inductive Visits (other : IndexedState → Except String IndexedRound) : IndexedState → Prop
  | start (h : (indexedStart f).p < f.codeSize) : Visits other (indexedStart f)
  | next {s s' : IndexedState} (h : Visits other s) (hstep : indexedStep m L f other s = .ok (.next s')) (hp : s'.p < f.codeSize) : Visits other s'

end

/-- In every round of the pass over a body the lookups answer as in the joint index spaces. -/
def JointlyIndexed (m : IndexedModule) (other : IndexedState → Except String IndexedRound) (f : IndexedFunc) : Prop :=
  ∀ s, Visits m m.lookups f other s → indexedStep m m.lookups f other s = indexedStep m m.jointLookups f other s

/-! ## The lookups -/

theorem bind_congr_ok {ε α β : Type} {x : Except ε α} {f g : α → Except ε β} (h : ∀ a, x = .ok a → f a = g a) : (x >>= f) = (x >>= g) := by
  cases x with
  | error e => rfl
  | ok a => exact h a rfl

section Lookups
variable {α : Type} {xs ys : List α} {msg : String} {idx : Nat}

theorem joint_eq_entry : IndexedModule.joint xs ys msg idx = (do failIf (xs.length + ys.length ≤ idx) msg; entry (xs ++ ys) idx) := by
  unfold IndexedModule.joint entry failIf
  rw [← List.length_append]
  split
  · rename_i hle
    rw [List.getElem?_eq_none hle]
    rfl
  · rename_i hlt
    rw [List.getElem?_eq_getElem (Nat.lt_of_not_le hlt)]
    rfl

theorem joint_check : (IndexedModule.joint xs ys msg idx).map (fun _ => ()) = failIf (xs.length + ys.length ≤ idx) msg := by
  unfold IndexedModule.joint failIf
  rw [← List.length_append]
  split
  · rename_i hle
    rw [List.getElem?_eq_none hle]
    rfl
  · rename_i hlt
    rw [List.getElem?_eq_getElem (Nat.lt_of_not_le hlt)]
    rfl

/-- The two arrays behind a check of the index are the imports followed by the definitions. -/
theorem joint_eq (h : xs.length + ys.length < 2 ^ 32) :
    (do failIf ((xs.length + ys.length) % 2 ^ 32 ≤ idx) msg; if idx < xs.length then entry xs idx else entry ys (idx - xs.length)) =
      IndexedModule.joint xs ys msg idx := by
  rw [Nat.mod_eq_of_lt h, joint_eq_entry]
  refine bind_congr_ok fun _ _ => ?_
  unfold entry
  rw [List.getElem?_append]
  split <;> rfl

end Lookups

namespace IndexedModule
variable {m : IndexedModule} {idx j : Nat} {t : UInt8}

/-- Where `get_table_elem_type` looks there is what is declared for the table. -/
def TablesFound (m : IndexedModule) : Prop :=
  m.refTypes = some true → ∀ j t, m.tables[j]? = some t → m.tableSlot (2 * m.importTables.length + j) = t

theorem tables_total (m : IndexedModule) : (m.importTables.length + m.tables.length) % 2 ^ 32 = m.importTables.length + m.tables.length := by
  have := m.tables_lt
  exact Nat.mod_eq_of_lt (by omega)

theorem checkTableIndex_ok_iff : m.checkTableIndex idx = .ok () ↔ (m.refTypes = some true ∨ idx = 0) ∧ idx < m.importTables.length + m.tables.length := by
  simp only [checkTableIndex, bind_ok_iff, failIf_ok, tables_total, Nat.not_le]
  constructor
  · rintro ⟨_, hflag, hlt⟩
    exact ⟨Decidable.or_iff_not_imp_left.2 fun h => not_not.1 fun h0 => hflag ⟨h, h0⟩, hlt⟩
  rintro ⟨hflag, hlt⟩
  refine ⟨(), ?_, hlt⟩
  rintro ⟨h, h0⟩
  exact hflag.elim h h0

theorem checkTableIndex_eq : m.jointLookups.checkTableIndex = m.checkTableIndex := by
  funext idx
  unfold jointLookups checkTableIndex
  simp only [joint_check, tables_total]

theorem jointElemType_eq : m.jointLookups.tableElemType idx = (do m.checkTableIndex idx; entry (m.importTables ++ m.tables) idx) := by
  unfold jointLookups checkTableIndex
  simp only [joint_eq_entry, tables_total, bind_assoc]

theorem getTableElemType_defined (hcheck : m.checkTableIndex (m.importTables.length + j) = .ok ()) :
    m.getTableElemType (m.importTables.length + j) = .ok (m.tableSlot (2 * m.importTables.length + j)) := by
  have hlt := m.tables_lt
  have hj := (checkTableIndex_ok_iff.1 hcheck).2
  rw [getTableElemType, hcheck]
  show (if m.importTables.length + j < m.importTables.length then _ else _) = _
  rw [if_neg (Nat.not_lt.2 (Nat.le_add_right _ _)), Nat.mod_eq_of_lt (by omega), ← Nat.add_assoc, ← Nat.two_mul]

theorem jointElemType_defined (hcheck : m.checkTableIndex (m.importTables.length + j) = .ok ()) (hj : m.tables[j]? = some t) :
    m.jointLookups.tableElemType (m.importTables.length + j) = .ok t := by
  rw [jointElemType_eq, hcheck]
  show entry (m.importTables ++ m.tables) (m.importTables.length + j) = _
  rw [entry, List.getElem?_append_right (Nat.le_add_right _ _), Nat.add_sub_cancel_left, hj]
  rfl

/-- The first table is found without reference types: it is imported, or nothing is. -/
theorem tableSlot_first (hidx : m.importTables.length + j = 0) (hj : m.tables[j]? = some t) : m.tableSlot (2 * m.importTables.length + j) = t := by
  rw [show 2 * m.importTables.length + j = j by omega, tableSlot, hj, Option.getD_some]

theorem lookups_eq (h : m.TablesFound) : m.lookups = m.jointLookups := by
  have hfunction : m.functionType = m.jointLookups.functionType := funext fun idx => joint_eq m.functions_lt
  have hcheck : m.checkFunctionIndex = m.jointLookups.checkFunctionIndex := by
    funext idx
    unfold checkFunctionIndex jointLookups
    simp only [joint_check, Nat.mod_eq_of_lt m.functions_lt]
  have hglobal : m.global = m.jointLookups.global := funext fun idx => joint_eq m.globals_lt
  have htable : m.getTableElemType = m.jointLookups.tableElemType := by
    funext idx
    by_cases himport : idx < m.importTables.length
    · rw [jointElemType_eq, getTableElemType, if_pos himport, entry, entry, List.getElem?_append_left himport]
    cases hcheck : m.checkTableIndex idx with
    | error e =>
      rw [jointElemType_eq, getTableElemType, hcheck]
      rfl
    | ok u =>
      obtain ⟨j, rfl⟩ := Nat.exists_eq_add_of_le (Nat.not_lt.1 himport)
      obtain ⟨hflag, hidx⟩ := checkTableIndex_ok_iff.1 hcheck
      have hj := List.getElem?_eq_getElem (Nat.lt_of_add_lt_add_left hidx)
      rw [getTableElemType_defined hcheck, jointElemType_defined hcheck hj]
      rcases hflag with hflag | hfirst
      · rw [h hflag j _ hj]
      · rw [tableSlot_first hfirst hj]
  unfold lookups
  rw [hfunction, hcheck, hglobal, htable, ← checkTableIndex_eq]

end IndexedModule

/-! ## The pass -/

section Pass
variable {m : IndexedModule} {L L' : Lookups} {f : IndexedFunc} {other : IndexedState → Except String IndexedRound}

theorem indexedLoop_congr {n : Nat} {s : IndexedState} (hs : s.p < f.codeSize → Visits m L f other s)
    (h : ∀ s, Visits m L f other s → indexedStep m L f other s = indexedStep m L' f other s) :
    indexedLoop m L f other n s = indexedLoop m L' f other n s := by
  induction n generalizing s with
  | zero => rfl
  | succ n ih =>
    unfold indexedLoop
    split
    · rename_i hp
      have hvisit := hs hp
      rw [← h s hvisit]
      refine bind_congr_ok fun r hr => ?_
      cases r with
      | next s' => exact ih fun hp' => .next hvisit hr hp'
      | closed s' => rfl
    · rfl

/-- Where the lookups are right, a body is accepted as it would be with the joint index spaces. -/
theorem JointlyIndexed.prepare_eq (h : JointlyIndexed m other f) : indexedPrepare m m.lookups f other = indexedPrepare m m.jointLookups f other :=
  indexedLoop_congr .start h

theorem pushFrameRef_inj {refTypes : Option Bool} {c : IndexedCtx} {t t' : UInt8} (h : c.pushFrameRef refTypes t = c.pushFrameRef refTypes t') : t = t' := by
  have hcell (t : UInt8) (ht : t ≠ 0x40) :
      (c.pushFrameRef refTypes t).frameRef c.stackCellNum = t ∧ c.stackCellNum < (c.pushFrameRef refTypes t).stackCellNum := by
    unfold IndexedCtx.pushFrameRef
    rw [if_neg ht]
    split
    · exact ⟨Function.update_self .., Int.lt_succ _⟩
    · refine ⟨?_, by show c.stackCellNum < c.stackCellNum + 2; omega⟩
      show Function.update (Function.update c.frameRef c.stackCellNum t) (c.stackCellNum + 1) t c.stackCellNum = t
      rw [Function.update_of_ne (Int.ne_of_lt (Int.lt_succ _)), Function.update_self]
  have hvoid : (c.pushFrameRef refTypes 0x40).stackCellNum = c.stackCellNum := rfl
  by_cases ht : t = 0x40
  · by_cases ht' : t' = 0x40
    · rw [ht, ht']
    subst ht
    have := (hcell t' ht').2
    rw [← h, hvoid] at this
    exact absurd this (Int.lt_irrefl _)
  by_cases ht' : t' = 0x40
  · subst ht'
    have := (hcell t ht).2
    rw [h, hvoid] at this
    exact absurd this (Int.lt_irrefl _)
  · rw [← (hcell t ht).1, h, (hcell t' ht').1]

theorem noTypes_le : (getCellNum []).toNat ≤ 65535 := by decide

theorem noTypes_count_le : ([] : List UInt8).length ≤ 65535 := by decide

/-- `unreachable`, and `table.get` of the table whose index is encoded by these bytes. -/
def tableGetBody (bs : List UInt8) : IndexedFunc where
  type := ⟨[], [], noTypes_le, noTypes_le, noTypes_count_le, noTypes_count_le⟩
  curFuncIdx := 0
  code := codeOf (0x00 :: 0x25 :: bs)
  codeSize := bs.length + 2
  frameRef _ := 0

theorem tableGetBody_visits (m : IndexedModule) (L : Lookups) (other : IndexedState → Except String IndexedRound) (bs : List UInt8) :
    ∃ s, Visits m L (tableGetBody bs) other s ∧ s.p = 1 ∧ s.code = (tableGetBody bs).code ∧ s.ctx.available ≤ 0 ∧ s.ctx.cur.isStackPolymorphic = true :=
  ⟨_, .next (.start (Nat.succ_pos _)) rfl (Nat.lt_add_left bs.length (by decide : 1 < 2)), rfl, rfl, Int.le_refl 0, rfl⟩

theorem tableGetBody_step {bs : List UInt8} {idx : Nat} {t : UInt8} {s : IndexedState} (href : m.refTypes = some true) (hbs : Leb128.EncodesU 32 bs idx)
    (hp : s.p = 1) (hcode : s.code = (tableGetBody bs).code) (havail : s.ctx.available ≤ 0) (hpoly : s.ctx.cur.isStackPolymorphic = true)
    (ht : L.tableElemType idx = .ok t) :
    indexedStep m L (tableGetBody bs) other s = .ok (.next { s with p := bs.length + 2, ctx := s.ctx.pushFrameRef m.refTypes t }) := by
  have hleb : readLebUint32 s.code (bs.length + 2) 2 = .ok (idx, bs.length + 2) := by
    have hbytes := bytesAt_codeOf (0x00 :: 0x25 :: bs) 2
    refine readLebUint32_ok_iff.2 ⟨bs, ?_, Nat.le_refl _, Nat.add_comm _ _, hbs⟩
    rw [hcode]
    exact hbytes.symm
  have hpop : s.ctx.popFrameRef m.refTypes 0x7F = .ok s.ctx := if_pos ⟨havail, hpoly⟩
  have hop : IndexOp.ofByte m.tailCall (s.code s.p) = some .tableGet := by
    rw [hp, hcode]
    rfl
  have hflag : failIf (m.refTypes ≠ some true) "unsupported opcode 25" = .ok () := failIf_ok.2 (not_not.2 href)
  unfold indexedStep
  rw [hop, Option.elim_some, hp]
  simp only [indexOp, hflag]
  show (do
    let (idx, p) ← readLebUint32 s.code (bs.length + 2) 2
    let declRefType ← L.tableElemType idx
    let ctx ← s.ctx.popFrameRef m.refTypes 0x7F
    return IndexedRound.next { s with p, ctx := ctx.pushFrameRef m.refTypes declRefType }) = _
  rw [hleb]
  show (do
    let declRefType ← L.tableElemType idx
    let ctx ← s.ctx.popFrameRef m.refTypes 0x7F
    return IndexedRound.next { s with p := bs.length + 2, ctx := ctx.pushFrameRef m.refTypes declRefType }) = _
  rw [ht, hpop]
  rfl

theorem jointlyIndexed_iff (m : IndexedModule) (other : IndexedState → Except String IndexedRound) :
    (∀ f, JointlyIndexed m other f) ↔ m.TablesFound := by
  constructor
  · intro h href j t hj
    have hlt := m.tables_lt
    have hjlt := (List.getElem?_eq_some_iff.1 hj).1
    obtain ⟨bs, hbs⟩ := Leb128.exists_encodesU (show m.importTables.length + j < 2 ^ 32 by omega)
    have hcheck : m.checkTableIndex (m.importTables.length + j) = .ok () := IndexedModule.checkTableIndex_ok_iff.2 ⟨.inl href, by omega⟩
    obtain ⟨s, hvisit, hp, hcode, havail, hpoly⟩ := tableGetBody_visits m m.lookups other bs
    have hstep := h _ s hvisit
    rw [tableGetBody_step href hbs hp hcode havail hpoly (IndexedModule.getTableElemType_defined hcheck),
      tableGetBody_step href hbs hp hcode havail hpoly (IndexedModule.jointElemType_defined hcheck hj)] at hstep
    exact pushFrameRef_inj (congrArg IndexedState.ctx (IndexedRound.next.inj (Except.ok.inj hstep)))
  · intro h f s _
    rw [m.lookups_eq h]

end Pass

/-- A module that imports a table of functions and defines one of references to the host and two of functions. -/
def mixedTables : IndexedModule where
  refTypes := some true
  tailCall := false
  types := []
  importFunctions := []
  functions := []
  importGlobals := []
  globals := []
  importTables := [0x70]
  tables := [0x6F, 0x70, 0x70]
  behindTables _ := 0
  tableSegments := []
  auxStackSize := 0
  auxStackTopGlobalIndex := 0
  functions_lt := by decide
  globals_lt := by decide
  tables_lt := by decide

/-- A function that gives an element of the second table, a reference to the host, as a function. -/
def hostReference : IndexedFunc where
  type := ⟨[], [0x70], noTypes_le, by decide, noTypes_count_le, by decide⟩
  curFuncIdx := 0
  code := codeOf [0x41, 0x00, 0x25, 0x01, 0x0B]
  codeSize := 5
  frameRef _ := 0

/-- The function is accepted, whatever the other opcodes are. -/
theorem hostReference_accepted :
    (∀ other, (indexedPrepare mixedTables mixedTables.lookups hostReference other).isOk = true) ∧
      ¬ JointlyIndexed mixedTables (fun _ => .error "unsupported opcode") hostReference := by
  constructor
  · intro other
    rfl
  intro h
  have hok : (indexedPrepare mixedTables mixedTables.lookups hostReference fun _ => .error "unsupported opcode").isOk = true := rfl
  rw [h.prepare_eq] at hok
  exact absurd hok (by decide +kernel)

end WamrMigrate.Loader
