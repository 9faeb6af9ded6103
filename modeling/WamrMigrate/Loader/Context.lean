import WamrMigrate.Loader.Opcode

/-!
# The stacks of the validator

`WASMLoaderContext` keeps the operand types of a body as cells, two of the same type for a 64-bit operand, and the open blocks with the number of
cells each of them found. A block whose stack is polymorphic can be popped below its first cell, and `select` on it leaves a cell of any type.
`wasm_loader_check_br` compares the number of open blocks with `depth + 1` in 32 bits: for the largest depth it looks at the block above the top,
which was open before or was never written.
-/

namespace WamrMigrate.Loader

/-- `set_error_buf` and `goto fail`, if the condition holds. -/
def failIf (cond : Prop) [Decidable cond] (msg : String) : Except String Unit := if cond then .error msg else .ok ()

/-- A cell of `frame_ref`. -/
inductive Cell where
  | type (t : ValueType)
  /-- `VALUE_TYPE_ANY`. -/
  | any
  deriving DecidableEq, Repr

/-- The cells of an operand. -/
def cellsOf (t : ValueType) : List Cell := List.replicate t.cellNum (.type t)

/-- The label types. -/
inductive LabelType where
  | block (k : BlockKind)
  | function
  deriving DecidableEq, Repr

/-- `BranchBlock`, with its block type as the types that `block_type_get_param_types` and `block_type_get_result_types` give. -/
structure BranchBlock where
  labelType : LabelType
  type : FuncType
  elseAddr : Option Nat := none
  stackCellNum : Nat := 0
  isStackPolymorphic : Bool := false
  deriving DecidableEq, Repr

/-- `WASMLoaderContext` while a block is open. `frameRef` are the cells, `cur` and `outer` the open blocks, and `above` what is left of the
blocks that were closed, each with its top or innermost element first. -/
structure Ctx where
  frameRef : List Cell := []
  cur : BranchBlock
  outer : List BranchBlock := []
  above : List BranchBlock := []
  maxStackCellNum : Nat := 0
  maxCspNum : Nat := 1
  deriving DecidableEq, Repr

/-- `check_stack_top_values`. -/
def checkStackTopValues (frameRef : List Cell) (stackCellNum : Int) (type : ValueType) : Except String Unit :=
  if stackCellNum < type.cellNum then .error "type mismatch: expect data but stack was empty"
  else if frameRef.take type.cellNum ≠ cellsOf type then
    .error ("type mismatch: expect " ++ type.toStr ++ " but got other")
  else .ok ()

/-- The loops over `check_stack_top_values`, which go through the types from the last one on. -/
def checkTops : List ValueType → List Cell → Int → Except String Unit
  | [], _, _ => .ok ()
  | t :: ts, frameRef, num => do
    checkStackTopValues frameRef num t
    checkTops ts (frameRef.drop t.cellNum) (num - t.cellNum)

namespace BranchBlock

/-- The types that a branch to the block takes along. -/
def labelTypes (b : BranchBlock) : List ValueType :=
  if b.labelType = .block .loop then b.type.params else b.type.results

end BranchBlock

namespace Ctx

/-- `csp_num`. -/
def cspNum (c : Ctx) : Nat := c.outer.length + 1

/-- `stack_cell_num - cur_block->stack_cell_num`. -/
def available (c : Ctx) : Int := c.frameRef.length - c.cur.stackCellNum

/-- `check_stack_pop`. -/
def checkStackPop (c : Ctx) (type : ValueType) : Except String Unit :=
  if 0 < c.available ∧ c.frameRef.head? = some .any then .ok ()
  else checkStackTopValues c.frameRef c.available type

/-- `wasm_loader_pop_frame_ref`. -/
def popFrameRef (type : ValueType) (c : Ctx) : Except String Ctx :=
  if c.available ≤ 0 ∧ c.cur.isStackPolymorphic then .ok c
  else do
    c.checkStackPop type
    let cells := if c.frameRef.head? = some .any then 1 else type.cellNum
    return { c with frameRef := c.frameRef.drop cells }

/-- `wasm_loader_push_frame_ref`, on the cells of what is pushed. -/
def pushCells (cells : List Cell) (c : Ctx) : Ctx :=
  { c with
    frameRef := cells ++ c.frameRef
    maxStackCellNum := max c.maxStackCellNum (cells.length + c.frameRef.length) }

/-- `wasm_loader_push_frame_ref`. -/
def pushFrameRef (type : ValueType) (c : Ctx) : Ctx := c.pushCells (cellsOf type)

/-- The loops that pop the types of a list, the last one first. -/
def popTypes : List ValueType → Ctx → Except String Ctx
  | [], c => .ok c
  | t :: ts, c => do
    let c ← c.popTypes ts
    c.popFrameRef t

/-- The loops that push the types of a list. -/
def pushTypes : List ValueType → Ctx → Ctx
  | [], c => c
  | t :: ts, c => pushTypes ts (c.pushFrameRef t)

/-- `wasm_loader_push_pop_frame_ref`. -/
def pushPopFrameRef (sig : NumericSig) (c : Ctx) : Except String Ctx := do
  let c ← c.popTypes (List.replicate sig.pops sig.pop)
  return c.pushFrameRef sig.push

/-- `wasm_loader_push_frame_csp`. -/
def pushFrameCsp (labelType : LabelType) (type : FuncType) (c : Ctx) : Ctx :=
  { c with
    cur := { labelType, type, stackCellNum := c.frameRef.length }
    outer := c.cur :: c.outer
    above := c.above.tail
    maxCspNum := max c.maxCspNum (c.cspNum + 1) }

/-- `RESET_STACK`. -/
def resetStack (c : Ctx) : Ctx := { c with frameRef := c.frameRef.drop (c.frameRef.length - c.cur.stackCellNum) }

/-- `SET_CUR_BLOCK_STACK_POLYMORPHIC_STATE`. -/
def setPolymorphic (flag : Bool) (c : Ctx) : Ctx := { c with cur := { c.cur with isStackPolymorphic := flag } }

/-- `frame_csp - (depth + 1)`, after the check that there is such a block. -/
def target (c : Ctx) (depth : Nat) : Except String BranchBlock :=
  let n := (depth + 1) % 2 ^ 32
  if c.cspNum < n then .error "unknown label, unexpected end of section or function"
  else if n = 0 then
    match c.above with
    | b :: _ => .ok b
    -- the type of a block that was never written is a null pointer
    | [] => .error "segmentation fault"
  else .ok ((c.cur :: c.outer).getD (n - 1) c.cur)

/-- `wasm_loader_check_br`. -/
def checkBr (c : Ctx) (depth : Nat) : Except String Ctx := do
  let types := (← c.target depth).labelTypes
  if c.cur.isStackPolymorphic then
    let c ← c.popTypes types
    return c.pushTypes types
  else
    checkTops types.reverse c.frameRef c.available
    return c

/-- `check_block_stack`, on the innermost block. -/
def checkBlockStack (c : Ctx) : Except String Ctx := do
  let types := c.cur.type.results
  if c.cur.isStackPolymorphic then
    let c ← c.popTypes types
    failIf (c.frameRef.length ≠ c.cur.stackCellNum) "type mismatch: stack size does not match block type"
    return c.pushTypes types
  else
    failIf (c.available ≠ (types.map ValueType.cellNum).sum) "type mismatch: stack size does not match block type"
    checkTops types.reverse c.frameRef c.available
    return c

end Ctx

end WamrMigrate.Loader
