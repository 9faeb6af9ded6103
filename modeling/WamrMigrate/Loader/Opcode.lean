import WamrMigrate.Loader.Leb

/-!
# Types, opcodes and instructions

The opcodes of `wasm_opcode.h` that the interpreter build knows, with those that only the loader writes into a body, for an access whose width,
offset or block type it has found out. Opcodes that are handled alike and differ in their types only keep their byte.
-/

namespace WamrMigrate

/-- The value types without references and vectors. -/
inductive ValueType where
  | i32 | i64 | f32 | f64
  deriving DecidableEq, Repr

namespace ValueType

/-- `is_64bit_type`. -/
def is64bit : ValueType → Bool
  | .i32 | .f32 => false
  | .i64 | .f64 => true

/-- `wasm_value_type_cell_num`. -/
def cellNum (t : ValueType) : Nat := if t.is64bit then 2 else 1

/-- `type2str`. -/
def toStr : ValueType → String
  | .i32 => "i32"
  | .i64 => "i64"
  | .f32 => "f32"
  | .f64 => "f64"

/-- `is_value_type`, with the type that the byte stands for. -/
def ofByte (b : UInt8) : Option ValueType :=
  if b = 0x7F then some .i32
  else if b = 0x7E then some .i64
  else if b = 0x7D then some .f32
  else if b = 0x7C then some .f64
  else none

end ValueType

/-- `WASMType`. -/
structure FuncType where
  params : List ValueType
  results : List ValueType
  deriving DecidableEq, Repr

/-- A block type as it is written: no result, one result, or an index into the types of the module. -/
inductive BlockType where
  | void
  | value (t : ValueType)
  | index (i : Nat)
  deriving DecidableEq, Repr

/-- `is_byte_a_type`, with the block type that the byte stands for. -/
def BlockType.ofByte (b : UInt8) : Option BlockType :=
  if b = 0x40 then some .void else (ValueType.ofByte b).map .value

/-- The results of a block type of one byte. -/
def BlockType.results : BlockType → List ValueType
  | .value t => [t]
  | _ => []

/-- The three instructions that open a block. -/
inductive BlockKind where
  | block | loop | ite
  deriving DecidableEq, Repr

/-- The three accesses to a local. -/
inductive LocalAccess where
  | get | set | tee
  deriving DecidableEq, Repr

/-- What a numeric instruction pops, how often, and what it pushes. -/
structure NumericSig where
  pops : Nat
  pop : ValueType
  push : ValueType
  deriving DecidableEq, Repr

/-- The operands of the numeric instructions, by the groups of `wasm_loader_prepare_bytecode`. -/
def numericSig (b : UInt8) : Option NumericSig :=
  if b < 0x45 then none
  -- comparisons
  else if b = 0x45 then some ⟨1, .i32, .i32⟩
  else if b ≤ 0x4f then some ⟨2, .i32, .i32⟩
  else if b = 0x50 then some ⟨1, .i64, .i32⟩
  else if b ≤ 0x5a then some ⟨2, .i64, .i32⟩
  else if b ≤ 0x60 then some ⟨2, .f32, .i32⟩
  else if b ≤ 0x66 then some ⟨2, .f64, .i32⟩
  -- arithmetic
  else if b ≤ 0x69 then some ⟨1, .i32, .i32⟩
  else if b ≤ 0x78 then some ⟨2, .i32, .i32⟩
  else if b ≤ 0x7b then some ⟨1, .i64, .i64⟩
  else if b ≤ 0x8a then some ⟨2, .i64, .i64⟩
  else if b ≤ 0x91 then some ⟨1, .f32, .f32⟩
  else if b ≤ 0x98 then some ⟨2, .f32, .f32⟩
  else if b ≤ 0x9f then some ⟨1, .f64, .f64⟩
  else if b ≤ 0xa6 then some ⟨2, .f64, .f64⟩
  -- conversions
  else if b = 0xa7 then some ⟨1, .i64, .i32⟩
  else if b ≤ 0xa9 then some ⟨1, .f32, .i32⟩
  else if b ≤ 0xab then some ⟨1, .f64, .i32⟩
  else if b ≤ 0xad then some ⟨1, .i32, .i64⟩
  else if b ≤ 0xaf then some ⟨1, .f32, .i64⟩
  else if b ≤ 0xb1 then some ⟨1, .f64, .i64⟩
  else if b ≤ 0xb3 then some ⟨1, .i32, .f32⟩
  else if b ≤ 0xb5 then some ⟨1, .i64, .f32⟩
  else if b = 0xb6 then some ⟨1, .f64, .f32⟩
  else if b ≤ 0xb8 then some ⟨1, .i32, .f64⟩
  else if b ≤ 0xba then some ⟨1, .i64, .f64⟩
  else if b = 0xbb then some ⟨1, .f32, .f64⟩
  -- reinterpretations
  else if b = 0xbc then some ⟨1, .f32, .i32⟩
  else if b = 0xbd then some ⟨1, .f64, .i64⟩
  else if b = 0xbe then some ⟨1, .i32, .f32⟩
  else if b = 0xbf then some ⟨1, .i64, .f64⟩
  -- sign extensions
  else if b ≤ 0xc1 then some ⟨1, .i32, .i32⟩
  else if b ≤ 0xc4 then some ⟨1, .i64, .i64⟩
  else none

/-- The operands of the saturating truncations behind `WASM_OP_MISC_PREFIX`. -/
def miscSig (opcode1 : Nat) : Option NumericSig :=
  if opcode1 ≤ 1 then some ⟨1, .f32, .i32⟩
  else if opcode1 ≤ 3 then some ⟨1, .f64, .i32⟩
  else if opcode1 ≤ 5 then some ⟨1, .f32, .i64⟩
  else if opcode1 ≤ 7 then some ⟨1, .f64, .i64⟩
  else none

/-- What a memory access moves, whether it is a store, and its entry in `mem_access_aligns`. -/
structure MemorySig where
  type : ValueType
  store : Bool
  align : Nat
  deriving DecidableEq, Repr

/-- The memory accesses, `WASM_OP_I32_LOAD` to `WASM_OP_I64_STORE32`. -/
def memorySig (b : UInt8) : Option MemorySig :=
  if b = 0x28 then some ⟨.i32, false, 2⟩
  else if b = 0x29 then some ⟨.i64, false, 3⟩
  else if b = 0x2a then some ⟨.f32, false, 2⟩
  else if b = 0x2b then some ⟨.f64, false, 3⟩
  else if b = 0x2c ∨ b = 0x2d then some ⟨.i32, false, 0⟩
  else if b = 0x2e ∨ b = 0x2f then some ⟨.i32, false, 1⟩
  else if b = 0x30 ∨ b = 0x31 then some ⟨.i64, false, 0⟩
  else if b = 0x32 ∨ b = 0x33 then some ⟨.i64, false, 1⟩
  else if b = 0x34 ∨ b = 0x35 then some ⟨.i64, false, 2⟩
  else if b = 0x36 then some ⟨.i32, true, 2⟩
  else if b = 0x37 then some ⟨.i64, true, 3⟩
  else if b = 0x38 then some ⟨.f32, true, 2⟩
  else if b = 0x39 then some ⟨.f64, true, 3⟩
  else if b = 0x3a then some ⟨.i32, true, 0⟩
  else if b = 0x3b then some ⟨.i32, true, 1⟩
  else if b = 0x3c then some ⟨.i64, true, 0⟩
  else if b = 0x3d then some ⟨.i64, true, 1⟩
  else if b = 0x3e then some ⟨.i64, true, 2⟩
  else none

/-- `WASMOpcode`. -/
inductive Opcode where
  | unreachable | nop
  | block (k : BlockKind)
  | else_ | end_ | br | brIf | brTable | return_ | call | callIndirect
  | drop | select
  | local_ (a : LocalAccess)
  | getGlobal | setGlobal
  | memory (byte : UInt8) (sig : MemorySig)
  | memorySize | memoryGrow
  | i32Const | i64Const | f32Const | f64Const
  | numeric (byte : UInt8) (sig : NumericSig)
  | miscPrefix
  -- written by the loader; it also takes the first two from its input
  | drop64 | select64
  | extBlock (k : BlockKind)
  | localFast (a : LocalAccess)
  | getGlobal64 | setGlobal64 | setGlobalAuxStack
  deriving DecidableEq, Repr

namespace Opcode

/-- The byte of an opcode. -/
def toByte : Opcode → UInt8
  | .unreachable => 0x00
  | .nop => 0x01
  | .block .block => 0x02
  | .block .loop => 0x03
  | .block .ite => 0x04
  | .else_ => 0x05
  | .end_ => 0x0b
  | .br => 0x0c
  | .brIf => 0x0d
  | .brTable => 0x0e
  | .return_ => 0x0f
  | .call => 0x10
  | .callIndirect => 0x11
  | .drop => 0x1a
  | .select => 0x1b
  | .getGlobal64 => 0x1d
  | .setGlobal64 => 0x1e
  | .setGlobalAuxStack => 0x1f
  | .local_ .get => 0x20
  | .local_ .set => 0x21
  | .local_ .tee => 0x22
  | .getGlobal => 0x23
  | .setGlobal => 0x24
  | .memory byte _ => byte
  | .memorySize => 0x3f
  | .memoryGrow => 0x40
  | .i32Const => 0x41
  | .i64Const => 0x42
  | .f32Const => 0x43
  | .f64Const => 0x44
  | .numeric byte _ => byte
  | .drop64 => 0xc5
  | .select64 => 0xc6
  | .localFast .get => 0xc7
  | .localFast .set => 0xc9
  | .localFast .tee => 0xca
  | .extBlock .block => 0xd3
  | .extBlock .loop => 0xd4
  | .extBlock .ite => 0xd5
  | .miscPrefix => 0xfc

/-- The opcodes that are a byte of their own. -/
def fixed : List Opcode :=
  [.unreachable, .nop, .block .block, .block .loop, .block .ite, .else_, .end_, .br, .brIf, .brTable, .return_, .call,
    .callIndirect, .drop, .select, .getGlobal64, .setGlobal64, .setGlobalAuxStack, .local_ .get, .local_ .set, .local_ .tee,
    .getGlobal, .setGlobal, .memorySize, .memoryGrow, .i32Const, .i64Const, .f32Const, .f64Const, .drop64, .select64,
    .localFast .get, .localFast .set, .localFast .tee, .extBlock .block, .extBlock .loop, .extBlock .ite, .miscPrefix]

/-- The opcode of a byte. -/
def ofByte (b : UInt8) : Option Opcode :=
  match memorySig b, numericSig b with
  | some sig, _ => some (.memory b sig)
  | none, some sig => some (.numeric b sig)
  | none, none => fixed.find? fun o => o.toByte == b

end Opcode

/-- An instruction with its immediates. A `br_table` lists all its depths, the default last; floats are kept as their bytes. -/
inductive Instr where
  | unreachable | nop
  | block (k : BlockKind) (type : BlockType)
  | else_ | end_
  | br (depth : Nat)
  | brIf (depth : Nat)
  | brTable (depths : List Nat)
  | return_
  | call (func : Nat)
  | callIndirect (type table : Nat)
  | drop | select | drop64 | select64
  | local_ (a : LocalAccess) (index : Nat)
  | getGlobal (index : Nat)
  | setGlobal (index : Nat)
  | memory (byte : UInt8) (align offset : Nat)
  | memorySize | memoryGrow
  | i32Const (v : BitVec 32)
  | i64Const (v : BitVec 64)
  | f32Const (bytes : List UInt8)
  | f64Const (bytes : List UInt8)
  | numeric (byte : UInt8)
  | misc (opcode1 : Nat)
  deriving DecidableEq, Repr

end WamrMigrate
