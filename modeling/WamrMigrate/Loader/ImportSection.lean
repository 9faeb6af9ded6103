import WamrMigrate.Lib.Grammar
import WamrMigrate.Loader.ConstStr
import WamrMigrate.Loader.Sections

/-!
# The import section

`load_import_section` goes over the imports twice: to count those of each kind, and to load each into the part of one array that belongs to its
kind. The names go to the list of constant strings and are read as C strings. The largest size of a table or memory is at most what the runtime
would make it, and imports from `spectest` have the sizes of what is exported there.
-/

namespace WamrMigrate.Loader

open Leb128

/-! ## The model -/

/-- `IMPORT_KIND_*`. -/
inductive ImportKind
  | func
  | table
  | memory
  | global
  deriving DecidableEq

def importKind (b : UInt8) : Option ImportKind :=
  if b = 0 then some .func else if b = 1 then some .table else if b = 2 then some .memory else if b = 3 then some .global else none

/-- What `wasm_native_resolve_symbol` finds. -/
structure NativeSymbol where
  funcPtr : Nat
  signature : Option (List UInt8)
  attachment : Nat
  callConvRaw : Bool

/-- `WASMNativeGlobalDef` without its names. -/
structure NativeGlobal where
  type : UInt8
  isMutable : Bool
  value : BitVec 64

/-- The union in `WASMImport` without the names. -/
inductive ImportDesc
  | func (type : WasmType) (linked : Option NativeSymbol)
  | table (elemType : UInt8) (flags initSize maxSize : Nat)
  | memory (flags initPageCount maxPageCount : Nat)
  | global (type : UInt8) (isMutable : Bool) (linked : Option NativeGlobal)

/-- `WASMImport`. The names are nodes of the list of strings. -/
structure WasmImport where
  kind : ImportKind
  moduleName : Nat
  fieldName : Nat
  desc : ImportDesc

/-- What the loader works with besides the bytes of the section: the types of the module, the strings that it has inserted before, whether reference types are
built in and the flag for them, the limit for memories, what the runtime knows, and which allocations succeed. -/
structure ImportEnv where
  types : List WasmType
  before : List StrArg
  refTypes : Option Bool
  maxPageCount : Nat
  resolveSymbol : List UInt8 → List UInt8 → WasmType → Option NativeSymbol
  builtinGlobal : List UInt8 → List UInt8 → Option NativeGlobal
  importsAlloc : Bool
  strAlloc : Nat → Bool

/-- One more of a kind. -/
def inc (counts : ImportKind → Nat) (kind : ImportKind) : ImportKind → Nat := fun k => if k = kind then counts k + 1 else counts k

/-- Where the imports of a kind start in the array. -/
def base (counts : ImportKind → Nat) : ImportKind → Nat
  | .func => 0
  | .table => counts .func
  | .memory => counts .func + counts .table
  | .global => counts .func + counts .table + counts .memory

/-- A string of the list, read as a C string. -/
def nameAt (nodes : List StringNode) (ptr : Nat) : List UInt8 := ((nodes.find? (·.ptr = ptr)).map fun n => cString n.str).getD []

-- "env", "wasi_unstable", "wasi_snapshot_preview1", "spectest", "table" and "memory".
def nameEnv : List UInt8 := [0x65, 0x6E, 0x76]
def nameWasiUnstable : List UInt8 := [0x77, 0x61, 0x73, 0x69, 0x5F, 0x75, 0x6E, 0x73, 0x74, 0x61, 0x62, 0x6C, 0x65]
def nameWasiSnapshot : List UInt8 := [0x77, 0x61, 0x73, 0x69, 0x5F, 0x73, 0x6E, 0x61, 0x70, 0x73, 0x68, 0x6F, 0x74, 0x5F, 0x70, 0x72, 0x65, 0x76, 0x69, 0x65, 0x77, 0x31]
def nameSpectest : List UInt8 := [0x73, 0x70, 0x65, 0x63, 0x74, 0x65, 0x73, 0x74]
def nameTable : List UInt8 := [0x74, 0x61, 0x62, 0x6C, 0x65]
def nameMemory : List UInt8 := [0x6D, 0x65, 0x6D, 0x6F, 0x72, 0x79]

/-- `default_max_size` in `adjust_table_max_size`. -/
def defaultMaxSize (initSize : Nat) : Nat := max (initSize * 2 % 2 ^ 32) 1024

/-- `adjust_table_max_size`. -/
def adjustTableMaxSize (initSize flags maxSize : Nat) : Nat :=
  if flags ≠ 0 then if initSize < maxSize then min maxSize (defaultMaxSize initSize) else maxSize
  else defaultMaxSize initSize

section
variable (env : ImportEnv) (code : Code) (bufEnd : Nat)

/-- A name in the first pass. -/
def skipName (p : Nat) : Except String Nat := do
  let (nameLen, p) ← readLebUint32 code bufEnd p
  failIf (bufEnd < p + nameLen) "unexpected end of section or function"
  return p + nameLen

/-- The sizes of a table or memory in the first pass. -/
def skipLimits (p : Nat) : Except String Nat := do
  let (flags, p) ← readLebUint32 code bufEnd p
  let (_, p) ← readLebUint32 code bufEnd p
  if flags % 2 = 1 then
    let (_, p) ← readLebUint32 code bufEnd p
    return p
  else return p

/-- A round of the first pass. -/
def scanImport (counts : ImportKind → Nat) (p : Nat) : Except String ((ImportKind → Nat) × Nat) := do
  let p ← skipName code bufEnd p
  let p ← skipName code bufEnd p
  failIf (bufEnd < p + 1) "unexpected end of section or function"
  match importKind (code p) with
  | some .func =>
    let (_, p) ← readLebUint32 code bufEnd (p + 1)
    return (inc counts .func, p)
  | some .table =>
    failIf (bufEnd < p + 1 + 1) "unexpected end of section or function"
    let p ← skipLimits code bufEnd (p + 1 + 1)
    failIf (env.refTypes ≠ some true ∧ 1 < counts .table + 1) "multiple tables"
    return (inc counts .table, p)
  | some .memory =>
    let p ← skipLimits code bufEnd (p + 1)
    failIf (1 < counts .memory + 1) "multiple memories"
    return (inc counts .memory, p)
  | some .global =>
    failIf (bufEnd < p + 1 + 2) "unexpected end of section or function"
    return (inc counts .global, p + 1 + 2)
  | none => .error "invalid import kind"

/-- So many rounds of the first pass. -/
def scanImports : Nat → (ImportKind → Nat) → Nat → Except String ((ImportKind → Nat) × Nat)
  | 0, counts, p => .ok (counts, p)
  | n + 1, counts, p => do
    let (counts, p) ← scanImport env code bufEnd counts p
    scanImports n counts p

/-- A name of a length of 32 bits. -/
def nameArg (p nameLen : Nat) (malloc : Bool) : StrArg :=
  ⟨bytesAt code p (nameLen % 2 ^ 32), malloc, length_bytesAt code p _ ▸ Nat.mod_lt _ (Nat.two_pow_pos 32)⟩

/-- A name in the second pass: its node, the list, and the position behind it. -/
def loadName (nodes : List StringNode) (malloc : Bool) (p : Nat) : Except String (Nat × List StringNode × Nat) := do
  let (nameLen, p) ← readLebUint32 code bufEnd p
  failIf (bufEnd < p + nameLen) "unexpected end of section or function"
  let (nodes, ptr) ← constStrListInsert nodes (nameArg code p nameLen malloc)
  return (ptr, nodes, p + nameLen)

/-- `load_function_import`. -/
def loadFunctionImport (subModuleName functionName : List UInt8) (p : Nat) : Except String (ImportDesc × Nat) := do
  failIf (bufEnd < p + 1) "unexpected end of section or function"
  let (typeIndex, p) ← readLebUint32 code bufEnd p
  let type ← (env.types[typeIndex]?).elim (.error "unknown type") .ok
  return (.func type (env.resolveSymbol subModuleName functionName type), p)

/-- The largest size in `load_table_import`, as it is declared. -/
def loadTableMaxSize (flags initSize p : Nat) : Except String (Nat × Nat) :=
  if flags ≠ 0 then do
    let (maxSize, p) ← readLebUint32 code bufEnd p
    failIf (maxSize < initSize) "size minimum must not be greater than maximum"
    return (maxSize, p)
  else .ok (0, p)

/-- `load_table_import`. Without the flag for reference types no type of elements is refused. -/
def loadTableImport (subModuleName tableName : List UInt8) (p : Nat) : Except String (ImportDesc × Nat) := do
  failIf (bufEnd < p + 1) "unexpected end of section or function"
  let elemType := code p
  failIf (elemType ≠ 0x70 ∧ (env.refTypes = none ∨ env.refTypes = some true ∧ elemType ≠ 0x6F)) "incompatible import type"
  let (flags, p) ← readLebUint32 code bufEnd (p + 1)
  failIf (1 < flags) "integer too large"
  let (initSize, p) ← readLebUint32 code bufEnd p
  let (maxSize, p) ← loadTableMaxSize code bufEnd flags initSize p
  let maxSize := adjustTableMaxSize initSize flags maxSize
  if subModuleName = nameSpectest then
    failIf (tableName ≠ nameTable) "incompatible import type or unknown import"
    failIf (10 < initSize ∨ maxSize < 20) "incompatible import type"
    return (.table elemType flags 10 20, p)
  else return (.table elemType flags initSize maxSize, p)

/-- The largest size in `load_memory_import`. -/
def loadMaxPageCount (flags initPageCount p : Nat) : Except String (Nat × Nat) :=
  if flags % 2 = 1 then do
    let (maxPageCount, p) ← readLebUint32 code bufEnd p
    failIf (maxPageCount < initPageCount) "size minimum must not be greater than maximum"
    failIf (65536 < maxPageCount) "memory size must be at most 65536 pages (4GiB)"
    return (min maxPageCount env.maxPageCount, p)
  else .ok (env.maxPageCount, p)

/-- `load_memory_import`. -/
def loadMemoryImport (subModuleName memoryName : List UInt8) (p : Nat) : Except String (ImportDesc × Nat) := do
  let (flags, p) ← readLebUint32 code bufEnd p
  let (initPageCount, p) ← readLebUint32 code bufEnd p
  failIf (65536 < initPageCount) "memory size must be at most 65536 pages (4GiB)"
  let (maxPageCount, p) ← loadMaxPageCount env code bufEnd flags initPageCount p
  if subModuleName = nameSpectest then
    failIf (memoryName ≠ nameMemory) "incompatible import type or unknown import"
    failIf (1 < initPageCount ∨ maxPageCount < 2) "incompatible import type"
    return (.memory flags 1 2, p)
  else return (.memory flags initPageCount maxPageCount, p)

/-- `load_global_import`. -/
def loadGlobalImport (subModuleName globalName : List UInt8) (p : Nat) : Except String (ImportDesc × Nat) := do
  failIf (bufEnd < p + 2) "unexpected end of section or function"
  let type := code p
  let isMutable := code (p + 1)
  failIf (2 ≤ isMutable) "invalid mutability"
  let linked := env.builtinGlobal subModuleName globalName
  failIf (linked.any fun g => g.type ≠ type || g.isMutable ≠ (isMutable == 1)) "incompatible import type"
  return (.global type (isMutable == 1) linked, p + 2)

/-- What is behind the kind of an import. -/
def loadDesc : ImportKind → List UInt8 → List UInt8 → Nat → Except String (ImportDesc × Nat)
  | .func => loadFunctionImport env code bufEnd
  | .table => loadTableImport env code bufEnd
  | .memory => loadMemoryImport env code bufEnd
  | .global => loadGlobalImport env code bufEnd

/-- The state of the second pass: the list of strings, the number of calls that have inserted into it, the place of the next import of each kind
(`import_functions`, `import_tables`, `import_memories`, `import_globals`), and the array. -/
structure ImportState where
  nodes : List StringNode
  calls : Nat
  next : ImportKind → Nat
  imports : Nat → Option WasmImport

/-- An import at its place. -/
def ImportState.put (s : ImportState) (nodes : List StringNode) (imp : WasmImport) : ImportState where
  nodes
  calls := s.calls + 2
  next := inc s.next imp.kind
  imports i := if i = s.next imp.kind then some imp else s.imports i

/-- A round of the second pass. -/
def loadImport (s : ImportState) (p : Nat) : Except String (ImportState × Nat) := do
  let (moduleName, nodes, p) ← loadName code bufEnd s.nodes (env.strAlloc s.calls) p
  let (fieldName, nodes, p) ← loadName code bufEnd nodes (env.strAlloc (s.calls + 1)) p
  failIf (bufEnd < p + 1) "unexpected end of section or function"
  match importKind (code p) with
  | some kind =>
    let (desc, p) ← loadDesc env code bufEnd kind (nameAt nodes moduleName) (nameAt nodes fieldName) (p + 1)
    return (s.put nodes ⟨kind, moduleName, fieldName, desc⟩, p)
  | none => .error "invalid import kind"

/-- So many rounds of the second pass. -/
def loadImports : Nat → ImportState → Nat → Except String (ImportState × Nat)
  | 0, s, p => .ok (s, p)
  | n + 1, s, p => do
    let (s, p) ← loadImport env code bufEnd s p
    loadImports n s p

/-- The start of the second pass. The source has no pointer for a kind without imports. -/
def importState (nodes : List StringNode) (counts : ImportKind → Nat) : ImportState := ⟨nodes, 3, base counts, fun _ => none⟩

/-- What `load_import_section` leaves in the module. -/
structure ImportSection where
  importCount : Nat
  counts : ImportKind → Nat
  imports : Nat → Option WasmImport
  nodes : List StringNode
  isWasiModule : Bool

/-- The names of the built-in modules are inserted first. -/
def builtinNames : Except String (List StringNode) := do
  let (nodes, _) ← constStrListInsert (StringTable.empty.insertAll env.before).nodes ⟨nameEnv, env.strAlloc 0, by decide⟩
  let (nodes, _) ← constStrListInsert nodes ⟨nameWasiUnstable, env.strAlloc 1, by decide⟩
  let (nodes, _) ← constStrListInsert nodes ⟨nameWasiSnapshot, env.strAlloc 2, by decide⟩
  return nodes

/-- `load_import_section`. Without imports the array is not allocated, and neither pass has a round. -/
def loadImportSection (buf : Nat) : Except String ImportSection := do
  let nodes ← builtinNames env
  let (importCount, p) ← readLebUint32 code bufEnd buf
  loaderMalloc (env.importsAlloc || decide (importCount = 0)) (64 * importCount)
  let (counts, _) ← scanImports env code bufEnd importCount (fun _ => 0) p
  let (s, p) ← loadImports env code bufEnd importCount (importState nodes counts) p
  failIf (p ≠ bufEnd) "section size mismatch"
  return {
    importCount
    counts
    imports := s.imports
    nodes := s.nodes
    isWasiModule := (List.range (counts .func)).any fun i => (s.imports i).any fun imp =>
      nameAt s.nodes imp.moduleName = nameWasiUnstable ∨ nameAt s.nodes imp.moduleName = nameWasiSnapshot }

end

/-! ## The format -/

/-- The sizes that a table or memory is declared with. -/
structure Limits where
  flags : Nat
  min : Nat
  max : Option Nat

inductive DeclDesc
  | func (typeIndex : Nat)
  | table (elemType : UInt8) (limits : Limits)
  | memory (limits : Limits)
  | global (type isMutable : UInt8)

def DeclDesc.kind : DeclDesc → ImportKind
  | .func _ => .func
  | .table .. => .table
  | .memory _ => .memory
  | .global .. => .global

/-- An import as the file declares it. -/
structure ImportDecl where
  moduleName : List UInt8
  fieldName : List UInt8
  desc : DeclDesc

namespace Binary

def u32 : Grammar Nat := EncodesU 32

def name : Grammar (List UInt8) := do
  let size ← u32
  .bytes size

def limits : Grammar Limits := do
  let flags ← u32
  let min ← u32
  if flags % 2 = 1 then
    let max ← u32
    return ⟨flags, min, some max⟩
  else return ⟨flags, min, none⟩

def desc : ImportKind → Grammar DeclDesc
  | .func => do
    let typeIndex ← u32
    return .func typeIndex
  | .table => do
    let elemType ← .byte
    let l ← limits
    return .table elemType l
  | .memory => do
    let l ← limits
    return .memory l
  | .global => do
    let type ← .byte
    let isMutable ← .byte
    return .global type isMutable

def importDecl : Grammar ImportDecl := do
  let moduleName ← name
  let fieldName ← name
  let kind ← .byte
  match importKind kind with
  | some kind =>
    let d ← desc kind
    return ⟨moduleName, fieldName, d⟩
  | none => .fail

/-- A vector of imports. -/
def importSection : Grammar (List ImportDecl) := do
  let count ← u32
  .times importDecl count

end Binary

end WamrMigrate.Loader
