import WamrMigrate.Lib.Bytes
import WamrMigrate.Lib.CallConv
import WamrMigrate.Loader.Opcode

/-!
# Calls of native functions

`wasm_runtime_invoke_native` for x86-64 without vectors lays the arguments out in an array, first the floating-point registers, then the integer
registers, then the stack, and `invokeNative` loads them from there. The signature says which parameters are pointers and strings; these are offsets
into the linear memory, which are checked and made addresses.
-/

namespace WamrMigrate.Native

/-- The calling convention of System V for x86-64. -/
def systemV : CallConv where
  registers
    | .integer => 6
    | .float => 8

/-! ## Signatures -/

/-- `sig_map`. -/
def sigMap : ValueType → Char
  | .i32 => 'i'
  | .i64 => 'I'
  | .f32 => 'f'
  | .f64 => 'F'

/-- The loop of `check_symbol_signature` over the parameters: what is left of the signature behind them. -/
def checkParams : List ValueType → List Char → Option (List Char)
  | [], p => some p
  | _ :: _, [] => none
  | t :: ts, sig :: p =>
    if sig = sigMap t then checkParams ts p
    else if t ≠ .i32 then none
    else if sig = '*' then
      match ts, p with
      | .i32 :: ts, '~' :: p => checkParams ts p
      | ts, p => checkParams ts p
    else if sig = '$' then checkParams ts p
    else none

/-- `check_symbol_signature`, on the characters before the end of the string. -/
def checkSymbolSignature (type : FuncType) (signature : List Char) : Bool :=
  match signature with
  | '(' :: p =>
    decide (type.params.length + 1 ≤ p.length) &&
      match checkParams type.params p with
      | some (')' :: p) => p = (type.results.head?.map sigMap).toList
      | _ => false
  | _ => false

/-! ## Addresses -/

/-- The linear memory of an instance: `memory_data`, and the bytes at addresses. `memory_data_end` is behind all pages. -/
structure LinearMemory where
  data : Nat
  numBytesPerPage : Nat
  curPageCount : Nat
  bytes : Mem
  end_lt : data + numBytesPerPage * curPageCount < 2 ^ 64

theorem onePage_lt : 0x10000 + 65536 * 1 < 2 ^ 64 := by decide

namespace LinearMemory
variable (m : LinearMemory)

/-- The size of the memory. -/
def size : Nat := m.numBytesPerPage * m.curPageCount

/-- `memory_data_size`, in 32 bits. -/
def memoryDataSize : Nat := m.numBytesPerPage * m.curPageCount % 2 ^ 32

end LinearMemory

/-- `wasm_validate_app_addr`. -/
def validateAppAddr (memory : Option LinearMemory) (appOffset size : Nat) : Bool :=
  memory.any fun m => decide (appOffset ≤ 0xFFFFFFFF - size) && decide (appOffset + size ≤ m.memoryDataSize)

/-- `wasm_addr_app_to_native`. -/
def addrAppToNative (memory : Option LinearMemory) (appOffset : Nat) : Nat :=
  memory.elim 0 fun m =>
    let addr := (m.data + appOffset) % 2 ^ 64
    if m.data ≤ addr ∧ addr < m.data + m.size then addr else 0

/-- `wasm_runtime_validate_app_str_addr`: there is a byte 0 before the end of the memory. -/
def validateAppStrAddr (memory : Option LinearMemory) (appStrOffset : Nat) : Bool :=
  memory.any fun m =>
    decide (appStrOffset < m.memoryDataSize) &&
      (List.range (m.memoryDataSize - appStrOffset)).any fun k => m.bytes (addrAppToNative memory appStrOffset + k) = 0

/-! ## The call -/

/-- What `wasm_runtime_invoke_native` is called with: a type, a signature that is accepted for it, the cells of the arguments, the addresses of further results
behind them, and the memory. `malloc` says whether there is memory for a large array, and `init` what is in the array on the stack. -/
structure Invocation where
  type : FuncType
  signature : List Char
  accepted : checkSymbolSignature type signature = true
  params_le : type.params.length ≤ 65535
  results_le : type.results.length ≤ 65535
  execEnv : Nat
  argv : Nat → UInt32
  memory : Option LinearMemory
  malloc : Bool
  init : Nat → Nat

/-- An argument, with the class that the convention gives it. -/
inductive Arg
  | int (v : Nat)
  | float32 (v : UInt32)
  | float64 (v : Nat)

namespace Arg

def argClass : Arg → ArgClass
  | .int _ => .integer
  | .float32 _ | .float64 _ => .float

/-- The word of the array after the argument is written to it: a 32-bit number only takes the lower half. -/
def store : Arg → Nat → Nat
  | .int v, _ | .float64 v, _ => v
  | .float32 v, old => old / 2 ^ 32 * 2 ^ 32 + v.toNat

/-- A register or slot has the argument. -/
def Fits : Arg → Nat → Prop
  | .int v, w | .float64 v, w => w = v
  | .float32 v, w => w % 2 ^ 32 = v.toNat

theorem fits_store (a : Arg) (old : Nat) : a.Fits (a.store old) := by
  cases a with
  | int v => rfl
  | float64 v => rfl
  | float32 v =>
    have := v.toNat_lt
    show (old / 2 ^ 32 * 2 ^ 32 + v.toNat) % 2 ^ 32 = v.toNat
    omega

end Arg

/-- The state of the marshalling: `argv_src`, the counters, the array, and which of its words have been written. -/
structure Marshal where
  argvSrc : Nat
  nInts : Nat
  nFps : Nat
  nStacks : Nat
  argv1 : Nat → Nat
  written : List Nat

namespace Marshal

/-- A word of the array is written. -/
def write (s : Marshal) (k : Nat) (a : Arg) : Marshal :=
  { s with argv1 := Function.update s.argv1 k (a.store (s.argv1 k)), written := k :: s.written }

/-- An argument is put behind the others: `fps` is at the start of the array, `ints` behind its 8 words, `stacks` behind the next 6. -/
def put (s : Marshal) (a : Arg) : Marshal :=
  match a.argClass with
  | .integer =>
    if s.nInts < 6 then { s.write (8 + s.nInts) a with nInts := s.nInts + 1 } else { s.write (14 + s.nStacks) a with nStacks := s.nStacks + 1 }
  | .float =>
    if s.nFps < 8 then { s.write s.nFps a with nFps := s.nFps + 1 } else { s.write (14 + s.nStacks) a with nStacks := s.nStacks + 1 }

end Marshal

/-- The number of cells of a parameter. -/
def cells (t : ValueType) : Nat := t.cellNum

namespace Invocation
variable (inv : Invocation)

/-- A character of the signature. -/
def sigAt (k : Nat) : Option Char := inv.signature[k]?

/-- `*(uint64 *)argv_src`. -/
def argv64 (src : Nat) : Nat := (inv.argv src).toNat + 2 ^ 32 * (inv.argv (src + 1)).toNat

/-- The case for a 32-bit integer, which can be a pointer or a string. -/
def intParam (i src : Nat) : Option Nat :=
  let argI32 := (inv.argv src).toNat
  if inv.sigAt (i + 1) = some '*' then
    let ptrLen := if inv.sigAt (i + 2) = some '~' then (inv.argv (src + 1)).toNat else 1
    if validateAppAddr inv.memory argI32 ptrLen then some (addrAppToNative inv.memory argI32) else none
  else if inv.sigAt (i + 1) = some '$' then
    if validateAppStrAddr inv.memory argI32 then some (addrAppToNative inv.memory argI32) else none
  else some argI32

/-- The argument for a parameter, if it passes its check. -/
def param (i : Nat) (t : ValueType) (src : Nat) : Option Arg :=
  match t with
  | .i32 => (inv.intParam i src).map .int
  | .i64 => some (.int (inv.argv64 src))
  | .f32 => some (.float32 (inv.argv src))
  | .f64 => some (.float64 (inv.argv64 src))

/-- The loop over the parameters, from one on: the state, and whether it has gone through. -/
def marshalParams : Nat → List ValueType → Marshal → Marshal × Bool
  | _, [], s => (s, true)
  | i, t :: ts, s =>
    match inv.param i t s.argvSrc with
    | some a => marshalParams (i + 1) ts { s.put a with argvSrc := s.argvSrc + cells t }
    | none => (s, false)

/-- The loop over the addresses of further results. -/
def marshalResults : Nat → Marshal → Marshal
  | 0, s => s
  | n + 1, s => marshalResults n { s.put (.int (inv.argv64 s.argvSrc)) with argvSrc := s.argvSrc + 2 }

/-- `ext_ret_count`. -/
def extRetCount : Nat := inv.type.results.length - 1

/-- `argc1`. -/
def argc1 : Nat := 1 + 8 + inv.type.params.length + inv.extRetCount

/-- The array is one on the stack or an allocated one. -/
def allocated : Bool := inv.argc1 ≤ 32 || inv.malloc

/-- The state in front of the loops. -/
def start : Marshal :=
  Marshal.put ⟨0, 0, 0, 0, if inv.argc1 ≤ 32 then inv.init else fun _ => 0, []⟩ (.int inv.execEnv)

/-- The loops, and whether all checks pass. -/
def marshal : Marshal × Bool :=
  match inv.marshalParams 0 inv.type.params inv.start with
  | (s, true) => (inv.marshalResults inv.extRetCount s, true)
  | (s, false) => (s, false)

end Invocation

/-- The registers for arguments and the stack, from its top on, when the native function is entered. -/
structure Registers where
  xmm : Nat → Nat
  int : Nat → Nat
  stack : List Nat

/-- The loop `push_args`, which pushes the last word first. -/
def pushArgs (argv1 : Nat → Nat) : Nat → List Nat → List Nat
  | 0, stack => stack
  | n + 1, stack => pushArgs argv1 n (argv1 (14 + n) :: stack)

/-- What `invokeNative` loads from the array before the call. -/
def invokeNative (argv1 : Nat → Nat) (nStacks : Nat) : Registers := ⟨argv1, fun k => argv1 (8 + k), pushArgs argv1 nStacks []⟩

/-- What is passed at a place. -/
def Registers.at (r : Registers) : Place → Option Nat
  | .register .integer k => some (r.int k)
  | .register .float k => some (r.xmm k)
  | .stack k => r.stack[k]?

/-- The native function after its return: the registers for results, and whether it has left an exception. -/
structure Returned where
  rax : Nat
  xmm0 : Nat
  exception : Bool

/-- The cells of the first result in `argv_ret`. -/
def retCells (type : FuncType) (r : Returned) : List Nat :=
  match type.results.head? with
  | none => []
  | some .i32 => [r.rax % 2 ^ 32]
  | some .i64 => [r.rax % 2 ^ 32, r.rax / 2 ^ 32]
  | some .f32 => [r.xmm0 % 2 ^ 32]
  | some .f64 => [r.xmm0 % 2 ^ 32, r.xmm0 / 2 ^ 32]

/-- What a call leaves: the words of the array that were written, the registers and the stack if the native function was called, the cells of the result, and
the value that is returned. -/
structure Outcome where
  written : List Nat
  call : Option Registers
  ret : List Nat
  ok : Bool

/-- `wasm_runtime_invoke_native`, for a native function that returns so. -/
def runtimeInvokeNative (inv : Invocation) (native : Registers → Returned) : Outcome :=
  if inv.allocated then
    match inv.marshal with
    | (s, true) =>
      let regs := invokeNative s.argv1 s.nStacks
      ⟨s.written, some regs, retCells inv.type (native regs), !(native regs).exception⟩
    | (s, false) => ⟨s.written, none, [], false⟩
  else ⟨[], none, [], false⟩

/-! ## What a call is to do -/

/-- A parameter: its number, its type, and its first cell. -/
structure Param where
  index : Nat
  type : ValueType
  src : Nat

/-- The parameters from one on. -/
def paramsFrom : Nat → Nat → List ValueType → List Param
  | _, _, [] => []
  | i, src, t :: ts => ⟨i, t, src⟩ :: paramsFrom (i + 1) (src + cells t) ts

namespace Invocation
variable (inv : Invocation)

def params : List Param := paramsFrom 0 0 inv.type.params

/-- The number that is passed for a parameter. -/
def value (p : Param) : Nat := if cells p.type = 1 then (inv.argv p.src).toNat else inv.argv64 p.src

def IsPointer (p : Param) : Prop := p.type = .i32 ∧ inv.sigAt (p.index + 1) = some '*'

def IsString (p : Param) : Prop := p.type = .i32 ∧ inv.sigAt (p.index + 1) = some '$'

instance (p : Param) : Decidable (inv.IsPointer p) := inferInstanceAs (Decidable (_ ∧ _))

instance (p : Param) : Decidable (inv.IsString p) := inferInstanceAs (Decidable (_ ∧ _))

/-- The length of what a pointer points to: the next parameter, or a byte. -/
def pointerLength (p : Param) : Nat :=
  if inv.sigAt (p.index + 2) = some '~' then (inv.params[p.index + 1]?).elim 0 inv.value else 1

/-- What a pointer or a string points to is inside the memory. -/
def InMemory (p : Param) : Prop :=
  (inv.IsPointer p → ∃ m ∈ inv.memory, inv.value p + inv.pointerLength p ≤ m.size) ∧
    (inv.IsString p → ∃ m ∈ inv.memory, ∃ k, inv.value p + k < m.size ∧ m.bytes (m.data + inv.value p + k) = 0)

/-- The argument that is to be passed for a parameter: pointers and strings as addresses. -/
def arg (p : Param) : Arg :=
  if inv.IsPointer p ∨ inv.IsString p then .int (inv.memory.elim 0 LinearMemory.data + inv.value p)
  else
    match p.type with
    | .i32 | .i64 => .int (inv.value p)
    | .f32 => .float32 (inv.argv p.src)
    | .f64 => .float64 (inv.value p)

/-- The cells of all parameters. -/
def cellCount : Nat := (inv.type.params.map cells).sum

/-- All arguments: the environment, the parameters, and the addresses of further results. -/
def args : List Arg :=
  .int inv.execEnv :: inv.params.map inv.arg ++ (List.range inv.extRetCount).map fun k => .int (inv.argv64 (inv.cellCount + 2 * k))

/-- The arguments are where the convention has them. -/
def Passed (args : List Arg) (regs : Registers) : Prop :=
  ∀ i a, args[i]? = some a → ∃ w, regs.at (systemV.place ((args.take i).map Arg.argClass) a.argClass) = some w ∧ a.Fits w

/-- Only words of the array are written; the native function is called only with pointers into the memory, and gets all arguments at their places. -/
structure Marshalled (native : Registers → Returned) : Prop where
  written : ∀ k ∈ (runtimeInvokeNative inv native).written, k < inv.argc1
  inMemory : (∃ p ∈ inv.params, ¬ inv.InMemory p) → (runtimeInvokeNative inv native).call = none
  passed : ∀ regs, (runtimeInvokeNative inv native).call = some regs → Passed inv.args regs

end Invocation

end WamrMigrate.Native
