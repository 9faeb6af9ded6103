import WamrMigrate.Lib.Bytes

/-!
# Access to linear memory

The handlers of the plain and atomic memory instructions in `wasm_interp_call_func_bytecode`. The plain ones add the address and the static offset
in 64 bits (`CHECK_MEMORY_OVERFLOW`), the atomic ones hand the check a sum of 32 bits (`CHECK_BULK_MEMORY_OVERFLOW`). Both compare with the product
of the page size and the page count in 32 bits.
-/

namespace WamrMigrate.Interp

/-- How a memory instruction ends without a result. -/
inductive Trap where
  /-- `goto out_of_bounds` -/
  | outOfBounds
  /-- `goto unaligned_atomic` -/
  | unalignedAtomic
  /-- `goto got_exception`, after a wait that failed -/
  | gotException
  deriving DecidableEq

/-- A linear memory, of at most 65536 pages of 64 KiB, in the memory of the process. -/
structure LinearMemory where
  numBytesPerPage : UInt32
  curPageCount : UInt32
  memoryData : Nat
  bytes : Mem
  size_le : numBytesPerPage.toNat * curPageCount.toNat ≤ 2 ^ 32

namespace LinearMemory

/-- The number of bytes. -/
def size (m : LinearMemory) : Nat := m.numBytesPerPage.toNat * m.curPageCount.toNat

/-- `linear_mem_size`. -/
def linearMemSize (m : LinearMemory) : UInt32 := m.numBytesPerPage * m.curPageCount

/-- `CHECK_MEMORY_OVERFLOW`, with the address in the memory of the process. -/
def checkMemoryOverflow (m : LinearMemory) (offset addr : UInt32) (bytes : UInt64) : Except Trap Nat :=
  let offset1 := offset.toUInt64 + addr.toUInt64
  if offset1 + bytes ≤ m.linearMemSize.toUInt64 then .ok (m.memoryData + offset1.toNat) else .error .outOfBounds

/-- `CHECK_BULK_MEMORY_OVERFLOW`. -/
def checkBulkMemoryOverflow (m : LinearMemory) (start : UInt32) (bytes : UInt64) : Except Trap Nat :=
  let offset1 := start.toUInt64
  if offset1 + bytes ≤ m.linearMemSize.toUInt64 then .ok (m.memoryData + offset1.toNat) else .error .outOfBounds

/-- `CHECK_ATOMIC_MEMORY_ACCESS`. -/
def checkAtomicMemoryAccess (maddr align : Nat) : Except Trap Unit :=
  if maddr % 2 ^ align ≠ 0 then .error .unalignedAtomic else .ok ()

def store (m : LinearMemory) (maddr n v : Nat) : LinearMemory := { m with bytes := m.bytes.store maddr n v }

end LinearMemory

/-- A number of `bits` bits extended with its sign to `wide` bits: the `sign_ext` functions. -/
def signExt (bits wide v : Nat) : Nat := if v.testBit (bits - 1) then v + (2 ^ wide - 2 ^ bits) else v

/-- The loads and stores; `signed` tells the two forms of a narrow load apart. -/
inductive PlainOp where
  | i32Load | f32Load | i64Load | f64Load
  | i32Load8 (signed : Bool) | i32Load16 (signed : Bool)
  | i64Load8 (signed : Bool) | i64Load16 (signed : Bool) | i64Load32 (signed : Bool)
  | i32Store | f32Store | i64Store | f64Store
  | i32Store8 | i32Store16 | i64Store8 | i64Store16 | i64Store32
  deriving DecidableEq

/-- The widths of an atomic access to an i32. -/
inductive Width32 where
  | b8 | b16 | b32
  deriving DecidableEq

/-- The widths of an atomic access to an i64. -/
inductive Width64 where
  | b8 | b16 | b32 | b64
  deriving DecidableEq

/-- The operators of the read-modify-write instructions. -/
inductive RmwOp where
  | add | sub | and | or | xor | xchg
  deriving DecidableEq

/-- The instructions after `WASM_OP_ATOMIC_PREFIX` that access memory. -/
inductive AtomicOp where
  | notify | wait32 | wait64
  | i32Load (w : Width32) | i64Load (w : Width64)
  | i32Store (w : Width32) | i64Store (w : Width64)
  | rmwI32 (op : RmwOp) (w : Width32) | rmwI64 (op : RmwOp) (w : Width64)
  | rmwI32Cmpxchg (w : Width32) | rmwI64Cmpxchg (w : Width64)
  deriving DecidableEq

inductive MemOp where
  | plain (op : PlainOp)
  | atomic (op : AtomicOp)
  deriving DecidableEq

/-- What a handler pops or reads besides the address and the offset. -/
structure Operands where
  /-- The value to store or to combine. -/
  sval : Nat
  /-- What a compare-exchange compares with. -/
  expect : Nat
  /-- The alignment hint of an atomic instruction. -/
  align : Nat
  /-- What `wasm_runtime_atomic_wait` or `wasm_runtime_atomic_notify` returns. -/
  ret : UInt32

/-- The number of bytes that an instruction accesses, as the WebAssembly specification has it. -/
def PlainOp.width : PlainOp → Nat
  | .i32Load8 _ | .i64Load8 _ | .i32Store8 | .i64Store8 => 1
  | .i32Load16 _ | .i64Load16 _ | .i32Store16 | .i64Store16 => 2
  | .i32Load | .f32Load | .i64Load32 _ | .i32Store | .f32Store | .i64Store32 => 4
  | .i64Load | .f64Load | .i64Store | .f64Store => 8

def Width32.bytes : Width32 → Nat
  | .b8 => 1
  | .b16 => 2
  | .b32 => 4

def Width64.bytes : Width64 → Nat
  | .b8 => 1
  | .b16 => 2
  | .b32 => 4
  | .b64 => 8

@[inherit_doc PlainOp.width]
def AtomicOp.width : AtomicOp → Nat
  | .notify | .wait32 => 4
  | .wait64 => 8
  | .i32Load w | .i32Store w | .rmwI32 _ w | .rmwI32Cmpxchg w => w.bytes
  | .i64Load w | .i64Store w | .rmwI64 _ w | .rmwI64Cmpxchg w => w.bytes

@[inherit_doc PlainOp.width]
def MemOp.width : MemOp → Nat
  | .plain op => op.width
  | .atomic op => op.width

/-! ## The handlers -/

section Handlers
variable (m : LinearMemory) (offset addr : UInt32)

/-- A load of some bytes, with what is pushed for the number they hold. -/
def loadOp (bytes : UInt64) (push : Nat → Nat) : Except Trap (Option Nat × LinearMemory) := do
  let maddr ← m.checkMemoryOverflow offset addr bytes
  return (some (push (m.bytes.load maddr bytes.toNat)), m)

/-- A store of some bytes; what does not fit is dropped. -/
def storeOp (bytes : UInt64) (sval : Nat) : Except Trap (Option Nat × LinearMemory) := do
  let maddr ← m.checkMemoryOverflow offset addr bytes
  return (none, m.store maddr bytes.toNat sval)

/-- The handlers of the loads and stores. -/
def handlePlain (x : Operands) : PlainOp → Except Trap (Option Nat × LinearMemory)
  | .i32Load | .f32Load => loadOp m offset addr 4 id
  | .i64Load | .f64Load => loadOp m offset addr 8 id
  | .i32Load8 true => loadOp m offset addr 1 (signExt 8 32)
  | .i32Load8 false => loadOp m offset addr 1 id
  | .i32Load16 true => loadOp m offset addr 2 (signExt 16 32)
  | .i32Load16 false => loadOp m offset addr 2 id
  | .i64Load8 true => loadOp m offset addr 1 (signExt 8 64)
  | .i64Load8 false => loadOp m offset addr 1 id
  | .i64Load16 true => loadOp m offset addr 2 (signExt 16 64)
  | .i64Load16 false => loadOp m offset addr 2 id
  | .i64Load32 true => loadOp m offset addr 4 (signExt 32 64)
  | .i64Load32 false => loadOp m offset addr 4 id
  | .i32Store | .f32Store => storeOp m offset addr 4 x.sval
  -- two words, one after the other
  | .i64Store | .f64Store => storeOp m offset addr 8 x.sval
  | .i32Store8 | .i64Store8 => storeOp m offset addr 1 x.sval
  | .i32Store16 | .i64Store16 => storeOp m offset addr 2 x.sval
  | .i64Store32 => storeOp m offset addr 4 x.sval

/-- What `readv op sval` is in a word of `bits` bits; the exchange is `readv * 0 + sval`. -/
def RmwOp.apply (bits : Nat) (readv sval : Nat) : RmwOp → Nat
  | .add => (readv + sval) % 2 ^ bits
  | .sub => (readv + (2 ^ bits - sval % 2 ^ bits)) % 2 ^ bits
  | .and => readv &&& sval
  | .or => readv ||| sval
  | .xor => readv ^^^ sval
  | .xchg => (readv * 0 + sval) % 2 ^ bits

/-- The checks of an atomic instruction, then what it does at its address. -/
def atomicAccess (bytes : UInt64) (align : Nat) (act : Nat → Except Trap (Option Nat × LinearMemory)) :
    Except Trap (Option Nat × LinearMemory) := do
  let maddr ← m.checkBulkMemoryOverflow (addr + offset) bytes
  LinearMemory.checkAtomicMemoryAccess maddr align
  act maddr

def atomicLoad (bytes : UInt64) (align : Nat) : Except Trap (Option Nat × LinearMemory) :=
  atomicAccess m offset addr bytes align fun maddr => .ok (some (m.bytes.load maddr bytes.toNat), m)

def atomicStore (bytes : UInt64) (x : Operands) : Except Trap (Option Nat × LinearMemory) :=
  atomicAccess m offset addr bytes x.align fun maddr => .ok (none, m.store maddr bytes.toNat x.sval)

def atomicRmw (bytes : UInt64) (bits : Nat) (x : Operands) (op : RmwOp) : Except Trap (Option Nat × LinearMemory) :=
  atomicAccess m offset addr bytes x.align fun maddr =>
    let readv := m.bytes.load maddr bytes.toNat
    .ok (some readv, m.store maddr bytes.toNat (op.apply bits readv x.sval))

def atomicCmpxchg (bytes : UInt64) (x : Operands) : Except Trap (Option Nat × LinearMemory) :=
  atomicAccess m offset addr bytes x.align fun maddr =>
    let readv := m.bytes.load maddr bytes.toNat
    .ok (some readv, if readv = x.expect then m.store maddr bytes.toNat x.sval else m)

def atomicWait (bytes : UInt64) (x : Operands) : Except Trap (Option Nat × LinearMemory) :=
  atomicAccess m offset addr bytes x.align fun _ =>
    if x.ret = 0xFFFFFFFF then .error .gotException else .ok (some x.ret.toNat, m)

def handleAtomic (x : Operands) : AtomicOp → Except Trap (Option Nat × LinearMemory)
  | .notify => atomicAccess m offset addr 4 x.align fun _ => .ok (some x.ret.toNat, m)
  | .wait32 => atomicWait m offset addr 4 x
  | .wait64 => atomicWait m offset addr 8 x
  | .i32Load .b8 | .i64Load .b8 => atomicLoad m offset addr 1 x.align
  | .i32Load .b16 | .i64Load .b16 => atomicLoad m offset addr 2 x.align
  | .i32Load .b32 | .i64Load .b32 => atomicLoad m offset addr 4 x.align
  | .i64Load .b64 => atomicLoad m offset addr 8 x.align
  | .i32Store .b8 | .i64Store .b8 => atomicStore m offset addr 1 x
  | .i32Store .b16 | .i64Store .b16 => atomicStore m offset addr 2 x
  | .i32Store .b32 | .i64Store .b32 => atomicStore m offset addr 4 x
  | .i64Store .b64 => atomicStore m offset addr 8 x
  | .rmwI32 op .b8 => atomicRmw m offset addr 1 32 x op
  | .rmwI32 op .b16 => atomicRmw m offset addr 2 32 x op
  | .rmwI32 op .b32 => atomicRmw m offset addr 4 32 x op
  | .rmwI64 op .b8 => atomicRmw m offset addr 1 64 x op
  | .rmwI64 op .b16 => atomicRmw m offset addr 2 64 x op
  | .rmwI64 op .b32 => atomicRmw m offset addr 4 64 x op
  | .rmwI64 op .b64 => atomicRmw m offset addr 8 64 x op
  | .rmwI32Cmpxchg .b8 | .rmwI64Cmpxchg .b8 => atomicCmpxchg m offset addr 1 x
  | .rmwI32Cmpxchg .b16 | .rmwI64Cmpxchg .b16 => atomicCmpxchg m offset addr 2 x
  | .rmwI32Cmpxchg .b32 | .rmwI64Cmpxchg .b32 => atomicCmpxchg m offset addr 4 x
  | .rmwI64Cmpxchg .b64 => atomicCmpxchg m offset addr 8 x

/-- The handler of a memory instruction: what it pushes, if anything, and the memory after it. -/
def handle (x : Operands) : MemOp → Except Trap (Option Nat × LinearMemory)
  | .plain op => handlePlain m offset addr x op
  | .atomic op => handleAtomic m offset addr x op

end Handlers

/-! ## When the checks fail -/

section Checks
variable {m : LinearMemory} {offset addr : UInt32} {bytes : UInt64} {x : Operands}

theorem toNat_linearMemSize (m : LinearMemory) : m.linearMemSize.toNat = m.size % 2 ^ 32 := UInt32.toNat_mul _ _

theorem add_le_iff {start : UInt64} {limit : UInt32} (hs : start.toNat < 2 ^ 33) (hb : bytes.toNat ≤ 8) :
    start + bytes ≤ limit.toUInt64 ↔ start.toNat + bytes.toNat ≤ limit.toNat := by
  rw [UInt64.le_iff_toNat_le, UInt64.toNat_add, UInt32.toNat_toUInt64]
  omega

theorem checkMemoryOverflow_eq (hb : bytes.toNat ≤ 8) : m.checkMemoryOverflow offset addr bytes =
      if addr.toNat + offset.toNat + bytes.toNat ≤ m.size % 2 ^ 32 then .ok (m.memoryData + (addr.toNat + offset.toNat))
      else .error .outOfBounds := by
  have h1 := offset.toNat_lt
  have h2 := addr.toNat_lt
  have hsum : (offset.toUInt64 + addr.toUInt64).toNat = addr.toNat + offset.toNat := by
    rw [UInt64.toNat_add, UInt32.toNat_toUInt64, UInt32.toNat_toUInt64]
    omega
  have hs : (offset.toUInt64 + addr.toUInt64).toNat < 2 ^ 33 := by omega
  unfold LinearMemory.checkMemoryOverflow
  simp only [add_le_iff hs hb, hsum, toNat_linearMemSize]

theorem checkBulkMemoryOverflow_eq (hb : bytes.toNat ≤ 8) (start : UInt32) : m.checkBulkMemoryOverflow start bytes =
      if start.toNat + bytes.toNat ≤ m.size % 2 ^ 32 then .ok (m.memoryData + start.toNat) else .error .outOfBounds := by
  have h1 := start.toNat_lt
  have hs : start.toUInt64.toNat < 2 ^ 33 := by
    rw [UInt32.toNat_toUInt64]
    omega
  unfold LinearMemory.checkBulkMemoryOverflow
  simp only [add_le_iff hs hb, UInt32.toNat_toUInt64, toNat_linearMemSize]

theorem checkMemoryOverflow_error (hb : bytes.toNat ≤ 8) : m.checkMemoryOverflow offset addr bytes = .error .outOfBounds ↔
      m.size % 2 ^ 32 < addr.toNat + offset.toNat + bytes.toNat := by
  rw [checkMemoryOverflow_eq hb, ← Nat.not_le]
  split
  · rename_i hle
    exact ⟨nofun, fun h => absurd hle h⟩
  · rename_i hle
    exact ⟨fun _ => hle, fun _ => rfl⟩

theorem checkBulkMemoryOverflow_error (hb : bytes.toNat ≤ 8) : m.checkBulkMemoryOverflow (addr + offset) bytes = .error .outOfBounds ↔
      m.size % 2 ^ 32 < (addr.toNat + offset.toNat) % 2 ^ 32 + bytes.toNat := by
  rw [checkBulkMemoryOverflow_eq hb, UInt32.toNat_add, ← Nat.not_le]
  split
  · rename_i hle
    exact ⟨nofun, fun h => absurd hle h⟩
  · rename_i hle
    exact ⟨fun _ => hle, fun _ => rfl⟩

/-- When what follows a check never fails with `e`, the whole fails with `e` when the check does. -/
theorem bind_error_iff {α β : Type} {c : Except Trap α} {f : α → Except Trap β} {e : Trap} (hf : ∀ a, f a ≠ .error e) :
    c >>= f = .error e ↔ c = .error e := by
  cases c with
  | error e' => exact ⟨fun h => congrArg _ (Except.error.inj h), fun h => congrArg _ (Except.error.inj h)⟩
  | ok a => exact ⟨fun h => absurd h (hf a), nofun⟩

theorem loadOp_outOfBounds {push : Nat → Nat} (hb : bytes.toNat ≤ 8) :
    loadOp m offset addr bytes push = .error .outOfBounds ↔ m.size % 2 ^ 32 < addr.toNat + offset.toNat + bytes.toNat := by
  refine (bind_error_iff fun maddr => ?_).trans (checkMemoryOverflow_error hb)
  nofun

theorem storeOp_outOfBounds {sval : Nat} (hb : bytes.toNat ≤ 8) :
    storeOp m offset addr bytes sval = .error .outOfBounds ↔ m.size % 2 ^ 32 < addr.toNat + offset.toNat + bytes.toNat := by
  refine (bind_error_iff fun maddr => ?_).trans (checkMemoryOverflow_error hb)
  nofun

theorem checkAtomicMemoryAccess_ne (maddr align : Nat) : LinearMemory.checkAtomicMemoryAccess maddr align ≠ .error .outOfBounds := by
  unfold LinearMemory.checkAtomicMemoryAccess
  split <;> nofun

/-- Nothing behind the first check of an atomic instruction raises this exception. -/
theorem atomicAccess_outOfBounds {align : Nat} {act : Nat → Except Trap (Option Nat × LinearMemory)} (hb : bytes.toNat ≤ 8)
    (hact : ∀ p, act p ≠ .error .outOfBounds) : atomicAccess m offset addr bytes align act = .error .outOfBounds ↔
      m.size % 2 ^ 32 < (addr.toNat + offset.toNat) % 2 ^ 32 + bytes.toNat := by
  refine (bind_error_iff fun maddr => ?_).trans (checkBulkMemoryOverflow_error hb)
  intro herr
  exact checkAtomicMemoryAccess_ne maddr align ((bind_error_iff fun _ => hact maddr).1 herr)

theorem handlePlain_outOfBounds (op : PlainOp) :
    handlePlain m offset addr x op = .error .outOfBounds ↔ m.size % 2 ^ 32 < addr.toNat + offset.toNat + op.width := by
  cases op with
  | i32Load8 signed | i32Load16 signed | i64Load8 signed | i64Load16 signed | i64Load32 signed =>
    cases signed <;> exact loadOp_outOfBounds (by decide)
  | i32Load | f32Load | i64Load | f64Load => exact loadOp_outOfBounds (by decide)
  | i32Store | f32Store | i64Store | f64Store | i32Store8 | i32Store16 | i64Store8 | i64Store16 | i64Store32 =>
    exact storeOp_outOfBounds (by decide)

theorem handleAtomic_outOfBounds (op : AtomicOp) : handleAtomic m offset addr x op = .error .outOfBounds ↔
      m.size % 2 ^ 32 < (addr.toNat + offset.toNat) % 2 ^ 32 + op.width := by
  have hwait : ∀ _ : Nat, (if x.ret = 0xFFFFFFFF then .error .gotException else .ok (some x.ret.toNat, m) :
      Except Trap (Option Nat × LinearMemory)) ≠ .error .outOfBounds := by
    intro _
    split <;> nofun
  cases op with
  | notify => exact atomicAccess_outOfBounds (by decide) (fun _ => nofun)
  | wait32 | wait64 => exact atomicAccess_outOfBounds (by decide) hwait
  | i32Load w | i32Store w | rmwI32 _ w | rmwI32Cmpxchg w | i64Load w | i64Store w | rmwI64 _ w | rmwI64Cmpxchg w =>
    cases w <;> exact atomicAccess_outOfBounds (by decide) (fun _ => nofun)

end Checks

/-- The access is checked in a memory below 4 GiB, and if the instruction is atomic and its address and offset add up to 2 ^ 32 or
more, then what is left of the sum does not lie in the memory either; or the memory has all of 4 GiB and the access is not in it. -/
def CheckedRight (m : LinearMemory) (op : MemOp) (offset addr : UInt32) : Prop :=
  (m.size < 2 ^ 32 ∧
    (2 ^ 32 ≤ addr.toNat + offset.toNat → (∃ p, op = .plain p) ∨ m.size < addr.toNat + offset.toNat - 2 ^ 32 + op.width)) ∨
  (m.size = 2 ^ 32 ∧ 2 ^ 32 < addr.toNat + offset.toNat + op.width)

theorem Width32.bytes_pos (w : Width32) : 0 < w.bytes := by
  cases w <;> decide

theorem Width64.bytes_pos (w : Width64) : 0 < w.bytes := by
  cases w <;> decide

theorem AtomicOp.width_pos (op : AtomicOp) : 0 < op.width := by
  cases op with
  | notify | wait32 | wait64 => decide
  | i32Load w | i32Store w | rmwI32 _ w | rmwI32Cmpxchg w | i64Load w | i64Store w | rmwI64 _ w | rmwI64Cmpxchg w => exact w.bytes_pos

theorem PlainOp.width_pos (op : PlainOp) : 0 < op.width := by
  cases op <;> exact Nat.succ_pos _

/-- An access raises the out-of-bounds exception when it should, and only then, exactly when its check is right for it. -/
theorem outOfBounds_exact_iff (m : LinearMemory) (op : MemOp) (offset addr : UInt32) (x : Operands) :
    (handle m offset addr x op = .error .outOfBounds ↔ m.size < addr.toNat + offset.toNat + op.width) ↔
      CheckedRight m op offset addr := by
  have hsize : m.size ≤ 2 ^ 32 := m.size_le
  have h1 := offset.toNat_lt
  have h2 := addr.toNat_lt
  unfold CheckedRight
  cases op with
  | plain op =>
    have hpos := op.width_pos
    have hplain : ∃ p, MemOp.plain op = .plain p := ⟨op, rfl⟩
    simp only [handle, MemOp.width, handlePlain_outOfBounds, hplain, true_or, implies_true, and_true]
    omega
  | atomic op =>
    have hpos := op.width_pos
    have hplain : ¬∃ p, MemOp.atomic op = .plain p := nofun
    simp only [handle, MemOp.width, handleAtomic_outOfBounds, hplain, false_or]
    omega

/-- One page of memory, all bytes 0. -/
def onePage : LinearMemory :=
  { numBytesPerPage := 65536, curPageCount := 1, memoryData := 0, bytes := fun _ => 0, size_le := by decide }

/-- An atomic load of 4 bytes at address 4294967292 with offset 8 reads the bytes at 4. -/
theorem atomic_load_wraps :
    handle onePage 8 4294967292 ⟨0, 0, 2, 0⟩ (.atomic (.i32Load .b32)) = .ok (some 0, onePage) ∧
      onePage.size < 4294967292 + 8 + (MemOp.atomic (.i32Load .b32)).width := by
  constructor
  · rfl
  · decide

end WamrMigrate.Interp
