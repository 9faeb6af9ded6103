import WamrMigrate.Loader.Pass

/-!
# What the interpreter reads from a rewritten body

`wasm_interp_call_func_bytecode` reads the opcodes and their operands from the rewritten body without any check. An operation is what it then
carries out, compared here with what the body as it was given says.
-/

namespace WamrMigrate

open Loader

/-- Whether a parameter or local takes two cells. An index out of range is excluded by an assertion in the source. -/
def Loader.Func.wideLocal (f : Loader.Func) (idx : Nat) : Bool :=
  match f.localType idx with
  | .ok type => type.is64bit
  | .error _ => false

namespace Interp

/-- The three ways to store into a global. -/
inductive GlobalStore where
  | narrow | wide | auxStack
  deriving DecidableEq, Repr

/-- What the interpreter carries out. A block has no type if the byte behind its opcode is none; a `br_table` lists the depth for each value
of its operand up to the largest that makes a difference; a local is given by its first cell and whether it takes two. -/
inductive Operation where
  | unreachable | nop
  | block (k : BlockKind) (type : Option BlockType)
  | else_ | end_
  | br (depth : Nat)
  | brIf (depth : Nat)
  | brTable (depths : List Nat)
  | return_
  | call (func : Nat)
  | callIndirect (type table : Nat)
  | drop (wide : Bool)
  | select (wide : Bool)
  | local_ (a : LocalAccess) (offset : Nat) (wide : Bool)
  | getGlobal (index : Nat) (wide : Bool)
  | setGlobal (index : Nat) (store : GlobalStore)
  | memory (byte : UInt8) (align offset : Nat)
  | memorySize | memoryGrow
  | i32Const (v : BitVec 32)
  | i64Const (v : BitVec 64)
  | f32Const (bytes : List UInt8)
  | f64Const (bytes : List UInt8)
  | numeric (byte : UInt8)
  | misc (opcode1 : Nat)
  deriving DecidableEq, Repr

/-- `read_leb_uint32`, as a cursor. -/
def uint32 : Cursor Nat := ⟨readLebUint32⟩

/-- `read_leb_int32`, as a cursor. -/
def int32 : Cursor (BitVec 32) := ⟨readLebInt32⟩

/-- `read_leb_int64`, as a cursor. -/
def int64 : Cursor (BitVec 64) := ⟨readLebInt64⟩

/-- `skip_leb`, as a cursor. No integer that the loader has let through takes more than ten bytes. -/
def skip : Cursor Unit := ⟨fun code p => (skipLeb code 10 p).map fun q => ((), q)⟩

/-- The depth that a `br_table` takes for `lidx`: so many are skipped, and the next one is read. -/
def tableTarget : Nat → Cursor Nat
  | 0 => uint32
  | lidx + 1 => do
    skip
    tableTarget lidx

/-- The depths that a `br_table` takes for the values below a bound, each read from the first one on. -/
def tableTargets (code : Code) (p : Nat) : Nat → Option (List Nat)
  | 0 => some []
  | n + 1 => do
    let depths ← tableTargets code p n
    let (depth, _) ← (tableTarget n).run code p
    return depths ++ [depth]

/-- The operands of a `br_table` with `count` and one depths. The position is the one behind the last of them. -/
def tableOperands (count : Nat) : Cursor (List Nat) := ⟨fun code p => do
  let depths ← tableTargets code p (count + 1)
  let (_, q) ← (tableTarget count).run code p
  return (depths, q)⟩

section

variable (m : Module) (f : Loader.Func)

/-- The operation of an opcode, with its operands. -/
def operation : Opcode → Cursor Operation
  | .unreachable => return .unreachable
  | .nop => return .nop
  | .block k => do
    let valueType ← Cursor.byte
    return .block k (BlockType.ofByte valueType)
  | .extBlock k => do
    let typeIndex ← uint32
    return .block k (some (.index typeIndex))
  | .else_ => return .else_
  | .end_ => return .end_
  | .br => do
    let depth ← uint32
    return .br depth
  | .brIf => do
    let depth ← uint32
    return .brIf depth
  | .brTable => do
    let count ← uint32
    let depths ← tableOperands count
    return .brTable depths
  | .return_ => return .return_
  | .call => do
    let fidx ← uint32
    return .call fidx
  | .callIndirect => do
    let tidx ← uint32
    let tblIdx ← uint32
    return .callIndirect tidx tblIdx
  | .drop => return .drop false
  | .drop64 => return .drop true
  | .select => return .select false
  | .select64 => return .select true
  | .local_ a => do
    let localIdx ← uint32
    return .local_ a (f.localOffset localIdx) (f.wideLocal localIdx)
  | .localFast a => do
    let b ← Cursor.byte
    return .local_ a (b &&& 0x7F).toNat (b &&& 0x80 ≠ 0)
  | .getGlobal => do
    let globalIdx ← uint32
    return .getGlobal globalIdx false
  | .getGlobal64 => do
    let globalIdx ← uint32
    return .getGlobal globalIdx true
  | .setGlobal => do
    let globalIdx ← uint32
    return .setGlobal globalIdx .narrow
  | .setGlobal64 => do
    let globalIdx ← uint32
    return .setGlobal globalIdx .wide
  | .setGlobalAuxStack => do
    let globalIdx ← uint32
    return .setGlobal globalIdx .auxStack
  | .memory byte _ => do
    let flags ← uint32
    let offset ← uint32
    return .memory byte flags offset
  | .memorySize => do
    let _ ← uint32
    return .memorySize
  | .memoryGrow => do
    let _ ← uint32
    return .memoryGrow
  | .i32Const => do
    let v ← int32
    return .i32Const v
  | .i64Const => do
    let v ← int64
    return .i64Const v
  | .f32Const => do
    let bytes ← Cursor.times Cursor.byte 4
    return .f32Const bytes
  | .f64Const => do
    let bytes ← Cursor.times Cursor.byte 8
    return .f64Const bytes
  | .numeric byte _ => return .numeric byte
  | .miscPrefix => do
    let opcode1 ← uint32
    return .misc (opcode1 % 2 ^ 8)

/-- An opcode and its operands. -/
def fetch : Cursor Operation := do
  let b ← Cursor.byte
  match Opcode.ofByte b with
  | some o => operation f o
  | none => Cursor.fail

/-- How a global is stored to: by its type, and whether it is the stack pointer of a module with an auxiliary stack. -/
def storeOf (idx : Nat) : GlobalStore :=
  match m.global idx with
  | .ok g =>
    if g.type.is64bit then .wide
    else if 0 < m.auxStackSize ∧ idx = m.auxStackTopGlobalIndex then .auxStack
    else .narrow
  | .error _ => .narrow

/-- Whether a global takes two cells. -/
def wideGlobal (idx : Nat) : Bool :=
  match m.global idx with
  | .ok g => g.type.is64bit
  | .error _ => false

/-- What an instruction of the body stands for. `wide` says that the operand of a `drop` or a `select` is a 64-bit one. -/
def carriedOut (wide : Bool) : Instr → Operation
  | .unreachable => .unreachable
  | .nop => .nop
  | .block k type => .block k (some type)
  | .else_ => .else_
  | .end_ => .end_
  | .br depth => .br depth
  | .brIf depth => .brIf depth
  | .brTable depths => .brTable depths
  | .return_ => .return_
  | .call func => .call func
  | .callIndirect type table => .callIndirect type table
  | .drop => .drop wide
  | .drop64 => .drop true
  | .select => .select wide
  | .select64 => .select true
  | .local_ a idx => .local_ a (f.localOffset idx) (f.wideLocal idx)
  | .getGlobal idx => .getGlobal idx (wideGlobal m idx)
  | .setGlobal idx => .setGlobal idx (storeOf m idx)
  | .memory byte align offset => .memory byte align offset
  | .memorySize => .memorySize
  | .memoryGrow => .memoryGrow
  | .i32Const v => .i32Const v
  | .i64Const v => .i64Const v
  | .f32Const bytes => .f32Const bytes
  | .f64Const bytes => .f64Const bytes
  | .numeric byte => .numeric byte
  | .misc opcode1 => .misc opcode1

end

/-! ## Operands -/

section

variable {m : Module} {f : Loader.Func} {i : Instr} {code code' : Code} {bufEnd p q n v : Nat} {wide : Bool}
variable {ds : List Nat} {o : Opcode} {b : BlockKind}

theorem run_uint32 (h : (leb bufEnd).run code p = some (v, q)) (hc : Agree code code' p q) : uint32.run code' p = some (v, q) :=
  readLebUint32_unchecked (run_leb.1 h) hc

theorem run_int32 {v : BitVec 32} (h : (lebInt32 bufEnd).run code p = some (v, q)) (hc : Agree code code' p q) : int32.run code' p = some (v, q) :=
  readLebInt32_unchecked (run_lebInt32.1 h) hc

theorem run_int64 {v : BitVec 64} (h : (lebInt64 bufEnd).run code p = some (v, q)) (hc : Agree code code' p q) : int64.run code' p = some (v, q) :=
  readLebInt64_unchecked (run_lebInt64.1 h) hc

theorem run_skip (h : (leb bufEnd).run code p = some (v, q)) (hc : Agree code code' p q) : skip.run code' p = some ((), q) := by
  have hlen : q ≤ p + 10 := Nat.le_trans (readLebUint32_length (run_leb.1 h)) (by omega)
  simp [skip, readLebUint32_skip (run_leb.1 h) hc hlen]

theorem run_uint32_zero (h : zeroByte.run code p = some ((), q)) (hc : Agree code code' p q) : uint32.run code' p = some (0, q) := by
  obtain ⟨b, q', hb, h⟩ := Cursor.run_bind_iff.1 h
  cases hb
  split at h
  · next hz =>
    cases h
    have hp : code' p = 0 := (hc p (Nat.le_refl p) (Nat.lt_succ_self p)).trans hz
    simp [uint32, readLebUint32, hp]
  · cases h

theorem run_tableTarget (h : (Cursor.times (leb bufEnd) n).run code p = some (ds, q)) (hc : Agree code code' p q) {lidx : Nat} (hl : lidx < n) :
    ∃ d q', ds[lidx]? = some d ∧ (tableTarget lidx).run code' p = some (d, q') ∧ (lidx + 1 = n → q' = q) := by
  induction n generalizing p ds lidx with
  | zero => exact absurd hl (Nat.not_lt_zero _)
  | succ n ih =>
    obtain ⟨d, p₁, ds', hd, hds, hfirst, hrest, rfl⟩ := Cursor.run_two (leb_local bufEnd) (fun _ => (leb_local bufEnd).times n) h hc
    cases lidx with
    | zero =>
      refine ⟨d, p₁, rfl, run_uint32 hd hfirst, fun hn => ?_⟩
      obtain rfl : n = 0 := by omega
      cases hds
      rfl
    | succ lidx =>
      obtain ⟨d', q', hd', hrun, hlast⟩ := ih hds hrest (Nat.lt_of_succ_lt_succ hl)
      refine ⟨d', q', hd', ?_, fun hn => hlast (Nat.succ.inj hn)⟩
      rw [tableTarget, Cursor.run_bind (run_skip hd hfirst), hrun]

theorem tableTargets_eq (h : (Cursor.times (leb bufEnd) n).run code p = some (ds, q))
    (hc : Agree code code' p q) {k : Nat} (hk : k ≤ n) : tableTargets code' p k = some (ds.take k) := by
  induction k with
  | zero => rfl
  | succ k ih =>
    obtain ⟨d, q', hd, hrun, -⟩ := run_tableTarget h hc hk
    simp [tableTargets, ih (Nat.le_of_succ_le hk), hrun, List.take_add_one, hd]

theorem run_tableOperands (h : (Cursor.times (leb bufEnd) (n + 1)).run code p = some (ds, q))
    (hc : Agree code code' p q) : (tableOperands n).run code' p = some (ds, q) := by
  obtain ⟨d, q', -, hrun, hlast⟩ := run_tableTarget h hc (Nat.lt_succ_self n)
  obtain rfl := hlast rfl
  have hall : tableTargets code' p (n + 1) = some ds := by
    rw [tableTargets_eq h hc (Nat.le_refl _), ← Cursor.times_length h, List.take_length]
  simp [tableOperands, hall, hrun]

/-! ## The instructions -/

theorem miscSig_lt (h : (miscSig n).isSome) : n < 8 := by
  unfold miscSig at h
  by_contra hn
  simp [show ¬ n ≤ 1 by omega, show ¬ n ≤ 3 by omega, show ¬ n ≤ 5 by omega, show ¬ n ≤ 7 by omega] at h

/-- An instruction that is not written over is carried out as it stands. -/
theorem operation_kept {format : Format} (hf : Format.of o = some format)
    (h : (format.read bufEnd).run code p = some (i, q)) (hc : Agree code code' p q) (hkeep : patchOf m f wide i = .keep) :
    (operation f o).run code' p = some (carriedOut m f wide i, q) := by
  have hleb := leb_local bufEnd
  cases o with
  | br | brIf | call | local_ =>
    cases hf
    obtain ⟨v, q', hv, h⟩ := Cursor.run_bind_iff.1 h
    cases h
    exact Cursor.run_bind (run_uint32 hv hc)
  | block k =>
    cases hf
    obtain ⟨t, q', ht, h⟩ := Cursor.run_bind_iff.1 h
    cases h
    simp only [blockType] at ht
    split at ht
    · next ht' =>
      cases ht
      rw [operation, Cursor.run_bind Cursor.run_byte, hc p (Nat.le_refl p) (Nat.lt_succ_self p), ht']
      rfl
    · obtain ⟨x, -, ht⟩ := Option.map_eq_some_iff.1 ht
      cases ht
      cases hkeep
  | brTable =>
    cases hf
    obtain ⟨count, p₁, ds, hcount, hds, hc₁, hc₂, rfl⟩ := Cursor.run_two hleb (fun _ => hleb.times _) h hc
    rw [operation, Cursor.run_bind (run_uint32 hcount hc₁)]
    exact Cursor.run_bind (run_tableOperands hds hc₂)
  | callIndirect =>
    cases hf
    obtain ⟨tidx, p₁, _, htidx, hz, hc₁, hc₂, rfl⟩ := Cursor.run_two hleb (fun _ => zeroByte_local) h hc
    rw [operation, Cursor.run_bind (run_uint32 htidx hc₁)]
    exact Cursor.run_bind (run_uint32_zero hz hc₂)
  | memory byte sig =>
    cases hf
    obtain ⟨align, p₁, offset, halign, hoffset, hc₁, hc₂, rfl⟩ := Cursor.run_two hleb (fun _ => hleb) h hc
    rw [operation, Cursor.run_bind (run_uint32 halign hc₁)]
    exact Cursor.run_bind (run_uint32 hoffset hc₂)
  | drop | select =>
    cases hf
    cases h
    cases wide with
    | false => rfl
    | true => cases hkeep
  | getGlobal =>
    cases hf
    obtain ⟨idx, q', hidx, h⟩ := Cursor.run_bind_iff.1 h
    cases h
    rw [operation, Cursor.run_bind (run_uint32 hidx hc)]
    have hw : wideGlobal m idx = false := by
      unfold wideGlobal
      simp only [patchOf] at hkeep
      split
      · next g hg => simpa [hg] using hkeep
      · rfl
    rw [carriedOut, hw]
    rfl
  | setGlobal =>
    cases hf
    obtain ⟨idx, q', hidx, h⟩ := Cursor.run_bind_iff.1 h
    cases h
    rw [operation, Cursor.run_bind (run_uint32 hidx hc)]
    have hw : storeOf m idx = .narrow := by
      unfold storeOf
      simp only [patchOf] at hkeep
      split
      · next g hg =>
        simp only [hg] at hkeep
        split at hkeep
        · cases hkeep
        · split at hkeep
          · cases hkeep
          · simp [*]
      · rfl
    rw [carriedOut, hw]
    rfl
  | memorySize | memoryGrow =>
    cases hf
    obtain ⟨_, q', hz, h⟩ := Cursor.run_bind_iff.1 h
    cases h
    exact Cursor.run_bind (run_uint32_zero hz hc)
  | i32Const =>
    cases hf
    obtain ⟨v, q', hv, h⟩ := Cursor.run_bind_iff.1 h
    cases h
    exact Cursor.run_bind (run_int32 hv hc)
  | i64Const =>
    cases hf
    obtain ⟨v, q', hv, h⟩ := Cursor.run_bind_iff.1 h
    cases h
    exact Cursor.run_bind (run_int64 hv hc)
  | f32Const | f64Const =>
    cases hf
    obtain ⟨bytes, q', hbytes, h⟩ := Cursor.run_bind_iff.1 h
    cases h
    exact Cursor.run_bind ((Cursor.Local.byte.times _).congr hbytes hc)
  | miscPrefix =>
    cases hf
    obtain ⟨v, q', hv, h⟩ := Cursor.run_bind_iff.1 h
    split at h
    · next hsig =>
      cases h
      rw [operation, Cursor.run_bind (run_uint32 hv hc), Nat.mod_eq_of_lt (Nat.lt_trans (miscSig_lt hsig) (by decide))]
      rfl
    · cases h
  | extBlock | localFast | getGlobal64 | setGlobal64 | setGlobalAuxStack => cases hf
  | _ =>
    cases hf
    cases h
    rfl

theorem fetch_run (ho : Opcode.ofByte (code p) = some o) : (fetch f).run code p = (operation f o).run code (p + 1) := by
  rw [fetch, Cursor.run_bind Cursor.run_byte, ho]

theorem ofByte_extBlock (k : BlockKind) : Opcode.ofByte (Opcode.extBlock k).toByte = some (.extBlock k) := by
  cases k <;> decide

theorem ofByte_localFast (a : LocalAccess) : Opcode.ofByte (Opcode.localFast a).toByte = some (.localFast a) := by
  cases a <;> decide

theorem fastByte_spec (type : ValueType) {offset : Nat} (h : offset < 0x80) :
    (fastByte type offset &&& 0x7F).toNat = offset ∧ decide (fastByte type offset &&& 0x80 ≠ 0) = type.is64bit := by
  have hall : ∀ n < 0x80, (UInt8.ofNat n &&& 0x7F).toNat = n ∧ UInt8.ofNat n &&& 0x80 = 0 ∧
      (UInt8.ofNat (n ||| 0x80) &&& 0x7F).toNat = n ∧ UInt8.ofNat (n ||| 0x80) &&& 0x80 ≠ 0 := by decide
  obtain ⟨hlow, hbit, hlow', hbit'⟩ := hall offset h
  cases hw : type.is64bit with
  | true =>
    rw [fastByte, if_pos hw]
    exact ⟨hlow', decide_eq_true hbit'⟩
  | false =>
    rw [fastByte, if_neg (hw ▸ Bool.false_ne_true)]
    exact ⟨hlow, decide_eq_false (not_not.2 hbit)⟩

/-- An opcode that is written over another one reads the same operands and carries out what the instruction stands for. -/
theorem operation_opcode (h : (instruction bufEnd).run code p = some (i, q))
    (hpatch : patchOf m f wide i = .opcode o) (hc : Agree code code' (p + 1) q) :
    Opcode.ofByte o.toByte = some o ∧ (operation f o).run code' (p + 1) = some (carriedOut m f wide i, q) := by
  obtain ⟨o₀, -, -, h⟩ := instruction_inv h
  cases i with
  | drop | drop64 | select | select64 =>
    cases h
    cases wide with
    | false => cases hpatch
    | true =>
      cases hpatch
      exact ⟨by decide, rfl⟩
  | getGlobal idx =>
    obtain ⟨v, q', hv, h⟩ := Cursor.run_bind_iff.1 h
    cases h
    simp only [patchOf] at hpatch
    split at hpatch
    · next g hg =>
      split at hpatch
      · next hw =>
        cases hpatch
        refine ⟨by decide, ?_⟩
        rw [operation, Cursor.run_bind (run_uint32 hv hc), carriedOut, wideGlobal, hg]
        simp only [hw]
        rfl
      · cases hpatch
    · cases hpatch
  | setGlobal idx =>
    obtain ⟨v, q', hv, h⟩ := Cursor.run_bind_iff.1 h
    cases h
    simp only [patchOf] at hpatch
    split at hpatch
    · next g hg =>
      split at hpatch
      · next hw =>
        cases hpatch
        refine ⟨by decide, ?_⟩
        rw [operation, Cursor.run_bind (run_uint32 hv hc), carriedOut, storeOf, hg]
        simp only [hw, if_true]
        rfl
      next hw =>
      split at hpatch
      · next haux =>
        cases hpatch
        refine ⟨by decide, ?_⟩
        rw [operation, Cursor.run_bind (run_uint32 hv hc), carriedOut, storeOf, hg]
        simp only [hw, haux]
        rfl
      · cases hpatch
    · cases hpatch
  | block b type => cases type <;> cases hpatch
  | local_ a idx =>
    simp only [patchOf] at hpatch
    split at hpatch
    · split at hpatch <;> cases hpatch
    · cases hpatch
  | _ => cases hpatch

/-- Behind an opcode that is written over, the operands are as they were. -/
theorem opcode_written (hpq : p < q) (hc : Agree ((Patch.opcode o).apply code p q) code' p q) : code' p = o.toByte ∧ Agree code code' (p + 1) q := by
  refine ⟨?_, fun k hk hk' => ?_⟩
  · rw [hc p (Nat.le_refl p) hpq, Patch.apply, writeByte_same]
  · rw [hc k (Nat.le_of_succ_le hk) hk', Patch.apply, writeByte_ne (by omega)]

theorem fetch_opcode (h : (instruction bufEnd).run code p = some (i, q)) (hpatch : patchOf m f wide i = .opcode o)
    (hc : Agree ((Patch.opcode o).apply code p q) code' p q) : (fetch f).run code' p = some (carriedOut m f wide i, q) := by
  obtain ⟨hp, himm⟩ := opcode_written (instruction_lt h) hc
  obtain ⟨ho, hop⟩ := operation_opcode h hpatch himm
  rw [fetch_run (hp ▸ ho), hop]

theorem fetch_ext (h : (instruction bufEnd).run code p = some (.block b (.index n), p + 2))
    (hc : Agree (writeByte code p (Opcode.extBlock b).toByte) code' p (p + 2)) :
    (fetch f).run code' p = some (.block b (some (.index n)), p + 2) := by
  have hp : code' p = (Opcode.extBlock b).toByte := by rw [hc p (Nat.le_refl p) (by omega), writeByte_same]
  have himm : Agree code code' (p + 1) (p + 2) := by
    intro k hk hk'
    rw [hc k (Nat.le_of_succ_le hk) hk', writeByte_ne (by omega)]
  rw [fetch_run (hp ▸ ofByte_extBlock b), operation, Cursor.run_bind (run_uint32 (run_leb.2 (instruction_index h)) himm)]
  rfl

theorem fetch_fast (m : Module) (wide : Bool) {a : LocalAccess} {idx : Nat} {type : ValueType} (htype : f.localType idx = .ok type)
    (hoff : f.localOffset idx < 0x80) (hq : p + 2 ≤ q) (hc : Agree ((Patch.fast a (fastByte type (f.localOffset idx))).apply code p q) code' p q) :
    (fetch f).run code' p = some (carriedOut m f wide (.local_ a idx), p + 2) ∧ ∀ k, p + 2 ≤ k → k < q → code' k = Opcode.nop.toByte := by
  have hp : code' p = (Opcode.localFast a).toByte := by
    rw [hc p (Nat.le_refl p) (by omega), Patch.apply, fillNop, if_neg (by omega), writeByte_ne (by omega), writeByte_same]
  have hp' : code' (p + 1) = fastByte type (f.localOffset idx) := by
    rw [hc (p + 1) (by omega) (by omega), Patch.apply, fillNop, if_neg (by omega), writeByte_same]
  obtain ⟨hlow, hbit⟩ := fastByte_spec type hoff
  constructor
  · rw [fetch_run (hp ▸ ofByte_localFast a), operation, Cursor.run_bind Cursor.run_byte, hp', hlow, hbit, carriedOut,
      Loader.Func.wideLocal, htype]
    rfl
  · intro k hk hk'
    rw [hc k (by omega) hk', Patch.apply, fillNop, if_pos ⟨hk, hk'⟩]

/-- The interpreter carries out what an instruction stands for, and finds nothing but `WASM_OP_NOP` in the bytes it leaves; unless the
instruction is a block with an index of more than one byte. -/
theorem fetch_patched (h : (instruction bufEnd).run code p = some (i, q))
    (hc : Agree ((patchOf m f wide i).apply code p q) code' p q) (hi : ∀ b n, i = .block b (.index n) → q = p + 2) :
    ∃ q', (fetch f).run code' p = some (carriedOut m f wide i, q') ∧ q' ≤ q ∧ ∀ k, q' ≤ k → k < q → code' k = Opcode.nop.toByte := by
  have hpq : p < q := instruction_lt h
  have hspec := patchOf_spec m f wide i
  generalize hpatch : patchOf m f wide i = x at hspec hc
  cases hspec with
  | keep =>
    have hp : code' p = code p := hc p (Nat.le_refl p) hpq
    obtain ⟨o, ho, hf, hread⟩ := instruction_inv h
    refine ⟨q, ?_, Nat.le_refl q, fun k hk hk' => by omega⟩
    rw [fetch_run (hp ▸ ho)]
    exact operation_kept hf hread (hc.mono (Nat.le_succ p) (Nat.le_refl q)) hpatch
  | operand | global => exact ⟨q, fetch_opcode h hpatch hc, Nat.le_refl q, fun k hk hk' => by omega⟩
  | ext b idx =>
    obtain rfl := hi b idx rfl
    exact ⟨p + 2, fetch_ext h hc, Nat.le_refl _, fun k hk hk' => by omega⟩
  | fast a known near =>
    have hq : p + 2 ≤ q := (readLebUint32_bounds (instruction_local_index h)).1
    obtain ⟨hrun, hnop⟩ := fetch_fast m wide known near hq hc
    exact ⟨p + 2, hrun, hq, hnop⟩

/-! ## The whole body -/

/-- The interpreter finds the instructions of the body in the rewritten code, each at its place, with nothing but `WASM_OP_NOP` in the bytes
that it leaves; and only opcodes and the bytes of local accesses are written over. The instructions come with the states in which the pass
took them. -/
structure Preserves (m : Module) (f : Loader.Func) (xs : List (State × Placed)) (code' : Code) : Prop where
  carried : ∀ s x, (s, x) ∈ xs →
    ∃ q, (fetch f).run code' x.start = some (carriedOut m f (s.ctx.wideOperand x.instr) x.instr, q) ∧ q ≤ x.next ∧
      ∀ k, q ≤ k → k < x.next → code' k = Opcode.nop.toByte
  kept : ∀ k, code' k ≠ f.code k →
    ∃ x ∈ xs.map Prod.snd, k = x.start ∨ ∃ a idx, x.instr = .local_ a idx ∧ x.start < k ∧ k < x.next

variable {s s' : State} {xs : List (State × Placed)} {x : Placed}

/-- A block with an index of more than one byte is left with its opcode. -/
theorem long_index_opcode (h : (instruction bufEnd).run code p = some (.block b (.index n), q)) (hq : q ≠ p + 2)
    (hc : Agree ((Patch.ext b).apply code p q) code' p q) : Opcode.ofByte (code' p) = some (.block b) := by
  have hlt : p + 1 < q := (readLebUint32_bounds (instruction_index h)).1
  have hp : code' p = code p := by rw [hc p (Nat.le_refl p) (by omega), Patch.apply, writeByte_ne (by omega)]
  obtain ⟨o, ho, hf, -⟩ := instruction_inv h
  obtain rfl : o = .block b := by
    cases o <;> cases hf
    rfl
  rw [hp, ho]

theorem fetch_long_index (h : (instruction bufEnd).run code p = some (.block b (.index n), q)) (hq : q ≠ p + 2)
    (hc : Agree ((Patch.ext b).apply code p q) code' p q) (q' : Nat) : (fetch f).run code' p ≠ some (.block b (some (.index n)), q') := by
  rw [fetch_run (long_index_opcode h hq hc), operation, Cursor.run_bind Cursor.run_byte]
  intro hb
  injection hb with hb
  injection hb with hb
  injection hb with hb hb'
  exact ofByte_ne_index _ hb'

theorem written_at (h : Rounds m f (start f) xs s') (hk : s'.code p ≠ f.code p) : ∃ t x, (t, x) ∈ xs ∧ x.start ≤ p ∧ p < x.next ∧
      (patchOf m f (t.ctx.wideOperand x.instr) x.instr).apply f.code x.start x.next p ≠ f.code p := by
  by_contra hno
  refine hk (h.kept fun x hx => ?_)
  obtain ⟨⟨t, x'⟩, htx, hx'⟩ := List.mem_map.1 hx
  obtain rfl : x' = x := hx'
  by_contra hin
  have hin : x'.start ≤ p ∧ p < x'.next := by omega
  refine hno ⟨t, x', htx, hin.1, hin.2, fun heq => hk ?_⟩
  rw [h.patched htx p hin.1 hin.2]
  exact heq

theorem Rounds.preserves (h : Rounds m f (start f) xs s')
    (hone : ∀ x ∈ xs.map Prod.snd, ∀ b n, x.instr = .block b (.index n) → x.next = x.start + 2) : Preserves m f xs s'.code where
  carried s x hx := fetch_patched (h.reads hx) (h.patched hx) (hone x (List.mem_map_of_mem hx))
  kept k hk := by
    obtain ⟨t, x, htx, hstart, hnext, hne⟩ := written_at h hk
    have hx := List.mem_map_of_mem (f := Prod.snd) htx
    refine ⟨x, hx, ?_⟩
    have hspec := patchOf_spec m f (t.ctx.wideOperand x.instr) x.instr
    generalize patchOf m f (t.ctx.wideOperand x.instr) x.instr = y at hspec hne
    generalize hi : x.instr = i at hspec
    cases hspec with
    | keep => exact absurd rfl hne
    | operand | global => exact .inl (by_contra fun hk' => hne (writeByte_ne hk'))
    | ext b idx =>
      have hlen := hone x hx b idx hi
      refine .inl (by_contra fun hk' => hne (writeByte_ne ?_))
      omega
    | fast a =>
      by_cases hk' : k = x.start
      · exact .inl hk'
      · exact .inr ⟨a, _, rfl, by omega, hnext⟩

/-- The rewriting of an accepted body keeps the program exactly if every block type that is an index is written in one byte. -/
theorem rewriting_preserves_iff (h : prepareBytecode m f = .ok s') :
    ∃ is, listing f = some is ∧ (heads m f).map State.p = is.map Placed.start ∧
      (Preserves m f ((heads m f).zip is) s'.code ↔
        ∀ x ∈ is, ∀ b n, x.instr = .block b (.index n) → x.next = x.start + 2) := by
  obtain ⟨xs, hxs, hheads, hlisting⟩ := prepareBytecode_rounds h
  have hzip : (heads m f).zip (xs.map Prod.snd) = xs := by
    rw [hheads, List.zip_map', List.map_id']
  refine ⟨xs.map Prod.snd, hlisting, ?_, ?_⟩
  · rw [hheads, List.map_map, List.map_map]
    exact List.map_congr_left fun x hx => (hxs.start_le (t := x.1) (x := x.2) hx).2.1
  rw [hzip]
  refine ⟨fun hp x hx b n hi => by_contra fun hlen => ?_, Rounds.preserves hxs⟩
  obtain ⟨⟨t, x'⟩, htx, hx'⟩ := List.mem_map.1 hx
  obtain rfl : x' = x := hx'
  obtain ⟨q, hq, -⟩ := hp.carried t x' htx
  have hread := hxs.reads htx
  have hpatched := hxs.patched htx
  rw [hi] at hread hpatched hq
  exact fetch_long_index hread hlen hpatched q hq

/-- A function without parameters, results and locals, with this body. -/
def bodyOf (bytes : List UInt8) : Loader.Func :=
  { type := ⟨[], []⟩, code := fun k => bytes.getD k 0, codeSize := bytes.length }

/-- A module whose only type has no parameters and no results. -/
def oneType : Module := { types := [⟨[], []⟩] }

/-- An empty block whose type is the index 0, in one byte. -/
def shortIndex : Loader.Func := bodyOf [0x02, 0x00, 0x0b, 0x0b]

/-- The same block with its index in two bytes. -/
def longIndex : Loader.Func := bodyOf [0x02, 0x80, 0x00, 0x0b, 0x0b]

/-- The opcode of the long index is written over the first byte of the index, and the interpreter reads the block with a byte that is no
type, and then the rest of the index as an instruction. -/
theorem long_index_rewritten : ∃ s', prepareBytecode oneType longIndex = .ok s' ∧
    (List.range 5).map s'.code = [0x02, 0xd3, 0x00, 0x0b, 0x0b] ∧
    (fetch longIndex).run s'.code 0 = some (.block .block none, 2) ∧
    ∃ is, listing longIndex = some is ∧ ¬ Preserves oneType longIndex ((heads oneType longIndex).zip is) s'.code := by
  refine ⟨_, rfl, by decide, by decide, _, rfl, fun h => ?_⟩
  obtain ⟨q, hq, -⟩ := h.carried (start longIndex) ⟨0, .block .block (.index 0), 3⟩ (.head _)
  cases hq

/-- With its index in one byte the block is kept. -/
theorem short_index_preserved : ∃ s', prepareBytecode oneType shortIndex = .ok s' ∧
    ∃ is, listing shortIndex = some is ∧ Preserves oneType shortIndex ((heads oneType shortIndex).zip is) s'.code := by
  obtain ⟨s', hs'⟩ : ∃ s', prepareBytecode oneType shortIndex = .ok s' := ⟨_, rfl⟩
  obtain ⟨is, his, -, hiff⟩ := rewriting_preserves_iff hs'
  have hshort : listing shortIndex = some [⟨0, .block .block (.index 0), 2⟩, ⟨2, .end_, 3⟩, ⟨3, .end_, 4⟩] := by decide
  obtain rfl := Option.some.inj (his.symm.trans hshort)
  exact ⟨s', hs', _, hshort, hiff.2 (by simp)⟩

end

end Interp

end WamrMigrate
