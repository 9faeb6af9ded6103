import WamrMigrate.Loader.Prepare

/-!
# What a round of the pass takes and writes

The instructions of a body are those of the binary format, read from the bytes as they came. A round of the loop of `wasm_loader_prepare_bytecode`
takes one of them and writes only into its bytes; so the pass takes the instructions of the body as it was given, up to the `end` that closes the
function.
-/

namespace WamrMigrate.Loader

/-- A block type. -/
def blockType (bufEnd : Nat) : Cursor BlockType := ⟨fun code p =>
  match BlockType.ofByte (code p) with
  | some t => some (t, p + 1)
  | none => ((leb bufEnd).run code p).map fun x => (.index x.1, x.2)⟩

/-- A byte that must be zero. -/
def zeroByte : Cursor Unit := do
  let b ← Cursor.byte
  if b = 0 then return else Cursor.fail

/-- What follows an opcode, and the instruction it then makes. -/
inductive Format where
  /-- Nothing. -/
  | bare (i : Instr)
  /-- An unsigned integer. -/
  | uint32 (mk : Nat → Instr)
  /-- A block type. -/
  | blockType (k : BlockKind)
  /-- The number of depths, and one more depth than that. -/
  | depths
  /-- A type index and a zero byte for the table. -/
  | callIndirect
  /-- Alignment and offset of a memory access. -/
  | memory (byte : UInt8)
  /-- A zero byte. -/
  | zero (i : Instr)
  | int32
  | int64
  /-- One of the opcodes behind `WASM_OP_MISC_PREFIX`. -/
  | misc
  /-- The bytes of a float. -/
  | bytes (n : Nat) (mk : List UInt8 → Instr)

/-- The format of an opcode that may stand in a body as it is given. -/
def Format.of : Opcode → Option Format
  | .unreachable => some (.bare .unreachable)
  | .nop => some (.bare .nop)
  | .block k => some (.blockType k)
  | .else_ => some (.bare .else_)
  | .end_ => some (.bare .end_)
  | .br => some (.uint32 .br)
  | .brIf => some (.uint32 .brIf)
  | .brTable => some .depths
  | .return_ => some (.bare .return_)
  | .call => some (.uint32 .call)
  | .callIndirect => some .callIndirect
  | .drop => some (.bare .drop)
  | .select => some (.bare .select)
  | .drop64 => some (.bare .drop64)
  | .select64 => some (.bare .select64)
  | .local_ a => some (.uint32 (.local_ a))
  | .getGlobal => some (.uint32 .getGlobal)
  | .setGlobal => some (.uint32 .setGlobal)
  | .memory byte _ => some (.memory byte)
  | .memorySize => some (.zero .memorySize)
  | .memoryGrow => some (.zero .memoryGrow)
  | .i32Const => some .int32
  | .i64Const => some .int64
  | .f32Const => some (.bytes 4 .f32Const)
  | .f64Const => some (.bytes 8 .f64Const)
  | .numeric byte _ => some (.bare (.numeric byte))
  | .miscPrefix => some .misc
  | .extBlock _ | .localFast _ | .getGlobal64 | .setGlobal64 | .setGlobalAuxStack => none

/-- What follows an opcode of this format. -/
def Format.read (bufEnd : Nat) : Format → Cursor Instr
  | .bare i => return i
  | .uint32 mk => do
    let v ← leb bufEnd
    return mk v
  | .blockType k => do
    let type ← Loader.blockType bufEnd
    return .block k type
  | .depths => do
    let count ← leb bufEnd
    let depths ← Cursor.times (leb bufEnd) (count + 1)
    return .brTable depths
  | .callIndirect => do
    let idx ← leb bufEnd
    zeroByte
    return .callIndirect idx 0
  | .memory byte => do
    let align ← leb bufEnd
    let offset ← leb bufEnd
    return .memory byte align offset
  | .zero i => do
    zeroByte
    return i
  | .int32 => do
    let v ← lebInt32 bufEnd
    return .i32Const v
  | .int64 => do
    let v ← lebInt64 bufEnd
    return .i64Const v
  | .misc => do
    let opcode1 ← leb bufEnd
    if (miscSig opcode1).isSome then return .misc opcode1 else Cursor.fail
  | .bytes n mk => do
    let bytes ← Cursor.times Cursor.byte n
    return mk bytes

/-- An instruction. -/
def instruction (bufEnd : Nat) : Cursor Instr := do
  let b ← Cursor.byte
  match (Opcode.ofByte b).bind Format.of with
  | some format => format.read bufEnd
  | none => Cursor.fail

/-- How many blocks are open behind an instruction, when `d` are in front of it. -/
def depthAfter (d : Nat) : Instr → Nat
  | .block _ _ => d + 1
  | .end_ => d - 1
  | _ => d

/-- An instruction of a body, with its place. -/
structure Placed where
  start : Nat
  instr : Instr
  next : Nat
  deriving DecidableEq

/-- The instructions from `p` on, up to the `end` that closes the function, when `d` blocks are open inside it. The first argument bounds
their number. -/
def listingFrom (code : Code) (bufEnd : Nat) : Nat → Nat → Nat → Option (List Placed)
  | 0, _, _ => none
  | n + 1, d, p => do
    let (i, q) ← (instruction bufEnd).run code p
    if bufEnd < q then none
    else if i = .end_ ∧ d = 0 then return [⟨p, i, q⟩]
    else
      let rest ← listingFrom code bufEnd n (depthAfter d i) q
      return ⟨p, i, q⟩ :: rest

/-- The instructions of a body. What follows the `end` that closes the function is not part of it. -/
def listing (f : Func) : Option (List Placed) := listingFrom f.code f.codeEnd f.codeSize 0 f.base

/-! ## What is written -/

/-- The operand on top is known, and is a 64-bit one. -/
def Ctx.wideTop (c : Ctx) : Bool :=
  match c.frameRef with
  | .type t :: _ => decide (0 < c.available) && t.is64bit
  | _ => false

/-- The operand that a `drop` or a `select` moves is known, and is a 64-bit one. -/
def Ctx.wideOperand (c : Ctx) : Instr → Bool
  | .drop | .drop64 => c.wideTop
  | .select | .select64 =>
    match c.popFrameRef .i32 with
    | .ok c => c.wideTop
    | .error _ => false
  | _ => false

/-- What is written over an instruction. -/
inductive Patch where
  | keep
  /-- Another opcode. -/
  | opcode (o : Opcode)
  /-- The opcode of a block with an index, two bytes in front of the next instruction. -/
  | ext (k : BlockKind)
  /-- A local access by the cell, with `WASM_OP_NOP` in the rest of the bytes. -/
  | fast (a : LocalAccess) (byte : UInt8)

/-- The code after the instruction at `[p, q)` has been written over. -/
def Patch.apply (code : Code) (p q : Nat) : Patch → Code
  | .keep => code
  | .opcode o => writeByte code p o.toByte
  | .ext k => writeByte code (q - 2) (Opcode.extBlock k).toByte
  | .fast a byte => fillNop (writeByte (writeByte code p (Opcode.localFast a).toByte) (p + 1) byte) (p + 2) q

/-- What the pass writes over an instruction. `wide` is about the operand of a `drop` or a `select`. -/
def patchOf (m : Module) (f : Func) (wide : Bool) : Instr → Patch
  | .block k (.index _) => .ext k
  | .drop | .drop64 => if wide then .opcode .drop64 else .keep
  | .select | .select64 => if wide then .opcode .select64 else .keep
  | .local_ a idx =>
    match f.localType idx with
    | .ok type => if f.localOffset idx < 0x80 then .fast a (fastByte type (f.localOffset idx)) else .keep
    | .error _ => .keep
  | .getGlobal idx =>
    match m.global idx with
    | .ok g => if g.type.is64bit then .opcode .getGlobal64 else .keep
    | .error _ => .keep
  | .setGlobal idx =>
    match m.global idx with
    | .ok g =>
      if g.type.is64bit then .opcode .setGlobal64
      else if 0 < m.auxStackSize ∧ idx = m.auxStackTopGlobalIndex then .opcode .setGlobalAuxStack
      else .keep
    | .error _ => .keep
  | _ => .keep

/-! ## A round -/

theorem failIf_ok {cond : Prop} [Decidable cond] {msg : String} {u : Unit} : failIf cond msg = .ok u ↔ ¬ cond := by
  unfold failIf
  split <;> simp_all

/-- The open blocks are the same. -/
def Ctx.SameBlocks (c c' : Ctx) : Prop := c'.cur = c.cur ∧ c'.outer = c.outer ∧ c'.above = c.above

namespace Ctx

variable {c c' c'' : Ctx}

theorem SameBlocks.refl (c : Ctx) : c.SameBlocks c := ⟨rfl, rfl, rfl⟩

theorem SameBlocks.trans (h : c.SameBlocks c') (h' : c'.SameBlocks c'') : c.SameBlocks c'' :=
  ⟨h'.1.trans h.1, h'.2.1.trans h.2.1, h'.2.2.trans h.2.2⟩

theorem SameBlocks.depth (h : c.SameBlocks c') : c'.outer.length = c.outer.length := congrArg List.length h.2.1

theorem popFrameRef_blocks {t : ValueType} (h : c.popFrameRef t = .ok c') : c.SameBlocks c' := by
  unfold popFrameRef at h
  split at h
  · cases h
    exact .refl c
  · obtain ⟨-, -, h⟩ := bind_ok_iff.1 h
    cases h
    exact ⟨rfl, rfl, rfl⟩

theorem popTypes_blocks {ts : List ValueType} (h : c.popTypes ts = .ok c') : c.SameBlocks c' := by
  induction ts generalizing c' with
  | nil =>
    cases h
    exact .refl c
  | cons t ts ih =>
    obtain ⟨c₁, h₁, h⟩ := bind_ok_iff.1 h
    exact (ih h₁).trans (popFrameRef_blocks h)

theorem pushTypes_blocks (ts : List ValueType) (c : Ctx) : c.SameBlocks (c.pushTypes ts) := by
  induction ts generalizing c with
  | nil => exact .refl c
  | cons t ts ih => exact (show c.SameBlocks (c.pushFrameRef t) from ⟨rfl, rfl, rfl⟩).trans (ih _)

theorem pushPopFrameRef_blocks {sig : NumericSig} (h : c.pushPopFrameRef sig = .ok c') : c.SameBlocks c' := by
  obtain ⟨c₁, h₁, h⟩ := bind_ok_iff.1 h
  cases h
  exact (popTypes_blocks h₁).trans ⟨rfl, rfl, rfl⟩

theorem checkBr_blocks {depth : Nat} (h : c.checkBr depth = .ok c') : c.SameBlocks c' := by
  obtain ⟨b, -, h⟩ := bind_ok_iff.1 h
  split at h
  · obtain ⟨c₁, h₁, h⟩ := bind_ok_iff.1 h
    cases h
    exact (popTypes_blocks h₁).trans (pushTypes_blocks _ _)
  · obtain ⟨-, -, h⟩ := bind_ok_iff.1 h
    cases h
    exact .refl c

theorem checkBlockStack_blocks (h : c.checkBlockStack = .ok c') : c.SameBlocks c' := by
  unfold checkBlockStack at h
  simp only at h
  split at h
  · obtain ⟨c₁, h₁, h⟩ := bind_ok_iff.1 h
    obtain ⟨-, -, h⟩ := bind_ok_iff.1 h
    cases h
    exact (popTypes_blocks h₁).trans (pushTypes_blocks _ _)
  obtain ⟨-, -, h⟩ := bind_ok_iff.1 h
  obtain ⟨-, -, h⟩ := bind_ok_iff.1 h
  cases h
  exact .refl c

end Ctx

section

variable {m : Module} {f : Func} {s s' : State} {r : Round} {i : Instr} {p q : Nat}
variable {code : Code} {c : Ctx}

/-- What a round took, behind its opcode. The last one took the `end` of the function. -/
inductive TookImm (m : Module) (f : Func) (s : State) : Opcode → Round → Prop
  | next {o : Opcode} {s' : State} (format : Format) (i : Instr) (known : Format.of o = some format)
      (read : (format.read f.codeEnd).run s.code s.p = some (i, s'.p))
      (code : s'.code = (patchOf m f (s.ctx.wideOperand i) i).apply s.code (s.p - 1) s'.p)
      (depth : s'.ctx.outer.length = depthAfter s.ctx.outer.length i) (inner : i = .end_ → s.ctx.outer ≠ []) :
      TookImm m f s o (.next s')
  | closed {s' : State} (outer : s.ctx.outer = []) (code : s'.code = s.code) : TookImm m f s .end_ (.closed s')

theorem readBlockType_took {t : BlockType} {type : FuncType} (h : readBlockType m f code p = .ok (t, type, q)) :
    (blockType f.codeEnd).run code p = some (t, q) := by
  unfold readBlockType at h
  unfold blockType
  cases hv : BlockType.ofByte (code p) with
  | some t' =>
    simp only [hv] at h ⊢
    cases h
    rfl
  | none =>
    simp only [hv] at h ⊢
    obtain ⟨⟨idx, q'⟩, hidx, h⟩ := bind_ok_iff.1 h
    obtain ⟨type', -, h⟩ := bind_ok_iff.1 h
    cases h
    rw [run_leb.2 hidx]
    rfl

theorem blockOp_took {k : BlockKind} {ctx : Ctx} (hctx : s.ctx.SameBlocks ctx)
    (h : blockOp m f k { s with ctx } = .ok r) : TookImm m f s (.block k) r := by
  obtain ⟨⟨t, type, q⟩, ht, h⟩ := bind_ok_iff.1 h
  obtain ⟨ctx', hctx', h⟩ := bind_ok_iff.1 h
  cases h
  refine .next _ (.block k t) rfl ?_ ?_ ?_ nofun
  · exact Cursor.run_bind (readBlockType_took ht)
  · cases t <;> rfl
  · rw [(Ctx.pushTypes_blocks _ _).2.1]
    exact congrArg (·.length + 1) (hctx.trans (Ctx.popTypes_blocks hctx')).2.1

theorem elseOp_took (h : elseOp s = .ok r) : TookImm m f s .else_ r := by
  obtain ⟨-, -, h⟩ := bind_ok_iff.1 h
  obtain ⟨ctx, hctx, h⟩ := bind_ok_iff.1 h
  cases h
  refine .next _ .else_ rfl rfl rfl ?_ nofun
  rw [(Ctx.pushTypes_blocks _ _).2.1]
  exact (Ctx.checkBlockStack_blocks hctx).depth

theorem endOp_took (h : endOp f s = .ok r) : TookImm m f s .end_ r := by
  obtain ⟨ctx, hctx, h⟩ := bind_ok_iff.1 h
  obtain ⟨-, -, h⟩ := bind_ok_iff.1 h
  have hout : ctx.outer = s.ctx.outer := (Ctx.checkBlockStack_blocks hctx).2.1
  split at h
  · next hnil =>
    cases h
    exact .closed (hout ▸ hnil) rfl
  next b bs hb =>
  cases h
  rw [hb] at hout
  refine .next _ .end_ rfl rfl rfl ?_ fun _ => ?_
  · simp [depthAfter, ← hout, Ctx.setPolymorphic]
  · simp [← hout]

theorem checkBranchBlock_took {c' : Ctx} {depth : Nat} (h : checkBranchBlock f code c p = .ok (c', depth, q)) :
    readLebUint32 code f.codeEnd p = .ok (depth, q) ∧ c.SameBlocks c' := by
  obtain ⟨⟨d, q'⟩, hd, h⟩ := bind_ok_iff.1 h
  obtain ⟨c₁, hc, h⟩ := bind_ok_iff.1 h
  cases h
  exact ⟨hd, Ctx.checkBr_blocks hc⟩

theorem tableTargets_took {types : List ValueType} {n : Nat} {c' : Ctx} (h : tableTargets f code types n c p = .ok (c', q)) :
    (∃ depths, (Cursor.times (leb f.codeEnd) n).run code p = some (depths, q)) ∧ c.SameBlocks c' := by
  induction n generalizing c p with
  | zero =>
    cases h
    exact ⟨⟨[], rfl⟩, .refl _⟩
  | succ n ih =>
    obtain ⟨⟨c₁, depth, p₁⟩, h₁, h⟩ := bind_ok_iff.1 h
    obtain ⟨types', -, h⟩ := bind_ok_iff.1 h
    obtain ⟨-, -, h⟩ := bind_ok_iff.1 h
    obtain ⟨hread, hblocks⟩ := checkBranchBlock_took h₁
    obtain ⟨⟨depths, hdepths⟩, hrest⟩ := ih h
    refine ⟨⟨depth :: depths, ?_⟩, hblocks.trans hrest⟩
    rw [Cursor.times, Cursor.run_bind (run_leb.2 hread)]
    exact Cursor.run_bind hdepths

theorem Ctx.wideTop_of_empty (h : c.available ≤ 0) : c.wideTop = false := by
  unfold wideTop
  split
  · rw [decide_eq_false (Int.not_lt.2 h)]
    rfl
  · rfl

theorem Ctx.wideTop_of_cons {t : ValueType} {rest : List Cell} (h : ¬ c.available ≤ 0)
    (hc : c.frameRef = .type t :: rest) : c.wideTop = t.is64bit := by
  unfold wideTop
  rw [hc]
  simp only [Int.not_le.1 h, decide_true, Bool.true_and]

theorem dropOp_next (h : dropOp s = .ok r) : ∃ s', r = .next s' ∧ s'.p = s.p ∧ s'.ctx.outer = s.ctx.outer ∧
      s'.code = (patchOf m f s.ctx.wideTop .drop).apply s.code (s.p - 1) s'.p := by
  unfold dropOp at h
  split at h
  · next hav =>
    split at h
    · cases h
      rw [Ctx.wideTop_of_empty hav]
      exact ⟨_, rfl, rfl, rfl, rfl⟩
    · cases h
  next hav =>
  split at h
  · next t rest hcells =>
    cases h
    rw [Ctx.wideTop_of_cons hav hcells]
    refine ⟨_, rfl, rfl, rfl, ?_⟩
    cases t <;> rfl
  · cases h

theorem selectOp_next (h : selectOp s = .ok r) : ∃ s', r = .next s' ∧ s'.p = s.p ∧ s'.ctx.outer = s.ctx.outer ∧
      s'.code = (patchOf m f (s.ctx.wideOperand .select) .select).apply s.code (s.p - 1) s'.p := by
  obtain ⟨ctx, hctx, h⟩ := bind_ok_iff.1 h
  have hout : ctx.outer = s.ctx.outer := (Ctx.popFrameRef_blocks hctx).2.1
  have hwide : s.ctx.wideOperand .select = ctx.wideTop := by simp only [Ctx.wideOperand, hctx]
  rw [hwide]
  split at h
  · next hav =>
    split at h
    · cases h
      rw [Ctx.wideTop_of_empty hav]
      exact ⟨_, rfl, rfl, hout, rfl⟩
    · cases h
  next hav =>
  split at h
  · next t rest hcells =>
    obtain ⟨ctx', hctx', h⟩ := bind_ok_iff.1 h
    cases h
    rw [Ctx.wideTop_of_cons hav hcells]
    refine ⟨_, rfl, rfl, (Ctx.pushPopFrameRef_blocks hctx').2.1.trans hout, ?_⟩
    cases t <;> rfl
  · cases h

theorem localOp_took {a : LocalAccess} (h : localOp f a s = .ok r) : TookImm m f s (.local_ a) r := by
  obtain ⟨⟨idx, q⟩, hidx, h⟩ := bind_ok_iff.1 h
  obtain ⟨type, htype, h⟩ := bind_ok_iff.1 h
  obtain ⟨ctx, hctx, h⟩ := bind_ok_iff.1 h
  cases h
  have hblocks : s.ctx.SameBlocks ctx := by
    cases a with
    | get =>
      cases hctx
      exact ⟨rfl, rfl, rfl⟩
    | set => exact Ctx.popFrameRef_blocks hctx
    | tee =>
      obtain ⟨c₁, hc₁, hctx⟩ := bind_ok_iff.1 hctx
      cases hctx
      exact (Ctx.popFrameRef_blocks hc₁).trans ⟨rfl, rfl, rfl⟩
  refine .next _ (.local_ a idx) rfl ?_ ?_ hblocks.depth nofun
  · exact Cursor.run_bind (run_leb.2 hidx)
  · simp only [patchOf, htype, rewriteLocal]
    split <;> rfl

theorem getGlobalOp_took (h : getGlobalOp m f s = .ok r) : TookImm m f s .getGlobal r := by
  obtain ⟨⟨idx, q⟩, hidx, h⟩ := bind_ok_iff.1 h
  obtain ⟨g, hg, h⟩ := bind_ok_iff.1 h
  cases h
  refine .next _ (.getGlobal idx) rfl ?_ ?_ rfl nofun
  · exact Cursor.run_bind (run_leb.2 hidx)
  · simp only [patchOf, hg]
    split <;> rfl

theorem setGlobalOp_took (h : setGlobalOp m f s = .ok r) : TookImm m f s .setGlobal r := by
  obtain ⟨⟨idx, q⟩, hidx, h⟩ := bind_ok_iff.1 h
  obtain ⟨g, hg, h⟩ := bind_ok_iff.1 h
  obtain ⟨-, -, h⟩ := bind_ok_iff.1 h
  obtain ⟨ctx, hctx, h⟩ := bind_ok_iff.1 h
  cases h
  refine .next _ (.setGlobal idx) rfl ?_ ?_ (Ctx.popFrameRef_blocks hctx).depth nofun
  · exact Cursor.run_bind (run_leb.2 hidx)
  simp only [patchOf, hg]
  split
  · rfl
  · split <;> rfl

theorem memoryOp_took {byte : UInt8} {sig : MemorySig} (h : memoryOp m f sig s = .ok r) : TookImm m f s (.memory byte sig) r := by
  obtain ⟨-, -, h⟩ := bind_ok_iff.1 h
  obtain ⟨⟨align, p₁⟩, halign, h⟩ := bind_ok_iff.1 h
  obtain ⟨⟨offset, q⟩, hoffset, h⟩ := bind_ok_iff.1 h
  obtain ⟨-, -, h⟩ := bind_ok_iff.1 h
  obtain ⟨ctx, hctx, h⟩ := bind_ok_iff.1 h
  cases h
  have hblocks : s.ctx.SameBlocks ctx := by
    unfold memoryOperands at hctx
    split at hctx
    · exact Ctx.popTypes_blocks hctx
    · exact Ctx.pushPopFrameRef_blocks hctx
  refine .next _ (.memory byte align offset) rfl ?_ rfl hblocks.depth nofun
  rw [Format.read, Cursor.run_bind (run_leb.2 halign)]
  exact Cursor.run_bind (run_leb.2 hoffset)

theorem callOp_next {type : FuncType} (h : callOp type q s = .ok r) :
    ∃ s', r = .next s' ∧ s'.p = q ∧ s'.code = s.code ∧ s'.ctx.outer = s.ctx.outer := by
  obtain ⟨ctx, hctx, h⟩ := bind_ok_iff.1 h
  cases h
  exact ⟨_, rfl, rfl, rfl, ((Ctx.popTypes_blocks hctx).trans (Ctx.pushTypes_blocks _ _)).2.1⟩

theorem run_zeroByte (h : code p = 0) : zeroByte.run code p = some ((), p + 1) := by
  rw [zeroByte, Cursor.run_bind Cursor.run_byte, if_pos h]
  rfl

theorem zeroByte_took {u : Unit} (h : failIf (code p ≠ 0) "zero byte expected" = .ok u) : zeroByte.run code p = some ((), p + 1) :=
  run_zeroByte (not_not.1 (failIf_ok.1 h))

theorem checkTableIndex_took {u : Unit} (h : m.checkTableIndex (code p).toNat = .ok u) : zeroByte.run code p = some ((), p + 1) := by
  unfold Module.checkTableIndex at h
  split at h
  · cases h
  · exact run_zeroByte (UInt8.toNat_inj.1 (not_not.1 ‹_›))

theorem dispatch_took {op : UInt8} {o : Opcode} (ho : Opcode.ofByte op = some o) (h : dispatch m f op s = .ok r) : TookImm m f s o r := by
  simp only [dispatch, ho] at h
  cases o with
  | unreachable | nop | f32Const | f64Const =>
    cases h
    exact .next _ _ rfl rfl rfl rfl nofun
  | block k =>
    cases k with
    | ite =>
      obtain ⟨ctx, hctx, h⟩ := bind_ok_iff.1 h
      exact blockOp_took (Ctx.popFrameRef_blocks hctx) h
    | block | loop => exact blockOp_took (.refl _) h
  | else_ => exact elseOp_took h
  | end_ => exact endOp_took h
  | br =>
    obtain ⟨⟨ctx, depth, q⟩, hb, h⟩ := bind_ok_iff.1 h
    cases h
    obtain ⟨hread, hblocks⟩ := checkBranchBlock_took hb
    refine .next _ (.br depth) rfl ?_ rfl hblocks.depth nofun
    exact Cursor.run_bind (run_leb.2 hread)
  | brIf =>
    obtain ⟨ctx₁, hctx₁, h⟩ := bind_ok_iff.1 h
    obtain ⟨⟨ctx, depth, q⟩, hb, h⟩ := bind_ok_iff.1 h
    cases h
    obtain ⟨hread, hblocks⟩ := checkBranchBlock_took hb
    refine .next _ (.brIf depth) rfl ?_ rfl ((Ctx.popFrameRef_blocks hctx₁).trans hblocks).depth nofun
    exact Cursor.run_bind (run_leb.2 hread)
  | brTable =>
    obtain ⟨⟨count, p₁⟩, hcount, h⟩ := bind_ok_iff.1 h
    obtain ⟨ctx₁, hctx₁, h⟩ := bind_ok_iff.1 h
    obtain ⟨⟨ctx₂, depth, p₂⟩, hb, h⟩ := bind_ok_iff.1 h
    obtain ⟨types, -, h⟩ := bind_ok_iff.1 h
    obtain ⟨⟨ctx, q⟩, ht, h⟩ := bind_ok_iff.1 h
    cases h
    obtain ⟨hread, hblocks⟩ := checkBranchBlock_took hb
    obtain ⟨⟨depths, hdepths⟩, hblocks'⟩ := tableTargets_took ht
    have hblocks := ((Ctx.popFrameRef_blocks hctx₁).trans hblocks).trans hblocks'
    refine .next _ (.brTable (depth :: depths)) rfl ?_ rfl hblocks.depth nofun
    rw [Format.read, Cursor.run_bind (run_leb.2 hcount)]
    refine Cursor.run_bind ?_
    rw [Cursor.times, Cursor.run_bind (run_leb.2 hread)]
    exact Cursor.run_bind hdepths
  | return_ =>
    obtain ⟨ctx, hctx, h⟩ := bind_ok_iff.1 h
    cases h
    exact .next _ .return_ rfl rfl rfl (Ctx.popTypes_blocks hctx).depth nofun
  | call =>
    obtain ⟨⟨idx, q⟩, hidx, h⟩ := bind_ok_iff.1 h
    obtain ⟨type, -, h⟩ := bind_ok_iff.1 h
    obtain ⟨s', rfl, hp, hcode, hout⟩ := callOp_next h
    refine .next _ (.call idx) rfl ?_ hcode (congrArg List.length hout) nofun
    rw [hp]
    exact Cursor.run_bind (run_leb.2 hidx)
  | callIndirect =>
    obtain ⟨⟨idx, p₁⟩, hidx, h⟩ := bind_ok_iff.1 h
    obtain ⟨-, -, h⟩ := bind_ok_iff.1 h
    obtain ⟨_, htable, h⟩ := bind_ok_iff.1 h
    obtain ⟨ctx, hctx, h⟩ := bind_ok_iff.1 h
    obtain ⟨type, -, h⟩ := bind_ok_iff.1 h
    obtain ⟨s', rfl, hp, hcode, hout⟩ := callOp_next h
    refine .next _ (.callIndirect idx 0) rfl ?_ hcode ?_ nofun
    · rw [Format.read, Cursor.run_bind (run_leb.2 hidx), hp]
      exact Cursor.run_bind (checkTableIndex_took htable)
    · exact congrArg List.length (hout.trans (Ctx.popFrameRef_blocks hctx).2.1)
  | drop =>
    obtain ⟨s', rfl, hp, hout, hcode⟩ := dropOp_next (m := m) (f := f) h
    exact .next _ .drop rfl (by rw [hp]; rfl) hcode (congrArg List.length hout) nofun
  | drop64 =>
    obtain ⟨s', rfl, hp, hout, hcode⟩ := dropOp_next (m := m) (f := f) h
    exact .next _ .drop64 rfl (by rw [hp]; rfl) hcode (congrArg List.length hout) nofun
  | select =>
    obtain ⟨s', rfl, hp, hout, hcode⟩ := selectOp_next (m := m) (f := f) h
    exact .next _ .select rfl (by rw [hp]; rfl) hcode (congrArg List.length hout) nofun
  | select64 =>
    obtain ⟨s', rfl, hp, hout, hcode⟩ := selectOp_next (m := m) (f := f) h
    exact .next _ .select64 rfl (by rw [hp]; rfl) hcode (congrArg List.length hout) nofun
  | local_ a => exact localOp_took h
  | getGlobal => exact getGlobalOp_took h
  | setGlobal => exact setGlobalOp_took h
  | memory byte sig => exact memoryOp_took h
  | memorySize =>
    obtain ⟨-, -, h⟩ := bind_ok_iff.1 h
    obtain ⟨_, hz, h⟩ := bind_ok_iff.1 h
    cases h
    refine .next _ (.memorySize) rfl ?_ rfl rfl nofun
    exact Cursor.run_bind (zeroByte_took hz)
  | memoryGrow =>
    obtain ⟨-, -, h⟩ := bind_ok_iff.1 h
    obtain ⟨_, hz, h⟩ := bind_ok_iff.1 h
    obtain ⟨ctx, hctx, h⟩ := bind_ok_iff.1 h
    cases h
    refine .next _ (.memoryGrow) rfl ?_ rfl (Ctx.pushPopFrameRef_blocks hctx).depth nofun
    exact Cursor.run_bind (zeroByte_took hz)
  | i32Const =>
    obtain ⟨⟨v, q⟩, hv, h⟩ := bind_ok_iff.1 h
    cases h
    exact .next _ (.i32Const v) rfl (Cursor.run_bind (run_lebInt32.2 hv)) rfl rfl nofun
  | i64Const =>
    obtain ⟨⟨v, q⟩, hv, h⟩ := bind_ok_iff.1 h
    cases h
    exact .next _ (.i64Const v) rfl (Cursor.run_bind (run_lebInt64.2 hv)) rfl rfl nofun
  | numeric byte sig =>
    obtain ⟨ctx, hctx, h⟩ := bind_ok_iff.1 h
    cases h
    exact .next _ (.numeric byte) rfl rfl rfl (Ctx.pushPopFrameRef_blocks hctx).depth nofun
  | miscPrefix =>
    obtain ⟨⟨opcode1, q⟩, hop, h⟩ := bind_ok_iff.1 h
    simp only at h
    split at h
    · next sig hsig =>
      obtain ⟨ctx, hctx, h⟩ := bind_ok_iff.1 h
      cases h
      refine .next _ (.misc opcode1) rfl ?_ rfl (Ctx.pushPopFrameRef_blocks hctx).depth nofun
      rw [Format.read, Cursor.run_bind (run_leb.2 hop), hsig]
      rfl
    · cases h
  | extBlock | localFast | getGlobal64 | setGlobal64 | setGlobalAuxStack => cases h

/-- What a round took: an instruction, whose bytes it has rewritten. The last one took the `end` of the function. -/
inductive Took (m : Module) (f : Func) (s : State) : Round → Prop
  | next {s' : State} (i : Instr) (read : (instruction f.codeEnd).run s.code s.p = some (i, s'.p))
      (code : s'.code = (patchOf m f (s.ctx.wideOperand i) i).apply s.code s.p s'.p)
      (depth : s'.ctx.outer.length = depthAfter s.ctx.outer.length i) (inner : i = .end_ → s.ctx.outer ≠ []) :
      Took m f s (.next s')
  | closed {s' : State} (read : (instruction f.codeEnd).run s.code s.p = some (.end_, s.p + 1))
      (outer : s.ctx.outer = []) (code : s'.code = s.code) : Took m f s (.closed s')

theorem instruction_run {o : Opcode} {format : Format} {bufEnd : Nat} (ho : Opcode.ofByte (code p) = some o)
    (hf : Format.of o = some format) : (instruction bufEnd).run code p = (format.read bufEnd).run code (p + 1) := by
  rw [instruction, Cursor.run_bind Cursor.run_byte, ho, Option.bind_some, hf]

theorem step_took (h : step m f s = .ok r) : Took m f s r := by
  cases ho : Opcode.ofByte (s.code s.p) with
  | none =>
    simp only [step, dispatch, ho] at h
    cases h
  | some o =>
    cases dispatch_took ho h with
    | next format i known read code depth inner => exact .next i (instruction_run ho known ▸ read) code depth inner
    | closed outer code => exact .closed (instruction_run ho rfl) outer code

end

/-! ## The bytes of an instruction -/

theorem blockType_local (bufEnd : Nat) : (blockType bufEnd).Local where
  le {code p a q} h := by
    simp only [blockType] at h
    split at h
    · cases h
      exact Nat.le_succ p
    · obtain ⟨x, hx, h⟩ := Option.map_eq_some_iff.1 h
      cases h
      exact (leb_local bufEnd).le hx
  congr {code code' p a q} h hc := by
    have hlt : p < q := by
      simp only [blockType] at h
      split at h
      · cases h
        exact Nat.lt_succ_self p
      · obtain ⟨x, hx, h⟩ := Option.map_eq_some_iff.1 h
        cases h
        exact (readLebUint32_bounds (run_leb.1 hx)).1
    simp only [blockType, hc p (Nat.le_refl p) hlt] at h ⊢
    split at h
    · exact h
    obtain ⟨x, hx, h⟩ := Option.map_eq_some_iff.1 h
    cases h
    rw [(leb_local bufEnd).congr hx hc]
    rfl

theorem zeroByte_local : zeroByte.Local :=
  Cursor.Local.byte.bind fun b => by
    split
    · exact .pure ()
    · exact .fail

theorem Format.read_local (bufEnd : Nat) (format : Format) : (format.read bufEnd).Local := by
  have hleb := leb_local bufEnd
  cases format with
  | bare i => exact .pure i
  | uint32 mk => exact hleb.bind fun v => .pure _
  | blockType k => exact (blockType_local bufEnd).bind fun t => .pure _
  | depths => exact hleb.bind fun count => (hleb.times (count + 1)).bind fun ds => .pure _
  | callIndirect => exact hleb.bind fun idx => zeroByte_local.bind fun _ => .pure _
  | memory byte => exact hleb.bind fun align => hleb.bind fun offset => .pure _
  | zero i => exact zeroByte_local.bind fun _ => .pure i
  | int32 => exact (lebInt32_local bufEnd).bind fun v => .pure _
  | int64 => exact (lebInt64_local bufEnd).bind fun v => .pure _
  | misc =>
    refine hleb.bind fun v => ?_
    split
    · exact .pure _
    · exact .fail
  | bytes n mk => exact (Cursor.Local.byte.times n).bind fun v => .pure _

theorem instruction_local (bufEnd : Nat) : (instruction bufEnd).Local :=
  Cursor.Local.byte.bind fun b => by
    split
    · exact Format.read_local bufEnd _
    · exact .fail

end WamrMigrate.Loader
