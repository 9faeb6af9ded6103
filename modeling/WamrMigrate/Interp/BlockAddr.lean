import WamrMigrate.Interp.Fetch

/-!
# wasm_loader_find_block_addr

The interpreter finds the `else` and the `end` of a block by a scan of the rewritten body that steps over the operands. The scan also notes the
blocks it comes through, and what it has found goes into a cache with two entries for each value of the lowest six bits of the start address.
Addresses are positions in memory, and `none` is `NULL`. The end of the code is given as `(uint8 *)-1`, here any address behind the body.
-/

namespace WamrMigrate.Interp

open Loader

/-- `BlockAddr`. -/
structure BlockAddr where
  startAddr : Option Nat := none
  elseAddr : Option Nat := none
  endAddr : Option Nat := none
  deriving DecidableEq, Repr

/-! ## The scan -/

/-- What an instruction means for the nesting of blocks. -/
inductive Role where
  | opens | turns | closes | inside
  deriving DecidableEq

def Role.ofInstr : Instr → Role
  | .block _ _ => .opens
  | .else_ => .turns
  | .end_ => .closes
  | _ => .inside

def Role.ofOpcode : Opcode → Role
  | .block _ | .extBlock _ => .opens
  | .else_ => .turns
  | .end_ => .closes
  | _ => .inside

section

variable (codeEnd : Nat)

/-- `skip_leb`, as a cursor. It stops at the end of the memory at the latest. -/
def skipInt : Cursor Unit := ⟨fun code p => (skipLeb code codeEnd p).map fun q => ((), q)⟩

/-- `CHECK_BUF` for one byte, and the byte. -/
def checkedByte : Cursor UInt8 := ⟨fun code p => if codeEnd < p + 1 then none else some (code p, p + 1)⟩

/-- The operands of an opcode, stepped over. -/
def operands : Opcode → Cursor Unit
  | .unreachable | .nop | .else_ | .end_ | .return_ | .drop | .select | .drop64 | .select64 | .numeric _ _ => return
  | .block _ => do
    let _ ← Cursor.byte
    return
  | .extBlock _ | .br | .brIf | .call | .local_ _ | .getGlobal | .setGlobal | .getGlobal64 | .setGlobal64 | .setGlobalAuxStack
  | .memorySize | .memoryGrow | .i32Const | .i64Const => skipInt codeEnd
  | .brTable => do
    let count ← leb codeEnd
    let _ ← Cursor.times (skipInt codeEnd) (count + 1)
    return
  | .callIndirect => do
    skipInt codeEnd
    let _ ← checkedByte codeEnd
    return
  | .localFast _ => do
    let _ ← checkedByte codeEnd
    return
  | .memory _ _ => do
    skipInt codeEnd
    skipInt codeEnd
  | .f32Const => do
    let _ ← Cursor.times Cursor.byte 4
    return
  | .f64Const => do
    let _ ← Cursor.times Cursor.byte 8
    return
  | .miscPrefix => do
    let opcode1 ← leb codeEnd
    if (miscSig opcode1).isSome then return else Cursor.fail

/-- An opcode with its operands, stepped over. -/
def skipInstr : Cursor Opcode := do
  let b ← Cursor.byte
  match Opcode.ofByte b with
  | some o => do
    operands codeEnd o
    return o
  | none => Cursor.fail

/-- `block_stack`, with room for 16 blocks: what is noted about deeper ones is lost. -/
abbrev BlockStack := Nat → BlockAddr

/-- A change of a block that has a place in `block_stack`. -/
def BlockStack.note (stack : BlockStack) (d : Nat) (change : BlockAddr → BlockAddr) : BlockStack :=
  if d < 16 then Function.update stack d (change (stack d)) else stack

/-- The variables of the scan; `depth` is `block_nested_depth`. -/
structure Scan where
  p : Nat
  depth : Nat
  elseAddr : Option Nat
  stack : BlockStack

/-- What the scan has found. -/
structure Found where
  elseAddr : Option Nat
  endAddr : Nat
  stack : BlockStack

/-- What a round does behind an opcode with such a role, whose operands end at `q`: the scan goes on, or it has found the end. -/
def Scan.advance (label : LabelType) (s : Scan) (q : Nat) : Role → Scan ⊕ Found
  | .opens =>
    .inl { s with p := q, depth := s.depth + 1,
                  stack := s.stack.note s.depth fun b => { b with startAddr := some q, elseAddr := none } }
  | .turns =>
    .inl { s with p := q, elseAddr := if label = .block .ite ∧ s.depth = 1 then some s.p else s.elseAddr,
                  stack := s.stack.note (s.depth - 1) fun b => { b with elseAddr := some s.p } }
  | .closes =>
    let stack := s.stack.note (s.depth - 1) fun b => { b with endAddr := some s.p }
    if s.depth = 1 then .inr ⟨s.elseAddr, s.p, stack⟩ else .inl { s with p := q, depth := s.depth - 1, stack }
  | .inside => .inl { s with p := q }

/-- A round of the scan. -/
def scanStep (label : LabelType) (code : Code) (s : Scan) : Option (Scan ⊕ Found) :=
  ((skipInstr codeEnd).run code s.p).map fun (o, q) => s.advance label q (Role.ofOpcode o)

/-- The loop. The first argument bounds the number of rounds: each of them takes a byte. -/
def scanLoop (label : LabelType) (code : Code) : Nat → Scan → Option Found
  | 0, _ => none
  | n + 1, s =>
    if s.p < codeEnd then
      match scanStep codeEnd label code s with
      | some (.inl s) => scanLoop label code n s
      | some (.inr r) => some r
      | none => none
    else none

/-- The rest of the scan. -/
def scanFrom (label : LabelType) (code : Code) (s : Scan) : Option Found := scanLoop codeEnd label code (codeEnd - s.p) s

/-- The scan from the start of a block on. -/
def scan (label : LabelType) (code : Code) (start : Nat) : Option Found :=
  scanFrom codeEnd label code ⟨start, 1, none, Function.update (fun _ => {}) 0 { startAddr := some start }⟩

/-! ## The cache -/

/-- `block_addr_cache`, as 64 sets of two entries. -/
abbrev Cache := Nat → Nat → BlockAddr

/-- The set of an address. -/
def cacheIndex (addr : Nat) : Nat := addr % 64

/-- The entry of an address. -/
def Cache.lookup (cache : Cache) (addr : Nat) : Option BlockAddr :=
  let items := cache (cacheIndex addr)
  if (items 0).startAddr = some addr then some (items 0)
  else if (items 1).startAddr = some addr then some (items 1)
  else none

/-- A block goes to the first free entry of its set. If there is none, the first entry moves to the place of the second. -/
def Cache.insert (cache : Cache) (start : Nat) (b : BlockAddr) : Cache :=
  let i := cacheIndex start
  let items := cache i
  let items :=
    if (items 0).startAddr = none then Function.update items 0 b
    else if (items 1).startAddr = none then Function.update items 1 b
    else Function.update (Function.update items 1 (items 0)) 0 b
  Function.update cache i items

/-- The loop over `block_stack` that puts its blocks into the cache, with `n` of its places to come. -/
def Cache.insertFrom (stack : BlockStack) : Nat → Cache → Cache
  | 0, cache => cache
  | n + 1, cache =>
    match (stack (16 - (n + 1))).startAddr with
    | some start => insertFrom stack n (cache.insert start (stack (16 - (n + 1))))
    | none => cache

/-- What the caller gets: the address in `*p_else_addr`, if anything is stored there, and the one in `*p_end_addr`. -/
structure Addrs where
  elseAddr : Option (Option Nat)
  endAddr : Option Nat
  deriving DecidableEq, Repr

/-- `wasm_loader_find_block_addr`. -/
def findBlockAddr (cache : Cache) (code : Code) (start : Nat) (label : LabelType) : Option (Addrs × Cache) :=
  match cache.lookup start with
  | some b => some (⟨some b.elseAddr, b.endAddr⟩, cache)
  | none =>
    (scan codeEnd label code start).map fun r =>
      (⟨if label = .block .ite then some r.elseAddr else none, some r.endAddr⟩, cache.insertFrom r.stack 16)

end

/-! ## The place of `else` and `end` -/

/-- The role of the instructions of a format. -/
def Role.ofFormat : Format → Role
  | .bare i => Role.ofInstr i
  | .blockType _ => .opens
  | _ => .inside

/-- The instructions of a block, up to its `end`, from a place on at which `d` blocks inside it are open. -/
def enclosed : Nat → List Placed → List Placed
  | _, [] => []
  | d, x :: xs =>
    match Role.ofInstr x.instr with
    | .opens => x :: enclosed (d + 1) xs
    | .closes => if d = 0 then [x] else x :: enclosed (d - 1) xs
    | _ => x :: enclosed d xs

/-- The addresses of the `else` of a block, if it has one, and of its `end`, from a place on at which `d` blocks inside it are open. An `else`
that the validator has let through behind another one takes its place, as it does in the validator. -/
def matching : Nat → Option Nat → List Placed → Option (Option Nat × Nat)
  | _, _, [] => none
  | d, e, x :: xs =>
    match Role.ofInstr x.instr with
    | .opens => matching (d + 1) e xs
    | .turns => matching d (if d = 0 then some x.start else e) xs
    | .closes => if d = 0 then some (e, x.start) else matching (d - 1) e xs
    | .inside => matching d e xs

/-- The scan steps over the bytes of an instruction: those up to the next one, or, for a local access, the first of them and then as many
`WASM_OP_NOP`. -/
def StepsOver (codeEnd : Nat) (code : Code) (x : Placed) : Prop :=
  ∃ o q, (skipInstr codeEnd).run code x.start = some (o, q) ∧ Role.ofOpcode o = Role.ofInstr x.instr ∧
    (q = x.next ∨ (∃ a idx, x.instr = .local_ a idx) ∧ q ≤ x.next ∧ ∀ k, q ≤ k → k < x.next → code k = Opcode.nop.toByte)

/-! ## The instructions of a rewritten body -/

section

variable {m : Module} {f : Loader.Func} {i : Instr} {code code' : Code} {bufEnd codeEnd p q n v : Nat} {wide : Bool}
variable {o : Opcode} {d : Nat} {e : Option Nat} {ys : List Placed}

theorem run_skipInt (h : (leb bufEnd).run code p = some (v, q)) (hc : Agree code code' p q) (hle : bufEnd ≤ codeEnd) :
    (skipInt codeEnd).run code' p = some ((), q) := by
  have hq : q ≤ bufEnd := (readLebUint32_bounds (run_leb.1 h)).2
  simp [skipInt, readLebUint32_skip (n := codeEnd) (run_leb.1 h) hc (by omega)]

theorem run_skipInt_signed {maxbits : Nat} {r : BitVec 64} (h : Loader.readLeb code bufEnd maxbits true p = .ok (r, q))
    (hc : Agree code code' p q) (hle : bufEnd ≤ codeEnd) : (skipInt codeEnd).run code' p = some ((), q) := by
  have hq : q ≤ bufEnd := (readLeb_bounds h).2
  simp [skipInt, readLeb_skip (n := codeEnd) h hc (by omega)]

theorem run_skipInt_zero (h : zeroByte.run code p = some ((), q)) (hc : Agree code code' p q) (hle : q ≤ codeEnd) :
    (skipInt codeEnd).run code' p = some ((), q) := by
  obtain ⟨b, q', hb, h⟩ := Cursor.run_bind_iff.1 h
  cases hb
  split at h
  · next hz =>
    cases h
    have hp : code' p = 0 := (hc p (Nat.le_refl p) (Nat.lt_succ_self p)).trans hz
    obtain ⟨n, rfl⟩ : ∃ n, codeEnd = n + 1 := ⟨codeEnd - 1, by omega⟩
    simp [skipInt, skipLeb, hp]
  · cases h

theorem run_checkedByte_zero (h : zeroByte.run code p = some ((), q)) (hle : q ≤ codeEnd) :
    (checkedByte codeEnd).run code' p = some (code' p, q) := by
  obtain ⟨b, q', hb, h⟩ := Cursor.run_bind_iff.1 h
  cases hb
  split at h
  · cases h
    exact if_neg (Nat.not_lt.2 hle)
  · cases h

theorem run_leb_wider (h : (leb bufEnd).run code p = some (v, q)) (hc : Agree code code' p q) (hle : bufEnd ≤ codeEnd) :
    (leb codeEnd).run code' p = some (v, q) :=
  run_leb.2 (readLebUint32_mono (readLebUint32_congr (run_leb.1 h) hc) hle)

theorem run_times_skipInt {ds : List Nat} (h : (Cursor.times (leb bufEnd) n).run code p = some (ds, q)) (hc : Agree code code' p q)
    (hle : bufEnd ≤ codeEnd) : ∃ us, (Cursor.times (skipInt codeEnd) n).run code' p = some (us, q) := by
  induction n generalizing p ds with
  | zero =>
    cases h
    exact ⟨[], rfl⟩
  | succ n ih =>
    obtain ⟨d, p₁, ds', hd, hds, hc₁, hc₂, rfl⟩ := Cursor.run_two (leb_local bufEnd) (fun _ => (leb_local bufEnd).times n) h hc
    obtain ⟨us, hus⟩ := ih hds hc₂
    refine ⟨() :: us, ?_⟩
    rw [Cursor.times, Cursor.run_bind (run_skipInt hd hc₁ hle), Cursor.run_bind hus]
    rfl

theorem operands_kept {format : Format} (hf : Format.of o = some format)
    (h : (format.read bufEnd).run code p = some (i, q)) (hc : Agree code code' p q) (hle : bufEnd ≤ codeEnd) (hq : q ≤ codeEnd)
    (hkeep : patchOf m f wide i = .keep) : (operands codeEnd o).run code' p = some ((), q) := by
  have hleb := leb_local bufEnd
  cases o with
  | br | brIf | call | local_ | getGlobal | setGlobal =>
    cases hf
    obtain ⟨v, q', hv, h⟩ := Cursor.run_bind_iff.1 h
    cases h
    exact run_skipInt hv hc hle
  | block k =>
    cases hf
    obtain ⟨t, q', ht, h⟩ := Cursor.run_bind_iff.1 h
    cases h
    simp only [blockType] at ht
    split at ht
    · cases ht
      rfl
    · obtain ⟨x, -, ht⟩ := Option.map_eq_some_iff.1 ht
      cases ht
      cases hkeep
  | brTable =>
    cases hf
    obtain ⟨count, p₁, ds, hcount, hds, hc₁, hc₂, rfl⟩ := Cursor.run_two hleb (fun _ => hleb.times _) h hc
    obtain ⟨us, hus⟩ := run_times_skipInt hds hc₂ hle
    rw [operands, Cursor.run_bind (run_leb_wider hcount hc₁ hle), Cursor.run_bind hus]
    rfl
  | callIndirect =>
    cases hf
    obtain ⟨tidx, p₁, _, htidx, hz, hc₁, -, rfl⟩ := Cursor.run_two hleb (fun _ => zeroByte_local) h hc
    rw [operands, Cursor.run_bind (run_skipInt htidx hc₁ hle), Cursor.run_bind (run_checkedByte_zero hz hq)]
    rfl
  | memory byte sig =>
    cases hf
    obtain ⟨align, p₁, offset, halign, hoffset, hc₁, hc₂, rfl⟩ := Cursor.run_two hleb (fun _ => hleb) h hc
    rw [operands, Cursor.run_bind (run_skipInt halign hc₁ hle)]
    exact run_skipInt hoffset hc₂ hle
  | memorySize | memoryGrow =>
    cases hf
    obtain ⟨_, q', hz, h⟩ := Cursor.run_bind_iff.1 h
    cases h
    exact run_skipInt_zero hz hc hq
  | i32Const =>
    cases hf
    obtain ⟨v, q', hv, h⟩ := Cursor.run_bind_iff.1 h
    cases h
    obtain ⟨r, hr, -⟩ := readLebInt32_eq_ok.1 (run_lebInt32.1 hv)
    exact run_skipInt_signed hr hc hle
  | i64Const =>
    cases hf
    obtain ⟨v, q', hv, h⟩ := Cursor.run_bind_iff.1 h
    cases h
    exact run_skipInt_signed (run_lebInt64.1 hv) hc hle
  | f32Const | f64Const =>
    cases hf
    obtain ⟨bytes, q', hbytes, h⟩ := Cursor.run_bind_iff.1 h
    cases h
    exact Cursor.run_bind ((Cursor.Local.byte.times _).congr hbytes hc)
  | miscPrefix =>
    cases hf
    obtain ⟨v, q', hv, h⟩ := Cursor.run_bind_iff.1 h
    split at h
    · next hsig =>
      cases h
      rw [operands, Cursor.run_bind (run_leb_wider hv hc hle), if_pos hsig]
      rfl
    · cases h
  | extBlock | localFast | getGlobal64 | setGlobal64 | setGlobalAuxStack => cases hf
  | _ =>
    cases hf
    cases h
    rfl

theorem skipInstr_run (ho : Opcode.ofByte (code p) = some o) (h : (operands codeEnd o).run code (p + 1) = some ((), q)) :
    (skipInstr codeEnd).run code p = some (o, q) := by
  rw [skipInstr, Cursor.run_bind Cursor.run_byte, ho, Cursor.run_bind h]
  rfl

theorem role_ofFormat (i : Instr) : Role.ofFormat (.ofInstr i) = Role.ofInstr i := by
  cases i <;> rfl

theorem role_of_format (h : Format.of o = some (.ofInstr i)) : Role.ofOpcode o = Role.ofInstr i := by
  have hformat : ∀ {format}, Format.of o = some format → Role.ofOpcode o = Role.ofFormat format := by
    intro format h
    cases o <;> cases h <;> rfl
  rw [hformat h, role_ofFormat]

/-- The scan steps over the bytes of an instruction, unless it is a block with an index of more than one byte. -/
theorem stepsOver_of_patched (h : (instruction bufEnd).run code p = some (i, q))
    (hc : Agree ((patchOf m f wide i).apply code p q) code' p q) (hle : bufEnd ≤ codeEnd) (hq : q ≤ codeEnd)
    (hi : ∀ b n, i = .block b (.index n) → q = p + 2) : StepsOver codeEnd code' ⟨p, i, q⟩ := by
  have hpq : p < q := instruction_lt h
  obtain ⟨o, ho, hf, hread⟩ := instruction_inv h
  have hspec := patchOf_spec m f wide i
  generalize hpatch : patchOf m f wide i = x at hspec hc
  cases hspec with
  | keep =>
    have hp : code' p = code p := hc p (Nat.le_refl p) hpq
    have hops := operands_kept hf hread (hc.mono (Nat.le_succ p) (Nat.le_refl q)) hle hq hpatch
    exact ⟨o, q, skipInstr_run (hp ▸ ho) hops, role_of_format hf, .inl rfl⟩
  | @operand _ o' moves wide =>
    obtain ⟨hp, -⟩ := opcode_written hpq hc
    obtain ⟨rfl, hrole⟩ : q = p + 1 ∧ Role.ofInstr i = .inside := by
      rcases moves with rfl | rfl | rfl | rfl <;> cases hread <;> exact ⟨rfl, rfl⟩
    obtain ⟨ho', hops, hrole'⟩ : Opcode.ofByte o'.toByte = some o' ∧ operands codeEnd o' = return ∧ Role.ofOpcode o' = .inside := by
      rcases wide with rfl | rfl <;> exact ⟨by decide, rfl, rfl⟩
    exact ⟨o', p + 1, skipInstr_run (hp ▸ ho') (hops ▸ rfl), hrole'.trans hrole.symm, .inl rfl⟩
  | @global _ o' mk indexed special =>
    obtain ⟨hp, himm⟩ := opcode_written hpq hc
    rw [indexed] at hread
    obtain ⟨v, q', hv, hread⟩ := Cursor.run_bind_iff.1 hread
    cases hread
    obtain ⟨ho', hops, hrole'⟩ :
        Opcode.ofByte o'.toByte = some o' ∧ operands codeEnd o' = skipInt codeEnd ∧ Role.ofOpcode o' = .inside := by
      rcases special with rfl | rfl | rfl <;> exact ⟨by decide, rfl, rfl⟩
    have hrole : Role.ofInstr (mk v) = .inside := by
      rw [← role_ofFormat, indexed]
      rfl
    exact ⟨o', q, skipInstr_run (hp ▸ ho') (hops ▸ run_skipInt hv himm hle), hrole'.trans hrole.symm, .inl rfl⟩
  | ext b idx =>
    obtain rfl := hi b idx rfl
    have hp : code' p = (Opcode.extBlock b).toByte := by rw [hc p (Nat.le_refl p) hpq, Patch.apply, Nat.add_sub_cancel, writeByte_same]
    have himm : Agree code code' (p + 1) (p + 2) := by
      intro k hk hk'
      rw [hc k (Nat.le_of_succ_le hk) hk', Patch.apply, writeByte_ne (by omega)]
    have hops : (operands codeEnd (.extBlock b)).run code' (p + 1) = some ((), p + 2) :=
      run_skipInt (run_leb.2 (instruction_index h)) himm hle
    exact ⟨_, _, skipInstr_run (hp ▸ ofByte_extBlock b) hops, rfl, .inl rfl⟩
  | fast a known near =>
    have hq2 : p + 2 ≤ q := (readLebUint32_bounds (instruction_local_index h)).1
    have hp : code' p = (Opcode.localFast a).toByte := by
      rw [hc p (Nat.le_refl p) hpq, Patch.apply, fillNop, if_neg (by omega), writeByte_ne (by omega), writeByte_same]
    have hops : (operands codeEnd (.localFast a)).run code' (p + 1) = some ((), p + 2) := by
      have hb : (checkedByte codeEnd).run code' (p + 1) = some (code' (p + 1), p + 2) := if_neg (by omega)
      exact Cursor.run_bind hb
    refine ⟨_, _, skipInstr_run (hp ▸ ofByte_localFast a) hops, rfl, .inr ⟨⟨a, _, rfl⟩, hq2, fun k hk hk' => ?_⟩⟩
    rw [hc k (by omega) hk', Patch.apply, fillNop, if_pos ⟨hk, hk'⟩]

/-- A block with an index of more than one byte is not stepped over. -/
theorem StepsOver.index_length {b : BlockKind} (h : (instruction bufEnd).run code p = some (.block b (.index n), q))
    (hc : Agree ((Patch.ext b).apply code p q) code' p q) (hs : StepsOver codeEnd code' ⟨p, .block b (.index n), q⟩) : q = p + 2 := by
  by_contra hq
  have hskip : (skipInstr codeEnd).run code' p = some (.block b, p + 2) :=
    skipInstr_run (long_index_opcode h hq hc) rfl
  obtain ⟨o, q', hrun, -, hq' | ⟨⟨a, idx, ha⟩, -⟩⟩ := hs
  · rw [hskip] at hrun
    cases hrun
    exact hq hq'.symm
  · cases ha

/-! ## The loop of the scan -/

theorem skipLeb_lt (h : skipLeb code n p = some q) : p < q := by
  induction n generalizing p with
  | zero => cases h
  | succ n ih =>
    simp only [skipLeb] at h
    split at h
    · cases h
      exact Nat.lt_succ_self p
    · exact Nat.lt_of_succ_lt (ih h)

theorem skipLeb_congr (h : skipLeb code n p = some q) (hc : Agree code code' p q) : skipLeb code' n p = some q := by
  induction n generalizing p with
  | zero => cases h
  | succ n ih =>
    have hp : code' p = code p := hc p (Nat.le_refl p) (skipLeb_lt h)
    simp only [skipLeb, hp] at h ⊢
    split at h
    · rw [if_pos ‹_›]
      exact h
    · rw [if_neg ‹_›]
      exact ih h (hc.mono (Nat.le_succ p) (Nat.le_refl q))

theorem skipInt_local (codeEnd : Nat) : (skipInt codeEnd).Local where
  le h := by
    obtain ⟨q, hq, h⟩ := Option.map_eq_some_iff.1 h
    cases h
    exact Nat.le_of_lt (skipLeb_lt hq)
  congr h hc := by
    obtain ⟨q, hq, h⟩ := Option.map_eq_some_iff.1 h
    cases h
    simp [skipInt, skipLeb_congr hq hc]

theorem checkedByte_local (codeEnd : Nat) : (checkedByte codeEnd).Local where
  le h := by
    simp only [checkedByte] at h
    split at h
    · cases h
    · cases h
      exact Nat.le_succ _
  congr {code code' p a q} h hc := by
    simp only [checkedByte] at h ⊢
    split at h
    · cases h
    · cases h
      rw [hc p (Nat.le_refl p) (Nat.lt_succ_self p), if_neg ‹_›]

theorem operands_local (codeEnd : Nat) (o : Opcode) : (operands codeEnd o).Local := by
  have hskip := skipInt_local codeEnd
  have hleb := leb_local codeEnd
  cases o with
  | unreachable | nop | else_ | end_ | return_ | drop | select | drop64 | select64 | numeric => exact .pure ()
  | block => exact Cursor.Local.byte.bind fun _ => .pure ()
  | brTable => exact hleb.bind fun count => (hskip.times (count + 1)).bind fun _ => .pure ()
  | callIndirect => exact hskip.bind fun _ => (checkedByte_local codeEnd).bind fun _ => .pure ()
  | localFast => exact (checkedByte_local codeEnd).bind fun _ => .pure ()
  | memory => exact hskip.bind fun _ => hskip
  | f32Const => exact (Cursor.Local.byte.times 4).bind fun _ => .pure ()
  | f64Const => exact (Cursor.Local.byte.times 8).bind fun _ => .pure ()
  | miscPrefix =>
    refine hleb.bind fun v => ?_
    split
    · exact .pure ()
    · exact .fail
  | _ => exact hskip

theorem skipInstr_lt (h : (skipInstr codeEnd).run code p = some (o, q)) : p < q := by
  rw [skipInstr, Cursor.run_bind Cursor.run_byte] at h
  split at h
  · obtain ⟨u, q', hq', h⟩ := Cursor.run_bind_iff.1 h
    cases h
    exact (operands_local codeEnd _).le hq'
  · cases h

variable {label : LabelType} {s s' : Scan}

theorem advance_next {role : Role} (h : s.advance label q role = .inl s') : s'.p = q := by
  cases role with
  | closes =>
    simp only [Scan.advance] at h
    split at h
    · cases h
    · cases h
      rfl
  | _ =>
    cases h
    rfl

theorem scanStep_lt (h : scanStep codeEnd label code s = some (.inl s')) : s.p < s'.p := by
  obtain ⟨⟨o, q⟩, hskip, h⟩ := Option.map_eq_some_iff.1 h
  rw [advance_next h]
  exact skipInstr_lt hskip

theorem scanLoop_fuel {n' : Nat} (hn : codeEnd ≤ n + s.p) (hn' : codeEnd ≤ n' + s.p) :
    scanLoop codeEnd label code n s = scanLoop codeEnd label code n' s := by
  induction n generalizing s n' with
  | zero =>
    cases n' with
    | zero => rfl
    | succ n' => rw [scanLoop, scanLoop, if_neg (by omega)]
  | succ n ih =>
    cases n' with
    | zero => rw [scanLoop, scanLoop, if_neg (by omega)]
    | succ n' =>
      simp only [scanLoop]
      split
      · split
        · next s' hs' =>
          have hlt := scanStep_lt hs'
          exact ih (by omega) (by omega)
        · rfl
        · rfl
      · rfl

/-- The scan after a round. -/
def scanOn (codeEnd : Nat) (label : LabelType) (code : Code) : Scan ⊕ Found → Option Found
  | .inl s => scanFrom codeEnd label code s
  | .inr r => some r

theorem scanFrom_step (h : (skipInstr codeEnd).run code s.p = some (o, q)) (hp : s.p < codeEnd) :
    scanFrom codeEnd label code s = scanOn codeEnd label code (s.advance label q (Role.ofOpcode o)) := by
  have hstep : scanStep codeEnd label code s = some (s.advance label q (Role.ofOpcode o)) := by
    rw [scanStep, h, Option.map_some]
  obtain ⟨n, hn⟩ : ∃ n, codeEnd - s.p = n + 1 := ⟨codeEnd - s.p - 1, by omega⟩
  rw [scanFrom, hn, scanLoop, if_pos hp]
  cases hnext : s.advance label q (Role.ofOpcode o) with
  | inl s' =>
    rw [hnext] at hstep
    have hlt := scanStep_lt hstep
    rw [hstep]
    exact scanLoop_fuel (by omega) (by omega)
  | inr r =>
    rw [hstep, hnext]
    rfl

theorem scanFrom_nops {r : Nat} {stack : BlockStack} (hle : q ≤ r) (hr : r ≤ codeEnd) (hnop : ∀ k, q ≤ k → k < r → code k = Opcode.nop.toByte) :
    scanFrom codeEnd label code ⟨q, d, e, stack⟩ = scanFrom codeEnd label code ⟨r, d, e, stack⟩ := by
  induction hle using Nat.decreasingInduction with
  | self => rfl
  | of_succ k hk ih =>
    have ho : Opcode.ofByte (code k) = some .nop := by
      rw [hnop k (Nat.le_refl k) hk]
      decide
    have hskip : (skipInstr codeEnd).run code k = some (.nop, k + 1) := skipInstr_run ho rfl
    rw [scanFrom_step hskip (Nat.lt_of_lt_of_le hk hr)]
    exact ih fun j hj => hnop j (Nat.le_of_succ_le hj)

/-- The scan takes an instruction that it steps over, with the bytes that were left of it. -/
theorem scanFrom_instr {x : Placed} (h : StepsOver codeEnd code x) (hs : s.p = x.start) (hx : x.next ≤ codeEnd) :
    scanFrom codeEnd label code s = scanOn codeEnd label code (s.advance label x.next (Role.ofInstr x.instr)) := by
  obtain ⟨o, q, hskip, hrole, hq⟩ := h
  have hlt : x.start < q := skipInstr_lt hskip
  rw [← hs] at hskip hlt
  rcases hq with rfl | ⟨⟨a, idx, hi⟩, hle, hnop⟩
  · rw [scanFrom_step hskip (by omega), hrole]
  · rw [scanFrom_step hskip (by omega), hrole, hi]
    exact scanFrom_nops hle hx hnop

theorem mem_enclosed_head (d : Nat) (y : Placed) (ys : List Placed) : y ∈ enclosed d (y :: ys) := by
  simp only [enclosed]
  split
  · exact List.mem_cons_self
  · split
    · exact List.mem_singleton_self y
    · exact List.mem_cons_self
  · exact List.mem_cons_self

/-- What the scan remembers of an `else`: it asks for one only in an `if`. -/
def seen (label : LabelType) (e : Option Nat) : Option Nat := if label = .block .ite then e else none

/-- From a place inside a block on, the scan finds what belongs to it, if it steps over the instructions that are still to come. -/
theorem scanFrom_matching (label : LabelType) {e' : Option Nat} {a : Nat} (hcons : Consecutive p ys)
    (hend : ∀ y ∈ ys, y.next ≤ codeEnd) (hsteps : ∀ y ∈ enclosed d ys, StepsOver codeEnd code y)
    (hm : matching d e ys = some (e', a)) (stack : BlockStack) :
    ∃ stack', scanFrom codeEnd label code ⟨p, d + 1, seen label e, stack⟩ = some ⟨seen label e', a, stack'⟩ := by
  induction ys generalizing p d e stack with
  | nil => cases hm
  | cons y ys ih =>
    obtain ⟨rfl, hcons⟩ := hcons
    have hend' : ∀ y ∈ ys, y.next ≤ codeEnd := fun z hz => hend z (List.mem_cons_of_mem y hz)
    have hy : StepsOver codeEnd code y := hsteps y (mem_enclosed_head d y ys)
    rw [scanFrom_instr hy rfl (hend y List.mem_cons_self)]
    cases hrole : Role.ofInstr y.instr with
    | opens | inside =>
      simp only [matching, enclosed, hrole, List.mem_cons] at hm hsteps
      exact ih hcons hend' (fun z hz => hsteps z (.inr hz)) hm _
    | turns =>
      simp only [matching, enclosed, hrole, List.mem_cons] at hm hsteps
      have hseen : (if label = .block .ite ∧ d + 1 = 1 then some y.start else seen label e) =
          seen label (if d = 0 then some y.start else e) := by
        unfold seen
        by_cases hl : label = .block .ite <;> by_cases hd : d = 0 <;> simp [hl, hd]
      rw [Scan.advance, hseen]
      exact ih hcons hend' (fun z hz => hsteps z (.inr hz)) hm _
    | closes =>
      simp only [matching, enclosed, hrole] at hm hsteps
      by_cases hd : d = 0
      · subst hd
        rw [if_pos rfl] at hm
        cases hm
        exact ⟨_, rfl⟩
      rw [if_neg hd] at hm hsteps
      obtain ⟨d, rfl⟩ : ∃ k, d = k + 1 := ⟨d - 1, by omega⟩
      simp only [List.mem_cons] at hsteps
      exact ih hcons hend' (fun z hz => hsteps z (.inr hz)) hm _

/-! ## The theorem -/

theorem enclosed_subset {y : Placed} (h : y ∈ enclosed d ys) : y ∈ ys := by
  induction ys generalizing d with
  | nil => exact h
  | cons z ys ih =>
    rw [List.mem_cons]
    simp only [enclosed] at h
    split at h
    · exact (List.mem_cons.1 h).imp_right ih
    · split at h
      · exact .inl (List.mem_singleton.1 h)
      · exact (List.mem_cons.1 h).imp_right ih
    · exact (List.mem_cons.1 h).imp_right ih

theorem matching_isSome {D : Nat} (h : Sequence p D ys) (hd : d < D) : ∃ e' a, matching d e ys = some (e', a) := by
  induction h generalizing d e with
  | last => exact absurd hd (Nat.not_lt_zero d)
  | @cons p D q i ys inner rest ih =>
    cases i with
    | block b t => exact ih (d := d + 1) (Nat.succ_lt_succ hd)
    | end_ =>
      by_cases hz : d = 0
      · exact ⟨e, p, by simp [matching, Role.ofInstr, hz]⟩
      · simp only [matching, Role.ofInstr, hz, if_false]
        exact ih (show d - 1 < D - 1 by omega)
    | _ => exact ih hd

/-- What is known of an instruction of the body and of its place in the rewritten one. -/
theorem Rounds.placed {s' : State} {xs : List (State × Placed)} (h : Rounds m f (start f) xs s') {x : Placed} (hx : x ∈ xs.map Prod.snd) :
    ∃ wide, (instruction f.codeEnd).run f.code x.start = some (x.instr, x.next) ∧
      Agree ((patchOf m f wide x.instr).apply f.code x.start x.next) s'.code x.start x.next ∧ x.next ≤ f.codeEnd := by
  obtain ⟨⟨t, x'⟩, hx', rfl⟩ := List.mem_map.1 hx
  exact ⟨_, h.reads hx', h.patched hx', (h.start_le hx').2.2⟩

/-- The scan of a block is exact: it finds the addresses of the `else` and the `end` that belong to it, and steps over the instructions of
the block. Only for an `if` is the first of them stored. -/
structure ScanExact (codeEnd : Nat) (code : Code) (b : BlockKind) (start : Nat) (post : List Placed) (e : Option Nat) (a : Nat) : Prop where
  finds : ∀ cache : Cache, cache.lookup start = none → ∃ cache', findBlockAddr codeEnd cache code start (.block b) =
    some (⟨if b = .ite then some e else none, some a⟩, cache')
  steps : ∀ y ∈ enclosed 0 post, StepsOver codeEnd code y

/-- A block with an empty block in it, whose type is the index 0 in three bytes. -/
def nestedLongIndex : Loader.Func := bodyOf [0x02, 0x40, 0x02, 0x80, 0x80, 0x00, 0x0b, 0x0b, 0x0b]

/-- A block with an empty block in it, whose type is the index 0 in one byte. -/
def nestedShortIndex : Loader.Func := bodyOf [0x02, 0x40, 0x02, 0x00, 0x0b, 0x0b, 0x0b]

end

end WamrMigrate.Interp
