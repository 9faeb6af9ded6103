import WamrMigrate.Loader.Rewrite

/-!
# The whole pass

Each round writes only into the bytes of the instruction it took, so a later round still reads the body as it was given, and at the end the bytes of
each instruction are what its own round has made of them.
-/

namespace WamrMigrate.Loader

variable {m : Module} {f : Func} {s s' : State} {i : Instr} {code code' : Code} {bufEnd p q k n : Nat} {wide : Bool}
variable {b : UInt8} {d : Nat}

/-! ## Where an instruction is rewritten -/

/-- The format that an instruction is written in. -/
def Format.ofInstr : Instr → Format
  | .block k _ => .blockType k
  | .br _ => .uint32 .br
  | .brIf _ => .uint32 .brIf
  | .brTable _ => .depths
  | .call _ => .uint32 .call
  | .callIndirect _ _ => .callIndirect
  | .local_ a _ => .uint32 (.local_ a)
  | .getGlobal _ => .uint32 .getGlobal
  | .setGlobal _ => .uint32 .setGlobal
  | .memory byte _ _ => .memory byte
  | .memorySize => .zero .memorySize
  | .memoryGrow => .zero .memoryGrow
  | .i32Const _ => .int32
  | .i64Const _ => .int64
  | .f32Const _ => .bytes 4 .f32Const
  | .f64Const _ => .bytes 8 .f64Const
  | .misc _ => .misc
  | i => .bare i

theorem Format.eq_ofInstr {o : Opcode} {format : Format} (hf : Format.of o = some format)
    (h : (format.read bufEnd).run code p = some (i, q)) : format = .ofInstr i := by
  cases o with
  | br | brIf | call | local_ | getGlobal | setGlobal | block | memorySize | memoryGrow | i32Const | i64Const | f32Const | f64Const =>
    cases hf
    obtain ⟨v, q', -, h⟩ := Cursor.run_bind_iff.1 h
    cases h
    rfl
  | brTable | callIndirect | memory =>
    cases hf
    obtain ⟨v, q', -, h⟩ := Cursor.run_bind_iff.1 h
    obtain ⟨v', q'', -, h⟩ := Cursor.run_bind_iff.1 h
    cases h
    rfl
  | miscPrefix =>
    cases hf
    obtain ⟨v, q', -, h⟩ := Cursor.run_bind_iff.1 h
    split at h
    · cases h
      rfl
    · cases h
  | extBlock | localFast | getGlobal64 | setGlobal64 | setGlobalAuxStack => cases hf
  | _ =>
    cases hf
    cases h
    rfl

/-- What stands at the place of an instruction: its opcode, and what its format reads. -/
theorem instruction_inv (h : (instruction bufEnd).run code p = some (i, q)) : ∃ o, Opcode.ofByte (code p) = some o ∧ Format.of o = some (.ofInstr i) ∧
      ((Format.ofInstr i).read bufEnd).run code (p + 1) = some (i, q) := by
  rw [instruction, Cursor.run_bind Cursor.run_byte] at h
  split at h
  · next format hf =>
    obtain ⟨o, ho, hf⟩ := Option.bind_eq_some_iff.1 hf
    obtain rfl := Format.eq_ofInstr hf h
    exact ⟨o, ho, hf, h⟩
  · cases h

theorem instruction_lt (h : (instruction bufEnd).run code p = some (i, q)) : p < q := by
  obtain ⟨o, -, -, h⟩ := instruction_inv h
  exact ((Format.ofInstr i).read_local bufEnd).le h

theorem ofByte_ne_index (b : UInt8) : BlockType.ofByte b ≠ some (.index n) := by
  unfold BlockType.ofByte
  split
  · simp
  · simp

theorem blockType_index (h : (blockType bufEnd).run code p = some (.index n, q)) :
    BlockType.ofByte (code p) = none ∧ readLebUint32 code bufEnd p = .ok (n, q) := by
  simp only [blockType] at h
  split at h
  · next t ht =>
    cases h
    exact absurd ht (ofByte_ne_index _)
  next hn =>
  obtain ⟨x, hx, h⟩ := Option.map_eq_some_iff.1 h
  cases h
  exact ⟨hn, run_leb.1 hx⟩

theorem instruction_index {b : BlockKind} (h : (instruction bufEnd).run code p = some (.block b (.index n), q)) :
    readLebUint32 code bufEnd (p + 1) = .ok (n, q) := by
  obtain ⟨o, -, -, h⟩ := instruction_inv h
  obtain ⟨t, q', ht, h⟩ := Cursor.run_bind_iff.1 h
  cases h
  exact (blockType_index ht).2

theorem instruction_local_index {a : LocalAccess} (h : (instruction bufEnd).run code p = some (.local_ a n, q)) :
    readLebUint32 code bufEnd (p + 1) = .ok (n, q) := by
  obtain ⟨o, -, -, h⟩ := instruction_inv h
  obtain ⟨t, q', ht, h⟩ := Cursor.run_bind_iff.1 h
  cases h
  exact run_leb.1 ht

theorem writeByte_ne (h : k ≠ p) : writeByte code p b k = code k := by
  rw [writeByte, Function.update_of_ne h]

theorem writeByte_same : writeByte code p b p = b := by
  rw [writeByte, Function.update_self]

theorem writeByte_congr (h : code' k = code k) : writeByte code' p b k = writeByte code p b k := by
  by_cases hk : k = p
  · rw [hk, writeByte_same, writeByte_same]
  · rw [writeByte_ne hk, writeByte_ne hk, h]

/-- What is written at a place does not depend on the rest of the code. -/
theorem Patch.apply_congr (x : Patch) (h : code' k = code k) : x.apply code' p q k = x.apply code p q k := by
  cases x with
  | keep => exact h
  | opcode o | ext b => exact writeByte_congr h
  | fast a byte =>
    simp only [apply, fillNop]
    split
    · rfl
    · exact writeByte_congr (writeByte_congr h)

/-- What is written over an instruction: nothing, another opcode, the opcode of a block with an index, or a local access by the cell. -/
inductive PatchOf (m : Module) (f : Func) : Instr → Patch → Prop
  | keep {i : Instr} : PatchOf m f i .keep
  | operand {i : Instr} {o : Opcode} (moves : i = .drop ∨ i = .drop64 ∨ i = .select ∨ i = .select64)
      (wide : o = .drop64 ∨ o = .select64) : PatchOf m f i (.opcode o)
  | global {i : Instr} {o : Opcode} (mk : Nat → Instr) (indexed : Format.ofInstr i = .uint32 mk)
      (special : o = .getGlobal64 ∨ o = .setGlobal64 ∨ o = .setGlobalAuxStack) : PatchOf m f i (.opcode o)
  | ext (b : BlockKind) (idx : Nat) : PatchOf m f (.block b (.index idx)) (.ext b)
  | fast (a : LocalAccess) {idx : Nat} {type : ValueType} (known : f.localType idx = .ok type) (near : f.localOffset idx < 0x80) :
      PatchOf m f (.local_ a idx) (.fast a (fastByte type (f.localOffset idx)))

theorem patchOf_spec (m : Module) (f : Func) (wide : Bool) (i : Instr) : PatchOf m f i (patchOf m f wide i) := by
  cases i with
  | block b type =>
    cases type with
    | index idx => exact .ext b idx
    | void | value => exact .keep
  | drop | drop64 | select | select64 =>
    cases wide with
    | true => exact .operand (by simp) (by simp)
    | false => exact .keep
  | local_ a idx =>
    simp only [patchOf]
    split
    · next htype =>
      split
      · next hoff => exact .fast a htype hoff
      · exact .keep
    · exact .keep
  | getGlobal idx =>
    simp only [patchOf]
    split
    · split
      · exact .global .getGlobal rfl (by simp)
      · exact .keep
    · exact .keep
  | setGlobal idx =>
    simp only [patchOf]
    split
    · split
      · exact .global .setGlobal rfl (by simp)
      · split
        · exact .global .setGlobal rfl (by simp)
        · exact .keep
    · exact .keep
  | _ => exact .keep

theorem patchOf_outside (h : (instruction bufEnd).run code p = some (i, q)) (hk : k < p ∨ q ≤ k) :
    (patchOf m f wide i).apply code' p q k = code' k := by
  have hpq : p < q := instruction_lt h
  have hne : k ≠ p := by omega
  have hspec := patchOf_spec m f wide i
  generalize patchOf m f wide i = x at hspec ⊢
  cases hspec with
  | keep => rfl
  | operand | global => exact writeByte_ne hne
  | ext b idx =>
    have hq : p + 2 ≤ q := (readLebUint32_bounds (instruction_index h)).1
    exact writeByte_ne (by omega)
  | fast a =>
    have hq : p + 2 ≤ q := (readLebUint32_bounds (instruction_local_index h)).1
    have hnop : ¬ (p + 2 ≤ k ∧ k < q) := by omega
    rw [Patch.apply, fillNop, if_neg hnop, writeByte_ne (by omega), writeByte_ne hne]

/-! ## The rounds -/

/-- The states in which the loop comes to a round. -/
def headsFrom (m : Module) (f : Func) : Nat → State → List State
  | 0, _ => []
  | n + 1, s =>
    if s.p < f.codeEnd then
      match step m f s with
      | .ok (.next s') => s :: headsFrom m f n s'
      | _ => [s]
    else []

/-- The states in which `wasm_loader_prepare_bytecode` comes to an instruction. -/
def heads (m : Module) (f : Func) : List State := headsFrom m f (f.codeSize + 1) (start f)

/-- The rounds from a state on: the state in front of each of them with the instruction it took, and the state in the end. -/
inductive Rounds (m : Module) (f : Func) : State → List (State × Placed) → State → Prop
  | last {s s' : State} (inside : s.p < f.codeEnd) (read : (instruction f.codeEnd).run s.code s.p = some (.end_, s.p + 1))
      (outer : s.ctx.outer = []) (code : s'.code = s.code) : Rounds m f s [(s, ⟨s.p, .end_, s.p + 1⟩)] s'
  | cons {s s₁ s' : State} {i : Instr} {xs : List (State × Placed)} (inside : s.p < f.codeEnd)
      (read : (instruction f.codeEnd).run s.code s.p = some (i, s₁.p))
      (code : s₁.code = (patchOf m f (s.ctx.wideOperand i) i).apply s.code s.p s₁.p)
      (depth : s₁.ctx.outer.length = depthAfter s.ctx.outer.length i) (inner : i = .end_ → s.ctx.outer ≠ [])
      (rest : Rounds m f s₁ xs s') : Rounds m f s ((s, ⟨s.p, i, s₁.p⟩) :: xs) s'

theorem loop_rounds (h : loop m f n s = .ok s') : ∃ xs, Rounds m f s xs s' ∧ headsFrom m f n s = xs.map Prod.fst := by
  induction n generalizing s with
  | zero => cases h
  | succ n ih =>
    simp only [loop] at h
    split at h
    · next hin =>
      obtain ⟨r, hr, h⟩ := bind_ok_iff.1 h
      cases step_took hr with
      | next i read code depth inner =>
        obtain ⟨xs, hxs, hheads⟩ := ih h
        refine ⟨_, .cons hin read code depth inner hxs, ?_⟩
        simp only [headsFrom, hin, hr, if_true, hheads, List.map_cons]
      | closed read outer code =>
        cases h
        refine ⟨_, .last hin read outer code, ?_⟩
        simp only [headsFrom, hin, hr, if_true, List.map_cons, List.map_nil]
    · cases h

theorem listingFrom_congr (h : ∀ k, p ≤ k → code' k = code k) : listingFrom code bufEnd n d p = listingFrom code' bufEnd n d p := by
  induction n generalizing d p with
  | zero => rfl
  | succ n ih =>
    simp only [listingFrom, (instruction_local bufEnd).run_eq h]
    cases hr : (instruction bufEnd).run code p with
    | none => rfl
    | some x =>
      have hlt : p < x.2 := instruction_lt hr
      simp only [Option.bind_eq_bind, Option.bind_some, ih fun k hk => h k (hlt.le.trans hk)]

/-- Instructions that follow each other from a place on, at which so many blocks are open, up to the `end` that closes the function. -/
inductive Sequence : Nat → Nat → List Placed → Prop
  | last {p q : Nat} : Sequence p 0 [⟨p, .end_, q⟩]
  | cons {p d q : Nat} {i : Instr} {xs : List Placed} (inner : i = .end_ → d ≠ 0) (rest : Sequence q (depthAfter d i) xs) :
      Sequence p d (⟨p, i, q⟩ :: xs)

/-- Each instruction starts where the one in front of it ends, the first one at `p`. -/
def Consecutive : Nat → List Placed → Prop
  | _, [] => True
  | p, x :: xs => x.start = p ∧ Consecutive x.next xs

theorem Sequence.consecutive {xs : List Placed} (h : Sequence p d xs) : Consecutive p xs := by
  induction h with
  | last => exact ⟨rfl, trivial⟩
  | cons inner rest ih => exact ⟨rfl, ih⟩

theorem Sequence.behind {pre post : List Placed} {x : Placed} (h : Sequence p d (pre ++ x :: post)) (hx : x.instr ≠ .end_) :
    ∃ d, Sequence x.next (depthAfter d x.instr) post := by
  induction pre generalizing p d with
  | nil =>
    cases h with
    | last => exact absurd rfl hx
    | cons inner rest => exact ⟨d, rest⟩
  | cons y pre ih =>
    rw [List.cons_append] at h
    generalize hrest : pre ++ x :: post = ys at h
    cases h with
    | last => simp at hrest
    | cons inner rest =>
      subst hrest
      exact ih rest

namespace Rounds

variable {xs : List (State × Placed)}
variable {t : State} {x : Placed}

section
variable (h : Rounds m f s xs s')
include h

theorem inside_start : s.p < f.codeEnd := by
  cases h with
  | last hin => exact hin
  | cons hin => exact hin

/-- The rounds from a state on leave alone what lies in front of it. -/
theorem untouched (hk : k < s.p) : s'.code k = s.code k := by
  induction h with
  | last hin read outer code => rw [code]
  | cons hin read code depth inner rest ih =>
    rw [ih (hk.trans (instruction_lt read)), code]
    exact patchOf_outside read (.inl hk)

theorem start_le (hx : (t, x) ∈ xs) : s.p ≤ x.start ∧ t.p = x.start ∧ x.next ≤ f.codeEnd := by
  induction h with
  | last hin read outer code =>
    rw [List.mem_singleton] at hx
    cases hx
    exact ⟨le_rfl, rfl, hin⟩
  | cons hin read code depth inner rest ih =>
    rcases List.mem_cons.1 hx with hx | hx
    · cases hx
      exact ⟨le_rfl, rfl, rest.inside_start.le⟩
    · obtain ⟨h₁, h₂, h₃⟩ := ih hx
      exact ⟨(instruction_lt read).le.trans h₁, h₂, h₃⟩

theorem reads (hx : (t, x) ∈ xs) : (instruction f.codeEnd).run s.code x.start = some (x.instr, x.next) := by
  induction h with
  | last hin read outer code =>
    rw [List.mem_singleton] at hx
    cases hx
    exact read
  | cons hin read code depth inner rest ih =>
    rcases List.mem_cons.1 hx with hx | hx
    · cases hx
      exact read
    · refine (instruction_local f.codeEnd).congr (ih hx) fun k hk _ => ?_
      rw [code, patchOf_outside read (.inr ((rest.start_le hx).1.trans hk))]

/-- In the end the bytes of an instruction are what its round has made of them. -/
theorem patched (hx : (t, x) ∈ xs) :
    Agree ((patchOf m f (t.ctx.wideOperand x.instr) x.instr).apply s.code x.start x.next) s'.code x.start x.next := by
  induction h with
  | last hin read outer code =>
    rw [List.mem_singleton] at hx
    cases hx
    intro k _ _
    rw [code]
    rfl
  | cons hin read code depth inner rest ih =>
    rcases List.mem_cons.1 hx with hx | hx
    · cases hx
      intro k _ hk
      rw [rest.untouched hk, code]
    intro k hk hk'
    rw [ih hx k hk hk']
    refine Patch.apply_congr _ ?_
    rw [code, patchOf_outside read (.inr ((rest.start_le hx).1.trans hk))]

theorem kept (hk : ∀ x ∈ xs.map Prod.snd, k < x.start ∨ x.next ≤ k) : s'.code k = s.code k := by
  induction h with
  | last hin read outer code => rw [code]
  | cons hin read code depth inner rest ih =>
    rw [ih fun x hx => hk x (List.mem_cons_of_mem _ hx), code]
    exact patchOf_outside read (hk _ List.mem_cons_self)

theorem listing_eq (hn : f.codeEnd ≤ n + s.p) : listingFrom s.code f.codeEnd n s.ctx.outer.length s.p = some (xs.map Prod.snd) := by
  induction h generalizing n with
  | @last s s' hin read outer code =>
    obtain ⟨n, rfl⟩ : ∃ n', n = n' + 1 := ⟨n - 1, by omega⟩
    have hq : ¬ f.codeEnd < s.p + 1 := Nat.not_lt.2 hin
    simp [listingFrom, read, outer, hq]
  | @cons s s₁ s' i xs hin read code depth inner rest ih =>
    obtain ⟨n, rfl⟩ : ∃ n', n = n' + 1 := ⟨n - 1, by omega⟩
    have hlt : s.p < s₁.p := instruction_lt read
    have hq : ¬ f.codeEnd < s₁.p := Nat.not_lt.2 rest.inside_start.le
    have hrest : listingFrom s.code f.codeEnd n s₁.ctx.outer.length s₁.p = some (xs.map Prod.snd) := by
      have hs₁ := ih (n := n) (by omega)
      rw [← hs₁]
      refine listingFrom_congr fun k hk => ?_
      rw [code, patchOf_outside read (.inr hk)]
    rw [depth] at hrest
    simp [listingFrom, read, hq, hrest]
    exact fun hi ho => absurd ho (inner hi)

theorem sequence : Sequence s.p s.ctx.outer.length (xs.map Prod.snd) := by
  induction h with
  | last hin read outer code =>
    rw [outer]
    exact .last
  | cons hin read code depth inner rest ih =>
    rw [depth] at ih
    exact .cons (fun hi hlen => inner hi (List.length_eq_zero_iff.1 hlen)) ih

end

end Rounds

/-- An accepted body is a list of instructions, and the pass comes to each of them. -/
theorem prepareBytecode_rounds (h : prepareBytecode m f = .ok s') :
    ∃ xs, Rounds m f (start f) xs s' ∧ heads m f = xs.map Prod.fst ∧ listing f = some (xs.map Prod.snd) := by
  obtain ⟨xs, hxs, hheads⟩ := loop_rounds h
  exact ⟨xs, hxs, hheads, hxs.listing_eq (Nat.le_of_eq (Nat.add_comm _ _))⟩

end WamrMigrate.Loader
