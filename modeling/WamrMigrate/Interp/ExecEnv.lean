import WamrMigrate.Interp.BlockCache
import WamrMigrate.Interp.FrameImage

/-!
# The execution environment in the image

`dump_WASMExecEnv` writes some of the fields of the execution environment: pointers by the offsets of their blocks, the entries of the block address
cache by their distances from the code. `restore_WASMExecEnv` reads them into a block that was not cleared. The limits of the auxiliary stack are
not written, so the guard of the stack pointer works with whatever the block holds.
-/

namespace WamrMigrate.Interp

open Image Reader

/-- `WASMExecEnv`, as far as the image and the auxiliary stack are concerned. Pointers are addresses, and 0 is `NULL`. -/
structure ExecEnv where
  next : Nat := 0
  prev : Nat := 0
  moduleInst : Nat := 0
  auxStackBoundary : UInt32 := 0
  auxStackBottom : UInt32 := 0
  attachment : Nat := 0
  blockAddrCache : Cache := fun _ _ => {}
  wasmStackSize : UInt32 := 0
  top : Nat := 0
  topBoundary : Nat := 0

/-- `WASMFunction`, as far as the place of its code is concerned. -/
structure CodeRange where
  code : Nat
  codeSize : Nat
  deriving DecidableEq, Repr

/-! ## Writing -/

/-- `CHECK_IP`. -/
def CodeRange.checkIp (g : CodeRange) (addr : Nat) : Bool := decide (g.code ≤ addr) && decide (addr ≤ g.code + g.codeSize)

/-- An entry of the cache, with the loop over the functions of the module. In the condition `CHECK_IP(start_addr) && CHECK_IP(else_addr) &&
CHECK_IP(end_addr)` the operator of the macro binds less than `&&`, so that only the first of the checks counts. -/
def dumpBlockAddr (base : Nat) (funcs : List CodeRange) (b : BlockAddr) : Except Fault (List UInt8) :=
  if funcs = [] then .error .exit
  else if b = {} then .ok (put32 (dumpFramePtr base 0))
  else
    match funcs.find? (·.checkIp (b.startAddr.getD 0)) with
    | some g =>
      .ok (put32 (dumpFramePtr base g.code) ++ (put32 (absOf g.code (b.startAddr.getD 0)) ++
        (put32 (absOf g.code (b.elseAddr.getD 0)) ++ put32 (absOf g.code (b.endAddr.getD 0)))))
    | none => .error .exit

def dumpBlockAddrs (base : Nat) (funcs : List CodeRange) : List BlockAddr → Except Fault (List UInt8)
  | [] => .ok []
  | b :: bs =>
    match dumpBlockAddr base funcs b, dumpBlockAddrs base funcs bs with
    | .ok w, .ok ws => .ok (w ++ ws)
    | .error e, _ => .error e
    | .ok _, .error e => .error e

/-- The entries of the cache, set by set. -/
def Cache.entries (cache : Cache) : List BlockAddr := (List.range 128).map fun k => cache (k / 2) (k % 2)

/-- What `dump_WASMExecEnv` writes after the header of the record. -/
def dumpWASMExecEnv (base : Nat) (funcs : List CodeRange) (env : ExecEnv) : Except Fault (List UInt8) :=
  match dumpBlockAddrs base funcs env.blockAddrCache.entries with
  | .ok ws =>
    .ok (put32 (dumpFramePtr base env.next) ++ (put32 (dumpFramePtr base env.prev) ++ (put32 (dumpFramePtr base env.moduleInst) ++
      (put32 (dumpFramePtr base env.attachment) ++ (ws ++ put32 env.wasmStackSize)))))
  | .error e => .error e

/-! ## Reading -/

/-- `ip + code`. -/
def addrAt (code : Nat) (ip : UInt32) : Option Nat :=
  if (ip.toNat + code) % 2 ^ 64 = 0 then none else some ((ip.toNat + code) % 2 ^ 64)

/-- The addresses of an entry, whose code is at `code`. -/
def restoreAddrs (code : Nat) : Reader BlockAddr := do
  let startIp ← u32
  let elseIp ← u32
  let endIp ← u32
  return ⟨addrAt code startIp, addrAt code elseIp, addrAt code endIp⟩

/-- An entry of the cache, from the offset of its code on. -/
def restoreBlockAddrOf (root : List PoolInfo) (pAbs : UInt32) : Reader BlockAddr :=
  if pAbs = 0xFFFFFFFF then return {}
  else do
    let info ← ofExcept (getInfo root pAbs)
    match info with
    | none => fail .invalid
    | some n => restoreAddrs n.pRaw

def restoreBlockAddr (root : List PoolInfo) : Reader BlockAddr := do
  let pAbs ← u32
  restoreBlockAddrOf root pAbs

/-- Store the entries of the cache. -/
def Cache.ofEntries (cache : Cache) (bs : List BlockAddr) : Cache := fun i j =>
  if i < 64 ∧ j < 2 then bs.getD (2 * i + j) {} else cache i j

/-- `restore_WASMExecEnv`. The block has the contents `node`, and its stack begins at `bottom`. -/
def restoreWASMExecEnv (root : List PoolInfo) (bottom : Nat) (node : ExecEnv) : Reader ExecEnv := do
  let next ← restoreFramePtr root
  let prev ← restoreFramePtr root
  let moduleInst ← restoreFramePtr root
  let attachment ← restoreFramePtr root
  let bs ← times (restoreBlockAddr root) 128
  let wasmStackSize ← u32
  return { node with next, prev, moduleInst, attachment, blockAddrCache := node.blockAddrCache.ofEntries bs, wasmStackSize,
                     top := bottom, topBoundary := bottom + wasmStackSize.toNat }

/-! ## The cache in the image -/

section

variable {base bottom : Nat} {funcs : List CodeRange} {root : List PoolInfo} {place : CodeRange → Nat} {b : BlockAddr} {bs : List BlockAddr}
  {ws : List UInt8} {node env env' : ExecEnv}

/-- The code of every function is found again, `place` says where. -/
structure CodeFound (base : Nat) (funcs : List CodeRange) (root : List PoolInfo) (place : CodeRange → Nat) : Prop where
  ne_null : ∀ g ∈ funcs, dumpFramePtr base g.code ≠ 0xFFFFFFFF
  found : ∀ g ∈ funcs, ∃ n, getInfo root (dumpFramePtr base g.code) = .ok (some n) ∧ n.pRaw = place g

/-- The function that an entry is dumped with. -/
def functionOf (funcs : List CodeRange) (b : BlockAddr) : Option CodeRange := funcs.find? (·.checkIp (b.startAddr.getD 0))

/-- What an entry comes back as. -/
def carried (funcs : List CodeRange) (place : CodeRange → Nat) (b : BlockAddr) : BlockAddr :=
  if b = {} then {}
  else
    match functionOf funcs b with
    | some g => ⟨addrAt (place g) (absOf g.code (b.startAddr.getD 0)), addrAt (place g) (absOf g.code (b.elseAddr.getD 0)),
        addrAt (place g) (absOf g.code (b.endAddr.getD 0))⟩
    | none => {}

theorem reads_addrs (code : Nat) (x y z : UInt32) :
    Reads (restoreAddrs code) (put32 x ++ (put32 y ++ put32 z)) ⟨addrAt code x, addrAt code y, addrAt code z⟩ :=
  (reads_u32 x).bind ((reads_u32 y).bind (reads_u32 z).bind_pure)

theorem reads_blockAddr (hfound : CodeFound base funcs root place) (h : dumpBlockAddr base funcs b = .ok ws) :
    Reads (restoreBlockAddr root) ws (carried funcs place b) := by
  unfold dumpBlockAddr at h
  unfold carried
  split at h
  · cases h
  split at h
  · next hb =>
    cases h
    rw [if_pos hb, ← List.append_nil (put32 _)]
    exact (reads_u32 _).bind (reads_pure _)
  next hb =>
  split at h
  · next g hg =>
    cases h
    have hmem : g ∈ funcs := List.mem_of_find?_eq_some hg
    obtain ⟨n, hn, hplace⟩ := hfound.found g hmem
    rw [if_neg hb, functionOf, hg]
    simp only [← hplace]
    refine (reads_u32 _).bind ?_
    rw [restoreBlockAddrOf, if_neg (hfound.ne_null g hmem), ← List.nil_append (_ ++ _)]
    exact (reads_ofExcept hn).bind (reads_addrs _ _ _ _)
  · cases h

theorem reads_blockAddrs (hfound : CodeFound base funcs root place) (h : dumpBlockAddrs base funcs bs = .ok ws) :
    Reads (times (restoreBlockAddr root) bs.length) ws (bs.map (carried funcs place)) := by
  induction bs generalizing ws with
  | nil =>
    cases h
    exact reads_pure []
  | cons b bs ih =>
    simp only [dumpBlockAddrs] at h
    split at h
    · next w ws' hw hws =>
      cases h
      exact (reads_blockAddr hfound hw).bind (ih hws).bind_pure
    · cases h
    · cases h

theorem getD_entries (cache : Cache) {i j : Nat} (hi : i < 64) (hj : j < 2) (f : BlockAddr → BlockAddr) :
    (cache.entries.map f).getD (2 * i + j) {} = f (cache i j) := by
  have hlt : 2 * i + j < 128 := by omega
  have hdiv : (2 * i + j) / 2 = i := by omega
  have hmod : (2 * i + j) % 2 = j := by omega
  simp [Cache.entries, List.getD, hlt, hdiv, hmod]

/-- A pointer of the image is read back as one, and takes four bytes. -/
theorem restoreFramePtr_rest {w : UInt32} {rest rest' : List UInt8} {a : Nat}
    (h : (restoreFramePtr root).run (put32 w ++ rest) = .ok (a, rest')) : rest' = rest := by
  rw [restoreFramePtr, run_bind_ok (reads_u32 w rest)] at h
  obtain ⟨info, bs', hinfo, h⟩ := run_bind_eq_ok h
  cases h
  cases hi : getInfo root w with
  | error e =>
    rw [hi] at hinfo
    cases hinfo
  | ok x =>
    rw [hi] at hinfo
    cases hinfo
    rfl

/-- A dump and a restore of the environment: `node` is what the new block holds before. -/
def ExecEnv.migrate (base : Nat) (funcs : List CodeRange) (root : List PoolInfo) (bottom : Nat) (node env : ExecEnv) :
    Except Fault ExecEnv :=
  match dumpWASMExecEnv base funcs env with
  | .ok img => ((restoreWASMExecEnv root bottom node).run img).map Prod.fst
  | .error e => .error e

theorem migrate_run (h : ExecEnv.migrate base funcs root bottom node env = .ok env') :
    ∃ img rest, dumpWASMExecEnv base funcs env = .ok img ∧ (restoreWASMExecEnv root bottom node).run img = .ok (env', rest) := by
  unfold ExecEnv.migrate at h
  split at h
  · next img himg =>
    cases hr : (restoreWASMExecEnv root bottom node).run img with
    | error e =>
      rw [hr] at h
      cases h
    | ok x =>
      rw [hr] at h
      cases h
      exact ⟨img, x.2, himg, hr⟩
  · cases h

theorem migrate_cache (hfound : CodeFound base funcs root place) (h : ExecEnv.migrate base funcs root bottom node env = .ok env')
    {i j : Nat} (hi : i < 64) (hj : j < 2) : env'.blockAddrCache i j = carried funcs place (env.blockAddrCache i j) := by
  obtain ⟨img, rest, hd, hr⟩ := migrate_run h
  unfold dumpWASMExecEnv at hd
  split at hd
  · next ws hws =>
    cases hd
    obtain ⟨next, bs₁, h₁, hr⟩ := run_bind_eq_ok hr
    obtain rfl := restoreFramePtr_rest h₁
    obtain ⟨prev, bs₂, h₂, hr⟩ := run_bind_eq_ok hr
    obtain rfl := restoreFramePtr_rest h₂
    obtain ⟨moduleInst, bs₃, h₃, hr⟩ := run_bind_eq_ok hr
    obtain rfl := restoreFramePtr_rest h₃
    obtain ⟨attachment, bs₄, h₄, hr⟩ := run_bind_eq_ok hr
    obtain rfl := restoreFramePtr_rest h₄
    have hlen : env.blockAddrCache.entries.length = 128 := by simp [Cache.entries]
    have hread := reads_blockAddrs hfound hws (put32 env.wasmStackSize)
    rw [hlen] at hread
    rw [run_bind_ok hread] at hr
    obtain ⟨size, bs₆, -, hr⟩ := run_bind_eq_ok hr
    cases hr
    simp only [Cache.ofEntries, hi, hj, and_self, if_true, getD_entries _ hi hj]
  · cases hd

theorem dumpBlockAddrs_ok (base : Nat) (hne : funcs ≠ []) (h : ∀ b ∈ bs, b = {} ∨ (functionOf funcs b).isSome) :
    ∃ ws, dumpBlockAddrs base funcs bs = .ok ws := by
  induction bs with
  | nil => exact ⟨[], rfl⟩
  | cons b bs ih =>
    obtain ⟨ws, hws⟩ := ih fun c hc => h c (List.mem_cons_of_mem b hc)
    obtain ⟨w, hw⟩ : ∃ w, dumpBlockAddr base funcs b = .ok w := by
      unfold dumpBlockAddr
      rw [if_neg hne]
      rcases h b List.mem_cons_self with hb | hb
      · rw [if_pos hb]
        exact ⟨_, rfl⟩
      obtain ⟨g, hg⟩ := Option.isSome_iff_exists.1 hb
      rw [functionOf] at hg
      rw [hg]
      split
      · exact ⟨_, rfl⟩
      · exact ⟨_, rfl⟩
    exact ⟨w ++ ws, by rw [dumpBlockAddrs, hw, hws]⟩

theorem reads_null : Reads (restoreFramePtr root) (put32 (dumpFramePtr base 0)) 0 := by
  rw [← List.append_nil (put32 _)]
  refine (reads_u32 _).bind ?_
  rw [← List.append_nil []]
  exact (reads_ofExcept (getInfo_null root)).bind (reads_pure 0)

/-- An environment without pointers is read back if every entry of its cache belongs to a function. -/
theorem migrate_ok (hfound : CodeFound base funcs root place) (hne : funcs ≠ [])
    (hcache : ∀ b ∈ env.blockAddrCache.entries, b = {} ∨ (functionOf funcs b).isSome)
    (hptr : env.next = 0 ∧ env.prev = 0 ∧ env.moduleInst = 0 ∧ env.attachment = 0) :
    ∃ env', ExecEnv.migrate base funcs root bottom node env = .ok env' := by
  obtain ⟨ws, hws⟩ := dumpBlockAddrs_ok base hne hcache
  have hlen : env.blockAddrCache.entries.length = 128 := by simp [Cache.entries]
  have hread := reads_blockAddrs hfound hws
  rw [hlen] at hread
  obtain ⟨hnext, hprev, hinst, hatt⟩ := hptr
  unfold ExecEnv.migrate dumpWASMExecEnv
  rw [hws, hnext, hprev, hinst, hatt, ← List.append_nil (put32 env.wasmStackSize)]
  simp only
  rw [restoreWASMExecEnv, run_bind_ok (reads_null _), run_bind_ok (reads_null _), run_bind_ok (reads_null _),
    run_bind_ok (reads_null _), run_bind_ok (hread _), run_bind_ok (reads_u32 _ _)]
  exact ⟨_, rfl⟩

end

/-! ## The auxiliary stack -/

/-- What a module says about the auxiliary stack. -/
structure AuxStack where
  dataEnd : UInt32
  bottom : UInt32
  size : UInt32
  topGlobalIndex : UInt32
  deriving DecidableEq, Repr

/-- The limits that `wasm_exec_env_create` sets. -/
def ExecEnv.initAuxStack (env : ExecEnv) (m : AuxStack) : ExecEnv :=
  { env with auxStackBottom := m.bottom, auxStackBoundary := m.bottom - m.size }

/-- `wasm_set_aux_stack`: nothing if it returns false. The global of the stack pointer also gets the value `startOffset`. -/
def ExecEnv.setAuxStack (env : ExecEnv) (m : AuxStack) (startOffset size : UInt32) : Option ExecEnv :=
  let isStackBeforeData := m.bottom < m.dataEnd
  if isStackBeforeData ∧ startOffset < size ∨ ¬ isStackBeforeData ∧ startOffset - m.dataEnd < size then none
  else if m.topGlobalIndex ≠ 0xFFFFFFFF then
    some { env with auxStackBoundary := startOffset - size, auxStackBottom := startOffset }
  else none

/-- `WASM_OP_SET_GLOBAL_AUX_STACK`: the new value of the global, or the exception. -/
def ExecEnv.setGlobalAuxStack (env : ExecEnv) (auxStackTop : UInt32) : Except String UInt32 :=
  if auxStackTop ≤ env.auxStackBoundary then .error "wasm auxiliary stack overflow"
  else if env.auxStackBottom < auxStackTop then .error "wasm auxiliary stack underflow"
  else .ok auxStackTop

theorem restored_limits {root : List PoolInfo} {bottom : Nat} {node env : ExecEnv} {img rest : List UInt8}
    (h : (restoreWASMExecEnv root bottom node).run img = .ok (env, rest)) :
    env.auxStackBoundary = node.auxStackBoundary ∧ env.auxStackBottom = node.auxStackBottom := by
  obtain ⟨next, bs₁, -, h⟩ := run_bind_eq_ok h
  obtain ⟨prev, bs₂, -, h⟩ := run_bind_eq_ok h
  obtain ⟨moduleInst, bs₃, -, h⟩ := run_bind_eq_ok h
  obtain ⟨attachment, bs₄, -, h⟩ := run_bind_eq_ok h
  obtain ⟨entries, bs₅, -, h⟩ := run_bind_eq_ok h
  obtain ⟨size, bs₆, -, h⟩ := run_bind_eq_ok h
  cases h
  exact ⟨rfl, rfl⟩

theorem overflow_iff (env : ExecEnv) (v : UInt32) : env.setGlobalAuxStack v = .error "wasm auxiliary stack overflow" ↔ v ≤ env.auxStackBoundary := by
  unfold ExecEnv.setGlobalAuxStack
  split
  · simp [*]
  · split <;> simp [*]

/-- A value is stored if it lies above the boundary and not above the bottom. -/
theorem stored_iff (env : ExecEnv) (v : UInt32) : env.setGlobalAuxStack v = .ok v ↔ env.auxStackBoundary < v ∧ v ≤ env.auxStackBottom := by
  unfold ExecEnv.setGlobalAuxStack
  split
  · next h => simp [UInt32.not_lt.2 h]
  next h =>
  split
  · next h' => simp [UInt32.not_le.2 h']
  · next h' => simp [UInt32.not_le.1 h, UInt32.not_lt.1 h']

/-- The stores of one environment that the other one makes as well. -/
theorem bottom_le_of_stores {env env' : ExecEnv} (h : ∀ v, env'.setGlobalAuxStack v = .ok v → env.setGlobalAuxStack v = .ok v) :
    env'.auxStackBottom ≤ env'.auxStackBoundary ∨ env'.auxStackBottom ≤ env.auxStackBottom := by
  by_cases hlt : env'.auxStackBoundary < env'.auxStackBottom
  · have hs := h _ ((stored_iff env' env'.auxStackBottom).2 ⟨hlt, UInt32.le_refl _⟩)
    exact .inr ((stored_iff env _).1 hs).2
  · exact .inl (UInt32.not_lt.1 hlt)

/-- Two environments guard the stack pointer alike if they have the same boundary, and the same bottom or no room above it. -/
theorem setGlobalAuxStack_eq_iff (env env' : ExecEnv) : (∀ v, env'.setGlobalAuxStack v = env.setGlobalAuxStack v) ↔
      env'.auxStackBoundary = env.auxStackBoundary ∧ (env'.auxStackBottom = env.auxStackBottom ∨
        env'.auxStackBottom ≤ env.auxStackBoundary ∧ env.auxStackBottom ≤ env.auxStackBoundary) := by
  constructor
  · intro h
    have hle := (overflow_iff env _).1 (h _ ▸ (overflow_iff env' env'.auxStackBoundary).2 (UInt32.le_refl _))
    have hge := (overflow_iff env' _).1 ((h _).trans ((overflow_iff env env.auxStackBoundary).2 (UInt32.le_refl _)))
    have hb : env'.auxStackBoundary = env.auxStackBoundary := UInt32.le_antisymm hle hge
    have h₁ := bottom_le_of_stores fun v hv => (h v).symm.trans hv
    have h₂ := bottom_le_of_stores fun v hv => (h v).trans hv
    rw [hb] at h₁
    simp only [UInt32.le_iff_toNat_le, ← UInt32.toNat_inj] at h₁ h₂ ⊢
    exact ⟨congrArg UInt32.toNat hb, by omega⟩
  rintro ⟨hb, hbottom⟩ v
  unfold ExecEnv.setGlobalAuxStack
  rw [hb]
  split
  · rfl
  next hv =>
  have hiff : env'.auxStackBottom < v ↔ env.auxStackBottom < v := by
    simp only [UInt32.le_iff_toNat_le, UInt32.lt_iff_toNat_lt, ← UInt32.toNat_inj] at hbottom hv ⊢
    omega
  simp only [hiff]

/-- The guard works after a migration as before exactly if the block of the new environment already holds the limits. -/
theorem auxStack_guard_iff {base : Nat} {funcs : List CodeRange} {root : List PoolInfo} {bottom : Nat} {node env env' : ExecEnv}
    (h : ExecEnv.migrate base funcs root bottom node env = .ok env') :
    (∀ v, env'.setGlobalAuxStack v = env.setGlobalAuxStack v) ↔
      node.auxStackBoundary = env.auxStackBoundary ∧ (node.auxStackBottom = env.auxStackBottom ∨
        node.auxStackBottom ≤ env.auxStackBoundary ∧ env.auxStackBottom ≤ env.auxStackBoundary) := by
  obtain ⟨img, rest, -, hr⟩ := migrate_run h
  obtain ⟨hboundary, hbottom⟩ := restored_limits hr
  rw [setGlobalAuxStack_eq_iff, hboundary, hbottom]

/-- A module with an auxiliary stack of 64 KiB below 66560. -/
def auxStack64K : AuxStack := ⟨1024, 66560, 65536, 0⟩

theorem blank_migrates (node : ExecEnv) (m : AuxStack) :
    ∃ env', ExecEnv.migrate 4096 [⟨8192, 4⟩] [⟨4096, 8192, 4, .uint8T, [], 4⟩] 0 node (({} : ExecEnv).initAuxStack m) = .ok env' := by
  have hfound : CodeFound 4096 [⟨8192, 4⟩] [⟨4096, 8192, 4, .uint8T, [], 4⟩] fun _ => 8192 := by
    refine ⟨by simp [dumpFramePtr, absOf], fun g hg => ?_⟩
    obtain rfl := List.mem_singleton.1 hg
    exact ⟨_, rfl, rfl⟩
  refine migrate_ok hfound (by simp) (fun b hb => ?_) ⟨rfl, rfl, rfl, rfl⟩
  obtain ⟨k, -, rfl⟩ := List.mem_map.1 hb
  exact .inl rfl

/-- In a block of zeros every value of the stack pointer is above the bottom. -/
theorem cleared_block_underflow : ∃ env',
    ExecEnv.migrate 4096 [⟨8192, 4⟩] [⟨4096, 8192, 4, .uint8T, [], 4⟩] 0 {} (({} : ExecEnv).initAuxStack auxStack64K) = .ok env' ∧
    (({} : ExecEnv).initAuxStack auxStack64K).setGlobalAuxStack 66000 = .ok 66000 ∧
    env'.setGlobalAuxStack 66000 = .error "wasm auxiliary stack underflow" := by
  obtain ⟨env', h⟩ := blank_migrates {} auxStack64K
  obtain ⟨img, rest, -, hr⟩ := migrate_run h
  obtain ⟨hboundary, hbottom⟩ := restored_limits hr
  refine ⟨env', h, by decide, ?_⟩
  rw [ExecEnv.setGlobalAuxStack, hboundary, hbottom]
  decide

/-- In a block that held an environment of the same module the limits are there. -/
theorem reused_block_guard : ∃ env',
    ExecEnv.migrate 4096 [⟨8192, 4⟩] [⟨4096, 8192, 4, .uint8T, [], 4⟩] 0 (({} : ExecEnv).initAuxStack auxStack64K)
      (({} : ExecEnv).initAuxStack auxStack64K) = .ok env' ∧
    ∀ v, env'.setGlobalAuxStack v = (({} : ExecEnv).initAuxStack auxStack64K).setGlobalAuxStack v := by
  obtain ⟨env', h⟩ := blank_migrates (({} : ExecEnv).initAuxStack auxStack64K) auxStack64K
  exact ⟨env', h, (auxStack_guard_iff h).2 ⟨rfl, .inl rfl⟩⟩

end WamrMigrate.Interp
