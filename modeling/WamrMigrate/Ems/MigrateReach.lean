import WamrMigrate.Ems.Init
import WamrMigrate.Ems.Migrate

/-!
# What `gc_migrate` touches

The pool of an app heap lies in linear memory, so `gc_migrate` walks over headers that the module left there. Its loop is given again with a log of
the words that each round reads or writes. A header with size 0 keeps the loop where it is, and a header at the end of the pool that reads as a
large free chunk has its links behind the pool.
-/

namespace WamrMigrate.Ems

/-- The words of the three links of a node. -/
def linkSpans (node : Nat) : List Span := [Span.ofSize (node + 8) 8, Span.ofSize (node + 16) 8, Span.ofSize (node + 24) 8]

/-- What the loop of `gc_migrate` takes for a node of the tree. -/
def IsTreeNode (h : GcHeap) (cur : Nat) : Prop :=
  hmuGetUt (h.header cur) = hmuFC ∧ ¬hmuIsFcNormal (hmuGetSize (h.header cur))

instance (h : GcHeap) (cur : Nat) : Decidable (IsTreeNode h cur) := inferInstanceAs (Decidable (_ ∧ _))

/-- The words that a round of the loop reads or writes. -/
def roundSpans (h : GcHeap) (cur : Nat) : List Span :=
  Span.ofSize cur 4 :: if IsTreeNode h cur then linkSpans cur else []

/-- What a round of the loop makes of the heap. -/
def migrateRound (offset : Int) (h : GcHeap) (cur : Nat) : GcHeap :=
  if IsTreeNode h cur then adjustNode h cur offset else h

/-- The loop of `gc_migrate`, with the words of each round. -/
def migrateLog (offset : Int) : Nat → GcHeap → Nat → Option (GcHeap × List (List Span))
  | 0, _, _ => none
  | fuel + 1, h, cur =>
    if cur < h.baseAddr + h.currentSize then
      (migrateLog offset fuel (migrateRound offset h cur) (cur + hmuGetSize (h.header cur))).map fun r =>
        (r.1, roundSpans h cur :: r.2)
    else some (h, [])

/-- The heap with its new base and the links of the root shifted. -/
def migrateRoot (h : GcHeap) (baseAddrNew : Nat) : GcHeap :=
  let offset := (baseAddrNew : Int) - h.baseAddr
  let h₁ := { h with baseAddr := baseAddrNew }
  adjustPtr (adjustPtr (adjustPtr h₁ (h.kfcTreeRoot + 8) offset) (h.kfcTreeRoot + 16) offset) (h.kfcTreeRoot + 24) offset

/-- The pool has to be shifted: `gc_migrate` returns neither an error nor at once. -/
def Moves (h : GcHeap) (poolBufNew : Nat) (poolBufSize : UInt32) : Prop :=
  poolBufNew % 8 = 0 ∧ poolBufNew + gcHeadPadding ≤ poolBufNew + poolBufSize.toNat ∧
    h.currentSize ≤ poolSize (poolBufNew + gcHeadPadding) (poolBufNew + poolBufSize.toNat) ∧
    poolBufNew + gcHeadPadding ≠ h.baseAddr

instance (h : GcHeap) (poolBufNew : Nat) (poolBufSize : UInt32) : Decidable (Moves h poolBufNew poolBufSize) :=
  inferInstanceAs (Decidable (_ ∧ _))

/-- `gc_migrate` with the words that it reads or writes: those of the root, then those of each round. -/
def gcMigrateLog (h : GcHeap) (poolBufNew : Nat) (poolBufSize : UInt32) : Option (List Span × List (List Span)) :=
  if Moves h poolBufNew poolBufSize then
    (migrateLog ((poolBufNew + gcHeadPadding : Nat) - h.baseAddr) (h.currentSize + 1)
      (migrateRoot h (poolBufNew + gcHeadPadding)) (poolBufNew + gcHeadPadding)).map fun r => (linkSpans h.kfcTreeRoot, r.2)
  else some ([], [])

section Log
variable {offset : Int} {h : GcHeap} {cur fuel : Nat}

theorem migrateLog_fst : (migrateLog offset fuel h cur).map Prod.fst = migrateChunks offset fuel h cur := by
  induction fuel generalizing h cur with
  | zero => rfl
  | succ fuel ih =>
    rw [migrateLog, migrateChunks]
    split
    · rw [Option.map_map]
      exact ih
    · rfl

theorem migrateRound_eq (offset : Int) (h : GcHeap) (cur : Nat) : ∃ m, migrateRound offset h cur = { h with mem := m } ∧
      ∀ x, cur + hmuGetSize (h.header cur) ≤ x → m x = h.mem x := by
  unfold migrateRound
  split
  · rename_i hnode
    obtain ⟨m, hrun, -, hout⟩ := adjustNode_spec h cur offset
    have hlarge : ¬hmuGetSize (h.header cur) < 248 := hnode.2
    exact ⟨m, hrun, fun x hx => hout x (by omega)⟩
  · exact ⟨h.mem, rfl, fun _ _ => rfl⟩

theorem migrateLog_stuck (hlt : cur < h.baseAddr + h.currentSize) (h0 : hmuGetSize (h.header cur) = 0) : migrateLog offset fuel h cur = none := by
  have hsame : migrateRound offset h cur = h := if_neg fun hnode => hnode.2 (by rw [h0]; decide)
  induction fuel with
  | zero => rfl
  | succ fuel ih =>
    rw [migrateLog, if_pos hlt, hsame, h0, Nat.add_zero, ih]
    rfl

end Log

/-- The places that a walk over the headers of `h` comes to. -/
inductive Walked (h : GcHeap) (finish : Nat) (start : Nat) : Nat → Prop
  | start : Walked h finish start start
  | next {cur : Nat} : Walked h finish start cur → cur < finish → Walked h finish start (cur + hmuGetSize (h.header cur))

section Walked
variable {h : GcHeap} {finish start cur : Nat}

theorem Walked.le (hw : Walked h finish start cur) : start ≤ cur := by
  induction hw with
  | start => exact Nat.le_refl start
  | next _ _ ih => exact Nat.le_trans ih (Nat.le_add_right _ _)

theorem Walked.of_next (hlt : start < finish) (hw : Walked h finish (start + hmuGetSize (h.header start)) cur) : Walked h finish start cur := by
  induction hw with
  | start => exact .next .start hlt
  | next _ hc ih => exact .next ih hc

theorem walked_iff (hlt : start < finish) : Walked h finish start cur ↔ cur = start ∨ Walked h finish (start + hmuGetSize (h.header start)) cur := by
  constructor
  · intro hw
    induction hw with
    | start => exact .inl rfl
    | next _ hc ih =>
      rcases ih with rfl | hw
      · exact .inr .start
      · exact .inr (.next hw hc)
  · rintro (rfl | hw)
    · exact .start
    · exact hw.of_next hlt

end Walked

/-- The word lies in the new pool or in the heap structure. -/
def InReach (pool struct : Span) (s : Span) : Prop := s.Within pool ∨ s.Within struct

/-- A header that the loop can pass: it has a size, and the links it is taken to have lie where `gc_migrate` may write. -/
def Passable (h : GcHeap) (pool struct : Span) (cur : Nat) : Prop :=
  hmuGetSize (h.header cur) ≠ 0 ∧ (IsTreeNode h cur → ∀ s ∈ linkSpans cur, InReach pool struct s)

/-- `gc_migrate` returns after at most `current_size / 8` rounds and touches nothing but the new pool and the structure. -/
def MigratesWithin (h : GcHeap) (poolBufNew : Nat) (poolBufSize : UInt32) : Prop :=
  ∃ root rounds, gcMigrateLog h poolBufNew poolBufSize = some (root, rounds) ∧ rounds.length ≤ h.currentSize / 8 ∧
    ∀ s ∈ root ++ rounds.flatten, InReach (Span.ofSize poolBufNew poolBufSize.toNat) h.structSpan s

theorem hmuGetSize_mod (v : BitVec 32) : hmuGetSize v % 8 = 0 := by
  unfold hmuGetSize
  rw [BitVec.toNat_shiftLeft, Nat.shiftLeft_eq]
  omega

section Loop
variable {offset : Int} {h h₀ : GcHeap} {cur finish fuel n : Nat} {pool struct : Span}

theorem isTreeNode_congr (he : h.header cur = h₀.header cur) : IsTreeNode h cur ↔ IsTreeNode h₀ cur := by
  unfold IsTreeNode
  rw [he]

theorem migrateLog_done (hfin : finish = h.baseAddr + h.currentSize) (hge : finish ≤ cur) (hf : n < fuel) :
    (∃ r, migrateLog offset fuel h cur = some r ∧ r.2.length ≤ n ∧ ∀ s ∈ r.2.flatten, InReach pool struct s) ↔
      ∀ c, Walked h₀ finish cur c → c < finish → Passable h₀ pool struct c := by
  obtain ⟨fuel, rfl⟩ := Nat.exists_eq_succ_of_ne_zero (Nat.ne_zero_of_lt hf)
  rw [migrateLog, if_neg (by omega)]
  constructor
  · intro _ c hw hc
    exact absurd hw.le (by omega)
  · intro _
    exact ⟨_, rfl, Nat.zero_le n, fun s hs => nomatch hs⟩

theorem migrateLog_succ (hlt : cur < h.baseAddr + h.currentSize) :
    (∃ r, migrateLog offset (fuel + 1) h cur = some r ∧ r.2.length ≤ n + 1 ∧ ∀ s ∈ r.2.flatten, InReach pool struct s) ↔
      (∀ s ∈ roundSpans h cur, InReach pool struct s) ∧
        ∃ r, migrateLog offset fuel (migrateRound offset h cur) (cur + hmuGetSize (h.header cur)) = some r ∧
          r.2.length ≤ n ∧ ∀ s ∈ r.2.flatten, InReach pool struct s := by
  rw [migrateLog, if_pos hlt]
  constructor
  · rintro ⟨r, hr, hlen, hall⟩
    obtain ⟨r', hr', rfl⟩ := Option.map_eq_some_iff.1 hr
    simp only [List.length_cons, Nat.add_le_add_iff_right] at hlen
    simp only [List.flatten_cons, List.forall_mem_append] at hall
    exact ⟨hall.1, r', hr', hlen, hall.2⟩
  rintro ⟨hround, r, hr, hlen, hall⟩
  refine ⟨_, Option.map_eq_some_iff.2 ⟨r, hr, rfl⟩, Nat.succ_le_succ hlen, ?_⟩
  simp only [List.flatten_cons, List.forall_mem_append]
  exact ⟨hround, hall⟩

/-- The header itself is in reach, so that a round is when the links are. -/
theorem roundSpans_inReach (hhead : pool.lo ≤ cur ∧ cur + 4 ≤ pool.hi) : (∀ s ∈ roundSpans h cur, InReach pool struct s) ↔
      (IsTreeNode h cur → ∀ s ∈ linkSpans cur, InReach pool struct s) := by
  unfold roundSpans
  rw [List.forall_mem_cons]
  split
  · rename_i hnode
    exact ⟨fun hall _ => hall.2, fun hall => ⟨.inl hhead, hall hnode⟩⟩
  · rename_i hnode
    exact ⟨fun _ hn => absurd hn hnode, fun _ => ⟨.inl hhead, fun s hs => nomatch hs⟩⟩

/-- From any header on, the loop ends in time and in reach exactly when every header it comes to can be passed. The headers
are those before the loop: what is written lies before the next one. -/
theorem migrateLog_within_iff (hfin : finish = h.baseAddr + h.currentSize) (hkeep : ∀ p, cur ≤ p → p + 4 ≤ finish → h.header p = h₀.header p)
    (halign : finish % 8 = cur % 8) (hin : pool.lo ≤ cur ∧ finish ≤ pool.hi) (hn : finish ≤ cur + 8 * n) (hf : n < fuel) :
    (∃ r, migrateLog offset fuel h cur = some r ∧ r.2.length ≤ n ∧ ∀ s ∈ r.2.flatten, InReach pool struct s) ↔
      ∀ c, Walked h₀ finish cur c → c < finish → Passable h₀ pool struct c := by
  induction n generalizing h cur fuel with
  | zero => exact migrateLog_done hfin hn hf
  | succ n ih =>
    by_cases hge : finish ≤ cur
    · exact migrateLog_done hfin hge hf
    have hlt : cur < finish := Nat.lt_of_not_le hge
    have hsame : h.header cur = h₀.header cur := hkeep cur (Nat.le_refl cur) (by omega)
    by_cases h0 : hmuGetSize (h₀.header cur) = 0
    · rw [migrateLog_stuck (hfin ▸ hlt) (by rw [hsame, h0])]
      constructor
      · rintro ⟨_, hr, -⟩
        cases hr
      · intro hall
        exact absurd h0 (hall cur .start hlt).1
    obtain ⟨fuel, rfl⟩ := Nat.exists_eq_succ_of_ne_zero (Nat.ne_zero_of_lt hf)
    obtain ⟨m, hround, hout⟩ := migrateRound_eq offset h cur
    have hmod := hmuGetSize_mod (h₀.header cur)
    rw [migrateLog_succ (hfin ▸ hlt), roundSpans_inReach ⟨hin.1, by omega⟩, hround, isTreeNode_congr hsame]
    rw [hsame] at hout ⊢
    -- what follows the chunk is as it was
    have hkeep' : ∀ p, cur + hmuGetSize (h₀.header cur) ≤ p → p + 4 ≤ finish →
        GcHeap.header { h with mem := m } p = h₀.header p := by
      intro p hp hp'
      rw [← hkeep p (by omega) hp']
      exact header_congr fun x hx _ => hout x (by omega)
    rw [ih (h := { h with mem := m }) hfin hkeep' (by omega) (by omega) (by omega) (by omega)]
    constructor
    · rintro ⟨hlinks, hrest⟩ c hw hc
      rcases (walked_iff hlt).1 hw with rfl | hw
      · exact ⟨h0, hlinks⟩
      · exact hrest c hw hc
    · intro hall
      exact ⟨(hall cur .start hlt).2, fun c hw hc => hall c (hw.of_next hlt) hc⟩

end Loop

section Migrate
variable {h : GcHeap} {poolBufNew : Nat} {poolBufSize : UInt32}

theorem gcMigrate_of_moves (hm : Moves h poolBufNew poolBufSize) : gcMigrate h poolBufNew poolBufSize =
      (migrateChunks ((poolBufNew + gcHeadPadding : Nat) - h.baseAddr) (h.currentSize + 1)
        (migrateRoot h (poolBufNew + gcHeadPadding)) (poolBufNew + gcHeadPadding)).map fun h' => (0, h') := by
  obtain ⟨h8, hend, hsize, hne⟩ := hm
  unfold gcMigrate
  simp only
  rw [if_neg (by omega), if_neg (by omega), if_neg (by omega)]
  unfold migrateRoot
  split
  · rename_i hnone
    rw [hnone]
    rfl
  · rename_i hsome
    rw [hsome]
    rfl

theorem gcMigrateLog_isSome : (gcMigrateLog h poolBufNew poolBufSize).isSome = (gcMigrate h poolBufNew poolBufSize).isSome := by
  unfold gcMigrateLog
  by_cases hm : Moves h poolBufNew poolBufSize
  · rw [if_pos hm, gcMigrate_of_moves hm, ← migrateLog_fst]
    simp only [Option.isSome_map]
  rw [if_neg hm]
  unfold gcMigrate
  simp only
  split
  · rfl
  split
  · rfl
  split
  · rfl
  · exact absurd ⟨by omega, by omega, by omega, by omega⟩ hm

theorem adjustLinks_eq (h : GcHeap) (node : Nat) (offset : Int) :
    ∃ m, adjustPtr (adjustPtr (adjustPtr h (node + 8) offset) (node + 16) offset) (node + 24) offset = { h with mem := m } ∧
      ∀ x, ¬(node + 8 ≤ x ∧ x < node + 32) → m x = h.mem x := by
  obtain ⟨m₁, hrun₁, -, hout₁⟩ := adjustPtr_eq h (node + 8) offset
  obtain ⟨m₂, hrun₂, -, hout₂⟩ := adjustPtr_eq { h with mem := m₁ } (node + 16) offset
  obtain ⟨m₃, hrun₃, -, hout₃⟩ := adjustPtr_eq { h with mem := m₂ } (node + 24) offset
  refine ⟨m₃, ?_, ?_⟩
  · rw [hrun₁, hrun₂, hrun₃]
  · intro x hx
    exact (hout₃ x (by omega)).trans ((hout₂ x (by omega)).trans (hout₁ x (by omega)))

theorem root_inReach (pool : Span) : ∀ s ∈ linkSpans h.kfcTreeRoot, InReach pool h.structSpan s := by
  have hword : ∀ i, i + 8 ≤ 32 → InReach pool h.structSpan (Span.ofSize (h.kfcTreeRoot + i) 8) := by
    intro i hi
    right
    simp only [Span.Within, GcHeap.structSpan, Span.ofSize, kfcTreeRootOffset, gcHeapStructSize]
    omega
  unfold linkSpans
  simp only [List.forall_mem_cons]
  exact ⟨hword 8 (by omega), hword 16 (by omega), hword 24 (by omega), fun s hs => absurd hs List.not_mem_nil⟩

/-- The root belongs to the structure, so that the new pool keeps its headers. -/
theorem migrateRoot_eq {pool : Span} (hapart : h.structSpan.Apart pool) (baseAddrNew : Nat) :
    ∃ m, migrateRoot h baseAddrNew = { h with baseAddr := baseAddrNew, mem := m } ∧
      ∀ p, pool.lo ≤ p → p + 4 ≤ pool.hi → GcHeap.header { h with baseAddr := baseAddrNew, mem := m } p = h.header p := by
  obtain ⟨m, hroot, hout⟩ := adjustLinks_eq { h with baseAddr := baseAddrNew } h.kfcTreeRoot ((baseAddrNew : Nat) - h.baseAddr)
  refine ⟨m, hroot, fun p hp hp' => ?_⟩
  apply header_congr
  intro x hx hx'
  apply hout x
  simp only [Span.Apart, GcHeap.structSpan, Span.ofSize, kfcTreeRootOffset, gcHeapStructSize] at hapart
  omega

theorem migrateLog_pool_iff {pool : Span} {baseAddrNew : Nat} (hapart : h.structSpan.Apart pool) (h8 : h.currentSize % 8 = 0)
    (hlo : pool.lo ≤ baseAddrNew) (hhi : baseAddrNew + h.currentSize ≤ pool.hi) (offset : Int) :
    (∃ r, migrateLog offset (h.currentSize + 1) (migrateRoot h baseAddrNew) baseAddrNew = some r ∧
        r.2.length ≤ h.currentSize / 8 ∧ ∀ s ∈ r.2.flatten, InReach pool h.structSpan s) ↔
      ∀ c, Walked h (baseAddrNew + h.currentSize) baseAddrNew c → c < baseAddrNew + h.currentSize → Passable h pool h.structSpan c := by
  obtain ⟨m, hroot, hkeep⟩ := migrateRoot_eq hapart baseAddrNew
  rw [hroot]
  exact migrateLog_within_iff rfl (fun p hp hp' => hkeep p (by omega) (by omega)) (by omega) ⟨hlo, hhi⟩ (by omega) (by omega)

/-- For a heap as it was set up, with its structure apart from the new pool, and any bytes in the new pool: `gc_migrate` returns
after at most `current_size / 8` rounds and touches only the new pool and the structure exactly when it moves nothing or every
header that it comes to has a size other than 0 and, if it reads as a large free chunk, its links in reach. -/
theorem gcMigrate_within_iff (h : GcHeap) (poolBufNew : Nat) (poolBufSize : UInt32) (h8 : h.currentSize % 8 = 0)
    (hapart : h.structSpan.Apart (Span.ofSize poolBufNew poolBufSize.toNat)) :
    MigratesWithin h poolBufNew poolBufSize ↔
      (Moves h poolBufNew poolBufSize →
        ∀ c, Walked h (poolBufNew + gcHeadPadding + h.currentSize) (poolBufNew + gcHeadPadding) c →
          c < poolBufNew + gcHeadPadding + h.currentSize →
            Passable h (Span.ofSize poolBufNew poolBufSize.toNat) h.structSpan c) := by
  unfold MigratesWithin gcMigrateLog
  by_cases hm : Moves h poolBufNew poolBufSize
  · obtain ⟨-, hend, hsize, -⟩ := id hm
    have hlt := poolBufSize.toNat_lt
    rw [poolSize_eq hend (by omega)] at hsize
    have hhi : poolBufNew + gcHeadPadding + h.currentSize ≤ poolBufNew + poolBufSize.toNat := by omega
    have hlo : (Span.ofSize poolBufNew poolBufSize.toNat).lo ≤ poolBufNew + gcHeadPadding := Nat.le_add_right _ _
    rw [if_pos hm, forall_prop_of_true hm,
      ← migrateLog_pool_iff hapart h8 hlo hhi ((poolBufNew + gcHeadPadding : Nat) - h.baseAddr)]
    constructor
    · rintro ⟨root, rounds, hlog, hlen, hall⟩
      obtain ⟨r, hr, he⟩ := Option.map_eq_some_iff.1 hlog
      cases he
      exact ⟨r, hr, hlen, (List.forall_mem_append.1 hall).2⟩
    · rintro ⟨r, hr, hlen, hall⟩
      exact ⟨_, _, Option.map_eq_some_iff.2 ⟨r, hr, rfl⟩, hlen, List.forall_mem_append.2 ⟨root_inReach _, hall⟩⟩
  · rw [if_neg hm]
    constructor
    · intro _ hmoves
      exact absurd hmoves hm
    · intro _
      exact ⟨[], [], rfl, Nat.zero_le _, fun s hs => nomatch hs⟩

/-- A heap of 248 bytes whose pool has been copied from 8196 to 16388. -/
def copiedHeap (mem : Mem) : GcHeap :=
  { mem := mem, baseAddr := 8196, currentSize := 248, kfcNormalList := fun _ => 0, kfcTreeRoot := 4416,
    isHeapCorrupted := false, highmarkSize := 0, totalFreeSize := 248 }

/-- An object of 240 bytes, then a header in the last 8 bytes that reads as a free chunk of 248 bytes. -/
def forgedTail : Mem := (Mem.store (fun _ => 0) 16388 4 0x8000001e).store 16628 4 0x4000001f

theorem migrateLog_forgedTail : gcMigrateLog (copiedHeap forgedTail) 16384 256 =
      some (linkSpans 4416, [[⟨16388, 16392⟩], [⟨16628, 16632⟩, ⟨16636, 16644⟩, ⟨16644, 16652⟩, ⟨16652, 16660⟩]]) := rfl

/-- With 0 in the first header `gc_migrate` does not return, and with the forged tail it reads links behind the pool. -/
theorem forged_headers :
    (gcMigrate (copiedHeap fun _ => 0) 16384 256 = none ∧
      ∀ fuel offset, migrateChunks offset fuel (migrateRoot (copiedHeap fun _ => 0) 16388) 16388 = none) ∧
    ¬MigratesWithin (copiedHeap forgedTail) 16384 256 := by
  have hstuck : ∀ fuel offset, migrateChunks offset fuel (migrateRoot (copiedHeap fun _ => 0) 16388) 16388 = none := by
    intro fuel offset
    rw [← migrateLog_fst, migrateLog_stuck (by decide) (by decide)]
    rfl
  refine ⟨⟨?_, hstuck⟩, ?_⟩
  · rw [gcMigrate_of_moves (by decide)]
    exact congrArg (Option.map _) (hstuck _ _)
  rintro ⟨root, rounds, hlog, -, hall⟩
  rw [migrateLog_forgedTail] at hlog
  cases hlog
  have hlast := hall ⟨16652, 16660⟩ (by simp)
  simp [InReach, Span.Within, Span.ofSize, GcHeap.structSpan, copiedHeap, kfcTreeRootOffset, gcHeapStructSize] at hlast

/-- One free chunk that fills the pool. -/
def oneFree : Mem := Mem.store (fun _ => 0) 16388 4 0x6000001f

theorem one_free_within : MigratesWithin (copiedHeap oneFree) 16384 256 := by
  have hpass : Passable (copiedHeap oneFree) (Span.ofSize 16384 256) (copiedHeap oneFree).structSpan 16388 := by
    refine ⟨by decide, fun _ => ?_⟩
    simp [linkSpans, InReach, Span.Within, Span.ofSize]
  refine (gcMigrate_within_iff (copiedHeap oneFree) 16384 256 (by decide) (.inl (by decide))).2 fun _ c hw hc => ?_
  rcases (walked_iff (by decide)).1 hw with rfl | hw
  · exact hpass
  · have hle : 16388 + 248 ≤ c := hw.le
    exact absurd hc (Nat.not_lt.2 hle)

end Migrate

end WamrMigrate.Ems
