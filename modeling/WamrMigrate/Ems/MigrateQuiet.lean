import WamrMigrate.Ems.MigrateReach

/-!
# When `gc_migrate` leaves the pool as it is

The links of the free chunks are addresses, kept in the pool, and `gc_migrate` rewrites them there. For any bytes in the pool, it returns with the
pool unchanged exactly when every header it comes to has a size other than 0 and those that read as large free chunks link to nothing but the root.
-/

namespace WamrMigrate.Ems

/-- A node without links, but perhaps to the root. -/
def Linkless (h : GcHeap) (cur : Nat) : Prop :=
  h.left cur = 0 ∧ h.right cur = 0 ∧ (h.parent cur = 0 ∨ h.parent cur = h.kfcTreeRoot)

/-- A header that `gc_migrate` passes without a change. -/
def PassedOver (h : GcHeap) (cur : Nat) : Prop := hmuGetSize (h.header cur) ≠ 0 ∧ (IsTreeNode h cur → Linkless h cur)

section Loop
variable {h h' : GcHeap} {offset : Int} {cur finish start fuel n : Nat}

theorem adjustPtr_of_null {slot : Nat} (h0 : h.mem.load slot 8 = 0) : adjustPtr h slot offset = h := by
  unfold adjustPtr
  simp only
  rw [if_pos h0]

theorem adjustNode_of_linkless (hu : Linkless h cur) : adjustNode h cur offset = h := by
  obtain ⟨hl, hr, hp⟩ := hu
  unfold adjustNode
  simp only
  rw [adjustPtr_of_null hl, adjustPtr_of_null hr]
  by_cases hroot : h.parent cur = h.kfcTreeRoot
  · rw [if_neg (not_not_intro hroot)]
  · rw [if_pos hroot, adjustPtr_of_null (hp.resolve_right hroot)]

theorem migrateChunks_succ (hlt : cur < h.baseAddr + h.currentSize) : migrateChunks offset (fuel + 1) h cur =
      migrateChunks offset fuel (migrateRound offset h cur) (cur + hmuGetSize (h.header cur)) := by
  rw [migrateChunks, if_pos hlt]
  rfl

theorem migrateChunks_of_passedOver (hfin : finish = h.baseAddr + h.currentSize)
    (hall : ∀ c, Walked h finish cur c → c < finish → PassedOver h c) (hn : finish ≤ cur + 8 * n) (hf : n < fuel) :
    migrateChunks offset fuel h cur = some h := by
  induction n generalizing cur fuel with
  | zero =>
    obtain ⟨fuel, rfl⟩ := Nat.exists_eq_succ_of_ne_zero (Nat.ne_zero_of_lt hf)
    rw [migrateChunks, if_neg (by omega)]
  | succ n ih =>
    obtain ⟨fuel, rfl⟩ := Nat.exists_eq_succ_of_ne_zero (Nat.ne_zero_of_lt hf)
    by_cases hlt : cur < finish
    · obtain ⟨h0, hnode⟩ := hall cur .start hlt
      have hround : migrateRound offset h cur = h := by
        unfold migrateRound
        split
        · exact adjustNode_of_linkless (hnode ‹_›)
        · rfl
      have hmod := hmuGetSize_mod (h.header cur)
      rw [migrateChunks_succ (hfin ▸ hlt), hround]
      exact ih (fun c hw hc => hall c (hw.of_next hlt) hc) (by omega) (by omega)
    · rw [migrateChunks, if_neg (by omega)]

theorem Walked.congr (hw : Walked h finish start cur) (he : ∀ p, start ≤ p → p < finish → h'.header p = h.header p) : Walked h' finish start cur := by
  induction hw with
  | start => exact .start
  | next hw hc ih =>
    rw [← he _ hw.le hc]
    exact .next ih hc

/-- What the loop has done when it is over: no header it came to had size 0, and the links of all nodes are shifted. -/
theorem migrateChunks_shifts (hrun : migrateChunks offset fuel h cur = some h') (hfin : finish = h.baseAddr + h.currentSize) :
    (∀ x, x < cur + 8 → h'.mem x = h.mem x) ∧ ∀ c, Walked h finish cur c → c < finish →
        hmuGetSize (h.header c) ≠ 0 ∧ (IsTreeNode h c → NodeShifted offset h.kfcTreeRoot h.mem h'.mem c) := by
  induction fuel generalizing h cur with
  | zero => cases hrun
  | succ fuel ih =>
    by_cases hlt : cur < finish
    · by_cases h0 : hmuGetSize (h.header cur) = 0
      · -- the loop does not leave a header with size 0
        rw [← migrateLog_fst, migrateLog_stuck (hfin ▸ hlt) h0] at hrun
        cases hrun
      obtain ⟨m, hround, hout⟩ := migrateRound_eq offset h cur
      have hmod := hmuGetSize_mod (h.header cur)
      rw [migrateChunks_succ (hfin ▸ hlt), hround] at hrun
      obtain ⟨hbefore, hrest⟩ := ih hrun hfin
      simp only at hbefore hrest
      have hhdr : ∀ p, cur + hmuGetSize (h.header cur) ≤ p → GcHeap.header { h with mem := m } p = h.header p := by
        intro p hp
        exact header_congr fun x hx _ => hout x (by omega)
      have hround' : IsTreeNode h cur → NodeShifted offset h.kfcTreeRoot h.mem m cur ∧
          ∀ x, ¬(cur + 8 ≤ x ∧ x < cur + 32) → m x = h.mem x := by
        intro hnode
        obtain ⟨m', hrun', hshift, hout'⟩ := adjustNode_spec h cur offset
        have he : migrateRound offset h cur = { h with mem := m' } := (if_pos hnode).trans hrun'
        have hm : m = m' := congrArg GcHeap.mem (hround.symm.trans he)
        exact hm ▸ ⟨hshift, hout'⟩
      have hkeep : ∀ x, x < cur + 8 → m x = h.mem x := by
        intro x hx
        by_cases hnode : IsTreeNode h cur
        · exact (hround' hnode).2 x (by omega)
        · have he : migrateRound offset h cur = h := if_neg hnode
          have hm : m = h.mem := congrArg GcHeap.mem (hround.symm.trans he)
          rw [hm]
      refine ⟨fun x hx => (hbefore x (by omega)).trans (hkeep x hx), fun c hw hc => ?_⟩
      rcases (walked_iff hlt).1 hw with rfl | hw
      · refine ⟨h0, fun hnode => ?_⟩
        have hlarge : ¬hmuGetSize (h.header c) < 248 := hnode.2
        obtain ⟨⟨hl, hr, hp⟩, -⟩ := hround' hnode
        -- the links of this node are not touched again
        have hload : ∀ k, k ≤ 24 → h'.mem.load (c + k) 8 = m.load (c + k) 8 := fun k hk =>
          Mem.load_congr fun x _ hx => hbefore x (by omega)
        exact ⟨(hload 8 (by omega)).trans hl, (hload 16 (by omega)).trans hr, (hload 24 (by omega)).trans hp⟩
      have hle := hw.le
      obtain ⟨h1, h2⟩ := hrest c (hw.congr fun p hp _ => hhdr p hp) hc
      rw [hhdr c hle] at h1
      refine ⟨h1, fun hnode => ?_⟩
      obtain ⟨hl, hr, hp⟩ := h2 ((isTreeNode_congr (hhdr c hle)).2 hnode)
      have hload : ∀ k, m.load (c + k) 8 = h.mem.load (c + k) 8 := fun k =>
        Mem.load_congr fun x hx _ => hout x (by omega)
      rw [hload] at hl hr hp
      exact ⟨hl, hr, hp⟩
    · rw [migrateChunks, if_neg (by omega)] at hrun
      cases hrun
      refine ⟨fun _ _ => rfl, fun c hw hc => ?_⟩
      exact absurd hw.le (by omega)

end Loop

section Migrate
variable {h h' : GcHeap} {poolBufNew : Nat} {poolBufSize : UInt32} {window : Span}

/-- Whether a header is passed without a change depends on its own bytes and those of the links. -/
theorem PassedOver.congr {c c' : Nat} (hp : PassedOver h c) (hs : SameBytes h.mem h'.mem c c' 32)
    (hroot : h'.kfcTreeRoot = h.kfcTreeRoot) : PassedOver h' c' := by
  have hhdr : h'.header c' = h.header c := by
    unfold GcHeap.header
    rw [show h'.mem.load c' 4 = h.mem.load c 4 from hs.load (i := 0) (by decide)]
  obtain ⟨h0, hnode⟩ := hp
  refine ⟨by rwa [hhdr], fun hn => ?_⟩
  unfold IsTreeNode at hn
  rw [hhdr] at hn
  obtain ⟨hl, hr, hpar⟩ := hnode hn
  refine ⟨(hs.load (by decide)).trans hl, (hs.load (by decide)).trans hr, ?_⟩
  rw [hroot, show h'.parent c' = h.parent c from hs.load (by decide)]
  exact hpar

/-- The links of the root are in the structure, so that shifting them leaves the bytes of a span apart from it. -/
theorem migrateRoot_mem (hapart : h.structSpan.Apart window) (baseAddrNew : Nat) :
    ∃ m, migrateRoot h baseAddrNew = { h with baseAddr := baseAddrNew, mem := m } ∧
      ∀ x, window.lo ≤ x → x < window.hi → m x = h.mem x := by
  obtain ⟨m, hroot, hout⟩ := adjustLinks_eq { h with baseAddr := baseAddrNew } h.kfcTreeRoot ((baseAddrNew : Nat) - h.baseAddr)
  refine ⟨m, hroot, fun x hx hx' => hout x ?_⟩
  simp only [Span.Apart, GcHeap.structSpan, Span.ofSize, kfcTreeRootOffset, gcHeapStructSize] at hapart
  omega

/-- A link that is shifted by less than the size of the address space and stays the same is NULL. -/
theorem eq_zero_of_adjusted {offset : Int} {p : Nat} (h0 : offset ≠ 0) (hlo : -2 ^ 64 < offset) (hhi : offset < 2 ^ 64)
    (hp : p < 2 ^ 64) (he : adjusted offset p = p) : p = 0 := by
  unfold adjusted ptrAdd at he
  split at he
  · assumption
  · omega

/-- A node that the loop has shifted and that reads as before has no links. -/
theorem Linkless.of_shifted {offset : Int} {c : Nat} (h0 : offset ≠ 0) (hlo : -2 ^ 64 < offset) (hhi : offset < 2 ^ 64)
    (hn : NodeShifted offset h.kfcTreeRoot h.mem h'.mem c) (hs : SameBytes h.mem h'.mem c c 32) : Linkless h c := by
  obtain ⟨hl, hr, hp⟩ := hn
  have hlt : ∀ a, h.mem.load a 8 < 2 ^ 64 := fun a => Mem.load_lt h.mem a 8
  rw [hs.load (by decide)] at hl hr hp
  refine ⟨eq_zero_of_adjusted h0 hlo hhi (hlt _) hl.symm, eq_zero_of_adjusted h0 hlo hhi (hlt _) hr.symm, ?_⟩
  by_cases hroot : h.mem.load (c + 24) 8 = h.kfcTreeRoot
  · exact .inr hroot
  · rw [adjustedParent, if_pos hroot] at hp
    exact .inl (eq_zero_of_adjusted h0 hlo hhi (hlt _) hp.symm)

section
variable (hm : Moves h poolBufNew poolBufSize)
include hm

/-- `gc_migrate` that has something to shift returns and leaves the bytes around the new pool as they are exactly when every
header that it comes to is passed without a change. -/
theorem gcMigrate_keeps_iff (hapart : h.structSpan.Apart window)
    (hlo : window.lo ≤ poolBufNew + gcHeadPadding) (hhi : poolBufNew + gcHeadPadding + h.currentSize + 32 ≤ window.hi)
    (hnew : poolBufNew + gcHeadPadding < 2 ^ 64) (hold : h.baseAddr < 2 ^ 64) :
    (∃ h', gcMigrate h poolBufNew poolBufSize = some (0, h') ∧ ∀ x, window.lo ≤ x → x < window.hi → h'.mem x = h.mem x) ↔
      ∀ c, Walked h (poolBufNew + gcHeadPadding + h.currentSize) (poolBufNew + gcHeadPadding) c →
        c < poolBufNew + gcHeadPadding + h.currentSize → PassedOver h c := by
  obtain ⟨m, hroot, hkeep⟩ := migrateRoot_mem hapart (poolBufNew + gcHeadPadding)
  have hne := hm.2.2.2
  rw [gcMigrate_of_moves hm, hroot]
  generalize hq : poolBufNew + gcHeadPadding = q at *
  have hhdr : ∀ p, q ≤ p → p < q + h.currentSize → GcHeap.header { h with baseAddr := q, mem := m } p = h.header p :=
    fun p hp hp' => header_congr fun x hx hx' => hkeep x (by omega) (by omega)
  constructor
  · rintro ⟨h', hrun, hsame⟩ c hw hc
    obtain ⟨h'', hrun, he⟩ := Option.map_eq_some_iff.1 hrun
    cases he
    have hge := hw.le
    obtain ⟨h0, hnode⟩ := (migrateChunks_shifts hrun rfl).2 c (hw.congr hhdr) hc
    rw [hhdr c hge hc] at h0
    refine ⟨h0, fun hn => ?_⟩
    obtain ⟨hl, hr, hp⟩ := hnode ((isTreeNode_congr (hhdr c hge hc)).2 hn)
    have hload : ∀ i, i ≤ 24 → m.load (c + i) 8 = h.mem.load (c + i) 8 := fun i hi =>
      Mem.load_congr fun x hx hx' => hkeep x (by omega) (by omega)
    simp only [hload 8 (by decide), hload 16 (by decide), hload 24 (by decide)] at hl hr hp
    exact Linkless.of_shifted (by omega) (by omega) (by omega) ⟨hl, hr, hp⟩ fun i hi => hsame _ (by omega) (by omega)
  intro hall
  have hpass : ∀ c, Walked { h with baseAddr := q, mem := m } (q + h.currentSize) q c → c < q + h.currentSize →
      PassedOver { h with baseAddr := q, mem := m } c := by
    intro c hw hc
    have hw' : Walked h (q + h.currentSize) q c := hw.congr fun p hp hp' => (hhdr p hp hp').symm
    have hge := hw.le
    exact (hall c hw' hc).congr (fun i hi => hkeep _ (by omega) (by omega)) rfl
  have hn : q + h.currentSize ≤ q + 8 * h.currentSize := by omega
  rw [migrateChunks_of_passedOver rfl hpass hn (Nat.lt_succ_self _)]
  exact ⟨_, rfl, hkeep⟩

theorem gcMigrate_code {code : Int} (hrun : gcMigrate h poolBufNew poolBufSize = some (code, h')) : code = 0 := by
  rw [gcMigrate_of_moves hm] at hrun
  obtain ⟨_, -, he⟩ := Option.map_eq_some_iff.1 hrun
  exact (Prod.mk.inj he).1.symm

/-- `gc_migrate` writes nothing before the links of the first chunk but in the structure. -/
theorem gcMigrate_before {code : Int} (hapart : h.structSpan.Apart window)
    (hrun : gcMigrate h poolBufNew poolBufSize = some (code, h')) {x : Nat} (hlo : window.lo ≤ x) (hhi : x < window.hi)
    (hx : x < poolBufNew + gcHeadPadding + 8) : h'.mem x = h.mem x := by
  obtain ⟨m, hroot, hkeep⟩ := migrateRoot_mem hapart (poolBufNew + gcHeadPadding)
  rw [gcMigrate_of_moves hm, hroot] at hrun
  obtain ⟨h'', hrun, he⟩ := Option.map_eq_some_iff.1 hrun
  cases he
  rw [(migrateChunks_shifts hrun rfl).1 x hx]
  exact hkeep x hlo hhi

/-- `gc_migrate` does not return from a pool that starts with a header of size 0. -/
theorem gcMigrate_stuck (hapart : h.structSpan.Apart window)
    (hlo : window.lo ≤ poolBufNew + gcHeadPadding) (hhi : poolBufNew + gcHeadPadding + 4 ≤ window.hi)
    (hpos : 0 < h.currentSize) (h0 : hmuGetSize (h.header (poolBufNew + gcHeadPadding)) = 0) : gcMigrate h poolBufNew poolBufSize = none := by
  obtain ⟨m, hroot, hkeep⟩ := migrateRoot_eq hapart (poolBufNew + gcHeadPadding)
  rw [gcMigrate_of_moves hm, hroot, ← migrateLog_fst,
    migrateLog_stuck (h := { h with baseAddr := poolBufNew + gcHeadPadding, mem := m }) (Nat.lt_add_of_pos_right hpos)]
  · rfl
  · rw [hkeep _ hlo hhi, h0]

end

theorem gcMigrate_same (h8 : poolBufNew % 8 = 0) (hend : gcHeadPadding ≤ poolBufSize.toNat)
    (hsize : h.currentSize = poolSize (poolBufNew + gcHeadPadding) (poolBufNew + poolBufSize.toNat))
    (hbase : h.baseAddr = poolBufNew + gcHeadPadding) : gcMigrate h poolBufNew poolBufSize = some (0, h) := by
  unfold gcMigrate
  simp only
  rw [if_neg (by omega), if_neg (by omega), if_pos (by omega)]

theorem Walked.copied {p q n c : Nat} (hw : Walked h (p + n) p c) (he : ∀ i, i < n → h'.header (q + i) = h.header (p + i)) :
    ∃ i, c = p + i ∧ Walked h' (q + n) q (q + i) := by
  induction hw with
  | start => exact ⟨0, rfl, .start⟩
  | next _ hc ih =>
    obtain ⟨i, rfl, hw'⟩ := ih
    refine ⟨i + hmuGetSize (h.header (p + i)), Nat.add_assoc _ _ _, ?_⟩
    rw [← Nat.add_assoc, ← he i (by omega)]
    exact .next hw' (by omega)

/-- A pool and the 32 bytes behind it have been copied: where its headers were passed without a change, they are now. -/
theorem passedOver_of_copied {p q n : Nat} (hs : SameBytes h.mem h'.mem p q (n + 32)) (hroot : h'.kfcTreeRoot = h.kfcTreeRoot)
    (hall : ∀ c, Walked h (p + n) p c → c < p + n → PassedOver h c) : ∀ c, Walked h' (q + n) q c → c < q + n → PassedOver h' c := by
  intro c hw hc
  have hhdr : ∀ i, i < n → h.header (p + i) = h'.header (q + i) := by
    intro i hi
    unfold GcHeap.header
    rw [hs.load (by omega)]
  obtain ⟨i, rfl, hw'⟩ := hw.copied hhdr
  exact (hall _ hw' (by omega)).congr (hs.drop (by omega)) hroot

end Migrate

end WamrMigrate.Ems
