import WamrMigrate.Ems.Run

/-!
# Allocation is correct and complete

An allocation reads the headers and the index, so its result can be told for every heap whose chunks tile the pool and whose free chunks are in the
index (`Tiled`), whatever the footers and the accounting say. `gcAllocVo_serves`: the block is aligned, large enough, inside the pool and apart from
every object, and NULL is returned only for a request that overflows or exceeds every free chunk.
-/

namespace WamrMigrate.Ems

open SizeTree Tiles

/-- The bytes of a chunk for a request of `size` bytes, as an integer without bound: header and object rounded up to 8, and at
least 16. -/
def roundedUp (size : Nat) : Nat := max ((size + hmuSize + 7) / 8 * 8) 16

/-- The block at `p` is good for a request of `size` bytes: `h'` is the heap after it was handed out. -/
structure Served (h h' : GcHeap) (A : Arena) (size p : Nat) : Prop where
  aligned : p % 8 = 0
  header_inside : h.baseAddr + hmuSize ≤ p
  room : p + size ≤ p - hmuSize + hmuGetSize (h'.header (p - hmuSize))
  end_inside : p - hmuSize + hmuGetSize (h'.header (p - hmuSize)) ≤ h.baseAddr + h.currentSize
  apart : ∀ o n, UsedIn 0 A.chunks o n →
    p - hmuSize + hmuGetSize (h'.header (p - hmuSize)) ≤ h.baseAddr + o ∨ h.baseAddr + o + n ≤ p - hmuSize

/-- The request overflows, or no free chunk is as large as the request rounded up. -/
def Unservable (A : Arena) (size : Nat) : Prop :=
  2 ^ 32 ≤ roundedUp size ∨ ∀ o n, FreeIn 0 A.chunks o n → n < roundedUp size

section Serve
variable {h h₁ : GcHeap} {A : Arena} {S : Nat → Nat → Prop} {I : Index} {o n cur size : Nat}

/-- A part of a chunk that is no longer in the index is apart from the others. -/
theorem Spread.part (hsp : Spread S cur) (hS : S o n) (o₁ n₁ : Nat) (ho : o ≤ o₁) (hn : o₁ + n₁ ≤ o + n)
    (ho8 : o₁ % 8 = 0) (hn8 : n₁ % 8 = 0) (hn16 : 16 ≤ n₁) : Spread (Plus (fun o' n' => S o' n' ∧ o' ≠ o) o₁ n₁) cur ∧ ∀ k, ¬(S o₁ k ∧ o₁ ≠ o) := by
  have hb := hsp.bounds o n hS
  have hside : ∀ o' n', S o' n' → o' ≠ o → o₁ + n₁ ≤ o' ∨ o' + n' ≤ o₁ := by
    intro o' n' hS' hne
    have := hsp.disjoint hS' hS hne
    omega
  refine ⟨⟨?_, ?_⟩, ?_⟩
  · rintro o' n' (⟨hS', -⟩ | ⟨rfl, rfl⟩)
    · exact hsp.bounds o' n' hS'
    · exact ⟨ho8, hn8, hn16, by omega⟩
  · rintro o' n' o'' n'' (⟨hS', hne'⟩ | ⟨rfl, rfl⟩) (⟨hS'', hne''⟩ | ⟨rfl, rfl⟩)
    · exact hsp.apart _ _ _ _ hS' hS''
    · exact .inr (hside _ _ hS' hne').symm
    · exact .inr (hside _ _ hS'' hne'')
    · exact .inl ⟨rfl, rfl⟩
  rintro k ⟨hS', hne⟩
  have h1 := hside _ _ hS' hne
  have h2 := hsp.bounds _ _ hS'
  omega

theorem linkFc_normal_succeeds {p : Nat} (hn : n < 248) (hin : hmuIsInHeap h p) : ∃ h', linkFc h p n = some (true, h') := by
  rw [linkFc, if_pos ((Index.hmuIsFcNormal_iff n).2 hn), if_neg (not_not.2 hin)]
  exact ⟨_, rfl⟩

theorem gciAddFc_succeeds (hs : Placed h) (hi : IndexAt h I) (hH : I.Holds S) (hsp : Spread (Plus S o n) h.currentSize)
    (hfresh : ∀ k, ¬S o k) (hlt : n < 2 ^ 30) : ∃ h', gciAddFc h (h.baseAddr + o) n = some (true, h') := by
  have hb := hsp.bounds o n (.inr ⟨rfl, rfl⟩)
  rw [gciAddFc_eq hlt hb.2.1]
  by_cases hn : n < 248
  · exact linkFc_normal_succeeds hn (hsp.inHeap (.inr ⟨rfl, rfl⟩))
  generalize hmuSetUt (h.header (h.baseAddr + o)) hmuFC = u
  have hI := hi.stampMem hs hH hsp hfresh u (hmuSetSize u n)
  have hs' : Placed { h with mem := stampMem h.mem (h.baseAddr + o) n u (hmuSetSize u n) } :=
    ⟨hs.base_align, hs.end_le, hs.root_ne, hs.root_le, hs.root_apart⟩
  obtain ⟨h', hrun, -⟩ := linkFc_tree hs' hI hH hsp hfresh (by omega) (by omega)
  exact ⟨h', hrun⟩

/-- The end of `alloc_hmu` hands out the chunk taken, and its header tells how much of it. -/
theorem splitHmu_serves (hs : Placed h) (hi : IndexAt h I) (hH : I.Holds (fun o' n' => S o' n' ∧ o' ≠ o))
    (hsp : Spread S h.currentSize) (hS : S o n) (hlt : n < 2 ^ 30) (h8 : size % 8 = 0) (h16 : 16 ≤ size) (hn : size ≤ n) :
    ∃ h', splitHmu h (h.baseAddr + o) n size = some (h.baseAddr + o, h') ∧ hmuGetSize (h'.header (h.baseAddr + o)) = Arena.granted n size := by
  have hb := hsp.bounds o n hS
  have hadd : add32 size gcSmallestSize = size + 16 := add32_eq (b := 16) (by omega)
  unfold Arena.granted
  rw [splitHmu, hadd]
  by_cases hsplit : size + 16 ≤ n
  · obtain ⟨hsp', hfresh⟩ := hsp.part hS (o + size) (n - size) (by omega) (by omega) (by omega) (by omega) (by omega)
    obtain ⟨h', hrun⟩ := gciAddFc_succeeds hs hi hH hsp' hfresh (by omega)
    rw [← Nat.add_assoc] at hrun
    rw [if_pos hsplit, if_pos hsplit, hrun]
    refine ⟨_, rfl, ?_⟩
    rw [header_setHeader, hmuGetSize_hmuSetSize (by omega) h8]
  · rw [if_neg hsplit, if_neg hsplit]
    refine ⟨_, rfl, ?_⟩
    rw [header_setHeader, hmuGetSize_hmuSetSize hlt hb.2.1]

theorem FieldsOnly.placed (hf : FieldsOnly S h h₁) (hs : Placed h) : Placed h₁ := by
  obtain ⟨h1, h2, h3, h4, h5⟩ := hs
  constructor <;> simp only [hf.base, hf.cur, hf.root] <;> assumption

theorem Tiled.free_lt (ht : Tiled h A) (hf : FreeIn 0 A.chunks o n) : n < 2 ^ 30 := by
  obtain ⟨c, hc, -, rfl⟩ := hf
  have hc' : (h.baseAddr + o, c) ∈ located Chunk.size h.baseAddr A.chunks := by rwa [mem_located_shift]
  rw [← (ht.headers _ c hc').1]
  exact hmuGetSize_lt _

/-- `alloc_hmu` hands out a part of a free chunk, or no free chunk is large enough. -/
theorem allocHmu_serves (ht : Tiled h A) (h8 : size % 8 = 0) : ((∀ o n, FreeIn 0 A.chunks o n → n < max size 16) ∧ allocHmu h size = some (0, h)) ∨
      ∃ o n h', FreeIn 0 A.chunks o n ∧ max size 16 ≤ n ∧ allocHmu h size = some (h.baseAddr + o, h') ∧
        hmuGetSize (h'.header (h.baseAddr + o)) = Arena.granted n (max size 16) := by
  rcases allocHmu_eq ht size with ⟨hnone, hrun⟩ | ⟨o, n, hfind, h₁, hi, hfields, hrun⟩
  · refine Or.inl ⟨fun o n hf => ?_, hrun⟩
    exact ht.holds.find_eq_none hnone hf (hf.sized ht.sized).1
  have hk8 : max size 16 % 8 = 0 := by omega
  obtain ⟨hf, hk⟩ := ht.holds.find hk8 hfind
  have hb := ht.spread.bounds o n hf
  have hH := ht.holds.erase hf hb.2.1 fun n' hf' => hf.unique ht.sized hf'
  obtain ⟨h', hsplit, hsize⟩ := splitHmu_serves (hfields.placed ht.placed) hi hH (hfields.cur ▸ ht.spread) hf
    (ht.free_lt hf) hk8 (Nat.le_max_right size 16) hk
  rw [hfields.base] at hsplit hsize
  exact .inr ⟨o, n, h', hf, hk, hrun.trans hsplit, hsize⟩

/-- What the test for an overflow tells: otherwise the sizes are those without bound. -/
theorem totSize_lt_iff (hs : size < 2 ^ 32) : Arena.totSize size < size ↔ 2 ^ 32 ≤ roundedUp size := by
  unfold Arena.totSize gcAlign8 add32 roundedUp hmuSize
  omega

theorem roundedUp_eq (hs : size < 2 ^ 32) (ht : ¬Arena.totSize size < size) : roundedUp size = max (Arena.totSize size) 16 := by
  unfold Arena.totSize gcAlign8 add32 roundedUp hmuSize at *
  omega

end Serve

theorem header_clear {h : GcHeap} {p a k : Nat} (hd : p + 4 ≤ a) : (h.clear a k).header p = h.header p :=
  header_congr fun _ _ _ => Mem.fill_of_not (by omega)

theorem Tiled.served {h h' : GcHeap} {A : Arena} {o n size : Nat} (ht : Tiled h A) (hf : FreeIn 0 A.chunks o n) (hk : roundedUp size ≤ n)
    (hsize : hmuGetSize (h'.header (h.baseAddr + o)) = Arena.granted n (roundedUp size)) : Served h h' A size (h.baseAddr + o + hmuSize) := by
  have hb := ht.spread.bounds o n hf
  have hba := ht.placed.base_align
  have hroom : size + 4 ≤ roundedUp size := by
    unfold roundedUp hmuSize
    omega
  have hg : roundedUp size ≤ Arena.granted n (roundedUp size) ∧ Arena.granted n (roundedUp size) ≤ n := by
    unfold Arena.granted
    split <;> omega
  have hp : h.baseAddr + o + hmuSize - hmuSize = h.baseAddr + o := Nat.add_sub_cancel ..
  have h4 : hmuSize = 4 := rfl
  refine ⟨by omega, by omega, ?_, ?_, fun o' n' hu => ?_⟩
  · rw [hp, hsize]
    omega
  · rw [hp, hsize]
    omega
  · rw [hp, hsize]
    have := hu.disjoint_free hf
    omega

/-- On every heap whose chunks tile the pool and whose free chunks are in the index, `gc_alloc_vo` returns a good block, or NULL
when no block can be had. -/
theorem gcAllocVo_serves {h : GcHeap} {A : Arena} (ht : Tiled h A) (size : UInt32) :
    ∃ p h', gcAllocVo h size = some (p, h') ∧
      ((p ≠ 0 ∧ Served h h' A size.toNat p) ∨ (p = 0 ∧ Unservable A size.toNat)) := by
  have hsize := size.toNat_lt
  unfold gcAllocVo
  have htot : gcAlign8 (add32 hmuSize size.toNat) = Arena.totSize size.toNat := rfl
  simp only [htot]
  by_cases hlt : Arena.totSize size.toNat < size.toNat
  · rw [if_pos hlt]
    exact ⟨0, h, rfl, .inr ⟨rfl, .inl ((totSize_lt_iff hsize).1 hlt)⟩⟩
  obtain ⟨h8, -, -⟩ := totSize_spec hsize hlt
  have hround := roundedUp_eq hsize hlt
  rw [if_neg hlt, ht.ok]
  simp only [Bool.false_eq_true, if_false]
  rcases allocHmu_serves ht h8 with ⟨hsmall, hrun⟩ | ⟨o, n, h₁, hf, hk, hrun, hgranted⟩
  · rw [hrun]
    refine ⟨0, h, rfl, .inr ⟨rfl, .inr ?_⟩⟩
    rwa [hround]
  rw [← hround] at hk hgranted
  have hne : h.baseAddr + o ≠ 0 := by
    have := ht.placed.base_align
    omega
  -- marking the object and clearing what was not asked for leave its size
  have hmark : hmuGetSize ((markVo h₁ (h.baseAddr + o)).header (h.baseAddr + o)) = Arena.granted n (roundedUp size.toNat) := by
    rw [header_markVo, hmuGetSize_hmuUnfreeVo, hmuGetSize_hmuSetUt (.inl rfl), hgranted]
  have hne' : h.baseAddr + o + hmuSize ≠ 0 := by
    unfold hmuSize
    omega
  rw [hrun]
  simp only [if_neg hne]
  split
  · refine ⟨_, _, rfl, .inl ⟨hne', ht.served hf hk ?_⟩⟩
    rwa [header_clear (by unfold hmuSize; omega)]
  · exact ⟨_, _, rfl, .inl ⟨hne', ht.served hf hk hmark⟩⟩

/-- A heap of 248 bytes serves a request of 16 bytes. -/
theorem small_serves : Tiled (gcInitInternal (fun _ => 0) 4096 8196 248) (Arena.fresh 248) ∧
    ∃ p h', gcAllocVo (gcInitInternal (fun _ => 0) 4096 8196 248) 16 = some (p, h') ∧
      ((p ≠ 0 ∧ Served (gcInitInternal (fun _ => 0) 4096 8196 248) h' (Arena.fresh 248) 16 p) ∨
        (p = 0 ∧ Unservable (Arena.fresh 248) 16)) :=
  ⟨setUp_small.repr.tiled, gcAllocVo_serves setUp_small.repr.tiled 16⟩

end WamrMigrate.Ems
