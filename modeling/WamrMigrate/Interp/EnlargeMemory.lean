import WamrMigrate.Ems.MigrateQuiet
import WamrMigrate.Image.Registry

/-!
# `memory.grow`

`wasm_enlarge_memory` asks `wasm_runtime_realloc` for a larger block, and if there is none it asks `wasm_runtime_malloc` and copies the bytes
itself. The block is registered anew, the new bytes are set to 0, and an app heap in it is moved along. When `gc_migrate` refuses, the old block is
gone already; beyond `RSIZE_MAX`, `bh_memcpy_s` copies nothing and nobody looks at its result; and `gc_migrate` walks over what the module has left
in its heap.
-/

namespace WamrMigrate.Interp

open Ems Image

/-- `WASMMemoryInstance`. -/
structure MemoryInstance where
  numBytesPerPage : UInt32
  curPageCount : UInt32
  maxPageCount : UInt32
  memoryData : Nat
  memoryDataEnd : Nat
  heapData : Nat
  heapDataEnd : Nat
  isShared : Bool
  deriving DecidableEq

/-- A memory instance with what `heap_handle` points to and the registry. The memory of the machine is that of the heap; of a
memory without an app heap nothing else of `heap` is read. -/
structure MemoryState where
  memory : MemoryInstance
  heap : GcHeap
  registry : Registry

/-- What the allocator answers to `wasm_runtime_realloc` and to `wasm_runtime_malloc`; 0 is NULL. -/
structure Answers where
  realloc : Nat
  malloc : Nat

/-- A block with the memory and the registry there are when it has been taken. -/
structure Block where
  addr : Nat
  mem : Mem
  registry : Registry

/-- The memory when the block of `n` bytes at `p` has just been allocated: there is `junk` in it. -/
def fresh (m : Mem) (p n : Nat) (junk : Mem) : Mem := fun x => if p ≤ x ∧ x < p + n then junk x else m x

/-- The memory after the block at `data` has been reallocated. -/
def reallocated (m : Mem) (p n data old : Nat) (junk : Mem) : Mem := fun x =>
  if p ≤ x ∧ x < p + min old n then m (data + (x - p)) else fresh m p n junk x

/-- `RSIZE_MAX`. -/
def rsizeMax : Nat := 0x7FFFFFFF

/-- `b_memcpy_s`. -/
def bMemcpyS (m : Mem) (s1 s1max s2 n : Nat) : Mem :=
  if n = 0 then m
  else if s1 = 0 ∨ rsizeMax < s1max then m
  else if s2 = 0 ∨ s1max < n then m.fill s1 s1max 0
  else m.copy s1 s2 n

/-- `wasm_runtime_realloc`, or else `wasm_runtime_malloc` with a copy and `wasm_runtime_free`. The inner `none` is NULL, the outer
one the end of the process in `free_info`. -/
def moveBlock (s : MemoryState) (a : Answers) (junk : Mem) (totalSize totalSizeOld : Nat) : Option (Option Block) :=
  let data := s.memory.memoryData
  if a.realloc ≠ 0 then
    (s.registry.freeInfo data).map fun R =>
      some ⟨a.realloc, reallocated s.heap.mem a.realloc totalSize data totalSizeOld junk, R⟩
  else if a.malloc = 0 then some none
  else
    let mem := fresh s.heap.mem a.malloc totalSize junk
    if data ≠ 0 then
      (s.registry.freeInfo data).map fun R => some ⟨a.malloc, bMemcpyS mem a.malloc totalSize data totalSizeOld, R⟩
    else some (some ⟨a.malloc, mem, s.registry⟩)

/-- The fields of the instance that are set at the end. -/
def MemoryInstance.moved (m : MemoryInstance) (newMemoryData : Nat) (totalPageCount : UInt32) (heapSize : Nat) : MemoryInstance :=
  let heapData := ptrAdd m.heapData ((newMemoryData : Int) - m.memoryData)
  { m with
    memoryData := newMemoryData
    curPageCount := totalPageCount
    heapData := heapData
    heapDataEnd := heapData + heapSize
    memoryDataEnd := newMemoryData + (m.numBytesPerPage * totalPageCount).toNat }

/-- What `wasm_enlarge_memory` does with the new block. -/
def adoptBlock (s : MemoryState) (b : Block) (totalPageCount : UInt32) (totalSize totalSizeOld heapSize : Nat) :
    Option (Bool × MemoryState) :=
  match b.registry.allocInfoBuf b.addr .uint8T totalSize (request totalSize) with
  | none => none
  | some R =>
    let h := { s.heap with mem := b.mem.fill (b.addr + totalSizeOld) (sub32 totalSize totalSizeOld) 0 }
    let m := s.memory.moved b.addr totalPageCount heapSize
    if 0 < heapSize then
      -- a heap that is not migrated leaves the instance with the old block, which is gone
      (gcMigrate h (ptrAdd s.memory.heapData ((b.addr : Int) - s.memory.memoryData)) (UInt32.ofNat heapSize)).map fun r =>
        if r.1 ≠ 0 then (false, ⟨s.memory, r.2, R⟩) else (true, ⟨m, r.2, R⟩)
    else some (true, ⟨m, h, R⟩)

/-- `wasm_enlarge_memory`, for a module with a default memory; `none` when the process ends or the function does not return. -/
def wasmEnlargeMemory (s : MemoryState) (a : Answers) (junk : Mem) (incPageCount : UInt32) : Option (Bool × MemoryState) :=
  let m := s.memory
  let heapSize := sub32 m.heapDataEnd m.heapData
  let totalSizeOld := sub32 m.memoryDataEnd m.memoryData
  let totalPageCount := incPageCount + m.curPageCount
  let totalSize := m.numBytesPerPage.toNat * totalPageCount.toNat
  if incPageCount = 0 then some (true, s)
  else if totalPageCount < m.curPageCount ∨ m.maxPageCount < totalPageCount then some (false, s)
  else if 2 ^ 32 - 1 ≤ totalSize then some (false, s)
  else if m.isShared then some (true, { s with memory := { m with curPageCount := totalPageCount } })
  else
    match moveBlock s a junk totalSize totalSizeOld with
    | none => none
    | some none => some (false, s)
    | some (some b) => adoptBlock s b totalPageCount totalSize totalSizeOld heapSize

/-! ## What is expected of it -/

/-- The registry has an entry for the `size` bytes of a linear memory at `addr`. -/
def EntryFor (R : Registry) (addr size : Nat) : Prop :=
  ∃ e, R.rootInfo.find? (·.pRaw == addr) = some e ∧ e.type = .uint8T ∧ e.size.toNat = size

/-- The memory has grown by `inc` pages. -/
structure Grown (s s' : MemoryState) (inc : UInt32) : Prop where
  pages : s'.memory.curPageCount.toNat = s.memory.curPageCount.toNat + inc.toNat
  kept : ∀ i, i < s.memory.memoryDataEnd - s.memory.memoryData →
    s'.heap.mem (s'.memory.memoryData + i) = s.heap.mem (s.memory.memoryData + i)
  zero : ∀ i, s.memory.memoryDataEnd - s.memory.memoryData ≤ i → i < s'.memory.memoryDataEnd - s'.memory.memoryData →
    s'.heap.mem (s'.memory.memoryData + i) = 0
  size_eq : s'.memory.memoryDataEnd =
    s'.memory.memoryData + s'.memory.numBytesPerPage.toNat * s'.memory.curPageCount.toNat
  heapData : s'.memory.heapData = s'.memory.memoryData + (s.memory.heapData - s.memory.memoryData)
  heapDataEnd : s'.memory.heapDataEnd = s'.memory.memoryData + (s.memory.heapDataEnd - s.memory.memoryData)
  entry : EntryFor s'.registry s'.memory.memoryData (s'.memory.memoryDataEnd - s'.memory.memoryData)
  oldEntry : s'.memory.memoryData ≠ s.memory.memoryData →
    s'.registry.rootInfo.find? (·.pRaw == s.memory.memoryData) = none

/-- All or nothing: the call returns, with `false` and everything as it was or with `true` and the memory grown. -/
def Atomic (s : MemoryState) (inc : UInt32) : Option (Bool × MemoryState) → Prop
  | none => False
  | some (false, s') => s' = s
  | some (true, s') => Grown s s' inc

namespace MemoryState

variable (s : MemoryState)

def HasHeap : Prop := s.memory.heapData < s.memory.heapDataEnd

instance : Decidable s.HasHeap := inferInstanceAs (Decidable (_ < _))

/-- The size that the memory would have. -/
def sizeWith (inc : UInt32) : Nat := s.memory.numBytesPerPage.toNat * (s.memory.curPageCount.toNat + inc.toNat)

/-- There is something to do for `wasm_enlarge_memory`, and nothing against it. -/
def Grows (inc : UInt32) : Prop :=
  inc ≠ 0 ∧ s.memory.curPageCount.toNat + inc.toNat ≤ s.memory.maxPageCount.toNat ∧ s.sizeWith inc < 2 ^ 32 - 1

instance (inc : UInt32) : Decidable (s.Grows inc) := inferInstanceAs (Decidable (_ ∧ _))

/-- The heap with zeros behind the linear memory. -/
def padded : GcHeap := { s.heap with mem := fun x => if x < s.memory.memoryDataEnd then s.heap.mem x else 0 }

/-- Nothing in the app heap keeps it from being moved as it is: no header that a walk over it comes to has the size 0, and none
reads as a large free chunk with a link to another chunk. -/
def HeapQuiet : Prop :=
  ∀ c, Walked s.padded (s.heap.baseAddr + s.heap.currentSize) s.heap.baseAddr c → c < s.heap.baseAddr + s.heap.currentSize →
    PassedOver s.padded c

/-- What the allocator may give as a block for the larger memory. -/
def Usable (inc : UInt32) (p : Nat) : Prop :=
  p + s.sizeWith inc ≤ 2 ^ 64 ∧ (s.HasHeap → s.heap.structSpan.Apart (Span.ofSize p (s.sizeWith inc)))

end MemoryState

/-- A memory as `memory_instantiate` and `wasm_enlarge_memory` leave it. A shared memory has its largest size from the start; pages
have another size than 64 KiB only when there can be no second one. -/
structure LiveMemory extends MemoryState where
  data_ne : memory.memoryData ≠ 0
  data_lt : memory.memoryData < memory.memoryDataEnd
  end_le : memory.memoryDataEnd ≤ 2 ^ 64
  size_eq : memory.memoryDataEnd = memory.memoryData +
    memory.numBytesPerPage.toNat * (if memory.isShared then memory.maxPageCount else memory.curPageCount).toNat
  size_lt : memory.memoryDataEnd < memory.memoryData + (2 ^ 32 - 1)
  page : 1 < memory.maxPageCount.toNat → memory.numBytesPerPage = 65536
  heap_ge : memory.memoryData ≤ memory.heapData
  heap_le : memory.heapData ≤ memory.heapDataEnd
  heapEnd_le : memory.heapDataEnd ≤ memory.memoryDataEnd
  heap_align : toMemoryState.HasHeap → memory.heapData % 8 = 0
  heap_min : toMemoryState.HasHeap → memory.heapData + appHeapSizeMin ≤ memory.heapDataEnd
  heap_base : toMemoryState.HasHeap → heap.baseAddr = memory.heapData + gcHeadPadding
  heap_size : toMemoryState.HasHeap → heap.currentSize = poolSize (memory.heapData + gcHeadPadding) memory.heapDataEnd
  entry : ∃ e, registry.rootInfo.filter (·.pRaw == memory.memoryData) = [e] ∧ e.type = .uint8T ∧
    e.size.toNat = memory.memoryDataEnd - memory.memoryData

/-- Answers of an allocator that gives out what is not in use. -/
structure Granted (s : MemoryState) (inc : UInt32) extends Answers where
  realloc_usable : realloc ≠ 0 → s.Usable inc realloc
  malloc_usable : malloc ≠ 0 → s.Usable inc malloc
  malloc_apart : malloc ≠ 0 →
    (Span.ofSize malloc (s.sizeWith inc)).Apart ⟨s.memory.memoryData, s.memory.memoryDataEnd⟩

/-- The block that the memory gets; 0 when there is none. -/
def Answers.place (a : Answers) : Nat := if a.realloc ≠ 0 then a.realloc else a.malloc

/-- When growing is all or nothing. A shared memory has the size of its largest number of pages, so that it must be refused or grow
to that. Another one must not be copied by `bh_memcpy_s` when it becomes larger than `RSIZE_MAX`; and an app heap in it must not be
moved, or be moved by a multiple of 8 bytes and be quiet. -/
def GrowsSafely (s : MemoryState) (a : Answers) (inc : UInt32) : Prop :=
  if s.memory.isShared then
    (inc ≠ 0 ∧ ¬s.Grows inc) ∨ s.memory.curPageCount.toNat + inc.toNat = s.memory.maxPageCount.toNat
  else
    s.Grows inc → a.place ≠ 0 →
      (a.realloc = 0 → s.sizeWith inc ≤ rsizeMax) ∧
        (s.HasHeap → a.place ≠ s.memory.memoryData → a.place % 8 = s.memory.memoryData % 8 ∧ s.HeapQuiet)

/-! ## The checks -/

section Checks
variable {s : MemoryState} {a : Answers} {junk : Mem} {inc : UInt32}

theorem sub32_of_le {x y : Nat} (hle : y ≤ x) (hlt : x < y + 2 ^ 32) : sub32 x y = x - y := by
  unfold sub32
  omega

theorem MemoryState.Grows.pages (hg : s.Grows inc) : (inc + s.memory.curPageCount).toNat = s.memory.curPageCount.toNat + inc.toNat := by
  have hmax := s.memory.maxPageCount.toNat_lt
  rw [UInt32.toNat_add, Nat.add_comm, Nat.mod_eq_of_lt (Nat.lt_of_le_of_lt hg.2.1 hmax)]

theorem not_grows_iff (h0 : inc ≠ 0) :
    ¬s.Grows inc ↔ (inc + s.memory.curPageCount < s.memory.curPageCount ∨ s.memory.maxPageCount < inc + s.memory.curPageCount) ∨
      2 ^ 32 - 1 ≤ s.memory.numBytesPerPage.toNat * (inc + s.memory.curPageCount).toNat := by
  have hinc : inc.toNat ≠ 0 := fun h => h0 (UInt32.toNat_inj.1 h)
  have hlt := inc.toNat_lt
  have hcur := s.memory.curPageCount.toNat_lt
  have hmax := s.memory.maxPageCount.toNat_lt
  rw [UInt32.lt_iff_toNat_lt, UInt32.lt_iff_toNat_lt]
  unfold MemoryState.Grows MemoryState.sizeWith
  by_cases hover : s.memory.curPageCount.toNat + inc.toNat < 2 ^ 32
  · rw [UInt32.toNat_add, Nat.add_comm inc.toNat, Nat.mod_eq_of_lt hover]
    constructor
    · intro hno
      by_contra hcon
      exact hno ⟨h0, by omega, by omega⟩
    · rintro hor ⟨-, h1, h2⟩
      omega
  have hwrap : (inc + s.memory.curPageCount).toNat < s.memory.curPageCount.toNat := by
    rw [UInt32.toNat_add]
    omega
  constructor
  · intro _
    exact .inl (.inl hwrap)
  · rintro - ⟨-, h1, -⟩
    omega

theorem wasmEnlargeMemory_of_not_grows (hg : ¬s.Grows inc) : wasmEnlargeMemory s a junk inc = some (decide (inc = 0), s) := by
  unfold wasmEnlargeMemory
  by_cases h0 : inc = 0
  · simp only [if_pos h0, decide_eq_true h0]
  simp only [if_neg h0, decide_eq_false h0]
  rcases (not_grows_iff h0).1 hg with h1 | h2
  · rw [if_pos h1]
  · rw [if_pos h2]
    split <;> rfl

theorem wasmEnlargeMemory_of_grows (hg : s.Grows inc) : wasmEnlargeMemory s a junk inc = if s.memory.isShared then
        some (true, { s with memory := { s.memory with curPageCount := inc + s.memory.curPageCount } })
      else
        match moveBlock s a junk (s.sizeWith inc) (sub32 s.memory.memoryDataEnd s.memory.memoryData) with
        | none => none
        | some none => some (false, s)
        | some (some b) =>
          adoptBlock s b (inc + s.memory.curPageCount) (s.sizeWith inc) (sub32 s.memory.memoryDataEnd s.memory.memoryData)
            (sub32 s.memory.heapDataEnd s.memory.heapData) := by
  have hno := mt (not_grows_iff hg.1).2 (not_not_intro hg)
  rw [not_or] at hno
  unfold wasmEnlargeMemory
  simp only
  rw [if_neg hg.1, if_neg hno.1, if_neg hno.2, hg.pages]
  rfl

end Checks

/-! ## The registry -/

section Registry

theorem find?_eraseP_of_filter {α : Type} {p : α → Bool} {l : List α} {e : α} (h : l.filter p = [e]) : (l.eraseP p).find? p = none := by
  induction l with
  | nil => rfl
  | cons x l ih =>
    by_cases hx : p x
    · rw [List.filter_cons_of_pos hx] at h
      rw [List.eraseP_cons_of_pos hx, List.find?_eq_none]
      exact List.filter_eq_nil_iff.1 (List.cons.inj h).2
    · rw [List.filter_cons_of_neg hx] at h
      rw [List.eraseP_cons_of_neg hx, List.find?_cons_of_neg hx]
      exact ih h

theorem find?_of_filter {α : Type} {p : α → Bool} {l : List α} {e : α} (h : l.filter p = [e]) : l.find? p = some e := by
  rw [← List.head?_filter, h]
  rfl

variable (s : LiveMemory)

theorem LiveMemory.entryFor : EntryFor s.registry s.memory.memoryData (s.memory.memoryDataEnd - s.memory.memoryData) := by
  obtain ⟨e, he, ht, hsize⟩ := s.entry
  exact ⟨e, find?_of_filter he, ht, hsize⟩

/-- The registry without the entry of the linear memory. -/
def LiveMemory.erased : Registry :=
  { s.registry with rootInfo := s.registry.rootInfo.eraseP (·.pRaw == s.memory.memoryData) }

theorem LiveMemory.freeInfo : s.registry.freeInfo s.memory.memoryData = some s.erased := by
  obtain ⟨e, he, -⟩ := s.entry
  have hfind := find?_of_filter he
  have hraw := List.find?_some hfind
  have hany : s.registry.rootInfo.any (·.pRaw == s.memory.memoryData) = true :=
    List.any_eq_true.2 ⟨e, List.mem_of_find?_eq_some hfind, hraw⟩
  unfold Registry.freeInfo
  rw [if_pos hany]
  rfl

/-- The registry with the entry of the new block. -/
def LiveMemory.entered (p n : Nat) : Registry :=
  { s.erased with
    rootInfo := ⟨absOf s.registry.pool p, p, UInt32.ofNat n, .uint8T, [], request n⟩ :: s.erased.rootInfo }

theorem LiveMemory.allocInfoBuf {p n : Nat} (hp : p ≠ 0) : s.erased.allocInfoBuf p .uint8T n (request n) = some (s.entered p n) := by
  unfold Registry.allocInfoBuf Registry.add
  rw [if_neg hp]
  rfl

theorem LiveMemory.entered_entryFor {p n : Nat} (hn : n < 2 ^ 32) : EntryFor (s.entered p n) p n := by
  refine ⟨_, List.find?_cons_of_pos (beq_self_eq_true p), rfl, ?_⟩
  exact UInt32.toNat_ofNat_of_lt' hn

theorem LiveMemory.entered_old {p n : Nat} (hp : p ≠ s.memory.memoryData) :
    (s.entered p n).rootInfo.find? (·.pRaw == s.memory.memoryData) = none := by
  obtain ⟨e, he, -⟩ := s.entry
  unfold LiveMemory.entered
  rw [List.find?_cons_of_neg (by simpa using hp)]
  exact find?_eraseP_of_filter he

theorem LiveMemory.entered_ne {p n : Nat} (hp : p ≠ s.memory.memoryData) : s.entered p n ≠ s.registry := by
  intro heq
  obtain ⟨e, he, -⟩ := s.entryFor
  have hnone := s.entered_old (n := n) hp
  rw [heq, he] at hnone
  cases hnone

end Registry

/-! ## The new block -/

/-- The bytes of the memory are in `m` from `p` on. -/
abbrev LiveMemory.CopiedTo (s : LiveMemory) (m : Mem) (p : Nat) : Prop :=
  SameBytes s.heap.mem m s.memory.memoryData p (s.memory.memoryDataEnd - s.memory.memoryData)

section Move
variable {s : LiveMemory} {inc : UInt32} {a : Granted s.toMemoryState inc} {junk : Mem}

theorem LiveMemory.sizeOld (s : LiveMemory) : sub32 s.memory.memoryDataEnd s.memory.memoryData = s.memory.memoryDataEnd - s.memory.memoryData :=
  sub32_of_le (Nat.le_of_lt s.data_lt) (Nat.lt_of_lt_of_le s.size_lt (by omega))

theorem LiveMemory.heapSize (s : LiveMemory) : sub32 s.memory.heapDataEnd s.memory.heapData = s.memory.heapDataEnd - s.memory.heapData := by
  have hge := s.heap_ge
  have hle := s.heapEnd_le
  have hlt := s.size_lt
  exact sub32_of_le s.heap_le (by omega)

theorem LiveMemory.toNat_heapSize (s : LiveMemory) : (UInt32.ofNat (s.memory.heapDataEnd - s.memory.heapData)).toNat =
    s.memory.heapDataEnd - s.memory.heapData := by
  rw [← s.heapSize]
  exact UInt32.toNat_ofNat_of_lt' (Nat.mod_lt _ (by decide))

/-- A memory that can grow has pages of 64 KiB, so that it gets at least that much larger. -/
theorem LiveMemory.sizeWith_ge (hg : s.Grows inc) (hs : s.memory.isShared = false) :
    s.memory.memoryDataEnd - s.memory.memoryData + 65536 ≤ s.sizeWith inc := by
  obtain ⟨h0, hmax, -⟩ := hg
  have hinc : inc.toNat ≠ 0 := fun h => h0 (UInt32.toNat_inj.1 h)
  have hlt := s.data_lt
  have hsize := s.size_eq
  simp only [hs, Bool.false_eq_true, if_false] at hsize
  have hcur : s.memory.curPageCount.toNat ≠ 0 := by
    intro h
    rw [h, Nat.mul_zero] at hsize
    omega
  have hpage : s.memory.numBytesPerPage.toNat = 65536 := congrArg UInt32.toNat (s.page (by omega))
  unfold MemoryState.sizeWith
  rw [hpage] at hsize ⊢
  omega

theorem fresh_of_mem {m : Mem} {p n x : Nat} (h : p ≤ x ∧ x < p + n) : fresh m p n junk x = junk x := if_pos h

theorem moveBlock_of_null {total old : Nat} (hp : a.place = 0) : moveBlock s.toMemoryState a.toAnswers junk total old = some none := by
  unfold Answers.place at hp
  unfold moveBlock
  split at hp
  · rename_i hne
    exact absurd hp hne
  · rename_i hre
    simp only
    rw [if_neg hre, if_pos hp]

/-- What is in the new block before the new bytes are set to 0. -/
def blockMem (s : MemoryState) (a : Answers) (junk : Mem) (total old : Nat) : Mem :=
  if a.realloc ≠ 0 then reallocated s.heap.mem a.realloc total s.memory.memoryData old junk
  else bMemcpyS (fresh s.heap.mem a.malloc total junk) a.malloc total s.memory.memoryData old

theorem moveBlock_eq {total old : Nat} (hp : a.place ≠ 0) : moveBlock s.toMemoryState a.toAnswers junk total old =
      some (some ⟨a.place, blockMem s.toMemoryState a.toAnswers junk total old, s.erased⟩) := by
  unfold Answers.place at hp
  unfold moveBlock blockMem Answers.place
  simp only
  by_cases hre : a.realloc ≠ 0
  · simp only [if_pos hre, s.freeInfo, Option.map_some]
  · simp only [if_neg hre] at hp ⊢
    simp only [if_neg hp, if_pos s.data_ne, s.freeInfo, Option.map_some]

/-- The bytes are in the new block, except when `bh_memcpy_s` should have copied them to a block larger than `RSIZE_MAX`. -/
theorem blockMem_same (junk : Mem) (hg : s.Grows inc) (hs : s.memory.isShared = false) (hp : a.place ≠ 0)
    (hcopy : a.realloc = 0 → s.sizeWith inc ≤ rsizeMax) : s.CopiedTo (blockMem s.toMemoryState a.toAnswers junk (s.sizeWith inc) (s.memory.memoryDataEnd - s.memory.memoryData)) a.place := by
  have hge := s.sizeWith_ge hg hs
  have hlt := s.data_lt
  intro i hi
  unfold Answers.place at hp
  unfold blockMem Answers.place
  by_cases hre : a.realloc ≠ 0
  · rw [if_pos hre, if_pos hre, reallocated, if_pos (by omega)]
    congr 1
    omega
  rw [if_neg hre] at hp
  have hfit := hcopy (not_not.1 hre)
  have hcond : ¬(a.malloc = 0 ∨ rsizeMax < s.sizeWith inc) := by omega
  have hdata : ¬(s.memory.memoryData = 0 ∨ s.sizeWith inc < s.memory.memoryDataEnd - s.memory.memoryData) := by
    have := s.data_ne
    omega
  rw [if_neg hre, if_neg hre, bMemcpyS, if_neg (by omega), if_neg hcond, if_neg hdata, Mem.copy_of_mem (by omega)]
  -- the source is apart from the new block
  have hapart := a.malloc_apart hp
  simp only [Span.Apart, Span.ofSize] at hapart
  rw [fresh, if_neg (by omega)]
  congr 1
  omega

/-- There is junk where `bh_memcpy_s` should have copied the bytes to. -/
theorem blockMem_junk (hre : a.realloc = 0) (hbig : rsizeMax < s.sizeWith inc) :
    blockMem s.toMemoryState a.toAnswers junk (s.sizeWith inc) (s.memory.memoryDataEnd - s.memory.memoryData) a.place = junk a.place := by
  have hlt := s.data_lt
  unfold blockMem Answers.place
  rw [if_neg (not_not_intro hre), if_neg (not_not_intro hre), bMemcpyS, if_neg (by omega), if_pos (.inr hbig)]
  exact fresh_of_mem (by omega)

theorem Granted.usable (hp : a.place ≠ 0) : s.Usable inc a.place := by
  unfold Answers.place at *
  split
  · rename_i hre
    exact a.realloc_usable hre
  · rename_i hre
    rw [if_neg hre] at hp
    exact a.malloc_usable hp

end Move

/-! ## All or nothing -/

section Adopt
variable {s : LiveMemory} {inc : UInt32} {p : Nat} {m : Mem} {h' : GcHeap}

/-- The heap at the new block, with the new bytes set to 0. -/
def LiveMemory.cleared (s : LiveMemory) (inc : UInt32) (p : Nat) (m : Mem) : GcHeap :=
  { s.heap with
    mem := m.fill (p + (s.memory.memoryDataEnd - s.memory.memoryData))
      (s.sizeWith inc - (s.memory.memoryDataEnd - s.memory.memoryData)) 0 }

/-- The instance at the new block. -/
def LiveMemory.movedTo (s : LiveMemory) (inc : UInt32) (p : Nat) : MemoryInstance :=
  s.memory.moved p (inc + s.memory.curPageCount) (s.memory.heapDataEnd - s.memory.heapData)

/-- The migration of the heap to the new block. -/
abbrev LiveMemory.migrate (s : LiveMemory) (inc : UInt32) (p : Nat) (m : Mem) : Option (Int × GcHeap) :=
  gcMigrate (s.cleared inc p m) (p + (s.memory.heapData - s.memory.memoryData)) (UInt32.ofNat (s.memory.heapDataEnd - s.memory.heapData))

/-- What happens with a new block at `p`. -/
abbrev LiveMemory.adopt (s : LiveMemory) (inc : UInt32) (p : Nat) (m : Mem) : Option (Bool × MemoryState) :=
  adoptBlock s.toMemoryState ⟨p, m, s.erased⟩ (inc + s.memory.curPageCount) (s.sizeWith inc) (s.memory.memoryDataEnd - s.memory.memoryData)
    (s.memory.heapDataEnd - s.memory.heapData)

/-- A memory that has grown has the bytes that the new block had. -/
theorem Grown.same (hkept : s.CopiedTo m p)
    (hgrown : Grown s.toMemoryState ⟨s.movedTo inc p, h', s.entered p (s.sizeWith inc)⟩ inc) {x : Nat} (hlo : p ≤ x)
    (hhi : x < p + s.sizeWith inc) : h'.mem x = (s.cleared inc p m).mem x := by
  obtain ⟨i, rfl⟩ := Nat.exists_eq_add_of_le hlo
  by_cases hi : i < s.memory.memoryDataEnd - s.memory.memoryData
  · have hfill : (s.cleared inc p m).mem (p + i) = m (p + i) := Mem.fill_of_not (by omega)
    rw [hfill, hkept i hi]
    exact hgrown.kept i hi
  have hfill : (s.cleared inc p m).mem (p + i) = 0 := Mem.fill_of_mem (by omega)
  rw [hfill]
  refine hgrown.zero i (by omega) ?_
  rw [hgrown.size_eq, Nat.add_sub_cancel_left, hgrown.pages]
  show i < s.sizeWith inc
  omega

section
variable (hg : s.Grows inc) (hs : s.memory.isShared = false)
include hg hs

theorem LiveMemory.ptrAdd_eq (hu : s.Usable inc p) {q : Nat} (hge : s.memory.memoryData ≤ q) (hle : q ≤ s.memory.memoryDataEnd) :
    ptrAdd q ((p : Int) - s.memory.memoryData) = p + (q - s.memory.memoryData) := by
  have hsize := s.sizeWith_ge hg hs
  have hend := hu.1
  unfold ptrAdd
  omega

theorem adoptBlock_eq (hp : p ≠ 0) (hu : s.Usable inc p) : s.adopt inc p m = if s.HasHeap then (s.migrate inc p m).map fun r =>
          if r.1 ≠ 0 then (false, ⟨s.memory, r.2, s.entered p (s.sizeWith inc)⟩) else (true, ⟨s.movedTo inc p, r.2, s.entered p (s.sizeWith inc)⟩)
      else some (true, ⟨s.movedTo inc p, s.cleared inc p m, s.entered p (s.sizeWith inc)⟩) := by
  have hsize := s.sizeWith_ge hg hs
  have hsub := sub32_eq (by omega) (Nat.lt_of_lt_of_le hg.2.2 (Nat.sub_le _ _)) (b := s.memory.memoryDataEnd - s.memory.memoryData)
  unfold LiveMemory.adopt adoptBlock
  simp only [s.allocInfoBuf hp, hsub, s.ptrAdd_eq hg hs hu s.heap_ge (Nat.le_trans s.heap_le s.heapEnd_le)]
  exact if_congr Nat.sub_pos_iff_lt rfl rfl

/-- With the old bytes in the new block and 0 behind them, the memory has grown. -/
theorem LiveMemory.grown (hu : s.Usable inc p) (hkept : s.CopiedTo h'.mem p)
    (hzero : ∀ i, s.memory.memoryDataEnd - s.memory.memoryData ≤ i → i < s.sizeWith inc → h'.mem (p + i) = 0) :
    Grown s.toMemoryState ⟨s.movedTo inc p, h', s.entered p (s.sizeWith inc)⟩ inc := by
  have hlt : s.sizeWith inc < 2 ^ 32 := Nat.lt_of_lt_of_le hg.2.2 (Nat.sub_le _ _)
  have hbytes : (s.memory.numBytesPerPage * (inc + s.memory.curPageCount)).toNat = s.sizeWith inc := by
    rw [UInt32.toNat_mul, hg.pages]
    exact Nat.mod_eq_of_lt hlt
  have hend : (s.movedTo inc p).memoryDataEnd - p = s.sizeWith inc := by
    show p + _ - p = _
    rw [Nat.add_sub_cancel_left, hbytes]
  have hheap : (s.movedTo inc p).heapData = p + (s.memory.heapData - s.memory.memoryData) :=
    s.ptrAdd_eq hg hs hu s.heap_ge (Nat.le_trans s.heap_le s.heapEnd_le)
  have hge := s.heap_ge
  have hle := s.heap_le
  refine ⟨hg.pages, hkept, fun i hi hi' => hzero i hi (hend ▸ hi'), ?_, hheap, ?_, ?_, s.entered_old⟩
  · show p + _ = p + _ * (inc + s.memory.curPageCount).toNat
    rw [hbytes, hg.pages]
    rfl
  · show (s.movedTo inc p).heapData + (s.memory.heapDataEnd - s.memory.heapData) = _
    rw [hheap]
    simp only [LiveMemory.movedTo, MemoryInstance.moved]
    omega
  · show EntryFor _ p ((s.movedTo inc p).memoryDataEnd - p)
    rw [hend]
    exact s.entered_entryFor hlt

theorem LiveMemory.cleared_grown (hu : s.Usable inc p) (hkept : s.CopiedTo m p)
    (hsame : ∀ x, p ≤ x → x < p + s.sizeWith inc → h'.mem x = (s.cleared inc p m).mem x) :
    Grown s.toMemoryState ⟨s.movedTo inc p, h', s.entered p (s.sizeWith inc)⟩ inc := by
  have hsize := s.sizeWith_ge hg hs
  apply s.grown hg hs hu
  · intro i hi
    rw [hsame _ (by omega) (by omega)]
    exact (Mem.fill_of_not (by omega)).trans (hkept i hi)
  · intro i hi hi'
    rw [hsame _ (by omega) (by omega)]
    exact Mem.fill_of_mem (by omega)

end

theorem LiveMemory.moves (hheap : s.HasHeap) (hp : p ≠ s.memory.memoryData) (h8 : p % 8 = s.memory.memoryData % 8) :
    Moves (s.cleared inc p m) (p + (s.memory.heapData - s.memory.memoryData)) (UInt32.ofNat (s.memory.heapDataEnd - s.memory.heapData)) := by
  have hge := s.heap_ge
  have hle := s.heapEnd_le
  have hlt := s.size_lt
  have halign := s.heap_align hheap
  have hmin := s.heap_min hheap
  have hbase := s.heap_base hheap
  have hsize := s.heap_size hheap
  unfold appHeapSizeMin at hmin
  unfold Moves
  rw [s.toNat_heapSize]
  unfold gcHeadPadding at *
  refine ⟨by omega, by omega, ?_, ?_⟩
  · show s.heap.currentSize ≤ _
    rw [hsize, poolSize_eq (by omega) (by omega), poolSize_eq (by omega) (by omega)]
    omega
  · show _ ≠ s.heap.baseAddr
    omega

/-- A heap that has to move to where `gc_migrate` does not accept it. -/
theorem LiveMemory.gcMigrate_misaligned (hheap : s.HasHeap) (h8 : p % 8 ≠ s.memory.memoryData % 8) :
    s.migrate inc p m = some (-1, s.cleared inc p m) := by
  have hge := s.heap_ge
  have halign := s.heap_align hheap
  unfold LiveMemory.migrate gcMigrate
  simp only
  rw [if_pos (by omega)]

theorem LiveMemory.gcMigrate_stays (hheap : s.HasHeap) : s.migrate inc s.memory.memoryData m = some (0, s.cleared inc s.memory.memoryData m) := by
  have hmin := s.heap_min hheap
  unfold appHeapSizeMin at hmin
  rw [LiveMemory.migrate, Nat.add_sub_cancel' s.heap_ge]
  refine gcMigrate_same (s.heap_align hheap) ?_ ?_ (s.heap_base hheap)
  · rw [s.toNat_heapSize, gcHeadPadding]
    omega
  · rw [s.toNat_heapSize, Nat.add_sub_cancel' s.heap_le]
    exact s.heap_size hheap

section
variable (hg : s.Grows inc) (hs : s.memory.isShared = false)
include hg hs

theorem LiveMemory.heapQuiet_iff (hheap : s.HasHeap) (hkept : s.CopiedTo m p) :
    (∀ c, Walked (s.cleared inc p m) (p + (s.memory.heapData - s.memory.memoryData) + gcHeadPadding + s.heap.currentSize)
        (p + (s.memory.heapData - s.memory.memoryData) + gcHeadPadding) c →
      c < p + (s.memory.heapData - s.memory.memoryData) + gcHeadPadding + s.heap.currentSize → PassedOver (s.cleared inc p m) c) ↔ s.HeapQuiet := by
  have hge := s.heap_ge
  have hle := s.heapEnd_le
  have hlt := s.size_lt
  have hmin := s.heap_min hheap
  have hgrow := s.sizeWith_ge hg hs
  have hsize := s.heap_size hheap
  have hbase := s.heap_base hheap
  unfold appHeapSizeMin at hmin
  unfold gcHeadPadding at *
  rw [poolSize_eq (by omega) (by omega)] at hsize
  have hbytes : SameBytes s.padded.mem (s.cleared inc p m).mem s.heap.baseAddr
      (p + (s.memory.heapData - s.memory.memoryData) + 4) (s.heap.currentSize + 32) := by
    intro i hi
    simp only [LiveMemory.cleared, MemoryState.padded]
    by_cases hin : s.heap.baseAddr + i < s.memory.memoryDataEnd
    · have hsame := hkept (s.memory.heapData - s.memory.memoryData + 4 + i) (by omega)
      rw [if_pos hin, Mem.fill_of_not (by omega)]
      rw [← Nat.add_assoc, ← Nat.add_assoc, ← Nat.add_assoc, ← Nat.add_assoc, Nat.add_sub_cancel' hge, ← hbase] at hsame
      exact hsame
    · rw [if_neg hin, Mem.fill_of_mem (by omega)]
  unfold MemoryState.HeapQuiet
  constructor
  · exact passedOver_of_copied (fun i hi => (hbytes i hi).symm) rfl
  · exact passedOver_of_copied hbytes rfl

/-- A heap that has to move to where `gc_migrate` accepts it is moved as it is exactly when it is quiet. -/
theorem adoptBlock_moved_iff (hu : s.Usable inc p) (hkept : s.CopiedTo m p)
    (hheap : s.HasHeap) (hmove : p ≠ s.memory.memoryData) (h8 : p % 8 = s.memory.memoryData % 8) : Atomic s.toMemoryState inc
        ((s.migrate inc p m).map fun r => if r.1 ≠ 0 then (false, ⟨s.memory, r.2, s.entered p (s.sizeWith inc)⟩)
          else (true, ⟨s.movedTo inc p, r.2, s.entered p (s.sizeWith inc)⟩)) ↔ s.HeapQuiet := by
  have hm : Moves (s.cleared inc p m) _ _ := s.moves hheap hmove h8
  have hge := s.heap_ge
  have hle := s.heapEnd_le
  have hlt := s.size_lt
  have hend := s.end_le
  have hmin := s.heap_min hheap
  have hgrow := s.sizeWith_ge hg hs
  have hsize := s.heap_size hheap
  have hbase := s.heap_base hheap
  have hmax := hu.1
  unfold appHeapSizeMin at hmin
  have hpool : s.heap.currentSize + gcHeadPadding ≤ s.memory.heapDataEnd - s.memory.heapData := by
    unfold gcHeadPadding at *
    rw [poolSize_eq (by omega) (by omega)] at hsize
    omega
  have hpad : gcHeadPadding = 4 := rfl
  rw [← s.heapQuiet_iff hg hs hheap hkept]
  refine Iff.trans ?_ (gcMigrate_keeps_iff hm (hu.2 hheap) ?_ ?_ ?_ ?_)
  · constructor
    · intro hat
      cases hrun : s.migrate inc p m with
      | none =>
        rw [hrun] at hat
        exact hat.elim
      | some r =>
        obtain ⟨code, h'⟩ := r
        have hcode := gcMigrate_code hm hrun
        subst hcode
        rw [hrun] at hat
        exact ⟨h', hrun, fun x hlo hhi => Grown.same hkept hat hlo hhi⟩
    · rintro ⟨h', hrun, hsame⟩
      rw [LiveMemory.migrate, hrun]
      exact s.cleared_grown hg hs hu hkept hsame
  · show p ≤ _
    omega
  · show _ + s.heap.currentSize + 32 ≤ p + _
    omega
  · omega
  · show s.heap.baseAddr < _
    omega

/-- A block with the old bytes in it: the call is all or nothing exactly when there is no heap to move, or it is moved by a multiple
of 8 bytes and is quiet. -/
theorem adoptBlock_atomic_iff (hp : p ≠ 0) (hu : s.Usable inc p) (hkept : s.CopiedTo m p) : Atomic s.toMemoryState inc (s.adopt inc p m) ↔
      (s.HasHeap → p ≠ s.memory.memoryData → p % 8 = s.memory.memoryData % 8 ∧ s.HeapQuiet) := by
  rw [adoptBlock_eq hg hs hp hu]
  by_cases hheap : s.HasHeap
  · rw [if_pos hheap, forall_prop_of_true hheap]
    by_cases hmove : p = s.memory.memoryData
    · subst hmove
      rw [s.gcMigrate_stays hheap]
      refine iff_of_true ?_ fun hne => absurd rfl hne
      exact s.cleared_grown hg hs hu hkept fun _ _ _ => rfl
    rw [forall_prop_of_true hmove]
    by_cases h8 : p % 8 = s.memory.memoryData % 8
    · exact (adoptBlock_moved_iff hg hs hu hkept hheap hmove h8).trans (and_iff_right h8).symm
    · rw [s.gcMigrate_misaligned hheap h8]
      refine iff_of_false (fun hat => ?_) fun hq => h8 hq.1
      exact s.entered_ne hmove (congrArg MemoryState.registry hat)
  · rw [if_neg hheap]
    refine iff_of_true ?_ fun hh => absurd hh hheap
    exact s.cleared_grown hg hs hu hkept fun _ _ _ => rfl

/-- Without the first byte in the new block the call is not all or nothing. -/
theorem adoptBlock_not_atomic (hp : p ≠ 0) (hu : s.Usable inc p) (hmove : p ≠ s.memory.memoryData) (hlost : m p ≠ s.heap.mem s.memory.memoryData) :
    ¬Atomic s.toMemoryState inc (s.adopt inc p m) := by
  have hlt := s.data_lt
  have hgrow := s.sizeWith_ge hg hs
  have hfirst : (s.cleared inc p m).mem p = m p := Mem.fill_of_not (by omega)
  -- no heap with another first byte is a memory that has grown
  have hnot : ∀ h' : GcHeap, h'.mem p = (s.cleared inc p m).mem p →
      ¬Grown s.toMemoryState ⟨s.movedTo inc p, h', s.entered p (s.sizeWith inc)⟩ inc := by
    intro h' heq hgrown
    have hkept := hgrown.kept 0 (by omega)
    exact hlost (hfirst.symm.trans (heq.symm.trans hkept))
  rw [adoptBlock_eq hg hs hp hu]
  by_cases hheap : s.HasHeap
  · rw [if_pos hheap]
    by_cases h8 : p % 8 = s.memory.memoryData % 8
    · have hm : Moves (s.cleared inc p m) _ _ := s.moves hheap hmove h8
      cases hrun : s.migrate inc p m with
      | none => exact id
      | some r =>
        obtain ⟨code, h'⟩ := r
        have hcode := gcMigrate_code hm hrun
        subst hcode
        have hin : p < (Span.ofSize p (s.sizeWith inc)).hi := by
          show p < p + _
          omega
        exact hnot h' (gcMigrate_before hm (hu.2 hheap) hrun (Nat.le_refl p) hin (by omega))
    · rw [s.gcMigrate_misaligned hheap h8]
      intro hat
      exact s.entered_ne hmove (congrArg MemoryState.registry hat)
  · rw [if_neg hheap]
    exact hnot _ rfl

end

end Adopt

section Main
variable {s : LiveMemory} {inc : UInt32} {a : Granted s.toMemoryState inc}

/-- The call leaves a memory where it is that has the size of its pages. -/
theorem LiveMemory.grown_stays {pages : UInt32} (hpages : pages.toNat = s.memory.curPageCount.toNat + inc.toNat)
    (hsize : s.memory.memoryDataEnd = s.memory.memoryData + s.memory.numBytesPerPage.toNat * pages.toNat) :
    Grown s.toMemoryState { s.toMemoryState with memory := { s.memory with curPageCount := pages } } inc :=
  ⟨hpages, fun _ _ => rfl, fun _ hi hi' => absurd hi' (Nat.not_lt.2 hi), hsize, (Nat.add_sub_cancel' s.heap_ge).symm,
    (Nat.add_sub_cancel' (Nat.le_trans s.heap_ge s.heap_le)).symm, s.entryFor, fun hne => absurd rfl hne⟩

theorem shared_atomic_iff (hs : s.memory.isShared = true) {pages : UInt32} (hpages : pages.toNat = s.memory.curPageCount.toNat + inc.toNat) :
    Grown s.toMemoryState { s.toMemoryState with memory := { s.memory with curPageCount := pages } } inc ↔
      s.memory.curPageCount.toNat + inc.toNat = s.memory.maxPageCount.toNat := by
  have hlt := s.data_lt
  have hsize := s.size_eq
  simp only [hs, if_true] at hsize
  have hpos : 0 < s.memory.numBytesPerPage.toNat := by
    refine Nat.pos_of_ne_zero fun h0 => ?_
    rw [h0, Nat.zero_mul] at hsize
    omega
  constructor
  · intro hgrown
    have hend := hgrown.size_eq
    simp only at hend
    rw [hsize, hpages] at hend
    exact (Nat.eq_of_mul_eq_mul_left hpos (Nat.add_left_cancel hend)).symm
  · intro hmax
    exact s.grown_stays hpages (by rw [hsize, hpages, hmax])

theorem not_grows_atomic_iff (hg : ¬s.Grows inc) {junk : Mem} : Atomic s.toMemoryState inc (wasmEnlargeMemory s.toMemoryState a.toAnswers junk inc) ↔
      GrowsSafely s.toMemoryState a.toAnswers inc := by
  rw [wasmEnlargeMemory_of_not_grows hg]
  unfold GrowsSafely
  by_cases h0 : inc = 0
  · subst h0
    rw [decide_eq_true rfl]
    cases hs : s.memory.isShared with
    | true =>
      rw [if_pos rfl, or_iff_right fun h => h.1 rfl]
      exact shared_atomic_iff hs rfl
    | false =>
      rw [if_neg Bool.false_ne_true]
      refine iff_of_true ?_ fun hg' => absurd hg' hg
      have hsize := s.size_eq
      simp only [hs, Bool.false_eq_true, if_false] at hsize
      exact s.grown_stays rfl hsize
  · rw [decide_eq_false h0]
    refine iff_of_true rfl ?_
    split
    · exact .inl ⟨h0, hg⟩
    · exact fun hg' => absurd hg' hg

theorem wasmEnlargeMemory_of_block (hg : s.Grows inc) (hs : s.memory.isShared = false) (hp : a.place ≠ 0) {junk : Mem} :
    wasmEnlargeMemory s.toMemoryState a.toAnswers junk inc = s.adopt inc a.place
        (blockMem s.toMemoryState a.toAnswers junk (s.sizeWith inc) (s.memory.memoryDataEnd - s.memory.memoryData)) := by
  rw [wasmEnlargeMemory_of_grows hg, if_neg (by rw [hs]; exact Bool.false_ne_true), s.sizeOld, s.heapSize, moveBlock_eq hp]

theorem byte_succ_ne (b : UInt8) : b + 1 ≠ b := by
  intro h
  have hn := congrArg UInt8.toNat h
  have hlt := b.toNat_lt
  rw [UInt8.toNat_add] at hn
  change (b.toNat + 1) % 256 = b.toNat at hn
  omega

theorem block_atomic_iff (hg : s.Grows inc) (hs : s.memory.isShared = false) (hp : a.place ≠ 0) :
    (∀ junk, Atomic s.toMemoryState inc (wasmEnlargeMemory s.toMemoryState a.toAnswers junk inc)) ↔ (a.realloc = 0 → s.sizeWith inc ≤ rsizeMax) ∧
        (s.HasHeap → a.place ≠ s.memory.memoryData → a.place % 8 = s.memory.memoryData % 8 ∧ s.HeapQuiet) := by
  simp only [wasmEnlargeMemory_of_block hg hs hp]
  by_cases hcopy : a.realloc = 0 → s.sizeWith inc ≤ rsizeMax
  · rw [and_iff_right hcopy]
    have hiff := fun junk => adoptBlock_atomic_iff hg hs hp (a.usable hp) (blockMem_same junk hg hs hp hcopy)
    exact ⟨fun hall => (hiff fun _ => 0).1 (hall fun _ => 0), fun hcond junk => (hiff junk).2 hcond⟩
  refine iff_of_false (fun hall => ?_) fun hcond => hcopy hcond.1
  obtain ⟨hre, hbig⟩ := Classical.not_imp.1 hcopy
  have hplace : a.place = a.malloc := if_neg (not_not_intro hre)
  have hapart := a.malloc_apart (hplace ▸ hp)
  have hlt := s.data_lt
  have hgrow := s.sizeWith_ge hg hs
  simp only [Span.Apart, Span.ofSize] at hapart
  -- the new block happens to hold another first byte
  refine adoptBlock_not_atomic hg hs hp (a.usable hp) ?_ ?_ (hall fun _ => s.heap.mem s.memory.memoryData + 1)
  · rw [hplace]
    omega
  · rw [blockMem_junk hre (Nat.lt_of_not_le hbig)]
    exact byte_succ_ne _

/-- `wasm_enlarge_memory` is all or nothing, whatever was in the new block before, exactly when the memory grows safely. -/
theorem wasmEnlargeMemory_atomic_iff (s : LiveMemory) (inc : UInt32) (a : Granted s.toMemoryState inc) :
    (∀ junk, Atomic s.toMemoryState inc (wasmEnlargeMemory s.toMemoryState a.toAnswers junk inc)) ↔
      GrowsSafely s.toMemoryState a.toAnswers inc := by
  by_cases hg : s.Grows inc
  · cases hs : s.memory.isShared with
    | true =>
      unfold GrowsSafely
      rw [if_pos hs, or_iff_right fun h => h.2 hg, ← shared_atomic_iff hs hg.pages]
      have hrun : ∀ junk, wasmEnlargeMemory s.toMemoryState a.toAnswers junk inc = some (true, _) := fun junk =>
        (wasmEnlargeMemory_of_grows hg).trans (if_pos hs)
      simp only [hrun]
      exact ⟨fun hall => hall fun _ => 0, fun hgrown _ => hgrown⟩
    | false =>
      unfold GrowsSafely
      rw [if_neg (by rw [hs]; exact Bool.false_ne_true), forall_prop_of_true hg]
      by_cases hp : a.place = 0
      · refine iff_of_true (fun junk => ?_) fun hne => absurd hp hne
        rw [wasmEnlargeMemory_of_grows hg, if_neg (by rw [hs]; exact Bool.false_ne_true), moveBlock_of_null hp]
        rfl
      · rw [forall_prop_of_true hp]
        exact block_atomic_iff hg hs hp
  · exact ⟨fun hall => (not_grows_atomic_iff hg).1 (hall fun _ => 0), fun hsafe _ => (not_grows_atomic_iff hg).2 hsafe⟩

end Main

/-! ## Where it is not -/

/-- A heap of which only the memory counts. -/
def noHeap (mem : Mem) : GcHeap :=
  { mem := mem, baseAddr := 0, currentSize := 0, kfcNormalList := fun _ => 0, kfcTreeRoot := 0, isHeapCorrupted := false,
    highmarkSize := 0, totalFreeSize := 0 }

/-- A memory of 32767 pages at 4 GiB, without an app heap and with 7 in every byte. -/
def bigMemory : LiveMemory where
  memory := ⟨65536, 32767, 65536, 0x100000000, 0x17fff0000, 0x17fff0000, 0x17fff0000, false⟩
  heap := noHeap fun _ => 7
  registry := ⟨0, [⟨0, 0x100000000, 0x7fff0000, .uint8T, [], 0x7fff0000⟩], []⟩
  data_ne := by decide
  data_lt := by decide
  end_le := by decide
  size_eq := by decide
  size_lt := by decide
  page := fun _ => rfl
  heap_ge := by decide
  heap_le := by decide
  heapEnd_le := by decide
  heap_align := fun h => absurd h (by decide)
  heap_min := fun h => absurd h (by decide)
  heap_base := fun h => absurd h (by decide)
  heap_size := fun h => absurd h (by decide)
  entry := ⟨_, rfl, rfl, by decide⟩

/-- An allocator without a `realloc`, with a free block at 12 GiB. -/
def onlyMalloc : Granted bigMemory.toMemoryState 1 where
  realloc := 0
  malloc := 0x300000000
  realloc_usable := fun h => absurd rfl h
  malloc_usable := fun _ => ⟨by decide, fun h => absurd h (by decide)⟩
  malloc_apart := fun _ => Or.inr (by decide)

/-- A memory of two pages with an app heap in the second one; the module has written 0 to all of it. -/
def zeroedMemory : LiveMemory where
  memory := ⟨65536, 2, 3, 0x100000, 0x120000, 0x110000, 0x11fc00, false⟩
  heap :=
    { mem := fun _ => 0, baseAddr := 0x110004, currentSize := 64504, kfcNormalList := fun _ => 0, kfcTreeRoot := 0x1140,
      isHeapCorrupted := false, highmarkSize := 0, totalFreeSize := 64504 }
  registry := ⟨0, [⟨0x100000, 0x100000, 0x20000, .uint8T, [], 0x20000⟩], []⟩
  data_ne := by decide
  data_lt := by decide
  end_le := by decide
  size_eq := by decide
  size_lt := by decide
  page := fun _ => rfl
  heap_ge := by decide
  heap_le := by decide
  heapEnd_le := by decide
  heap_align := fun _ => rfl
  heap_min := fun _ => by decide
  heap_base := fun _ => rfl
  heap_size := fun _ => by decide
  entry := ⟨_, rfl, rfl, by decide⟩

/-- A reallocation to another place. -/
def movesBlock : Granted zeroedMemory.toMemoryState 1 where
  realloc := 0x200000
  malloc := 0
  realloc_usable := fun _ => ⟨by decide, fun _ => Or.inl (by decide)⟩
  malloc_usable := fun h => absurd rfl h
  malloc_apart := fun h => absurd rfl h

/-- One page more for a memory of 32767 pages: the call returns `true` and the bytes are lost. One page more for a memory whose
app heap the module has overwritten: the call does not return. -/
theorem enlarge_loses_bytes :
    (∃ s', wasmEnlargeMemory bigMemory.toMemoryState onlyMalloc.toAnswers (fun _ => 0) 1 = some (true, s') ∧
      bigMemory.heap.mem bigMemory.memory.memoryData = 7 ∧ s'.heap.mem s'.memory.memoryData = 0) ∧
    wasmEnlargeMemory zeroedMemory.toMemoryState movesBlock.toAnswers (fun _ => 0) 1 = none := by
  refine ⟨⟨_, rfl, rfl, rfl⟩, ?_⟩
  have hg : zeroedMemory.Grows 1 := by decide
  have hp : movesBlock.place ≠ 0 := by decide
  have hu := movesBlock.usable hp
  have hheap : zeroedMemory.HasHeap := by decide
  rw [wasmEnlargeMemory_of_block hg rfl hp, adoptBlock_eq hg rfl hp hu, if_pos hheap, LiveMemory.migrate,
    gcMigrate_stuck (zeroedMemory.moves hheap (by decide) (by decide)) (hu.2 hheap) (by decide) (by decide) (by decide)
      (by decide)]
  rfl

end WamrMigrate.Interp
