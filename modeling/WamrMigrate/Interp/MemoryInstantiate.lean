import WamrMigrate.Interp.EnlargeMemory
import WamrMigrate.Loader.MemorySize

/-!
# Instantiating a memory

`memory_instantiate` of `wasm_runtime.c` makes the linear memory and puts the app heap into it: behind the only page, before `__heap_base`, or in
new pages at the end. Page sizes, page counts and offsets have 32 bits. A memory without a byte is not allocated, and the registry ends the process
when it is told about it.
-/

namespace WamrMigrate.Interp

open Loader

/-! ## The model -/

/-- A memory as `memory_instantiate` is told about it: as it was declared, made to one page by the loader, or absent. -/
inductive Described : WasmMemory → Prop
  | declared {init max : UInt32} : init.toNat ≤ 65536 → max.toNat ≤ 65536 → Described ⟨65536, init, max⟩
  | flat (bytes : UInt32) : Described ⟨bytes, 1, 1⟩
  | absent : Described ⟨0, 0, 0⟩

theorem Described.eq {mem : WasmMemory} (h : Described mem) :
    (∃ init max, mem = ⟨65536, init, max⟩ ∧ init.toNat ≤ 65536 ∧ max.toNat ≤ 65536) ∨ (∃ bytes, mem = ⟨bytes, 1, 1⟩) ∨ mem = ⟨0, 0, 0⟩ := by
  cases h with
  | declared hi hm => exact .inl ⟨_, _, rfl, hi, hm⟩
  | flat bytes => exact .inr (.inl ⟨bytes, rfl⟩)
  | absent => exact .inr (.inr rfl)

/-- `heap_size` as `wasm_instantiate` passes it on. -/
def checkHeapSize (heapSize : UInt32) : UInt32 :=
  let heapSize := alignUint heapSize 8
  if 0x20000000 < heapSize then 0x20000000 else heapSize

/-- What `memory_instantiate` depends on: the memory, the heap size that was asked for, whether the module has its own `malloc` and `free`, its
`__heap_base`, and whether the memory is a shared one. -/
structure MemoryArgs where
  mem : WasmMemory
  described : Described mem
  heapArg : UInt32
  ownMalloc : Bool
  auxHeapBase : Option UInt32
  shared : Bool

/-- Whether the allocations and initialisations succeed, and where the linear memory is. The allocator gives blocks at multiples of 8. -/
structure InstAnswers where
  memory : Bool
  data : Option { a : Nat // 8 ∣ a }
  heapHandle : Bool
  heapInit : Bool
  memLock : Bool
  node : Bool

/-- Why there is no instance: the process has ended, or NULL is returned with an error. -/
inductive InstStop where
  | terminated
  | failed (error : String)
  deriving DecidableEq

/-- Page size, page counts and app heap, and what is written to the global `__heap_base`. -/
structure MemoryLayout where
  numBytesPerPage : UInt32
  initPageCount : UInt32
  maxPageCount : UInt32
  heapOffset : UInt32
  heapSize : UInt32
  heapBase : Option UInt32
  deriving DecidableEq

namespace MemoryArgs

/-- The size of the app heap that is asked for: none if the module has its own `malloc` and `free`. -/
def heap (a : MemoryArgs) : UInt32 :=
  let heapSize := checkHeapSize a.heapArg
  if 0 < heapSize ∧ a.ownMalloc then 0 else heapSize

/-- Number of bytes from `offset` to the end of its page. -/
def bytesToPageEnd (numBytesPerPage offset : UInt32) : UInt32 :=
  let bytesOfLastPage := offset % numBytesPerPage
  numBytesPerPage - if bytesOfLastPage = 0 then numBytesPerPage else bytesOfLastPage

/-- The app heap before `__heap_base`: how many pages are added, where it is, how large it is and the new `__heap_base`. -/
def insertBeforeBase (numBytesPerPage heapSize base : UInt32) : UInt32 × UInt32 × UInt32 × Option UInt32 :=
  let incPageCount := (heapSize - bytesToPageEnd numBytesPerPage base + numBytesPerPage - 1) / numBytesPerPage
  let newBase := base + heapSize
  if bytesToPageEnd numBytesPerPage newBase < 1024 then (incPageCount + 1, base, heapSize, some (newBase + 1024))
  else (incPageCount, base, heapSize, some newBase)

/-- The app heap in new pages. -/
def insertNewPages (numBytesPerPage initPageCount heapSize : UInt32) : UInt32 × UInt32 × UInt32 × Option UInt32 :=
  let incPageCount := (heapSize + numBytesPerPage - 1) / numBytesPerPage
  let heapSize := numBytesPerPage * incPageCount
  (incPageCount, numBytesPerPage * initPageCount, if 0 < heapSize then heapSize - 1024 else heapSize, none)

/-- The pages are added. -/
def addPages (mem : WasmMemory) : UInt32 × UInt32 × UInt32 × Option UInt32 → Except InstStop MemoryLayout
  | (incPageCount, heapOffset, heapSize, heapBase) =>
    let initPageCount := mem.initPageCount + incPageCount
    let maxPageCount := mem.maxPageCount + incPageCount
    if 65536 < initPageCount then .error (.failed "memory size must be at most 65536 pages (4GiB)")
    else .ok ⟨mem.numBytesPerPage, initPageCount, if 65536 < maxPageCount then 65536 else maxPageCount, heapOffset, heapSize, heapBase⟩

/-- The `__heap_base` that the app heap is inserted before, if it lies inside the memory. -/
def baseInside (a : MemoryArgs) : Option UInt32 := a.auxHeapBase.filter (· < a.mem.numBytesPerPage * a.mem.initPageCount)

/-- The first part of `memory_instantiate`, up to the first allocation. -/
def layOut (a : MemoryArgs) : Except InstStop MemoryLayout :=
  let ⟨numBytesPerPage, initPageCount, maxPageCount⟩ := a.mem
  if initPageCount = maxPageCount ∧ initPageCount = 1 then
    -- the app heap makes the only page larger
    let bytes := numBytesPerPage + a.heap
    if bytes < a.heap then .error (.failed "memory size must be at most 65536 pages (4GiB)")
    else .ok ⟨bytes, initPageCount, maxPageCount, numBytesPerPage, a.heap, none⟩
  else if 0 < a.heap then
    match a.baseInside with
    | some base => addPages a.mem (insertBeforeBase numBytesPerPage a.heap base)
    | none =>
      -- a division by zero
      if numBytesPerPage = 0 then .error .terminated
      else addPages a.mem (insertNewPages numBytesPerPage initPageCount a.heap)
  else .ok ⟨numBytesPerPage, initPageCount, maxPageCount, numBytesPerPage * initPageCount, a.heap, none⟩

/-- `memory_data_size`: a shared memory has all its pages from the start. -/
def dataSize (a : MemoryArgs) (l : MemoryLayout) : Nat :=
  l.numBytesPerPage.toNat * (if a.shared then l.maxPageCount else l.initPageCount).toNat

/-- The instance for a layout, with the linear memory at an address. -/
def instanceAt (a : MemoryArgs) (l : MemoryLayout) (data : Nat) : MemoryInstance :=
  let heapData := data + l.heapOffset.toNat
  { numBytesPerPage := l.numBytesPerPage, curPageCount := l.initPageCount, maxPageCount := l.maxPageCount
    memoryData := data, memoryDataEnd := data + a.dataSize l % 2 ^ 32
    heapData := heapData, heapDataEnd := heapData + l.heapSize.toNat
    isShared := a.shared }

/-- The second part of `memory_instantiate`. -/
def make (a : MemoryArgs) (l : MemoryLayout) (ans : InstAnswers) : Except InstStop MemoryInstance :=
  if ¬ ans.memory then .error (.failed "allocate memory failed")
  -- `memory_data` stays NULL, and `alloc_info_buf` exits
  else if a.dataSize l = 0 then .error .terminated
  else if 0xFFFFFFFF ≤ a.dataSize l then .error (.failed "allocate memory failed")
  else
    match ans.data with
    | none => .error (.failed "allocate memory failed")
    | some data =>
      let memory := a.instanceAt l data.1
      if 0 < l.heapSize ∧ ¬ ans.heapHandle then .error (.failed "allocate memory failed")
      else if 0 < l.heapSize ∧ (memory.heapData % 8 ≠ 0 ∨ l.heapSize < 256 ∨ ¬ ans.heapInit) then .error (.failed "init app heap failed")
      else if ¬ ans.memLock then .error (.failed "init mutex failed")
      else if a.shared ∧ ¬ ans.node then .error (.failed "allocate memory failed")
      else .ok memory

/-- `memory_instantiate`. A shared memory is one of a module that has no instance yet; of a module that has one it is the memory of that instance. -/
def memoryInstantiate (a : MemoryArgs) (ans : InstAnswers) : Except InstStop MemoryInstance := do
  let l ← a.layOut
  a.make l ans

/-! ## What is to hold of an instance -/

/-- The app heap is at a multiple of 8, inside the linear memory and above the data below `__heap_base`, and the page counts agree with the size. -/
structure WellLaidOut (a : MemoryArgs) (m : MemoryInstance) : Prop where
  heap : m.heapData < m.heapDataEnd → 8 ∣ m.heapData ∧ m.memoryData ≤ m.heapData ∧ m.heapDataEnd ≤ m.memoryDataEnd ∧
    ∀ base, a.auxHeapBase = some base → m.memoryData + base.toNat ≤ m.heapData
  size : m.memoryDataEnd = m.memoryData + m.curPageCount.toNat * m.numBytesPerPage.toNat
  max : m.curPageCount.toNat * m.numBytesPerPage.toNat ≤ m.maxPageCount.toNat * m.numBytesPerPage.toNat
  bound : m.curPageCount.toNat * m.numBytesPerPage.toNat ≤ 2 ^ 32

/-- The process goes on, and an instance is well laid out. -/
def Sound (a : MemoryArgs) : Except InstStop MemoryInstance → Prop
  | .error .terminated => False
  | .error (.failed _) => True
  | .ok m => a.WellLaidOut m

/-! ## The condition -/

/-- The number of pages of 64 KiB for so many bytes. -/
def pagesFor (bytes : Nat) : Nat := (bytes + 65535) / 65536

/-- The number of pages that the app heap adds to a memory of 64 KiB pages: those that it reaches into beyond the page of `__heap_base`, and one more
if it leaves less than 1 KiB of the last one; or, at the end, those that it needs. -/
def heapPages (a : MemoryArgs) : Nat :=
  if a.heap = 0 then 0
  else
    match a.baseInside with
    | some base =>
      pagesFor (base.toNat + a.heap.toNat) - pagesFor base.toNat +
        if pagesFor (base.toNat + a.heap.toNat) * 65536 - (base.toNat + a.heap.toNat) < 1024 then 1 else 0
    | none => pagesFor a.heap.toNat

/-- The pages that are allocated before the app heap is added: all of them for a shared memory. -/
def pages (a : MemoryArgs) : Nat := (if a.shared then a.mem.maxPageCount else a.mem.initPageCount).toNat

/-- A memory of one page has a byte, and its app heap, if one can be made, does not start below `__heap_base`. -/
def FlatSafe (a : MemoryArgs) : Prop :=
  (0 < a.mem.numBytesPerPage.toNat ∨ 0 < a.heap.toNat) ∧
    (256 ≤ a.heap.toNat → 8 ∣ a.mem.numBytesPerPage.toNat → a.mem.numBytesPerPage.toNat + a.heap.toNat < 2 ^ 32 - 1 →
      ∀ base, a.auxHeapBase = some base → base.toNat ≤ a.mem.numBytesPerPage.toNat)

/-- An app heap can be made where it is put. -/
def HeapFits (a : MemoryArgs) : Prop := ∀ base, 0 < a.heap.toNat → a.baseInside = some base → 8 ∣ base.toNat ∧ 256 ≤ a.heap.toNat

/-- A memory of several pages, or of none, is there and has a byte. If it can be allocated, it does not have more pages than it may have, a shared one has
all of them, and its app heap does not start below `__heap_base`. -/
def PagedSafe (a : MemoryArgs) : Prop :=
  a.mem.numBytesPerPage ≠ 0 ∧
    (a.mem.initPageCount.toNat + a.heapPages ≤ 65536 → 0 < a.pages + a.heapPages ∧
      (a.pages + a.heapPages ≤ 65535 → a.HeapFits →
        a.mem.initPageCount.toNat ≤ a.mem.maxPageCount.toNat ∧ (a.shared → a.mem.initPageCount = a.mem.maxPageCount) ∧
        (0 < a.heap.toNat → ∀ base, a.auxHeapBase = some base → base.toNat ≤ a.mem.initPageCount.toNat * 65536)))

/-- The condition under which the memory can be instantiated. -/
def Safe (a : MemoryArgs) : Prop :=
  if a.mem.initPageCount = 1 ∧ a.mem.maxPageCount = 1 then a.FlatSafe else a.PagedSafe

/-! ## From a layout to its instances -/

section Make
variable {a : MemoryArgs} {l : MemoryLayout}

/-- An app heap can be made at its offset. -/
def HeapUsable (l : MemoryLayout) : Prop := 0 < l.heapSize.toNat → 8 ∣ l.heapOffset.toNat ∧ 256 ≤ l.heapSize.toNat

/-- What is to hold of a layout. -/
structure LayoutSound (a : MemoryArgs) (l : MemoryLayout) : Prop where
  heap : 0 < l.heapSize.toNat → l.heapOffset.toNat + l.heapSize.toNat ≤ a.dataSize l ∧
    ∀ base, a.auxHeapBase = some base → base.toNat ≤ l.heapOffset.toNat
  size : a.dataSize l = l.initPageCount.toNat * l.numBytesPerPage.toNat
  max : l.initPageCount.toNat * l.numBytesPerPage.toNat ≤ l.maxPageCount.toNat * l.numBytesPerPage.toNat

theorem wellLaidOut_instanceAt {data : Nat} (hdata : 8 ∣ data) (hsize : a.dataSize l < 2 ^ 32 - 1) (hheap : HeapUsable l) :
    a.WellLaidOut (a.instanceAt l data) ↔ a.LayoutSound l := by
  have hmod : a.dataSize l % 2 ^ 32 = a.dataSize l := Nat.mod_eq_of_lt (by omega)
  constructor
  · rintro ⟨hh, hs, hm, -⟩
    simp only [instanceAt, hmod] at hh hs hm
    refine ⟨fun hpos => ?_, by omega, hm⟩
    obtain ⟨-, -, hend, hbase⟩ := hh (by omega)
    refine ⟨by omega, fun base hb => ?_⟩
    have := hbase base hb
    omega
  rintro ⟨hh, hs, hm⟩
  refine ⟨fun hpos => ?_, ?_, hm, ?_⟩
  · simp only [instanceAt, hmod] at hpos ⊢
    obtain ⟨hend, hbase⟩ := hh (by omega)
    have halign := (hheap (by omega)).1
    refine ⟨Nat.dvd_add hdata halign, by omega, by omega, fun base hb => ?_⟩
    have := hbase base hb
    omega
  · simp only [instanceAt, hmod]
    omega
  · simp only [instanceAt]
    omega

/-- Everything succeeds, with the linear memory at 8. -/
def allSucceed : InstAnswers := ⟨true, some ⟨8, Nat.dvd_refl 8⟩, true, true, true, true⟩

/-- Of a layout whose memory is not empty every instance that can be made is sound, exactly if the layout is. -/
theorem sound_make_iff : (∀ ans, a.Sound (a.make l ans)) ↔ 0 < a.dataSize l ∧ (a.dataSize l < 2 ^ 32 - 1 → HeapUsable l → a.LayoutSound l) := by
  constructor
  · intro h
    have hall := h allSucceed
    unfold make at hall
    rw [if_neg (by decide)] at hall
    split at hall
    · exact hall.elim
    rename_i hpos
    refine ⟨Nat.pos_of_ne_zero hpos, fun hsize hheap => ?_⟩
    rw [if_neg (by omega)] at hall
    simp only [allSucceed] at hall
    rw [if_neg (by simp), if_neg, if_neg (by simp), if_neg (by simp)] at hall
    · exact (wellLaidOut_instanceAt (Nat.dvd_refl 8) hsize hheap).1 hall
    rintro ⟨hlt, hbad⟩
    rw [UInt32.lt_iff_toNat_lt] at hlt
    obtain ⟨halign, hmin⟩ := hheap hlt
    rcases hbad with hbad | hbad | hbad
    · simp only [instanceAt] at hbad
      omega
    · rw [UInt32.lt_iff_toNat_lt] at hbad
      exact absurd hmin (Nat.not_le.2 hbad)
    · exact hbad trivial
  · rintro ⟨hpos, h⟩ ans
    unfold make
    split
    · trivial
    rw [if_neg (by omega)]
    split
    · trivial
    rename_i hsize
    split
    · trivial
    rename_i data _
    simp only
    split
    · trivial
    split
    · trivial
    rename_i hinit
    split
    · trivial
    split
    · trivial
    have hheap : HeapUsable l := by
      intro hlt
      have hok := not_and.1 hinit (UInt32.lt_iff_toNat_lt.2 hlt)
      simp only [not_or, not_not, instanceAt, UInt32.lt_iff_toNat_lt, Nat.not_lt] at hok
      obtain ⟨d, hd⟩ := data
      have h256 : (256 : UInt32).toNat = 256 := rfl
      simp only at hok
      omega
    exact (wellLaidOut_instanceAt data.2 (by omega) hheap).2 (h (by omega) hheap)

theorem sound_iff_of_layOut (h : a.layOut = .ok l) : (∀ ans, a.Sound (a.memoryInstantiate ans)) ↔
    0 < a.dataSize l ∧ (a.dataSize l < 2 ^ 32 - 1 → HeapUsable l → a.LayoutSound l) := by
  rw [← sound_make_iff]
  unfold memoryInstantiate
  rw [h]
  exact Iff.rfl

theorem sound_of_failed {e : String} (h : a.layOut = .error (.failed e)) (ans : InstAnswers) : a.Sound (a.memoryInstantiate ans) := by
  unfold memoryInstantiate
  rw [h]
  trivial

theorem not_sound_of_terminated (h : a.layOut = .error .terminated) (ans : InstAnswers) : ¬ a.Sound (a.memoryInstantiate ans) := by
  unfold memoryInstantiate
  rw [h]
  exact id

end Make

/-! ## One page -/

section Flat
variable {a : MemoryArgs}

theorem layOut_flat (hflat : a.mem.initPageCount = 1 ∧ a.mem.maxPageCount = 1) :
    a.layOut = if a.mem.numBytesPerPage.toNat + a.heap.toNat < 2 ^ 32 then .ok ⟨a.mem.numBytesPerPage + a.heap, 1, 1, a.mem.numBytesPerPage, a.heap, none⟩
      else .error (.failed "memory size must be at most 65536 pages (4GiB)") := by
  obtain ⟨hinit, hmax⟩ := hflat
  have hwrap : a.mem.numBytesPerPage + a.heap < a.heap ↔ ¬ a.mem.numBytesPerPage.toNat + a.heap.toNat < 2 ^ 32 := by
    have := a.mem.numBytesPerPage.toNat_lt
    have := a.heap.toNat_lt
    rw [UInt32.lt_iff_toNat_lt, UInt32.toNat_add]
    omega
  unfold layOut
  simp only
  rw [hinit, hmax, if_pos ⟨rfl, rfl⟩]
  split
  · rename_i h
    rw [if_neg (hwrap.1 h)]
  · rename_i h
    rw [if_pos (not_not.1 fun h' => h (hwrap.2 h'))]

theorem flat_iff (hflat : a.mem.initPageCount = 1 ∧ a.mem.maxPageCount = 1) : (∀ ans, a.Sound (a.memoryInstantiate ans)) ↔ a.FlatSafe := by
  have hlay := layOut_flat hflat
  have hone : (1 : UInt32).toNat = 1 := rfl
  split at hlay
  · rename_i hlt
    have hsum : (a.mem.numBytesPerPage + a.heap).toNat = a.mem.numBytesPerPage.toNat + a.heap.toNat := by
      rw [UInt32.toNat_add, Nat.mod_eq_of_lt hlt]
    rw [sound_iff_of_layOut hlay]
    unfold FlatSafe dataSize HeapUsable
    simp only [ite_self, hone, Nat.mul_one, hsum]
    refine and_congr (by omega) ?_
    constructor
    · intro h hmin halign hsize base hb
      exact ((h hsize fun _ => ⟨halign, hmin⟩).heap (by simp only; omega)).2 base hb
    intro h hsize hheap
    refine ⟨fun hpos => ?_, ?_, ?_⟩
    · obtain ⟨halign, hmin⟩ := hheap hpos
      refine ⟨?_, h hmin halign hsize⟩
      simp only [dataSize, ite_self, hone, hsum]
      omega
    · simp only [dataSize, ite_self, hone, hsum]
      omega
    · simp only [hone, Nat.le_refl]
  · rename_i hge
    refine iff_of_true (sound_of_failed hlay) ⟨?_, fun _ _ hsize => absurd hsize (by omega)⟩
    have := a.mem.numBytesPerPage.toNat_lt
    omega

end Flat

/-! ## Pages of 64 KiB -/

section Paged
variable {a : MemoryArgs} {init max : UInt32}

theorem toNat_65536 : (65536 : UInt32).toNat = 65536 := rfl

theorem toNat_checkHeapSize_le (h : UInt32) : (checkHeapSize h).toNat ≤ 0x20000000 := by
  unfold checkHeapSize
  simp only
  split
  · exact Nat.le_refl _
  · rename_i hle
    exact UInt32.le_iff_toNat_le.1 (UInt32.not_lt.1 hle)

theorem heap_le (a : MemoryArgs) : a.heap.toNat ≤ 0x20000000 := by
  unfold heap
  simp only
  split
  · exact Nat.zero_le _
  · exact toNat_checkHeapSize_le a.heapArg

theorem toNat_bytesToPageEnd (x : UInt32) : (bytesToPageEnd 65536 x).toNat = pagesFor x.toNat * 65536 - x.toNat := by
  unfold bytesToPageEnd pagesFor
  simp only
  have hmod : (x % 65536).toNat = x.toNat % 65536 := UInt32.toNat_mod x 65536
  split
  · rename_i hzero
    have : x.toNat % 65536 = 0 := by rw [← hmod, hzero]; rfl
    rw [UInt32.sub_self]
    show 0 = _
    omega
  rename_i hne
  have hne' : x.toNat % 65536 ≠ 0 := fun h => hne (UInt32.toNat_inj.1 (hmod.trans h))
  rw [UInt32.toNat_sub, hmod, toNat_65536]
  omega

/-- The pages that the app heap reaches into beyond the page of `__heap_base`, as they are computed in 32 bits. -/
theorem toNat_incPageCount {h : UInt32} (base : UInt32) (hle : h.toNat ≤ 0x20000000) :
    ((h - bytesToPageEnd 65536 base + 65536 - 1) / 65536).toNat = pagesFor (base.toNat + h.toNat) - pagesFor base.toNat := by
  have hend := toNat_bytesToPageEnd base
  have hone : (1 : UInt32).toNat = 1 := rfl
  rw [UInt32.toNat_div, UInt32.toNat_sub, UInt32.toNat_add, UInt32.toNat_sub, hend, toNat_65536, hone]
  unfold pagesFor
  have := base.toNat_lt
  omega

/-- The app heap before `__heap_base`: the pages are those that it needs, or too many to be there. -/
theorem insertBeforeBase_spec {h base init : UInt32} (hle : h.toNat ≤ 0x20000000) (hbase : base.toNat < init.toNat * 65536)
    (hinit : init.toNat ≤ 65536) {n : Nat} (hn : n = pagesFor (base.toNat + h.toNat) - pagesFor base.toNat +
      if pagesFor (base.toNat + h.toNat) * 65536 - (base.toNat + h.toNat) < 1024 then 1 else 0) :
    ∃ inc newBase, insertBeforeBase 65536 h base = (inc, base, h, newBase) ∧ inc.toNat ≤ 8194 ∧
      (init.toNat + n ≤ 65536 ↔ init.toNat + inc.toNat ≤ 65536) ∧
      (init.toNat + n ≤ 65536 → inc.toNat = n ∧ base.toNat + h.toNat ≤ (init.toNat + n) * 65536) := by
  have hinc := toNat_incPageCount base hle
  have hend := toNat_bytesToPageEnd (base + h)
  have hsum := UInt32.toNat_add base h
  have h1024 : (1024 : UInt32).toNat = 1024 := rfl
  have hone : (1 : UInt32).toNat = 1 := rfl
  have hlt := base.toNat_lt
  unfold insertBeforeBase
  simp only
  split
  · rename_i hlast
    rw [UInt32.lt_iff_toNat_lt, hend, hsum, h1024] at hlast
    refine ⟨_, _, rfl, ?_⟩
    rw [UInt32.toNat_add, hinc, hone]
    unfold pagesFor at *
    split at hn <;> omega
  rename_i hlast
  rw [UInt32.lt_iff_toNat_lt, hend, hsum, h1024] at hlast
  refine ⟨_, _, rfl, ?_⟩
  rw [hinc]
  unfold pagesFor at *
  split at hn <;> omega

theorem insertNewPages_spec {h : UInt32} (init : UInt32) (hpos : 0 < h.toNat) (hle : h.toNat ≤ 0x20000000) :
    ∃ inc size, insertNewPages 65536 init h = (inc, 65536 * init, size, none) ∧ inc.toNat = pagesFor h.toNat ∧
      size.toNat = pagesFor h.toNat * 65536 - 1024 := by
  have hone : (1 : UInt32).toNat = 1 := rfl
  have h1024 : (1024 : UInt32).toNat = 1024 := rfl
  have hinc : ((h + 65536 - 1) / 65536).toNat = pagesFor h.toNat := by
    rw [UInt32.toNat_div, UInt32.toNat_sub, UInt32.toNat_add, toNat_65536, hone]
    unfold pagesFor
    omega
  have hsize : (65536 * ((h + 65536 - 1) / 65536)).toNat = pagesFor h.toNat * 65536 := by
    rw [UInt32.toNat_mul, hinc, toNat_65536]
    unfold pagesFor
    omega
  refine ⟨_, _, rfl, hinc, ?_⟩
  rw [if_pos]
  · rw [UInt32.toNat_sub, hsize, h1024]
    unfold pagesFor
    omega
  rw [UInt32.lt_iff_toNat_lt, hsize]
  show 0 < _
  unfold pagesFor
  omega

theorem addPages_spec {inc : UInt32} (off size : UInt32) (newBase : Option UInt32) (hi : init.toNat ≤ 65536) (hm : max.toNat ≤ 65536)
    (hinc : inc.toNat ≤ 8194) :
    (init.toNat + inc.toNat ≤ 65536 → ∃ l, addPages ⟨65536, init, max⟩ (inc, off, size, newBase) = .ok l ∧ l.numBytesPerPage = 65536 ∧
      l.initPageCount.toNat = init.toNat + inc.toNat ∧ l.maxPageCount.toNat = min 65536 (max.toNat + inc.toNat) ∧
      l.heapOffset = off ∧ l.heapSize = size) ∧
    (65536 < init.toNat + inc.toNat → ∃ e, addPages ⟨65536, init, max⟩ (inc, off, size, newBase) = .error (.failed e)) := by
  have hinit : (init + inc).toNat = init.toNat + inc.toNat := by
    rw [UInt32.toNat_add]
    omega
  have hmax : (max + inc).toNat = max.toNat + inc.toNat := by
    rw [UInt32.toNat_add]
    omega
  unfold addPages
  simp only
  constructor
  · intro hle
    rw [if_neg (by rw [UInt32.lt_iff_toNat_lt, hinit, toNat_65536]; omega)]
    refine ⟨_, rfl, rfl, hinit, ?_, rfl, rfl⟩
    simp only
    split
    · rename_i hlt
      rw [UInt32.lt_iff_toNat_lt, hmax, toNat_65536] at hlt
      rw [toNat_65536]
      omega
    rename_i hlt
    rw [UInt32.lt_iff_toNat_lt, hmax, toNat_65536] at hlt
    rw [hmax]
    omega
  · intro hlt
    rw [if_pos (by rw [UInt32.lt_iff_toNat_lt, hinit, toNat_65536]; omega)]
    exact ⟨_, rfl⟩

/-- The layout of a memory of pages of 64 KiB. -/
structure PagedLayout (a : MemoryArgs) (l : MemoryLayout) : Prop where
  page : l.numBytesPerPage = 65536
  init : l.initPageCount.toNat = a.mem.initPageCount.toNat + a.heapPages
  max : l.maxPageCount.toNat = min 65536 (a.mem.maxPageCount.toNat + a.heapPages)
  none : a.heap.toNat = 0 → l.heapSize.toNat = 0
  before (base : UInt32) : 0 < a.heap.toNat → a.baseInside = some base → l.heapOffset = base ∧ l.heapSize = a.heap ∧
    base.toNat + a.heap.toNat ≤ (a.mem.initPageCount.toNat + a.heapPages) * 65536
  new : 0 < a.heap.toNat → a.baseInside = Option.none → l.heapOffset.toNat = a.mem.initPageCount.toNat * 65536 ∧
    l.heapSize.toNat = a.heapPages * 65536 - 1024 ∧ 0 < a.heapPages

theorem baseInside_eq_some (hmem : a.mem = ⟨65536, init, max⟩) (hi : init.toNat ≤ 65536) {base : UInt32} (h : a.baseInside = some base) :
    a.auxHeapBase = some base ∧ base.toNat < init.toNat * 65536 := by
  obtain ⟨haux, hlt⟩ := Option.filter_eq_some_iff.1 h
  rw [decide_eq_true_eq, hmem, UInt32.lt_iff_toNat_lt, UInt32.toNat_mul, toNat_65536] at hlt
  simp only at hlt
  exact ⟨haux, by omega⟩

theorem heapPages_before (h : a.heap ≠ 0) {base : UInt32} (hbase : a.baseInside = some base) :
    a.heapPages = pagesFor (base.toNat + a.heap.toNat) - pagesFor base.toNat +
      if pagesFor (base.toNat + a.heap.toNat) * 65536 - (base.toNat + a.heap.toNat) < 1024 then 1 else 0 := by
  unfold heapPages
  rw [if_neg h, hbase]

theorem layOut_paged (hmem : a.mem = ⟨65536, init, max⟩) (hi : init.toNat ≤ 65536) (hm : max.toNat ≤ 65536) (hflat : ¬(init = 1 ∧ max = 1)) :
    (init.toNat + a.heapPages ≤ 65536 → ∃ l, a.layOut = .ok l ∧ a.PagedLayout l) ∧
    (65536 < init.toNat + a.heapPages → ∃ e, a.layOut = .error (.failed e)) := by
  have hle := a.heap_le
  have hnot : ¬(init = max ∧ init = 1) := fun h => hflat ⟨h.2, h.1.symm.trans h.2⟩
  have hlay : a.layOut =
      if 0 < a.heap then
        match a.baseInside with
        | some base => addPages ⟨65536, init, max⟩ (insertBeforeBase 65536 a.heap base)
        | none => addPages ⟨65536, init, max⟩ (insertNewPages 65536 init a.heap)
      else .ok ⟨65536, init, max, 65536 * init, a.heap, none⟩ := by
    unfold layOut
    rw [hmem]
    simp only
    rw [if_neg hnot]
    rfl
  rw [hlay]
  by_cases hpos : 0 < a.heap
  · have hpos' : 0 < a.heap.toNat := UInt32.lt_iff_toNat_lt.1 hpos
    have hne : a.heap ≠ 0 := fun h => by rw [h] at hpos'; exact absurd hpos' (by decide)
    rw [if_pos hpos]
    cases hbase : a.baseInside with
    | some base =>
      obtain ⟨-, hlt⟩ := baseInside_eq_some hmem hi hbase
      have hn := heapPages_before hne hbase
      obtain ⟨inc, newBase, hins, hinc, hiff, hspec⟩ := insertBeforeBase_spec hle hlt hi hn
      obtain ⟨hok, hfail⟩ := addPages_spec base a.heap newBase hi hm hinc
      simp only [hins]
      refine ⟨fun hfit => ?_, fun hover => hfail (Nat.lt_of_not_le fun h => Nat.not_le.2 hover (hiff.2 h))⟩
      obtain ⟨hincn, hend⟩ := hspec hfit
      obtain ⟨l, hl, hpage, hlinit, hlmax, hoff, hsize⟩ := hok (hiff.1 hfit)
      refine ⟨l, hl, hpage, by rw [hlinit, hincn, hmem], by rw [hlmax, hincn, hmem], fun hzero => absurd hzero (Nat.ne_of_gt hpos'), ?_, ?_⟩
      · intro base' _ hbase'
        obtain rfl := Option.some.inj (hbase.symm.trans hbase')
        rw [hmem]
        exact ⟨hoff, hsize, hend⟩
      · intro _ hnone
        nomatch hbase.symm.trans hnone
    | none =>
      have hn : a.heapPages = pagesFor a.heap.toNat := by
        unfold heapPages
        rw [if_neg hne, hbase]
      have hpages : pagesFor a.heap.toNat ≤ 8194 ∧ 0 < pagesFor a.heap.toNat := by
        unfold pagesFor
        omega
      obtain ⟨inc, size, hins, hinc, hsize⟩ := insertNewPages_spec init hpos' hle
      obtain ⟨hok, hfail⟩ := addPages_spec (65536 * init) size none hi hm (hinc.trans_le hpages.1)
      simp only [hins]
      refine ⟨fun hfit => ?_, fun hover => hfail (by omega)⟩
      obtain ⟨l, hl, hpage, hlinit, hlmax, hoff, hlsize⟩ := hok (by omega)
      refine ⟨l, hl, hpage, by rw [hlinit, hinc, hn, hmem], by rw [hlmax, hinc, hn, hmem], fun hzero => absurd hzero (Nat.ne_of_gt hpos'), ?_, ?_⟩
      · intro base _ hsome
        nomatch hbase.symm.trans hsome
      · intro _ _
        rw [hoff, hlsize, hn, hmem, UInt32.toNat_mul, toNat_65536]
        exact ⟨by simp only; omega, hsize, hpages.2⟩
  · have hzero : a.heap.toNat = 0 := by
      rw [UInt32.lt_iff_toNat_lt] at hpos
      exact Nat.eq_zero_of_not_pos hpos
    have hn : a.heapPages = 0 := if_pos (UInt32.toNat_inj.1 hzero)
    rw [if_neg hpos]
    refine ⟨fun _ => ⟨_, rfl, rfl, by rw [hn, hmem]; rfl, ?_, fun _ => hzero, ?_, ?_⟩, fun hover => by omega⟩
    · rw [hn, hmem]
      simp only
      omega
    · intro base h
      exact absurd h (by omega)
    · intro h
      exact absurd h (by omega)

namespace PagedLayout

variable {l : MemoryLayout}

theorem usable_iff (hl : a.PagedLayout l) : HeapUsable l ↔ a.HeapFits := by
  constructor
  · intro h base hpos hbase
    obtain ⟨hoff, hsize, -⟩ := hl.before base hpos hbase
    rw [← hoff, ← hsize]
    exact h (hsize ▸ hpos)
  intro h hpos
  have hheap : 0 < a.heap.toNat := by
    by_contra hzero
    exact absurd (hl.none (Nat.eq_zero_of_not_pos hzero)) (Nat.ne_of_gt hpos)
  cases hbase : a.baseInside with
  | some base =>
    obtain ⟨hoff, hsize, -⟩ := hl.before base hheap hbase
    rw [hoff, hsize]
    exact h base hheap hbase
  | none =>
    obtain ⟨hoff, hsize, hpages⟩ := hl.new hheap hbase
    rw [hoff, hsize]
    omega

/-- A layout is sound if the memory has no more pages than it may have, and all of them if it is shared, and if the app heap is above the data. -/
theorem sound_iff (hl : a.PagedLayout l) (hmem : a.mem = ⟨65536, init, max⟩) (hi : init.toNat ≤ 65536) (hfit : init.toNat + a.heapPages ≤ 65536)
    (hpages : a.pages + a.heapPages ≤ 65535) : a.LayoutSound l ↔ init.toNat ≤ a.mem.maxPageCount.toNat ∧ (a.shared → init = a.mem.maxPageCount) ∧
        (0 < a.heap.toNat → ∀ base, a.auxHeapBase = some base → base.toNat ≤ init.toNat * 65536) := by
  have hinitEq : a.mem.initPageCount = init := by rw [hmem]
  have hlinit : l.initPageCount.toNat = init.toNat + a.heapPages := by rw [hl.init, hinitEq]
  have hpagesEq : a.pages = if a.shared then a.mem.maxPageCount.toNat else init.toNat := by
    unfold pages
    rw [hinitEq]
    split <;> rfl
  have hsize : a.dataSize l = (a.pages + a.heapPages) * 65536 := by
    unfold dataSize
    rw [hl.page, toNat_65536, hpagesEq]
    rw [hpagesEq] at hpages
    split at hpages
    · rename_i hshared
      rw [if_pos hshared, if_pos hshared, hl.max]
      omega
    · rename_i hshared
      rw [if_neg hshared, if_neg hshared, hlinit]
      omega
  constructor
  · rintro ⟨hheap, hsame, hmax⟩
    rw [hl.page, toNat_65536, hlinit] at hsame hmax
    rw [hl.max] at hmax
    rw [hsize] at hsame
    refine ⟨by omega, fun hshared => ?_, fun hpos base haux => ?_⟩
    · rw [hpagesEq, if_pos hshared] at hsame
      exact UInt32.toNat_inj.1 (by omega)
    cases hbase : a.baseInside with
    | some base' =>
      obtain ⟨haux', hlt⟩ := baseInside_eq_some hmem hi hbase
      obtain rfl := Option.some.inj (haux.symm.trans haux')
      exact Nat.le_of_lt hlt
    | none =>
      obtain ⟨hoff, hlsize, hgrow⟩ := hl.new hpos hbase
      rw [hinitEq] at hoff
      rw [← hoff]
      exact (hheap (by omega)).2 base haux
  · rintro ⟨hmax, hshared, hbases⟩
    have hsame : a.pages = init.toNat := by
      rw [hpagesEq]
      split
      · rename_i h
        rw [hshared h]
      · rfl
    refine ⟨fun hpos => ?_, ?_, ?_⟩
    · have hheap : 0 < a.heap.toNat := by
        by_contra hzero
        exact absurd (hl.none (Nat.eq_zero_of_not_pos hzero)) (Nat.ne_of_gt hpos)
      rw [hsize, hsame]
      cases hbase : a.baseInside with
      | some base' =>
        obtain ⟨hoff, hlsize, hend⟩ := hl.before base' hheap hbase
        obtain ⟨haux', -⟩ := baseInside_eq_some hmem hi hbase
        rw [hoff, hlsize]
        refine ⟨hinitEq ▸ hend, fun base haux => ?_⟩
        rw [Option.some.inj (haux.symm.trans haux')]
      | none =>
        obtain ⟨hoff, hlsize, hgrow⟩ := hl.new hheap hbase
        rw [hinitEq] at hoff
        rw [hoff, hlsize]
        exact ⟨by omega, hbases hheap⟩
    · rw [hsize, hsame, hl.page, toNat_65536, hlinit]
    · rw [hl.page, toNat_65536, hlinit, hl.max]
      omega

end PagedLayout

theorem paged_iff (hmem : a.mem = ⟨65536, init, max⟩) (hi : init.toNat ≤ 65536) (hm : max.toNat ≤ 65536) (hflat : ¬(init = 1 ∧ max = 1)) :
    (∀ ans, a.Sound (a.memoryInstantiate ans)) ↔ a.PagedSafe := by
  have hbytes : a.mem.numBytesPerPage ≠ 0 := by
    rw [hmem]
    show (65536 : UInt32) ≠ 0
    decide
  have hinitEq : a.mem.initPageCount = init := by rw [hmem]
  have hmaxEq : a.mem.maxPageCount = max := by rw [hmem]
  obtain ⟨hok, hfail⟩ := layOut_paged hmem hi hm hflat
  by_cases hfit : init.toNat + a.heapPages ≤ 65536
  · obtain ⟨l, hlay, hl⟩ := hok hfit
    have hsize : a.dataSize l = 65536 * min 65536 (a.pages + a.heapPages) := by
      unfold dataSize pages
      rw [hl.page, toNat_65536]
      split
      · rw [hl.max]
      · rw [hl.init, hinitEq, Nat.min_eq_right hfit]
    rw [sound_iff_of_layOut hlay]
    unfold PagedSafe
    rw [and_iff_right hbytes, hinitEq, forall_prop_of_true hfit, hsize]
    refine and_congr (by omega) ?_
    constructor
    · intro h hpages hheap
      have hsound := h (by omega) (hl.usable_iff.2 hheap)
      exact (hl.sound_iff hmem hi hfit hpages).1 hsound
    · intro h hlt hheap
      have hpages : a.pages + a.heapPages ≤ 65535 := by omega
      exact (hl.sound_iff hmem hi hfit hpages).2 (h hpages (hl.usable_iff.1 hheap))
  · obtain ⟨e, he⟩ := hfail (Nat.lt_of_not_le hfit)
    refine iff_of_true (sound_of_failed he) ⟨hbytes, fun h => absurd h ?_⟩
    rwa [hinitEq]

end Paged

/-! ## All memories -/

/-- A memory that is not there cannot be instantiated: nothing is allocated for it, or its page size divides the heap size. -/
theorem absent_not_sound {a : MemoryArgs} (hmem : a.mem = ⟨0, 0, 0⟩) : ¬ ∀ ans, a.Sound (a.memoryInstantiate ans) := by
  intro h
  by_cases hpos : 0 < a.heap
  · have hbase : a.baseInside = none := by
      unfold baseInside
      rw [hmem, Option.filter_eq_none_iff]
      intro base _ hlt
      exact absurd (of_decide_eq_true hlt) (UInt32.not_lt.2 (UInt32.zero_le))
    have hlay : a.layOut = .error .terminated := by
      unfold layOut
      rw [hmem]
      simp only
      rw [if_neg (by decide), if_pos hpos, hbase]
      exact if_pos trivial
    exact not_sound_of_terminated hlay allSucceed (h allSucceed)
  have hlay : a.layOut = .ok ⟨0, 0, 0, 0, a.heap, none⟩ := by
    unfold layOut
    rw [hmem]
    simp only
    rw [if_neg (by decide), if_neg hpos]
    rfl
  have hempty := ((sound_iff_of_layOut hlay).1 h).1
  unfold dataSize at hempty
  split at hempty <;> exact absurd hempty (Nat.lt_irrefl 0)

/-- Whatever the allocations answer, `memory_instantiate` fails or makes a sound instance, exactly if the memory is safe. -/
theorem memoryInstantiate_sound_iff (a : MemoryArgs) : (∀ ans, a.Sound (a.memoryInstantiate ans)) ↔ a.Safe := by
  unfold Safe
  by_cases hflat : a.mem.initPageCount = 1 ∧ a.mem.maxPageCount = 1
  · rw [if_pos hflat]
    exact flat_iff hflat
  rw [if_neg hflat]
  rcases a.described.eq with ⟨init, max, hmem, hi, hm⟩ | ⟨bytes, hmem⟩ | hmem
  · refine paged_iff hmem hi hm ?_
    rwa [hmem] at hflat
  · rw [hmem] at hflat
    exact absurd ⟨rfl, rfl⟩ hflat
  · refine iff_of_false (absent_not_sound hmem) fun h => h.1 ?_
    rw [hmem]

/-- A memory of no page, without an app heap. -/
def noPage : MemoryArgs := ⟨⟨65536, 0, 1⟩, .declared (by decide) (by decide), 0, false, none, false⟩

/-- A memory of more pages than the limit that the runtime sets. -/
def aboveLimit : MemoryArgs := ⟨⟨65536, 20000, 16384⟩, .declared (by decide) (by decide), 0, false, none, false⟩

/-- A memory of one page with its `__heap_base` above it and an app heap of 8 KiB. -/
def highBase : MemoryArgs := ⟨⟨65536, 1, 1⟩, .flat 65536, 8192, false, some 70000, false⟩

/-- A memory of no page ends the process, one with more pages than the limit is made nevertheless, and the app heap is put below a `__heap_base` that
lies above the memory. -/
theorem instances_not_sound : noPage.memoryInstantiate allSucceed = .error .terminated ∧
    (∃ m, aboveLimit.memoryInstantiate allSucceed = .ok m ∧ m.curPageCount = 20000 ∧ m.maxPageCount = 16384 ∧ ¬ aboveLimit.WellLaidOut m) ∧
    ∃ m, highBase.memoryInstantiate allSucceed = .ok m ∧ m.heapData = m.memoryData + 65536 ∧ ¬ highBase.WellLaidOut m := by
  refine ⟨by decide, ⟨_, rfl, rfl, rfl, ?_⟩, _, rfl, rfl, ?_⟩
  · intro h
    exact absurd h.max (by decide)
  · intro h
    exact absurd ((h.heap (by decide)).2.2.2 70000 rfl) (by decide)

end MemoryArgs

end WamrMigrate.Interp
