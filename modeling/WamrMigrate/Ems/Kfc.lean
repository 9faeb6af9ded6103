import WamrMigrate.Ems.Heap

/-!
# Setting up and moving a heap

The functions of `ems_kfc.c`. A heap is set up at the start of its own buffer or in a structure apart from its pool; `gc_migrate` is called after
the bytes of the pool have been copied elsewhere. The sizes are those of a 64-bit build: the lock takes 40 bytes, so the root of the tree stands 320
bytes into the structure. Setting up the lock is taken to succeed.
-/

namespace WamrMigrate.Ems

/-- `sizeof(gc_heap_t)`. -/
def gcHeapStructSize : Nat := 368

/-- The offset of `kfc_tree_root` in `gc_heap_t`. -/
def kfcTreeRootOffset : Nat := 320

/-- `sizeof(hmu_tree_node_t)`. -/
def treeNodeSize : Nat := 32

/-- `APP_HEAP_SIZE_MIN`. -/
def appHeapSizeMin : Nat := 256

/-- An address rounded up to a multiple of 8. -/
def alignPtr8 (p : Nat) : Nat := (p + 7) / 8 * 8

/-- `(uint32)(end - start) & (uint32)~7`. -/
def poolSize (start finish : Nat) : Nat := (((finish : Int) - start) % 2 ^ 32).toNat / 8 * 8

/-- `gc_init_internal`, for a structure at `heap`. -/
def gcInitInternal (mem : Mem) (heap baseAddr heapMaxSize : Nat) : GcHeap :=
  let root := heap + kfcTreeRootOffset
  let q := baseAddr
  let h₀ : GcHeap :=
    { mem := (mem.fill heap gcHeapStructSize 0).fill baseAddr heapMaxSize 0
      baseAddr := baseAddr
      currentSize := heapMaxSize
      kfcNormalList := fun _ => 0
      kfcTreeRoot := root
      isHeapCorrupted := false
      highmarkSize := 0
      totalFreeSize := heapMaxSize }
  let h₁ := (h₀.clear root treeNodeSize).setSize root treeNodeSize
  let h₂ := h₁.setHeader root (hmuSetUt (h₁.header root) hmuFC)
  let h₃ := h₂.setHeader root (hmuSetSize (h₂.header root) treeNodeSize)
  let h₄ := h₃.clear q treeNodeSize
  let h₅ := h₄.setHeader q (hmuSetUt (h₄.header q) hmuFC)
  let h₆ := h₅.setHeader q (hmuSetSize (h₅.header q) heapMaxSize)
  let h₇ := h₆.setHeader q (hmuMarkPinuse (h₆.header q))
  ((h₇.setRight root q).setParent q root).setSize q heapMaxSize

/-- The address of the pool that `gc_init_with_pool` sets up in `buf`. -/
def poolBase (buf : Nat) : Nat := alignPtr8 (alignPtr8 buf + gcHeapStructSize) + gcHeadPadding

/-- `gc_init_with_pool`. -/
def gcInitWithPool (mem : Mem) (buf : Nat) (bufSize : UInt32) : Option GcHeap :=
  if bufSize.toNat < appHeapSizeMin then none
  else
    some (gcInitInternal mem (alignPtr8 buf) (poolBase buf) (poolSize (poolBase buf) (buf + bufSize.toNat)))

/-- `gc_init_with_struct_and_pool`; the size of the structure is checked against the size of a pointer only. -/
def gcInitWithStructAndPool (mem : Mem) (structBuf : Nat) (structBufSize : UInt32) (poolBuf : Nat)
    (poolBufSize : UInt32) : Option GcHeap :=
  if structBuf % 8 ≠ 0 then none
  else if structBufSize.toNat < 8 then none
  else if poolBuf % 8 ≠ 0 then none
  else if poolBufSize.toNat < appHeapSizeMin then none
  else
    let baseAddr := poolBuf + gcHeadPadding
    some (gcInitInternal mem structBuf baseAddr (poolSize baseAddr (poolBuf + poolBufSize.toNat)))

/-- `adjust_ptr`, for the pointer in `slot`. -/
def adjustPtr (h : GcHeap) (slot : Nat) (offset : Int) : GcHeap :=
  let p := h.mem.load slot 8
  if p = 0 then h else h.setPtr slot (ptrAdd p offset)

/-- The body of the loop of `gc_migrate` for a node of the tree. -/
def adjustNode (h : GcHeap) (node : Nat) (offset : Int) : GcHeap :=
  let h₁ := adjustPtr h (node + 8) offset
  let h₂ := adjustPtr h₁ (node + 16) offset
  -- the root belongs to the heap structure, which does not move
  if h₂.parent node ≠ h₂.kfcTreeRoot then adjustPtr h₂ (node + 24) offset else h₂

/-- The loop of `gc_migrate` over the chunks from `cur` on. -/
def migrateChunks (offset : Int) : Nat → GcHeap → Nat → Option GcHeap
  | 0, _, _ => none
  | fuel + 1, h, cur =>
    if cur < h.baseAddr + h.currentSize then
      let size := hmuGetSize (h.header cur)
      let h₁ := if hmuGetUt (h.header cur) = hmuFC ∧ ¬hmuIsFcNormal size then adjustNode h cur offset else h
      migrateChunks offset fuel h₁ (cur + size)
    else some h

/-- `gc_migrate`: 0 is success and -1 is `GC_ERROR`. -/
def gcMigrate (h : GcHeap) (poolBufNew : Nat) (poolBufSize : UInt32) : Option (Int × GcHeap) :=
  let baseAddrNew := poolBufNew + gcHeadPadding
  let poolBufEnd := poolBufNew + poolBufSize.toNat
  let offset := (baseAddrNew : Int) - h.baseAddr
  if poolBufNew % 8 ≠ 0 then some (-1, h)
  else if poolBufEnd < baseAddrNew ∨ poolSize baseAddrNew poolBufEnd < h.currentSize then some (-1, h)
  else if offset = 0 then some (0, h)
  else
    let h₁ := { h with baseAddr := baseAddrNew }
    let h₂ := adjustPtr h₁ (h.kfcTreeRoot + 8) offset
    let h₃ := adjustPtr h₂ (h.kfcTreeRoot + 16) offset
    let h₄ := adjustPtr h₃ (h.kfcTreeRoot + 24) offset
    match migrateChunks offset (h.currentSize + 1) h₄ baseAddrNew with
    | none => none
    | some h₅ => some (0, h₅)

end WamrMigrate.Ems
