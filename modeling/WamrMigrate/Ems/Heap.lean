import WamrMigrate.Lib.Bytes
import WamrMigrate.Ems.Hmu

/-!
# The heap structure and the nodes of its free chunks

`GcHeap` is `gc_heap_t` with the memory it manages. A free chunk of less than `hmuFcNormalMaxSize` bytes is a node of a normal list, whose links are
relative offsets, and a larger one a node of the tree, whose links are addresses. The root of the tree is a node inside the heap structure and never
removed; it is kept in the memory at `kfcTreeRoot`, so that a link to it reads like any other. The lock, the handle for double checking and the
counters that are only printed are left out.
-/

namespace WamrMigrate.Ems

/-- Addition of two `uint32`. -/
def add32 (a b : Nat) : Nat := (a + b) % 2 ^ 32

/-- Subtraction of two `uint32`. -/
def sub32 (a b : Nat) : Nat := (a + (2 ^ 32 - b % 2 ^ 32)) % 2 ^ 32

theorem add32_eq {a b : Nat} (h : a + b < 2 ^ 32) : add32 a b = a + b := Nat.mod_eq_of_lt h

theorem sub32_eq {a b : Nat} (hb : b ≤ a) (ha : a < 2 ^ 32) : sub32 a b = a - b := by
  unfold sub32
  omega

/-- The `int32` with the given bits. -/
def int32 (n : Nat) : Int := if n < 2 ^ 31 then n else n - 2 ^ 32

/-- A pointer moved by a signed distance. -/
def ptrAdd (p : Nat) (d : Int) : Nat := ((p + d) % 2 ^ 64).toNat

/-- `GC_ALIGN_8`. -/
def gcAlign8 (s : Nat) : Nat := add32 s 7 / 8 * 8

/-- `GC_SMALLEST_SIZE`. -/
def gcSmallestSize : Nat := gcAlign8 (hmuSize + 8)

/-- `HMU_NORMAL_NODE_CNT`. -/
def hmuNormalNodeCnt : Nat := 32

/-- `HMU_FC_NORMAL_MAX_SIZE`. -/
def hmuFcNormalMaxSize : Nat := (hmuNormalNodeCnt - 1) * 8

/-- `gc_heap_t`, with the memory it lives in. -/
structure GcHeap where
  mem : Mem
  baseAddr : Nat
  currentSize : Nat
  /-- The first node of each normal list, 0 when the list is empty. -/
  kfcNormalList : Nat → Nat
  /-- The address of the root node of the tree. -/
  kfcTreeRoot : Nat
  isHeapCorrupted : Bool
  highmarkSize : Nat
  totalFreeSize : Nat

namespace GcHeap

/-- `heap->is_heap_corrupted = true`. -/
def corrupt (h : GcHeap) : GcHeap := { h with isHeapCorrupted := true }

/-- `hmu->header`. -/
def header (h : GcHeap) (hmu : Nat) : BitVec 32 := BitVec.ofNat 32 (h.mem.load hmu 4)

/-- `hmu->header = v`. -/
def setHeader (h : GcHeap) (hmu : Nat) (v : BitVec 32) : GcHeap := { h with mem := h.mem.store hmu 4 v.toNat }

/-- `tree_node->size`. -/
def size (h : GcHeap) (p : Nat) : Nat := h.mem.load (p + 4) 4

/-- `tree_node->left`. -/
def left (h : GcHeap) (p : Nat) : Nat := h.mem.load (p + 8) 8

/-- `tree_node->right`. -/
def right (h : GcHeap) (p : Nat) : Nat := h.mem.load (p + 16) 8

/-- `tree_node->parent`. -/
def parent (h : GcHeap) (p : Nat) : Nat := h.mem.load (p + 24) 8

/-- `tree_node->size = n`. -/
def setSize (h : GcHeap) (p n : Nat) : GcHeap := { h with mem := h.mem.store (p + 4) 4 n }

/-- `*slot = v`, for a slot that holds a pointer. -/
def setPtr (h : GcHeap) (slot v : Nat) : GcHeap := { h with mem := h.mem.store slot 8 v }

/-- `tree_node->left = v`. -/
def setLeft (h : GcHeap) (p v : Nat) : GcHeap := h.setPtr (p + 8) v

/-- `tree_node->right = v`. -/
def setRight (h : GcHeap) (p v : Nat) : GcHeap := h.setPtr (p + 16) v

/-- `tree_node->parent = v`. -/
def setParent (h : GcHeap) (p v : Nat) : GcHeap := h.setPtr (p + 24) v

/-- `p->left = p->right = p->parent = NULL`. -/
def clearLinks (h : GcHeap) (p : Nat) : GcHeap := ((h.setParent p 0).setRight p 0).setLeft p 0

/-- `heap->kfc_normal_list[idx].next = p`. -/
def setNormalList (h : GcHeap) (idx p : Nat) : GcHeap :=
  { h with kfcNormalList := fun i => if i = idx then p else h.kfcNormalList i }

/-- `memset(a, 0, n)`. -/
def clear (h : GcHeap) (a n : Nat) : GcHeap := { h with mem := h.mem.fill a n 0 }

end GcHeap

/-- `hmu_is_in_heap`. -/
def hmuIsInHeap (h : GcHeap) (hmu : Nat) : Prop := h.baseAddr ≤ hmu ∧ hmu < h.baseAddr + h.currentSize

instance (h : GcHeap) (hmu : Nat) : Decidable (hmuIsInHeap h hmu) := inferInstanceAs (Decidable (_ ∧ _))

/-- `HMU_IS_FC_NORMAL`. -/
def hmuIsFcNormal (size : Nat) : Prop := size < hmuFcNormalMaxSize

instance (size : Nat) : Decidable (hmuIsFcNormal size) := inferInstanceAs (Decidable (_ < _))

/-- `get_hmu_normal_node_next`. -/
def getHmuNormalNodeNext (m : Mem) (node : Nat) : Nat :=
  let nextOffset := m.load (node + 4) 4
  if nextOffset = 0 then 0 else ptrAdd node (int32 nextOffset)

/-- `set_hmu_normal_node_next`. -/
def setHmuNormalNodeNext (m : Mem) (node next : Nat) : Mem :=
  m.store (node + 4) 4 (if next = 0 then 0 else (((next : Int) - node) % 2 ^ 32).toNat)

/-- `hmu_set_free_size`: the size of a free chunk is repeated in its last four bytes. -/
def hmuSetFreeSize (h : GcHeap) (hmu : Nat) : GcHeap :=
  let size := hmuGetSize (h.header hmu)
  { h with mem := h.mem.store (hmu + size - 4) 4 size }

end WamrMigrate.Ems
