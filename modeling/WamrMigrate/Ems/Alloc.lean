import WamrMigrate.Ems.Heap

/-!
# Allocating and freeing

The functions of `ems_alloc.c`, with explicit state passing. Loops and the recursion of `remove_tree_node` take fuel; `none` is a run that did not
end within it, and every caller gives one unit per byte of the heap.
-/

namespace WamrMigrate.Ems

/-- The loop of `remove_tree_node` that goes right from `q` as long as it can; `some none` is a link out of the heap. -/
def rightmost (h : GcHeap) : Nat → Nat → Option (Option Nat)
  | 0, _ => none
  | fuel + 1, q =>
    if h.right q = 0 then some (some q)
    else if ¬hmuIsInHeap h (h.right q) then some none
    else rightmost h fuel (h.right q)

/-- The end of `remove_tree_node` for a node with two children: its predecessor `q`, already taken out of the tree, is put in
its place. -/
def replaceByPred (h : GcHeap) (p slot q : Nat) : Bool × GcHeap :=
  let h₁ := h.setPtr slot q
  let h₂ := h₁.setParent q (h₁.parent p)
  let h₃ := h₂.setLeft q (h₂.left p)
  let h₄ := h₃.setRight q (h₃.right p)
  if h₄.left q ≠ 0 ∧ ¬hmuIsInHeap h₄ (h₄.left q) then (false, h₄.corrupt)
  else
    let h₅ := if h₄.left q ≠ 0 then h₄.setParent (h₄.left q) q else h₄
    if h₅.right q ≠ 0 ∧ ¬hmuIsInHeap h₅ (h₅.right q) then (false, h₅.corrupt)
    else
      let h₆ := if h₅.right q ≠ 0 then h₅.setParent (h₅.right q) q else h₅
      (true, h₆.clearLinks p)

/-- The part of `remove_tree_node` after the slot that holds the pointer to `p` is found; `remove` is the recursive call. -/
def removeAtSlot (remove : GcHeap → Nat → Option (Bool × GcHeap)) (h : GcHeap) (p slot : Nat) : Option (Bool × GcHeap) :=
  if h.left p = 0 then
    -- move the right child up
    let h₁ := h.setPtr slot (h.right p)
    if h₁.right p = 0 then some (true, h₁.clearLinks p)
    else if ¬hmuIsInHeap h₁ (h₁.right p) then some (false, h₁.corrupt)
    else some (true, (h₁.setParent (h₁.right p) (h₁.parent p)).clearLinks p)
  else if h.right p = 0 then
    -- move the left child up
    let h₁ := h.setPtr slot (h.left p)
    if ¬hmuIsInHeap h₁ (h₁.left p) then some (false, h₁.corrupt)
    else some (true, (h₁.setParent (h₁.left p) (h₁.parent p)).clearLinks p)
  else if ¬hmuIsInHeap h (h.left p) then some (false, h.corrupt)
  else
    match rightmost h h.currentSize (h.left p) with
    | none => none
    | some none => some (false, h.corrupt)
    | some (some q) =>
      match remove h q with
      | none => none
      | some (false, h₁) => some (false, h₁)
      | some (true, h₁) => some (replaceByPred h₁ p slot q)

/-- `remove_tree_node`. -/
def removeTreeNode : Nat → GcHeap → Nat → Option (Bool × GcHeap)
  | 0, _, _ => none
  | fuel + 1, h, p =>
    let parent := h.parent p
    if parent = 0 ∨ p = h.kfcTreeRoot ∨ ¬hmuIsInHeap h p ∨ (parent ≠ h.kfcTreeRoot ∧ ¬hmuIsInHeap h parent) then
      some (false, h.corrupt)
    else if p = h.right parent then removeAtSlot (removeTreeNode fuel) h p (parent + 16)
    else if p = h.left parent then removeAtSlot (removeTreeNode fuel) h p (parent + 8)
    else some (false, h.corrupt)

/-- The loop of `unlink_hmu` over a normal list, at `node` with `prev` before it. A node that is not in the list is only
reported. -/
def unlinkNormal (idx hmu : Nat) : Nat → GcHeap → Nat → Nat → Option (Bool × GcHeap)
  | 0, _, _, _ => none
  | fuel + 1, h, prev, node =>
    if node = 0 then some (true, h)
    else if ¬hmuIsInHeap h node then some (false, h.corrupt)
    else
      let next := getHmuNormalNodeNext h.mem node
      if node = hmu then
        if prev = 0 then some (true, h.setNormalList idx next)
        else some (true, { h with mem := setHmuNormalNodeNext h.mem prev next })
      else unlinkNormal idx hmu fuel h node next

/-- `unlink_hmu`. -/
def unlinkHmu (h : GcHeap) (hmu : Nat) : Option (Bool × GcHeap) :=
  if hmuGetUt (h.header hmu) ≠ hmuFC then some (false, h.corrupt)
  else
    let size := hmuGetSize (h.header hmu)
    if hmuIsFcNormal size then unlinkNormal (size / 8) hmu h.currentSize h 0 (h.kfcNormalList (size / 8))
    else removeTreeNode h.currentSize h hmu

/-- The loop of `gci_add_fc` that goes down the tree from `tp` and links `node` below the last node on the path. -/
def linkTreeNode (size node : Nat) : Nat → GcHeap → Nat → Option (Bool × GcHeap)
  | 0, _, _ => none
  | fuel + 1, h, tp =>
    let child := if h.size tp < size then h.right tp else h.left tp
    if child = 0 then
      let h₁ := if h.size tp < size then h.setRight tp node else h.setLeft tp node
      some (true, h₁.setParent node tp)
    else if ¬hmuIsInHeap h child then some (false, h.corrupt)
    else linkTreeNode size node fuel h child

/-- The part of `gci_add_fc` that enters a free chunk, with its header and footer written, into the lists or the tree. -/
def linkFc (h : GcHeap) (hmu size : Nat) : Option (Bool × GcHeap) :=
  if hmuIsFcNormal size then
    if ¬hmuIsInHeap h hmu then some (false, h.corrupt)
    else some (true, { h with mem := setHmuNormalNodeNext h.mem hmu (h.kfcNormalList (size / 8)) }.setNormalList (size / 8) hmu)
  else
    linkTreeNode size hmu (h.currentSize + 1) ((h.setSize hmu size).clearLinks hmu) h.kfcTreeRoot

/-- `gci_add_fc`. -/
def gciAddFc (h : GcHeap) (hmu size : Nat) : Option (Bool × GcHeap) :=
  let h₁ := h.setHeader hmu (hmuSetUt (h.header hmu) hmuFC)
  let h₂ := h₁.setHeader hmu (hmuSetSize (h₁.header hmu) size)
  linkFc (hmuSetFreeSize h₂ hmu) hmu size

/-- The loop of `alloc_hmu` for the first normal list from `idx` on that is not empty; `n` lists are left. -/
def firstNormal (heads : Nat → Nat) : Nat → Nat → Option Nat
  | 0, _ => none
  | n + 1, idx => if heads idx ≠ 0 then some idx else firstNormal heads n (idx + 1)

/-- The loop of `alloc_hmu` for the best node of the tree: `tp` is the node looked at, `last` the last one that was large
enough; `some none` is a link out of the heap. -/
def bestTreeNode (h : GcHeap) (size : Nat) : Nat → Nat → Nat → Option (Option Nat)
  | 0, _, _ => none
  | fuel + 1, tp, last =>
    if tp = 0 then some (some last)
    else if ¬hmuIsInHeap h tp then some none
    else if h.size tp < size then bestTreeNode h size fuel (h.right tp) last
    else bestTreeNode h size fuel (h.left tp) tp

/-- The accounting of `alloc_hmu` for a chunk of `size` bytes. -/
def accountAlloc (h : GcHeap) (size : Nat) : GcHeap :=
  let total := sub32 h.totalFreeSize size
  let inUse := sub32 h.currentSize total
  { h with totalFreeSize := total, highmarkSize := if inUse > h.highmarkSize then inUse else h.highmarkSize }

/-- The end of `alloc_hmu`, the same for a chunk `p` of `avail` bytes from a list and from the tree: what is left over after
`size` bytes is a free chunk again when it is large enough. (For a list the source also asks that it is not the first one
looked at, whose chunks have exactly `size` bytes.) -/
def splitHmu (h : GcHeap) (p avail size : Nat) : Option (Nat × GcHeap) :=
  if add32 size gcSmallestSize ≤ avail then
    match gciAddFc h (p + size) (avail - size) with
    | none => none
    | some (false, h₁) => some (0, h₁)
    | some (true, h₁) =>
      let h₂ := h₁.setHeader (p + size) (hmuMarkPinuse (h₁.header (p + size)))
      let h₃ := accountAlloc h₂ size
      some (p, h₃.setHeader p (hmuSetSize (h₃.header p) size))
  else
    let next := p + avail
    let h₂ := if hmuIsInHeap h next then h.setHeader next (hmuMarkPinuse (h.header next)) else h
    let h₃ := accountAlloc h₂ avail
    some (p, h₃.setHeader p (hmuSetSize (h₃.header p) avail))

/-- The part of `alloc_hmu` that looks in the tree. -/
def allocHmuTree (h : GcHeap) (size : Nat) : Option (Nat × GcHeap) :=
  match bestTreeNode h size (h.currentSize + 1) (h.right h.kfcTreeRoot) 0 with
  | none => none
  | some none => some (0, h.corrupt)
  | some (some last) =>
    if last = 0 then some (0, h)
    else
      match removeTreeNode h.currentSize h last with
      | none => none
      | some (false, h₁) => some (0, h₁)
      | some (true, h₁) => splitHmu h₁ last (h₁.size last) size

/-- `alloc_hmu`. -/
def allocHmu (h : GcHeap) (size : Nat) : Option (Nat × GcHeap) :=
  let size := if size < gcSmallestSize then gcSmallestSize else size
  if hmuIsFcNormal size then
    match firstNormal h.kfcNormalList (hmuNormalNodeCnt - size / 8) (size / 8) with
    | some idx =>
      let p := h.kfcNormalList idx
      if ¬hmuIsInHeap h p then some (0, h.corrupt)
      else
        let h₁ := h.setNormalList idx (getHmuNormalNodeNext h.mem p)
        if (p + hmuSize) % 8 ≠ 0 then some (0, h₁.corrupt)
        else splitHmu h₁ p (idx * 8) size
    | none => allocHmuTree h size
  else allocHmuTree h size

/-- `hmu_set_ut(hmu, HMU_VO); hmu_unfree_vo(hmu)`. -/
def markVo (h : GcHeap) (hmu : Nat) : GcHeap :=
  let h₁ := h.setHeader hmu (hmuSetUt (h.header hmu) hmuVO)
  h₁.setHeader hmu (hmuUnfreeVo (h₁.header hmu))

/-- `gc_alloc_vo`. -/
def gcAllocVo (h : GcHeap) (size : UInt32) : Option (Nat × GcHeap) :=
  let totSizeUnaligned := add32 hmuSize size.toNat
  let totSize := gcAlign8 totSizeUnaligned
  if totSize < size.toNat then some (0, h)
  else if h.isHeapCorrupted then some (0, h)
  else
    match allocHmu h totSize with
    | none => none
    | some (hmu, h₁) =>
      if hmu = 0 then some (0, h₁)
      else
        let totSize := hmuGetSize (h₁.header hmu)
        let h₂ := markVo h₁ hmu
        let ret := hmu + hmuSize
        if totSize > totSizeUnaligned then
          some (ret, h₂.clear (ret + size.toNat) (totSize - totSizeUnaligned))
        else some (ret, h₂)

/-- The part of `gc_free_vo` that takes the free chunk before `hmu` into the chunk being freed: the start and the size of the
chunk so far. -/
def mergePrev (h : GcHeap) (hmu size : Nat) : Option (Bool × GcHeap × Nat × Nat) :=
  if hmuGetPinuse (h.header hmu) then some (true, h, hmu, size)
  else
    let prev := ptrAdd hmu (-int32 (h.mem.load (hmu - 4) 4))
    if hmuIsInHeap h prev ∧ hmuGetUt (h.header prev) = hmuFC then
      match unlinkHmu h prev with
      | none => none
      | some (ok, h₁) => some (ok, h₁, prev, add32 size (hmuGetSize (h.header prev)))
    else some (true, h, hmu, size)

/-- The part of `gc_free_vo` that takes in the free chunk after it: the size of the chunk so far. -/
def mergeNext (h : GcHeap) (hmu size : Nat) : Option (Bool × GcHeap × Nat) :=
  let next := hmu + size
  if hmuIsInHeap h next ∧ hmuGetUt (h.header next) = hmuFC then
    match unlinkHmu h next with
    | none => none
    | some (ok, h₁) => some (ok, h₁, add32 size (hmuGetSize (h.header next)))
  else some (true, h, size)

/-- `gc_free_vo`: 0 is `GC_SUCCESS` and -1 is `GC_ERROR`. -/
def gcFreeVo (h : GcHeap) (obj : Nat) : Option (Int × GcHeap) :=
  if obj = 0 then some (0, h)
  else if h.isHeapCorrupted then some (-1, h)
  else
    let hmu := obj - hmuSize
    if ¬hmuIsInHeap h hmu then some (0, h)
    else if hmuGetUt (h.header hmu) ≠ hmuVO then some (-1, h)
    else if hmuIsVoFreed (h.header hmu) then some (-1, h)
    else
      let size := hmuGetSize (h.header hmu)
      let h₀ := { h with totalFreeSize := add32 h.totalFreeSize size }
      match mergePrev h₀ hmu size with
      | none => none
      | some (false, h₁, _) => some (-1, h₁)
      | some (true, h₁, start, size₁) =>
        match mergeNext h₁ start size₁ with
        | none => none
        | some (false, h₂, _) => some (-1, h₂)
        | some (true, h₂, size₂) =>
          match gciAddFc h₂ start size₂ with
          | none => none
          | some (false, h₃) => some (-1, h₃)
          | some (true, h₃) =>
            let next := start + size₂
            if hmuIsInHeap h₃ next then some (0, h₃.setHeader next (hmuUnmarkPinuse (h₃.header next)))
            else some (0, h₃)

/-- The path of `gc_realloc_vo` that grows the object into the free chunk after it. -/
def growInPlace (h : GcHeap) (hmuOld next totSize totSizeOld totSizeNext : Nat) : Option (Nat × GcHeap) :=
  match unlinkHmu h next with
  | none => none
  | some (false, h₁) => some (0, h₁)
  | some (true, h₁) =>
    let h₂ := h₁.setHeader hmuOld (hmuSetSize (h₁.header hmuOld) totSize)
    let h₃ := h₂.clear (hmuOld + totSizeOld) (totSize - totSizeOld)
    if totSize < add32 totSizeOld totSizeNext then
      match gciAddFc h₃ (hmuOld + totSize) (sub32 (add32 totSizeOld totSizeNext) totSize) with
      | none => none
      | some (false, h₄) => some (0, h₄)
      | some (true, h₄) => some (hmuOld + hmuSize, h₄)
    else some (hmuOld + hmuSize, h₃)

/-- The path of `gc_realloc_vo` that allocates, copies and frees; `objOld` is 0 when there is no old object. -/
def allocCopyFree (h : GcHeap) (objOld totSize totSizeOld : Nat) : Option (Nat × GcHeap) :=
  match allocHmu h totSize with
  | none => none
  | some (hmu, h₁) =>
    if hmu = 0 then some (0, h₁)
    else
      let totSize := hmuGetSize (h₁.header hmu)
      let ret := hmu + hmuSize
      let objSize := sub32 totSize hmuSize
      let h₂ := (markVo h₁ hmu).clear ret objSize
      if objOld = 0 then some (ret, h₂)
      else
        let objSizeOld := sub32 totSizeOld hmuSize
        -- bh_memcpy_s copies nothing when the source does not fit or the destination is larger than RSIZE_MAX
        let h₃ := if objSizeOld ≤ objSize ∧ objSize ≤ 0x7FFFFFFF then
          { h₂ with mem := h₂.mem.copy ret objOld objSizeOld } else h₂
        match gcFreeVo h₃ objOld with
        | none => none
        | some (_, h₄) => some (ret, h₄)

/-- `gc_realloc_vo`. -/
def gcReallocVo (h : GcHeap) (ptr : Nat) (size : UInt32) : Option (Nat × GcHeap) :=
  let totSize := gcAlign8 (add32 hmuSize size.toNat)
  if totSize < size.toNat then some (0, h)
  else if h.isHeapCorrupted then some (0, h)
  else if ptr = 0 then allocCopyFree h 0 totSize 0
  else
    let hmuOld := ptr - hmuSize
    let totSizeOld := hmuGetSize (h.header hmuOld)
    if totSize ≤ totSizeOld then some (ptr, h)
    else
      let next := hmuOld + totSizeOld
      if hmuIsInHeap h next ∧ hmuGetUt (h.header next) = hmuFC
          ∧ totSize ≤ add32 totSizeOld (hmuGetSize (h.header next)) then
        growInPlace h hmuOld next totSize totSizeOld (hmuGetSize (h.header next))
      else allocCopyFree h ptr totSize totSizeOld

end WamrMigrate.Ems
