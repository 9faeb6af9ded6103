import WamrMigrate.Ems.FreeSpec
import WamrMigrate.Ems.Kfc

/-!
# Whole runs of a heap

A session is a heap with the objects handed out and not yet freed. It starts with a heap set up in a large enough buffer (`SetUp`) and goes on with
allocations, frees of live objects and writes inside them (`Session.Step`). In every session reached the heap is well formed, the objects handed out
are those of the heap, every allocation gives an answer and every free of a live object succeeds.
-/

namespace WamrMigrate.Ems

open SizeTree Tiles

/-! ## Setting up -/

/-- The abstract heap of a pool that is one free chunk, without a footer. -/
def Arena.fresh (size : Nat) : Arena := ⟨[⟨size, false, false⟩], ⟨fun _ => [], node leaf 0 size leaf⟩⟩

theorem Arena.fresh_wf {size : Nat} (h8 : size % 8 = 0) (h : 248 ≤ size) : (Arena.fresh size).WF := by
  have hfree : ∀ o n, FreeIn 0 (Arena.fresh size).chunks o n ↔ o = 0 ∧ size = n := by
    intro o n
    simp [Arena.fresh, freeIn_cons, freeIn_nil]
  refine ⟨?_, ⟨?_, ?_, ?_, ?_, ?_⟩, ?_⟩
  · intro c hc
    rw [List.mem_singleton.1 hc]
    exact ⟨h8, by simp only; omega⟩
  · intro i o
    rw [hfree]
    refine ⟨fun hm => absurd hm List.not_mem_nil, fun hm => ?_⟩
    omega
  · intro o n
    rw [hfree]
    simp only [Arena.fresh, entries_node, entries_leaf, List.nil_append, List.mem_singleton, Prod.mk.injEq]
    omega
  · exact fun _ => List.nodup_nil
  · simp [Arena.fresh]
  · simp [Arena.fresh, Ordered]
  · intro c hc _ _
    rw [List.mem_singleton.1 hc]
    rfl

section Init
variable {mem : Mem} {heap base size : Nat}

/-- The heap that `gc_init_internal` leaves, before the first chunk is written: only the root is set up. -/
def initRoot (mem : Mem) (heap base size : Nat) : GcHeap :=
  let root := heap + kfcTreeRootOffset
  let h₀ : GcHeap :=
    { mem := (mem.fill heap gcHeapStructSize 0).fill base size 0, baseAddr := base, currentSize := size,
      kfcNormalList := fun _ => 0, kfcTreeRoot := root, isHeapCorrupted := false, highmarkSize := 0, totalFreeSize := size }
  let h₁ := (h₀.clear root treeNodeSize).setSize root treeNodeSize
  let h₂ := h₁.setHeader root (hmuSetUt (h₁.header root) hmuFC)
  h₂.setHeader root (hmuSetSize (h₂.header root) treeNodeSize)

/-- The first chunk and its place below the root. -/
def initChunk (h : GcHeap) (root base size : Nat) : GcHeap :=
  let h₄ := h.clear base treeNodeSize
  let h₅ := h₄.setHeader base (hmuSetUt (h₄.header base) hmuFC)
  let h₆ := h₅.setHeader base (hmuSetSize (h₅.header base) size)
  let h₇ := h₆.setHeader base (hmuMarkPinuse (h₆.header base))
  ((h₇.setRight root base).setParent base root).setSize base size

theorem gcInitInternal_eq (mem : Mem) (heap base size : Nat) :
    gcInitInternal mem heap base size = initChunk (initRoot mem heap base size) (heap + 320) base size := rfl

theorem load_initRoot :
    let m := (initRoot mem heap base size).mem
    m.load (heap + 320 + 4) 4 = 32 ∧ m.load (heap + 320 + 8) 8 = 0 ∧ m.load (heap + 320 + 24) 8 = 0 := by
  simp only [initRoot, GcHeap.setHeader, GcHeap.setSize, GcHeap.clear, kfcTreeRootOffset, treeNodeSize]
  refine ⟨?_, ?_, ?_⟩
  · rw [Mem.load_store_of_disjoint (by omega), Mem.load_store_of_disjoint (by omega), Mem.load_store_of_lt (by norm_num)]
  · rw [Mem.load_store_of_disjoint (by omega), Mem.load_store_of_disjoint (by omega), Mem.load_store_of_disjoint (by omega),
      Mem.load_fill_zero (by omega) (by omega)]
  · rw [Mem.load_store_of_disjoint (by omega), Mem.load_store_of_disjoint (by omega), Mem.load_store_of_disjoint (by omega),
      Mem.load_fill_zero (by omega) (by omega)]

/-- What `initChunk` writes last does not touch the first header. -/
theorem header_initChunk {h : GcHeap} {root : Nat} (hd : root + 32 ≤ base ∨ base + 4 ≤ root) : (initChunk h root base size).header base =
      hmuMarkPinuse (hmuSetSize (hmuSetUt ((h.clear base treeNodeSize).header base) hmuFC) size) := by
  have hlast : ∀ h₇ : GcHeap, (((h₇.setRight root base).setParent base root).setSize base size).header base =
      h₇.header base := fun h₇ =>
    header_congr (((Mem.eqOn_store (by omega)).store (by omega)).store (by omega))
  simp only [initChunk, hlast, header_setHeader]

theorem hdrAt_initChunk {h : GcHeap} {root : Nat} (h8 : size % 8 = 0) (hlt : size < 2 ^ 30) (h248 : 248 ≤ size)
    (hd : root + 32 ≤ base ∨ base + size ≤ root) : HdrAt (initChunk h root base size) base true ⟨size, false, false⟩ := by
  have hFC : (hmuFC : BitVec 32) = hmuVO ∨ (hmuFC : BitVec 32) = hmuFC := Or.inr rfl
  have hhdr : (initChunk h root base size).header base = _ := header_initChunk (hd.imp_right fun hd => by omega)
  constructor
  · rw [hhdr, hmuGetSize_hmuMarkPinuse, hmuGetSize_hmuSetSize hlt h8]
  · rw [hhdr, hmuGetUt_hmuMarkPinuse, hmuGetUt_hmuSetSize hlt, hmuGetUt_hmuSetUt hFC]
    rfl
  · rw [hhdr, hmuGetPinuse_hmuMarkPinuse]
  · exact fun hu => nomatch hu
  · exact fun _ hst => nomatch hst

theorem treeAt_initChunk {h : GcHeap} {root : Nat} (hlt : size < 2 ^ 30) (h248 : 248 ≤ size)
    (hd : root + 32 ≤ base ∨ base + size ≤ root) (hbase : 0 < base ∧ base < 2 ^ 64) (hroot : root ≠ 0 ∧ root < 2 ^ 64)
    (hsize : h.mem.load (root + 4) 4 = 32) (hleft : h.mem.load (root + 8) 8 = 0) (hparent : h.mem.load (root + 24) 8 = 0) :
    TreeAt (initChunk h root base size).mem (node leaf root 32 (node leaf base size leaf)) root 0 := by
  simp only [initChunk, GcHeap.setRight, GcHeap.setParent, GcHeap.setPtr, GcHeap.setSize, GcHeap.setHeader, GcHeap.clear,
    treeNodeSize]
  generalize (hmuSetUt _ hmuFC).toNat = v₅
  generalize (hmuSetSize _ size).toNat = v₆
  generalize (hmuMarkPinuse _).toNat = v₇
  have hb64 : base < 256 ^ 8 := by norm_num; exact hbase.2
  have hr64 : root < 256 ^ 8 := by norm_num; exact hroot.2
  have hs32 : size < 256 ^ 4 := by norm_num; omega
  refine ⟨rfl, hroot.1, ?_, ?_, ?_, ?_⟩
  · simp (disch := omega) only [Mem.load_store_of_disjoint, Mem.load_fill_of_disjoint, hsize]
  · simp (disch := omega) only [Mem.load_store_of_disjoint, Mem.load_fill_of_disjoint, hparent]
  · show Mem.load _ _ _ = 0
    simp (disch := omega) only [Mem.load_store_of_disjoint, Mem.load_fill_of_disjoint, hleft]
  refine ⟨?_, by omega, Mem.load_store_of_lt hs32, ?_, ?_, ?_⟩
  · simp (disch := omega) only [Mem.load_store_of_disjoint, Mem.load_store_of_lt hb64]
  · simp (disch := omega) only [Mem.load_store_of_disjoint, Mem.load_store_of_lt hr64]
  · show Mem.load _ _ _ = 0
    simp (disch := omega) only [Mem.load_store_of_disjoint, Mem.load_fill_zero]
  · show Mem.load _ _ _ = 0
    simp (disch := omega) only [Mem.load_store_of_disjoint, Mem.load_fill_zero]

theorem gcInitInternal_repr (hb : base % 8 = 4) (h8 : size % 8 = 0) (hlt : size < 2 ^ 30) (h248 : 248 ≤ size)
    (hend : base + size ≤ 2 ^ 64) (hheap : heap + gcHeapStructSize ≤ 2 ^ 64) (hd : heap + gcHeapStructSize ≤ base ∨ base + size ≤ heap) :
    Repr (gcInitInternal mem heap base size) (Arena.fresh size) := by
  unfold gcHeapStructSize at hheap hd
  obtain ⟨hsize, hleft, hparent⟩ := @load_initRoot mem heap base size
  have hhdr : HdrAt (initChunk (initRoot mem heap base size) (heap + 320) base size) base true ⟨size, false, false⟩ :=
    hdrAt_initChunk h8 hlt h248 (by omega)
  have htree : TreeAt (initChunk (initRoot mem heap base size) (heap + 320) base size).mem
      (node leaf (heap + 320) 32 (node leaf base size leaf)) (heap + 320) 0 :=
    treeAt_initChunk hlt h248 (by omega) (by omega) (by omega) hsize hleft hparent
  rw [← gcInitInternal_eq] at hhdr htree
  have hroot : (gcInitInternal mem heap base size).kfcTreeRoot = heap + 320 := rfl
  refine ⟨⟨hb, hlt, hend, ?_, ?_, ?_⟩, rfl, Arena.fresh_wf h8 h248, ⟨hhdr, trivial⟩, ?_, ⟨?_, htree⟩, ?_⟩
  · rw [hroot]
    omega
  · rw [hroot]
    omega
  · rw [hroot]
    show heap + 320 + 32 ≤ base ∨ base + size ≤ heap + 320
    omega
  · exact Nat.add_zero size
  · intro i
    rfl
  · exact (Nat.add_zero size).symm

end Init

/-- A heap just set up in a buffer that has room for the structure and 248 bytes more, and less than 1 GiB, which is the most a
header can count. -/
inductive SetUp : GcHeap → Prop
  | pool {mem : Mem} {buf : Nat} {bufSize : UInt32} {h : GcHeap} (init : gcInitWithPool mem buf bufSize = some h)
      (room : poolBase buf + 248 ≤ buf + bufSize.toNat) (addressable : buf + bufSize.toNat ≤ 2 ^ 64)
      (small : h.currentSize < 2 ^ 30) : SetUp h
  | structAndPool {mem : Mem} {structBuf poolBuf : Nat} {structBufSize poolBufSize : UInt32} {h : GcHeap}
      (init : gcInitWithStructAndPool mem structBuf structBufSize poolBuf poolBufSize = some h)
      (room : gcHeapStructSize ≤ structBufSize.toNat)
      (apart : structBuf + structBufSize.toNat ≤ poolBuf ∨ poolBuf + poolBufSize.toNat ≤ structBuf)
      (addressable : structBuf + structBufSize.toNat ≤ 2 ^ 64 ∧ poolBuf + poolBufSize.toNat ≤ 2 ^ 64)
      (small : h.currentSize < 2 ^ 30) : SetUp h

theorem poolSize_eq {start finish : Nat} (h : start ≤ finish) (hlt : finish < start + 2 ^ 32) : poolSize start finish = (finish - start) / 8 * 8 := by
  unfold poolSize
  omega

theorem poolSize_mod (start finish : Nat) : poolSize start finish % 8 = 0 := Nat.mul_mod_left _ 8

theorem alignPtr8_le (p : Nat) : p ≤ alignPtr8 p ∧ alignPtr8 p < p + 8 := by
  unfold alignPtr8
  omega

theorem structure_below_pool (buf : Nat) : alignPtr8 buf + gcHeapStructSize ≤ poolBase buf := by
  unfold poolBase
  have := alignPtr8_le (alignPtr8 buf + gcHeapStructSize)
  omega

/-- What a heap set up in a large enough buffer is made of. -/
structure InitArgs (heap base size : Nat) : Prop where
  align : base % 8 = 4
  size8 : size % 8 = 0
  small : size < 2 ^ 30
  large : 248 ≤ size
  end_le : base + size ≤ 2 ^ 64
  struct_le : heap + gcHeapStructSize ≤ 2 ^ 64
  apart : heap + gcHeapStructSize ≤ base ∨ base + size ≤ heap

theorem SetUp.init {h : GcHeap} (hs : SetUp h) :
    ∃ mem heap base, h = gcInitInternal mem heap base h.currentSize ∧ InitArgs heap base h.currentSize := by
  cases hs with
  | @pool mem buf bufSize _ init room addressable small =>
    unfold gcInitWithPool at init
    split at init
    · cases init
    cases init
    have hb : poolBase buf % 8 = 4 := by
      unfold poolBase alignPtr8 gcHeadPadding
      omega
    have hbelow := structure_below_pool buf
    have hbuf := alignPtr8_le buf
    have hsize := bufSize.toNat_lt
    have hpool : poolSize (poolBase buf) (buf + bufSize.toNat) = _ := poolSize_eq (by omega) (by omega)
    refine ⟨mem, alignPtr8 buf, poolBase buf, rfl, hb, poolSize_mod _ _, small, ?_, ?_, by omega, .inl hbelow⟩
    · exact (by omega : 248 ≤ poolSize (poolBase buf) (buf + bufSize.toNat))
    · exact (by omega : poolBase buf + poolSize (poolBase buf) (buf + bufSize.toNat) ≤ 2 ^ 64)
  | @structAndPool mem structBuf poolBuf structBufSize poolBufSize _ init room apart addressable small =>
    simp only [gcInitWithStructAndPool, Option.ite_none_left_eq_some, Option.some.injEq] at init
    obtain ⟨-, -, halign, hmin, rfl⟩ := init
    unfold appHeapSizeMin at hmin
    have hpad : gcHeadPadding = 4 := rfl
    have hstruct : gcHeapStructSize = 368 := rfl
    have hsize := poolBufSize.toNat_lt
    have hpool : poolSize (poolBuf + gcHeadPadding) (poolBuf + poolBufSize.toNat) = _ :=
      poolSize_eq (by omega) (by omega)
    refine ⟨mem, structBuf, poolBuf + gcHeadPadding, rfl, by omega, poolSize_mod _ _, small, ?_, ?_, by omega, ?_⟩
    · exact (by omega : 248 ≤ poolSize (poolBuf + gcHeadPadding) (poolBuf + poolBufSize.toNat))
    · exact (by omega : poolBuf + gcHeadPadding + poolSize (poolBuf + gcHeadPadding) (poolBuf + poolBufSize.toNat) ≤ 2 ^ 64)
    · show structBuf + gcHeapStructSize ≤ poolBuf + gcHeadPadding ∨
        poolBuf + gcHeadPadding + poolSize (poolBuf + gcHeadPadding) (poolBuf + poolBufSize.toNat) ≤ structBuf
      omega

theorem SetUp.repr {h : GcHeap} (hs : SetUp h) : Repr h (Arena.fresh h.currentSize) := by
  obtain ⟨mem, heap, base, he, ha⟩ := hs.init
  rw [he]
  exact gcInitInternal_repr ha.align ha.size8 ha.small ha.large ha.end_le ha.struct_le ha.apart

/-! ## Sessions -/

/-- A heap with the objects that are handed out, and whether an allocation has ever succeeded. -/
structure Session where
  heap : GcHeap
  live : List Nat
  touched : Bool

/-- One step of a session: a call, with any size, of `gc_alloc_vo`, a call of `gc_free_vo` for a live object, or writes of its
owner inside a live object. -/
inductive Session.Step : Session → Session → Prop
  | alloc {s : Session} {size : UInt32} {p : Nat} {h' : GcHeap} (run : gcAllocVo s.heap size = some (p, h')) (hp : p ≠ 0) :
      Step s ⟨h', p :: s.live, true⟩
  | allocNull {s : Session} {size : UInt32} {h' : GcHeap} (run : gcAllocVo s.heap size = some (0, h')) :
      Step s ⟨h', s.live, s.touched⟩
  | free {s : Session} {obj : Nat} {r : Int} {h' : GcHeap} (live : obj ∈ s.live)
      (run : gcFreeVo s.heap obj = some (r, h')) : Step s ⟨h', s.live.erase obj, s.touched⟩
  | write {s : Session} {obj : Nat} {m : Mem} (live : obj ∈ s.live)
      (inside : ∀ x, ¬(obj ≤ x ∧ x < obj + (hmuGetSize (s.heap.header (obj - hmuSize)) - hmuSize)) → m x = s.heap.mem x) :
      Step s ⟨{ s.heap with mem := m }, s.live, s.touched⟩

/-- The sessions that can be reached from a heap. -/
def Session.Reach (h : GcHeap) : Session → Prop := Relation.ReflTransGen Session.Step ⟨h, [], false⟩

/-- A heap whose chunks tile the pool with no two free neighbours, with exact notes about the chunk before, every free chunk in
the right list or at the right place of the tree and nothing else there, and the right count of free bytes. With `footers`,
every free chunk has its size in its last four bytes. -/
def WellFormed (h : GcHeap) (footers : Bool) : Prop :=
  ∃ A : Arena, Repr h A ∧ A.Coalesced ∧ (footers = true → A.AllStamped)

/-- What every session keeps: its heap is an abstract heap whose objects are the live ones. -/
structure Session.Inv (s : Session) (A : Arena) : Prop where
  repr : Repr s.heap A
  coalesced : A.Coalesced
  stamped : s.touched = true → A.AllStamped
  live_iff : ∀ obj, obj ∈ s.live ↔ ∃ o n, UsedIn 0 A.chunks o n ∧ obj = s.heap.baseAddr + o + 4
  nodup : s.live.Nodup

namespace Session
variable {s s' : Session} {A : Arena}

theorem Inv.fresh {h : GcHeap} (hs : SetUp h) : Inv ⟨h, [], false⟩ (Arena.fresh h.currentSize) := by
  refine ⟨hs.repr, List.isChain_singleton _, (fun ht => nomatch ht), fun obj => ?_, List.nodup_nil⟩
  simp [Arena.fresh, usedIn_cons, usedIn_nil]

/-- A live object is an object of the abstract heap, and its header has its size. -/
theorem Inv.live {obj : Nat} (hi : Inv s A) (hl : obj ∈ s.live) :
    ∃ o n, UsedIn 0 A.chunks o n ∧ obj = s.heap.baseAddr + o + 4 ∧ hmuGetSize (s.heap.header (s.heap.baseAddr + o)) = n := by
  obtain ⟨o, n, hu, hobj⟩ := (hi.live_iff obj).1 hl
  obtain ⟨pre, c, post, hA, ho, -, hn⟩ := hu.exists_split
  have hc := hi.repr.chunks
  rw [hA] at hc
  exact ⟨o, n, hu, hobj, by rw [ho, hc.hdr.size, hn]⟩

theorem Inv.alloc {size : UInt32} {p : Nat} {h' : GcHeap} (hi : Inv s A) (run : gcAllocVo s.heap size = some (p, h'))
    (hp : p ≠ 0) : ∃ A', Inv ⟨h', p :: s.live, true⟩ A' := by
  rcases gcAllocVo_spec hi.repr size with ⟨-, hrun⟩ | ⟨o, n, h₁, -, hf, hk, -, hrun, hr, hw⟩
  · rw [hrun] at run
    cases run
    exact absurd rfl hp
  rw [hrun] at run
  cases run
  obtain ⟨pre, c, post, hA, ho, hu, hn⟩ := Arena.exists_split hf
  have hwf := hi.repr.wf
  have h8 : max (Arena.totSize size.toNat) 16 % 8 = 0 := by
    have : Arena.totSize size.toNat % 8 = 0 := Nat.mul_mod_left _ 8
    omega
  refine ⟨_, hr, Arena.coalesced_take hA hwf.sized ho hu hi.coalesced,
    fun _ => (Arena.take_wf hwf hf h8 (by omega)).2, fun obj => ?_, List.nodup_cons.2 ⟨fun hm => ?_, hi.nodup⟩⟩
  · simp only [List.mem_cons, hi.live_iff, Arena.usedIn_take hwf hf, hw.base]
    constructor
    · rintro (rfl | ⟨o', n', hu', rfl⟩)
      · exact ⟨o, _, .inr ⟨rfl, rfl⟩, rfl⟩
      · exact ⟨o', n', .inl hu', rfl⟩
    · rintro ⟨o', n', hu' | ⟨rfl, -⟩, rfl⟩
      · exact .inr ⟨o', n', hu', rfl⟩
      · exact .inl rfl
  -- the chunk was free, so no live object was there
  obtain ⟨o', n', hu', ho'⟩ := (hi.live_iff _).1 hm
  have h1 := hu'.disjoint_free hf
  have h2 := hu'.sized hwf.sized
  have h3 := hf.sized hwf.sized
  omega

theorem Inv.allocNull {size : UInt32} {h' : GcHeap} (hi : Inv s A) (run : gcAllocVo s.heap size = some (0, h')) : h' = s.heap := by
  rcases gcAllocVo_spec hi.repr size with ⟨-, hrun⟩ | ⟨o, n, h₁, -, hf, hk, -, hrun, hr, hw⟩
  · rw [hrun] at run
    cases run
    rfl
  · rw [hrun] at run
    cases run

theorem Inv.free {obj : Nat} (hi : Inv s A) (hl : obj ∈ s.live) :
    ∃ h' A', gcFreeVo s.heap obj = some (0, h') ∧ Inv ⟨h', s.live.erase obj, s.touched⟩ A' := by
  obtain ⟨o, n, hu, rfl⟩ := (hi.live_iff obj).1 hl
  obtain ⟨pre, c, post, hA, ho, hcu, rfl⟩ := hu.exists_split
  obtain ⟨h', hrun, hr, hw⟩ := gcFreeVo_spec hi.repr hA ho hcu rfl
  refine ⟨h', _, hrun, hr, Arena.coalesced_freed hA hi.coalesced _ _ _,
    fun _ => (Arena.freed_wf hi.repr.wf hA ho hcu).2.1, fun obj => ?_, hi.nodup.erase _⟩
  simp only [hi.nodup.mem_erase_iff, hi.live_iff, Arena.usedIn_freed hi.repr.wf hA ho hcu, hw.base]
  constructor
  · rintro ⟨hne, o', n', hu', rfl⟩
    exact ⟨o', n', ⟨hu', by omega⟩, rfl⟩
  · rintro ⟨o', n', ⟨hu', hne⟩, rfl⟩
    exact ⟨by omega, o', n', hu', rfl⟩

theorem Inv.step (hi : Inv s A) (hstep : Step s s') : ∃ A', Inv s' A' := by
  cases hstep with
  | alloc run hp => exact hi.alloc run hp
  | allocNull run =>
    rw [hi.allocNull run]
    exact ⟨A, hi⟩
  | free live run =>
    obtain ⟨h', A', hrun, hi'⟩ := hi.free live
    rw [hrun] at run
    cases run
    exact ⟨A', hi'⟩
  | write live inside =>
    obtain ⟨o, n, hu, rfl, hsize⟩ := hi.live live
    refine ⟨A, hi.repr.write hu fun x hx => inside x ?_, hi.coalesced, hi.stamped, hi.live_iff, hi.nodup⟩
    rw [show s.heap.baseAddr + o + 4 - hmuSize = s.heap.baseAddr + o from rfl, hsize]
    have := (hu.sized hi.repr.wf.sized).2
    unfold hmuSize
    omega

theorem Reach.inv {h : GcHeap} (hs : SetUp h) (hr : Reach h s) : ∃ A, Inv s A := by
  induction hr with
  | refl => exact ⟨_, Inv.fresh hs⟩
  | tail _ hstep ih =>
    obtain ⟨A, hi⟩ := ih
    exact hi.step hstep

end Session

/-- A heap of 248 bytes, set up at 8196 with its structure at 4096. -/
theorem setUp_small : SetUp (gcInitInternal (fun _ => 0) 4096 8196 248) :=
  @SetUp.structAndPool (fun _ => 0) 4096 8192 368 256 _ rfl (by decide) (by decide) (by decide) (by decide)

/-- The heap of 248 bytes after an allocation of 16 bytes: an object in 24 bytes and a free chunk of 224 bytes, which is what an
allocation of 220 bytes would get. -/
theorem alloc_small : ∃ h₁ A, gcAllocVo (gcInitInternal (fun _ => 0) 4096 8196 248) 16 = some (8200, h₁) ∧ Repr h₁ A ∧
    A.AllStamped ∧ A.chunks = [⟨24, true, false⟩, ⟨224, false, true⟩] ∧ UsedIn 0 A.chunks 0 24 ∧
    (A.allocVo 220).map Prod.fst = some 24 ∧ h₁.baseAddr = 8196 ∧ h₁.kfcTreeRoot = 4416 := by
  rcases gcAllocVo_spec setUp_small.repr 16 with ⟨hnone, -⟩ | ⟨o, n, h₁, halloc, hf, -, -, hrun, hr, hw⟩
  · exact absurd hnone (by decide)
  have hon : o = 0 ∧ 248 = n := by
    have hf' : FreeIn 0 [⟨248, false, false⟩] o n := hf
    simpa [freeIn_cons, freeIn_nil] using hf'
  obtain ⟨rfl, rfl⟩ := hon
  exact ⟨h₁, _, hrun, hr, by unfold Arena.AllStamped; decide, by decide, usedIn_cons.2 (.inl ⟨rfl, rfl, rfl⟩), by decide,
    hw.base, hw.root⟩

/-! ## A heap just set up has no footer -/

theorem footer_gcInitInternal {mem : Mem} {heap base size : Nat} (ha : InitArgs heap base size) :
    (gcInitInternal mem heap base size).mem.load (base + size - 4) 4 = 0 := by
  have hd := ha.apart
  have hl := ha.large
  unfold gcHeapStructSize at hd
  have hchunk : ∀ h : GcHeap, (initChunk h (heap + 320) base size).mem.load (base + size - 4) 4 =
      h.mem.load (base + size - 4) 4 := by
    intro h
    simp only [initChunk, GcHeap.setRight, GcHeap.setParent, GcHeap.setPtr, GcHeap.setSize, GcHeap.setHeader, GcHeap.clear,
      treeNodeSize]
    simp (disch := omega) only [Mem.load_store_of_disjoint, Mem.load_fill_of_disjoint]
  rw [gcInitInternal_eq, hchunk]
  simp only [initRoot, GcHeap.setHeader, GcHeap.setSize, GcHeap.clear, kfcTreeRootOffset, treeNodeSize]
  simp (disch := omega) only [Mem.load_store_of_disjoint, Mem.load_fill_of_disjoint, Mem.load_fill_zero]

/-- The chunk of a heap just set up does not have its size in its last four bytes. -/
theorem SetUp.not_footers {h : GcHeap} (hs : SetUp h) : ¬WellFormed h true := by
  rintro ⟨A, hr, -, hst⟩
  obtain ⟨mem, heap, base, he, ha⟩ := hs.init
  have hr₀ := hs.repr
  have hfoot := @footer_gcInitInternal mem _ _ _ ha
  rw [← he] at hfoot
  have hbase : h.baseAddr = base := by rw [he]; rfl
  have hlarge := ha.large
  obtain ⟨hhdr₀, -⟩ := hr₀.chunks
  have hsz := hr.wf.sized
  have htot := hr.total_eq
  have hch := hr.chunks
  have hall := hst rfl
  -- the header walk leaves only one way to cut the pool
  cases hcs : A.chunks with
  | nil =>
    rw [hcs] at htot
    simp only [total_nil] at htot
    omega
  | cons c cs =>
    rw [hcs] at htot hch
    obtain ⟨hhdr, -⟩ := hch
    have hc : c.size = h.currentSize := by rw [← hhdr.size, hhdr₀.size]
    have hu : c.used = false := by
      have := hhdr.ut.symm.trans hhdr₀.ut
      cases hcu : c.used with
      | false => rfl
      | true =>
        rw [hcu] at this
        have hne : (hmuVO : BitVec 32) ≠ hmuFC := by decide
        exact absurd this hne
    have hstamp := hhdr.footer hu (hall c (by rw [hcs]; simp) hu)
    rw [hc, hbase, hfoot] at hstamp
    omega

/-- A buffer of 1 GiB and 8 bytes: the size does not fit in the header, so the headers do not tile the pool. -/
theorem header_too_large : hmuGetSize ((gcInitInternal (fun _ => 0) 4096 8196 (2 ^ 30)).header 8196) = 0 := by
  rw [gcInitInternal_eq, header_initChunk (by omega)]
  have hzero : ((initRoot (fun _ => 0) 4096 8196 (2 ^ 30)).clear 8196 treeNodeSize).header 8196 = 0 := by
    unfold GcHeap.header GcHeap.clear
    rw [Mem.load_fill_zero (by omega) (by unfold treeNodeSize; omega)]
    rfl
  rw [hzero]
  decide

end WamrMigrate.Ems
