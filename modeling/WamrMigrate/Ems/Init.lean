import WamrMigrate.Ems.Run

/-!
# Where a heap is set up

What `gc_init_with_pool` and `gc_init_with_struct_and_pool` accept, and when the heap lies in the buffers they were given. The smallest buffer
accepted has 256 bytes while the structure takes 368, and the size of a structure of its own is compared with that of a pointer.
-/

namespace WamrMigrate.Ems

/-- The bytes from `lo` up to `hi`. -/
structure Span where
  lo : Nat
  hi : Nat

namespace Span

/-- The span of a buffer. -/
def ofSize (start : Nat) (size : Nat) : Span := ⟨start, start + size⟩

def Within (s t : Span) : Prop := t.lo ≤ s.lo ∧ s.hi ≤ t.hi

def Apart (s t : Span) : Prop := s.hi ≤ t.lo ∨ t.hi ≤ s.lo

end Span

/-- The bytes of the heap structure. -/
def GcHeap.structSpan (h : GcHeap) : Span := Span.ofSize (h.kfcTreeRoot - kfcTreeRootOffset) gcHeapStructSize

/-- The bytes from `base_addr` up to `base_addr + current_size`. -/
def GcHeap.poolSpan (h : GcHeap) : Span := Span.ofSize h.baseAddr h.currentSize

/-- The heap stands in the two buffers, its two parts apart, and the header of its one chunk counts all of the pool. -/
structure SetUpWithin (h : GcHeap) (structBuf poolBuf : Span) : Prop where
  struct : h.structSpan.Within structBuf
  pool : h.poolSpan.Within poolBuf
  apart : h.structSpan.Apart h.poolSpan
  header : hmuGetSize (h.header h.baseAddr) = h.currentSize

/-- A buffer with room for the structure and a pool of less than 1 GiB. -/
def FitsPool (buf : Nat) (bufSize : UInt32) : Prop :=
  poolBase buf ≤ buf + bufSize.toNat ∧ buf + bufSize.toNat < poolBase buf + 2 ^ 30

/-- A buffer with room for the structure and another one for a pool of less than 1 GiB, where the two do not overlap. -/
def FitsStructAndPool (structBuf : Nat) (structBufSize : UInt32) (poolBuf : Nat) (poolBufSize : UInt32) : Prop :=
  gcHeapStructSize ≤ structBufSize.toNat ∧ poolBufSize.toNat < gcHeadPadding + 2 ^ 30 ∧
    (Span.ofSize structBuf gcHeapStructSize).Apart
      (Span.ofSize (poolBuf + gcHeadPadding) ((poolBufSize.toNat - gcHeadPadding) / 8 * 8))

section Internal
variable {mem : Mem} {heap base size : Nat}

/-- The first header counts the pool exactly when the size fits in the 27 bits that it has for it. -/
theorem hmuGetSize_gcInitInternal (h8 : size % 8 = 0) (hd : heap + gcHeapStructSize ≤ base ∨ base + 4 ≤ heap) :
    hmuGetSize ((gcInitInternal mem heap base size).header base) = size ↔ size < 2 ^ 30 := by
  unfold gcHeapStructSize at hd
  rw [gcInitInternal_eq, header_initChunk (by omega), hmuGetSize_hmuMarkPinuse]
  constructor
  · intro h
    rw [← h]
    exact hmuGetSize_lt _
  · intro h
    exact hmuGetSize_hmuSetSize h h8

theorem structSpan_gcInitInternal : (gcInitInternal mem heap base size).structSpan = Span.ofSize heap gcHeapStructSize :=
  congrArg (Span.ofSize · gcHeapStructSize) (Nat.add_sub_cancel heap kfcTreeRootOffset)

theorem poolSpan_gcInitInternal : (gcInitInternal mem heap base size).poolSpan = Span.ofSize base size := rfl

theorem setUpWithin_gcInitInternal (h8 : size % 8 = 0) (h4 : heap + gcHeapStructSize ≤ base ∨ 4 ≤ size) {s p : Span} :
    SetUpWithin (gcInitInternal mem heap base size) s p ↔ (Span.ofSize heap gcHeapStructSize).Within s ∧ (Span.ofSize base size).Within p ∧
        (Span.ofSize heap gcHeapStructSize).Apart (Span.ofSize base size) ∧ size < 2 ^ 30 := by
  have hheader (hd : (Span.ofSize heap gcHeapStructSize).Apart (Span.ofSize base size)) :
      hmuGetSize ((gcInitInternal mem heap base size).header base) = size ↔ size < 2 ^ 30 := by
    apply hmuGetSize_gcInitInternal h8
    rcases hd with hd | hd
    · exact .inl hd
    · have hd : base + size ≤ heap := hd
      omega
  constructor
  · rintro ⟨hstruct, hpool, hapart, hsize⟩
    rw [structSpan_gcInitInternal] at hstruct hapart
    rw [poolSpan_gcInitInternal] at hpool hapart
    exact ⟨hstruct, hpool, hapart, (hheader hapart).1 hsize⟩
  rintro ⟨hstruct, hpool, hapart, hsmall⟩
  refine ⟨?_, hpool, ?_, (hheader hapart).2 hsmall⟩
  · rwa [structSpan_gcInitInternal]
  · rwa [structSpan_gcInitInternal]

end Internal

theorem gcInitWithPool_within_iff {mem : Mem} {buf : Nat} {bufSize : UInt32} {h : GcHeap} (init : gcInitWithPool mem buf bufSize = some h) :
    SetUpWithin h (Span.ofSize buf bufSize.toNat) (Span.ofSize buf bufSize.toNat) ↔ FitsPool buf bufSize := by
  unfold gcInitWithPool at init
  split at init
  · cases init
  cases init
  have hbelow := structure_below_pool buf
  have hbuf := alignPtr8_le buf
  have hlt := bufSize.toNat_lt
  rw [setUpWithin_gcInitInternal (poolSize_mod _ _) (.inl hbelow)]
  simp only [Span.Within, Span.Apart, Span.ofSize, FitsPool]
  constructor
  · rintro ⟨_, ⟨_, hpool⟩, _, hsmall⟩
    have hroom : poolBase buf ≤ buf + bufSize.toNat := by omega
    rw [poolSize_eq hroom (by omega)] at hsmall
    exact ⟨hroom, by omega⟩
  · rintro ⟨hroom, hsmall⟩
    rw [poolSize_eq hroom (by omega)]
    omega

theorem gcInitWithStructAndPool_within_iff {mem : Mem} {structBuf poolBuf : Nat} {structBufSize poolBufSize : UInt32}
    {h : GcHeap} (init : gcInitWithStructAndPool mem structBuf structBufSize poolBuf poolBufSize = some h) :
    SetUpWithin h (Span.ofSize structBuf structBufSize.toNat) (Span.ofSize poolBuf poolBufSize.toNat) ↔
      FitsStructAndPool structBuf structBufSize poolBuf poolBufSize := by
  simp only [gcInitWithStructAndPool, Option.ite_none_left_eq_some, Option.some.injEq] at init
  obtain ⟨-, -, -, hmin, rfl⟩ := init
  unfold appHeapSizeMin at hmin
  have hpad : gcHeadPadding = 4 := rfl
  have hlt := poolBufSize.toNat_lt
  have hpool : poolSize (poolBuf + gcHeadPadding) (poolBuf + poolBufSize.toNat) =
      (poolBufSize.toNat - gcHeadPadding) / 8 * 8 := by
    rw [poolSize_eq (by omega) (by omega), Nat.add_sub_add_left]
  rw [setUpWithin_gcInitInternal (poolSize_mod _ _) (.inr (by omega)), hpool]
  simp only [Span.Within, Span.Apart, Span.ofSize, FitsStructAndPool]
  omega

end WamrMigrate.Ems
