import WamrMigrate.Ems.IndexMem

/-!
# What a heap in memory represents

`Repr h A` says that the heap `h` in memory is the abstract heap `A`: the headers are those of its chunks (`ChunksAt`), the lists and the tree are
its index, and the counter of free bytes is right. `Within` says where a heap may differ from an earlier one: in the fields of free chunks, the
links of the root and one stretch of the pool.
-/

namespace WamrMigrate.Ems

open SizeTree Tiles

/-- The header at `p` is that of the chunk `c`, and `pin` is its note whether the chunk before is in use. -/
structure HdrAt (h : GcHeap) (p : Nat) (pin : Bool) (c : Chunk) : Prop where
  size : hmuGetSize (h.header p) = c.size
  ut : hmuGetUt (h.header p) = if c.used then hmuVO else hmuFC
  pinuse : hmuGetPinuse (h.header p) = pin
  live : c.used = true → hmuIsVoFreed (h.header p) = false
  footer : c.used = false → c.stamped = true → h.mem.load (p + c.size - 4) 4 = c.size

/-- The chunks `cs` are in memory from `p` on; `pin` says whether the chunk before them is in use. -/
def ChunksAt (h : GcHeap) : Nat → Bool → List Chunk → Prop
  | _, _, [] => True
  | p, pin, c :: cs => HdrAt h p pin c ∧ ChunksAt h (p + c.size) c.used cs

/-- Whether the last chunk is in use. -/
def endUsed (pin : Bool) : List Chunk → Bool
  | [] => pin
  | c :: cs => endUsed c.used cs

/-- The heap in memory is the abstract heap `A`. -/
structure Repr (h : GcHeap) (A : Arena) : Prop where
  sane : Sane h
  ok : h.isHeapCorrupted = false
  wf : A.WF
  chunks : ChunksAt h h.baseAddr true A.chunks
  total_eq : total Chunk.size A.chunks = h.currentSize
  index : IndexAt h A.index
  free_eq : h.totalFreeSize = Arena.freeTotal A.chunks

/-- The part of it that an allocation reads: the chunks `A` are those that the headers in the pool tell, and the lists and the
tree have every free one once. The pool may have any size, and nothing is said about footers and accounting. -/
structure Tiled (h : GcHeap) (A : Arena) : Prop where
  placed : Placed h
  ok : h.isHeapCorrupted = false
  sized : Sized A.chunks
  headers : ∀ p c, (p, c) ∈ located Chunk.size h.baseAddr A.chunks →
    hmuGetSize (h.header p) = c.size ∧ (hmuGetUt (h.header p) = hmuFC ↔ c.used = false)
  total_eq : total Chunk.size A.chunks = h.currentSize
  index : IndexAt h A.index
  holds : A.index.Holds (FreeIn 0 A.chunks)

/-- `h'` differs from `h` only in the fields of the chunks `S`, the links of the root, the bytes from `a` to `b`, the lists and
the accounting. -/
structure Within (S : Nat → Nat → Prop) (a b : Nat) (h h' : GcHeap) : Prop where
  base : h'.baseAddr = h.baseAddr
  cur : h'.currentSize = h.currentSize
  root : h'.kfcTreeRoot = h.kfcTreeRoot
  corrupted : h'.isHeapCorrupted = h.isHeapCorrupted
  mem : ∀ x, ¬(h.kfcTreeRoot + 8 ≤ x ∧ x < h.kfcTreeRoot + 32) →
    (∀ o n, S o n → ¬(h.baseAddr + o + 4 ≤ x ∧ x < h.baseAddr + o + nodeEnd n)) → ¬(a ≤ x ∧ x < b) → h'.mem x = h.mem x

/-! ## Chunks in memory -/

section Chunks
variable {h h' : GcHeap} {p : Nat} {pin : Bool} {c : Chunk} {cs xs ys : List Chunk}

theorem header_congr (he : Mem.EqOn h.mem h'.mem p 4) : h'.header p = h.header p := by
  unfold GcHeap.header
  rw [Mem.load_congr he]

theorem HdrAt.congr (hc : HdrAt h p pin c) (he : Mem.EqOn h.mem h'.mem p 4)
    (hf : c.used = false → Mem.EqOn h.mem h'.mem (p + c.size - 4) 4) : HdrAt h' p pin c := by
  obtain ⟨h1, h2, h3, h4, h5⟩ := hc
  rw [← header_congr he] at h1 h2 h3 h4
  exact ⟨h1, h2, h3, h4, fun hu hst => by rw [Mem.load_congr (hf hu), h5 hu hst]⟩

@[simp] theorem endUsed_append (pin : Bool) (xs ys : List Chunk) : endUsed pin (xs ++ ys) = endUsed (endUsed pin xs) ys := by
  induction xs generalizing pin with
  | nil => rfl
  | cons c xs ih => exact ih c.used

theorem chunksAt_append : ChunksAt h p pin (xs ++ ys) ↔ ChunksAt h p pin xs ∧ ChunksAt h (p + total Chunk.size xs) (endUsed pin xs) ys := by
  induction xs generalizing p pin with
  | nil => simp [ChunksAt, endUsed]
  | cons c xs ih => simp [ChunksAt, endUsed, ih, and_assoc, Nat.add_assoc]

/-- Chunks are read from their headers and, the free ones, from their last bytes. -/
theorem ChunksAt.congr (hc : ChunksAt h p pin cs) (he : ∀ q c, (q, c) ∈ located Chunk.size p cs → Mem.EqOn h.mem h'.mem q 4 ∧
      (c.used = false → Mem.EqOn h.mem h'.mem (q + c.size - 4) 4)) : ChunksAt h' p pin cs := by
  induction cs generalizing p pin with
  | nil => trivial
  | cons d cs ih =>
    obtain ⟨hd, hcs⟩ := hc
    obtain ⟨h1, h2⟩ := he p d (by simp [located])
    exact ⟨hd.congr h1 h2, ih hcs fun q c hq => he q c (by simp [located, hq])⟩

theorem ChunksAt.hdr {post : List Chunk} (hc : ChunksAt h p pin (xs ++ c :: post)) : HdrAt h (p + total Chunk.size xs) (endUsed pin xs) c :=
  (chunksAt_append.1 hc).2.1

theorem Repr.tiled {A : Arena} (hr : Repr h A) : Tiled h A := by
  refine ⟨hr.sane.placed, hr.ok, hr.wf.sized, ?_, hr.total_eq, hr.index, hr.wf.holds⟩
  intro q c hq
  obtain ⟨pre, post, hA, rfl⟩ := mem_located_iff.1 hq
  have hchunks := hr.chunks
  rw [hA] at hchunks
  have hhdr := hchunks.hdr
  refine ⟨hhdr.size, ?_⟩
  rw [hhdr.ut]
  cases c.used
  · exact ⟨fun _ => rfl, fun _ => rfl⟩
  · exact ⟨fun hut => absurd hut (by decide), fun hu => nomatch hu⟩

theorem Tiled.spread {A : Arena} (ht : Tiled h A) : Spread (FreeIn 0 A.chunks) h.currentSize :=
  spread_freeIn ht.sized ht.total_eq

end Chunks

/-! ## Where a heap may differ -/

section Within
variable {h h₁ h₂ : GcHeap} {S S' : Nat → Nat → Prop} {a b a' b' : Nat}

theorem FieldsOnly.within (hf : FieldsOnly S h h₁) (a b : Nat) : Within S a b h h₁ :=
  ⟨hf.base, hf.cur, hf.root, by rw [hf.same], fun x h1 h2 _ => hf.mem x h1 h2⟩

theorem Within.refl (S : Nat → Nat → Prop) (a b : Nat) (h : GcHeap) : Within S a b h h :=
  ⟨rfl, rfl, rfl, rfl, fun _ _ _ _ => rfl⟩

theorem Within.trans (w₁ : Within S a b h h₁) (w₂ : Within S a b h₁ h₂) : Within S a b h h₂ := by
  refine ⟨w₂.base.trans w₁.base, w₂.cur.trans w₁.cur, w₂.root.trans w₁.root, w₂.corrupted.trans w₁.corrupted, ?_⟩
  intro x h1 h2 h3
  rw [w₂.mem x (by rwa [w₁.root]) (by simpa only [w₁.base] using h2) h3, w₁.mem x h1 h2 h3]

theorem Within.mono (w : Within S a b h h₁) (hS : ∀ o n, S o n → S' o n) (ha : a' ≤ a) (hb : b ≤ b') : Within S' a' b' h h₁ :=
  ⟨w.base, w.cur, w.root, w.corrupted, fun x h1 h2 h3 => w.mem x h1 (fun o n hs => h2 o n (hS o n hs)) (by omega)⟩

theorem Within.absorb {o n : Nat} (w : Within (Plus S o n) a b h h₁) (ha : a ≤ h.baseAddr + o)
    (hb : h.baseAddr + o + nodeEnd n ≤ b) : Within S a b h h₁ := by
  refine ⟨w.base, w.cur, w.root, w.corrupted, fun x h1 h2 h3 => w.mem x h1 (fun o' n' hs => ?_) h3⟩
  rcases hs with hs | ⟨rfl, rfl⟩
  · exact h2 o' n' hs
  · omega

theorem within_setHeader {p : Nat} (v : BitVec 32) (ha : a ≤ p) (hb : p + 4 ≤ b) : Within S a b h (h.setHeader p v) :=
  ⟨rfl, rfl, rfl, rfl, fun _ _ _ h3 => Mem.store_of_not (by omega)⟩

theorem Within.sane (w : Within S a b h h₁) (hs : Sane h) : Sane h₁ := by
  obtain ⟨h1, h2, h3, h4, h5, h6⟩ := hs
  constructor <;> simp only [w.base, w.cur, w.root] <;> assumption

/-- Bytes of the pool that are in no node and not in the stretch are kept. -/
theorem Within.eqOn {q k : Nat} (w : Within S a b h h₁) (hs : Sane h) (hq : h.baseAddr ≤ q)
    (hk : q + k ≤ h.baseAddr + h.currentSize) (hab : q + k ≤ a ∨ b ≤ q)
    (hd : ∀ o n, S o n → q + k ≤ h.baseAddr + o + 4 ∨ h.baseAddr + o + nodeEnd n ≤ q) : Mem.EqOn h.mem h₁.mem q k := by
  intro x h1 h2
  have hr := hs.root_apart
  refine w.mem x (by omega) (fun o n hS => ?_) (by omega)
  have := hd o n hS
  omega

/-- Chunks are kept when the stretch is apart from them and each chunk of `S` is one of them or apart from them. -/
theorem ChunksAt.within {s : Nat} {pin : Bool} {xs : List Chunk} (hc : ChunksAt h (h.baseAddr + s) pin xs)
    (w : Within S a b h h₁) (hs : Sane h) (hx : Sized xs) (hin : s + total Chunk.size xs ≤ h.currentSize)
    (hab : h.baseAddr + s + total Chunk.size xs ≤ a ∨ b ≤ h.baseAddr + s)
    (hS : ∀ o n, S o n → 16 ≤ n ∧ (FreeIn s xs o n ∨ o + n ≤ s ∨ s + total Chunk.size xs ≤ o)) : ChunksAt h₁ (h.baseAddr + s) pin xs := by
  refine hc.congr fun q c hq => ?_
  have hqb := located_bounds hq
  have hc16 := (hx c (mem_of_located hq)).2
  -- a node is in the same chunk, between header and footer, or in another one
  have hnode : ∀ o n, S o n → (q = h.baseAddr + o ∧ c.size = n) ∨ q + c.size ≤ h.baseAddr + o ∨ h.baseAddr + o + n ≤ q := by
    intro o n ho
    rcases (hS o n ho).2 with hf | hf
    · obtain ⟨d, hd, -, rfl⟩ := hf
      have hd' : (h.baseAddr + o, d) ∈ located Chunk.size (h.baseAddr + s) xs := by
        obtain ⟨pre, post, hxs, ho⟩ := mem_located_iff.1 hd
        exact mem_located_iff.2 ⟨pre, post, hxs, by omega⟩
      rcases located_disjoint hq hd' with ⟨rfl, rfl⟩ | hdis
      · exact .inl ⟨rfl, rfl⟩
      · exact .inr hdis
    · omega
  constructor
  · refine w.eqOn hs (by omega) (by omega) (by omega) fun o n ho => ?_
    have h1 := hnode o n ho
    have h2 := nodeEnd_le (hS o n ho).1
    omega
  intro _
  refine w.eqOn hs (by omega) (by omega) (by omega) fun o n ho => ?_
  have h1 := hnode o n ho
  have h2 := nodeEnd_le (hS o n ho).1
  omega

end Within

/-! ## Writing headers -/

section Headers
variable {h h' : GcHeap} {S : Nat → Nat → Prop} {I : Index} {o n p : Nat}

@[simp] theorem header_setHeader (h : GcHeap) (p : Nat) (v : BitVec 32) : (h.setHeader p v).header p = v := by
  unfold GcHeap.setHeader GcHeap.header
  rw [Mem.load_store_of_lt (by have := v.isLt; norm_num; exact this)]
  simp

theorem header_setHeader_of_ne {q : Nat} (v : BitVec 32) (hd : q + 4 ≤ p ∨ p + 4 ≤ q) : (h.setHeader p v).header q = h.header q :=
  header_congr (Mem.eqOn_store (by omega))

/-- A new note about the chunk before in the header of the first chunk. -/
theorem ChunksAt.setPinuse {pin pin' : Bool} {d : Chunk} {cs : List Chunk} {v : BitVec 32}
    (hc : ChunksAt h p pin (d :: cs)) (hs : Sized (d :: cs)) (hsize : hmuGetSize v = hmuGetSize (h.header p))
    (hut : hmuGetUt v = hmuGetUt (h.header p)) (hfreed : hmuIsVoFreed v = hmuIsVoFreed (h.header p))
    (hpin : hmuGetPinuse v = pin') : ChunksAt (h.setHeader p v) p pin' (d :: cs) := by
  obtain ⟨hd, hcs⟩ := hc
  obtain ⟨⟨-, hd16⟩, hs'⟩ := sized_cons.1 hs
  constructor
  · constructor
    · rw [header_setHeader, hsize, hd.size]
    · rw [header_setHeader, hut, hd.ut]
    · rw [header_setHeader, hpin]
    · intro hu
      rw [header_setHeader, hfreed, hd.live hu]
    · intro hu hst
      have hfoot : Mem.EqOn h.mem (h.setHeader p v).mem (p + d.size - 4) 4 := Mem.eqOn_store (by omega)
      exact (Mem.load_congr hfoot).trans (hd.footer hu hst)
  refine hcs.congr fun q c hq => ?_
  have hqb := located_bounds hq
  have hc16 := (hs' c (mem_of_located hq)).2
  exact ⟨Mem.eqOn_store (by omega), fun _ => Mem.eqOn_store (by omega)⟩

/-- The memory after `gci_add_fc` has written the header of a chunk of `n` bytes at `p`, first its type and then its size, and
its footer. -/
def stampMem (m : Mem) (p n : Nat) (u v : BitVec 32) : Mem :=
  ((m.store p 4 u.toNat).store p 4 v.toNat).store (p + n - 4) 4 n

theorem gciAddFc_eq (hn : n < 2 ^ 30) (h8 : n % 8 = 0) : gciAddFc h p n = linkFc
      { h with mem := stampMem h.mem p n (hmuSetUt (h.header p) hmuFC) (hmuSetSize (hmuSetUt (h.header p) hmuFC) n) } p n := by
  simp only [gciAddFc, hmuSetFreeSize, header_setHeader, hmuGetSize_hmuSetSize hn h8]
  rfl

theorem eqOn_stampMem {m : Mem} {u v : BitVec 32} {a k : Nat} (h8 : 8 ≤ n)
    (hd : a + k ≤ p ∨ p + n ≤ a ∨ (p + 4 ≤ a ∧ a + k + 4 ≤ p + n)) : Mem.EqOn m (stampMem m p n u v) a k :=
  ((Mem.eqOn_store (by omega)).store (by omega)).store (by omega)

theorem load_stampMem {m : Mem} {u v : BitVec 32} (h8 : 8 ≤ n) (hn : n < 2 ^ 30) :
    (stampMem m p n u v).load p 4 = v.toNat ∧ (stampMem m p n u v).load (p + n - 4) 4 = n := by
  have hv : v.toNat < 256 ^ 4 := by have := v.isLt; norm_num; exact this
  constructor
  · unfold stampMem
    rw [Mem.load_store_of_disjoint (by omega), Mem.load_store_of_lt hv]
  · exact Mem.load_store_of_lt (by norm_num; omega)

/-- The header and the footer of a new chunk are no field of a chunk of the index. -/
theorem IndexAt.stampMem (hs : Placed h) (hi : IndexAt h I) (hH : I.Holds S) (hsp : Spread (Plus S o n) h.currentSize)
    (hfresh : ∀ k, ¬S o k) (u v : BitVec 32) : IndexAt { h with mem := stampMem h.mem (h.baseAddr + o) n u v } I := by
  have hb := hsp.bounds o n (.inr ⟨rfl, rfl⟩)
  have hra := hs.root_apart
  refine hi.congr hH rfl rfl rfl (eqOn_stampMem (by omega) (by omega)) fun o' n' hS => ?_
  have h1 := hsp.new_disjoint hfresh hS
  have h2 := nodeEnd_le (hsp.bounds o' n' (.inl hS)).2.2.1
  exact eqOn_stampMem (by omega) (by omega)

/-- `gci_add_fc` writes the header and the footer of a new chunk and enters it into the index. -/
theorem gciAddFc_spec (hs : Sane h) (hi : IndexAt h I) (hH : I.Holds S) (hsp : Spread (Plus S o n) h.currentSize) (hfresh : ∀ k, ¬S o k) :
    ∃ h', gciAddFc h (h.baseAddr + o) n = some (true, h') ∧ IndexAt h' (I.insert o n) ∧
      Within S (h.baseAddr + o) (h.baseAddr + o + n) h h' ∧ h'.totalFreeSize = h.totalFreeSize ∧
      HdrAt h' (h.baseAddr + o) (hmuGetPinuse (h.header (h.baseAddr + o))) ⟨n, false, true⟩ := by
  have hb := hsp.bounds o n (.inr ⟨rfl, rfl⟩)
  have hcur := hs.size_lt
  have hra := hs.root_apart
  have hFC : (hmuFC : BitVec 32) = hmuVO ∨ (hmuFC : BitVec 32) = hmuFC := Or.inr rfl
  rw [gciAddFc_eq (by omega) hb.2.1]
  generalize hu : hmuSetUt (h.header (h.baseAddr + o)) hmuFC = u
  generalize hv : hmuSetSize u n = v
  obtain ⟨hhdr, hfoot⟩ := @load_stampMem n (h.baseAddr + o) h.mem u v (by omega) (by omega)
  have hkeep : ∀ a k, a + k ≤ h.baseAddr + o ∨ h.baseAddr + o + n ≤ a →
      Mem.EqOn h.mem (stampMem h.mem (h.baseAddr + o) n u v) a k := fun a k hd => eqOn_stampMem (by omega) (by omega)
  have hI := hi.stampMem hs.placed hH hsp hfresh u v
  generalize stampMem h.mem (h.baseAddr + o) n u v = m at hhdr hfoot hkeep hI
  have hs' : Sane { h with mem := m } := ⟨hs.base_align, hcur, hs.end_le, hs.root_ne, hs.root_le, hra⟩
  obtain ⟨h', hrun, hI', hf⟩ := linkFc_spec hs' hI hH hsp hfresh
  have hmid : Within (Plus S o n) (h.baseAddr + o) (h.baseAddr + o + n) h { h with mem := m } :=
    ⟨rfl, rfl, rfl, rfl, fun x _ _ h3 => hkeep x 1 (by omega) x (by omega) (by omega)⟩
  have hnode := nodeEnd_le hb.2.2.1
  have hw := hmid.trans (hf.within (h.baseAddr + o) (h.baseAddr + o + n))
  have hown : ∀ a k, h.baseAddr + o ≤ a → a + k ≤ h.baseAddr + o + n → (a + k ≤ h.baseAddr + o + 4 ∨
      h.baseAddr + o + n - 4 ≤ a) → h'.mem.load a k = m.load a k := by
    intro a k h1 h2 h3
    refine Mem.load_congr (hf.eqOn hs' ?_ ?_ fun o' n' hS => ?_)
    · exact (by omega : h.baseAddr ≤ a)
    · exact (by omega : a + k ≤ h.baseAddr + h.currentSize)
    rcases hS with hS | ⟨rfl, rfl⟩
    · have h4 := hsp.new_disjoint hfresh hS
      have h5 := nodeEnd_le (hsp.bounds o' n' (.inl hS)).2.2.1
      simp only
      omega
    · simp only
      omega
  have hh : h'.header (h.baseAddr + o) = v := by
    unfold GcHeap.header
    rw [hown _ _ (by omega) (by omega) (by omega), hhdr]
    simp
  refine ⟨h', hrun, hI', hw.absorb (by omega) (by omega), by rw [hf.same], ?_⟩
  constructor
  · rw [hh, ← hv, hmuGetSize_hmuSetSize (by omega) (by omega)]
  · rw [hh, ← hv, hmuGetUt_hmuSetSize (by omega), ← hu, hmuGetUt_hmuSetUt hFC]
    rfl
  · rw [hh, ← hv, hmuGetPinuse_hmuSetSize (by omega), ← hu, hmuGetPinuse_hmuSetUt hFC]
  · exact fun hused => nomatch hused
  · intro _ _
    rw [hown _ _ (by simp only; omega) (by simp only; omega) (by simp only; omega)]
    exact hfoot

end Headers

end WamrMigrate.Ems
