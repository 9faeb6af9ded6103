import WamrMigrate.Ems.Run

/-!
# Moving a heap

After the bytes of the pool have been copied, `gc_migrate` gives the heap its new base and shifts the links of the tree, but not the heads of the
normal lists, which are addresses too. A heap whose lists are empty is moved faithfully and answers every further sequence of calls as before. If a
heap with a node in some list really moves, the head still points to the old place (`gcMigrate_faithful_iff`), and an allocation that looks there
fails (`gcAllocVo_stale`).
-/

namespace WamrMigrate.Ems

open SizeTree Tiles

/-! ## Sequences of calls -/

/-- A call: allocate an object of some size, or free the object at an offset from the start of the pool. -/
inductive HeapOp where
  | alloc (size : UInt32)
  | free (off : Nat)
  deriving DecidableEq

/-- The answer of a call: NULL, an object by its offset from the start of the pool, or the status of `gc_free_vo`. -/
inductive Reply where
  | null
  | object (off : Int)
  | status (code : Int)
  deriving DecidableEq

/-- A call of the heap. -/
def GcHeap.apply (h : GcHeap) : HeapOp → Option (Reply × GcHeap)
  | .alloc size => (gcAllocVo h size).map fun r => (if r.1 = 0 then .null else .object ((r.1 : Int) - h.baseAddr), r.2)
  | .free off => (gcFreeVo h (h.baseAddr + off)).map fun r => (.status r.1, r.2)

/-- The answers of a sequence of calls. -/
def GcHeap.replies : GcHeap → List HeapOp → Option (List Reply)
  | _, [] => some []
  | h, op :: ops =>
    match h.apply op with
    | none => none
    | some (r, h') => (h'.replies ops).map (r :: ·)

/-- A call of the abstract heap; only objects may be freed. -/
def Arena.apply (A : Arena) : HeapOp → Option (Reply × Arena)
  | .alloc size =>
    match A.allocVo size.toNat with
    | none => some (.null, A)
    | some (o, A') => some (.object (o + 4), A')
  | .free off =>
    if off < 4 then none
    else
      match splitAt Chunk.size A.chunks (off - 4) with
      | none => none
      | some (_, c, _) => if c.used then (A.free (off - 4)).map fun A' => (.status 0, A') else none

/-- The answers of a sequence of calls of the abstract heap; `none` when something is freed that is no object. -/
def Arena.replies : Arena → List HeapOp → Option (List Reply)
  | _, [] => some []
  | A, op :: ops =>
    match A.apply op with
    | none => none
    | some (r, A') => (A'.replies ops).map (r :: ·)

section Ops
variable {h : GcHeap} {A A' : Arena} {op : HeapOp} {ops : List HeapOp} {r : Reply} {rs : List Reply}

theorem Repr.apply (hr : Repr h A) (ha : A.apply op = some (r, A')) : ∃ h', h.apply op = some (r, h') ∧ Repr h' A' := by
  have hba := hr.sane.base_align
  cases op with
  | alloc size =>
    rw [Arena.apply] at ha
    rw [GcHeap.apply]
    rcases gcAllocVo_spec hr size with ⟨hnone, hrun⟩ | ⟨o, n, h', halloc, -, -, -, hrun, hr', -⟩
    · rw [hnone] at ha
      cases ha
      exact ⟨h, by rw [hrun]; rfl, hr⟩
    rw [halloc] at ha
    cases ha
    refine ⟨h', ?_, hr'⟩
    rw [hrun, Option.map_some, if_neg (by omega)]
    simp only [Option.some.injEq, Prod.mk.injEq, Reply.object.injEq, and_true]
    omega
  | free off =>
    rw [Arena.apply] at ha
    split at ha
    · cases ha
    rename_i hoff
    split at ha
    · cases ha
    rename_i pre c post hsplit
    split at ha
    · rename_i hu
      obtain ⟨hA, ho⟩ := splitAt_eq_some hsplit
      obtain ⟨h', hrun, hr', -⟩ := gcFreeVo_spec hr hA ho hu rfl
      rw [Arena.free_eq hA hr.wf.sized ho] at ha
      cases ha
      refine ⟨h', ?_, hr'⟩
      rw [GcHeap.apply, show h.baseAddr + off = h.baseAddr + (off - 4) + 4 by omega, hrun]
      rfl
    · cases ha

/-- A heap answers a sequence of calls as the abstract heap does. -/
theorem Repr.replies (hr : Repr h A) (ha : A.replies ops = some rs) : h.replies ops = some rs := by
  induction ops generalizing h A rs with
  | nil => exact ha
  | cons op ops ih =>
    rw [Arena.replies] at ha
    cases hop : A.apply op with
    | none =>
      rw [hop] at ha
      cases ha
    | some e =>
      obtain ⟨r, A'⟩ := e
      rw [hop] at ha
      obtain ⟨rs', hrs, rfl⟩ := Option.map_eq_some_iff.1 ha
      obtain ⟨h', hrun, hr'⟩ := hr.apply hop
      rw [GcHeap.replies, hrun]
      simp only [ih hr' hrs, Option.map_some]

end Ops

/-! ## Bytes at another place -/

section Relocate
variable {h h' : GcHeap} {m m' : Mem} {p q n : Nat} {pin : Bool} {cs : List Chunk}

/-- The `n` bytes at `q` in `m'` are those at `p` in `m`. -/
def SameBytes (m m' : Mem) (p q n : Nat) : Prop := ∀ i, i < n → m' (q + i) = m (p + i)

theorem SameBytes.load (hs : SameBytes m m' p q n) {i k : Nat} (hik : i + k ≤ n) : m'.load (q + i) k = m.load (p + i) k := by
  induction k generalizing i with
  | zero => rfl
  | succ k ih =>
    simp only [Mem.load]
    rw [hs i (by omega), Nat.add_assoc q, Nat.add_assoc p, ih (by omega)]

theorem SameBytes.drop (hs : SameBytes m m' p q n) {i k : Nat} (hik : i + k ≤ n) : SameBytes m m' (p + i) (q + i) k := by
  intro j hj
  rw [Nat.add_assoc, Nat.add_assoc]
  exact hs (i + j) (by omega)

theorem ChunksAt.relocate (hc : ChunksAt h p pin cs) (hs : Sized cs)
    (hb : SameBytes h.mem h'.mem p q (total Chunk.size cs)) : ChunksAt h' q pin cs := by
  induction cs generalizing p q pin with
  | nil => trivial
  | cons c cs ih =>
    obtain ⟨hhdr, hrest⟩ := hc
    obtain ⟨⟨-, h16⟩, hs'⟩ := sized_cons.1 hs
    simp only [total_cons] at hb
    have hh : h'.header q = h.header p := by
      unfold GcHeap.header
      rw [show h'.mem.load q 4 = h.mem.load p 4 from hb.load (i := 0) (by omega)]
    refine ⟨⟨?_, ?_, ?_, ?_, ?_⟩, ih hrest hs' (hb.drop (by omega))⟩
    · rw [hh, hhdr.size]
    · rw [hh, hhdr.ut]
    · rw [hh, hhdr.pinuse]
    · rw [hh]
      exact hhdr.live
    · intro hu hst
      rw [Nat.add_sub_assoc (by omega), hb.load (by omega), ← Nat.add_sub_assoc (by omega)]
      exact hhdr.footer hu hst

end Relocate

/-! ## The links of the tree -/

section Shift
variable {base nb : Nat} {off : Int}

/-- What `adjust_ptr` makes of a pointer. -/
def adjusted (off : Int) (p : Nat) : Nat := if p = 0 then 0 else ptrAdd p off

/-- What the loop of `gc_migrate` makes of the parent of a node. -/
def adjustedParent (off : Int) (root p : Nat) : Nat := if p ≠ root then adjusted off p else p

theorem adjusted_shift {o : Nat} (h0 : 0 < base) (hlt : nb + o < 2 ^ 64) : adjusted ((nb : Int) - base) (base + o) = nb + o := by
  unfold adjusted ptrAdd
  rw [if_neg (by omega)]
  omega

theorem adjustPtr_eq (h : GcHeap) (slot : Nat) (off : Int) :
    ∃ m, adjustPtr h slot off = { h with mem := m } ∧ m.load slot 8 = adjusted off (h.mem.load slot 8) ∧
      ∀ x, ¬(slot ≤ x ∧ x < slot + 8) → m x = h.mem x := by
  unfold adjustPtr adjusted
  by_cases h0 : h.mem.load slot 8 = 0
  · rw [if_pos h0, if_pos h0]
    exact ⟨h.mem, rfl, h0, fun _ _ => rfl⟩
  rw [if_neg h0, if_neg h0]
  refine ⟨_, rfl, Mem.load_store_of_lt ?_, fun x hx => Mem.store_of_not hx⟩
  unfold ptrAdd
  norm_num
  omega

/-- The links of the node at `q` are shifted. -/
structure NodeShifted (off : Int) (root : Nat) (m m' : Mem) (q : Nat) : Prop where
  left : m'.load (q + 8) 8 = adjusted off (m.load (q + 8) 8)
  right : m'.load (q + 16) 8 = adjusted off (m.load (q + 16) 8)
  parent : m'.load (q + 24) 8 = adjustedParent off root (m.load (q + 24) 8)

theorem adjustNode_spec (h : GcHeap) (q : Nat) (off : Int) : ∃ m, adjustNode h q off = { h with mem := m } ∧
      NodeShifted off h.kfcTreeRoot h.mem m q ∧ ∀ x, ¬(q + 8 ≤ x ∧ x < q + 32) → m x = h.mem x := by
  obtain ⟨m₁, hrun₁, hload₁, hout₁⟩ := adjustPtr_eq h (q + 8) off
  obtain ⟨m₂, hrun₂, hload₂, hout₂⟩ := adjustPtr_eq { h with mem := m₁ } (q + 16) off
  obtain ⟨m₃, hrun₃, hload₃, hout₃⟩ := adjustPtr_eq { h with mem := m₂ } (q + 24) off
  simp only at hload₂ hout₂ hload₃ hout₃
  have hright₁ : m₁.load (q + 16) 8 = h.mem.load (q + 16) 8 := Mem.load_congr fun x _ _ => hout₁ x (by omega)
  have hleft₂ : m₂.load (q + 8) 8 = m₁.load (q + 8) 8 := Mem.load_congr fun x _ _ => hout₂ x (by omega)
  have hpar₂ : m₂.load (q + 24) 8 = h.mem.load (q + 24) 8 :=
    (Mem.load_congr fun x _ _ => hout₂ x (by omega)).trans (Mem.load_congr fun x _ _ => hout₁ x (by omega))
  have hkeep : ∀ x, ¬(q + 8 ≤ x ∧ x < q + 24) → m₂ x = h.mem x := fun x hx =>
    (hout₂ x (by omega)).trans (hout₁ x (by omega))
  unfold adjustNode
  simp only [hrun₁, hrun₂]
  by_cases hp : h.mem.load (q + 24) 8 ≠ h.kfcTreeRoot
  · refine ⟨m₃, ?_, ⟨?_, ?_, ?_⟩, fun x hx => (hout₃ x (by omega)).trans (hkeep x (by omega))⟩
    · show (if m₂.load (q + 24) 8 ≠ h.kfcTreeRoot then _ else _) = _
      rw [hpar₂, if_pos hp, hrun₃]
    · rw [Mem.load_congr fun x _ _ => hout₃ x (by omega), hleft₂, hload₁]
    · rw [Mem.load_congr fun x _ _ => hout₃ x (by omega), hload₂, hright₁]
    · rw [hload₃, hpar₂, adjustedParent, if_pos hp]
  refine ⟨m₂, ?_, ⟨?_, ?_, ?_⟩, fun x hx => hkeep x (by omega)⟩
  · show (if m₂.load (q + 24) 8 ≠ h.kfcTreeRoot then _ else _) = _
    rw [hpar₂, if_neg hp]
  · rw [hleft₂, hload₁]
  · rw [hload₂, hright₁]
  · rw [hpar₂, adjustedParent, if_neg hp]

/-- The loop of `gc_migrate` shifts the links of the large free chunks and writes nothing else. -/
theorem migrateChunks_spec {h : GcHeap} {p fuel : Nat} {pin : Bool} {cs : List Chunk} (hc : ChunksAt h p pin cs)
    (hs : Sized cs) (hend : p + total Chunk.size cs = h.baseAddr + h.currentSize) (hf : cs.length < fuel) :
    ∃ m, migrateChunks off fuel h p = some { h with mem := m } ∧
      (∀ x, (∀ q n, FreeIn p cs q n → 248 ≤ n → ¬(q + 8 ≤ x ∧ x < q + 32)) → m x = h.mem x) ∧
      ∀ q n, FreeIn p cs q n → 248 ≤ n → NodeShifted off h.kfcTreeRoot h.mem m q := by
  induction cs generalizing h p pin fuel with
  | nil =>
    obtain ⟨fuel, rfl⟩ := Nat.exists_eq_succ_of_ne_zero (Nat.ne_zero_of_lt hf)
    simp only [total_nil] at hend
    rw [migrateChunks, if_neg (by omega)]
    exact ⟨h.mem, rfl, fun _ _ => rfl, fun q n hq => absurd hq freeIn_nil⟩
  | cons c cs ih =>
    obtain ⟨fuel, rfl⟩ := Nat.exists_eq_succ_of_ne_zero (Nat.ne_zero_of_lt hf)
    obtain ⟨hhdr, hcs⟩ := hc
    obtain ⟨⟨-, h16⟩, hs'⟩ := sized_cons.1 hs
    simp only [total_cons] at hend
    simp only [List.length_cons] at hf
    have hf' : cs.length < fuel := by omega
    rw [migrateChunks, if_pos (by omega)]
    simp only [hhdr.size]
    by_cases hlarge : c.used = false ∧ 248 ≤ c.size
    · obtain ⟨hu, h248⟩ := hlarge
      have hcond : hmuGetUt (h.header p) = hmuFC ∧ ¬hmuIsFcNormal c.size := by
        rw [hhdr.ut, Index.hmuIsFcNormal_iff, if_neg (by simp [hu])]
        exact ⟨rfl, by omega⟩
      obtain ⟨m₁, hrun₁, hnode, hout₁⟩ := adjustNode_spec h p off
      rw [if_pos hcond, hrun₁]
      have hcs₁ : ChunksAt { h with mem := m₁ } (p + c.size) c.used cs := by
        refine hcs.congr fun q e hq => ?_
        have hqb := located_bounds hq
        have he16 := (hs' e (mem_of_located hq)).2
        exact ⟨fun x _ _ => hout₁ x (by omega), fun _ x _ _ => hout₁ x (by omega)⟩
      obtain ⟨m, hrun, hout, hnodes⟩ := ih hcs₁ hs' (by simp only; omega) hf'
      -- the nodes of the chunks behind are not in this chunk
      have hbehind : ∀ q n, FreeIn (p + c.size) cs q n → p + c.size ≤ q := fun q n hq => hq.bounds.1
      refine ⟨m, hrun, fun x hx => ?_, fun q n hq hn => ?_⟩
      · rw [hout x fun q n hq hn => hx q n (freeIn_cons.2 (.inr hq)) hn]
        exact hout₁ x (hx p c.size (freeIn_cons.2 (.inl ⟨rfl, hu, rfl⟩)) h248)
      rcases freeIn_cons.1 hq with ⟨rfl, -, -⟩ | hq
      · have hkeep : ∀ a k, q ≤ a → a + k ≤ q + 32 → m.load a k = m₁.load a k := fun a k h1 h2 =>
          Mem.load_congr fun x _ _ => hout x fun q' n' hq' _ => by
            have := hbehind q' n' hq'
            omega
        exact ⟨(hkeep _ _ (by omega) (by omega)).trans hnode.left, (hkeep _ _ (by omega) (by omega)).trans hnode.right,
          (hkeep _ _ (by omega) (by omega)).trans hnode.parent⟩
      obtain ⟨hl, hr, hp⟩ := hnodes q n hq hn
      have hq' := hbehind q n hq
      have hkeep : ∀ a k, q ≤ a → m₁.load a k = h.mem.load a k := fun a k h1 =>
        Mem.load_congr fun x _ _ => hout₁ x (by omega)
      simp only [hkeep _ _ (Nat.le_add_right q _)] at hl hr hp
      exact ⟨hl, hr, hp⟩
    · have hcond : ¬(hmuGetUt (h.header p) = hmuFC ∧ ¬hmuIsFcNormal c.size) := by
        rw [hhdr.ut, Index.hmuIsFcNormal_iff]
        rintro ⟨hut, hn⟩
        refine hlarge ⟨?_, by omega⟩
        cases hu : c.used with
        | false => rfl
        | true =>
          have hne : (hmuVO : BitVec 32) ≠ hmuFC := by decide
          rw [hu] at hut
          exact absurd hut hne
      rw [if_neg hcond]
      have hsame : ∀ q n, 248 ≤ n → (FreeIn p (c :: cs) q n ↔ FreeIn (p + c.size) cs q n) := by
        intro q n hn
        rw [freeIn_cons]
        refine or_iff_right fun hq => hlarge ⟨hq.2.1, by omega⟩
      obtain ⟨m, hrun, hout, hnodes⟩ := ih hcs hs' (by omega) hf'
      exact ⟨m, hrun, fun x hx => hout x fun q n hq hn => hx q n ((hsame q n hn).2 hq) hn,
        fun q n hq hn => hnodes q n ((hsame q n hn).1 hq) hn⟩

/-- A tree whose nodes are copied to another place and whose links are shifted is the tree at the new place. -/
theorem TreeAt.shift {t : SizeTree Nat} {m m₁ m' : Mem} {ptr par root size : Nat} (hb : 0 < base) (hnb : 0 < nb)
    (hend : nb + size ≤ 2 ^ 64) (ht : TreeAt m (t.map (base + ·)) ptr par)
    (hin : ∀ o ∈ t.items, o + 32 ≤ size ∧ base + o ≠ root) (hcopy : SameBytes m m₁ base nb size)
    (hsize : ∀ o ∈ t.items, m'.load (nb + o + 4) 4 = m₁.load (nb + o + 4) 4)
    (hnode : ∀ o ∈ t.items, NodeShifted ((nb : Int) - base) root m₁ m' (nb + o)) :
    TreeAt m' (t.map (nb + ·)) (adjusted ((nb : Int) - base) ptr) (adjustedParent ((nb : Int) - base) root par) := by
  induction t generalizing ptr par with
  | leaf =>
    have h0 : ptr = 0 := ht
    rw [h0]
    rfl
  | node l o s r ihl ihr =>
    obtain ⟨rfl, -, hs, hp, hl, hr⟩ := ht
    obtain ⟨hoin, hroot⟩ := hin o (by simp)
    have hown : adjusted ((nb : Int) - base) (base + o) = nb + o := adjusted_shift hb (by omega)
    have hpar : adjustedParent ((nb : Int) - base) root (base + o) = nb + o := by
      rw [adjustedParent, if_pos hroot, hown]
    obtain ⟨hleft, hright, hparent⟩ := hnode o (by simp)
    have hload : ∀ i k, i + k ≤ 32 → m₁.load (nb + o + i) k = m.load (base + o + i) k := fun i k hik => by
      rw [Nat.add_assoc, Nat.add_assoc]
      exact hcopy.load (by omega)
    have hl' := ihl hl (fun a ha => hin a (by simp [ha])) (fun a ha => hsize a (by simp [ha]))
      fun a ha => hnode a (by simp [ha])
    have hr' := ihr hr (fun a ha => hin a (by simp [ha])) (fun a ha => hsize a (by simp [ha]))
      fun a ha => hnode a (by simp [ha])
    rw [hpar] at hl' hr'
    rw [hown]
    refine ⟨rfl, Nat.ne_of_gt (Nat.add_pos_left hnb o), ?_, ?_, ?_, ?_⟩
    · rw [hsize o (by simp), hload 4 4 (by omega), hs]
    · rw [hparent, hload 24 8 (by omega), hp]
    · rw [hleft, hload 8 8 (by omega)]
      exact hl'
    · rw [hright, hload 16 8 (by omega)]
      exact hr'

end Shift

/-! ## The whole of `gc_migrate` -/

theorem Sized.length_le {cs : List Chunk} (hs : Sized cs) : cs.length ≤ total Chunk.size cs := by
  induction cs with
  | nil => exact Nat.le_refl 0
  | cons c cs ih =>
    obtain ⟨hc, hcs⟩ := sized_cons.1 hs
    have := ih hcs
    simp only [List.length_cons, total_cons]
    omega

/-- The pool of the heap `h` has been copied, and `m` is the memory after that: to a buffer at `buf` that is 8-byte aligned, large
enough and apart from the root, which has stayed as it was. -/
structure Copied (h : GcHeap) (m : Mem) (buf : Nat) (bufSize : UInt32) : Prop where
  align : buf % 8 = 0
  large : gcHeadPadding + h.currentSize ≤ bufSize.toNat
  end_le : buf + bufSize.toNat ≤ 2 ^ 64
  apart : h.kfcTreeRoot + 32 ≤ buf ∨ buf + bufSize.toNat ≤ h.kfcTreeRoot
  bytes : SameBytes h.mem m h.baseAddr (buf + gcHeadPadding) h.currentSize
  root : Mem.EqOn h.mem m h.kfcTreeRoot 32

section Moved
variable {h : GcHeap} {A : Arena} {m : Mem} {buf : Nat} {bufSize : UInt32}

/-- A node of the tree is a large free chunk of the pool, wherever the pool lies. -/
theorem Repr.tree_free (hr : Repr h A) {o : Nat} (ho : o ∈ A.index.tree.items) (p : Nat) :
    ∃ n, FreeIn p A.chunks (p + o) n ∧ 248 ≤ n ∧ o + n ≤ h.currentSize := by
  obtain ⟨n, hn, c, hc, hu, rfl⟩ := hr.wf.holds.tree_item ho
  have := (located_bounds hc).2
  have ht := hr.total_eq
  exact ⟨c.size, ⟨c, mem_located_shift.2 hc, hu, rfl⟩, hn, by omega⟩

/-- The three pointers of the root are shifted as those of a node are: the root has no parent. -/
theorem adjustRoot_eq {off : Int} (hroot : h.kfcTreeRoot ≠ 0) (hpar : h.mem.load (h.kfcTreeRoot + 24) 8 = 0) :
    adjustPtr (adjustPtr (adjustPtr h (h.kfcTreeRoot + 8) off) (h.kfcTreeRoot + 16) off) (h.kfcTreeRoot + 24) off =
      adjustNode h h.kfcTreeRoot off := by
  obtain ⟨m₁, hrun₁, -, hout₁⟩ := adjustPtr_eq h (h.kfcTreeRoot + 8) off
  obtain ⟨m₂, hrun₂, -, hout₂⟩ := adjustPtr_eq { h with mem := m₁ } (h.kfcTreeRoot + 16) off
  have hpar₂ : m₂.load (h.kfcTreeRoot + 24) 8 = 0 := by
    rw [Mem.load_congr fun x _ _ => hout₂ x (by omega), Mem.load_congr fun x _ _ => hout₁ x (by omega), hpar]
  unfold adjustNode
  simp only [hrun₁, hrun₂]
  exact (if_pos (by rw [GcHeap.parent, hpar₂]; exact hroot.symm)).symm

/-- A buffer with room for the padding and the pool passes the check of `gc_migrate`. -/
theorem poolSize_enough {cs : List Chunk} {cur : Nat} (hs : Sized cs) (ht : total Chunk.size cs = cur)
    (hlarge : gcHeadPadding + cur ≤ bufSize.toNat) :
    ¬(buf + bufSize.toNat < buf + gcHeadPadding ∨ poolSize (buf + gcHeadPadding) (buf + bufSize.toNat) < cur) := by
  have hmod := hs.total_mod
  have hsize := bufSize.toNat_lt
  unfold gcHeadPadding at hlarge ⊢
  rw [poolSize_eq (by omega) (by omega), Nat.add_sub_add_left]
  omega

/-- `gc_migrate` to another place shifts the root, then the chunks. -/
theorem gcMigrate_eq (hr : Repr h A) (hcp : Copied h m buf bufSize) (hne : buf + gcHeadPadding ≠ h.baseAddr) :
    gcMigrate { h with mem := m } buf bufSize =
      (migrateChunks (((buf + gcHeadPadding : Nat) : Int) - h.baseAddr) (h.currentSize + 1)
        (adjustNode { h with mem := m, baseAddr := buf + gcHeadPadding } h.kfcTreeRoot
          (((buf + gcHeadPadding : Nat) : Int) - h.baseAddr)) (buf + gcHeadPadding)).map ((0, ·)) := by
  obtain ⟨halign, hlarge, hend, hapart, hbytes, hroot⟩ := hcp
  have hpar : m.load (h.kfcTreeRoot + 24) 8 = 0 := by
    rw [Mem.load_congr (hroot.mono (by omega) (by omega))]
    exact hr.index.tree.2.2.2.1
  have hoff : ((buf + gcHeadPadding : Nat) : Int) - h.baseAddr ≠ 0 := by omega
  rw [← adjustRoot_eq (h := { h with mem := m, baseAddr := buf + gcHeadPadding }) hr.sane.root_ne hpar]
  rw [gcMigrate, if_neg (by omega), if_neg (poolSize_enough hr.wf.sized hr.total_eq hlarge), if_neg hoff]
  simp only
  split <;> simp only [*, Option.map_none, Option.map_some]

/-- After `gc_migrate` the chunks and the tree are those of the abstract heap at the new place; the lists are not touched. -/
theorem gcMigrate_moves (hr : Repr h A) (hcp : Copied h m buf bufSize) (hne : buf + gcHeadPadding ≠ h.baseAddr) :
    ∃ m', gcMigrate { h with mem := m } buf bufSize = some (0, { h with mem := m', baseAddr := buf + gcHeadPadding }) ∧
      ChunksAt { h with mem := m' } (buf + gcHeadPadding) true A.chunks ∧
      TreeAt m' (node leaf h.kfcTreeRoot 32 (A.index.tree.map (buf + gcHeadPadding + ·))) h.kfcTreeRoot 0 := by
  have hrun := gcMigrate_eq hr hcp hne
  obtain ⟨-, hlarge, hend, hapart, hbytes, hroot⟩ := hcp
  have hsane := hr.sane
  have hra := hsane.root_apart
  have hb4 := hsane.base_align
  have htot := hr.total_eq
  obtain ⟨nb, hnb⟩ : ∃ nb, nb = buf + gcHeadPadding := ⟨_, rfl⟩
  rw [← hnb] at hbytes hne hrun ⊢
  unfold gcHeadPadding at hnb hlarge
  obtain ⟨m₁, hadj, hroot₁, hout₁⟩ := adjustNode_spec { h with mem := m, baseAddr := nb } h.kfcTreeRoot ((nb : Int) - h.baseAddr)
  simp only at hroot₁ hout₁
  -- shifting the root writes nothing in the pool
  have hpool₁ : SameBytes h.mem m₁ h.baseAddr nb h.currentSize := fun i hi => by rw [hout₁ _ (by omega), hbytes i hi]
  have hc₁ : ChunksAt { h with mem := m₁, baseAddr := nb } nb true A.chunks :=
    hr.chunks.relocate hr.wf.sized (by rw [htot]; exact hpool₁)
  obtain ⟨m₂, hloop, hout₂, hnodes⟩ := @migrateChunks_spec ((nb : Int) - h.baseAddr) _ _ _ _ _ hc₁ hr.wf.sized
    (by rw [htot]) (Nat.lt_succ_of_le (htot ▸ hr.wf.sized.length_le))
  -- the loop writes neither the headers, sizes and footers of the chunks nor anything outside the pool
  have hkeep : ∀ q c, (q, c) ∈ located Chunk.size nb A.chunks → ∀ x, q ≤ x → x < q + c.size →
      (248 ≤ c.size → x < q + 8 ∨ q + 32 ≤ x) → m₂ x = m₁ x := by
    intro q c hq x h1 h2 h3
    refine hout₂ x fun q' n' ⟨c', hq', _, hn'⟩ _ hx => ?_
    rcases located_disjoint hq hq' with ⟨rfl, rfl⟩ | hd | hd <;> omega
  have hapart₂ : ∀ x, x < nb ∨ nb + h.currentSize ≤ x → m₂ x = m₁ x := by
    intro x hx
    refine hout₂ x fun q n hq _ hin => ?_
    have := hq.bounds
    omega
  refine ⟨m₂, by rw [hrun, hadj, hloop]; rfl, ?_, ?_⟩
  · refine ChunksAt.congr (h := { h with mem := m₁, baseAddr := nb }) hc₁ fun q c hq => ?_
    have h16 := (hr.wf.sized c (mem_of_located hq)).2
    refine ⟨fun x h1 h2 => hkeep q c hq x h1 (by omega) (by omega), fun _ x h1 h2 => ?_⟩
    exact hkeep q c hq x (by omega) (by omega) (by omega)
  obtain ⟨-, -, hsize, hpar, hleft, hright⟩ := hr.index.tree
  have hload : ∀ i k, i + k ≤ 32 → m.load (h.kfcTreeRoot + i) k = h.mem.load (h.kfcTreeRoot + i) k := fun i k hik =>
    Mem.load_congr (hroot.mono (by omega) (by omega))
  have hload₂ : ∀ i k, i + k ≤ 32 → m₂.load (h.kfcTreeRoot + i) k = m₁.load (h.kfcTreeRoot + i) k := fun i k hik =>
    Mem.load_congr fun x _ _ => hapart₂ x (by omega)
  refine ⟨rfl, hsane.root_ne, ?_, ?_, ?_, ?_⟩
  · rw [hload₂ 4 4 (by omega), Mem.load_congr fun x _ _ => hout₁ x (by omega), hload 4 4 (by omega), hsize]
  · rw [hload₂ 24 8 (by omega), hroot₁.parent, hload 24 8 (by omega), hpar, adjustedParent, if_pos hsane.root_ne.symm]
    rfl
  · rw [hload₂ 8 8 (by omega), hroot₁.left, hload 8 8 (by omega)]
    have h0 : h.mem.load (h.kfcTreeRoot + 8) 8 = 0 := hleft
    rw [h0]
    rfl
  rw [hload₂ 16 8 (by omega), hroot₁.right, hload 16 8 (by omega)]
  have hself : adjustedParent ((nb : Int) - h.baseAddr) h.kfcTreeRoot h.kfcTreeRoot = h.kfcTreeRoot := if_neg (by simp)
  have hb0 : 0 < h.baseAddr := by omega
  have hnb0 : 0 < nb := by omega
  have hend' : nb + h.currentSize ≤ 2 ^ 64 := by omega
  have hin : ∀ o ∈ A.index.tree.items, o + 32 ≤ h.currentSize ∧ h.baseAddr + o ≠ h.kfcTreeRoot := fun o ho => by
    obtain ⟨n, -, hn, hle⟩ := hr.tree_free ho 0
    omega
  have hsizes : ∀ o ∈ A.index.tree.items, m₂.load (nb + o + 4) 4 = m₁.load (nb + o + 4) 4 := fun o ho => by
    obtain ⟨n, ⟨c, hc, -, rfl⟩, hn, -⟩ := hr.tree_free ho nb
    exact Mem.load_congr fun x _ _ => hkeep _ c hc x (by omega) (by omega) (by omega)
  have hmoved := hright.shift hb0 hnb0 hend' hin hpool₁ hsizes fun o ho => by
    obtain ⟨n, hf, hn, -⟩ := hr.tree_free ho nb
    exact hnodes _ n hf hn
  rw [hself] at hmoved
  exact hmoved

/-- The heap `h` that represents `A` has been moved faithfully, with `out` as the result of `gc_migrate`: at its new place it
represents the same abstract heap, so all its chunks are found through its lists and its tree, and every sequence of calls that
frees only objects is answered as before the move. -/
def Faithful (h : GcHeap) (A : Arena) (buf : Nat) (out : Option (Int × GcHeap)) : Prop :=
  ∃ h', out = some (0, h') ∧ h'.baseAddr = buf + gcHeadPadding ∧ Repr h' A ∧
    ∀ ops, A.replies ops ≠ none → h'.replies ops = h.replies ops

theorem Repr.same_replies {h' : GcHeap} (hr : Repr h A) (hr' : Repr h' A) {ops : List HeapOp} (ho : A.replies ops ≠ none) :
    h'.replies ops = h.replies ops := by
  obtain ⟨rs, hrs⟩ := Option.ne_none_iff_exists'.1 ho
  rw [hr.replies hrs, hr'.replies hrs]

section
variable (hr : Repr h A) (hcp : Copied h m buf bufSize)
include hr hcp

theorem faithful_of_unmoved (he : buf + gcHeadPadding = h.baseAddr) : Faithful h A buf (gcMigrate { h with mem := m } buf bufSize) := by
  obtain ⟨halign, hlarge, hend, hapart, hbytes, hroot⟩ := hcp
  have htot := hr.total_eq
  have hmod := hr.wf.sized.total_mod
  rw [he] at hbytes
  have hkeep : ∀ a k, h.baseAddr ≤ a → a + k ≤ h.baseAddr + h.currentSize → Mem.EqOn h.mem m a k := fun a k h1 h2 x hx1 hx2 => by
    have hx := hbytes (x - h.baseAddr) (by omega)
    rwa [Nat.add_sub_cancel' (by omega)] at hx
  have hr' : Repr { h with mem := m } A := by
    refine ⟨⟨hr.sane.base_align, hr.sane.size_lt, hr.sane.end_le, hr.sane.root_ne, hr.sane.root_le, hr.sane.root_apart⟩, hr.ok,
      hr.wf, ?_, htot, ?_, hr.free_eq⟩
    · refine hr.chunks.congr fun q c hq => ?_
      have hb := located_bounds hq
      have h16 := (hr.wf.sized c (mem_of_located hq)).2
      exact ⟨hkeep _ _ (by omega) (by omega), fun _ => hkeep _ _ (by omega) (by omega)⟩
    refine hr.index.congr hr.wf.holds rfl rfl rfl (hroot.mono (by omega) (by omega)) fun o n hf => ?_
    have hb := hr.spread.bounds o n hf
    have hn := nodeEnd_le hb.2.2.1
    exact hkeep _ _ (by omega) (by omega)
  refine ⟨{ h with mem := m }, ?_, he.symm, hr', fun ops ho => hr.same_replies hr' ho⟩
  rw [gcMigrate, if_neg (by omega), if_neg (poolSize_enough hr.wf.sized htot hlarge), if_pos (by rw [he]; exact Int.sub_self _)]

theorem faithful_of_no_lists (hne : buf + gcHeadPadding ≠ h.baseAddr)
    (hl : ∀ i < hmuNormalNodeCnt, h.kfcNormalList i = 0) : Faithful h A buf (gcMigrate { h with mem := m } buf bufSize) := by
  obtain ⟨m', hrun, hc, ht⟩ := gcMigrate_moves hr hcp hne
  obtain ⟨halign, hlarge, hend, hapart, -, -⟩ := hcp
  unfold gcHeadPadding at hlarge
  have hsane : Sane { h with mem := m', baseAddr := buf + gcHeadPadding } := by
    refine ⟨?_, hr.sane.size_lt, ?_, hr.sane.root_ne, hr.sane.root_le, ?_⟩ <;> simp only [gcHeadPadding] <;> omega
  have hempty : ∀ i, A.index.bins i = [] := fun i => by
    by_cases hi : i < 31
    · have hz := (hr.index.lists i).head_eq_zero.1 (hl i (Nat.lt_succ_of_lt hi))
      exact List.map_eq_nil_iff.1 hz
    · exact List.eq_nil_iff_forall_not_mem.2 fun o ho => hi ((hr.wf.holds.bins_iff i o).1 ho).1
  have hr' : Repr { h with mem := m', baseAddr := buf + gcHeadPadding } A := by
    refine ⟨hsane, hr.ok, hr.wf, hc.congr fun _ _ _ => ⟨Mem.EqOn.refl _ _ _, fun _ => Mem.EqOn.refl _ _ _⟩, hr.total_eq,
      ⟨fun i => ?_, ht⟩, hr.free_eq⟩
    have hz := hr.index.lists i
    rw [hempty i] at hz ⊢
    exact hz
  exact ⟨_, hrun, rfl, hr', fun ops ho => hr.same_replies hr' ho⟩

/-- A heap that has moved represents its chunks only if its lists are empty: their heads are still those of the old place. -/
theorem no_lists_of_faithful (hne : buf + gcHeadPadding ≠ h.baseAddr)
    (hf : Faithful h A buf (gcMigrate { h with mem := m } buf bufSize)) (i : Nat) : h.kfcNormalList i = 0 := by
  obtain ⟨m', hrun, -, -⟩ := gcMigrate_moves hr hcp hne
  obtain ⟨h', hout, -, hr', -⟩ := hf
  rw [hrun] at hout
  cases hout
  have hold := hr.index.lists i
  have hnew := hr'.index.lists i
  simp only at hnew
  cases hb : A.index.bins i with
  | nil =>
    rw [hb] at hold
    exact hold
  | cons o os =>
    rw [hb] at hold hnew
    have h1 : h.kfcNormalList i = h.baseAddr + o := hold.1
    have h2 : h.kfcNormalList i = buf + gcHeadPadding + o := hnew.1
    omega

end

/-- `gc_migrate` moves a heap faithfully exactly when the heap stays where it is or all its normal lists are empty. -/
theorem gcMigrate_faithful_iff (hr : Repr h A) (hcp : Copied h m buf bufSize) :
    Faithful h A buf (gcMigrate { h with mem := m } buf bufSize) ↔
      buf + gcHeadPadding = h.baseAddr ∨ ∀ i < hmuNormalNodeCnt, h.kfcNormalList i = 0 := by
  by_cases he : buf + gcHeadPadding = h.baseAddr
  · exact ⟨fun _ => Or.inl he, fun _ => faithful_of_unmoved hr hcp he⟩
  · refine ⟨fun hf => Or.inr fun i _ => no_lists_of_faithful hr hcp he hf i, fun hcond => ?_⟩
    exact faithful_of_no_lists hr hcp he (hcond.resolve_left he)

/-- Copying the pool into a fresh buffer gives the memory that `gc_migrate` expects. -/
theorem copied_copy (halign : buf % 8 = 0) (hlarge : gcHeadPadding + h.currentSize ≤ bufSize.toNat)
    (hend : buf + bufSize.toNat ≤ 2 ^ 64) (hapart : h.kfcTreeRoot + 32 ≤ buf ∨ buf + bufSize.toNat ≤ h.kfcTreeRoot) :
    Copied h (h.mem.copy (buf + gcHeadPadding) h.baseAddr h.currentSize) buf bufSize := by
  refine ⟨halign, hlarge, hend, hapart, fun i hi => ?_, fun x h1 h2 => ?_⟩
  · rw [Mem.copy, if_pos (by omega), Nat.add_sub_cancel_left]
  · unfold gcHeadPadding at hlarge ⊢
    rw [Mem.copy, if_neg (by omega)]

/-- When the list of the size asked for has a head that is not in the heap, the allocation fails. -/
theorem gcAllocVo_stale {i : Nat} {size : UInt32} (hok : h.isHeapCorrupted = false) (hi : 2 ≤ i ∧ i < 31)
    (hsize : size.toNat + 4 = i * 8) (hhead : h.kfcNormalList i ≠ 0) (hout : ¬hmuIsInHeap h (h.kfcNormalList i)) :
    gcAllocVo h size = some (0, h.corrupt) := by
  have htot : gcAlign8 (add32 hmuSize size.toNat) = i * 8 := by
    unfold gcAlign8 add32 hmuSize
    omega
  have hfirst : firstNormal h.kfcNormalList (hmuNormalNodeCnt - i) i = some i := by
    obtain ⟨k, hk⟩ : ∃ k, hmuNormalNodeCnt - i = k + 1 := ⟨31 - i, by unfold hmuNormalNodeCnt; omega⟩
    rw [hk, firstNormal, if_pos hhead]
  have halloc : allocHmu h (i * 8) = some (0, h.corrupt) := by
    have hsmallest : gcSmallestSize = 16 := rfl
    have hbig : ¬i * 8 < gcSmallestSize := by omega
    have hnormal : hmuIsFcNormal (i * 8) := by
      rw [Index.hmuIsFcNormal_iff]
      omega
    simp only [allocHmu, if_neg hbig, if_pos hnormal, Nat.mul_div_cancel i (by omega : 0 < 8), hfirst, if_pos hout]
  simp only [gcAllocVo, htot, hok, halloc]
  rw [if_neg (by omega)]
  rfl

end Moved

/-! ## A heap of 248 bytes, moved from 8196 to 16388 -/

theorem gcMigrate_small : ∃ m, Copied (gcInitInternal (fun _ => 0) 4096 8196 248) m 16384 256 ∧
    Faithful (gcInitInternal (fun _ => 0) 4096 8196 248) (Arena.fresh 248) 16384
      (gcMigrate { gcInitInternal (fun _ => 0) 4096 8196 248 with mem := m } 16384 256) :=
  have hcp := copied_copy (h := gcInitInternal (fun _ => 0) 4096 8196 248) (by decide : 16384 % 8 = 0)
    (by decide : _ ≤ UInt32.toNat 256) (by decide) (by decide)
  ⟨_, hcp, (gcMigrate_faithful_iff setUp_small.repr hcp).2 (.inr fun _ _ => rfl)⟩

/-- With one object of 16 bytes the other 224 bytes are in a list. After the move the head of that list is out of the heap: an
allocation of 220 bytes, which succeeds before the move, gives NULL. -/
theorem migrate_small_breaks : ∃ h A m h', Repr h A ∧ Copied h m 16384 256 ∧
    gcMigrate { h with mem := m } 16384 256 = some (0, h') ∧ h.replies [.alloc 220] = some [.object 28] ∧
    h'.replies [.alloc 220] = some [.null] ∧ ¬Faithful h A 16384 (some (0, h')) := by
  obtain ⟨h, A, -, hr, -, hA, -, halloc, hbase, hroot⟩ := alloc_small
  have hcur : h.currentSize = 248 := by
    rw [← hr.total_eq, hA]
    rfl
  have hlarge : gcHeadPadding + h.currentSize ≤ UInt32.toNat 256 := by rw [hcur]; decide
  have hcp := copied_copy (by decide : 16384 % 8 = 0) hlarge (by decide) (by rw [hroot]; decide)
  have hne : 16384 + gcHeadPadding ≠ h.baseAddr := by rw [hbase]; decide
  -- the free chunk is the only node of list 28
  have hmem : 24 ∈ A.index.bins 28 := by
    rw [hr.wf.holds.bins_iff, hA]
    exact ⟨by decide, freeIn_cons.2 (.inr (freeIn_cons.2 (.inl ⟨rfl, rfl, rfl⟩)))⟩
  have hhead : h.kfcNormalList 28 ≠ 0 := fun h0 => by
    have := List.map_eq_nil_iff.1 ((hr.index.lists 28).head_eq_zero.1 h0)
    rw [this] at hmem
    exact List.not_mem_nil hmem
  obtain ⟨o, ho, ⟨c, hc, -⟩, -⟩ := bin_node hr.wf.holds ((hr.index.lists 28).head_mem hhead)
  have hob := (located_bounds hc).2
  obtain ⟨m', hrun, -, -⟩ := gcMigrate_moves hr hcp hne
  have hreply : A.replies [.alloc 220] = some [.object 28] := by
    obtain ⟨⟨o, A'⟩, hA', rfl⟩ := Option.map_eq_some_iff.1 halloc
    simp only [Arena.replies, Arena.apply, show (220 : UInt32).toNat = 220 from rfl, hA']
    rfl
  refine ⟨h, A, _, _, hr, hcp, hrun, hr.replies hreply, ?_, fun hf => ?_⟩
  · have hout : ¬hmuIsInHeap { h with mem := m', baseAddr := 16384 + gcHeadPadding } (h.kfcNormalList 28) := by
      rw [ho, hbase]
      rw [hr.total_eq, hcur] at hob
      simp only [hmuIsInHeap, gcHeadPadding, hcur]
      omega
    have hnull := gcAllocVo_stale (h := { h with mem := m', baseAddr := 16384 + gcHeadPadding }) hr.ok
      (by decide) (by decide : UInt32.toNat 220 + 4 = 28 * 8) hhead hout
    rw [GcHeap.replies, GcHeap.apply, hnull]
    rfl
  · exact hhead (no_lists_of_faithful hr hcp hne (by rw [hrun]; exact hf) 28)

end WamrMigrate.Ems
