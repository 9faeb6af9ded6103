import WamrMigrate.Ems.Run

/-!
# Reallocation

`gc_realloc_vo` answers NULL, keeps an object that is large enough, allocates, copies and frees, or grows the object into the free chunk after it.
The last path keeps neither the count of free bytes nor the note in the next header (`growInPlace_breaks`). All other paths do what they should
(`gcReallocVo_good_iff`).
-/

namespace WamrMigrate.Ems

open SizeTree Tiles

/-! ## The objects that an operation keeps -/

section Keeps
variable {h h' : GcHeap} {A : Arena} {o n a b : Nat}

theorem Within.object (w : Within (FreeIn 0 A.chunks) (h.baseAddr + a) (h.baseAddr + b + 4) h h') (hr : Repr h A)
    (hu : UsedIn 0 A.chunks o n) (hab : o + n ≤ a ∨ b ≤ o) : Mem.EqOn h.mem h'.mem (h.baseAddr + o + 4) (n - 4) := by
  have h1 := hu.bounds
  have h2 := hu.sized hr.wf.sized
  have h3 := hr.total_eq
  refine w.eqOn hr.sane (by omega) (by omega) (by omega) fun o' n' hf => ?_
  have h4 := hu.disjoint_free hf
  have h5 := nodeEnd_le (hf.sized hr.wf.sized).2
  omega

theorem gcFreeVo_object (hr : Repr h A) (hu : UsedIn 0 A.chunks o n) :
    ∃ h' A', gcFreeVo h (h.baseAddr + o + 4) = some (0, h') ∧ Repr h' A' ∧ A'.AllStamped ∧ h'.baseAddr = h.baseAddr ∧
      (∀ o' n', UsedIn 0 A'.chunks o' n' ↔ UsedIn 0 A.chunks o' n' ∧ o' ≠ o) ∧
      ∀ o' n', UsedIn 0 A.chunks o' n' → o' ≠ o → Mem.EqOn h.mem h'.mem (h.baseAddr + o' + 4) (n' - 4) := by
  obtain ⟨pre, c, post, hA, ho, hcu, rfl⟩ := hu.exists_split
  obtain ⟨h', hrun, hr', hw⟩ := gcFreeVo_spec hr hA ho hcu rfl
  have hused := Arena.usedIn_freed hr.wf hA ho hcu
  refine ⟨h', _, hrun, hr', (Arena.freed_wf hr.wf hA ho hcu).2.1, hw.base, hused, fun o' n' hu' hne => ?_⟩
  refine hw.object hr hu' ?_
  -- what has become one free chunk holds no other object
  refine ((hused o' n').2 ⟨hu', hne⟩).disjoint_free ?_
  refine freeIn_append.2 (.inr (freeIn_cons.2 (.inl ⟨?_, rfl, rfl⟩)))
  rw [Nat.zero_add]
  exact (Arena.holds_mergeBefore (Arena.holds_around hr.wf hA ho hcu) (sized_append.1 (hA ▸ hr.wf.sized)).1 ho).2.2.1

end Keeps

/-! ## What reallocation should do -/

/-- The object of `n` bytes at `o` in the heap `h` has become the object of `n'` bytes at `o'` in the well-formed heap `h'`: it
has room for `size` bytes and begins with the old bytes, and every other object is still there with its bytes. -/
structure Resized (h h' : GcHeap) (A A' : Arena) (o n o' n' size : Nat) : Prop where
  repr : Repr h' A'
  footers : A'.AllStamped
  base : h'.baseAddr = h.baseAddr
  object : UsedIn 0 A'.chunks o' n'
  room : size + 4 ≤ n'
  bytes : ∀ i, i < min (n - 4) size → h'.mem (h.baseAddr + o' + 4 + i) = h.mem (h.baseAddr + o + 4 + i)
  others : ∀ o₁ n₁, UsedIn 0 A.chunks o₁ n₁ → o₁ ≠ o →
    UsedIn 0 A'.chunks o₁ n₁ ∧ Mem.EqOn h.mem h'.mem (h.baseAddr + o₁ + 4) (n₁ - 4)

/-- The answer `r` of a reallocation to `size` bytes is right: NULL with nothing changed, or the object resized. -/
def Answered (h : GcHeap) (A : Arena) (o n size : Nat) (r : Option (Nat × GcHeap)) : Prop :=
  ∃ p h', r = some (p, h') ∧
    ((p = 0 ∧ h' = h) ∨ ∃ A' o' n', p = h.baseAddr + o' + 4 ∧ Resized h h' A A' o n o' n' size)

section Copy
variable {h : GcHeap} {A : Arena} {o n size tot : Nat}

/-- The path of `gc_realloc_vo` that allocates, copies and frees gives the right answer. -/
theorem allocCopyFree_good (hr : Repr h A) (hu : UsedIn 0 A.chunks o n) (h8 : tot % 8 = 0) (hn : n < tot)
    (hroom : size + 4 ≤ tot) : Answered h A o n size (allocCopyFree h (h.baseAddr + o + 4) tot n) := by
  have hba := hr.sane.base_align
  have hcur := hr.sane.size_lt
  have hun := hu.sized hr.wf.sized
  unfold allocCopyFree
  rcases allocHmu_spec hr h8 with ⟨-, hrun⟩ | ⟨o', n', h₁, hfind, hrun, hout⟩
  · rw [hrun]
    exact ⟨0, h, rfl, .inl ⟨rfl, rfl⟩⟩
  obtain ⟨hf, hk⟩ := hr.wf.holds.find (by omega) hfind
  have hb := hr.spread.bounds o' n' hf
  have hused := Arena.usedIn_take hr.wf hf (max tot 16)
  have hwm := hout.within.trans (within_markVo h₁ (h.baseAddr + o') (by omega) (by omega))
  have hg : tot ≤ Arena.granted n' (max tot 16) ∧ Arena.granted n' (max tot 16) ≤ n' := by
    unfold Arena.granted
    split <;> omega
  have hnew := (hused o' _).2 (.inr ⟨rfl, rfl⟩)
  have hbase := hwm.base
  have hrepr := hout.repr
  have hsize := hout.size_eq
  have hkept : ∀ o₁ n₁, UsedIn 0 A.chunks o₁ n₁ →
      Mem.EqOn h.mem (markVo h₁ (h.baseAddr + o')).mem (h.baseAddr + o₁ + 4) (n₁ - 4) := fun o₁ n₁ hu₁ =>
    hwm.object hr hu₁ (hu₁.disjoint_free hf)
  have hdis : ∀ o₁ n₁, UsedIn 0 A.chunks o₁ n₁ → o₁ + n₁ ≤ o' ∨ o' + n' ≤ o₁ := fun o₁ n₁ hu₁ => hu₁.disjoint_free hf
  generalize Arena.granted n' (max tot 16) = g at hg hnew hsize hused
  generalize A.take o' n' (max tot 16) = A₁ at hrepr hused hnew
  rw [hrun]
  have hne : h.baseAddr + o' ≠ 0 := by omega
  have hne' : h.baseAddr + o + 4 ≠ 0 := by omega
  have hsub : sub32 g hmuSize = g - 4 := sub32_eq (by unfold hmuSize; omega) (by omega)
  have hsub' : sub32 n hmuSize = n - 4 := sub32_eq (by unfold hmuSize; omega) (by omega)
  have hfits : n - 4 ≤ g - 4 ∧ g - 4 ≤ 0x7FFFFFFF := by omega
  simp only [if_neg hne, if_neg hne', hsize, hsub, hsub', if_pos hfits]
  generalize markVo h₁ (h.baseAddr + o') = h₂ at hwm hbase hrepr hkept
  -- the heap with the old bytes copied into the new object
  obtain ⟨m, hm⟩ : ∃ m, (h₂.clear (h.baseAddr + o' + hmuSize) (g - 4)).mem.copy (h.baseAddr + o' + hmuSize)
      (h.baseAddr + o + 4) (n - 4) = m := ⟨_, rfl⟩
  have hheap : { h₂.clear (h.baseAddr + o' + hmuSize) (g - 4) with mem := m } = { h₂ with mem := m } := rfl
  have hoo := hdis o n hu
  have hout : ∀ x, ¬(h.baseAddr + o' + 4 ≤ x ∧ x < h.baseAddr + o' + g) → m x = h₂.mem x := by
    intro x hx
    rw [← hm]
    unfold hmuSize
    rw [Mem.copy_of_not (by omega)]
    exact Mem.fill_of_not (by omega)
  have hcopy : ∀ i, i < n - 4 → m (h.baseAddr + o' + 4 + i) = h.mem (h.baseAddr + o + 4 + i) := by
    intro i hi
    rw [← hm]
    unfold hmuSize
    rw [Mem.copy_of_mem (by omega), show h.baseAddr + o + 4 + (h.baseAddr + o' + 4 + i - (h.baseAddr + o' + 4)) =
      h.baseAddr + o + 4 + i by omega]
    exact (Mem.fill_of_not (by omega)).trans (hkept o n hu _ (by omega) (by omega))
  have hr₃ : Repr { h₂ with mem := m } A₁ := hrepr.write hnew (by rw [hbase]; exact hout)
  obtain ⟨h₃, hh₃⟩ : ∃ h₃, ({ h₂ with mem := m } : GcHeap) = h₃ := ⟨_, rfl⟩
  have hb₃ : h₃.baseAddr = h.baseAddr := by rw [← hh₃]; exact hbase
  have hm₃ : h₃.mem = m := by rw [← hh₃]
  rw [hh₃] at hr₃
  obtain ⟨h₄, A₄, hfree, hr₄, hst₄, hbase₄, hused₄, hkept₄⟩ := gcFreeVo_object hr₃ ((hused o n).2 (.inl hu))
  simp only [hb₃, hm₃] at hfree hbase₄ hkept₄
  have hoo' : o' ≠ o := by omega
  rw [hm, hheap, hh₃, hfree]
  refine ⟨_, h₄, rfl, .inr ⟨A₄, o', g, rfl, hr₄, hst₄, hbase₄, (hused₄ o' g).2 ⟨hnew, hoo'⟩, by omega, ?_, ?_⟩⟩
  · intro i hi
    rw [hkept₄ o' g hnew hoo' _ (by omega) (by omega)]
    exact hcopy i (by omega)
  intro o₁ n₁ hu₁ hne₁
  have hu₁' := (hused o₁ n₁).2 (.inl hu₁)
  refine ⟨(hused₄ o₁ n₁).2 ⟨hu₁', hne₁⟩, ?_⟩
  have hmid : Mem.EqOn h₂.mem m (h.baseAddr + o₁ + 4) (n₁ - 4) := by
    intro x h1 h2
    have := hdis o₁ n₁ hu₁
    exact hout x (by omega)
  exact ((hkept o₁ n₁ hu₁).trans hmid).trans (hkept₄ o₁ n₁ hu₁' hne₁)

end Copy

/-! ## Growing in place -/

/-- The sizes and the types in the headers from `p` on are those of the chunks. -/
def HeadersAt (h : GcHeap) : Nat → List Chunk → Prop
  | _, [] => True
  | p, c :: cs => hmuGetSize (h.header p) = c.size ∧ hmuGetUt (h.header p) = (if c.used then hmuVO else hmuFC) ∧
      HeadersAt h (p + c.size) cs

section Headers
variable {h : GcHeap} {p : Nat} {pin : Bool} {cs cs' xs ys : List Chunk}

theorem ChunksAt.headers (hc : ChunksAt h p pin cs) : HeadersAt h p cs := by
  induction cs generalizing p pin with
  | nil => trivial
  | cons c cs ih => exact ⟨hc.1.size, hc.1.ut, ih hc.2⟩

theorem headersAt_append : HeadersAt h p (xs ++ ys) ↔ HeadersAt h p xs ∧ HeadersAt h (p + total Chunk.size xs) ys := by
  induction xs generalizing p with
  | nil => simp [HeadersAt]
  | cons c xs ih => simp [HeadersAt, ih, and_assoc, Nat.add_assoc]

/-- There is only one way to follow the headers, so the free bytes are determined by them. -/
theorem HeadersAt.freeTotal_eq (hc : HeadersAt h p cs) (hc' : HeadersAt h p cs') (hs : ∀ c ∈ cs, 0 < c.size)
    (hs' : ∀ c ∈ cs', 0 < c.size) (ht : total Chunk.size cs = total Chunk.size cs') : Arena.freeTotal cs = Arena.freeTotal cs' := by
  induction cs generalizing p cs' with
  | nil =>
    cases cs' with
    | nil => rfl
    | cons d cs' =>
      have := hs' d (by simp)
      simp only [total_nil, total_cons] at ht
      omega
  | cons c cs ih =>
    cases cs' with
    | nil =>
      have := hs c (by simp)
      simp only [total_nil, total_cons] at ht
      omega
    | cons d cs' =>
      obtain ⟨h1, h2, h3⟩ := hc
      obtain ⟨h1', h2', h3'⟩ := hc'
      have hsize : d.size = c.size := by rw [← h1, ← h1']
      have hused : d.used = c.used := by
        have hne : (hmuVO : BitVec 32) ≠ hmuFC := by decide
        rw [h2] at h2'
        cases hd : d.used <;> cases hcu : c.used <;> simp only [hd, hcu] at h2' ⊢
        · exact absurd h2' hne
        · exact absurd h2'.symm hne
      simp only [total_cons] at ht
      rw [Arena.freeTotal_cons, Arena.freeTotal_cons, hsize, hused]
      rw [hsize] at h3'
      rw [ih h3 h3' (fun e he => hs e (by simp [he])) (fun e he => hs' e (by simp [he])) (by omega)]

end Headers

/-- `gci_add_fc` for a chunk of 8 bytes, which has no room for a node and a footer: it writes only these 8 bytes. -/
theorem gciAddFc_eight {h : GcHeap} {p : Nat} (hin : hmuIsInHeap h p) :
    ∃ h', gciAddFc h p 8 = some (true, h') ∧ (∀ S, Within S p (p + 8) h h') ∧ h'.totalFreeSize = h.totalFreeSize ∧
      hmuGetSize (h'.header p) = 8 ∧ hmuGetUt (h'.header p) = hmuFC := by
  have hFC : (hmuFC : BitVec 32) = hmuVO ∨ (hmuFC : BitVec 32) = hmuFC := Or.inr rfl
  rw [gciAddFc_eq (by omega) (by omega), linkFc, if_pos (by decide)]
  generalize hu : hmuSetUt (h.header p) hmuFC = u
  generalize hv : hmuSetSize u 8 = v
  have hin' : hmuIsInHeap { h with mem := stampMem h.mem p 8 u v } p := hin
  rw [if_neg (not_not.2 hin')]
  simp only
  have hhdr : (setHmuNormalNodeNext (stampMem h.mem p 8 u v) p (h.kfcNormalList (8 / 8))).load p 4 = v.toNat := by
    unfold setHmuNormalNodeNext
    rw [Mem.load_store_of_disjoint (by omega)]
    exact (load_stampMem (by omega) (by omega)).1
  have hvh : BitVec.ofNat 32 v.toNat = v := by simp
  refine ⟨_, rfl, fun S => ⟨rfl, rfl, rfl, rfl, fun x _ _ hx => ?_⟩, rfl, ?_, ?_⟩
  · exact (Mem.store_of_not (by omega)).trans (eqOn_stampMem (a := x) (k := 1) (by omega) (by omega) x (by omega) (by omega))
  · show hmuGetSize (BitVec.ofNat 32 _) = 8
    rw [GcHeap.setNormalList, hhdr, hvh, ← hv, hmuGetSize_hmuSetSize (by omega) (by omega)]
  · show hmuGetUt (BitVec.ofNat 32 _) = hmuFC
    rw [GcHeap.setNormalList, hhdr, hvh, ← hv, hmuGetUt_hmuSetSize (by omega), ← hu, hmuGetUt_hmuSetUt hFC]

section Grow
variable {h : GcHeap} {A : Arena} {pre post : List Chunk} {c d : Chunk} {o tot : Nat}

/-- The chunks that the headers show after growing in place. -/
def grown (pre post : List Chunk) (n k tot : Nat) : List Chunk :=
  pre ++ ⟨tot, true, false⟩ :: ((if tot < n + k then [⟨n + k - tot, false, true⟩] else []) ++ post)

/-- What `gci_add_fc` does to the bytes behind the grown object, of whatever size they are. -/
theorem Hole.gciAddFc_part {I : Index} {n k : Nat} {pin : Bool} (H : Hole h I pre post o n pin) (hk : k ≤ n) (hk8 : k % 8 = 0) (hk0 : 0 < k) :
    ∃ h', gciAddFc h (h.baseAddr + (o + (n - k))) k = some (true, h') ∧
      Within (Rest pre post (o + n)) (h.baseAddr + (o + (n - k))) (h.baseAddr + (o + n)) h h' ∧
      h'.totalFreeSize = h.totalFreeSize ∧ hmuGetSize (h'.header (h.baseAddr + (o + (n - k)))) = k ∧
      hmuGetUt (h'.header (h.baseAddr + (o + (n - k)))) = hmuFC := by
  have hfinish := H.finish
  have hn8 := H.size8
  have ho8 : o % 8 = 0 := H.start ▸ H.sized_pre.total_mod
  by_cases h8 : k = 8
  · subst h8
    have hin : hmuIsInHeap h (h.baseAddr + (o + (n - 8))) := by
      unfold hmuIsInHeap
      omega
    obtain ⟨h', hrun, hw, hfree, hsize, hut⟩ := gciAddFc_eight hin
    exact ⟨h', hrun, (hw _).mono (fun _ _ hS => hS) (Nat.le_refl _) (by omega), hfree, hsize, hut⟩
  · obtain ⟨hsp, hfresh⟩ := H.spread (o + (n - k)) k (by omega) (by omega) (by omega) hk8 (by omega)
    obtain ⟨h', hrun, -, hw, hfree, hhdr⟩ := Ems.gciAddFc_spec H.sane H.index H.holds hsp hfresh
    exact ⟨h', hrun, hw.mono (fun _ _ hS => hS) (Nat.le_refl _) (by omega), hfree, hhdr.size, hhdr.ut⟩

theorem Hole.absorb_used {I : Index} {n : Nat} {pin : Bool} (H : Hole h I (pre ++ [c]) post (o + c.size) n pin)
    (hcu : c.used = true) : Hole h I pre post o (c.size + n) pin := by
  have hstart := H.start
  simp only [total_append, total_cons, total_nil, Nat.add_zero] at hstart
  have hs := H.sized_pre
  rw [sized_append, sized_cons] at hs
  obtain ⟨hpre, hc, -⟩ := chunksAt_append.1 H.before
  rw [show total Chunk.size pre = o by omega] at hc
  have hn8 := H.size8
  have hn16 := H.size16
  refine ⟨H.sane, hpre, hc.pinuse, ?_, hs.1, H.sized_post, by omega, by omega, by omega, ?_, H.index, ?_⟩
  · rw [← Nat.add_assoc o]
    exact H.after
  · rw [← Nat.add_assoc]
    exact H.finish
  refine H.holds.congr fun o' n' => ?_
  rw [← Nat.add_assoc]
  unfold Rest
  rw [freeIn_append, freeIn_cons, hcu]
  simp [freeIn_nil]

theorem Hole.write {I : Index} {n : Nat} {pin : Bool} {h' : GcHeap} (H : Hole h I pre post o n pin)
    (w : Within (fun _ _ => False) (h.baseAddr + o) (h.baseAddr + (o + n)) h h') (hl : h'.kfcNormalList = h.kfcNormalList)
    (hroot : Mem.EqOn h.mem h'.mem (h.kfcTreeRoot + 4) 28)
    (hpin : hmuGetPinuse (h'.header (h.baseAddr + o)) = hmuGetPinuse (h.header (h.baseAddr + o))) : Hole h' I pre post o n pin := by
  obtain ⟨hpre, hpost⟩ := H.frame (w.mono (fun _ _ hf => hf.elim) (Nat.le_refl _) (Nat.le_refl _)) (Nat.le_refl _)
    (Nat.le_refl _)
  refine ⟨w.sane H.sane, ?_, ?_, ?_, H.sized_pre, H.sized_post, H.size8, H.size16, H.start, ?_, ?_, H.holds⟩
  · rw [w.base]
    exact hpre
  · rw [w.base, hpin, H.pinuse]
  · rw [w.base]
    exact hpost
  · rw [w.cur]
    exact H.finish
  refine H.index.within H.holds H.sane w hl hroot H.spread_rest fun o' n' hS => ?_
  have h1 := H.side hS
  have h2 := nodeEnd_le h1.1
  omega

/-- Growing in place leaves headers in which the bytes gained are no longer free, and the old count of free bytes. -/
theorem growInPlace_headers (hr : Repr h A) (hA : A.chunks = pre ++ c :: d :: post) (ho : o = total Chunk.size pre)
    (hcu : c.used = true) (hdu : d.used = false) (h8 : tot % 8 = 0) (hlt : c.size < tot) (hle : tot ≤ c.size + d.size) :
    ∃ h', growInPlace h (h.baseAddr + o) (h.baseAddr + o + c.size) tot c.size d.size = some (h.baseAddr + o + 4, h') ∧
      h'.totalFreeSize = h.totalFreeSize ∧ h'.baseAddr = h.baseAddr ∧ h'.currentSize = h.currentSize ∧
      HeadersAt h' h.baseAddr (grown pre post c.size d.size tot) := by
  have hA' : A.chunks = (pre ++ [c]) ++ d :: post := by simp [hA]
  have ho' : o + c.size = total Chunk.size (pre ++ [c]) := by simp [ho]
  have hcur := hr.sane.size_lt
  have hra := hr.sane.root_apart
  have hf : FreeIn 0 A.chunks (o + c.size) d.size := by
    refine ⟨d, mem_located_iff.2 ⟨pre ++ [c], post, hA', by omega⟩, hdu, rfl⟩
  have hhdr : HdrAt h (h.baseAddr + (o + c.size)) (endUsed true (pre ++ [c])) d := by
    have := hr.chunks
    rw [hA'] at this
    rw [ho']
    exact this.hdr
  have hut : hmuGetUt (h.header (h.baseAddr + (o + c.size))) = hmuFC := by
    rw [hhdr.ut, if_neg (by simp [hdu])]
  obtain ⟨h₁, hrun₁, hI₁, hf₁⟩ := unlinkHmu_spec hr.sane hr.index hr.wf.holds hr.spread hf hut hhdr.size
  have hbig := hr.hole hA' ho' hdu rfl hI₁ hf₁
  have hc₁ : HdrAt h₁ (h.baseAddr + o) (endUsed true pre) c := by
    have := hbig.before.hdr
    rwa [hf₁.base, ← ho] at this
  have hc16 := (sized_cons.1 (sized_append.1 hbig.sized_pre).2).1.2
  have H₁ := hbig.absorb_used hcu
  have hfin := H₁.finish
  rw [hf₁.cur] at hfin
  -- the header of the object gets the new size and the bytes gained are cleared
  obtain ⟨v, hv⟩ : ∃ v, hmuSetSize (h₁.header (h.baseAddr + o)) tot = v := ⟨_, rfl⟩
  have hvsize : hmuGetSize v = tot := by rw [← hv, hmuGetSize_hmuSetSize (by omega) h8]
  have hvut : hmuGetUt v = hmuVO := by rw [← hv, hmuGetUt_hmuSetSize (by omega), hc₁.ut, if_pos hcu]
  have hvpin : hmuGetPinuse v = hmuGetPinuse (h₁.header (h.baseAddr + o)) := by
    rw [← hv, hmuGetPinuse_hmuSetSize (by omega)]
  obtain ⟨h₃, hh₃⟩ : ∃ h₃, (h₁.setHeader (h.baseAddr + o) v).clear (h.baseAddr + o + c.size) (tot - c.size) = h₃ := ⟨_, rfl⟩
  have hw₃ : Within (fun _ _ => False) (h.baseAddr + o) (h.baseAddr + (o + (c.size + d.size))) h₁ h₃ := by
    rw [← hh₃]
    refine (within_setHeader v (Nat.le_refl _) (by omega)).trans ⟨rfl, rfl, rfl, rfl, fun x _ _ hx => ?_⟩
    exact Mem.fill_of_not (by omega)
  have hhdr₃ : h₃.header (h.baseAddr + o) = v := by
    rw [← hh₃]
    refine (header_congr (Mem.eqOn_fill ?_)).trans (header_setHeader _ _ _)
    omega
  have H₃ : Hole h₃ (A.index.erase (o + c.size) d.size) pre post o (c.size + d.size) false := by
    refine H₁.write (by rwa [hf₁.base]) (by rw [← hh₃]; rfl) ?_ (by rw [hf₁.base, hhdr₃, hvpin])
    rw [hf₁.root, ← hh₃]
    exact (Mem.eqOn_store (by omega)).fill (by omega)
  have hbase₃ : h₃.baseAddr = h.baseAddr := hw₃.base.trans hf₁.base
  have hfree₃ : h₃.totalFreeSize = h.totalFreeSize := by rw [← hh₃, hf₁.same]; rfl
  have hcur₃ : h₃.currentSize = h.currentSize := hw₃.cur.trans hf₁.cur
  have hadd : add32 c.size d.size = c.size + d.size := add32_eq (by omega)
  unfold growInPlace
  rw [Nat.add_assoc, hrun₁]
  simp only [hv, ← Nat.add_assoc h.baseAddr o c.size, hh₃, hadd]
  by_cases hpart : tot < c.size + d.size
  · obtain ⟨h₄, hrun₄, hw₄, hfree₄, hsize₄, hut₄⟩ :=
      H₃.gciAddFc_part (k := c.size + d.size - tot) (by omega) (by have := H₃.size8; omega) (by omega)
    rw [hbase₃, show o + (c.size + d.size - (c.size + d.size - tot)) = o + tot by omega] at hrun₄ hw₄ hsize₄ hut₄
    obtain ⟨hpre, hpost⟩ := H₃.frame hw₄ (by omega) (by omega)
    rw [hbase₃] at hpre hpost
    have hhdr₄ : h₄.header (h.baseAddr + o) = v := by
      rw [← hhdr₃]
      refine header_congr (hw₄.eqOn H₃.sane (by omega) (by omega) (by omega) fun o' n' hS => ?_)
      have h1 := H₃.side hS
      have h2 := nodeEnd_le h1.1
      omega
    rw [if_pos hpart, sub32_eq (by omega) (by omega), Nat.add_assoc, hrun₄]
    refine ⟨h₄, rfl, hfree₄.trans hfree₃, hw₄.base.trans hbase₃, hw₄.cur.trans hcur₃, ?_⟩
    rw [grown, if_pos hpart, headersAt_append, ← ho]
    refine ⟨hpre.headers, ?_, ?_, ?_, ?_, ?_⟩
    · rw [hhdr₄, hvsize]
    · rw [hhdr₄, hvut]
      rfl
    · rw [Nat.add_assoc, hsize₄]
    · rw [Nat.add_assoc, hut₄]
      rfl
    · simp only
      rw [show h.baseAddr + o + tot + (c.size + d.size - tot) = h.baseAddr + (o + (c.size + d.size)) by omega]
      exact hpost.headers
  · have hpre := H₃.before
    have hpost := H₃.after
    rw [hbase₃] at hpre hpost
    rw [if_neg hpart]
    refine ⟨h₃, rfl, hfree₃, hbase₃, hcur₃, ?_⟩
    rw [grown, if_neg hpart, headersAt_append, ← ho]
    refine ⟨hpre.headers, ?_, ?_, ?_⟩
    · rw [hhdr₃, hvsize]
    · rw [hhdr₃, hvut]
      rfl
    · simp only
      rw [show h.baseAddr + o + tot = h.baseAddr + (o + (c.size + d.size)) by omega]
      exact hpost.headers

/-- The bytes that are free by the headers after growing in place are fewer than before. -/
theorem freeTotal_grown (hdu : d.used = false) (hcu : c.used = true) (hlt : c.size < tot) (hle : tot ≤ c.size + d.size) :
    Arena.freeTotal (grown pre post c.size d.size tot) < Arena.freeTotal (pre ++ c :: d :: post) := by
  unfold grown
  simp only [Arena.freeTotal_append, Arena.freeTotal_cons, hdu, hcu, if_true, Bool.false_eq_true, if_false]
  split
  · simp only [Arena.freeTotal_cons, Bool.false_eq_true, if_false, Arena.freeTotal_nil]
    omega
  · simp only [Arena.freeTotal_nil]
    omega

theorem total_grown (hle : tot ≤ c.size + d.size) :
    total Chunk.size (grown pre post c.size d.size tot) = total Chunk.size (pre ++ c :: d :: post) := by
  unfold grown
  simp only [total_append, total_cons]
  split
  · simp only [total_cons, total_nil]
    omega
  · simp only [total_nil]
    omega

/-- The heap that growing in place leaves is not well formed: its count of free bytes is too large. -/
theorem growInPlace_breaks (hr : Repr h A) (hA : A.chunks = pre ++ c :: d :: post) (ho : o = total Chunk.size pre)
    (hcu : c.used = true) (hdu : d.used = false) (h8 : tot % 8 = 0) (hlt : c.size < tot) (hle : tot ≤ c.size + d.size) :
    ∃ h', growInPlace h (h.baseAddr + o) (h.baseAddr + o + c.size) tot c.size d.size = some (h.baseAddr + o + 4, h') ∧ ∀ A', ¬Repr h' A' := by
  obtain ⟨h', hrun, hfree, hbase, hcur, hhdrs⟩ := growInPlace_headers hr hA ho hcu hdu h8 hlt hle
  refine ⟨h', hrun, fun A' hr' => ?_⟩
  have hs := hr.wf.sized
  have ht := hr.total_eq
  have hfr := hr.free_eq
  rw [hA] at hs ht hfr
  have hwalk := hr'.chunks.headers
  rw [hbase] at hwalk
  have hpos : ∀ e ∈ grown pre post c.size d.size tot, 0 < e.size := by
    obtain ⟨hpre, -, hpost⟩ := (sized_append.1 hs).imp_right fun h2 => (sized_cons.1 h2).imp_right fun h3 => (sized_cons.1 h3).2
    intro e he
    simp only [grown, List.mem_append, List.mem_cons] at he
    rcases he with he | rfl | he | he
    · exact hpre.pos e he
    · simp only
      omega
    · split at he
      · rw [List.mem_singleton.1 he]
        simp only
        omega
      · cases he
    · exact hpost.pos e he
  have heq := hhdrs.freeTotal_eq hwalk hpos hr'.wf.sized.pos (by rw [total_grown hle, ht, hr'.total_eq, hcur])
  have hless : Arena.freeTotal (grown pre post c.size d.size tot) < _ := freeTotal_grown hdu hcu hlt hle
  rw [heq, ← hr'.free_eq, hfree, hfr] at hless
  exact Nat.lt_irrefl _ hless

end Grow

/-! ## The whole of `gc_realloc_vo` -/

/-- The request is larger than the object, and the chunk after the object is free and large enough for the difference. -/
def GrowsInPlace (h : GcHeap) (ptr : Nat) (size : UInt32) : Prop :=
  size.toNat ≤ Arena.totSize size.toNat ∧ hmuGetSize (h.header (ptr - hmuSize)) < Arena.totSize size.toNat ∧
    hmuIsInHeap h (ptr - hmuSize + hmuGetSize (h.header (ptr - hmuSize))) ∧
    hmuGetUt (h.header (ptr - hmuSize + hmuGetSize (h.header (ptr - hmuSize)))) = hmuFC ∧
    Arena.totSize size.toNat ≤ add32 (hmuGetSize (h.header (ptr - hmuSize)))
      (hmuGetSize (h.header (ptr - hmuSize + hmuGetSize (h.header (ptr - hmuSize)))))

section Whole
variable {h : GcHeap} {A : Arena} {o n : Nat}

section
variable (hr : Repr h A) (hu : UsedIn 0 A.chunks o n)
include hr hu

theorem Repr.used_header : hmuGetSize (h.header (h.baseAddr + o)) = n := by
  obtain ⟨pre, c, post, hA, ho, -, hn⟩ := hu.exists_split
  have hc := hr.chunks
  rw [hA] at hc
  rw [ho, hc.hdr.size, hn]

/-- When the chunk after an object is free by its header, it is a free chunk of the abstract heap. -/
theorem Repr.next_free (hin : hmuIsInHeap h (h.baseAddr + o + n)) (hut : hmuGetUt (h.header (h.baseAddr + o + n)) = hmuFC) :
    ∃ pre c d post, A.chunks = pre ++ c :: d :: post ∧ o = total Chunk.size pre ∧ c.used = true ∧ c.size = n ∧
      d.used = false ∧ hmuGetSize (h.header (h.baseAddr + o + n)) = d.size := by
  obtain ⟨pre, c, post, hA, ho, hcu, hn⟩ := hu.exists_split
  have ht := hr.total_eq
  have hc := hr.chunks
  rw [hA] at ht hc
  obtain ⟨-, -, hpost⟩ := chunksAt_append.1 hc
  rw [← ho, hn] at hpost
  cases post with
  | nil =>
    unfold hmuIsInHeap at hin
    simp only [total_append, total_cons, total_nil] at ht
    omega
  | cons d post =>
    have hd := hpost.1
    refine ⟨pre, c, d, post, hA, ho, hcu, hn, ?_, hd.size⟩
    cases hdu : d.used with
    | false => rfl
    | true =>
      have hne : (hmuVO : BitVec 32) ≠ hmuFC := by decide
      have := hd.ut
      rw [hut, hdu] at this
      exact absurd this.symm hne

/-- When the chunk after the object is free and large enough for the difference, the answer is not right. -/
theorem not_answered_of_grows {size : UInt32} (hg : GrowsInPlace h (h.baseAddr + o + 4) size) :
    ¬Answered h A o n size.toNat (gcReallocVo h (h.baseAddr + o + 4) size) := by
  have hsize := hr.used_header hu
  have hp : h.baseAddr + o + 4 - hmuSize = h.baseAddr + o := rfl
  have htot : gcAlign8 (add32 hmuSize size.toNat) = Arena.totSize size.toNat := rfl
  unfold GrowsInPlace at hg
  simp only [hp, hsize] at hg
  obtain ⟨hover, hlt, hgrow⟩ := hg
  obtain ⟨h8, -, -⟩ := totSize_spec size.toNat_lt (by omega)
  unfold gcReallocVo
  simp only [htot, hp, hsize]
  rw [if_neg (by omega), if_neg (by simp [hr.ok]), if_neg (by omega), if_neg (by omega), if_pos hgrow]
  obtain ⟨hin, hut, hle⟩ := hgrow
  obtain ⟨pre, c, d, post, hA, ho, hcu, rfl, hdu, hd⟩ := hr.next_free hu hin hut
  have hcap : c.size + d.size < 2 ^ 32 := by
    have h1 := hr.total_eq
    have h2 := hr.sane.size_lt
    rw [hA] at h1
    simp only [total_append, total_cons] at h1
    omega
  rw [hd, add32_eq hcap] at hle
  obtain ⟨h', hrun, hbreak⟩ := growInPlace_breaks hr hA ho hcu hdu h8 hlt hle
  rw [hd, hrun]
  rintro ⟨p, h'', he, hok⟩
  cases he
  rcases hok with ⟨hz, -⟩ | ⟨A', o', n', -, hres⟩
  · omega
  · exact absurd hres.repr (hbreak A')

end

theorem answered_of_not_grows {size : UInt32} (hr : Repr h A) (hst : A.AllStamped) (hu : UsedIn 0 A.chunks o n)
    (hg : ¬GrowsInPlace h (h.baseAddr + o + 4) size) : Answered h A o n size.toNat (gcReallocVo h (h.baseAddr + o + 4) size) := by
  have hsize := hr.used_header hu
  have hp : h.baseAddr + o + 4 - hmuSize = h.baseAddr + o := rfl
  have htot : gcAlign8 (add32 hmuSize size.toNat) = Arena.totSize size.toNat := rfl
  unfold GrowsInPlace at hg
  unfold gcReallocVo
  simp only [htot, hp, hsize] at hg ⊢
  split
  · -- the size of the chunk would overflow
    exact ⟨0, h, rfl, .inl ⟨rfl, rfl⟩⟩
  rename_i hover
  obtain ⟨h8, hroom, -⟩ := totSize_spec size.toNat_lt hover
  rw [if_neg (by simp [hr.ok]), if_neg (by omega)]
  split
  · -- the object is large enough
    refine ⟨_, h, rfl, .inr ⟨A, o, n, rfl, hr, hst, rfl, hu, by omega, fun _ _ => rfl, fun o₁ n₁ hu₁ _ => ?_⟩⟩
    exact ⟨hu₁, Mem.EqOn.refl _ _ _⟩
  rename_i hkeep
  rw [if_neg fun hgrow => hg ⟨by omega, by omega, hgrow⟩]
  exact allocCopyFree_good hr hu h8 (by omega) hroom

/-- `gc_realloc_vo` gives the right answer for a live object of a well-formed heap exactly when it does not grow the object
into the free chunk after it. -/
theorem gcReallocVo_good_iff (hr : Repr h A) (hst : A.AllStamped) (hu : UsedIn 0 A.chunks o n) (size : UInt32) :
    Answered h A o n size.toNat (gcReallocVo h (h.baseAddr + o + 4) size) ↔ ¬GrowsInPlace h (h.baseAddr + o + 4) size :=
  ⟨fun ha hg => not_answered_of_grows hr hu hg ha, answered_of_not_grows hr hst hu⟩

end Whole

/-! ## A heap with one object -/

theorem gcReallocVo_small : ∃ h A, Repr h A ∧ A.AllStamped ∧ UsedIn 0 A.chunks 0 24 ∧
    (Answered h A 0 24 20 (gcReallocVo h (h.baseAddr + 0 + 4) 20) ↔ ¬GrowsInPlace h (h.baseAddr + 0 + 4) 20) := by
  obtain ⟨h₁, A, -, hr, hst, -, hu, -⟩ := alloc_small
  exact ⟨h₁, A, hr, hst, hu, gcReallocVo_good_iff hr hst hu 20⟩

/-- The object of 16 bytes grown to 100 bytes takes 80 bytes of the free chunk after it, which are still counted as free. -/
theorem realloc_small_breaks : ∃ h₁ A, gcAllocVo (gcInitInternal (fun _ => 0) 4096 8196 248) 16 = some (8200, h₁) ∧
    Repr h₁ A ∧ A.AllStamped ∧ UsedIn 0 A.chunks 0 24 ∧ ¬Answered h₁ A 0 24 100 (gcReallocVo h₁ 8200 100) := by
  obtain ⟨h₁, A, hrun, hr, hst, hA, hu, -, hbase, -⟩ := alloc_small
  refine ⟨h₁, A, hrun, hr, hst, hu, ?_⟩
  have hch := hr.chunks
  have ht := hr.total_eq
  rw [hA] at hch ht
  obtain ⟨hc, hd, -⟩ := hch
  have hsize := hr.used_header hu
  have hgrows : GrowsInPlace h₁ (h₁.baseAddr + 0 + 4) 100 := by
    unfold GrowsInPlace
    simp only [show h₁.baseAddr + 0 + 4 - hmuSize = h₁.baseAddr + 0 from rfl, hsize]
    refine ⟨by decide, by decide, ?_, hd.ut, ?_⟩
    · unfold hmuIsInHeap
      simp only [total_cons, total_nil] at ht
      omega
    · rw [show hmuGetSize (h₁.header (h₁.baseAddr + 0 + 24)) = 224 from hd.size]
      decide
  have hbad := not_answered_of_grows hr hu hgrows
  rw [hbase] at hbad
  exact hbad

end WamrMigrate.Ems
