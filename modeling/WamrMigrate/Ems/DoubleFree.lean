import WamrMigrate.Ems.Run

/-!
# Freeing an object twice

`gc_free_vo` knows a freed object only by the header word in front of it. The word tells when a free chunk has started there since, and not when the
object was merged into the free chunk before it: then it is freed again. If the node of a large free chunk starts less than 32 bytes before the
object, the bits of its links decide.
-/

namespace WamrMigrate.Ems

open SizeTree Tiles

/-- The header of an object that is not freed. -/
def LooksLive (v : BitVec 32) : Prop := hmuGetUt v = hmuVO ∧ hmuIsVoFreed v = false

instance (v : BitVec 32) : Decidable (LooksLive v) := inferInstanceAs (Decidable (_ ∧ _))

/-! ## A call that fails half-way leaves the heap marked as corrupted -/

section Failed
variable {h h' : GcHeap} {p slot q size fuel : Nat}

theorem replaceByPred_false (run : replaceByPred h p slot q = (false, h')) : h'.isHeapCorrupted = true := by
  unfold replaceByPred at run
  extract_lets h₁ h₂ h₃ h₄ h₅ h₆ at run
  clear_value h₆ h₅ h₄
  split at run
  · rw [← (Prod.mk.inj run).2]
    rfl
  split at run
  · rw [← (Prod.mk.inj run).2]
    rfl
  · cases (Prod.mk.inj run).1

theorem removeAtSlot_false {remove : GcHeap → Nat → Option (Bool × GcHeap)}
    (hrem : ∀ g q g', remove g q = some (false, g') → g'.isHeapCorrupted = true)
    (run : removeAtSlot remove h p slot = some (false, h')) : h'.isHeapCorrupted = true := by
  unfold removeAtSlot at run
  simp only at run
  split at run
  · -- no left child
    split at run
    · cases run
    split at run
    · cases run
      rfl
    · cases run
  split at run
  · -- no right child
    split at run
    · cases run
      rfl
    · cases run
  split at run
  · cases run
    rfl
  split at run
  · cases run
  · cases run
    rfl
  split at run
  · cases run
  · rename_i hq
    cases run
    exact hrem _ _ _ hq
  · exact replaceByPred_false (Option.some.inj run)

theorem removeTreeNode_false (run : removeTreeNode fuel h p = some (false, h')) : h'.isHeapCorrupted = true := by
  induction fuel generalizing h p h' with
  | zero => cases run
  | succ fuel ih =>
    rw [removeTreeNode] at run
    split at run
    · cases run
      rfl
    split at run
    · exact removeAtSlot_false (fun _ _ _ hg => ih hg) run
    split at run
    · exact removeAtSlot_false (fun _ _ _ hg => ih hg) run
    · cases run
      rfl

theorem unlinkNormal_false {idx hmu prev node : Nat} (run : unlinkNormal idx hmu fuel h prev node = some (false, h')) :
    h'.isHeapCorrupted = true := by
  induction fuel generalizing prev node with
  | zero => cases run
  | succ fuel ih =>
    rw [unlinkNormal] at run
    split at run
    · cases run
    split at run
    · cases run
      rfl
    simp only at run
    split at run
    · split at run
      · cases run
      · cases run
    · exact ih run

theorem unlinkHmu_false (run : unlinkHmu h p = some (false, h')) : h'.isHeapCorrupted = true := by
  unfold unlinkHmu at run
  split at run
  · cases run
    rfl
  simp only at run
  split at run
  · exact unlinkNormal_false run
  · exact removeTreeNode_false run

theorem linkTreeNode_false {node tp : Nat} (run : linkTreeNode size node fuel h tp = some (false, h')) : h'.isHeapCorrupted = true := by
  induction fuel generalizing tp with
  | zero => cases run
  | succ fuel ih =>
    rw [linkTreeNode] at run
    generalize (if h.size tp < size then h.right tp else h.left tp) = child at run
    simp only at run
    split at run
    · cases run
    split at run
    · cases run
      rfl
    · exact ih run

theorem gciAddFc_false (run : gciAddFc h p size = some (false, h')) : h'.isHeapCorrupted = true := by
  unfold gciAddFc linkFc at run
  simp only at run
  split at run
  · split at run
    · cases run
      rfl
    · cases run
  · exact linkTreeNode_false run

theorem mergePrev_false {r : Nat × Nat} (run : mergePrev h p size = some (false, h', r)) : h'.isHeapCorrupted = true := by
  unfold mergePrev at run
  simp only at run
  split at run
  · cases run
  split at run
  · split at run
    · cases run
    · rename_i hu
      cases run
      exact unlinkHmu_false hu
  · cases run

theorem mergeNext_false {r : Nat} (run : mergeNext h p size = some (false, h', r)) : h'.isHeapCorrupted = true := by
  unfold mergeNext at run
  simp only at run
  split at run
  · split at run
    · cases run
    · rename_i hu
      cases run
      exact unlinkHmu_false hu
  · cases run

/-- An address in the heap is refused, with nothing changed, exactly when the word in front of it is not the header of an object
that is not freed. -/
theorem gcFreeVo_refuses_iff {obj : Nat} (h0 : obj ≠ 0) (hok : h.isHeapCorrupted = false) (hin : hmuIsInHeap h (obj - hmuSize)) :
    gcFreeVo h obj = some (-1, h) ↔ ¬LooksLive (h.header (obj - hmuSize)) := by
  unfold gcFreeVo LooksLive
  rw [if_neg h0, if_neg (by simp [hok])]
  simp only [if_neg (not_not.2 hin)]
  by_cases hut : hmuGetUt (h.header (obj - hmuSize)) = hmuVO
  · rw [if_neg (not_not.2 hut)]
    cases hfreed : hmuIsVoFreed (h.header (obj - hmuSize)) with
    | true => simp
    | false =>
      simp only [hut, and_self, not_true_eq_false, iff_false, Bool.false_eq_true, if_false]
      -- the call goes on, and when it fails then the heap is marked as corrupted
      have hne : ∀ g : GcHeap, g.isHeapCorrupted = true → some ((-1 : Int), g) ≠ some (-1, h) := by
        intro g hg he
        cases he
        rw [hok] at hg
        cases hg
      split
      · exact fun hz => nomatch hz
      · rename_i hm
        exact hne _ (mergePrev_false hm)
      split
      · exact fun hz => nomatch hz
      · rename_i hm
        exact hne _ (mergeNext_false hm)
      split
      · exact fun hz => nomatch hz
      · rename_i hm
        exact hne _ (gciAddFc_false hm)
      · split
        · exact fun hz => nomatch hz
        · exact fun hz => nomatch hz
  · rw [if_pos hut]
    simp [hut]

end Failed

/-! ## What a call writes over -/

/-- No node of the chunks `S` lies over the word at `w`. -/
def Bare (S : Nat → Nat → Prop) (w : Nat) : Prop := ∀ o n, S o n → w ≤ o ∨ o + nodeEnd n ≤ w

section Word
variable {h h' : GcHeap} {A : Arena} {S : Nat → Nat → Prop} {I : Index} {pre post : List Chunk} {c : Chunk} {o n w size : Nat}

theorem Bare.mono {S' : Nat → Nat → Prop} (hb : Bare S w) (hs : ∀ o n, S' o n → S o n) : Bare S' w :=
  fun o n hS => hb o n (hs o n hS)

theorem FieldsOnly.word (hf : FieldsOnly S h h') (hs : Sane h) (hb : Bare S w) (hw : w + 4 ≤ h.currentSize) :
    Mem.EqOn h.mem h'.mem (h.baseAddr + w) 4 := by
  refine hf.eqOn hs (by omega) (by omega) fun o n hS => ?_
  have := hb o n hS
  omega

/-- Entering a chunk into the index writes its header, its footer and nodes. -/
theorem gciAddFc_word (hs : Sane h) (hi : IndexAt h I) (hH : I.Holds S) (hsp : Spread (Plus S o n) h.currentSize)
    (hfresh : ∀ k, ¬S o k) (run : gciAddFc h (h.baseAddr + o) n = some (true, h')) (hw8 : w % 8 = 0)
    (hw : w + 4 ≤ h.currentSize) (hne : w ≠ o) (hb : Bare (Plus S o n) w) : Mem.EqOn h.mem h'.mem (h.baseAddr + w) 4 := by
  have hbnd := hsp.bounds o n (.inr ⟨rfl, rfl⟩)
  have hcur := hs.size_lt
  rw [gciAddFc_eq (by omega) hbnd.2.1] at run
  generalize hmuSetUt (h.header (h.baseAddr + o)) hmuFC = u at run
  have hI := hi.stampMem hs.placed hH hsp hfresh u (hmuSetSize u n)
  have hstamp : Mem.EqOn h.mem (stampMem h.mem (h.baseAddr + o) n u (hmuSetSize u n)) (h.baseAddr + w) 4 :=
    eqOn_stampMem (by omega) (by omega)
  generalize stampMem h.mem (h.baseAddr + o) n u (hmuSetSize u n) = m at run hI hstamp
  have hs' : Sane { h with mem := m } := ⟨hs.base_align, hcur, hs.end_le, hs.root_ne, hs.root_le, hs.root_apart⟩
  obtain ⟨h'', run', -, hf⟩ := linkFc_spec hs' hI hH hsp hfresh
  have he : some (true, h') = some (true, h'') := run.symm.trans run'
  cases he
  exact hstamp.trans (hf.word hs' hb hw)

/-- Handing out a hole writes the chunk handed out, the header after it, and the header, the footer and the node of what is
left. -/
theorem splitHmu_word {q : Nat} (H : Hole h I pre post o n false) (h8 : size % 8 = 0) (h16 : 16 ≤ size) (hlt : size < 2 ^ 30)
    (run : splitHmu h (h.baseAddr + o) n size = some (q, h')) (hw8 : w % 8 = 0) (hw : w + 4 ≤ h.currentSize)
    (hout : w + 4 ≤ o ∨ o + Arena.granted n size ≤ w) (hnext : w ≠ o + n)
    (hrest : size + 16 ≤ n → w ≠ o + size ∧ Bare (Plus (Rest pre post (o + n)) (o + size) (n - size)) w) :
    Mem.EqOn h.mem h'.mem (h.baseAddr + w) 4 := by
  have hstart := H.start ▸ H.sized_pre.total_mod
  have hn8 := H.size8
  have hn16 := H.size16
  have hadd : add32 size gcSmallestSize = size + 16 := add32_eq (b := 16) (by omega)
  rw [splitHmu, hadd] at run
  unfold Arena.granted at hout
  by_cases hsplit : size + 16 ≤ n
  · obtain ⟨hne, hbare⟩ := hrest hsplit
    obtain ⟨hsp, hfresh⟩ := H.spread (o + size) (n - size) (by omega) (by omega) (by omega) (by omega) (by omega)
    obtain ⟨h₁, hrun₁, -⟩ := gciAddFc_spec H.sane H.index H.holds hsp hfresh
    have hword := gciAddFc_word H.sane H.index H.holds hsp hfresh hrun₁ hw8 hw hne hbare
    rw [← Nat.add_assoc] at hrun₁
    rw [if_pos hsplit, hrun₁] at run
    rw [if_pos hsplit] at hout
    cases run
    refine (hword.trans ?_).store (by omega)
    exact Mem.eqOn_store (by omega)
  rw [if_neg hsplit] at run hout
  cases run
  refine Mem.EqOn.store ?_ (by omega)
  show Mem.EqOn h.mem (if _ then _ else _ : GcHeap).mem _ 4
  split
  · exact Mem.eqOn_store (by omega)
  · exact Mem.EqOn.refl _ _ _

/-- Taking a free chunk and handing it out leaves a word outside the chunk handed out at which no free chunk starts and over
which no node lies. -/
theorem Repr.taken_word {h₁ : GcHeap} {q k : Nat} (hr : Repr h A) (hf : FreeIn 0 A.chunks o n)
    (hi : IndexAt h₁ (A.index.erase o n)) (hfields : FieldsOnly (FreeIn 0 A.chunks) h h₁) (h8 : k % 8 = 0) (h16 : 16 ≤ k)
    (hk : k ≤ n) (run : splitHmu h₁ (h.baseAddr + o) n k = some (q, h')) (hw8 : w % 8 = 0) (hw : w + 4 ≤ h.currentSize)
    (hout : w + 4 ≤ o ∨ o + Arena.granted n k ≤ w) (hnext : w ≠ o + n) (hb : Bare (FreeIn 0 A.chunks) w)
    (hb' : Bare (FreeIn 0 (A.take o n k).chunks) w) (hstart : ∀ m, ¬FreeIn 0 (A.take o n k).chunks w m) :
    Mem.EqOn h.mem h'.mem (h.baseAddr + w) 4 := by
  obtain ⟨pre, c, post, hA, ho, hu, hcn⟩ := Arena.exists_split hf
  have hbnd := hr.spread.bounds o n hf
  have hcur := hr.sane.size_lt
  have H := hr.hole hA ho hu hcn hi hfields
  have hfree := Arena.freeIn_take hr.wf hf k
  rw [← hfields.base] at run
  have hword := splitHmu_word H h8 h16 (by omega) run hw8 (by rwa [hfields.cur]) hout hnext fun hsplit => ?_
  · rw [hfields.base] at hword
    exact (hfields.word hr.sane hb hw).trans hword
  have hrest := (hfree (o + k) (n - k)).2 (.inr ⟨hsplit, rfl, rfl⟩)
  refine ⟨fun he => hstart (n - k) (he ▸ hrest), hb'.mono ?_⟩
  rintro o' n' (hS | ⟨rfl, rfl⟩)
  · refine (hfree o' n').2 (.inl ?_)
    have hs := hr.wf.sized
    rw [hA] at hs
    have hrem : (FreeIn 0 (pre ++ c :: post) o' n' ∧ o' ≠ 0 + total Chunk.size pre) ↔ _ := freeIn_remove hs
    rw [Nat.zero_add, ← ho, hcn, ← hA] at hrem
    exact hrem.2 hS
  · exact hrest

theorem gcAllocVo_word {size : UInt32} {p : Nat} (hr : Repr h A) (run : gcAllocVo h size = some (p, h')) (hp : p ≠ 0) :
    ∃ o n k, FreeIn 0 A.chunks o n ∧ p = h.baseAddr + o + 4 ∧ Repr h' (A.take o n k) ∧ h'.baseAddr = h.baseAddr ∧
      ∀ w, w % 8 = 0 → w + 4 ≤ h.currentSize → (w + 4 ≤ o ∨ o + Arena.granted n k ≤ w) → w ≠ o + n →
        Bare (FreeIn 0 A.chunks) w → Bare (FreeIn 0 (A.take o n k).chunks) w →
        (∀ m, ¬FreeIn 0 (A.take o n k).chunks w m) → Mem.EqOn h.mem h'.mem (h.baseAddr + w) 4 := by
  rcases gcAllocVo_spec hr size with ⟨-, hrun⟩ | ⟨o, n, h₁, -, hf, hk, hroom, hrun, hr', hwithin⟩
  · rw [hrun] at run
    cases run
    exact absurd rfl hp
  have he : some (p, h') = some (h.baseAddr + o + 4, h₁) := run.symm.trans hrun
  cases he
  refine ⟨o, n, max (Arena.totSize size.toNat) 16, hf, rfl, hr', hwithin.base, ?_⟩
  intro w hw8 hw hout hnext hb hb' hstart
  have hlt : ¬Arena.totSize size.toNat < size.toNat := by omega
  obtain ⟨h8, -, hadd⟩ := totSize_spec size.toNat_lt hlt
  have hk8 : max (Arena.totSize size.toNat) 16 % 8 = 0 := by omega
  have hk16 : 16 ≤ max (Arena.totSize size.toNat) 16 := Nat.le_max_right _ _
  unfold gcAllocVo at run
  have htot : gcAlign8 (add32 hmuSize size.toNat) = Arena.totSize size.toNat := rfl
  simp only [htot, if_neg hlt, hr.ok, Bool.false_eq_true, if_false] at run
  have hne : h.baseAddr + o ≠ 0 := by
    have := hr.sane.base_align
    omega
  rcases allocHmu_eq hr.tiled (Arena.totSize size.toNat) with ⟨-, hnone⟩ | ⟨o₂, n₂, hfind, h₂, hi, hfields, hsplit⟩
  · rw [hnone] at run
    cases run
  obtain ⟨hf₂, hk₂⟩ := hr.wf.holds.find hk8 hfind
  obtain ⟨h₃, hrun₃, hout₃⟩ := hr.handedOut hf₂ hi hfields hk8 hk16 hk₂
  have hne₂ : h.baseAddr + o₂ ≠ 0 := by
    have := hr.sane.base_align
    omega
  rw [hsplit, hrun₃] at run
  simp only [if_neg hne₂, hout₃.size_eq, hadd] at run
  have hmark : ∀ {g : GcHeap}, w + 4 ≤ o₂ ∨ o₂ + 4 ≤ w →
      Mem.EqOn g.mem (markVo g (h.baseAddr + o₂)).mem (h.baseAddr + w) 4 := fun hd =>
    (Mem.eqOn_store (by omega)).store (by omega)
  have hg : max (Arena.totSize size.toNat) 16 ≤ Arena.granted n₂ (max (Arena.totSize size.toNat) 16) := by
    unfold Arena.granted
    split <;> omega
  have hsame : o₂ = o := by
    split at run
    · have := (Prod.mk.inj (Option.some.inj run)).1
      unfold hmuSize at this
      omega
    · have := (Prod.mk.inj (Option.some.inj run)).1
      unfold hmuSize at this
      omega
  subst hsame
  obtain rfl := hf.unique hr.wf.sized hf₂
  have hword := hr.taken_word hf hi hfields hk8 hk16 hk hrun₃ hw8 hw hout hnext hb hb' hstart
  split at run
  · -- the bytes cleared lie in the chunk handed out
    cases run
    refine (hword.trans (hmark (by omega))).fill ?_
    unfold hmuSize
    omega
  · cases run
    exact hword.trans (hmark (by omega))

theorem Hole.freeIn_entered {pin : Bool} (H : Hole h I pre post o n pin) (o' n' : Nat)
    (hS : Plus (Rest pre post (o + n)) o n o' n') : FreeIn 0 (pre ++ ⟨n, false, true⟩ :: post) o' n' := by
  rw [freeIn_append, freeIn_cons, Nat.zero_add, ← H.start]
  rcases hS with (hS | hS) | ⟨rfl, rfl⟩
  · exact .inl hS
  · exact .inr (.inr hS)
  · exact .inr (.inl ⟨rfl, rfl, rfl⟩)

theorem gcFreeVo_word (hr : Repr h A) (hA : A.chunks = pre ++ c :: post) (ho : o = total Chunk.size pre) (hu : c.used = true)
    {r : Int} (run : gcFreeVo h (h.baseAddr + o + 4) = some (r, h')) : Repr h' (Arena.freed pre post o c.size A.index) ∧ h'.baseAddr = h.baseAddr ∧
      ∀ w, w % 8 = 0 → w + 4 ≤ h.currentSize → Bare (FreeIn 0 A.chunks) w → Bare (FreeIn 0 (Arena.freed pre post o c.size A.index).chunks) w →
        (Arena.freed pre post o c.size A.index).Covers w 4 →
        (∀ m, ¬FreeIn 0 (Arena.freed pre post o c.size A.index).chunks w m) → Mem.EqOn h.mem h'.mem (h.baseAddr + w) 4 := by
  obtain ⟨h₁, hrun₁, hr₁, hwithin⟩ := gcFreeVo_spec hr hA ho hu rfl
  have he : some (r, h') = some (0, h₁) := run.symm.trans hrun₁
  cases he
  refine ⟨hr₁, hwithin.base, ?_⟩
  intro w hw8 hw hb hb' hcov hstart
  obtain ⟨h₂, h₃, pin, hf₂, H₂, hsub, hrun₃, hrun⟩ := gcFreeVo_run hr hA ho hu rfl
  have he := run.symm.trans hrun
  rw [Option.some.injEq, Prod.mk.injEq] at he
  rw [he.2]
  have hchunks : (Arena.freed pre post o c.size A.index).chunks = _ ++ ⟨_, false, true⟩ :: _ := rfl
  have hsized := hr₁.wf.sized
  have hsp₁ := hr₁.spread
  unfold Arena.Covers at hcov
  rw [hchunks] at hb' hstart hcov hsized hsp₁
  clear hwithin hrun₁ hr₁ hchunks run hrun
  generalize Arena.mergeBefore pre o c.size A.index = b at *
  generalize Arena.mergeAfter post b.2.1 b.2.2.1 b.2.2.2 = a at *
  have hfree := H₂.freeIn_entered
  have hnew := hfree _ _ (.inr ⟨rfl, rfl⟩)
  obtain ⟨hsp, hfresh⟩ := H₂.spread b.2.1 a.2.1 (Nat.le_refl _) (Nat.le_refl _) (H₂.start ▸ H₂.sized_pre.total_mod)
    H₂.size8 H₂.size16
  have hs₀ : Sane { h with totalFreeSize := add32 h.totalFreeSize c.size } :=
    ⟨hr.sane.base_align, hr.sane.size_lt, hr.sane.end_le, hr.sane.root_ne, hr.sane.root_le, hr.sane.root_apart⟩
  have hb₂ : h₂.baseAddr = h.baseAddr := hf₂.base
  have hc₂ : h₂.currentSize = h.currentSize := hf₂.cur
  have h1 : Mem.EqOn h.mem h₂.mem (h.baseAddr + w) 4 := hf₂.word hs₀ hb hw
  rw [← hb₂] at hrun₃
  have h2 := gciAddFc_word H₂.sane H₂.index H₂.holds hsp hfresh hrun₃ hw8 (by rwa [hc₂])
    (fun hwb => hstart a.2.1 (hwb ▸ hnew)) (hb'.mono hfree)
  rw [hb₂] at h2
  have hbnd := hsp.bounds _ _ (.inr ⟨rfl, rfl⟩)
  have hend : w ≠ b.2.1 + a.2.1 := by
    rintro rfl
    obtain ⟨q, m, hq, hq1, hq2⟩ := hcov
    rcases hsp₁.apart _ _ _ _ hnew hq with ⟨hqb, hma⟩ | hd | hd
    · omega
    · -- the chunk that has the word starts at it
      obtain rfl : q = b.2.1 + a.2.1 := by omega
      exact hstart m hq
    · omega
  split
  · exact (h1.trans h2).store (by omega)
  · exact h1.trans h2

end Word

/-! ## Objects that have been freed -/

/-- A free chunk of `n` bytes starts at `p`. -/
def FreeAt (h : GcHeap) (p n : Nat) : Prop := ∃ A o, Repr h A ∧ p = h.baseAddr + o ∧ FreeIn 0 A.chunks o n

/-- A free chunk starts at the header of `obj`. -/
def Started (h : GcHeap) (obj : Nat) : Prop := ∃ n, FreeAt h (obj - hmuSize) n

/-- The node of a free chunk lies over the header of `obj`. -/
def Overlaid (h : GcHeap) (obj : Nat) : Prop := ∃ p n, FreeAt h p n ∧ p < obj - hmuSize ∧ obj - hmuSize < p + nodeEnd n

/-- The chunk of `n` bytes with the object `obj` is apart from the chunks of all live objects. -/
def Session.Spares (s : Session) (obj n : Nat) : Prop :=
  ∀ p ∈ s.live, p - hmuSize + hmuGetSize (s.heap.header (p - hmuSize)) ≤ obj - hmuSize ∨ obj - hmuSize + n ≤ p - hmuSize

/-- In a session on `h₀` the object `obj`, with a chunk of `n` bytes, has been freed and its memory has not been handed out
again; `since` has the heaps since then, the last one first. -/
inductive Gone (h₀ : GcHeap) (obj : Nat) : Session → Nat → List GcHeap → Prop
  | freed {s : Session} {r : Int} {h' : GcHeap} (reach : Session.Reach h₀ s) (live : obj ∈ s.live)
      (run : gcFreeVo s.heap obj = some (r, h')) :
      Gone h₀ obj ⟨h', s.live.erase obj, s.touched⟩ (hmuGetSize (s.heap.header (obj - hmuSize))) [h']
  | step {s s' : Session} {n : Nat} {since : List GcHeap} (gone : Gone h₀ obj s n since) (next : Session.Step s s')
      (spared : s'.Spares obj n) : Gone h₀ obj s' n (s'.heap :: since)

/-- The condition under which a second free is refused: a free chunk has started at the object since it was freed, and no node
has been put over its header; or one has, and what it left there is not the header of an object. -/
def Noticed (h : GcHeap) (obj : Nat) (since : List GcHeap) : Prop :=
  ((∀ g ∈ since, ¬Overlaid g obj) ∧ ∃ g ∈ since, Started g obj) ∨
    ((∃ g ∈ since, Overlaid g obj) ∧ ¬LooksLive (h.header (obj - hmuSize)))

section Unique
variable {h : GcHeap} {A A' : Arena} {o n w : Nat}

theorem ChunksAt.freeIn_unique {p q : Nat} {pin pin' : Bool} {cs cs' : List Chunk} (hc : ChunksAt h p pin cs)
    (hc' : ChunksAt h p pin' cs') (hs : Sized cs) (hs' : Sized cs') (ht : total Chunk.size cs = total Chunk.size cs')
    (hf : FreeIn q cs o n) : FreeIn q cs' o n := by
  induction cs generalizing p q pin pin' cs' with
  | nil => exact absurd hf freeIn_nil
  | cons d cs ih =>
    obtain ⟨hd, hcs⟩ := hc
    obtain ⟨hd16, hs⟩ := sized_cons.1 hs
    cases cs' with
    | nil =>
      simp only [total_cons, total_nil] at ht
      omega
    | cons d' cs' =>
      obtain ⟨hd', hcs'⟩ := hc'
      have hsize : d.size = d'.size := hd.size.symm.trans hd'.size
      have hused : d.used = d'.used := by
        have hut := hd.ut.symm.trans hd'.ut
        revert hut
        cases d.used <;> cases d'.used <;> decide
      simp only [total_cons] at ht
      rw [hsize, hused] at hcs
      rw [freeIn_cons, hsize, hused] at hf
      rw [freeIn_cons]
      exact hf.imp_right fun hf => ih hcs hcs' hs (sized_cons.1 hs').2 (by omega) hf

section
variable (hr : Repr h A)
include hr

theorem Repr.freeIn_unique (hr' : Repr h A') (hf : FreeIn 0 A.chunks o n) : FreeIn 0 A'.chunks o n :=
  hr.chunks.freeIn_unique hr'.chunks hr.wf.sized hr'.wf.sized (hr.total_eq.trans hr'.total_eq.symm) hf

theorem freeAt_iff : FreeAt h (h.baseAddr + o) n ↔ FreeIn 0 A.chunks o n := by
  constructor
  · rintro ⟨A', o', hr', ho, hf⟩
    obtain rfl : o = o' := by omega
    exact hr'.freeIn_unique hr hf
  · exact fun hf => ⟨A, o, hr, rfl, hf⟩

theorem started_iff : Started h (h.baseAddr + o + 4) ↔ ∃ n, FreeIn 0 A.chunks o n :=
  exists_congr fun _ => freeAt_iff hr

theorem not_overlaid_iff : ¬Overlaid h (h.baseAddr + o + 4) ↔ Bare (FreeIn 0 A.chunks) o := by
  have he : h.baseAddr + o + 4 - hmuSize = h.baseAddr + o := rfl
  unfold Overlaid Bare
  rw [he]
  constructor
  · intro hno o' n' hf
    by_contra hlt
    exact hno ⟨h.baseAddr + o', n', (freeAt_iff hr).2 hf, by omega, by omega⟩
  · rintro hb ⟨p, n', ⟨A', o', hr', rfl, hf⟩, h1, h2⟩
    have := hb o' n' (hr'.freeIn_unique hr hf)
    omega

theorem Repr.header_used (hu : UsedIn 0 A.chunks o n) : hmuGetSize (h.header (h.baseAddr + o)) = n ∧ LooksLive (h.header (h.baseAddr + o)) := by
  obtain ⟨pre, c, post, hA, rfl, hcu, rfl⟩ := hu.exists_split
  have hc := hr.chunks
  rw [hA] at hc
  have hd := hc.hdr
  refine ⟨hd.size, ?_, hd.live hcu⟩
  rw [hd.ut, if_pos hcu]

theorem Repr.header_free (hf : FreeIn 0 A.chunks o n) : hmuGetUt (h.header (h.baseAddr + o)) = hmuFC := by
  obtain ⟨c, hc, hcu, -⟩ := hf
  exact ((hr.tiled.headers (h.baseAddr + o) c (mem_located_shift.2 hc)).2).2 hcu

end

end Unique

section Gone
variable {h₀ : GcHeap} {s s' : Session} {obj n o : Nat} {since : List GcHeap} {A A' : Arena}

/-- What is known of an object that has been freed: it lies in a free chunk, and its header, unless a node was put over it, is
that of a free chunk when one has started there, and otherwise still that of the object. -/
structure GoneInv (s : Session) (obj n : Nat) (since : List GcHeap) (A : Arena) (o : Nat) : Prop where
  inv : Session.Inv s A
  obj_eq : obj = s.heap.baseAddr + o + 4
  align : o % 8 = 0
  size : 16 ≤ n
  covered : A.Covers o n
  last : s.heap ∈ since
  word : (∀ g ∈ since, ¬Overlaid g obj) →
    ((∃ g ∈ since, Started g obj) → hmuGetUt (s.heap.header (s.heap.baseAddr + o)) = hmuFC) ∧
      ((∀ g ∈ since, ¬Started g obj) → LooksLive (s.heap.header (s.heap.baseAddr + o)))

section
variable (hg : GoneInv s obj n since A o)
include hg

/-- A step that leaves the word when no free chunk starts there and no node lies over it. -/
theorem GoneInv.next (hi : Session.Inv s' A') (hbase : s'.heap.baseAddr = s.heap.baseAddr) (hcov : A'.Covers o n)
    (hword : Bare (FreeIn 0 A.chunks) o → Bare (FreeIn 0 A'.chunks) o → (∀ m, ¬FreeIn 0 A'.chunks o m) →
      Mem.EqOn s.heap.mem s'.heap.mem (s.heap.baseAddr + o) 4) : GoneInv s' obj n (s'.heap :: since) A' o := by
  have hobj : obj = s'.heap.baseAddr + o + 4 := by rw [hbase, hg.obj_eq]
  refine ⟨hi, hobj, hg.align, hg.size, hcov, List.mem_cons_self, fun hno => ?_⟩
  have hno' : ∀ g ∈ since, ¬Overlaid g obj := fun g hgs => hno g (List.mem_cons_of_mem _ hgs)
  obtain ⟨hfc, hlive⟩ := hg.word hno'
  have hb : Bare (FreeIn 0 A.chunks) o := by
    have h1 := hno' _ hg.last
    rw [hg.obj_eq] at h1
    exact (not_overlaid_iff hg.inv.repr).1 h1
  have hb' : Bare (FreeIn 0 A'.chunks) o := by
    have h1 := hno s'.heap List.mem_cons_self
    rw [hobj] at h1
    exact (not_overlaid_iff hi.repr).1 h1
  by_cases hstart : ∃ m, FreeIn 0 A'.chunks o m
  · -- the header is that of the free chunk
    obtain ⟨m, hm⟩ := hstart
    refine ⟨fun _ => hi.repr.header_free hm, fun hnone => ?_⟩
    have h1 := hnone s'.heap List.mem_cons_self
    rw [hobj] at h1
    exact absurd ((started_iff hi.repr).2 ⟨m, hm⟩) h1
  have hsame : s'.heap.header (s'.heap.baseAddr + o) = s.heap.header (s.heap.baseAddr + o) := by
    rw [hbase]
    exact header_congr (hword hb hb' (not_exists.1 hstart))
  rw [hsame]
  refine ⟨?_, fun hnone => hlive fun g hgs => hnone g (List.mem_cons_of_mem _ hgs)⟩
  rintro ⟨g, hgs, hst⟩
  rcases List.mem_cons.1 hgs with rfl | hgs
  · rw [hobj] at hst
    exact absurd ((started_iff hi.repr).1 hst) hstart
  · exact hfc ⟨g, hgs, hst⟩

theorem GoneInv.word_le : o + 4 ≤ s.heap.currentSize := by
  obtain ⟨c, m, hf, h1, h2⟩ := hg.covered
  have h3 := hg.inv.repr.spread.bounds c m hf
  have h4 := hg.size
  omega

/-- What the heap after a step represents may be told by any abstract heap that it is. -/
theorem GoneInv.next_of_repr {B : Arena} (hi : Session.Inv s' A') (hr : Repr s'.heap B)
    (hbase : s'.heap.baseAddr = s.heap.baseAddr) (hcov : B.Covers o n)
    (hword : Bare (FreeIn 0 A.chunks) o → Bare (FreeIn 0 B.chunks) o → (∀ m, ¬FreeIn 0 B.chunks o m) →
      Mem.EqOn s.heap.mem s'.heap.mem (s.heap.baseAddr + o) 4) : GoneInv s' obj n (s'.heap :: since) A' o := by
  obtain ⟨c, m, hf, hc⟩ := hcov
  refine hg.next hi hbase ⟨c, m, hr.freeIn_unique hi.repr hf, hc⟩ fun hb hb' hstart => ?_
  exact hword hb (hb'.mono fun _ _ => hr.freeIn_unique hi.repr) fun k hk => hstart k (hr.freeIn_unique hi.repr hk)

/-- The memory of the object stays free through the steps that do not hand it out. -/
theorem GoneInv.step (next : Session.Step s s') (spared : s'.Spares obj n) : ∃ A', GoneInv s' obj n (s'.heap :: since) A' o := by
  have hr := hg.inv.repr
  have hobj := hg.obj_eq
  have hn := hg.size
  have hle := hg.word_le
  obtain ⟨A', hi'⟩ := hg.inv.step next
  refine ⟨A', ?_⟩
  cases next with
  | alloc run hp =>
    obtain ⟨q, m, k, hf, rfl, hr', hbase, hword⟩ := gcAllocVo_word hr run hp
    have hused := (Arena.usedIn_take hr.wf hf k q _).2 (.inr ⟨rfl, rfl⟩)
    -- the chunk handed out is apart from the object
    have hd : o + n ≤ q ∨ q + Arena.granted m k ≤ o := by
      have h1 := spared _ List.mem_cons_self
      have h2 := (hr'.header_used hused).1
      rw [hbase] at h2
      rw [show s.heap.baseAddr + q + 4 - hmuSize = s.heap.baseAddr + q from rfl, h2, hobj,
        show s.heap.baseAddr + o + 4 - hmuSize = s.heap.baseAddr + o from rfl] at h1
      omega
    have hcov := hg.covered.take hr.wf hf (by omega) hd
    refine hg.next_of_repr hi' hr' hbase hcov fun hb hb' hstart => ?_
    refine hword o hg.align hle (by omega) ?_ hb hb' hstart
    rintro rfl
    obtain ⟨c, l, hc, hc1, hc2⟩ := hg.covered
    rcases hr.spread.apart _ _ _ _ hf hc with ⟨hqc, hml⟩ | hdis | hdis
    · omega
    · obtain rfl : c = q + m := by omega
      refine hstart l ((Arena.freeIn_take hr.wf hf k _ _).2 (.inl ⟨hc, ?_⟩))
      have := hr.spread.bounds q m hf
      omega
    · omega
  | allocNull run =>
    obtain rfl := hg.inv.allocNull run
    exact hg.next_of_repr hi' hr rfl hg.covered fun _ _ _ => Mem.EqOn.refl _ _ _
  | free live run =>
    obtain ⟨q, m, hu, rfl⟩ := (hg.inv.live_iff _).1 live
    obtain ⟨pre, c, post, hA, hq, hcu, rfl⟩ := hu.exists_split
    obtain ⟨hr', hbase, hword⟩ := gcFreeVo_word hr hA hq hcu run
    have hcov := (Arena.covers_freed hr.wf hA hq hcu).2 o n hg.covered
    exact hg.next_of_repr hi' hr' hbase hcov fun hb hb' hstart =>
      hword o hg.align hle hb hb' (hcov.part (Nat.le_refl o) (by omega)) hstart
  | write live inside =>
    obtain ⟨q, k, hu, rfl, hsize⟩ := hg.inv.live live
    have hk := (hu.sized hr.wf.sized).2
    rw [show s.heap.baseAddr + q + 4 - hmuSize = s.heap.baseAddr + q from rfl, hsize] at inside
    refine hg.next_of_repr hi' (hr.write hu fun x hx => inside x ?_) rfl hg.covered fun _ _ _ x h1 h2 => inside x ?_
    · unfold hmuSize
      omega
    obtain ⟨c, l, hc, hc1, hc2⟩ := hg.covered
    have := hu.disjoint_free hc
    unfold hmuSize
    omega

end

/-- A free chunk has started at an object just freed, or its header is still there. -/
theorem GoneInv.freed {r : Int} {h' : GcHeap} (hi : Session.Inv s A) (live : obj ∈ s.live) (run : gcFreeVo s.heap obj = some (r, h')) :
    ∃ A' o, GoneInv ⟨h', s.live.erase obj, s.touched⟩ obj (hmuGetSize (s.heap.header (obj - hmuSize))) [h'] A' o := by
  have hr := hi.repr
  obtain ⟨o, n, hu, rfl, hsize⟩ := hi.live live
  have hlive := (hr.header_used hu).2
  obtain ⟨A', hi'⟩ := hi.step (Session.Step.free live run)
  have hbnd := hu.bounds
  have ht := hr.total_eq
  have hn := hu.sized hr.wf.sized
  have hb : Bare (FreeIn 0 A.chunks) o := by
    intro o' n' hf
    have h1 := hu.disjoint_free hf
    have h2 := nodeEnd_le (hf.sized hr.wf.sized).2
    omega
  obtain ⟨pre, c, post, hA, ho, hcu, rfl⟩ := hu.exists_split
  obtain ⟨hr', hbase, hword⟩ := gcFreeVo_word hr hA ho hcu run
  have halign : o % 8 = 0 := by
    have hs := hr.wf.sized
    rw [hA, sized_append] at hs
    rw [ho]
    exact hs.1.total_mod
  have hcov := (Arena.covers_freed hr.wf hA ho hcu).1
  rw [show s.heap.baseAddr + o + 4 - hmuSize = s.heap.baseAddr + o from rfl, hsize]
  have hobj : s.heap.baseAddr + o + 4 = h'.baseAddr + o + 4 := by rw [hbase]
  obtain ⟨q, m, hq, hq'⟩ := hcov
  refine ⟨A', o, hi', hobj, halign, hn.2, ⟨q, m, hr'.freeIn_unique hi'.repr hq, hq'⟩, List.mem_singleton_self _, fun hno => ?_⟩
  have hno' := hno h' (List.mem_singleton_self _)
  rw [hobj] at hno' ⊢
  rw [not_overlaid_iff hr'] at hno'
  by_cases hstart : ∃ k, FreeIn 0 (Arena.freed pre post o c.size A.index).chunks o k
  · obtain ⟨k, hk⟩ := hstart
    refine ⟨fun _ => hr'.header_free hk, fun hnone => ?_⟩
    exact absurd ((started_iff hr').2 ⟨k, hk⟩) (hnone h' (List.mem_singleton_self _))
  constructor
  · rintro ⟨g, hgs, hst⟩
    rw [List.mem_singleton.1 hgs] at hst
    exact absurd ((started_iff hr').1 hst) hstart
  intro _
  have hsame := hword o halign (by omega) hb hno'
    (Arena.Covers.part ⟨q, m, hq, hq'⟩ (Nat.le_refl o) (by omega)) (not_exists.1 hstart)
  show LooksLive (h'.header (h'.baseAddr + o))
  rwa [hbase, header_congr hsame]

theorem Gone.inv (hs : SetUp h₀) (hg : Gone h₀ obj s n since) : ∃ A o, GoneInv s obj n since A o := by
  induction hg with
  | freed reach live run =>
    obtain ⟨A, hi⟩ := reach.inv hs
    exact GoneInv.freed hi live run
  | step _ next spared ih =>
    obtain ⟨A, o, hg⟩ := ih
    obtain ⟨A', hg'⟩ := hg.step next spared
    exact ⟨A', o, hg'⟩

end Gone

/-- A second free of an object whose memory has not been handed out again is refused, with nothing changed, exactly when the
first one can be noticed. -/
theorem double_free_refused_iff {h₀ : GcHeap} {s : Session} {obj n : Nat} {since : List GcHeap} (hs : SetUp h₀)
    (hg : Gone h₀ obj s n since) : gcFreeVo s.heap obj = some (-1, s.heap) ↔ Noticed s.heap obj since := by
  obtain ⟨A, o, hi⟩ := hg.inv hs
  have hr := hi.inv.repr
  have hle := hi.word_le
  have hobj := hi.obj_eq
  have hmu : obj - hmuSize = s.heap.baseAddr + o := by rw [hobj]; rfl
  have hin : hmuIsInHeap s.heap (obj - hmuSize) := by
    unfold hmuIsInHeap
    omega
  rw [gcFreeVo_refuses_iff (by omega) hr.ok hin]
  unfold Noticed
  by_cases hover : ∃ g ∈ since, Overlaid g obj
  · constructor
    · exact fun hdead => Or.inr ⟨hover, hdead⟩
    rintro (⟨hno, -⟩ | ⟨-, hdead⟩)
    · obtain ⟨g, hgs, ho⟩ := hover
      exact absurd ho (hno g hgs)
    · exact hdead
  have hno : ∀ g ∈ since, ¬Overlaid g obj := fun g hgs ho => hover ⟨g, hgs, ho⟩
  obtain ⟨hfc, hlive⟩ := hi.word hno
  rw [hmu]
  constructor
  · intro hdead
    by_contra hnot
    refine hdead (hlive fun g hgs hst => hnot (.inl ⟨hno, g, hgs, hst⟩))
  rintro (⟨-, hst⟩ | ⟨ho, -⟩) hl
  · have h1 := (hfc hst).symm.trans hl.1
    exact absurd h1 (by decide)
  · exact hover ho

/-- Two objects of 36 bytes are freed one after the other in a heap of 248 bytes: the second one is merged into the free chunk
before it. Then it is freed once more: what the calls return, and the count of free bytes before and after the last one. -/
theorem merged_run : (do
      let (p, h₁) ← gcAllocVo (gcInitInternal (fun _ => 0) 4096 8196 248) 36
      let (q, h₂) ← gcAllocVo h₁ 36
      let (r₁, h₃) ← gcFreeVo h₂ p
      let (r₂, h₄) ← gcFreeVo h₃ q
      let (r₃, h₅) ← gcFreeVo h₄ q
      return ([p, q, h₄.totalFreeSize, h₅.totalFreeSize], [r₁, r₂, r₃]) : Option (List Nat × List Int)) =
      some ([8200, 8240, 248, 288], [0, 0, 0]) := by
  decide +kernel

theorem gone_merged : ∃ s n h', Gone (gcInitInternal (fun _ => 0) 4096 8196 248) 8240 s n [s.heap] ∧
    s.heap.totalFreeSize = 248 ∧ gcFreeVo s.heap 8240 = some (0, h') ∧ h'.totalFreeSize = 288 := by
  have hrun := merged_run
  simp only [Option.bind_eq_bind, Option.bind_eq_some_iff, Prod.exists, Option.pure_def, Option.some.injEq, Prod.mk.injEq,
    List.cons.injEq, and_true] at hrun
  obtain ⟨p, h₁, run₁, q, h₂, run₂, r₁, h₃, run₃, r₂, h₄, run₄, r₃, h₅, run₅, ⟨rfl, rfl, hfree₄, hfree₅⟩, rfl, rfl, rfl⟩ := hrun
  have reach : Session.Reach (gcInitInternal (fun _ => 0) 4096 8196 248) ⟨h₃, [8240, 8200].erase 8200, true⟩ :=
    ((Relation.ReflTransGen.refl.tail (Session.Step.alloc run₁ (by decide))).tail
      (Session.Step.alloc run₂ (by decide))).tail (Session.Step.free (by simp) run₃)
  have live : 8240 ∈ [8240, 8200].erase 8200 := by decide
  exact ⟨_, _, h₅, Gone.freed reach live run₄, hfree₄, run₅, hfree₅⟩

/-- An object that was merged into the free chunk before it is freed again: 40 more bytes count as free than the pool has. -/
theorem merged_freed_again : ∃ s n, Gone (gcInitInternal (fun _ => 0) 4096 8196 248) 8240 s n [s.heap] ∧
    gcFreeVo s.heap 8240 ≠ some (-1, s.heap) ∧
    ∃ h', s.heap.totalFreeSize = 248 ∧ gcFreeVo s.heap 8240 = some (0, h') ∧ h'.totalFreeSize = 288 := by
  obtain ⟨s, n, h', hgone, hbefore, run, hafter⟩ := gone_merged
  refine ⟨s, n, hgone, fun hz => ?_, h', hbefore, run, hafter⟩
  rw [run] at hz
  cases hz

theorem merged_refused_iff : ∃ s n, SetUp (gcInitInternal (fun _ => 0) 4096 8196 248) ∧
    Gone (gcInitInternal (fun _ => 0) 4096 8196 248) 8240 s n [s.heap] ∧
    (gcFreeVo s.heap 8240 = some (-1, s.heap) ↔ Noticed s.heap 8240 [s.heap]) := by
  obtain ⟨s, n, h', hgone, -⟩ := gone_merged
  exact ⟨s, n, setUp_small, hgone, double_free_refused_iff setUp_small hgone⟩

end WamrMigrate.Ems
