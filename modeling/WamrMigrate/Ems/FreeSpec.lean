import WamrMigrate.Ems.AllocSpec

/-!
# Freeing in memory

`gc_free_vo` makes a hole of the object's chunk, lets it take in the free chunks on both sides, and enters it into the index. The chunk before is
found through its footer. `gcFreeVo_spec`: this does what `Arena.free` does, and every other object keeps its bytes.
-/

namespace WamrMigrate.Ems

open SizeTree Tiles

section Merge
variable {h : GcHeap} {I : Index} {pre post : List Chunk} {o n : Nat} {pin : Bool}

theorem endUsed_eq_true (h : ∀ d ∈ pre.getLast?, d.used = true) : endUsed true pre = true := by
  rcases List.eq_nil_or_concat pre with rfl | ⟨pre', d, rfl⟩
  · rfl
  · rw [List.concat_eq_append, endUsed_append]
    exact h d (by simp)

theorem ptrAdd_footer {p k : Nat} (hp : p < 2 ^ 64) (hk : k ≤ p) (hk' : k < 2 ^ 31) : ptrAdd p (-int32 k) = p - k := by
  unfold ptrAdd int32
  rw [if_pos hk']
  omega

theorem Hole.mergePrev_spec (H : Hole h I pre post o n pin) (hst : ∀ d ∈ pre, d.used = false → d.stamped = true) :
    ∃ h', mergePrev h (h.baseAddr + o) n = some (true, h', h.baseAddr + (Arena.mergeBefore pre o n I).2.1, (Arena.mergeBefore pre o n I).2.2.1) ∧
      Hole h' (Arena.mergeBefore pre o n I).2.2.2 (Arena.mergeBefore pre o n I).1 post (Arena.mergeBefore pre o n I).2.1
        (Arena.mergeBefore pre o n I).2.2.1 pin ∧ FieldsOnly (Rest pre post (o + n)) h h' := by
  have hmerge := Arena.holds_mergeBefore H.holds H.sized_pre H.start
  rcases Arena.mergeBefore_cases pre o n I with ⟨hlast, he⟩ | ⟨pre', d, rfl, hd, he⟩
  · rw [he]
    refine ⟨h, ?_, H, FieldsOnly.refl _ h⟩
    rw [mergePrev, H.pinuse, endUsed_eq_true hlast, if_pos rfl]
  simp only [he] at hmerge ⊢
  obtain ⟨hholds, hsized, hstart, hsum, hle, h8⟩ := hmerge
  have hstart₀ := H.start
  have hfinish := H.finish
  have hcur := H.sane.size_lt
  have hend := H.sane.end_le
  have h16 := H.size16
  simp only [total_append, total_cons, total_nil, Nat.add_zero] at hstart₀
  have hd16 := (sized_cons.1 (sized_append.1 H.sized_pre).2).1
  have hhdr : HdrAt h (h.baseAddr + (o - d.size)) (endUsed true pre') d := by
    have := H.before.hdr
    rwa [← hstart] at this
  have hfoot : h.mem.load (h.baseAddr + o - 4) 4 = d.size := by
    have := hhdr.footer hd (hst d (by simp) hd)
    rwa [show h.baseAddr + (o - d.size) + d.size - 4 = h.baseAddr + o - 4 by omega] at this
  have hut : hmuGetUt (h.header (h.baseAddr + (o - d.size))) = hmuFC := by
    rw [hhdr.ut, if_neg (by simp [hd])]
  have hprev : ptrAdd (h.baseAddr + o) (-int32 d.size) = h.baseAddr + (o - d.size) := by
    rw [ptrAdd_footer (by omega) (by omega) (by omega)]
    omega
  have hS : Rest (pre' ++ [d]) post (o + n) (o - d.size) d.size := by
    refine Or.inl (freeIn_append.2 (.inr (freeIn_cons.2 (.inl ⟨?_, hd, rfl⟩))))
    omega
  have hin : hmuIsInHeap h (h.baseAddr + (o - d.size)) := H.spread_rest.inHeap hS
  obtain ⟨h', hrun, hI, hf⟩ := unlinkHmu_spec H.sane H.index H.holds H.spread_rest hS hut hhdr.size
  obtain ⟨hbefore, hafter⟩ := H.frame (hf.within (h.baseAddr + o) (h.baseAddr + (o + n))) (Nat.le_refl _) (Nat.le_refl _)
  rw [chunksAt_append] at hbefore
  refine ⟨h', ?_, ?_, hf⟩
  · have hpin : hmuGetPinuse (h.header (h.baseAddr + o)) = false := by
      rw [H.pinuse, endUsed_append]
      exact hd
    rw [mergePrev, hpin, hfoot]
    simp only [Bool.false_eq_true, if_false, hprev, if_pos (And.intro hin hut), hrun, hhdr.size]
    rw [add32_eq (by omega)]
  constructor
  · exact hf.sane H.sane
  · rw [hf.base]
    exact hbefore.1
  · have := hbefore.2.1.pinuse
    rwa [hf.base, hstart]
  · rw [hf.base, hsum]
    exact hafter
  · exact hsized
  · exact H.sized_post
  · rw [h8, H.size8]
  · exact Nat.le_trans H.size16 hle
  · exact hstart
  · rw [hsum, hf.cur]
    exact hfinish
  · exact hI
  · rw [hsum]
    exact hholds

theorem Hole.mergeNext_spec (H : Hole h I pre post o n true) :
    ∃ h' pin, mergeNext h (h.baseAddr + o) n = some (true, h', (Arena.mergeAfter post o n I).2.1) ∧
      Hole h' (Arena.mergeAfter post o n I).2.2 pre (Arena.mergeAfter post o n I).1 o (Arena.mergeAfter post o n I).2.1 pin ∧
      FieldsOnly (Rest pre post (o + n)) h h' := by
  have h16 := H.size16
  have hmerge := Arena.holds_mergeAfter H.holds H.sized_pre H.sized_post H.start (by omega)
  have hfinish := H.finish
  have hcur := H.sane.size_lt
  rw [mergeNext, show h.baseAddr + o + n = h.baseAddr + (o + n) by omega]
  rcases Arena.mergeAfter_cases post o n I with ⟨hhead, he⟩ | ⟨d, post', rfl, hd, he⟩
  · rw [he]
    refine ⟨h, true, ?_, H, FieldsOnly.refl _ h⟩
    -- there is no chunk after the hole, or it is an object
    rw [if_neg]
    rintro ⟨hin, hut⟩
    cases post with
    | nil =>
      unfold hmuIsInHeap at hin
      simp only [total_nil] at hfinish
      omega
    | cons d post =>
      rw [H.after.1.ut, if_pos (hhead d (by simp))] at hut
      exact absurd hut (by decide)
  · simp only [he] at hmerge ⊢
    obtain ⟨hholds, hsized, hsum, hle, h8⟩ := hmerge
    obtain ⟨hhdr, hafter⟩ := H.after
    have hd16 := (sized_cons.1 H.sized_post).1
    simp only [total_cons] at hfinish hsum
    have hut : hmuGetUt (h.header (h.baseAddr + (o + n))) = hmuFC := by
      rw [hhdr.ut, if_neg (by simp [hd])]
    have hS : Rest pre (d :: post') (o + n) (o + n) d.size := Or.inr (freeIn_cons.2 (.inl ⟨rfl, hd, rfl⟩))
    have hin : hmuIsInHeap h (h.baseAddr + (o + n)) := H.spread_rest.inHeap hS
    obtain ⟨h', hrun, hI, hf⟩ := unlinkHmu_spec H.sane H.index H.holds H.spread_rest hS hut hhdr.size
    have hw := hf.within (h.baseAddr + o) (h.baseAddr + o)
    obtain ⟨hbefore, hafter'⟩ := H.frame hw (Nat.le_refl _) (by omega)
    refine ⟨h', d.used, ?_, ?_, hf⟩
    · rw [if_pos (And.intro hin hut), hrun]
      simp only [hhdr.size]
      rw [add32_eq (by omega)]
    constructor
    · exact hf.sane H.sane
    · rw [hf.base]
      exact hbefore
    · rw [hf.base, ← H.pinuse]
      -- the header of the hole is no field of a free chunk
      congr 1
      refine header_congr (hf.eqOn H.sane (by omega) (by omega) fun o' n' hS' => ?_)
      have h1 := H.side hS'
      have h2 := nodeEnd_le h1.1
      omega
    · rw [hf.base, show h.baseAddr + (o + (n + d.size)) = h.baseAddr + (o + n) + d.size by omega]
      exact hafter'.2
    · exact H.sized_pre
    · exact hsized
    · rw [h8, H.size8]
    · exact Nat.le_trans h16 hle
    · exact H.start
    · rw [hf.cur]
      omega
    · exact hI
    · exact hholds

/-- A hole becomes a free chunk; only the note about it in the header after it is left to write. -/
theorem Hole.gciAddFc_spec (H : Hole h I pre post o n pin) : ∃ h', gciAddFc h (h.baseAddr + o) n = some (true, h') ∧ IndexAt h' (I.insert o n) ∧
      Within (Rest pre post (o + n)) (h.baseAddr + o) (h.baseAddr + (o + n)) h h' ∧ h'.totalFreeSize = h.totalFreeSize ∧
      ChunksAt h' h.baseAddr true (pre ++ [⟨n, false, true⟩]) ∧ ChunksAt h' (h.baseAddr + (o + n)) pin post := by
  obtain ⟨hsp, hfresh⟩ := H.spread o n (Nat.le_refl o) (Nat.le_refl _) (H.start ▸ H.sized_pre.total_mod) H.size8 H.size16
  obtain ⟨h', hrun, hI, hw, hfree, hhdr⟩ := Ems.gciAddFc_spec H.sane H.index H.holds hsp hfresh
  rw [Nat.add_assoc] at hw
  obtain ⟨hbefore, hafter⟩ := H.frame hw (Nat.le_refl _) (Nat.le_refl _)
  refine ⟨h', hrun, hI, hw, hfree, chunksAt_append.2 ⟨hbefore, ?_, trivial⟩, hafter⟩
  rw [← H.start, ← H.pinuse]
  exact hhdr

end Merge

/-! ## Freeing an object -/

section Free
variable {h : GcHeap} {A : Arena} {pre post : List Chunk} {c : Chunk} {o n e : Nat}

/-- An object's chunk as a hole; the note about it after it says that it is in use. -/
theorem Repr.hole_used (hr : Repr h A) (hA : A.chunks = pre ++ c :: post) (ho : o = total Chunk.size pre)
    (hu : c.used = true) (hn : c.size = n) (k : Nat) : Hole { h with totalFreeSize := k } A.index pre post o n true := by
  have hc := hr.chunks
  have hs := hr.wf.sized
  have ht := hr.total_eq
  rw [hA] at hc hs ht
  rw [sized_append, sized_cons] at hs
  simp only [total_append, total_cons] at ht
  have hsame : ∀ {p pin cs}, ChunksAt h p pin cs → ChunksAt { h with totalFreeSize := k } p pin cs := fun hc' =>
    hc'.congr fun _ _ _ => ⟨Mem.EqOn.refl _ _ _, fun _ => Mem.EqOn.refl _ _ _⟩
  obtain ⟨hpre, hhdr, hpost⟩ := chunksAt_append.1 hc
  rw [← ho] at hhdr hpost
  subst hn
  refine ⟨⟨hr.sane.base_align, hr.sane.size_lt, hr.sane.end_le, hr.sane.root_ne, hr.sane.root_le, hr.sane.root_apart⟩,
    hsame hpre, hhdr.pinuse, ?_, hs.1, hs.2.2, hs.2.1.1, hs.2.1.2, ho, by simp only; omega, ⟨hr.index.lists, hr.index.tree⟩,
    Arena.holds_around hr.wf hA ho hu⟩
  rw [← Nat.add_assoc, ← hu]
  exact hsame hpost

theorem rest_mergeBefore {I : Index} {o' n' : Nat} (h : Rest (Arena.mergeBefore pre o n I).1 post e o' n') : Rest pre post e o' n' := by
  rcases Arena.mergeBefore_cases pre o n I with ⟨-, he⟩ | ⟨pre', d, rfl, -, he⟩
  · rwa [he] at h
  · rw [he] at h
    exact h.imp_left fun hf => freeIn_append.2 (.inl hf)

theorem rest_mergeAfter {I : Index} {o' n' : Nat} (h : Rest pre (Arena.mergeAfter post o n I).1 (o + (Arena.mergeAfter post o n I).2.1) o' n') :
    Rest pre post (o + n) o' n' := by
  rcases Arena.mergeAfter_cases post o n I with ⟨-, he⟩ | ⟨d, post', rfl, -, he⟩
  · rwa [he] at h
  · rw [he] at h
    refine h.imp_right fun hf => freeIn_cons.2 (.inr ?_)
    rwa [Nat.add_assoc]

theorem unmark_spec {I : Index} {S : Nat → Nat → Prop} (hs : Sane h) (hi : IndexAt h I) (hH : I.Holds S)
    (hsp : Spread S h.currentSize) (hside : ∀ o' n', S o' n' → o' + n' ≤ e ∨ e ≤ o') {pin : Bool}
    (hpre : ChunksAt h h.baseAddr true pre) (hspre : Sized pre) (he : e = total Chunk.size pre)
    (hpost : ChunksAt h (h.baseAddr + e) pin post) (hspost : Sized post) (hend : e + total Chunk.size post = h.currentSize)
    (hlast : endUsed true pre = false) :
    let h' := if hmuIsInHeap h (h.baseAddr + e) then
      h.setHeader (h.baseAddr + e) (hmuUnmarkPinuse (h.header (h.baseAddr + e))) else h
    IndexAt h' I ∧ ChunksAt h' h.baseAddr true (pre ++ post) ∧
      Within (fun _ _ => False) (h.baseAddr + e) (h.baseAddr + e + 4) h h' ∧ h'.totalFreeSize = h.totalFreeSize := by
  cases post with
  | nil =>
    have hout : ¬hmuIsInHeap h (h.baseAddr + e) := by
      simp only [total_nil] at hend
      unfold hmuIsInHeap
      omega
    simp only [if_neg hout, List.append_nil]
    exact ⟨hi, hpre, Within.refl _ _ _ h, trivial⟩
  | cons d post =>
    have hd16 := (sized_cons.1 hspost).1.2
    simp only [total_cons] at hend
    have hin : hmuIsInHeap h (h.baseAddr + e) := by
      unfold hmuIsInHeap
      omega
    simp only [if_pos hin]
    refine ⟨?_, chunksAt_append.2 ⟨hpre.setHeader hspre (by omega) _, ?_⟩,
      within_setHeader _ (Nat.le_refl _) (Nat.le_refl _), rfl⟩
    · refine hi.setHeader hH hs hsp (by omega) (by omega) (fun o' n' hS => ?_) _
      have := hside o' n' hS
      omega
    rw [← he, hlast]
    refine hpost.setPinuse hspost ?_ ?_ ?_ ?_
    · rw [hmuGetSize_hmuUnmarkPinuse]
    · rw [hmuGetUt_hmuUnmarkPinuse]
    · rw [hmuIsVoFreed_hmuUnmarkPinuse]
    · rw [hmuGetPinuse_hmuUnmarkPinuse]

/-- What `gc_free_vo` does with an object: its chunk becomes a hole, which takes in its free neighbours; the hole is entered into
the index, and the header after it is told. -/
theorem gcFreeVo_run (hr : Repr h A) (hA : A.chunks = pre ++ c :: post) (ho : o = total Chunk.size pre) (hu : c.used = true) (hn : c.size = n) :
    let b := Arena.mergeBefore pre o n A.index
    let a := Arena.mergeAfter post b.2.1 b.2.2.1 b.2.2.2
    ∃ h₂ h₃ pin, FieldsOnly (FreeIn 0 A.chunks) { h with totalFreeSize := add32 h.totalFreeSize n } h₂ ∧
      Hole h₂ a.2.2 b.1 a.1 b.2.1 a.2.1 pin ∧ (∀ o' n', Rest b.1 a.1 (b.2.1 + a.2.1) o' n' → FreeIn 0 A.chunks o' n') ∧
      gciAddFc h₂ (h.baseAddr + b.2.1) a.2.1 = some (true, h₃) ∧
      gcFreeVo h (h.baseAddr + o + 4) = some (0, if hmuIsInHeap h₃ (h.baseAddr + (b.2.1 + a.2.1)) then
        h₃.setHeader (h.baseAddr + (b.2.1 + a.2.1)) (hmuUnmarkPinuse (h₃.header (h.baseAddr + (b.2.1 + a.2.1)))) else h₃) := by
  intro b a
  have hba := hr.sane.base_align
  have hhdr : HdrAt h (h.baseAddr + o) (endUsed true pre) c := by
    have := hr.chunks
    rw [hA] at this
    rw [ho]
    exact this.hdr
  have hst := Arena.allStamped_of_used hr.wf hA hu
  have hsub : ∀ o' n', Rest pre post (o + n) o' n' → FreeIn 0 A.chunks o' n' := by
    intro o' n' hS
    have := (freeIn_remove (p := 0) (o := o') (n := n') (hA ▸ hr.wf.sized)).2
    rw [← hA, hn, Nat.zero_add, ← ho] at this
    exact (this hS).1
  have H₀ := hr.hole_used hA ho hu hn (add32 h.totalFreeSize n)
  obtain ⟨h₁, hrun₁, H₁, hf₁⟩ := H₀.mergePrev_spec fun d hd => hst d (by rw [hA]; simp [hd])
  have hsum : b.2.1 + b.2.2.1 = o + n := (Arena.holds_mergeBefore H₀.holds H₀.sized_pre H₀.start).2.2.2.1
  obtain ⟨h₂, pin, hrun₂, H₂, hf₂⟩ := H₁.mergeNext_spec
  obtain ⟨h₃, hrun₃, -⟩ := H₂.gciAddFc_spec
  rw [show Arena.mergeBefore pre o n A.index = b from rfl] at hrun₁ H₁ hrun₂ hf₂ H₂ hrun₃
  rw [show Arena.mergeAfter post b.2.1 b.2.2.1 b.2.2.2 = a from rfl] at hrun₂ H₂ hrun₃
  have hb₁ : h₁.baseAddr = h.baseAddr := hf₁.base
  have hb₂ : h₂.baseAddr = h.baseAddr := hf₂.base.trans hb₁
  rw [hb₂] at hrun₃
  have hsub₂ : ∀ o' n', Rest b.1 post (b.2.1 + b.2.2.1) o' n' → FreeIn 0 A.chunks o' n' := by
    intro o' n' hS
    rw [hsum] at hS
    exact hsub o' n' (rest_mergeBefore hS)
  refine ⟨h₂, h₃, pin, (hf₁.mono hsub).trans (hf₂.mono hsub₂), H₂, fun o' n' hS => hsub₂ o' n' (rest_mergeAfter hS), hrun₃, ?_⟩
  have hin : hmuIsInHeap h (h.baseAddr + o) := by
    have h1 := H₀.finish
    have h2 := H₀.size16
    unfold hmuIsInHeap
    simp only at h1
    omega
  rw [gcFreeVo, if_neg (by omega), if_neg (by simp [hr.ok])]
  simp only [show h.baseAddr + o + 4 - hmuSize = h.baseAddr + o from rfl, if_neg (not_not.2 hin), hhdr.ut, hu, if_true,
    ne_eq, not_true_eq_false, if_false, hhdr.live hu, Bool.false_eq_true, hhdr.size, hn]
  have hrun₁' : mergePrev { h with totalFreeSize := add32 h.totalFreeSize n } (h.baseAddr + o) n =
    some (true, h₁, h₁.baseAddr + b.2.1, b.2.2.1) := by rw [hb₁]; exact hrun₁
  rw [hrun₁']
  simp only [hrun₂]
  rw [hb₁, hrun₃]
  simp only
  rw [Nat.add_assoc]
  split <;> rfl

theorem gcFreeVo_spec (hr : Repr h A) (hA : A.chunks = pre ++ c :: post) (ho : o = total Chunk.size pre) (hu : c.used = true) (hn : c.size = n) :
    let b := Arena.mergeBefore pre o n A.index
    let a := Arena.mergeAfter post b.2.1 b.2.2.1 b.2.2.2
    ∃ h', gcFreeVo h (h.baseAddr + o + 4) = some (0, h') ∧ Repr h' (Arena.freed pre post o n A.index) ∧
      Within (FreeIn 0 A.chunks) (h.baseAddr + b.2.1) (h.baseAddr + (b.2.1 + a.2.1) + 4) h h' := by
  intro b a
  have hcur := hr.sane.size_lt
  have hfreed := Arena.freed_wf hr.wf hA ho hu
  have hftot := Arena.freeTotal_freed (o := o) hA hu A.index
  rw [hn] at hfreed hftot
  have hle := Arena.freeTotal_le (Arena.freed pre post o n A.index).chunks
  obtain ⟨h₂, h₃, pin, hf₂, H₂, hsub, hrun₃, hrun⟩ := gcFreeVo_run hr hA ho hu hn
  rw [show Arena.mergeBefore pre o n A.index = b from rfl] at H₂ hsub hrun₃ hrun
  rw [show Arena.mergeAfter post b.2.1 b.2.2.1 b.2.2.2 = a from rfl] at H₂ hsub hrun₃ hrun
  have hb₂ : h₂.baseAddr = h.baseAddr := hf₂.base
  obtain ⟨h₃', hrun₃', hI₃, hw₃, hfree₃, hpre₃, hpost₃⟩ := H₂.gciAddFc_spec
  obtain rfl : h₃ = h₃' := by
    rw [hb₂, hrun₃] at hrun₃'
    cases hrun₃'
    rfl
  have hb₃ : h₃.baseAddr = h.baseAddr := hw₃.base.trans hb₂
  have hc₂ : h₂.currentSize = h.currentSize := hf₂.cur
  have hc₃ : h₃.currentSize = h.currentSize := hw₃.cur.trans hc₂
  have hw : Within (FreeIn 0 A.chunks) (h.baseAddr + b.2.1) (h.baseAddr + (b.2.1 + a.2.1) + 4) h h₃ := by
    have w₀ : Within (FreeIn 0 A.chunks) (h.baseAddr + b.2.1) (h.baseAddr + (b.2.1 + a.2.1) + 4) h
        { h with totalFreeSize := add32 h.totalFreeSize n } := ⟨rfl, rfl, rfl, rfl, fun _ _ _ _ => rfl⟩
    exact (w₀.trans (hf₂.within _ _)).trans (hw₃.mono hsub (by omega) (by omega))
  obtain ⟨hsp, hfresh⟩ := H₂.spread b.2.1 a.2.1 (Nat.le_refl _) (Nat.le_refl _) (H₂.start ▸ H₂.sized_pre.total_mod)
    H₂.size8 H₂.size16
  have hholds := H₂.holds.insert H₂.size8 hfresh
  have hfinish := H₂.finish
  have hstart := H₂.start
  rw [hc₂] at hfinish hsp
  rw [hb₂, ← hb₃] at hpre₃ hpost₃
  obtain ⟨hI₄, hch₄, hw₄, hfree₄⟩ := unmark_spec (hw.sane hr.sane) hI₃ hholds (by rwa [hc₃]) (fun o' n' hS => by
      rcases hS with hS | ⟨rfl, rfl⟩
      · have := H₂.side hS
        omega
      · omega) hpre₃
    (sized_append.2 ⟨H₂.sized_pre, sized_cons.2 ⟨⟨H₂.size8, H₂.size16⟩, fun _ hd => nomatch hd⟩⟩)
    (by simp only [total_append, total_cons, total_nil]; omega) hpost₃ H₂.sized_post (by rw [hc₃]; exact hfinish)
    (by rw [endUsed_append]; rfl)
  rw [hb₃] at hI₄ hch₄ hw₄ hfree₄
  refine ⟨_, hrun, ?_, hw.trans (hw₄.mono (fun _ _ hf => hf.elim) (by omega) (by omega))⟩
  have hfr : Arena.freed pre post o n A.index = ⟨b.1 ++ ⟨a.2.1, false, true⟩ :: a.1, a.2.2.insert b.2.1 a.2.1⟩ := rfl
  have hcur₄ := hw₄.cur.trans hc₃
  have htot := hfreed.2.2.trans hr.total_eq
  have hfree₂ : h₂.totalFreeSize = add32 h.totalFreeSize n := by rw [hf₂.same]
  refine ⟨hw₄.sane (hw.sane hr.sane), hw₄.corrupted.trans (hw.corrupted.trans hr.ok), hfreed.1, ?_, ?_, hI₄, ?_⟩
  · rw [hw₄.base, hfr, hb₃]
    simpa using hch₄
  · exact htot.trans hcur₄.symm
  · rw [hfree₄, hfree₃, hfree₂, hr.free_eq, hftot, add32_eq]
    rw [htot, hftot] at hle
    omega

end Free

end WamrMigrate.Ems
