import WamrMigrate.Ems.Repr

/-!
# Allocating in memory

While a free chunk is out of the index, before it is handed out or entered again, the heap has a hole: a stretch of the pool that no chunk of the
index covers (`Hole`). Allocation turns a hole into an object and perhaps a smaller free chunk. `allocHmu_spec`: `alloc_hmu`, with the chunk marked
as an object afterwards, does what `Arena.alloc` does.
-/

namespace WamrMigrate.Ems

open SizeTree Tiles

/-- The free chunks of `pre`, at the start of the pool, and of `post`, from `e` on. -/
def Rest (pre post : List Chunk) (e : Nat) : Nat → Nat → Prop := fun o n => FreeIn 0 pre o n ∨ FreeIn e post o n

/-- The heap with a hole of `n` bytes at `o`, between the chunks `pre` and `post`; `pin` is the note about the hole in the
header after it. -/
structure Hole (h : GcHeap) (I : Index) (pre post : List Chunk) (o n : Nat) (pin : Bool) : Prop where
  sane : Sane h
  before : ChunksAt h h.baseAddr true pre
  pinuse : hmuGetPinuse (h.header (h.baseAddr + o)) = endUsed true pre
  after : ChunksAt h (h.baseAddr + (o + n)) pin post
  sized_pre : Sized pre
  sized_post : Sized post
  size8 : n % 8 = 0
  size16 : 16 ≤ n
  start : o = total Chunk.size pre
  finish : o + n + total Chunk.size post = h.currentSize
  index : IndexAt h I
  holds : I.Holds (Rest pre post (o + n))

section Hole
variable {h h' : GcHeap} {I : Index} {pre post : List Chunk} {o n : Nat} {pin : Bool}

theorem Hole.side (H : Hole h I pre post o n pin) {o' n' : Nat} (hS : Rest pre post (o + n) o' n') : 16 ≤ n' ∧ (o' + n' ≤ o ∨ o + n ≤ o') := by
  have hstart := H.start
  rcases hS with hf | hf
  · have h1 := hf.bounds
    have h2 := hf.sized H.sized_pre
    omega
  · have h1 := hf.bounds
    have h2 := hf.sized H.sized_post
    omega

theorem Hole.spread (H : Hole h I pre post o n pin) (o₁ n₁ : Nat) (ho : o ≤ o₁) (hn : o₁ + n₁ ≤ o + n) (ho8 : o₁ % 8 = 0)
    (hn8 : n₁ % 8 = 0) (hn16 : 16 ≤ n₁) : Spread (Plus (Rest pre post (o + n)) o₁ n₁) h.currentSize ∧ ∀ k, ¬Rest pre post (o + n) o₁ k := by
  have hstart := H.start
  have hfinish := H.finish
  have hrest : Spread (Rest pre post (o + n)) h.currentSize := by
    have hs : Sized (pre ++ ⟨n, true, false⟩ :: post) :=
      sized_append.2 ⟨H.sized_pre, sized_cons.2 ⟨⟨H.size8, H.size16⟩, H.sized_post⟩⟩
    have ht : total Chunk.size (pre ++ ⟨n, true, false⟩ :: post) = h.currentSize := by
      simp only [total_append, total_cons]
      omega
    refine (spread_freeIn hs ht).mono fun o' n' hf => ?_
    rw [freeIn_append, freeIn_cons]
    rcases hf with hf | hf
    · exact .inl hf
    · refine Or.inr (.inr ?_)
      simpa [← hstart] using hf
  refine ⟨⟨?_, ?_⟩, ?_⟩
  · rintro o' n' (hf | ⟨rfl, rfl⟩)
    · exact hrest.bounds o' n' hf
    · omega
  · rintro a k a' k' (hf | ⟨rfl, rfl⟩) (hf' | ⟨rfl, rfl⟩)
    · exact hrest.apart _ _ _ _ hf hf'
    · have := H.side hf
      omega
    · have := H.side hf'
      omega
    · exact .inl ⟨rfl, rfl⟩
  · intro k hf
    have := H.side hf
    omega

/-- The chunks around a hole are kept by what only touches the hole. -/
theorem Hole.frame (H : Hole h I pre post o n pin) {a b : Nat}
    (w : Within (Rest pre post (o + n)) a b h h') (ha : h.baseAddr + o ≤ a) (hb : b ≤ h.baseAddr + (o + n)) :
    ChunksAt h' h.baseAddr true pre ∧ ChunksAt h' (h.baseAddr + (o + n)) pin post := by
  have hstart := H.start
  have hfinish := H.finish
  constructor
  · refine ChunksAt.within (s := 0) H.before w H.sane H.sized_pre (by omega) (by omega) ?_
    rintro o' n' (hf | hf)
    · exact ⟨(hf.sized H.sized_pre).2, .inl hf⟩
    · have h1 := hf.bounds
      exact ⟨(hf.sized H.sized_post).2, by omega⟩
  refine ChunksAt.within H.after w H.sane H.sized_post (by omega) (by omega) ?_
  rintro o' n' (hf | hf)
  · have h1 := hf.bounds
    exact ⟨(hf.sized H.sized_pre).2, by omega⟩
  · exact ⟨(hf.sized H.sized_post).2, .inl hf⟩

theorem IndexAt.within {S : Nat → Nat → Prop} {a b : Nat} (hi : IndexAt h I) (hH : I.Holds S) (hs : Sane h)
    (w : Within (fun _ _ => False) a b h h') (hl : h'.kfcNormalList = h.kfcNormalList) (hroot : Mem.EqOn h.mem h'.mem (h.kfcTreeRoot + 4) 28)
    (hsp : Spread S h.currentSize) (hab : ∀ o n, S o n → h.baseAddr + o + nodeEnd n ≤ a ∨ b ≤ h.baseAddr + o + 4) : IndexAt h' I := by
  refine hi.congr hH w.base w.root hl hroot fun o n hS => ?_
  have h1 := hab o n hS
  have h2 := hsp.bounds o n hS
  have h3 := nodeEnd_le h2.2.2.1
  exact w.eqOn hs (by omega) (by omega) (by omega) fun _ _ hf => hf.elim

/-- A header written in front of every node it is near keeps the index. -/
theorem IndexAt.setHeader {S : Nat → Nat → Prop} {p : Nat} (hi : IndexAt h I) (hH : I.Holds S) (hs : Sane h)
    (hsp : Spread S h.currentSize) (hp : h.baseAddr ≤ p) (hp' : p + 4 ≤ h.baseAddr + h.currentSize)
    (hd : ∀ o n, S o n → h.baseAddr + o + n ≤ p ∨ p ≤ h.baseAddr + o) (v : BitVec 32) : IndexAt (h.setHeader p v) I := by
  have hra := hs.root_apart
  refine hi.within hH hs (within_setHeader v (Nat.le_refl p) (Nat.le_refl _)) rfl (Mem.eqOn_store (by omega)) hsp ?_
  intro o n hS
  have h1 := hd o n hS
  have h2 := nodeEnd_le (hsp.bounds o n hS).2.2.1
  omega

theorem ChunksAt.setHeader {p q : Nat} {cs : List Chunk} (hc : ChunksAt h q pin cs) (hs : Sized cs)
    (hd : q + total Chunk.size cs ≤ p ∨ p + 4 ≤ q) (v : BitVec 32) : ChunksAt (h.setHeader p v) q pin cs := by
  refine hc.congr fun a c ha => ?_
  have h1 := located_bounds ha
  have h2 := (hs c (mem_of_located ha)).2
  exact ⟨Mem.eqOn_store (by omega), fun _ => Mem.eqOn_store (by omega)⟩

@[simp] theorem header_markVo (h : GcHeap) (p : Nat) : (markVo h p).header p = hmuUnfreeVo (hmuSetUt (h.header p) hmuVO) := by
  simp only [markVo, header_setHeader]

theorem within_markVo {S : Nat → Nat → Prop} {a b : Nat} (h : GcHeap) (p : Nat) (ha : a ≤ p) (hb : p + 4 ≤ b) : Within S a b h (markVo h p) :=
  (within_setHeader _ ha hb).trans (within_setHeader _ ha hb)

theorem hdrAt_markVo {p : Nat} {c : Chunk} (hu : c.used = true) (hsize : hmuGetSize (h.header p) = c.size)
    (hpin : hmuGetPinuse (h.header p) = pin) : HdrAt (markVo h p) p pin c := by
  have hVO : (hmuVO : BitVec 32) = hmuVO ∨ (hmuVO : BitVec 32) = hmuFC := Or.inl rfl
  constructor
  · rw [header_markVo, hmuGetSize_hmuUnfreeVo, hmuGetSize_hmuSetUt hVO, hsize]
  · rw [header_markVo, hmuGetUt_hmuUnfreeVo, hmuGetUt_hmuSetUt hVO, if_pos hu]
  · rw [header_markVo, hmuGetPinuse_hmuUnfreeVo, hmuGetPinuse_hmuSetUt hVO, hpin]
  · intro _
    rw [header_markVo, hmuIsVoFreed_hmuUnfreeVo]
  · intro hf
    rw [hu] at hf
    cases hf

end Hole

/-! ## Handing out a chunk -/

section Split
variable {h h' : GcHeap} {I I' : Index} {pre post : List Chunk} {o n size : Nat}

/-- A hole of `n` bytes at `o` has been handed out for a request of `size` bytes; what is left to do is to mark the chunk as an
object. -/
structure Handed (h h' : GcHeap) (I' : Index) (pre post : List Chunk) (o n size : Nat) : Prop where
  within : Within (Rest pre post (o + n)) (h.baseAddr + o) (h.baseAddr + (o + n) + 4) h h'
  index : IndexAt (markVo h' (h.baseAddr + o)) I'
  chunks : ChunksAt (markVo h' (h.baseAddr + o)) h.baseAddr true (pre ++ (Arena.pieces n size ++ post))
  size_eq : hmuGetSize (h'.header (h.baseAddr + o)) = Arena.granted n size
  free : h'.totalFreeSize = sub32 h.totalFreeSize (Arena.granted n size)

/-- The end of `alloc_hmu`: `h₁` is the heap in which the chunks `rest` after the `g` bytes handed out are in place. -/
theorem handed_of_rest {h₁ : GcHeap} {S : Nat → Nat → Prop} {rest : List Chunk} {g : Nat} (hs : Sane h)
    (w : Within (Rest pre post (o + n)) (h.baseAddr + o) (h.baseAddr + (o + n) + 4) h h₁) (hfree : h₁.totalFreeSize = h.totalFreeSize)
    (hi : IndexAt h₁ I') (hH : I'.Holds S) (hsp : Spread S h.currentSize)
    (hd : ∀ o' n', S o' n' → o' + n' ≤ o ∨ o ≤ o') (hpin : hmuGetPinuse (h₁.header (h.baseAddr + o)) = endUsed true pre)
    (hpre : ChunksAt h₁ h.baseAddr true pre) (hrest : ChunksAt h₁ (h.baseAddr + o + g) true rest)
    (hspre : Sized pre) (hsrest : Sized rest) (ho : o = total Chunk.size pre) (hg : g = Arena.granted n size)
    (hpieces : Arena.pieces n size ++ post = ⟨g, true, false⟩ :: rest) (h8 : g % 8 = 0) (h16 : 16 ≤ g) (hgn : g ≤ n) (hcur : o + n ≤ h.currentSize) :
    Handed h ((accountAlloc h₁ g).setHeader (h.baseAddr + o) (hmuSetSize ((accountAlloc h₁ g).header (h.baseAddr + o)) g)) I' pre post o n size := by
  have hlt := hs.size_lt
  have hs₁ := w.sane hs
  have hw₂ : Within (Rest pre post (o + n)) (h.baseAddr + o) (h.baseAddr + (o + n) + 4) h (accountAlloc h₁ g) :=
    w.trans ⟨rfl, rfl, rfl, rfl, fun _ _ _ _ => rfl⟩
  have hi₂ : IndexAt (accountAlloc h₁ g) I' :=
    hi.congr hH rfl rfl rfl (Mem.EqOn.refl _ _ _) fun _ _ _ => Mem.EqOn.refl _ _ _
  have hpin₂ : hmuGetPinuse ((accountAlloc h₁ g).header (h.baseAddr + o)) = endUsed true pre := hpin
  have hpre₂ : ChunksAt (accountAlloc h₁ g) h.baseAddr true pre :=
    hpre.congr fun _ _ _ => ⟨Mem.EqOn.refl _ _ _, fun _ => Mem.EqOn.refl _ _ _⟩
  have hrest₂ : ChunksAt (accountAlloc h₁ g) (h.baseAddr + o + g) true rest :=
    hrest.congr fun _ _ _ => ⟨Mem.EqOn.refl _ _ _, fun _ => Mem.EqOn.refl _ _ _⟩
  have hfree₂ : (accountAlloc h₁ g).totalFreeSize = sub32 h.totalFreeSize g := by rw [← hfree]; rfl
  have hs₂ := hw₂.sane hs
  have hbase := hw₂.base
  have hcur₂ := hw₂.cur
  generalize accountAlloc h₁ g = h₂ at *
  -- the three writes to the header touch neither the index nor the other chunks
  have hkeep : ∀ h₃ : GcHeap, ∀ v, Sane h₃ → h₃.baseAddr = h.baseAddr → h₃.currentSize = h.currentSize → IndexAt h₃ I' →
      IndexAt (h₃.setHeader (h.baseAddr + o) v) I' := by
    intro h₃ v hs₃ hb₃ hc₃ hi₃
    refine hi₃.setHeader hH hs₃ (by rwa [hc₃]) (by omega) (by omega) (fun o' n' hS => ?_) v
    have := hd o' n' hS
    omega
  have hmark : ∀ v, markVo (h₂.setHeader (h.baseAddr + o) v) (h.baseAddr + o) =
      ((h₂.setHeader (h.baseAddr + o) v).setHeader (h.baseAddr + o) (hmuSetUt v hmuVO)).setHeader (h.baseAddr + o)
        (hmuUnfreeVo (hmuSetUt v hmuVO)) := by
    intro v
    simp only [markVo, header_setHeader]
  have hsane : ∀ h₃ : GcHeap, ∀ v, Sane h₃ → Sane (h₃.setHeader (h.baseAddr + o) v) := fun h₃ v hs₃ =>
    ⟨hs₃.base_align, hs₃.size_lt, hs₃.end_le, hs₃.root_ne, hs₃.root_le, hs₃.root_apart⟩
  have hchunks : ∀ h₃ : GcHeap, ∀ v, ChunksAt h₃ h.baseAddr true pre ∧ ChunksAt h₃ (h.baseAddr + o + g) true rest →
      ChunksAt (h₃.setHeader (h.baseAddr + o) v) h.baseAddr true pre ∧
        ChunksAt (h₃.setHeader (h.baseAddr + o) v) (h.baseAddr + o + g) true rest := fun h₃ v hc =>
    ⟨hc.1.setHeader hspre (by omega) v, hc.2.setHeader hsrest (by omega) v⟩
  constructor
  · exact hw₂.trans (within_setHeader _ (Nat.le_refl _) (by omega))
  · rw [hmark]
    refine hkeep _ _ (hsane _ _ (hsane _ _ hs₂)) hbase hcur₂ ?_
    exact hkeep _ _ (hsane _ _ hs₂) hbase hcur₂ (hkeep _ _ hs₂ hbase hcur₂ hi₂)
  · rw [hpieces, chunksAt_append]
    have hc := hchunks _ (hmuUnfreeVo (hmuSetUt (hmuSetSize (h₂.header (h.baseAddr + o)) g) hmuVO))
      (hchunks _ (hmuSetUt (hmuSetSize (h₂.header (h.baseAddr + o)) g) hmuVO)
        (hchunks _ (hmuSetSize (h₂.header (h.baseAddr + o)) g) ⟨hpre₂, hrest₂⟩))
    rw [← hmark] at hc
    refine ⟨hc.1, ?_⟩
    rw [← ho]
    refine ⟨hdrAt_markVo rfl ?_ ?_, hc.2⟩
    · rw [header_setHeader, hmuGetSize_hmuSetSize (by omega) h8]
    · rw [header_setHeader, hmuGetPinuse_hmuSetSize (by omega), hpin₂]
  · rw [header_setHeader, hmuGetSize_hmuSetSize (by omega) h8, hg]
  · rw [← hg]
    exact hfree₂

/-- The part of a hole that is not asked for becomes a free chunk again. -/
theorem splitHmu_split (H : Hole h I pre post o n false) (h8 : size % 8 = 0) (h16 : 16 ≤ size) (hn : size + 16 ≤ n) :
    ∃ h', splitHmu h (h.baseAddr + o) n size = some (h.baseAddr + o, h') ∧ Handed h h' (I.insert (o + size) (n - size)) pre post o n size := by
  have hfinish := H.finish
  have hcur := H.sane.size_lt
  have ho8 : o % 8 = 0 := H.start ▸ H.sized_pre.total_mod
  have hn8 := H.size8
  obtain ⟨hsp, hfresh⟩ := H.spread (o + size) (n - size) (by omega) (by omega) (by omega) (by omega) (by omega)
  obtain ⟨h₁, hrun, hI₁, hw₁, hfree₁, hhdr₁⟩ := gciAddFc_spec H.sane H.index H.holds hsp hfresh
  have hadd : add32 size gcSmallestSize = size + 16 := add32_eq (b := 16) (by omega)
  rw [show h.baseAddr + (o + size) = h.baseAddr + o + size by omega] at hrun hw₁ hhdr₁
  rw [splitHmu, hadd, if_pos hn, hrun]
  refine ⟨_, rfl, ?_⟩
  have hgranted : Arena.granted n size = size := if_pos hn
  have hw₁' : Within (Rest pre post (o + n)) (h.baseAddr + o) (h.baseAddr + (o + n) + 4) h h₁ :=
    hw₁.mono (fun _ _ hS => hS) (by omega) (by omega)
  obtain ⟨hpre, hpost⟩ := H.frame hw₁ (by omega) (by omega)
  have hhead : h₁.header (h.baseAddr + o) = h.header (h.baseAddr + o) := by
    refine header_congr (hw₁.eqOn H.sane (by omega) (by omega) (by omega) fun o' n' hS => ?_)
    have h1 := H.side hS
    have h2 := nodeEnd_le h1.1
    omega
  -- the rest of the hole with the note that the chunk before it is in use
  have hrest : ChunksAt h₁ (h.baseAddr + o + size) (hmuGetPinuse (h.header (h.baseAddr + o + size)))
      (⟨n - size, false, true⟩ :: post) := by
    refine ⟨hhdr₁, ?_⟩
    rwa [show h.baseAddr + o + size + (n - size) = h.baseAddr + (o + n) by omega]
  have hsrest : Sized (⟨n - size, false, true⟩ :: post) := sized_cons.2 ⟨⟨by simp only; omega, by simp only; omega⟩, H.sized_post⟩
  have hholds := H.holds.insert (o := o + size) (n := n - size) (by omega) hfresh
  refine handed_of_rest (S := Plus (Rest pre post (o + n)) (o + size) (n - size)) H.sane
    (hw₁'.trans (within_setHeader _ (by omega) (by omega))) hfree₁ ?_ hholds hsp ?_ ?_ ?_ ?_ H.sized_pre hsrest H.start
    hgranted.symm ?_ h8 h16 (by omega) (by omega)
  · refine hI₁.setHeader hholds (hw₁.sane H.sane) (by rw [hw₁.cur]; exact hsp) ?_ ?_ ?_ _
    · rw [hw₁.base]
      omega
    · rw [hw₁.base, hw₁.cur]
      omega
    rw [hw₁.base]
    rintro o' n' (hS | ⟨rfl, rfl⟩)
    · have := H.side hS
      omega
    · omega
  · rintro o' n' (hS | ⟨rfl, rfl⟩)
    · have := H.side hS
      omega
    · omega
  · rw [header_setHeader_of_ne _ (by omega), hhead, H.pinuse]
  · exact hpre.setHeader H.sized_pre (by have := H.start; omega) _
  · refine hrest.setPinuse hsrest ?_ ?_ ?_ ?_
    · rw [hmuGetSize_hmuMarkPinuse]
    · rw [hmuGetUt_hmuMarkPinuse]
    · rw [hmuIsVoFreed_hmuMarkPinuse]
    · rw [hmuGetPinuse_hmuMarkPinuse]
  · rw [Arena.pieces, if_pos hn]
    rfl

theorem Hole.spread_rest {pin : Bool} (H : Hole h I pre post o n pin) : Spread (Rest pre post (o + n)) h.currentSize :=
  (H.spread o n (Nat.le_refl o) (Nat.le_refl _) (H.start ▸ H.sized_pre.total_mod) H.size8 H.size16).1.of_plus

/-- A hole that is not much larger than what is asked for is handed out whole. -/
theorem splitHmu_whole (H : Hole h I pre post o n false) (hn : n < size + 16) (hlt : size < 2 ^ 30) :
    ∃ h', splitHmu h (h.baseAddr + o) n size = some (h.baseAddr + o, h') ∧ Handed h h' I pre post o n size := by
  have hfinish := H.finish
  have hstart := H.start
  have hcur := H.sane.size_lt
  have h16 := H.size16
  have hadd : add32 size gcSmallestSize = size + 16 := add32_eq (b := 16) (by omega)
  have hgranted : Arena.granted n size = n := if_neg (by omega)
  have hpieces : Arena.pieces n size = [⟨n, true, false⟩] := if_neg (by omega)
  have hside : ∀ o' n', Rest pre post (o + n) o' n' → o' + n' ≤ o ∨ o ≤ o' := fun o' n' hS => by
    have := H.side hS
    omega
  rw [splitHmu, hadd, if_neg (by omega)]
  refine ⟨_, rfl, ?_⟩
  cases post with
  | nil =>
    -- the hole is at the end of the pool
    have hout : ¬hmuIsInHeap h (h.baseAddr + o + n) := by
      simp only [total_nil] at hfinish
      unfold hmuIsInHeap
      omega
    rw [if_neg hout]
    exact handed_of_rest H.sane (Within.refl _ _ _ h) rfl H.index H.holds H.spread_rest hside H.pinuse H.before
      (show ChunksAt h (h.baseAddr + o + n) true [] from trivial) H.sized_pre H.sized_post H.start hgranted.symm (by rw [hpieces]; rfl) H.size8 h16 (Nat.le_refl n)
      (by omega)
  | cons d post =>
    have hd16 := (sized_cons.1 H.sized_post).1.2
    simp only [total_cons] at hfinish
    have hin : hmuIsInHeap h (h.baseAddr + o + n) := by
      unfold hmuIsInHeap
      omega
    rw [if_pos hin]
    have hafter := H.after
    rw [show h.baseAddr + (o + n) = h.baseAddr + o + n by omega] at hafter
    refine handed_of_rest H.sane (within_setHeader _ (by omega) (by omega)) rfl ?_ H.holds H.spread_rest hside ?_ ?_
      (hafter.setPinuse H.sized_post ?_ ?_ ?_ ?_) H.sized_pre H.sized_post H.start hgranted.symm (by rw [hpieces]; rfl)
      H.size8 h16 (Nat.le_refl n) (by omega)
    · refine H.index.setHeader H.holds H.sane H.spread_rest (by omega) (by omega) (fun o' n' hS => ?_) _
      have := H.side hS
      omega
    · rw [header_setHeader_of_ne _ (by omega), H.pinuse]
    · exact H.before.setHeader H.sized_pre (by omega) _
    · rw [hmuGetSize_hmuMarkPinuse]
    · rw [hmuGetUt_hmuMarkPinuse]
    · rw [hmuIsVoFreed_hmuMarkPinuse]
    · rw [hmuGetPinuse_hmuMarkPinuse]

theorem splitHmu_spec (H : Hole h I pre post o n false) (h8 : size % 8 = 0) (h16 : 16 ≤ size) (hlt : size < 2 ^ 30) :
    ∃ h', splitHmu h (h.baseAddr + o) n size = some (h.baseAddr + o, h') ∧
      Handed h h' (if size + 16 ≤ n then I.insert (o + size) (n - size) else I) pre post o n size := by
  by_cases hn : size + 16 ≤ n
  · rw [if_pos hn]
    exact splitHmu_split H h8 h16 hn
  · rw [if_neg hn]
    exact splitHmu_whole H (by omega) hlt

end Split

/-! ## Finding a chunk -/

section Find
variable {h h₁ : GcHeap} {A : Arena} {I : Index} {pre post : List Chunk} {c : Chunk} {o n size : Nat}

/-- The loop over the lists finds the first bin that is not empty. -/
theorem firstNormal_firstBin (hi : IndexAt h I) (k i : Nat) : (Index.firstBin I.bins k i = none ∧ firstNormal h.kfcNormalList k i = none) ∨
      ∃ j o os, Index.firstBin I.bins k i = some (o, j * 8) ∧ firstNormal h.kfcNormalList k i = some j ∧ I.bins j = o :: os := by
  induction k generalizing i with
  | zero => exact .inl ⟨rfl, rfl⟩
  | succ k ih =>
    have hl := hi.lists i
    rw [Index.firstBin, firstNormal]
    cases hb : I.bins i with
    | nil =>
      rw [hb] at hl
      rw [if_neg (not_not.2 (show h.kfcNormalList i = 0 from hl))]
      exact ih (i + 1)
    | cons o os =>
      rw [hb] at hl
      obtain ⟨-, h0, -⟩ := hl
      have hne : h.kfcNormalList i ≠ 0 := by
        have := (hi.lists i).head_eq_zero
        rw [hb] at this
        exact fun hz => List.cons_ne_nil _ _ (this.1 hz)
      rw [if_pos hne]
      exact .inr ⟨i, o, os, rfl, rfl, hb⟩

theorem Repr.spread (hr : Repr h A) : Spread (FreeIn 0 A.chunks) h.currentSize := spread_freeIn hr.wf.sized hr.total_eq

/-- The chunks of a heap are kept by writes to fields of free chunks. -/
theorem Repr.chunks_of_fields (hr : Repr h A) (hf : FieldsOnly (FreeIn 0 A.chunks) h h₁) : ChunksAt h₁ h.baseAddr true A.chunks :=
  ChunksAt.within (s := 0) hr.chunks (hf.within 0 0) hr.sane hr.wf.sized (by have := hr.total_eq; omega) (by omega)
    fun _ _ hS => ⟨(hS.sized hr.wf.sized).2, .inl hS⟩

theorem Repr.hole (hr : Repr h A) (hA : A.chunks = pre ++ c :: post) (ho : o = total Chunk.size pre) (hu : c.used = false)
    (hn : c.size = n) (hi : IndexAt h₁ (A.index.erase o n)) (hf : FieldsOnly (FreeIn 0 A.chunks) h h₁) :
    Hole h₁ (A.index.erase o n) pre post o n false := by
  have hc := hr.chunks_of_fields hf
  have hs := hr.wf.sized
  have ht := hr.total_eq
  rw [hA] at hc hs ht
  rw [sized_append, sized_cons] at hs
  simp only [total_append, total_cons] at ht
  obtain ⟨hpre, hhdr, hpost⟩ := chunksAt_append.1 hc
  constructor
  · exact hf.sane hr.sane
  · rwa [hf.base]
  · rw [hf.base, ho]
    exact hhdr.pinuse
  · rw [hf.base, ← hn, ho, ← Nat.add_assoc, ← hu]
    exact hpost
  · exact hs.1
  · exact hs.2.2
  · exact hn ▸ hs.2.1.1
  · exact hn ▸ hs.2.1.2
  · exact ho
  · rw [hf.cur]
    omega
  · exact hi
  · exact Arena.holds_erase hr.wf hA ho hu hn

/-- `alloc_hmu` has handed out the chunk of `n` bytes at `o` for a request of `size` bytes, but not yet marked it as an
object. -/
structure HandedOut (h h' : GcHeap) (A : Arena) (o n size : Nat) : Prop where
  repr : Repr (markVo h' (h.baseAddr + o)) (A.take o n size)
  within : Within (FreeIn 0 A.chunks) (h.baseAddr + o) (h.baseAddr + (o + n) + 4) h h'
  size_eq : hmuGetSize (h'.header (h.baseAddr + o)) = Arena.granted n size

/-- Handing out the hole that a free chunk leaves is taking the chunk. -/
theorem Repr.handedOut (hr : Repr h A) (hf : FreeIn 0 A.chunks o n) (hi : IndexAt h₁ (A.index.erase o n))
    (hfields : FieldsOnly (FreeIn 0 A.chunks) h h₁) (h8 : size % 8 = 0) (h16 : 16 ≤ size) (hn : size ≤ n) :
    ∃ h', splitHmu h₁ (h.baseAddr + o) n size = some (h.baseAddr + o, h') ∧ HandedOut h h' A o n size := by
  obtain ⟨pre, c, post, hA, ho, hu, hcn⟩ := Arena.exists_split hf
  have hb := hr.spread.bounds o n hf
  have hcur := hr.sane.size_lt
  have H := hr.hole hA ho hu hcn hi hfields
  obtain ⟨h', hrun, hH⟩ := splitHmu_spec H h8 h16 (by omega)
  rw [hfields.base] at hrun
  obtain ⟨hw, hindex, hchunks, hsize, hfree⟩ := hH
  rw [hfields.base] at hw hindex hchunks hsize
  have hwf := (Arena.take_wf hr.wf hf h8 h16).1
  have hrest : ∀ o' n', Rest pre post (o + n) o' n' → FreeIn 0 A.chunks o' n' := by
    intro o' n' hS
    have := (freeIn_remove (p := 0) (o := o') (n := n') (hA ▸ hr.wf.sized)).2
    rw [← hA, hcn, Nat.zero_add, ← ho] at this
    exact (this hS).1
  have hw' := (hfields.within (h.baseAddr + o) (h.baseAddr + (o + n) + 4)).trans
    (hw.mono hrest (Nat.le_refl _) (Nat.le_refl _))
  have htake : (A.take o n size).chunks = _ := Arena.take_chunks hA hr.wf.sized ho
  have hftake : Arena.freeTotal (A.take o n size).chunks + Arena.granted n size = _ :=
    Arena.freeTotal_take hA hr.wf.sized ho hu hcn
  have hmark : (markVo h' (h.baseAddr + o)).baseAddr = h.baseAddr := hw'.base
  refine ⟨h', hrun, ?_, hw', hsize⟩
  constructor
  · obtain ⟨h1, h2, h3, h4, h5, h6⟩ := hw'.sane hr.sane
    exact ⟨h1, h2, h3, h4, h5, h6⟩
  · exact hw'.corrupted.trans hr.ok
  · exact hwf
  · rw [hmark, htake]
    exact hchunks
  · exact (Arena.total_take hA hr.wf.sized ho hcn).trans (hr.total_eq.trans hw'.cur.symm)
  · rw [Arena.take_index hA hr.wf.sized ho]
    exact hindex
  have h1 : h₁.totalFreeSize = h.totalFreeSize := by rw [hfields.same]
  show h'.totalFreeSize = _
  have h2 := Arena.freeTotal_le A.chunks
  rw [hr.total_eq] at h2
  rw [hfree, h1, hr.free_eq, sub32_eq (by omega) (by omega)]
  omega

/-- The free chunk that `alloc_hmu` takes, `n` bytes at `o`, is out of the index in `h₁`; `r` is what the call gives when it
goes on to hand out `size` bytes of it. -/
def Taken (h : GcHeap) (A : Arena) (o n size : Nat) (r : Option (Nat × GcHeap)) : Prop :=
  ∃ h₁, IndexAt h₁ (A.index.erase o n) ∧ FieldsOnly (FreeIn 0 A.chunks) h h₁ ∧ r = splitHmu h₁ (h.baseAddr + o) n size

/-- The part of `alloc_hmu` that looks in the tree takes the best chunk of the tree. -/
theorem allocHmuTree_eq (ht : Tiled h A) (size : Nat) : (A.index.tree.bestFit size none = none ∧ allocHmuTree h size = some (0, h)) ∨
      ∃ o n, A.index.tree.bestFit size none = some (o, n) ∧ Taken h A o n size (allocHmuTree h size) := by
  have H := ht.index.hangs ht.placed ht.holds ht.spread
  have hlen := tree_length_le (b := h.baseAddr) ht.holds ht.spread
  have hbest : bestTreeNode h size (h.currentSize + 1) (h.right h.kfcTreeRoot) 0 = _ :=
    @bestTreeNode_bestFit _ _ _ _ _ _ none H.tree H.items_in (by omega)
  have hmap := bestFit_map (h.baseAddr + ·) size A.index.tree none
  rw [Option.map_none] at hmap
  rw [hmap, Option.map_map] at hbest
  unfold allocHmuTree
  rw [hbest]
  cases hfit : A.index.tree.bestFit size none with
  | none => exact .inl ⟨rfl, rfl⟩
  | some e =>
    obtain ⟨o, n⟩ := e
    obtain ⟨hm, hk⟩ := (bestFit_mem hfit).resolve_left (fun hz => nomatch hz)
    obtain ⟨hn, hf⟩ := (ht.holds.tree_iff o n).1 hm
    obtain ⟨h₁, hrun, hi, hfields, hsize⟩ := removeTreeNode_spec ht.placed ht.index ht.holds ht.spread hf hn
    refine Or.inr ⟨o, n, rfl, h₁, hi, hfields, ?_⟩
    have hne : h.baseAddr + o ≠ 0 := by
      have := ht.placed.base_align
      omega
    simp only [Option.map_some, Function.comp_apply, Option.getD_some, if_neg hne, hrun, hsize]

theorem allocHmu_eq (ht : Tiled h A) (size : Nat) : (A.index.find (max size 16) = none ∧ allocHmu h size = some (0, h)) ∨
      ∃ o n, A.index.find (max size 16) = some (o, n) ∧ Taken h A o n (max size 16) (allocHmu h size) := by
  have hmax : (if size < gcSmallestSize then gcSmallestSize else size) = max size 16 := by
    show (if size < 16 then 16 else size) = max size 16
    split <;> omega
  unfold allocHmu
  simp only [hmax]
  generalize max size 16 = k
  have htree := allocHmuTree_eq ht k
  unfold Index.find
  by_cases hn : hmuIsFcNormal k
  · rw [if_pos hn, if_pos hn]
    rcases firstNormal_firstBin ht.index (hmuNormalNodeCnt - k / 8) (k / 8) with ⟨hb, hfirst⟩ | ⟨j, o, os, hb, hfirst, hbin⟩
    · rw [hb, hfirst, Option.none_or]
      exact htree
    -- the first node of the list is taken
    rw [hb, hfirst, Option.some_or]
    obtain ⟨hj31, hf⟩ := (ht.holds.bins_iff j o).1 (by rw [hbin]; simp)
    obtain ⟨hi, hhead⟩ := ht.index.pop hbin hj31
    have hbnd := ht.spread.bounds o _ hf
    have hba := ht.placed.base_align
    refine Or.inr ⟨o, j * 8, rfl, _, hi, ⟨rfl, fun _ _ _ => rfl⟩, ?_⟩
    have hin : hmuIsInHeap h (h.baseAddr + o) := ht.spread.inHeap hf
    have halign : ¬(h.baseAddr + o + hmuSize) % 8 ≠ 0 := by
      unfold hmuSize
      omega
    simp only [hhead, if_neg (not_not.2 hin), if_neg halign]
  · rw [if_neg hn, if_neg hn]
    exact htree

theorem allocHmu_spec (hr : Repr h A) (h8 : size % 8 = 0) : (A.index.find (max size 16) = none ∧ allocHmu h size = some (0, h)) ∨
      ∃ o n h', A.index.find (max size 16) = some (o, n) ∧ allocHmu h size = some (h.baseAddr + o, h') ∧ HandedOut h h' A o n (max size 16) := by
  have hk8 : max size 16 % 8 = 0 := by omega
  rcases allocHmu_eq hr.tiled size with hnone | ⟨o, n, hfind, h₁, hi, hfields, hrun⟩
  · exact .inl hnone
  · obtain ⟨hf, hk⟩ := hr.wf.holds.find hk8 hfind
    obtain ⟨h', hsplit, hout⟩ := hr.handedOut hf hi hfields hk8 (by omega) hk
    exact .inr ⟨o, n, h', hfind, hrun.trans hsplit, hout⟩

end Find

/-! ## Objects -/

section Objects
variable {h : GcHeap} {A : Arena} {o n size : Nat}

theorem Repr.write (hr : Repr h A) (hu : UsedIn 0 A.chunks o n) {m : Mem}
    (hm : ∀ x, ¬(h.baseAddr + o + 4 ≤ x ∧ x < h.baseAddr + o + n) → m x = h.mem x) : Repr { h with mem := m } A := by
  have hub := hu.bounds
  have ht := hr.total_eq
  have hra := hr.sane.root_apart
  have hkeep : ∀ a k, (a + k ≤ h.baseAddr + o + 4 ∨ h.baseAddr + o + n ≤ a) → Mem.EqOn h.mem m a k :=
    fun a k hd x h1 h2 => hm x (by omega)
  refine ⟨⟨hr.sane.base_align, hr.sane.size_lt, hr.sane.end_le, hr.sane.root_ne, hr.sane.root_le, hra⟩, hr.ok, hr.wf, ?_,
    ht, ?_, hr.free_eq⟩
  · refine hr.chunks.congr fun q c hq => ?_
    obtain ⟨d, hd, hdu, rfl⟩ := hu
    obtain ⟨a, rfl⟩ : ∃ a, q = h.baseAddr + a := ⟨q - h.baseAddr, by have := located_bounds hq; omega⟩
    have hc16 := (hr.wf.sized c (mem_of_located hq)).2
    rw [mem_located_shift] at hq
    constructor
    · refine hkeep _ _ ?_
      rcases located_disjoint hq hd with ⟨rfl, -⟩ | hdis
      · omega
      · omega
    intro hfree
    refine hkeep _ _ ?_
    rcases located_disjoint hq hd with ⟨-, rfl⟩ | hdis
    · rw [hdu] at hfree
      cases hfree
    · omega
  · refine hr.index.congr hr.wf.holds rfl rfl rfl (hkeep _ _ (by omega)) fun o' n' hf => hkeep _ _ ?_
    have h1 := hu.disjoint_free hf
    have h2 := nodeEnd_le (hf.sized hr.wf.sized).2
    omega

/-- When the size of the chunk does not overflow it has room for the header and the object. -/
theorem totSize_spec (hs : size < 2 ^ 32) (ht : ¬Arena.totSize size < size) :
    Arena.totSize size % 8 = 0 ∧ size + 4 ≤ Arena.totSize size ∧ add32 hmuSize size = size + 4 := by
  unfold Arena.totSize gcAlign8 add32 hmuSize at *
  omega

/-- `gc_alloc_vo` allocates an object of the abstract heap, or gives NULL and leaves the heap as it was. -/
theorem gcAllocVo_spec (hr : Repr h A) (size : UInt32) : (A.allocVo size.toNat = none ∧ gcAllocVo h size = some (0, h)) ∨
      ∃ o n h', A.allocVo size.toNat = some (o, A.take o n (max (Arena.totSize size.toNat) 16)) ∧
        FreeIn 0 A.chunks o n ∧ max (Arena.totSize size.toNat) 16 ≤ n ∧ size.toNat + 4 ≤ Arena.totSize size.toNat ∧
        gcAllocVo h size = some (h.baseAddr + o + 4, h') ∧ Repr h' (A.take o n (max (Arena.totSize size.toNat) 16)) ∧
        Within (FreeIn 0 A.chunks) (h.baseAddr + o) (h.baseAddr + (o + n) + 4) h h' := by
  unfold gcAllocVo Arena.allocVo Arena.alloc
  have htot : gcAlign8 (add32 hmuSize size.toNat) = Arena.totSize size.toNat := rfl
  simp only [htot]
  by_cases hlt : Arena.totSize size.toNat < size.toNat
  · rw [if_pos hlt, if_pos hlt]
    exact .inl ⟨rfl, rfl⟩
  obtain ⟨h8, hroom, hadd⟩ := totSize_spec size.toNat_lt hlt
  rw [if_neg hlt, if_neg hlt, hr.ok]
  simp only [Bool.false_eq_true, if_false]
  rcases allocHmu_spec hr h8 with ⟨hfind, hrun⟩ | ⟨o, n, h₁, hfind, hrun, hout⟩
  · rw [hfind, hrun]
    exact .inl ⟨rfl, rfl⟩
  rw [hfind, hrun]
  obtain ⟨hf, hk⟩ := hr.wf.holds.find (by omega) hfind
  have hne : h.baseAddr + o ≠ 0 := by
    have := hr.sane.base_align
    omega
  have hu := (Arena.usedIn_take hr.wf hf (max (Arena.totSize size.toNat) 16) o _).2 (.inr ⟨rfl, rfl⟩)
  have hwm := hout.within.trans (within_markVo h₁ (h.baseAddr + o) (by omega) (by omega))
  have hg : size.toNat + 4 ≤ Arena.granted n (max (Arena.totSize size.toNat) 16) := by
    unfold Arena.granted
    split <;> omega
  have hgn : Arena.granted n (max (Arena.totSize size.toNat) 16) ≤ n := by
    unfold Arena.granted
    split <;> omega
  have hbase := hwm.base
  refine Or.inr ⟨o, n, ?_⟩
  simp only [if_neg hne, hout.size_eq, hadd]
  split
  · -- the bytes of the chunk that were not asked for are cleared
    refine ⟨_, rfl, hf, hk, hroom, rfl, hout.repr.write hu fun x hx => ?_, hwm.trans ⟨rfl, rfl, rfl, rfl, ?_⟩⟩
    · refine Mem.fill_of_not ?_
      unfold hmuSize at *
      omega
    intro x _ _ hx
    refine Mem.fill_of_not ?_
    unfold hmuSize at *
    omega
  · exact ⟨_, rfl, hf, hk, hroom, rfl, hout.repr, hwm⟩

end Objects

end WamrMigrate.Ems
