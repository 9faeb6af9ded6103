import Mathlib.Data.List.Chain
import WamrMigrate.Lib.SizeTree
import WamrMigrate.Lib.Tiles
import WamrMigrate.Ems.Heap

/-!
# The abstract heap

The heap without bytes: a run of chunks, in use or free, and an index of the free ones by offset from the start of the pool. Small free chunks are
in the bin of their size, the others in a search tree. `Arena.WF` says that every free chunk is in the index exactly once, at the right place, and
nothing else is. `Arena.alloc` and `Arena.free` keep it, and keep two free chunks from being neighbours.
-/

namespace WamrMigrate.Ems

open SizeTree Tiles

/-- A chunk of the pool. `stamped` says of a free chunk that its size is repeated in its last bytes. -/
structure Chunk where
  size : Nat
  used : Bool
  stamped : Bool
  deriving DecidableEq, Repr

/-- The free chunks by offset: the small ones in bins, the others in a tree. -/
structure Index where
  bins : Nat → List Nat
  tree : SizeTree Nat

/-- The abstract heap. -/
structure Arena where
  chunks : List Chunk
  index : Index

/-- `cs`, laid out from `p` on, has a free chunk of `n` bytes at `o`. -/
def FreeIn (p : Nat) (cs : List Chunk) (o n : Nat) : Prop :=
  ∃ c, (o, c) ∈ located Chunk.size p cs ∧ c.used = false ∧ c.size = n

/-- `cs`, laid out from `p` on, has an object in a chunk of `n` bytes at `o`. -/
def UsedIn (p : Nat) (cs : List Chunk) (o n : Nat) : Prop :=
  ∃ c, (o, c) ∈ located Chunk.size p cs ∧ c.used = true ∧ c.size = n

/-! ## The index -/

namespace Index

/-- The index with one more chunk. -/
def insert (I : Index) (o n : Nat) : Index :=
  if hmuIsFcNormal n then { I with bins := Function.update I.bins (n / 8) (o :: I.bins (n / 8)) }
  else { I with tree := I.tree.insert o n }

/-- The index without a chunk. -/
def erase (I : Index) (o n : Nat) : Index :=
  if hmuIsFcNormal n then { I with bins := Function.update I.bins (n / 8) ((I.bins (n / 8)).erase o) }
  else { I with tree := I.tree.erase o }

/-- The first chunk of the first bin from `i` on that is not empty, with its size; `k` bins are left. -/
def firstBin (bins : Nat → List Nat) : Nat → Nat → Option (Nat × Nat)
  | 0, _ => none
  | k + 1, i =>
    match bins i with
    | o :: _ => some (o, i * 8)
    | [] => firstBin bins k (i + 1)

/-- The chunk to allocate `n` bytes from, with its size. -/
def find (I : Index) (n : Nat) : Option (Nat × Nat) :=
  if hmuIsFcNormal n then (firstBin I.bins (hmuNormalNodeCnt - n / 8) (n / 8)).or (I.tree.bestFit n none)
  else I.tree.bestFit n none

/-- The index has exactly the chunks `S` in it, each of them once and at the right place. -/
structure Holds (I : Index) (S : Nat → Nat → Prop) : Prop where
  bins_iff : ∀ i o, o ∈ I.bins i ↔ i < 31 ∧ S o (i * 8)
  tree_iff : ∀ o n, (o, n) ∈ I.tree.entries ↔ 248 ≤ n ∧ S o n
  bins_nodup : ∀ i, (I.bins i).Nodup
  tree_nodup : I.tree.items.Nodup
  tree_ordered : I.tree.Ordered

variable {I : Index} {S : Nat → Nat → Prop} {o n : Nat}

theorem hmuIsFcNormal_iff (n : Nat) : hmuIsFcNormal n ↔ n < 248 := Iff.rfl

theorem Holds.congr {S' : Nat → Nat → Prop} (h : I.Holds S) (hs : ∀ o n, S o n ↔ S' o n) : I.Holds S' :=
  ⟨fun i o => by rw [h.bins_iff, hs], fun o n => by rw [h.tree_iff, hs], h.bins_nodup, h.tree_nodup, h.tree_ordered⟩

theorem Holds.tree_item (h : I.Holds S) (ho : o ∈ I.tree.items) : ∃ n, 248 ≤ n ∧ S o n := by
  obtain ⟨n, hn⟩ := mem_items.1 ho
  exact ⟨n, (h.tree_iff o n).1 hn⟩

theorem Holds.erase (h : I.Holds S) (hS : S o n) (h8 : n % 8 = 0) (huniq : ∀ n', S o n' → n' = n) :
    (I.erase o n).Holds (fun o' n' => S o' n' ∧ o' ≠ o) := by
  unfold Index.erase
  split
  · rename_i hn
    rw [hmuIsFcNormal_iff] at hn
    refine ⟨fun i o' => ?_, fun o' n' => ?_, fun i => ?_, h.tree_nodup, h.tree_ordered⟩
    · by_cases hi : i = n / 8
      · subst hi
        simp only [Function.update_self]
        rw [(h.bins_nodup _).mem_erase_iff, h.bins_iff]
        tauto
      simp only [Function.update_of_ne hi]
      rw [h.bins_iff]
      refine and_congr_right fun _ => ⟨fun hs => ⟨hs, fun he => hi ?_⟩, fun hs => hs.1⟩
      rw [← huniq (i * 8) (he ▸ hs)]
      omega
    · rw [h.tree_iff]
      refine and_congr_right fun hn' => ⟨fun hs => ⟨hs, fun he => ?_⟩, fun hs => hs.1⟩
      have := huniq n' (he ▸ hs)
      omega
    by_cases hi : i = n / 8
    · subst hi
      simp only [Function.update_self]
      exact (h.bins_nodup _).erase _
    · simp only [Function.update_of_ne hi]
      exact h.bins_nodup i
  · rename_i hn
    rw [hmuIsFcNormal_iff] at hn
    have hmem : (o, n) ∈ I.tree.entries := (h.tree_iff o n).2 ⟨by omega, hS⟩
    have hperm := entries_erase h.tree_nodup hmem
    have hnd : ((o, n) :: (I.tree.erase o).entries).map (·.1) |>.Nodup := (hperm.map _).nodup_iff.1 h.tree_nodup
    simp only [List.map_cons, List.nodup_cons] at hnd
    refine ⟨fun i o' => ?_, fun o' n' => ?_, h.bins_nodup, hnd.2, ordered_erase h.tree_ordered⟩
    · rw [h.bins_iff]
      refine and_congr_right fun hi => ⟨fun hs => ⟨hs, fun he => ?_⟩, fun hs => hs.1⟩
      have := huniq (i * 8) (he ▸ hs)
      omega
    have h1 := hperm.mem_iff (a := (o', n'))
    simp only [List.mem_cons, Prod.mk.injEq] at h1
    rw [h.tree_iff] at h1
    constructor
    · intro hm
      have hs := h1.2 (.inr hm)
      exact ⟨hs.1, hs.2, fun he => hnd.1 (List.mem_map.2 ⟨(o', n'), hm, he⟩)⟩
    · rintro ⟨hn', hs, hne⟩
      exact (h1.1 ⟨hn', hs⟩).resolve_left fun he => hne he.1

/-- Taking out the only entry at an offset leaves the others. -/
theorem Holds.erase_only {T : Nat → Nat → Prop} (h : I.Holds T) (hT : ∀ o' n', T o' n' ↔ S o' n' ∨ (o' = o ∧ n = n')) (hS : ∀ n', ¬S o n')
    (h8 : n % 8 = 0) : (I.erase o n).Holds S := by
  refine (h.erase ((hT _ _).2 (.inr ⟨rfl, rfl⟩)) h8 fun n' hn' => ?_).congr fun o' n' => ?_
  · exact (((hT _ _).1 hn').resolve_left (hS n')).2.symm
  rw [hT]
  constructor
  · rintro ⟨h | h, hne⟩
    · exact h
    · exact absurd h.1 hne
  · intro h
    exact ⟨.inl h, fun ho => hS n' (ho ▸ h)⟩

theorem Holds.insert (h : I.Holds S) (h8 : n % 8 = 0) (hfresh : ∀ n', ¬S o n') : (I.insert o n).Holds (fun o' n' => S o' n' ∨ (o' = o ∧ n' = n)) := by
  have hbin : ∀ i, o ∉ I.bins i := fun i hm => hfresh _ ((h.bins_iff i o).1 hm).2
  unfold Index.insert
  split
  · rename_i hn
    rw [hmuIsFcNormal_iff] at hn
    refine ⟨fun i o' => ?_, fun o' n' => ?_, fun i => ?_, h.tree_nodup, h.tree_ordered⟩
    · by_cases hi : i = n / 8
      · subst hi
        simp only [Function.update_self, List.mem_cons, h.bins_iff]
        constructor
        · rintro (rfl | ⟨h1, h2⟩)
          · exact ⟨by omega, .inr ⟨rfl, by omega⟩⟩
          · exact ⟨h1, .inl h2⟩
        · rintro ⟨h1, h2 | ⟨rfl, -⟩⟩
          · exact .inr ⟨h1, h2⟩
          · exact .inl rfl
      · simp only [Function.update_of_ne hi, h.bins_iff]
        refine and_congr_right fun _ => ⟨.inl, fun hs => hs.resolve_right fun he => hi ?_⟩
        omega
    · rw [h.tree_iff]
      refine and_congr_right fun hn' => ⟨.inl, fun hs => hs.resolve_right fun he => ?_⟩
      omega
    · by_cases hi : i = n / 8
      · subst hi
        simp only [Function.update_self]
        exact List.nodup_cons.2 ⟨hbin _, h.bins_nodup _⟩
      · simp only [Function.update_of_ne hi]
        exact h.bins_nodup i
  · rename_i hn
    rw [hmuIsFcNormal_iff] at hn
    refine ⟨fun i o' => ?_, fun o' n' => ?_, h.bins_nodup, ?_, ordered_insert h.tree_ordered⟩
    · rw [h.bins_iff]
      refine and_congr_right fun hi => ⟨.inl, fun hs => hs.resolve_right fun he => ?_⟩
      omega
    · simp only [mem_entries_insert, Prod.mk.injEq, h.tree_iff]
      constructor
      · rintro (⟨rfl, rfl⟩ | ⟨h1, h2⟩)
        · exact ⟨by omega, .inr ⟨rfl, rfl⟩⟩
        · exact ⟨h1, .inl h2⟩
      · rintro ⟨h1, h2 | he⟩
        · exact .inr ⟨h1, h2⟩
        · exact .inl he
    have hperm := (entries_insert o n I.tree).map Prod.fst
    refine hperm.nodup_iff.2 (List.nodup_cons.2 ⟨fun hm => ?_, h.tree_nodup⟩)
    obtain ⟨n', -, hs⟩ := h.tree_item hm
    exact hfresh n' hs

theorem firstBin_eq_some {bins : Nat → List Nat} {k i : Nat} (h : firstBin bins k i = some (o, n)) :
    ∃ j, i ≤ j ∧ n = j * 8 ∧ ∃ os, bins j = o :: os := by
  induction k generalizing i with
  | zero => cases h
  | succ k ih =>
    rw [firstBin] at h
    split at h
    · rename_i o' os ho
      cases h
      exact ⟨i, Nat.le_refl i, rfl, os, ho⟩
    · obtain ⟨j, hj, hn⟩ := ih h
      exact ⟨j, by omega, hn⟩

/-- What `find` finds is a chunk of the index that is large enough. -/
theorem Holds.find {k : Nat} (h : I.Holds S) (h8 : k % 8 = 0) (hf : I.find k = some (o, n)) : S o n ∧ k ≤ n := by
  have htree : I.tree.bestFit k none = some (o, n) → S o n ∧ k ≤ n := by
    intro hb
    rcases bestFit_mem hb with hb | ⟨hm, hk⟩
    · cases hb
    · exact ⟨((h.tree_iff o n).1 hm).2, hk⟩
  unfold Index.find at hf
  split at hf
  · cases hb : firstBin I.bins (hmuNormalNodeCnt - k / 8) (k / 8) with
    | none =>
      rw [hb, Option.none_or] at hf
      exact htree hf
    | some e =>
      rw [hb] at hf
      cases hf
      obtain ⟨j, hj, rfl, os, hos⟩ := firstBin_eq_some hb
      have hm : o ∈ I.bins j := by rw [hos]; simp
      exact ⟨((h.bins_iff j o).1 hm).2, by omega⟩
  · exact htree hf

theorem firstBin_eq_none {bins : Nat → List Nat} {k i j : Nat} (h : firstBin bins k i = none) (hi : i ≤ j) (hj : j < i + k) : bins j = [] := by
  induction k generalizing i with
  | zero => omega
  | succ k ih =>
    rw [firstBin] at h
    split at h
    · cases h
    rename_i hnil
    rcases Nat.eq_or_lt_of_le hi with rfl | hlt
    · exact hnil
    · exact ih h hlt (by omega)

/-- When `find` finds nothing, no chunk of the index is large enough. -/
theorem Holds.find_eq_none {k : Nat} (h : I.Holds S) (hf : I.find k = none) (hS : S o n) (h8 : n % 8 = 0) : n < k := by
  have htree : I.tree.bestFit k none = none → 248 ≤ n → n < k := by
    intro hb hn
    exact (bestFit_eq_none h.tree_ordered hb).2 (o, n) ((h.tree_iff o n).2 ⟨hn, hS⟩)
  unfold Index.find at hf
  split at hf
  · rename_i hk
    rw [hmuIsFcNormal_iff] at hk
    obtain ⟨hbin, hbest⟩ := Option.or_eq_none_iff.1 hf
    by_cases hn : 248 ≤ n
    · exact htree hbest hn
    by_contra hkn
    have hm : o ∈ I.bins (n / 8) := by
      refine (h.bins_iff _ _).2 ⟨by omega, ?_⟩
      rwa [Nat.div_mul_cancel (Nat.dvd_of_mod_eq_zero h8)]
    have hnil : I.bins (n / 8) = [] := by
      refine firstBin_eq_none hbin (Nat.div_le_div_right (Nat.le_of_not_lt hkn)) ?_
      unfold hmuNormalNodeCnt
      omega
    rw [hnil] at hm
    cases hm
  · rename_i hk
    rw [hmuIsFcNormal_iff] at hk
    by_cases hn : 248 ≤ n
    · exact htree hf hn
    · omega

end Index

/-! ## Free chunks of a layout -/

section FreeIn
variable {p o n : Nat} {c : Chunk} {cs xs ys pre post : List Chunk} {u : Bool}

/-- A chunk in use or a free one: what both are in a layout. -/
def ChunkIn (u : Bool) (p : Nat) (cs : List Chunk) (o n : Nat) : Prop := ∃ c, (o, c) ∈ located Chunk.size p cs ∧ c.used = u ∧ c.size = n

theorem chunkIn_cons : ChunkIn u p (c :: cs) o n ↔ (o = p ∧ c.used = u ∧ c.size = n) ∨ ChunkIn u (p + c.size) cs o n := by
  simp only [ChunkIn, located, List.mem_cons, Prod.mk.injEq]
  constructor
  · rintro ⟨d, ⟨rfl, rfl⟩ | hd, hu, hs⟩
    · exact .inl ⟨rfl, hu, hs⟩
    · exact .inr ⟨d, hd, hu, hs⟩
  · rintro (⟨rfl, hu, hs⟩ | ⟨d, hd, hu, hs⟩)
    · exact ⟨c, .inl ⟨rfl, rfl⟩, hu, hs⟩
    · exact ⟨d, .inr hd, hu, hs⟩

theorem chunkIn_append : ChunkIn u p (xs ++ ys) o n ↔ ChunkIn u p xs o n ∨ ChunkIn u (p + total Chunk.size xs) ys o n := by
  simp only [ChunkIn, located_append, List.mem_append]
  constructor
  · rintro ⟨c, hc | hc, h⟩
    · exact .inl ⟨c, hc, h⟩
    · exact .inr ⟨c, hc, h⟩
  · rintro (⟨c, hc, h⟩ | ⟨c, hc, h⟩)
    · exact ⟨c, .inl hc, h⟩
    · exact ⟨c, .inr hc, h⟩

theorem ChunkIn.bounds (h : ChunkIn u p cs o n) : p ≤ o ∧ o + n ≤ p + total Chunk.size cs := by
  obtain ⟨c, hc, -, rfl⟩ := h
  exact located_bounds hc

theorem freeIn_nil : ¬FreeIn p [] o n := fun ⟨_, hc, _⟩ => nomatch hc

theorem freeIn_cons : FreeIn p (c :: cs) o n ↔ (o = p ∧ c.used = false ∧ c.size = n) ∨ FreeIn (p + c.size) cs o n := chunkIn_cons

theorem freeIn_append : FreeIn p (xs ++ ys) o n ↔ FreeIn p xs o n ∨ FreeIn (p + total Chunk.size xs) ys o n := chunkIn_append

theorem FreeIn.bounds (h : FreeIn p cs o n) : p ≤ o ∧ o + n ≤ p + total Chunk.size cs := ChunkIn.bounds h

/-- Every chunk of the pool is a multiple of 8 bytes and large enough for a node and a footer. -/
def Sized (cs : List Chunk) : Prop := ∀ c ∈ cs, c.size % 8 = 0 ∧ 16 ≤ c.size

theorem Sized.pos (h : Sized cs) : ∀ c ∈ cs, 0 < c.size := fun c hc => by
  have := h c hc
  omega

theorem sized_append : Sized (xs ++ ys) ↔ Sized xs ∧ Sized ys := List.forall_mem_append

theorem sized_cons : Sized (c :: cs) ↔ (c.size % 8 = 0 ∧ 16 ≤ c.size) ∧ Sized cs := List.forall_mem_cons

theorem ChunkIn.sized (h : ChunkIn u p cs o n) (hs : Sized cs) : n % 8 = 0 ∧ 16 ≤ n := by
  obtain ⟨c, hc, -, rfl⟩ := h
  exact hs c (mem_of_located hc)

theorem FreeIn.sized (h : FreeIn p cs o n) (hs : Sized cs) : n % 8 = 0 ∧ 16 ≤ n := ChunkIn.sized h hs

theorem FreeIn.unique {n' : Nat} (hs : Sized cs) (h : FreeIn p cs o n) (h' : FreeIn p cs o n') : n' = n := by
  obtain ⟨c, hc, -, rfl⟩ := h
  obtain ⟨c', hc', -, rfl⟩ := h'
  rw [located_unique hs.pos hc hc']

/-- The chunks but the one at the end of `pre` are those of `pre` and of `post`. -/
theorem chunkIn_remove (hs : Sized (pre ++ c :: post)) : (ChunkIn u p (pre ++ c :: post) o n ∧ o ≠ p + total Chunk.size pre) ↔
      ChunkIn u p pre o n ∨ ChunkIn u (p + total Chunk.size pre + c.size) post o n := by
  obtain ⟨hp, hcp⟩ := sized_append.1 hs
  obtain ⟨hc, -⟩ := sized_cons.1 hcp
  rw [chunkIn_append, chunkIn_cons]
  constructor
  · rintro ⟨h | ⟨rfl, -⟩ | h, hne⟩
    · exact .inl h
    · exact absurd rfl hne
    · exact .inr h
  rintro (h | h)
  · have h1 := h.bounds
    have h2 := h.sized hp
    exact ⟨.inl h, by omega⟩
  · have h1 := h.bounds
    exact ⟨.inr (.inr h), by omega⟩

theorem freeIn_remove (hs : Sized (pre ++ c :: post)) : (FreeIn p (pre ++ c :: post) o n ∧ o ≠ p + total Chunk.size pre) ↔
      FreeIn p pre o n ∨ FreeIn (p + total Chunk.size pre + c.size) post o n := chunkIn_remove hs

/-- No free chunk of `pre` or `post` is at the place between them. -/
theorem not_freeIn_between {k : Nat} (hs : Sized pre) (hk : 0 < k)
    (h : FreeIn p pre o n ∨ FreeIn (p + total Chunk.size pre + k) post o n) : o ≠ p + total Chunk.size pre := by
  rcases h with h | h
  · have h1 := h.bounds
    have h2 := h.sized hs
    omega
  · have h1 := h.bounds
    omega

theorem usedIn_nil : ¬UsedIn p [] o n := fun ⟨_, hc, _⟩ => nomatch hc

theorem usedIn_cons : UsedIn p (c :: cs) o n ↔ (o = p ∧ c.used = true ∧ c.size = n) ∨ UsedIn (p + c.size) cs o n := chunkIn_cons

theorem usedIn_append : UsedIn p (xs ++ ys) o n ↔ UsedIn p xs o n ∨ UsedIn (p + total Chunk.size xs) ys o n := chunkIn_append

theorem UsedIn.disjoint_free {o' n' : Nat} (hu : UsedIn p cs o n) (hf : FreeIn p cs o' n') : o + n ≤ o' ∨ o' + n' ≤ o := by
  obtain ⟨c, hc, hcu, rfl⟩ := hu
  obtain ⟨d, hd, hdu, rfl⟩ := hf
  refine (located_disjoint hc hd).resolve_left ?_
  rintro ⟨-, rfl⟩
  rw [hcu] at hdu
  cases hdu

theorem UsedIn.bounds (hu : UsedIn p cs o n) : p ≤ o ∧ o + n ≤ p + total Chunk.size cs := ChunkIn.bounds hu

theorem UsedIn.sized (hu : UsedIn p cs o n) (hs : Sized cs) : n % 8 = 0 ∧ 16 ≤ n := ChunkIn.sized hu hs

theorem UsedIn.exists_split (hu : UsedIn 0 cs o n) : ∃ pre c post, cs = pre ++ c :: post ∧ o = total Chunk.size pre ∧ c.used = true ∧ c.size = n := by
  obtain ⟨c, hc, hcu, hn⟩ := hu
  obtain ⟨pre, post, hcs, ho⟩ := mem_located_iff.1 hc
  exact ⟨pre, c, post, hcs, by omega, hcu, hn⟩

end FreeIn

/-! ## Operations -/

namespace Arena

/-- An arena whose index holds exactly its free chunks, and in which only a chunk alone in the pool may be without its size
in its last bytes. -/
structure WF (A : Arena) : Prop where
  sized : Sized A.chunks
  holds : A.index.Holds (FreeIn 0 A.chunks)
  stamped : ∀ c ∈ A.chunks, c.used = false → c.stamped = false → A.chunks = [c]

/-- No two free chunks are neighbours. -/
def Coalesced (A : Arena) : Prop := A.chunks.IsChain fun a b => a.used = true ∨ b.used = true

/-- Every free chunk has its size in its last bytes. -/
def AllStamped (A : Arena) : Prop := ∀ c ∈ A.chunks, c.used = false → c.stamped = true

/-- The bytes that are free. -/
def freeTotal (cs : List Chunk) : Nat := total (fun c => if c.used then 0 else c.size) cs

/-- The chunk at `o`, free and of `n` bytes, allocated to `size` bytes. -/
def take (A : Arena) (o n size : Nat) : Arena :=
  match splitAt Chunk.size A.chunks o with
  | none => A
  | some (pre, _, post) =>
    if size + 16 ≤ n then
      { chunks := pre ++ ⟨size, true, false⟩ :: ⟨n - size, false, true⟩ :: post
        index := (A.index.erase o n).insert (o + size) (n - size) }
    else { chunks := pre ++ ⟨n, true, false⟩ :: post, index := A.index.erase o n }

/-- Allocate a chunk of `size` bytes: its offset and what is left. -/
def alloc (A : Arena) (size : Nat) : Option (Nat × Arena) :=
  (A.index.find (max size 16)).map fun e => (e.1, A.take e.1 e.2 (max size 16))

/-- The bytes of a chunk for an object of `size` bytes. -/
def totSize (size : Nat) : Nat := gcAlign8 (add32 hmuSize size)

/-- Allocate an object of `size` bytes, or nothing when its chunk would be too large to count: the offset of the chunk and what
is left. -/
def allocVo (A : Arena) (size : Nat) : Option (Nat × Arena) := if totSize size < size then none else A.alloc (totSize size)

/-- What is in front of a chunk of `n` bytes at `o` that becomes free: the chunks in front, the start and the size of the free
chunk, and the index without the chunk taken in. -/
def mergeBefore (pre : List Chunk) (o n : Nat) (I : Index) : List Chunk × Nat × Nat × Index :=
  match pre.getLast? with
  | none => (pre, o, n, I)
  | some d => if d.used then (pre, o, n, I) else (pre.dropLast, o - d.size, n + d.size, I.erase (o - d.size) d.size)

/-- What is behind it. -/
def mergeAfter (post : List Chunk) (o n : Nat) (I : Index) : List Chunk × Nat × Index :=
  match post with
  | [] => ([], n, I)
  | d :: post => if d.used then (d :: post, n, I) else (post, n + d.size, I.erase (o + n) d.size)

/-- The chunk at `o` made free and joined with its free neighbours. -/
def free (A : Arena) (o : Nat) : Option Arena :=
  match splitAt Chunk.size A.chunks o with
  | none => none
  | some (pre, c, post) =>
    let (pre', o₁, n₁, I₁) := mergeBefore pre o c.size A.index
    let (post', n₂, I₂) := mergeAfter post o₁ n₁ I₁
    some { chunks := pre' ++ ⟨n₂, false, true⟩ :: post', index := I₂.insert o₁ n₂ }

variable {A A' : Arena} {pre post : List Chunk} {c : Chunk} {o n size : Nat}

@[simp] theorem freeTotal_append (xs ys : List Chunk) : freeTotal (xs ++ ys) = freeTotal xs + freeTotal ys :=
  total_append xs ys

@[simp] theorem freeTotal_nil : freeTotal [] = 0 := rfl

@[simp] theorem freeTotal_cons (c : Chunk) (cs : List Chunk) : freeTotal (c :: cs) = (if c.used then 0 else c.size) + freeTotal cs := rfl

theorem freeTotal_le (cs : List Chunk) : freeTotal cs ≤ total Chunk.size cs := by
  induction cs with
  | nil => exact Nat.le_refl 0
  | cons c cs ih =>
    rw [freeTotal_cons, total_cons]
    split <;> omega

theorem exists_split (h : FreeIn 0 A.chunks o n) :
    ∃ pre c post, A.chunks = pre ++ c :: post ∧ o = total Chunk.size pre ∧ c.used = false ∧ c.size = n := by
  obtain ⟨c, hc, hu, hn⟩ := h
  obtain ⟨pre, post, hcs, ho⟩ := mem_located_iff.1 hc
  exact ⟨pre, c, post, hcs, by omega, hu, hn⟩

/-- The chunks that stand for a chunk of `n` bytes of which `size` are allocated. -/
def pieces (n size : Nat) : List Chunk :=
  if size + 16 ≤ n then [⟨size, true, false⟩, ⟨n - size, false, true⟩] else [⟨n, true, false⟩]

theorem total_pieces (n size : Nat) : total Chunk.size (pieces n size) = n := by
  unfold pieces
  split
  · simp only [total_cons, total_nil]
    omega
  · simp

section
variable (hA : A.chunks = pre ++ c :: post) (hs : Sized A.chunks) (ho : o = total Chunk.size pre)
include hA hs ho

theorem splitAt_chunks : splitAt Chunk.size A.chunks o = some (pre, c, post) := by
  rw [hA] at hs
  rw [hA, ho]
  exact splitAt_append (sized_append.1 hs).1.pos

theorem take_chunks : (A.take o n size).chunks = pre ++ (pieces n size ++ post) := by
  simp only [take, splitAt_chunks hA hs ho, pieces]
  split
  · rfl
  · rfl

theorem take_index : (A.take o n size).index = if size + 16 ≤ n then (A.index.erase o n).insert (o + size) (n - size) else A.index.erase o n := by
  simp only [take, splitAt_chunks hA hs ho]
  split
  · rfl
  · rfl

end

/-- Taking a free chunk out of the index leaves the free chunks before and after it. -/
theorem holds_erase (hw : A.WF) (hA : A.chunks = pre ++ c :: post) (ho : o = total Chunk.size pre) (hu : c.used = false) (hn : c.size = n) :
    (A.index.erase o n).Holds (fun o' n' => FreeIn 0 pre o' n' ∨ FreeIn (o + n) post o' n') := by
  have hfree : FreeIn 0 A.chunks o n := ⟨c, mem_located_iff.2 ⟨pre, post, hA, by omega⟩, hu, hn⟩
  refine (hw.holds.erase hfree (hfree.sized hw.sized).1 fun n' hn' => hfree.unique hw.sized hn').congr fun o' n' => ?_
  have h := freeIn_remove (p := 0) (o := o') (n := n') (hA ▸ hw.sized)
  rw [← hA] at h
  simp only [Nat.zero_add] at h
  rw [ho, h, hn]

theorem take_wf (hw : A.WF) (hf : FreeIn 0 A.chunks o n) (h8 : size % 8 = 0) (h16 : 16 ≤ size) :
    (A.take o n size).WF ∧ (A.take o n size).AllStamped := by
  obtain ⟨pre, c, post, hA, ho, hu, hn⟩ := exists_split hf
  obtain ⟨hn8, hn16⟩ := hf.sized hw.sized
  have hchunks : (A.take o n size).chunks = _ := take_chunks hA hw.sized ho
  have hindex : (A.take o n size).index = _ := take_index hA hw.sized ho
  have hH := holds_erase hw hA ho hu hn
  have hs := hw.sized
  rw [hA, sized_append, sized_cons] at hs
  have hpieces : Sized (pieces n size) := by
    intro d hd
    unfold pieces at hd
    split at hd
    · simp only [List.mem_cons, List.not_mem_nil, or_false] at hd
      rcases hd with rfl | rfl <;> simp only <;> omega
    · simp only [List.mem_cons, List.not_mem_nil, or_false] at hd
      subst hd
      exact ⟨hn8, hn16⟩
  -- a chunk without a footer would be alone in the pool, but the chunk taken is another one
  have hst : (A.take o n size).AllStamped := by
    intro d hd hdu
    rw [hchunks, List.mem_append, List.mem_append] at hd
    have old : d ∈ pre ∨ d ∈ post → d.stamped = true := by
      intro hd
      by_contra hds
      have hsole := hw.stamped d (by rw [hA]; rcases hd with hd | hd <;> simp [hd]) hdu (by simpa using hds)
      rw [hA] at hsole
      have hlen := congrArg List.length hsole
      simp only [List.length_append, List.length_cons, List.length_nil] at hlen
      have h1 : pre = [] := List.length_eq_zero_iff.1 (by omega)
      have h2 : post = [] := List.length_eq_zero_iff.1 (by omega)
      simp [h1, h2] at hd
    rcases hd with hd | hd | hd
    · exact old (.inl hd)
    · unfold pieces at hd
      split at hd
      · simp only [List.mem_cons, List.not_mem_nil, or_false] at hd
        rcases hd with rfl | rfl
        · cases hdu
        · rfl
      · simp only [List.mem_cons, List.not_mem_nil, or_false] at hd
        subst hd
        cases hdu
    · exact old (.inr hd)
  refine ⟨⟨?_, ?_, fun d hd hdu hds => ?_⟩, hst⟩
  · rw [hchunks, sized_append, sized_append]
    exact ⟨hs.1, hpieces, hs.2.2⟩
  · rw [hindex, hchunks]
    unfold pieces
    split
    · rename_i hsplit
      have hbetween : ∀ n', ¬(FreeIn 0 pre (o + size) n' ∨ FreeIn (o + n) post (o + size) n') := by
        rintro n' (h | h)
        · have := h.bounds
          have := h.sized hs.1
          omega
        · have := h.bounds
          omega
      refine (hH.insert (by omega) hbetween).congr fun o' n' => ?_
      simp only [freeIn_append, freeIn_cons, List.cons_append, List.nil_append, Nat.zero_add, ← ho]
      rw [show o + size + (n - size) = o + n by omega]
      simp only [Bool.true_eq_false, false_and, and_false, false_or, true_and]
      rw [or_right_comm, or_assoc, eq_comm (a := n')]
    · refine hH.congr fun o' n' => ?_
      simp [freeIn_append, freeIn_cons, ← ho]
  · rw [hst d hd hdu] at hds
    cases hds

/-! ### Freeing -/

/-- The chunk before is in use or there is none, or it is free and taken in. -/
theorem mergeBefore_cases (pre : List Chunk) (o n : Nat) (I : Index) :
    ((∀ d ∈ pre.getLast?, d.used = true) ∧ mergeBefore pre o n I = (pre, o, n, I)) ∨ ∃ pre' d, pre = pre' ++ [d] ∧ d.used = false ∧
        mergeBefore pre o n I = (pre', o - d.size, n + d.size, I.erase (o - d.size) d.size) := by
  rcases List.eq_nil_or_concat pre with rfl | ⟨pre', d, rfl⟩
  · exact .inl ⟨by simp, rfl⟩
  rw [List.concat_eq_append]
  cases hd : d.used with
  | true => exact .inl ⟨by simp [hd], by simp [mergeBefore, hd]⟩
  | false => exact .inr ⟨pre', d, rfl, hd, by simp [mergeBefore, hd]⟩

/-- The chunk after is in use or there is none, or it is free and taken in. -/
theorem mergeAfter_cases (post : List Chunk) (o n : Nat) (I : Index) : ((∀ d ∈ post.head?, d.used = true) ∧ mergeAfter post o n I = (post, n, I)) ∨
      ∃ d post', post = d :: post' ∧ d.used = false ∧ mergeAfter post o n I = (post', n + d.size, I.erase (o + n) d.size) := by
  cases post with
  | nil => exact .inl ⟨by simp, rfl⟩
  | cons d post' =>
    cases hd : d.used with
    | true => exact .inl ⟨by simp [hd], by simp [mergeAfter, hd]⟩
    | false => exact .inr ⟨d, post', rfl, hd, by simp [mergeAfter, hd]⟩

theorem holds_mergeBefore {I : Index} (hH : I.Holds fun o' n' => FreeIn 0 pre o' n' ∨ FreeIn (o + n) post o' n')
    (hs : Sized pre) (ho : o = total Chunk.size pre) :
    let r := mergeBefore pre o n I
    r.2.2.2.Holds (fun o' n' => FreeIn 0 r.1 o' n' ∨ FreeIn (o + n) post o' n') ∧ Sized r.1 ∧
      r.2.1 = total Chunk.size r.1 ∧ r.2.1 + r.2.2.1 = o + n ∧ n ≤ r.2.2.1 ∧ r.2.2.1 % 8 = n % 8 := by
  rcases mergeBefore_cases pre o n I with ⟨-, he⟩ | ⟨pre', d, rfl, hd, he⟩
  · simp only [he]
    exact ⟨hH, hs, ho, trivial, Nat.le_refl _, trivial⟩
  simp only [he]
  obtain ⟨hs', hsd⟩ := sized_append.1 hs
  have hdsz := hsd d (by simp)
  simp only [total_append, total_cons, total_nil, Nat.add_zero] at ho
  have hod : o - d.size = total Chunk.size pre' := by omega
  rw [hod]
  refine ⟨?_, hs', rfl, by omega, by omega, by omega⟩
  refine hH.erase_only (fun o' n' => ?_) ?_ hdsz.1
  · simp [freeIn_append, freeIn_cons, freeIn_nil, hd, or_right_comm]
  rintro n' (h | h)
  · have h1 := h.bounds
    have h2 := h.sized hs'
    omega
  · have := h.bounds
    omega

theorem holds_mergeAfter {I : Index} (hH : I.Holds fun o' n' => FreeIn 0 pre o' n' ∨ FreeIn (o + n) post o' n')
    (hs : Sized pre) (hs' : Sized post) (ho : o = total Chunk.size pre) (hn : 0 < n) :
    let r := mergeAfter post o n I
    r.2.2.Holds (fun o' n' => FreeIn 0 pre o' n' ∨ FreeIn (o + r.2.1) r.1 o' n') ∧ Sized r.1 ∧
      r.2.1 + total Chunk.size r.1 = n + total Chunk.size post ∧ n ≤ r.2.1 ∧ r.2.1 % 8 = n % 8 := by
  rcases mergeAfter_cases post o n I with ⟨-, he⟩ | ⟨d, post', rfl, hd, he⟩
  · simp only [he]
    exact ⟨hH, hs', trivial, Nat.le_refl _, trivial⟩
  simp only [he]
  obtain ⟨hdsz, hs''⟩ := sized_cons.1 hs'
  refine ⟨?_, hs'', by simp only [total_cons]; omega, by omega, by omega⟩
  refine hH.erase_only (fun o' n' => ?_) ?_ hdsz.1
  · simp [freeIn_cons, hd, or_comm, or_assoc, Nat.add_assoc]
  rintro n' (h | h)
  · have h1 := h.bounds
    have h2 := h.sized hs
    omega
  · have := h.bounds
    omega

theorem holds_around (hw : A.WF) (hA : A.chunks = pre ++ c :: post) (ho : o = total Chunk.size pre) (hu : c.used = true) :
    A.index.Holds fun o' n' => FreeIn 0 pre o' n' ∨ FreeIn (o + c.size) post o' n' := by
  refine hw.holds.congr fun o' n' => ?_
  simp [hA, freeIn_append, freeIn_cons, hu, ← ho]

/-- A chunk in use is not alone without a footer, so every free chunk has one. -/
theorem allStamped_of_used (hw : A.WF) (hA : A.chunks = pre ++ c :: post) (hu : c.used = true) : A.AllStamped := by
  intro d hd hdu
  by_contra hds
  have hsole := hw.stamped d hd hdu (by simpa using hds)
  have hc : c ∈ A.chunks := by rw [hA]; simp
  rw [hsole, List.mem_singleton] at hc
  rw [hc, hdu] at hu
  cases hu

/-- What freeing the chunk between `pre` and `post` leaves. -/
def freed (pre post : List Chunk) (o n : Nat) (I : Index) : Arena :=
  let b := mergeBefore pre o n I
  let a := mergeAfter post b.2.1 b.2.2.1 b.2.2.2
  { chunks := b.1 ++ ⟨a.2.1, false, true⟩ :: a.1, index := a.2.2.insert b.2.1 a.2.1 }

theorem free_eq (hA : A.chunks = pre ++ c :: post) (hs : Sized A.chunks) (ho : o = total Chunk.size pre) :
    A.free o = some (freed pre post o c.size A.index) := by
  simp only [free, splitAt_chunks hA hs ho]
  rfl

theorem mergeBefore_subset (pre : List Chunk) (o n : Nat) (I : Index) : ∀ d ∈ (mergeBefore pre o n I).1, d ∈ pre := by
  intro d hd
  rcases mergeBefore_cases pre o n I with ⟨-, he⟩ | ⟨pre', d', rfl, -, he⟩
  · rwa [he] at hd
  · rw [he] at hd
    exact List.mem_append_left _ hd

theorem mergeAfter_subset (post : List Chunk) (o n : Nat) (I : Index) : ∀ d ∈ (mergeAfter post o n I).1, d ∈ post := by
  intro d hd
  rcases mergeAfter_cases post o n I with ⟨-, he⟩ | ⟨d', post', rfl, -, he⟩
  · rwa [he] at hd
  · rw [he] at hd
    exact List.mem_cons_of_mem _ hd

theorem freed_wf (hw : A.WF) (hA : A.chunks = pre ++ c :: post) (ho : o = total Chunk.size pre) (hu : c.used = true) :
    (freed pre post o c.size A.index).WF ∧ (freed pre post o c.size A.index).AllStamped ∧
      total Chunk.size (freed pre post o c.size A.index).chunks = total Chunk.size A.chunks := by
  have hst := allStamped_of_used hw hA hu
  have hs := hw.sized
  rw [hA, sized_append, sized_cons] at hs
  obtain ⟨hB, hBs, hBo, hBn, hBle, hB8⟩ := holds_mergeBefore (holds_around hw hA ho hu) hs.1 ho
  rw [← hBn] at hB
  obtain ⟨hC, hCs, hCn, hCle, hC8⟩ := holds_mergeAfter hB hBs hs.2.2 hBo (by omega)
  have hstamped : (freed pre post o c.size A.index).AllStamped := by
    intro d hd hdu
    simp only [freed, List.mem_append, List.mem_cons] at hd
    rcases hd with hd | rfl | hd
    · exact hst d (by rw [hA]; simp [mergeBefore_subset _ _ _ _ d hd]) hdu
    · rfl
    · exact hst d (by rw [hA]; simp [mergeAfter_subset _ _ _ _ d hd]) hdu
  refine ⟨⟨?_, ?_, fun d hd hdu hds => ?_⟩, hstamped, ?_⟩
  · exact sized_append.2 ⟨hBs, sized_cons.2 ⟨⟨by simp only; omega, by simp only; omega⟩, hCs⟩⟩
  · refine (hC.insert (by omega) fun n' hn' => ?_).congr fun o' n' => ?_
    · exact not_freeIn_between (p := 0) hBs (Nat.lt_of_lt_of_le (by omega) hCle) (by simpa [← hBo] using hn')
        (by simpa using hBo)
    simp only [freed, freeIn_append, freeIn_cons, Nat.zero_add, ← hBo, true_and]
    rw [or_right_comm, or_assoc, eq_comm (a := n')]
  · rw [hstamped d hd hdu] at hds
    cases hds
  · rw [hA]
    simp only [freed, total_append, total_cons]
    omega

/-! ### What both operations keep -/

/-- The bytes that a chunk of `n` bytes gives to a request of `size` bytes. -/
def granted (n size : Nat) : Nat := if size + 16 ≤ n then size else n

theorem freeTotal_pieces (n size : Nat) : freeTotal (pieces n size) + granted n size = n := by
  unfold pieces granted
  split
  · simp [freeTotal]
    omega
  · simp [freeTotal]

section
variable (hA : A.chunks = pre ++ c :: post)
include hA

theorem freeTotal_take (hs : Sized A.chunks) (ho : o = total Chunk.size pre) (hu : c.used = false) (hn : c.size = n) :
    freeTotal (A.take o n size).chunks + granted n size = freeTotal A.chunks := by
  have h1 := freeTotal_pieces n size
  rw [take_chunks hA hs ho, hA]
  simp only [freeTotal_append, freeTotal_cons, hu, hn]
  simp only [Bool.false_eq_true, if_false]
  omega

theorem total_take (hs : Sized A.chunks) (ho : o = total Chunk.size pre)
    (hn : c.size = n) : total Chunk.size (A.take o n size).chunks = total Chunk.size A.chunks := by
  have h1 := total_pieces n size
  rw [take_chunks hA hs ho, hA]
  simp only [total_append, total_cons, hn]
  omega

theorem freeTotal_freed (hu : c.used = true) (I : Index) : freeTotal (freed pre post o c.size I).chunks = freeTotal A.chunks + c.size := by
  rw [hA]
  unfold freed
  rcases mergeBefore_cases pre o c.size I with ⟨-, hb⟩ | ⟨pre', d, rfl, hd, hb⟩
  · rw [hb]
    rcases mergeAfter_cases post o c.size I with ⟨-, ha⟩ | ⟨e, post', rfl, he, ha⟩
    · simp [ha, hu]
      omega
    · simp [ha, hu, he]
      omega
  rw [hb]
  rcases mergeAfter_cases post (o - d.size) (c.size + d.size) (I.erase (o - d.size) d.size) with
    ⟨-, ha⟩ | ⟨e, post', rfl, he, ha⟩
  · simp [ha, hu, hd, freeTotal]
    omega
  · simp [ha, hu, hd, he, freeTotal]
    omega

theorem coalesced_take (hs : Sized A.chunks) (ho : o = total Chunk.size pre)
    (hu : c.used = false) (hc : A.Coalesced) : (A.take o n size).Coalesced := by
  unfold Coalesced at hc ⊢
  rw [hA, List.isChain_append, List.isChain_cons] at hc
  obtain ⟨hpre, ⟨hcp, hpost⟩, -⟩ := hc
  -- the chunk taken was free, so the one after it is in use
  have hnext : ∀ y ∈ post.head?, y.used = true := fun y hy => (hcp y hy).resolve_left (by simp [hu])
  rw [take_chunks hA hs ho, List.isChain_append, List.isChain_append]
  unfold pieces
  split
  all_goals
    refine ⟨hpre, ⟨by simp, hpost, fun x _ y hy => .inr (hnext y hy)⟩, fun x _ y hy => ?_⟩
    simp only [List.cons_append, List.head?_cons, Option.mem_def, Option.some.injEq] at hy
    subst hy
    exact .inr rfl

end

/-- After the chunk before has been taken in, the one before it is in use. -/
theorem coalesced_mergeBefore (h : pre.IsChain fun a b => a.used = true ∨ b.used = true) (o n : Nat) (I : Index) :
    ((mergeBefore pre o n I).1.IsChain fun a b => a.used = true ∨ b.used = true) ∧ ∀ d ∈ (mergeBefore pre o n I).1.getLast?, d.used = true := by
  rcases mergeBefore_cases pre o n I with ⟨hl, he⟩ | ⟨pre', d, rfl, hd, he⟩
  · rw [he]
    exact ⟨h, hl⟩
  · rw [he]
    obtain ⟨h1, -, h2⟩ := List.isChain_append.1 h
    exact ⟨h1, fun x hx => (h2 x hx d (by simp)).resolve_right (by simp [hd])⟩

/-- After the chunk after has been taken in, the one after it is in use. -/
theorem coalesced_mergeAfter (h : post.IsChain fun a b => a.used = true ∨ b.used = true) (o n : Nat) (I : Index) :
    ((mergeAfter post o n I).1.IsChain fun a b => a.used = true ∨ b.used = true) ∧ ∀ d ∈ (mergeAfter post o n I).1.head?, d.used = true := by
  rcases mergeAfter_cases post o n I with ⟨hl, he⟩ | ⟨d, post', rfl, hd, he⟩
  · rw [he]
    exact ⟨h, hl⟩
  · rw [he]
    obtain ⟨h1, h2⟩ := List.isChain_cons.1 h
    exact ⟨h2, fun x hx => (h1 x hx).resolve_left (by simp [hd])⟩

theorem coalesced_freed (hA : A.chunks = pre ++ c :: post) (hc : A.Coalesced) (o n : Nat) (I : Index) : (freed pre post o n I).Coalesced := by
  unfold Coalesced at hc ⊢
  rw [hA, List.isChain_append, List.isChain_cons] at hc
  obtain ⟨hpre, ⟨-, hpost⟩, -⟩ := hc
  obtain ⟨hb, hbl⟩ := coalesced_mergeBefore hpre o n I
  obtain ⟨ha, hah⟩ := coalesced_mergeAfter hpost (mergeBefore pre o n I).2.1 (mergeBefore pre o n I).2.2.1
    (mergeBefore pre o n I).2.2.2
  unfold freed
  rw [List.isChain_append, List.isChain_cons]
  exact ⟨hb, ⟨fun y hy => Or.inr (hah y hy), ha⟩, fun x hx y _ => Or.inl (hbl x hx)⟩

/-! ### Objects -/

theorem usedIn_take (hw : A.WF) (hf : FreeIn 0 A.chunks o n) (k o' n' : Nat) :
    UsedIn 0 (A.take o n k).chunks o' n' ↔ UsedIn 0 A.chunks o' n' ∨ (o' = o ∧ n' = granted n k) := by
  obtain ⟨pre, c, post, hA, ho, hu, hn⟩ := exists_split hf
  have hpieces : UsedIn o (pieces n k) o' n' ↔ o' = o ∧ n' = granted n k := by
    unfold pieces granted
    split
    · simp [usedIn_cons, usedIn_nil, @eq_comm _ n']
    · simp [usedIn_cons, usedIn_nil, @eq_comm _ n']
  rw [take_chunks hA hw.sized ho, hA, usedIn_append, usedIn_append, usedIn_append, usedIn_cons, Nat.zero_add, ← ho, hpieces,
    total_pieces, hu, hn]
  simp only [Bool.false_eq_true, false_and, and_false, false_or]
  tauto

/-- The object of the chunk between `pre` and `post` is the only one there. -/
theorem usedIn_remove (hs : Sized (pre ++ c :: post)) (o' n' : Nat) : (UsedIn 0 (pre ++ c :: post) o' n' ∧ o' ≠ total Chunk.size pre) ↔
      UsedIn 0 pre o' n' ∨ UsedIn (total Chunk.size pre + c.size) post o' n' := by
  have h := @chunkIn_remove 0 o' n' c pre post true hs
  rwa [Nat.zero_add] at h

theorem usedIn_mergeBefore (pre : List Chunk) (o n : Nat) (I : Index) (o' n' : Nat) :
    UsedIn 0 (mergeBefore pre o n I).1 o' n' ↔ UsedIn 0 pre o' n' := by
  rcases mergeBefore_cases pre o n I with ⟨-, he⟩ | ⟨pre', d, rfl, hd, he⟩
  · rw [he]
  · rw [he, usedIn_append, usedIn_cons, hd]
    simp [usedIn_nil]

theorem usedIn_mergeAfter (post : List Chunk) (o n : Nat) (I : Index) (o' n' : Nat) :
    UsedIn (o + (mergeAfter post o n I).2.1) (mergeAfter post o n I).1 o' n' ↔ UsedIn (o + n) post o' n' := by
  rcases mergeAfter_cases post o n I with ⟨-, he⟩ | ⟨d, post', rfl, hd, he⟩
  · rw [he]
  · rw [he, usedIn_cons, hd, Nat.add_assoc]
    simp

theorem usedIn_freed (hw : A.WF) (hA : A.chunks = pre ++ c :: post) (ho : o = total Chunk.size pre) (hu : c.used = true) (o' n' : Nat) :
    UsedIn 0 (freed pre post o c.size A.index).chunks o' n' ↔ UsedIn 0 A.chunks o' n' ∧ o' ≠ o := by
  have hs := hw.sized
  rw [hA, sized_append] at hs
  obtain ⟨-, -, hstart, hsum, -, -⟩ := holds_mergeBefore (holds_around hw hA ho hu) hs.1 ho
  have h1 := usedIn_mergeBefore pre o c.size A.index o' n'
  have h2 := usedIn_mergeAfter post (mergeBefore pre o c.size A.index).2.1 (mergeBefore pre o c.size A.index).2.2.1
    (mergeBefore pre o c.size A.index).2.2.2 o' n'
  rw [hsum] at h2
  have h3 := usedIn_remove (hA ▸ hw.sized) o' n'
  rw [hA, ho, h3, ← ho, ← h1, ← h2]
  simp only [freed]
  rw [usedIn_append, usedIn_cons, Nat.zero_add, ← hstart]
  simp

/-! ### Memory that stays free -/

/-- The `n` bytes at `o` lie in one free chunk. -/
def Covers (A : Arena) (o n : Nat) : Prop := ∃ c m, FreeIn 0 A.chunks c m ∧ c ≤ o ∧ o + n ≤ c + m

theorem Covers.part {o' n' : Nat} (h : A.Covers o n) (ho : o ≤ o') (hn : o' + n' ≤ o + n) : A.Covers o' n' := by
  obtain ⟨c, m, hf, h1, h2⟩ := h
  exact ⟨c, m, hf, by omega, by omega⟩

/-- Taking a chunk leaves the other free chunks and the rest of it. -/
theorem freeIn_take (hw : A.WF) (hf : FreeIn 0 A.chunks o n) (k o' n' : Nat) : FreeIn 0 (A.take o n k).chunks o' n' ↔
      (FreeIn 0 A.chunks o' n' ∧ o' ≠ o) ∨ (k + 16 ≤ n ∧ o' = o + k ∧ n' = n - k) := by
  obtain ⟨pre, c, post, hA, ho, hu, hn⟩ := exists_split hf
  have hpieces : FreeIn o (pieces n k) o' n' ↔ k + 16 ≤ n ∧ o' = o + k ∧ n' = n - k := by
    unfold pieces
    split
    · rename_i hk
      simp [freeIn_cons, freeIn_nil, hk, @eq_comm _ n']
    · rename_i hk
      simp [freeIn_cons, freeIn_nil, hk]
  have hrem : (FreeIn 0 A.chunks o' n' ∧ o' ≠ o) ↔ FreeIn 0 pre o' n' ∨ FreeIn (o + n) post o' n' := by
    have hs := hw.sized
    rw [hA] at hs
    have h1 : (FreeIn 0 (pre ++ c :: post) o' n' ∧ o' ≠ 0 + total Chunk.size pre) ↔ _ := freeIn_remove hs
    rwa [Nat.zero_add, ← ho, hn, ← hA] at h1
  rw [hrem, take_chunks hA hw.sized ho, freeIn_append, freeIn_append, Nat.zero_add, ← ho, hpieces, total_pieces]
  tauto

/-- Free memory that an allocation does not hand out stays in one free chunk. -/
theorem Covers.take {k o' n' : Nat} (hw : A.WF) (hf : FreeIn 0 A.chunks o n) (h : A.Covers o' n') (hn' : 0 < n')
    (hd : o' + n' ≤ o ∨ o + granted n k ≤ o') : (A.take o n k).Covers o' n' := by
  obtain ⟨c, m, hc, h1, h2⟩ := h
  by_cases hco : c = o
  · subst hco
    obtain rfl := hf.unique hw.sized hc
    unfold granted at hd
    split at hd
    · rename_i hk
      exact ⟨c + k, m - k, (freeIn_take hw hf k _ _).2 (.inr ⟨hk, rfl, rfl⟩), by omega, by omega⟩
    · omega
  · exact ⟨c, m, (freeIn_take hw hf k c m).2 (.inl ⟨hc, hco⟩), h1, h2⟩

/-- The free chunks around an object, and the object itself, lie in free chunks once it is freed. -/
theorem covers_freed (hw : A.WF) (hA : A.chunks = pre ++ c :: post) (ho : o = total Chunk.size pre) (hu : c.used = true) :
    (freed pre post o c.size A.index).Covers o c.size ∧ ∀ o' n', A.Covers o' n' → (freed pre post o c.size A.index).Covers o' n' := by
  have hs := hw.sized
  rw [hA, sized_append, sized_cons] at hs
  obtain ⟨-, -, hstart, hsum, hle, -⟩ := holds_mergeBefore (holds_around hw hA ho hu) hs.1 ho
  generalize hb : mergeBefore pre o c.size A.index = b at hstart hsum hle
  have hnew : FreeIn 0 (freed pre post o c.size A.index).chunks b.2.1 (mergeAfter post b.2.1 b.2.2.1 b.2.2.2).2.1 := by
    simp only [freed, hb]
    rw [freeIn_append, freeIn_cons, Nat.zero_add, ← hstart]
    exact .inr (.inl ⟨rfl, rfl, rfl⟩)
  have hafter : b.2.2.1 ≤ (mergeAfter post b.2.1 b.2.2.1 b.2.2.2).2.1 := by
    rcases mergeAfter_cases post b.2.1 b.2.2.1 b.2.2.2 with ⟨-, he⟩ | ⟨d, post', -, -, he⟩
    · rw [he]
    · rw [he]
      exact Nat.le_add_right _ _
  refine ⟨⟨_, _, hnew, by omega, by omega⟩, ?_⟩
  rintro o' n' ⟨q, m, hf, h1, h2⟩
  refine Covers.part ?_ h1 h2
  rw [hA, freeIn_append, freeIn_cons, hu, Nat.zero_add, ← ho] at hf
  rcases hf with hf | ⟨-, hf, -⟩ | hf
  · -- a chunk before the object: kept, or the one taken in
    rcases mergeBefore_cases pre o c.size A.index with ⟨-, he⟩ | ⟨pre', d, hpre, hd, he⟩ <;> rw [hb] at he
    · refine ⟨q, m, ?_, Nat.le_refl q, Nat.le_refl _⟩
      simp only [freed, hb, he]
      exact freeIn_append.2 (.inl hf)
    rw [hpre, freeIn_append, freeIn_cons, Nat.zero_add] at hf
    rcases hf with hf | ⟨rfl, -, rfl⟩ | hf
    · refine ⟨q, m, ?_, Nat.le_refl q, Nat.le_refl _⟩
      simp only [freed, hb, he]
      exact freeIn_append.2 (.inl hf)
    · refine ⟨_, _, hnew, ?_, ?_⟩
      · rw [hstart, he]
      · rw [he] at hsum hafter hstart ⊢
        simp only at hsum hafter hstart ⊢
        omega
    · exact absurd hf freeIn_nil
  · cases hf
  · -- a chunk after it
    rcases mergeAfter_cases post b.2.1 b.2.2.1 b.2.2.2 with ⟨-, he⟩ | ⟨d, post', hpost, hd, he⟩
    · refine ⟨q, m, ?_, Nat.le_refl q, Nat.le_refl _⟩
      simp only [freed, hb, he]
      rw [freeIn_append, freeIn_cons, Nat.zero_add, ← hstart, hsum]
      exact .inr (.inr hf)
    rw [hpost, freeIn_cons] at hf
    rcases hf with ⟨rfl, -, rfl⟩ | hf
    · refine ⟨_, _, hnew, by omega, ?_⟩
      rw [he]
      simp only
      omega
    refine ⟨q, m, ?_, Nat.le_refl q, Nat.le_refl _⟩
    simp only [freed, hb, he]
    rw [freeIn_append, freeIn_cons, Nat.zero_add, ← hstart, ← Nat.add_assoc, hsum]
    exact .inr (.inr hf)

end Arena

end WamrMigrate.Ems
