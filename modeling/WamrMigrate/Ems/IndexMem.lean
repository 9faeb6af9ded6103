import Mathlib.Data.List.Perm.Subperm
import WamrMigrate.Ems.Arena
import WamrMigrate.Ems.ListMem
import WamrMigrate.Ems.TreeMem

/-!
# The index in memory

The lists and the tree of a heap represent an index of the abstract heap (`IndexAt`), with addresses in place of offsets. `unlinkHmu_spec` and
`linkFc_spec`: `unlink_hmu` and the linking part of `gci_add_fc` do what `Index.erase` and `Index.insert` do, and write only the fields of free
chunks and the links of the root (`FieldsOnly`).
-/

namespace WamrMigrate.Ems

open SizeTree Tiles

/-- The place of a heap: the pool is 4 bytes past a multiple of 8, smaller than the sizes a header can hold, and apart from
the root of the tree. -/
structure Sane (h : GcHeap) : Prop where
  base_align : h.baseAddr % 8 = 4
  size_lt : h.currentSize < 2 ^ 30
  end_le : h.baseAddr + h.currentSize ≤ 2 ^ 64
  root_ne : h.kfcTreeRoot ≠ 0
  root_le : h.kfcTreeRoot + 32 ≤ 2 ^ 64
  root_apart : h.kfcTreeRoot + 32 ≤ h.baseAddr ∨ h.baseAddr + h.currentSize ≤ h.kfcTreeRoot

/-- The place of a heap whose pool may have any size. -/
structure Placed (h : GcHeap) : Prop where
  base_align : h.baseAddr % 8 = 4
  end_le : h.baseAddr + h.currentSize ≤ 2 ^ 64
  root_ne : h.kfcTreeRoot ≠ 0
  root_le : h.kfcTreeRoot + 32 ≤ 2 ^ 64
  root_apart : h.kfcTreeRoot + 32 ≤ h.baseAddr ∨ h.baseAddr + h.currentSize ≤ h.kfcTreeRoot

theorem Sane.placed {h : GcHeap} (hs : Sane h) : Placed h :=
  ⟨hs.base_align, hs.end_le, hs.root_ne, hs.root_le, hs.root_apart⟩

/-- Chunks `S` that lie in a pool of `cur` bytes without overlapping. -/
structure Spread (S : Nat → Nat → Prop) (cur : Nat) : Prop where
  bounds : ∀ o n, S o n → o % 8 = 0 ∧ n % 8 = 0 ∧ 16 ≤ n ∧ o + n ≤ cur
  apart : ∀ o n o' n', S o n → S o' n' → (o = o' ∧ n = n') ∨ o + n ≤ o' ∨ o' + n' ≤ o

/-- The lists and the tree of the heap are the index `I`, at the addresses of its chunks. -/
structure IndexAt (h : GcHeap) (I : Index) : Prop where
  lists : ∀ i, ListAt h.mem ((I.bins i).map (h.baseAddr + ·)) (h.kfcNormalList i)
  tree : TreeAt h.mem (node leaf h.kfcTreeRoot 32 (I.tree.map (h.baseAddr + ·))) h.kfcTreeRoot 0

/-- The bytes of a free chunk of `n` bytes that its node takes, the header included. -/
def nodeEnd (n : Nat) : Nat := if n < 248 then 8 else 32

/-- `h'` is `h` but for the lists, the links of the root and the fields of the chunks `S`. -/
structure FieldsOnly (S : Nat → Nat → Prop) (h h' : GcHeap) : Prop where
  same : h' = { h with mem := h'.mem, kfcNormalList := h'.kfcNormalList }
  mem : ∀ x, ¬(h.kfcTreeRoot + 8 ≤ x ∧ x < h.kfcTreeRoot + 32) →
    (∀ o n, S o n → ¬(h.baseAddr + o + 4 ≤ x ∧ x < h.baseAddr + o + nodeEnd n)) → h'.mem x = h.mem x

section Geometry
variable {h : GcHeap} {S : Nat → Nat → Prop} {I : Index} {o n o' n' cur i : Nat}

theorem Spread.disjoint (hsp : Spread S cur) (h1 : S o n) (h2 : S o' n') (hne : o ≠ o') : o + n ≤ o' ∨ o' + n' ≤ o :=
  (hsp.apart o n o' n' h1 h2).resolve_left fun he => hne he.1

theorem Spread.mono {S' : Nat → Nat → Prop} (hsp : Spread S cur) (hs : ∀ o n, S' o n → S o n) : Spread S' cur :=
  ⟨fun o n h1 => hsp.bounds o n (hs o n h1), fun o n o' n' h1 h2 => hsp.apart o n o' n' (hs o n h1) (hs o' n' h2)⟩

theorem Sized.total_mod {cs : List Chunk} (hs : Sized cs) : total Chunk.size cs % 8 = 0 := by
  induction cs with
  | nil => rfl
  | cons c cs ih =>
    obtain ⟨hc, hcs⟩ := sized_cons.1 hs
    have := ih hcs
    simp only [total_cons]
    omega

theorem spread_freeIn {cs : List Chunk} (hs : Sized cs) (ht : total Chunk.size cs = cur) : Spread (FreeIn 0 cs) cur := by
  constructor
  · intro o n hf
    have h1 := hf.bounds
    have h2 := hf.sized hs
    obtain ⟨c, hc, -, -⟩ := hf
    obtain ⟨pre, post, rfl, ho⟩ := mem_located_iff.1 hc
    have h3 := (sized_append.1 hs).1.total_mod
    omega
  rintro o n o' n' ⟨c, hc, -, rfl⟩ ⟨c', hc', -, rfl⟩
  rcases located_disjoint hc hc' with ⟨rfl, rfl⟩ | h1
  · exact .inl ⟨rfl, rfl⟩
  · exact .inr h1

theorem pairwise_of_nodup {R : Nat → Nat → Prop} {xs : List Nat} (hn : xs.Nodup) (hR : ∀ a ∈ xs, ∀ b ∈ xs, a ≠ b → R a b) : xs.Pairwise R :=
  List.Pairwise.imp_of_mem (fun ha hb hne => hR _ ha _ hb hne) hn

/-- Offsets of chunks that fit in the pool are fewer than its bytes. -/
theorem length_lt_of_nodup {xs : List Nat} (hn : xs.Nodup) (hb : ∀ o ∈ xs, o + 16 ≤ cur) (hc : 0 < cur) : xs.length < cur := by
  have hsub : xs ⊆ List.range (cur - 1) := fun o ho => List.mem_range.2 (by have := hb o ho; omega)
  have := (hn.subperm hsub).length_le
  rw [List.length_range] at this
  omega

theorem items_map_base (t : SizeTree Nat) (b : Nat) : (t.map (b + ·)).items = t.items.map (b + ·) := items_map _ t

theorem Spread.tree_apart (hsp : Spread S cur) (hH : I.Holds S) (b : Nat) : Apart ((I.tree.map (b + ·)).items) := by
  rw [items_map_base]
  refine pairwise_of_nodup (hH.tree_nodup.map fun x y hxy => by simpa using hxy) ?_
  intro x hx y hy hne
  obtain ⟨o, ho, rfl⟩ := List.mem_map.1 hx
  obtain ⟨o', ho', rfl⟩ := List.mem_map.1 hy
  obtain ⟨n, hn, hS⟩ := hH.tree_item ho
  obtain ⟨n', hn', hS'⟩ := hH.tree_item ho'
  have := hsp.disjoint hS hS' (by rintro rfl; exact hne rfl)
  unfold Far
  omega

theorem Spread.bins_linkable (hs : Sane h) (hsp : Spread S h.currentSize) (hH : I.Holds S) (i : Nat) :
    ((I.bins i).map (h.baseAddr + ·)).Pairwise Linkable := by
  refine pairwise_of_nodup ((hH.bins_nodup i).map fun x y hxy => by simpa using hxy) ?_
  intro x hx y hy hne
  obtain ⟨o, ho, rfl⟩ := List.mem_map.1 hx
  obtain ⟨o', ho', rfl⟩ := List.mem_map.1 hy
  have hS := ((hH.bins_iff i o).1 ho).2
  have hS' := ((hH.bins_iff i o').1 ho').2
  have h1 := hsp.disjoint hS hS' (by rintro rfl; exact hne rfl)
  have h2 := hsp.bounds _ _ hS
  have h3 := hsp.bounds _ _ hS'
  have h4 := hs.size_lt
  have h5 := hs.end_le
  unfold Linkable
  omega

theorem Spread.inHeap (hsp : Spread S h.currentSize) (hS : S o n) : hmuIsInHeap h (h.baseAddr + o) := by
  have := hsp.bounds o n hS
  unfold hmuIsInHeap
  omega

theorem bin_node {a b : Nat} (hH : I.Holds S) (ha : a ∈ (I.bins i).map (b + ·)) : ∃ o, a = b + o ∧ S o (i * 8) ∧ i < 31 := by
  obtain ⟨o, ho, rfl⟩ := List.mem_map.1 ha
  exact ⟨o, rfl, ((hH.bins_iff i o).1 ho).2, ((hH.bins_iff i o).1 ho).1⟩

theorem tree_node {a b : Nat} (hH : I.Holds S) (ha : a ∈ (I.tree.map (b + ·)).items) : ∃ o n, a = b + o ∧ S o n ∧ 248 ≤ n := by
  rw [items_map_base] at ha
  obtain ⟨o, ho, rfl⟩ := List.mem_map.1 ha
  obtain ⟨n, hn, hS⟩ := hH.tree_item ho
  exact ⟨o, n, rfl, hS, hn⟩

theorem nodeEnd_of_lt (h : n < 248) : nodeEnd n = 8 := if_pos h

theorem nodeEnd_of_le (h : 248 ≤ n) : nodeEnd n = 32 := if_neg (by omega)

/-- A node lies in its chunk and leaves the last four bytes of it free. -/
theorem nodeEnd_le (h16 : 16 ≤ n) : 8 ≤ nodeEnd n ∧ nodeEnd n + 4 ≤ n := by
  unfold nodeEnd
  split <;> omega

end Geometry

theorem mem_rooted {t : SizeTree Nat} {r k x : Nat} : x ∈ (node leaf r k t).items ↔ x = r ∨ x ∈ t.items := by
  simp only [items_node, items_leaf, List.nil_append, List.mem_cons]

/-! ## Memories that agree on the nodes -/

section Frame
variable {h h' : GcHeap} {S : Nat → Nat → Prop} {I : Index} {o n : Nat}

theorem FieldsOnly.refl (S : Nat → Nat → Prop) (h : GcHeap) : FieldsOnly S h h := ⟨rfl, fun _ _ _ => rfl⟩

section
variable (hf : FieldsOnly S h h')
include hf

theorem FieldsOnly.mono {S' : Nat → Nat → Prop} (hs : ∀ o n, S o n → S' o n) : FieldsOnly S' h h' :=
  ⟨hf.same, fun x hx hS => hf.mem x hx fun o n ho => hS o n (hs o n ho)⟩

theorem FieldsOnly.trans {h'' : GcHeap} (hf' : FieldsOnly S h' h'') : FieldsOnly S h h'' := by
  refine ⟨?_, fun x hx hS => ?_⟩
  · rw [hf'.same, hf.same]
  · have hbase : h'.baseAddr = h.baseAddr := by rw [hf.same]
    have hroot : h'.kfcTreeRoot = h.kfcTreeRoot := by rw [hf.same]
    rw [hf'.mem x (by rwa [hroot]) (by simpa only [hbase] using hS), hf.mem x hx hS]

theorem FieldsOnly.base : h'.baseAddr = h.baseAddr := by rw [hf.same]

theorem FieldsOnly.cur : h'.currentSize = h.currentSize := by rw [hf.same]

theorem FieldsOnly.root : h'.kfcTreeRoot = h.kfcTreeRoot := by rw [hf.same]

theorem FieldsOnly.sane (hs : Sane h) : Sane h' := by
  obtain ⟨h1, h2, h3, h4, h5, h6⟩ := hs
  constructor <;> simp only [hf.base, hf.cur, hf.root] <;> assumption

theorem FieldsOnly.eqOn {a k : Nat} (hs : Sane h) (ha : h.baseAddr ≤ a) (hk : a + k ≤ h.baseAddr + h.currentSize)
    (hd : ∀ o n, S o n → a + k ≤ h.baseAddr + o + 4 ∨ h.baseAddr + o + nodeEnd n ≤ a) : Mem.EqOn h.mem h'.mem a k := by
  intro x h1 h2
  have hr := hs.root_apart
  refine hf.mem x (by omega) fun o n hS => ?_
  have := hd o n hS
  omega

end

theorem IndexAt.congr (hi : IndexAt h I) (hH : I.Holds S) (hb : h'.baseAddr = h.baseAddr)
    (hr : h'.kfcTreeRoot = h.kfcTreeRoot) (hl : h'.kfcNormalList = h.kfcNormalList) (hroot : Mem.EqOn h.mem h'.mem (h.kfcTreeRoot + 4) 28)
    (he : ∀ o n, S o n → Mem.EqOn h.mem h'.mem (h.baseAddr + o + 4) (nodeEnd n - 4)) : IndexAt h' I := by
  constructor
  · intro i
    rw [hb, hl]
    refine (hi.lists i).congr fun a ha => ?_
    obtain ⟨o, rfl, hS, hi31⟩ := bin_node hH ha
    have := he o _ hS
    rwa [nodeEnd_of_lt (by omega)] at this
  rw [hb, hr]
  refine hi.tree.congr fun a ha => ?_
  rcases mem_rooted.1 ha with rfl | ha
  · exact hroot
  · obtain ⟨o, n, rfl, hS, hn⟩ := tree_node hH ha
    have := he o n hS
    rwa [nodeEnd_of_le hn] at this

end Frame

/-! ## Taking a chunk out of the index -/

section Unlink
variable {h : GcHeap} {S : Nat → Nat → Prop} {I : Index} {o n i : Nat} {m' : Mem}

/-- Writing links of one list leaves the other lists as they were. -/
theorem lists_of_nextsOnly (hi : IndexAt h I) (hH : I.Holds S) (hsp : Spread S h.currentSize)
    (hno : NextsOnly ((I.bins i).map (h.baseAddr + ·)) h.mem m') {j : Nat} (hj : j ≠ i) :
    ListAt m' ((I.bins j).map (h.baseAddr + ·)) (h.kfcNormalList j) := by
  refine (hi.lists j).congr fun a ha => hno.eqOn fun b hb => ?_
  obtain ⟨oa, rfl, hSa, -⟩ := bin_node hH ha
  obtain ⟨ob, rfl, hSb, -⟩ := bin_node hH hb
  have hba := hsp.bounds _ _ hSa
  have hbb := hsp.bounds _ _ hSb
  rcases hsp.apart _ _ _ _ hSa hSb with ⟨-, he⟩ | hd | hd
  · omega
  · omega
  · omega

theorem tree_of_nextsOnly (hs : Sane h) (hi : IndexAt h I) (hH : I.Holds S) (hsp : Spread S h.currentSize)
    (hno : NextsOnly ((I.bins i).map (h.baseAddr + ·)) h.mem m') :
    TreeAt m' (node leaf h.kfcTreeRoot 32 (I.tree.map (h.baseAddr + ·))) h.kfcTreeRoot 0 := by
  refine hi.tree.congr fun a ha => hno.eqOn fun b hb => ?_
  obtain ⟨ob, rfl, hSb, hi31⟩ := bin_node hH hb
  have hbb := hsp.bounds _ _ hSb
  rcases mem_rooted.1 ha with rfl | ha
  · have := hs.root_apart
    omega
  obtain ⟨oa, na, rfl, hSa, hna⟩ := tree_node hH ha
  rcases hsp.apart _ _ _ _ hSa hSb with ⟨-, he⟩ | hd | hd
  · omega
  · omega
  · omega

theorem fieldsOnly_of_nextsOnly (hH : I.Holds S) {heads : Nat → Nat} (hno : NextsOnly ((I.bins i).map (h.baseAddr + ·)) h.mem m') :
    FieldsOnly S h { h with mem := m', kfcNormalList := heads } := by
  refine ⟨rfl, fun x _ hS => hno x fun a ha => ?_⟩
  obtain ⟨o, rfl, hSo, hi31⟩ := bin_node hH ha
  have := hS o _ hSo
  rwa [nodeEnd_of_lt (by omega)] at this

theorem lists_of_linksOnly (hs : Placed h) (hi : IndexAt h I) (hH : I.Holds S) (hsp : Spread S h.currentSize) {slot : Nat}
    (hslot : h.kfcTreeRoot ≤ slot ∧ slot + 8 ≤ h.kfcTreeRoot + 32) (hlo : LinksOnly slot ((I.tree.map (h.baseAddr + ·)).items) h.mem m') (j : Nat) :
    ListAt m' ((I.bins j).map (h.baseAddr + ·)) (h.kfcNormalList j) := by
  refine (hi.lists j).congr fun a ha => hlo.eqOn ?_ fun b hb => ?_
  · obtain ⟨oa, rfl, hSa, -⟩ := bin_node hH ha
    have := hsp.bounds _ _ hSa
    have := hs.root_apart
    omega
  obtain ⟨oa, rfl, hSa, hj31⟩ := bin_node hH ha
  obtain ⟨ob, nb, rfl, hSb, hnb⟩ := tree_node hH hb
  have := hsp.bounds _ _ hSa
  rcases hsp.apart _ _ _ _ hSa hSb with ⟨-, he⟩ | hd | hd
  · omega
  · omega
  · omega

/-- What taking the chunk of `n` bytes at `o` out of the index leaves: `r` is what the call gives. -/
def Unlinked (S : Nat → Nat → Prop) (h : GcHeap) (I : Index) (o n : Nat) (r : Option (Bool × GcHeap)) : Prop :=
  ∃ h', r = some (true, h') ∧ IndexAt h' (I.erase o n) ∧ FieldsOnly S h h'

theorem map_erase_base (xs : List Nat) (b o : Nat) : (xs.erase o).map (b + ·) = (xs.map (b + ·)).erase (b + o) :=
  List.map_erase (fun x y hxy => by simpa using hxy) xs

/-- The loop of `unlink_hmu` takes a small chunk out of its list. -/
theorem unlinkNormal_spec (hs : Sane h) (hi : IndexAt h I) (hH : I.Holds S) (hsp : Spread S h.currentSize) (hS : S o n) (hn : n < 248) :
    Unlinked S h I o n (unlinkNormal (n / 8) (h.baseAddr + o) h.currentSize h 0 (h.kfcNormalList (n / 8))) := by
  have hb := hsp.bounds o n hS
  have hmem : o ∈ I.bins (n / 8) := by
    refine (hH.bins_iff _ _).2 ⟨by omega, ?_⟩
    rwa [show n / 8 * 8 = n by omega]
  have hlen : ((I.bins (n / 8)).map (h.baseAddr + ·)).length < h.currentSize := by
    rw [List.length_map]
    refine length_lt_of_nodup (hH.bins_nodup _) (fun x hx => ?_) (by omega)
    have := hsp.bounds _ _ ((hH.bins_iff _ x).1 hx).2
    omega
  obtain ⟨m', head, hrun, hlist, hno⟩ := @unlinkNormal_erase _ h (n / 8) (h.baseAddr + o) _ (hi.lists (n / 8))
    (fun b hb => by
      obtain ⟨ob, rfl, hSb, -⟩ := bin_node hH hb
      exact hsp.inHeap hSb)
    (hsp.bins_linkable hs hH _) (List.mem_map.2 ⟨o, hmem, rfl⟩) hlen
  refine ⟨_, hrun, ?_, fieldsOnly_of_nextsOnly hH hno⟩
  rw [Index.erase, if_pos ((Index.hmuIsFcNormal_iff n).2 hn)]
  have htree := tree_of_nextsOnly hs hi hH hsp hno
  refine ⟨fun j => ?_, htree⟩
  simp only [GcHeap.setNormalList]
  by_cases hj : j = n / 8
  · subst hj
    simp only [Function.update_self, if_true, map_erase_base]
    exact hlist
  · simp only [Function.update_of_ne hj, if_neg hj]
    exact lists_of_nextsOnly hi hH hsp hno hj

theorem IndexAt.hangs (hs : Placed h) (hi : IndexAt h I) (hH : I.Holds S) (hsp : Spread S h.currentSize) :
    Hangs h (I.tree.map (h.baseAddr + ·)) h.kfcTreeRoot (h.kfcTreeRoot + 16) := by
  obtain ⟨-, -, -, -, -, ht⟩ := hi.tree
  have hra := hs.root_apart
  have hfar : ∀ a ∈ (I.tree.map (h.baseAddr + ·)).items, Far h.kfcTreeRoot a := by
    intro a ha
    obtain ⟨o, n, rfl, hS, hn⟩ := tree_node hH ha
    have := hsp.bounds o n hS
    unfold Far
    omega
  refine ⟨ht, .inl rfl, hs.root_ne, .inl rfl, fun a ha => ?_, fun hr => (hfar _ hr).ne rfl, hsp.tree_apart hH _, hfar⟩
  obtain ⟨o, n, rfl, hS, hn⟩ := tree_node hH ha
  exact hsp.inHeap hS

theorem tree_length_le (hH : I.Holds S) {cur b : Nat} (hsp : Spread S cur) : (I.tree.map (b + ·)).items.length ≤ cur := by
  rw [items_map_base, List.length_map]
  by_cases hc : 0 < cur
  · refine Nat.le_of_lt (length_lt_of_nodup hH.tree_nodup (fun o ho => ?_) hc)
    obtain ⟨n, hn, hS⟩ := hH.tree_item ho
    have := hsp.bounds o n hS
    omega
  suffices I.tree.items = [] by simp [this]
  refine List.eq_nil_iff_forall_not_mem.2 fun o ho => ?_
  obtain ⟨n, hn, hS⟩ := hH.tree_item ho
  have := hsp.bounds o n hS
  omega

theorem fieldsOnly_of_linksOnly (hH : I.Holds S) {slot : Nat} (hslot : h.kfcTreeRoot + 8 ≤ slot ∧ slot + 8 ≤ h.kfcTreeRoot + 32)
    (hlo : LinksOnly slot ((I.tree.map (h.baseAddr + ·)).items) h.mem m') : FieldsOnly S h { h with mem := m' } := by
  refine ⟨rfl, fun x hx hS => hlo x (by omega) fun a ha => ?_⟩
  obtain ⟨o, n, rfl, hSo, hn⟩ := tree_node hH ha
  have := hS o n hSo
  rw [nodeEnd_of_le hn] at this
  omega

/-- `remove_tree_node` takes a large chunk out of the tree; the size in its node stays. -/
theorem removeTreeNode_spec (hs : Placed h) (hi : IndexAt h I) (hH : I.Holds S) (hsp : Spread S h.currentSize) (hS : S o n) (hn : 248 ≤ n) :
    ∃ h', removeTreeNode h.currentSize h (h.baseAddr + o) = some (true, h') ∧ IndexAt h' (I.erase o n) ∧ FieldsOnly S h h' ∧
      h'.size (h.baseAddr + o) = n := by
  have hb := hsp.bounds o n hS
  have hra := hs.root_apart
  have hmem : o ∈ I.tree.items := mem_items_of_mem ((hH.tree_iff o n).2 ⟨hn, hS⟩)
  have H := hi.hangs hs hH hsp
  have he := @Hangs.removeTreeNode_erase _ _ _ _ (h.currentSize - 2) (h.baseAddr + o) H
    (by rw [items_map_base]; exact List.mem_map.2 ⟨o, hmem, rfl⟩) (tree_length_le hH hsp)
    (by have := hs.end_le; norm_num; exact this)
  rw [show h.currentSize - 2 + 2 = h.currentSize by omega,
    erase_map (f := (h.baseAddr + ·)) (fun x y hxy => by simpa using hxy)] at he
  obtain ⟨m', hrun, htree, hlo⟩ := he
  have hsame : m'.load (h.baseAddr + o + 4) 4 = n := by
    have hentry : (h.baseAddr + o, n) ∈ (I.tree.map (h.baseAddr + ·)).entries := by
      rw [entries_map]
      exact List.mem_map.2 ⟨(o, n), (hH.tree_iff o n).2 ⟨hn, hS⟩, rfl⟩
    rw [← (H.tree.size_of_mem hentry).1]
    refine Mem.load_congr (hlo.eqOn (by omega) fun b hb => ?_)
    obtain ⟨ob, nb, rfl, hSb, hnb⟩ := tree_node hH hb
    rcases hsp.apart _ _ _ _ hS hSb with ⟨rfl, -⟩ | hd | hd
    · omega
    · omega
    · omega
  refine ⟨_, hrun, ?_, fieldsOnly_of_linksOnly hH (by omega) hlo, hsame⟩
  rw [Index.erase, if_neg (by rw [Index.hmuIsFcNormal_iff]; omega)]
  refine ⟨fun j => lists_of_linksOnly hs hi hH hsp (by omega) hlo j, ?_⟩
  obtain ⟨-, h0, hsize, hpar, hleft, -⟩ := hi.tree
  -- the root keeps its size, its left side, which is empty, and its parent
  have hroot : ∀ a k, h.kfcTreeRoot ≤ a → a + k ≤ h.kfcTreeRoot + 32 →
      (a + k ≤ h.kfcTreeRoot + 16 ∨ h.kfcTreeRoot + 24 ≤ a) → m'.load a k = h.mem.load a k := by
    intro a k h1 h2 h3
    refine Mem.load_congr (hlo.eqOn (by omega) fun b hb => ?_)
    have := H.parent_far b hb
    unfold Far at this
    omega
  refine ⟨rfl, h0, ?_, ?_, ?_, htree⟩
  · exact (hroot (h.kfcTreeRoot + 4) 4 (by omega) (by omega) (by omega)).trans hsize
  · exact (hroot (h.kfcTreeRoot + 24) 8 (by omega) (by omega) (by omega)).trans hpar
  · exact (hroot (h.kfcTreeRoot + 8) 8 (by omega) (by omega) (by omega)).trans hleft

theorem unlinkHmu_spec (hs : Sane h) (hi : IndexAt h I) (hH : I.Holds S) (hsp : Spread S h.currentSize) (hS : S o n)
    (hut : hmuGetUt (h.header (h.baseAddr + o)) = hmuFC) (hsize : hmuGetSize (h.header (h.baseAddr + o)) = n) :
    Unlinked S h I o n (unlinkHmu h (h.baseAddr + o)) := by
  rw [unlinkHmu, if_neg (not_not.2 hut)]
  simp only [hsize]
  split
  · rename_i hn
    exact unlinkNormal_spec hs hi hH hsp hS hn
  rename_i hn
  rw [Index.hmuIsFcNormal_iff] at hn
  obtain ⟨h', hrun, hI, hf, -⟩ := removeTreeNode_spec hs.placed hi hH hsp hS (by omega)
  exact ⟨h', hrun, hI, hf⟩

theorem IndexAt.pop (hi : IndexAt h I) {os : List Nat} (hbin : I.bins i = o :: os) (hi31 : i < 31) :
    IndexAt (h.setNormalList i (getHmuNormalNodeNext h.mem (h.baseAddr + o))) (I.erase o (i * 8)) ∧ h.kfcNormalList i = h.baseAddr + o := by
  have hl := hi.lists i
  rw [hbin] at hl
  obtain ⟨hhead, -, htail⟩ := hl
  refine ⟨?_, hhead⟩
  rw [Index.erase, if_pos ((Index.hmuIsFcNormal_iff _).2 (by omega)), show i * 8 / 8 = i by omega]
  refine ⟨fun j => ?_, hi.tree⟩
  simp only [GcHeap.setNormalList]
  by_cases hj : j = i
  · subst hj
    simp only [Function.update_self, if_true, hbin, List.erase_cons_head]
    exact htail
  · simp only [Function.update_of_ne hj, if_neg hj]
    exact hi.lists j

end Unlink

/-! ## Entering a chunk into the index -/

section Link
variable {h : GcHeap} {S : Nat → Nat → Prop} {I : Index} {o n : Nat}

/-- The chunks `S` and one more. -/
def Plus (S : Nat → Nat → Prop) (o n : Nat) : Nat → Nat → Prop := fun o' n' => S o' n' ∨ (o' = o ∧ n' = n)

/-- What entering the chunk of `n` bytes at `o` into the index leaves: `r` is what the call gives. -/
def Entered (S : Nat → Nat → Prop) (h : GcHeap) (I : Index) (o n : Nat) (r : Option (Bool × GcHeap)) : Prop :=
  ∃ h', r = some (true, h') ∧ IndexAt h' (I.insert o n) ∧ FieldsOnly (Plus S o n) h h'

theorem Spread.of_plus {cur : Nat} (hsp : Spread (Plus S o n) cur) : Spread S cur := hsp.mono fun _ _ => Or.inl

theorem Spread.new_disjoint {cur o' n' : Nat} (hsp : Spread (Plus S o n) cur) (hfresh : ∀ k, ¬S o k) (hS : S o' n') : o + n ≤ o' ∨ o' + n' ≤ o :=
  hsp.disjoint (.inr ⟨rfl, rfl⟩) (.inl hS) fun he => hfresh n' (he ▸ hS)

theorem linkFc_normal (hs : Sane h) (hi : IndexAt h I) (hH : I.Holds S) (hsp : Spread (Plus S o n) h.currentSize)
    (hfresh : ∀ k, ¬S o k) (hn : n < 248) : Entered S h I o n (linkFc h (h.baseAddr + o) n) := by
  have hb := hsp.bounds o n (.inr ⟨rfl, rfl⟩)
  have hba := hs.base_align
  have hn' := (Index.hmuIsFcNormal_iff n).2 hn
  have hin : hmuIsInHeap h (h.baseAddr + o) := hsp.inHeap (.inr ⟨rfl, rfl⟩)
  rw [linkFc, if_pos hn', if_neg (not_not.2 hin)]
  refine ⟨_, rfl, ?_, rfl, fun x _ hS => ?_⟩
  · have hroot : Mem.EqOn h.mem (setHmuNormalNodeNext h.mem (h.baseAddr + o) (h.kfcNormalList (n / 8)))
        (h.kfcTreeRoot + 4) 28 := by
      have := hs.root_apart
      exact eqOn_setHmuNormalNodeNext (by omega)
    have hold : ∀ o' n', S o' n' → Mem.EqOn h.mem
        (setHmuNormalNodeNext h.mem (h.baseAddr + o) (h.kfcNormalList (n / 8))) (h.baseAddr + o' + 4) (nodeEnd n' - 4) := by
      intro o' n' hS
      have hb' := hsp.bounds o' n' (.inl hS)
      have := hsp.new_disjoint hfresh hS
      have := nodeEnd_le hb'.2.2.1
      exact eqOn_setHmuNormalNodeNext (by omega)
    have hI : IndexAt { h with mem := setHmuNormalNodeNext h.mem (h.baseAddr + o) (h.kfcNormalList (n / 8)) } I :=
      hi.congr hH rfl rfl rfl hroot hold
    rw [Index.insert, if_pos hn']
    refine ⟨fun j => ?_, hI.tree⟩
    simp only [GcHeap.setNormalList]
    by_cases hj : j = n / 8
    · subst hj
      simp only [Function.update_self, if_true, List.map_cons]
      refine (hi.lists (n / 8)).push (by omega) fun b hb' => ?_
      obtain ⟨ob, rfl, hSb, -⟩ := bin_node hH hb'
      have h1 := hsp.new_disjoint hfresh hSb
      have h2 := hsp.bounds _ _ (.inl hSb)
      have h3 := hs.size_lt
      have h4 := hs.end_le
      unfold Linkable
      omega
    · simp only [Function.update_of_ne hj, if_neg hj]
      exact hI.lists j
  · have h1 := hS o n (.inr ⟨rfl, rfl⟩)
    rw [nodeEnd_of_lt hn] at h1
    exact Mem.store_of_not (by omega)

theorem fresh_clearLinks {x : Nat} (h0 : x ≠ 0) (h64 : x < 2 ^ 64) (hn : n < 2 ^ 32) : Fresh ((h.setSize x n).clearLinks x).mem x n := by
  refine ⟨h0, by norm_num; exact h64, ?_, ?_, ?_⟩
  · simp only [GcHeap.clearLinks, GcHeap.setLeft, GcHeap.setRight, GcHeap.setParent, GcHeap.setPtr, GcHeap.setSize]
    rw [Mem.load_store_of_disjoint (by omega), Mem.load_store_of_disjoint (by omega), Mem.load_store_of_disjoint (by omega),
      Mem.load_store_of_lt (by norm_num; exact hn)]
  · simp only [GcHeap.clearLinks, GcHeap.setLeft, GcHeap.setPtr]
    exact Mem.load_store_of_lt (by norm_num)
  · simp only [GcHeap.clearLinks, GcHeap.setLeft, GcHeap.setRight, GcHeap.setPtr]
    rw [Mem.load_store_of_disjoint (by omega)]
    exact Mem.load_store_of_lt (by norm_num)

theorem linkFc_tree (hs : Placed h) (hi : IndexAt h I) (hH : I.Holds S) (hsp : Spread (Plus S o n) h.currentSize)
    (hfresh : ∀ k, ¬S o k) (hn : 248 ≤ n) (hlt : n < 2 ^ 32) : Entered S h I o n (linkFc h (h.baseAddr + o) n) := by
  have hb := hsp.bounds o n (.inr ⟨rfl, rfl⟩)
  have hba := hs.base_align
  have hra := hs.root_apart
  have hend := hs.end_le
  have hn' : ¬hmuIsFcNormal n := by rw [Index.hmuIsFcNormal_iff]; omega
  rw [linkFc, if_neg hn']
  obtain ⟨m₁, hm₁⟩ : ∃ m₁, (h.setSize (h.baseAddr + o) n).clearLinks (h.baseAddr + o) = { h with mem := m₁ } := ⟨_, rfl⟩
  have hmem : ((h.setSize (h.baseAddr + o) n).clearLinks (h.baseAddr + o)).mem = m₁ := by rw [hm₁]
  -- the node is prepared inside the new chunk
  have hprep : ∀ a k, a + k ≤ h.baseAddr + o + 4 ∨ h.baseAddr + o + 32 ≤ a → Mem.EqOn h.mem m₁ a k := by
    intro a k hd
    rw [← hmem]
    exact (Mem.eqOn_store (by omega)).trans (eqOn_clearLinks (by omega))
  have hI : IndexAt { h with mem := m₁ } I := by
    refine hi.congr hH rfl rfl rfl (hprep _ _ (by omega)) fun o' n' hS => ?_
    have hb' := hsp.bounds o' n' (.inl hS)
    have := hsp.new_disjoint hfresh hS
    have := nodeEnd_le hb'.2.2.1
    exact hprep _ _ (by omega)
  have hs₁ : Placed { h with mem := m₁ } := ⟨hba, hend, hs.root_ne, hs.root_le, hra⟩
  have H := hI.hangs hs₁ hH hsp.of_plus
  have hfar : ∀ b ∈ (I.tree.map (h.baseAddr + ·)).items, Far (h.baseAddr + o) b := by
    intro b hb'
    obtain ⟨ob, nb, rfl, hSb, hnb⟩ := tree_node hH hb'
    have := hsp.new_disjoint hfresh hSb
    unfold Far
    omega
  have hfresh₁ : Fresh m₁ (h.baseAddr + o) n := hmem ▸ fresh_clearLinks (by omega) (by omega) hlt
  have hL : Linked { h with mem := m₁ } (h.baseAddr + o) n (h.currentSize + 1) h.kfcTreeRoot 0
      (node leaf h.kfcTreeRoot 32 (I.tree.map (h.baseAddr + ·))).items
      ((node leaf h.kfcTreeRoot 32 (I.tree.map (h.baseAddr + ·))).insert (h.baseAddr + o) n) := by
    refine linkTreeNode_insert hI.tree hs.root_ne ?_ hfresh₁ ?_ ?_ ?_ ?_
    · intro b hb' hne
      exact H.items_in b ((mem_rooted.1 hb').resolve_left hne)
    · intro b hb'
      rcases mem_rooted.1 hb' with rfl | hb'
      · have := hs.root_le
        norm_num
        omega
      have := (H.items_in b hb').2
      simp only at this
      norm_num
      omega
    · simp only [Apart, items_node, items_leaf, List.nil_append, List.pairwise_cons]
      exact ⟨H.parent_far, H.apart⟩
    · intro b hb'
      rcases mem_rooted.1 hb' with rfl | hb'
      · unfold Far
        omega
      · exact hfar b hb'
    · have := tree_length_le (b := h.baseAddr) hH hsp.of_plus
      simp only [items_node, items_leaf, List.nil_append, List.length_cons]
      omega
  rw [SizeTree.insert, if_pos (by omega), insert_map (h.baseAddr + ·)] at hL
  obtain ⟨m', hrun, htree, hlo⟩ := hL
  rw [hm₁]
  refine ⟨_, hrun, ?_, rfl, fun x hx hS => ?_⟩
  · rw [Index.insert, if_neg hn']
    refine ⟨fun j => (hI.lists j).congr fun a ha => hlo.eqOn ?_ fun b hb' => ?_, htree⟩
    · obtain ⟨oa, rfl, hSa, -⟩ := bin_node hH ha
      have := hsp.new_disjoint hfresh hSa
      have := hsp.bounds _ _ (.inl hSa)
      simp only
      omega
    obtain ⟨oa, rfl, hSa, hj31⟩ := bin_node hH ha
    have := hsp.bounds _ _ (.inl hSa)
    simp only
    rcases mem_rooted.1 hb' with rfl | hb'
    · omega
    obtain ⟨ob, nb, rfl, hSb, hnb⟩ := tree_node hH hb'
    rcases hsp.of_plus.apart _ _ _ _ hSa hSb with ⟨-, he⟩ | hd | hd
    · omega
    · omega
    · omega
  · have hx' := hS o n (.inr ⟨rfl, rfl⟩)
    rw [nodeEnd_of_le hn] at hx'
    have h1 : m₁ x = h.mem x := hprep x 1 (by omega) x (by omega) (by omega)
    rw [← h1]
    refine hlo x (by omega) fun b hb' => ?_
    rcases mem_rooted.1 hb' with rfl | hb'
    · exact hx
    obtain ⟨ob, nb, rfl, hSb, hnb⟩ := tree_node hH hb'
    have := hS ob nb (.inl hSb)
    rw [nodeEnd_of_le hnb] at this
    omega

/-- The linking part of `gci_add_fc` enters a new chunk into the index. -/
theorem linkFc_spec (hs : Sane h) (hi : IndexAt h I) (hH : I.Holds S) (hsp : Spread (Plus S o n) h.currentSize)
    (hfresh : ∀ k, ¬S o k) : Entered S h I o n (linkFc h (h.baseAddr + o) n) := by
  by_cases hn : n < 248
  · exact linkFc_normal hs hi hH hsp hfresh hn
  · have hb := hsp.bounds o n (.inr ⟨rfl, rfl⟩)
    have hcur := hs.size_lt
    exact linkFc_tree hs.placed hi hH hsp hfresh (by omega) (by omega)

end Link

end WamrMigrate.Ems
