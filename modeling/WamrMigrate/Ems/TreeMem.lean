import WamrMigrate.Lib.SizeTree
import WamrMigrate.Ems.Alloc

/-!
# The tree of free chunks in memory

`TreeAt m t ptr par` says that the nodes of `t`, with their sizes, links and parents, are in the memory `m`, the topmost one at `ptr` and with
parent `par`. Nodes are at least 32 bytes apart (`Apart`), so a write to one leaves the others as they were. `Hangs.removeTreeNode_erase` and
`linkTreeNode_insert`: the two loops that change the tree do what `SizeTree.erase` and `SizeTree.insert` do, and write only links of nodes of the
tree.
-/

namespace WamrMigrate.Ems

open SizeTree

variable {a b s slot : Nat} {xs : List Nat} {l r : SizeTree Nat} {m m' : Mem}

/-- The nodes of `t` are in memory, the topmost at `ptr` with parent `par`. -/
def TreeAt (m : Mem) : SizeTree Nat → Nat → Nat → Prop
  | leaf, ptr, _ => ptr = 0
  | node l a s r, ptr, par =>
    ptr = a ∧ a ≠ 0 ∧ m.load (a + 4) 4 = s ∧ m.load (a + 24) 8 = par ∧
      TreeAt m l (m.load (a + 8) 8) a ∧ TreeAt m r (m.load (a + 16) 8) a

/-- Two nodes do not overlap. -/
def Far (a b : Nat) : Prop := a + 32 ≤ b ∨ b + 32 ≤ a

/-- No two of the nodes overlap. -/
def Apart (xs : List Nat) : Prop := xs.Pairwise Far

/-- Outside the pointer at `slot` and the links of the nodes `xs`, `m'` is `m`. -/
def LinksOnly (slot : Nat) (xs : List Nat) (m m' : Mem) : Prop :=
  ∀ x, ¬(slot ≤ x ∧ x < slot + 8) → (∀ a ∈ xs, ¬(a + 8 ≤ x ∧ x < a + 32)) → m' x = m x

theorem Far.symm (h : Far a b) : Far b a := by unfold Far at *; omega

theorem Far.ne (h : Far a b) : a ≠ b := by unfold Far at h; omega

theorem mem_items_left (h : b ∈ l.items) : b ∈ (node l a s r).items := by simp [h]

theorem mem_items_right (h : b ∈ r.items) : b ∈ (node l a s r).items := by simp [h]

theorem apart_node (h : Apart (node l a s r).items) : Apart l.items ∧ Apart r.items ∧ (∀ x ∈ l.items, Far x a) ∧ (∀ x ∈ r.items, Far a x) ∧
      ∀ x ∈ l.items, ∀ y ∈ r.items, Far x y := by
  rw [items_node] at h
  obtain ⟨hl, har, hd⟩ := List.pairwise_append.1 h
  obtain ⟨ha, hr⟩ := List.pairwise_cons.1 har
  exact ⟨hl, hr, fun x hx => hd x hx a (by simp), ha, fun x hx y hy => hd x hx y (by simp [hy])⟩

theorem LinksOnly.eqOn {n : Nat} (h : LinksOnly slot xs m m')
    (hs : a + n ≤ slot ∨ slot + 8 ≤ a) (hx : ∀ b ∈ xs, a + n ≤ b + 8 ∨ b + 32 ≤ a) : Mem.EqOn m m' a n := by
  intro x h1 h2
  refine h x (by omega) fun b hb => ?_
  have := hx b hb
  omega

theorem LinksOnly.mono {ys : List Nat} (hl : LinksOnly slot xs m m') (hs : ∀ a ∈ xs, a ∈ ys) : LinksOnly slot ys m m' :=
  fun x h1 h2 => hl x h1 fun a ha => h2 a (hs a ha)

/-- A node that is far from the nodes whose links are written keeps what is not in the slot. -/
theorem LinksOnly.eqOn_far {n : Nat} (h : LinksOnly slot xs m m') (hfar : ∀ d ∈ xs, Far b d)
    (hs : a + n ≤ slot ∨ slot + 8 ≤ a) (hb : b ≤ a ∧ a + n ≤ b + 32) : Mem.EqOn m m' a n := by
  refine h.eqOn hs fun d hd => ?_
  have := hfar d hd
  unfold Far at this
  omega

section TreeAt
variable {m m' : Mem} {t l r : SizeTree Nat} {ptr par a s : Nat}

theorem TreeAt.ptr_eq_zero (h : TreeAt m t ptr par) : ptr = 0 ↔ t = leaf := by
  cases t with
  | leaf => exact ⟨fun _ => rfl, fun _ => h⟩
  | node l a s r =>
    obtain ⟨rfl, ha, -⟩ := h
    exact ⟨fun h0 => absurd h0 ha, fun h0 => nomatch h0⟩

theorem TreeAt.ptr_mem (h : TreeAt m t ptr par) (h0 : ptr ≠ 0) : ptr ∈ t.items := by
  cases t with
  | leaf => exact absurd h h0
  | node l a s r =>
    obtain ⟨rfl, -⟩ := h
    simp

theorem TreeAt.zero_not_mem (h : TreeAt m t ptr par) : 0 ∉ t.items := by
  induction t generalizing ptr par with
  | leaf => simp
  | node l a s r ihl ihr =>
    obtain ⟨-, ha, -, -, hl, hr⟩ := h
    simp only [items_node, List.mem_append, List.mem_cons, not_or]
    exact ⟨ihl hl, ha.symm, ihr hr⟩

theorem TreeAt.congr (h : TreeAt m t ptr par) (he : ∀ a ∈ t.items, Mem.EqOn m m' (a + 4) 28) : TreeAt m' t ptr par := by
  induction t generalizing ptr par with
  | leaf => exact h
  | node l a s r ihl ihr =>
    obtain ⟨rfl, ha, hs, hp, hl, hr⟩ := h
    have e := he ptr (by simp)
    refine ⟨rfl, ha, ?_, ?_, ?_, ?_⟩
    · rw [Mem.load_congr (e.mono (by omega) (by omega)), hs]
    · rw [Mem.load_congr (e.mono (by omega) (by omega)), hp]
    · rw [Mem.load_congr (e.mono (by omega) (by omega))]
      exact ihl hl fun b hb => he b (by simp [hb])
    · rw [Mem.load_congr (e.mono (by omega) (by omega))]
      exact ihr hr fun b hb => he b (by simp [hb])

theorem TreeAt.reparent {par' : Nat} (h : TreeAt m (node l a s r) ptr par) (hp : m'.load (a + 24) 8 = par')
    (ha : Mem.EqOn m m' (a + 4) 20) (hl : ∀ b ∈ l.items, Mem.EqOn m m' (b + 4) 28)
    (hr : ∀ b ∈ r.items, Mem.EqOn m m' (b + 4) 28) : TreeAt m' (node l a s r) ptr par' := by
  obtain ⟨rfl, h0, hs, -, tl, tr⟩ := h
  refine ⟨rfl, h0, ?_, hp, ?_, ?_⟩
  · rw [Mem.load_congr (ha.mono (by omega) (by omega)), hs]
  · rw [Mem.load_congr (ha.mono (by omega) (by omega))]
    exact tl.congr hl
  · rw [Mem.load_congr (ha.mono (by omega) (by omega))]
    exact tr.congr hr

/-- A tree whose topmost node was given another parent and whose other nodes were not written. -/
theorem TreeAt.reparent_of {par' : Nat} (ht : TreeAt m t ptr par) (hap : Apart t.items)
    (hp : ptr ≠ 0 → m'.load (ptr + 24) 8 = par')
    (he : ∀ x k, (∃ a ∈ t.items, a + 4 ≤ x ∧ x + k ≤ a + 32) → (x + k ≤ ptr + 24 ∨ ptr + 32 ≤ x) → Mem.EqOn m m' x k) : TreeAt m' t ptr par' := by
  cases t with
  | leaf => exact ht
  | node l a s r =>
    have hptr := ht.1
    subst hptr
    obtain ⟨-, -, fl, fr, -⟩ := apart_node hap
    refine ht.reparent (hp ht.2.1) (he _ _ ⟨ptr, by simp, by omega, by omega⟩ (by omega)) (fun b hb => ?_) fun b hb => ?_
    · have := fl b hb
      unfold Far at this
      exact he _ _ ⟨b, mem_items_left hb, by omega, by omega⟩ (by omega)
    · have := fr b hb
      unfold Far at this
      exact he _ _ ⟨b, mem_items_right hb, by omega, by omega⟩ (by omega)

/-- `put c` is the node `a` with the tree `c` behind its link at `off` and `o` on the other side. -/
inductive Below (a s : Nat) (o : SizeTree Nat) : Nat → (SizeTree Nat → SizeTree Nat) → Prop
  | left : Below a s o 8 fun c => node c a s o
  | right : Below a s o 16 fun c => node o a s c

variable {o c c' : SizeTree Nat} {off : Nat} {put : SizeTree Nat → SizeTree Nat}

theorem Below.off_eq (B : Below a s o off put) : off = 8 ∨ off = 16 := by cases B <;> simp

theorem Below.child (B : Below a s o off put) (h : TreeAt m (put c) ptr par) : TreeAt m c (m.load (a + off) 8) a := by
  cases B with
  | left => exact h.2.2.2.2.1
  | right => exact h.2.2.2.2.2

theorem Below.mem_self (B : Below a s o off put) : a ∈ (put c).items := by cases B <;> simp

theorem Below.mem_of (B : Below a s o off put) (h : b ∈ c.items ∨ b ∈ o.items) : b ∈ (put c).items := by
  cases B <;> rcases h with h | h <;> simp [h]

theorem Below.far (B : Below a s o off put) (h : Apart (put c).items) :
    (∀ x ∈ c.items, Far a x) ∧ ∀ y ∈ o.items, Far a y ∧ ∀ x ∈ c.items, Far y x := by
  cases B with
  | left =>
    obtain ⟨-, -, fl, fr, flr⟩ := apart_node h
    exact ⟨fun x hx => (fl x hx).symm, fun y hy => ⟨fr y hy, fun x hx => (flr x hx y hy).symm⟩⟩
  | right =>
    obtain ⟨-, -, fl, fr, flr⟩ := apart_node h
    exact ⟨fr, fun y hy => ⟨(fl y hy).symm, flr y hy⟩⟩

/-- Another tree behind one link of a node, of which only that link has been written. -/
theorem TreeAt.graft (B : Below a s o off put) (h : TreeAt m (put c) ptr par)
    (ha : ∀ x k, a + 4 ≤ x ∧ x + k ≤ a + 32 → x + k ≤ a + off ∨ a + off + 8 ≤ x → Mem.EqOn m m' x k)
    (ho : ∀ b ∈ o.items, Mem.EqOn m m' (b + 4) 28) (hc : TreeAt m' c' (m'.load (a + off) 8) a) : TreeAt m' (put c') ptr par := by
  have hload : ∀ x k, a + 4 ≤ x ∧ x + k ≤ a + 32 → x + k ≤ a + off ∨ a + off + 8 ≤ x → m'.load x k = m.load x k :=
    fun x k h1 h2 => Mem.load_congr (ha x k h1 h2)
  cases B with
  | left =>
    obtain ⟨hptr, h0, hs, hpar, -, ht⟩ := h
    refine ⟨hptr, h0, (hload _ _ (by omega) (by omega)).trans hs, (hload _ _ (by omega) (by omega)).trans hpar, hc, ?_⟩
    rw [hload _ _ (by omega) (by omega)]
    exact ht.congr ho
  | right =>
    obtain ⟨hptr, h0, hs, hpar, ht, -⟩ := h
    refine ⟨hptr, h0, (hload _ _ (by omega) (by omega)).trans hs, (hload _ _ (by omega) (by omega)).trans hpar, ?_, hc⟩
    rw [hload _ _ (by omega) (by omega)]
    exact ht.congr ho

end TreeAt

/-! ## Removing a node -/

/-- The tree `t` is the one in `slot`, a link of `g`: what `remove_tree_node` checks about the nodes it meets. -/
structure Hangs (h : GcHeap) (t : SizeTree Nat) (g slot : Nat) : Prop where
  tree : TreeAt h.mem t (h.mem.load slot 8) g
  slot_eq : slot = g + 16 ∨ (slot = g + 8 ∧ h.mem.load (g + 16) 8 ∉ t.items)
  parent_ne : g ≠ 0
  parent_in : g = h.kfcTreeRoot ∨ hmuIsInHeap h g
  items_in : ∀ a ∈ t.items, hmuIsInHeap h a
  not_root : h.kfcTreeRoot ∉ t.items
  apart : Apart t.items
  parent_far : ∀ a ∈ t.items, Far g a

section Remove
variable {h : GcHeap} {t l r : SizeTree Nat} {g slot p s fuel : Nat}
variable {b k c cs q x y a : Nat} {m : Mem}

theorem Hangs.left (H : Hangs h (node l p s r) g slot) : Hangs h l p (p + 8) := by
  obtain ⟨-, h0, -, -, hl, hr⟩ := H.tree
  obtain ⟨al, -, fl, -, flr⟩ := apart_node H.apart
  refine ⟨hl, .inr ⟨rfl, fun hm => ?_⟩, h0, .inr (H.items_in p (by simp)), fun a ha => H.items_in a (by simp [ha]),
    fun hm => H.not_root (by simp [hm]), al, fun a ha => (fl a ha).symm⟩
  -- the right child is no node of the left side
  by_cases hz : h.mem.load (p + 16) 8 = 0
  · exact hl.zero_not_mem (hz ▸ hm)
  · exact (flr _ hm _ (hr.ptr_mem hz)).ne rfl

theorem Hangs.right (H : Hangs h (node l p s r) g slot) : Hangs h r p (p + 16) := by
  obtain ⟨-, h0, -, -, -, hr⟩ := H.tree
  obtain ⟨-, ar, -, fr, -⟩ := apart_node H.apart
  exact ⟨hr, .inl rfl, h0, .inr (H.items_in p (by simp)), fun a ha => H.items_in a (by simp [ha]),
    fun hm => H.not_root (by simp [hm]), ar, fr⟩

/-- The checks of `remove_tree_node` pass on a node of the tree, and it works on the slot of the node. -/
theorem Hangs.removeTreeNode_eq (H : Hangs h (node l p s r) g slot) :
    removeTreeNode (fuel + 1) h p = removeAtSlot (removeTreeNode fuel) h p slot := by
  obtain ⟨hp, h0, -, hpar, -, -⟩ := H.tree
  have hpar : h.parent p = g := hpar
  have hroot : p ≠ h.kfcTreeRoot := fun he => H.not_root (by simp [← he])
  have hchk : ¬(g = 0 ∨ p = h.kfcTreeRoot ∨ ¬hmuIsInHeap h p ∨ (g ≠ h.kfcTreeRoot ∧ ¬hmuIsInHeap h g)) := by
    rintro (h1 | h1 | h1 | ⟨h1, h2⟩)
    · exact H.parent_ne h1
    · exact hroot h1
    · exact h1 (H.items_in p (by simp))
    · exact H.parent_in.elim h1 h2
  simp only [removeTreeNode, hpar, if_neg hchk]
  rcases H.slot_eq with rfl | ⟨rfl, hr⟩
  · rw [if_pos (show p = h.right g from hp.symm)]
  · have hne : p ≠ h.right g := fun he => hr (by rw [show h.mem.load (g + 16) 8 = p from he.symm]; simp)
    rw [if_neg hne, if_pos (show p = h.left g from hp.symm)]

/-- What removing the node `p` on top of the tree in `slot` leaves: the tree `t'` in the slot, and only links written. -/
def RemovedTop (h : GcHeap) (p : Nat) (xs : List Nat) (g slot fuel : Nat) (t' : SizeTree Nat) : Prop :=
  ∃ m', removeTreeNode fuel h p = some (true, { h with mem := m' }) ∧ TreeAt m' t' (m'.load slot 8) g ∧
    LinksOnly slot xs h.mem m'

theorem eqOn_clearLinks {h : GcHeap} (hd : b + k ≤ p + 8 ∨ p + 32 ≤ b) : Mem.EqOn h.mem (h.clearLinks p).mem b k :=
  ((Mem.eqOn_store (by omega)).store (by omega)).store (by omega)

theorem Hangs.removeTreeNode_leaf (H : Hangs h (node leaf p s leaf) g slot) : RemovedTop h p [p] g slot (fuel + 1) leaf := by
  obtain ⟨hp, h0, -, hpar, hl, hr⟩ := H.tree
  have hf := H.parent_far p (by simp)
  have hsl : slot = g + 16 ∨ slot = g + 8 := H.slot_eq.imp_right And.left
  unfold Far at hf
  refine ⟨((h.setPtr slot 0).clearLinks p).mem, ?_, ?_, ?_⟩
  · have hr' : (h.setPtr slot 0).right p = 0 := by
      show (h.mem.store slot 8 0).load (p + 16) 8 = 0
      rw [Mem.load_store_of_disjoint (by omega)]
      exact hr
    rw [H.removeTreeNode_eq, removeAtSlot, if_pos (show h.left p = 0 from hl), show h.right p = 0 from hr]
    simp only [hr', if_true]
    rfl
  · show (GcHeap.clearLinks _ p).mem.load slot 8 = 0
    rw [Mem.load_congr (eqOn_clearLinks (by omega))]
    exact Mem.load_store _ _ _ _
  intro x hx hxs
  have := hxs p (by simp)
  rw [eqOn_clearLinks (b := x) (k := 1) (by omega) x (by omega) (by omega)]
  exact Mem.store_of_not hx

/-- The memory after the child `c` of `p` has been moved up into the slot of `p`. -/
def moveUp (h : GcHeap) (p slot c g : Nat) : GcHeap := ((h.setPtr slot c).setParent c g).clearLinks p

theorem treeAt_moveUp {cl cr : SizeTree Nat} (hc : TreeAt h.mem (node cl c cs cr) c p)
    (hsl : slot = g + 16 ∨ slot = g + 8) (hgp : Far g p) (hg : ∀ a ∈ (node cl c cs cr).items, Far g a)
    (hp : ∀ a ∈ (node cl c cs cr).items, Far p a) (hap : Apart (node cl c cs cr).items) (hg64 : g < 256 ^ 8) (hc64 : c < 256 ^ 8) :
    TreeAt (moveUp h p slot c g).mem (node cl c cs cr) ((moveUp h p slot c g).mem.load slot 8) g ∧
      LinksOnly slot (p :: (node cl c cs cr).items) h.mem (moveUp h p slot c g).mem := by
  have hgc := hg c (by simp)
  have hpc := hp c (by simp)
  simp only [Far] at *
  have hslot : (moveUp h p slot c g).mem.load slot 8 = c := by
    rw [moveUp, Mem.load_congr (eqOn_clearLinks (by omega))]
    show ((h.mem.store slot 8 c).store (c + 24) 8 g).load slot 8 = c
    rw [Mem.load_store_of_disjoint (by omega), Mem.load_store_of_lt hc64]
  have hpar : (moveUp h p slot c g).mem.load (c + 24) 8 = g := by
    rw [moveUp, Mem.load_congr (eqOn_clearLinks (by omega))]
    exact Mem.load_store_of_lt hg64
  have hother : ∀ b k, (b + k ≤ slot ∨ slot + 8 ≤ b) → (b + k ≤ c + 24 ∨ c + 32 ≤ b) → (b + k ≤ p + 8 ∨ p + 32 ≤ b) →
      Mem.EqOn h.mem (moveUp h p slot c g).mem b k := fun b k h1 h2 h3 =>
    ((Mem.eqOn_store h1).store h2).trans (eqOn_clearLinks h3)
  refine ⟨?_, ?_⟩
  · rw [hslot]
    refine hc.reparent_of hap (fun _ => hpar) fun b k ⟨a, ha, h1, h2⟩ h3 => ?_
    have hga := hg a ha
    have hpa := hp a ha
    exact hother _ _ (by omega) h3 (by omega)
  intro x hx hxs
  have h1 := hxs p (by simp)
  have h2 := hxs c (by simp)
  exact hother x 1 (by omega) (by omega) (by omega) x (by omega) (by omega)

theorem Hangs.slot_or (H : Hangs h t g slot) : slot = g + 16 ∨ slot = g + 8 := H.slot_eq.imp_right And.left

/-- A link of a node that is far from the node whose slot is written keeps its value. -/
theorem load_setPtr_of_far {v : Nat} (hsl : slot = g + 16 ∨ slot = g + 8) (hf : Far g b) (hk : b ≤ k)
    (hk' : k + 8 ≤ b + 32) : (h.setPtr slot v).mem.load k 8 = h.mem.load k 8 := by
  unfold Far at hf
  exact Mem.load_store_of_disjoint (by omega)

section
variable (H : Hangs h (node l p s r) g slot)
include H

theorem hangs_far_left : ∀ a ∈ l.items, Far p a :=
  fun a ha => ((apart_node H.apart).2.2.1 a ha).symm

theorem hangs_far_right : ∀ a ∈ r.items, Far p a := (apart_node H.apart).2.2.2.1

/-- The only child of the topmost node is moved up. -/
theorem Hangs.removedTop_moveUp {cl cr : SizeTree Nat}
    (hc : TreeAt h.mem (node cl c cs cr) c p) (hsub : ∀ a ∈ (node cl c cs cr).items, a ∈ (node l p s r).items ∧ Far p a)
    (hap : Apart (node cl c cs cr).items) (hc64 : c < 256 ^ 8)
    (hrun : removeAtSlot (removeTreeNode fuel) h p slot = some (true, moveUp h p slot c g)) :
    RemovedTop h p (node l p s r).items g slot (fuel + 1) (node cl c cs cr) := by
  obtain ⟨-, -, -, hpar, -⟩ := H.tree
  have hg64 : g < 256 ^ 8 := by rw [← hpar]; exact Mem.load_lt _ _ _
  obtain ⟨h1, h2⟩ := treeAt_moveUp (h := h) hc H.slot_or (H.parent_far p (by simp)) (fun a ha => H.parent_far a (hsub a ha).1)
    (fun a ha => (hsub a ha).2) hap hg64 hc64
  refine ⟨(moveUp h p slot c g).mem, H.removeTreeNode_eq.trans hrun, h1, h2.mono fun a ha => ?_⟩
  rcases List.mem_cons.1 ha with rfl | ha
  · simp
  · exact (hsub a ha).1

theorem Hangs.parent_setPtr (c : Nat) : (h.setPtr slot c).parent p = g :=
  (load_setPtr_of_far H.slot_or (H.parent_far p (by simp)) (by omega) (by omega)).trans H.tree.2.2.2.1

end

theorem Hangs.removeTreeNode_right {rl rr : SizeTree Nat} (H : Hangs h (node leaf p s (node rl c cs rr)) g slot) :
    RemovedTop h p (node leaf p s (node rl c cs rr)).items g slot (fuel + 1) (node rl c cs rr) := by
  obtain ⟨-, -, -, -, hl, hr⟩ := H.tree
  have hcr : h.right p = c := hr.1
  have hright : (h.setPtr slot c).right p = c :=
    (load_setPtr_of_far H.slot_or (H.parent_far p (by simp)) (by omega) (by omega)).trans hcr
  have hin : hmuIsInHeap (h.setPtr slot c) c := H.items_in c (by simp)
  have hc0 : c ≠ 0 := hr.2.1
  rw [show h.mem.load (p + 16) 8 = c from hcr] at hr
  refine H.removedTop_moveUp hr (fun a ha => ⟨mem_items_right ha, hangs_far_right H a ha⟩) (apart_node H.apart).2.1
    (by rw [← hcr]; exact Mem.load_lt _ _ _) ?_
  rw [removeAtSlot, if_pos (show h.left p = 0 from hl), hcr]
  simp only [hright, H.parent_setPtr, if_neg hc0, if_neg (not_not.2 hin)]
  rfl

theorem Hangs.removeTreeNode_left {ll lr : SizeTree Nat} (H : Hangs h (node (node ll c cs lr) p s leaf) g slot) :
    RemovedTop h p (node (node ll c cs lr) p s leaf).items g slot (fuel + 1) (node ll c cs lr) := by
  obtain ⟨-, -, -, -, hl, hr⟩ := H.tree
  have hcl : h.left p = c := hl.1
  have hleft : (h.setPtr slot c).left p = c :=
    (load_setPtr_of_far H.slot_or (H.parent_far p (by simp)) (by omega) (by omega)).trans hcl
  have hin : hmuIsInHeap (h.setPtr slot c) c := H.items_in c (by simp)
  have hc0 : c ≠ 0 := hl.2.1
  rw [show h.mem.load (p + 8) 8 = c from hcl] at hl
  refine H.removedTop_moveUp hl (fun a ha => ⟨mem_items_left ha, hangs_far_left H a ha⟩) (apart_node H.apart).1
    (by rw [← hcl]; exact Mem.load_lt _ _ _) ?_
  rw [removeAtSlot, hcl, if_neg hc0, if_pos (show h.right p = 0 from hr)]
  simp only [hleft, H.parent_setPtr, if_neg (not_not.2 hin)]
  rfl

theorem rightmost_spec {fuel : Nat} (ht : TreeAt h.mem (node l p s r) p g)
    (hin : ∀ a ∈ (node l p s r).items, hmuIsInHeap h a) (hf : r.items.length < fuel) : rightmost h fuel p = some (some (popMax l p s r).1.1) := by
  induction r generalizing l p s g fuel with
  | leaf =>
    obtain ⟨-, -, -, -, -, hr⟩ := ht
    obtain ⟨fuel, rfl⟩ := Nat.exists_eq_succ_of_ne_zero (Nat.ne_zero_of_lt hf)
    rw [rightmost, if_pos (show h.right p = 0 from hr), popMax]
  | node rl b t rr _ ih =>
    obtain ⟨-, -, -, -, -, hr⟩ := ht
    obtain ⟨fuel, rfl⟩ := Nat.exists_eq_succ_of_ne_zero (Nat.ne_zero_of_lt hf)
    have hb : h.right p = b := hr.1
    have hb0 : b ≠ 0 := hr.2.1
    rw [rightmost, hb, if_neg hb0, if_neg (not_not.2 (hin b (by simp))), popMax]
    rw [show h.mem.load (p + 16) 8 = b from hb] at hr
    refine ih hr (fun a ha => hin a (mem_items_right ha)) ?_
    simp only [items_node, List.length_append, List.length_cons] at hf
    omega

/-- What removing a node leaves of a tree is what it leaves of the one above it, with that tree in its place. -/
theorem Hangs.lift {o c c' : SizeTree Nat} {off : Nat} {put : SizeTree Nat → SizeTree Nat} (B : Below p s o off put) (H : Hangs h (put c) g slot)
    (R : RemovedTop h q c.items p (p + off) fuel c') : RemovedTop h q (put c).items g slot fuel (put c') := by
  obtain ⟨m', hm, ht, hlo⟩ := R
  obtain ⟨fc, fo⟩ := B.far H.apart
  have hgp := H.parent_far p B.mem_self
  have hsl := H.slot_or
  have hoff := B.off_eq
  unfold Far at hgp
  have hslot := hlo.eqOn_far (a := slot) (n := 8) (fun a ha => H.parent_far a (B.mem_of (.inl ha))) (by omega) (by omega)
  refine ⟨m', hm, ?_, fun x hx hxs => ?_⟩
  · rw [Mem.load_congr hslot]
    refine H.tree.graft B (fun x k h1 h2 => hlo.eqOn_far fc h2 (by omega)) (fun b hb => ?_) ht
    have := (fo b hb).1
    unfold Far at this
    exact hlo.eqOn_far (fo b hb).2 (by omega) (by omega)
  · have h1 := hxs p B.mem_self
    exact hlo x (by omega) fun a ha => hxs a (B.mem_of (.inl ha))

/-- Removing the rightmost node of the tree in a slot leaves the tree without it there. -/
theorem Hangs.removeTreeNode_max (H : Hangs h (node l p s r) g slot) :
    RemovedTop h (popMax l p s r).1.1 (node l p s r).items g slot (fuel + 1) (popMax l p s r).2 := by
  induction r generalizing l p s g slot with
  | leaf =>
    cases l with
    | leaf => exact H.removeTreeNode_leaf
    | node ll c cs lr => exact H.removeTreeNode_left
  | node rl b t rr _ ih =>
    exact H.lift .right (ih H.right)

/-- The memory that `replaceByPred` leaves; `x` and `y` are the children that `p` had. -/
def predMem (m : Mem) (p slot q g x y : Nat) : Mem :=
  let m₁ := (((m.store slot 8 q).store (q + 24) 8 g).store (q + 8) 8 x).store (q + 16) 8 y
  let m₂ := if x = 0 then m₁ else m₁.store (x + 24) 8 q
  (((m₂.store (y + 24) 8 q).store (p + 24) 8 0).store (p + 16) 8 0).store (p + 8) 8 0

theorem eqOn_predMem_tail (h3 : x = 0 ∨ b + k ≤ x + 24 ∨ x + 32 ≤ b) (h4 : b + k ≤ y + 24 ∨ y + 32 ≤ b) (h5 : b + k ≤ p + 8 ∨ p + 32 ≤ b) :
    Mem.EqOn m (((((if x = 0 then m else m.store (x + 24) 8 q).store (y + 24) 8 q).store (p + 24) 8 0).store (p + 16) 8
      0).store (p + 8) 8 0) b k := by
  split
  · exact (((Mem.eqOn_store h4).store (by omega)).store (by omega)).store (by omega)
  · rename_i hx
    exact ((((Mem.eqOn_store (h3.resolve_left hx)).store h4).store (by omega)).store (by omega)).store (by omega)

theorem eqOn_predMem (h1 : b + k ≤ slot ∨ slot + 8 ≤ b) (h2 : b + k ≤ q + 8 ∨ q + 32 ≤ b)
    (h3 : x = 0 ∨ b + k ≤ x + 24 ∨ x + 32 ≤ b) (h4 : b + k ≤ y + 24 ∨ y + 32 ≤ b) (h5 : b + k ≤ p + 8 ∨ p + 32 ≤ b) :
    Mem.EqOn m (predMem m p slot q g x y) b k :=
  ((((Mem.eqOn_store h1).store (by omega)).store (by omega)).store (by omega)).trans (eqOn_predMem_tail h3 h4 h5)

/-- `replaceByPred` runs through when the children are in the heap, and leaves `predMem`. -/
theorem replaceByPred_eq (hsl : slot = g + 16 ∨ slot = g + 8) (hgp : Far g p) (hgq : Far g q)
    (hpq : Far p q) (hpar : h.parent p = g) (hx : h.left p = x) (hy : h.right p = y) (hx' : x ≠ 0 → hmuIsInHeap h x)
    (hqx : x ≠ 0 → Far q x) (hy0 : y ≠ 0) (hy' : hmuIsInHeap h y) :
    replaceByPred h p slot q = (true, { h with mem := predMem h.mem p slot q g x y }) := by
  have hx64 : x < 256 ^ 8 := by rw [← hx]; exact Mem.load_lt _ _ _
  have hy64 : y < 256 ^ 8 := by rw [← hy]; exact Mem.load_lt _ _ _
  unfold Far at hgp hgq hpq hqx
  have e1 : (h.setPtr slot q).parent p = g := by
    rw [← hpar]
    exact Mem.load_store_of_disjoint (by omega)
  have e2 : ((h.setPtr slot q).setParent q g).left p = x := by
    rw [← hx]
    exact Mem.load_congr ((Mem.eqOn_store (by omega)).store (by omega))
  have e3 : (((h.setPtr slot q).setParent q g).setLeft q x).right p = y := by
    rw [← hy]
    exact Mem.load_congr (((Mem.eqOn_store (by omega)).store (by omega)).store (by omega))
  have e4 : ((((h.setPtr slot q).setParent q g).setLeft q x).setRight q y).left q = x :=
    (Mem.load_store_of_disjoint (by omega)).trans (Mem.load_store_of_lt hx64)
  have e5 : ((((h.setPtr slot q).setParent q g).setLeft q x).setRight q y).right q = y := Mem.load_store_of_lt hy64
  simp only [replaceByPred, e1, e2, e3, e4]
  by_cases hx0 : x = 0
  · subst hx0
    simp only [ne_eq, not_true_eq_false, false_and, if_false, e5]
    rw [if_neg (fun hc => hc.2 hy'), if_pos hy0]
    rfl
  have e6 : (((((h.setPtr slot q).setParent q g).setLeft q x).setRight q y).setParent x q).right q = y := by
    refine Eq.trans (Mem.load_store_of_disjoint ?_) e5
    have := hqx hx0
    omega
  rw [if_neg (fun hc => hc.2 (hx' hx0)), if_pos hx0, e6, if_neg (fun hc => hc.2 hy'), if_pos hy0]
  simp only [predMem, hx0, if_false]
  rfl

/-- `predMem` writes to no node far from the ones it links, but for the parents of the two children. -/
theorem eqOn_predMem_of_far (hsl : slot = g + 16 ∨ slot = g + 8) (hg : Far g a) (hp : Far p a)
    (hq : Far q a) (h1 : a ≤ b) (h2 : b + k ≤ a + 32) (h3 : x = 0 ∨ b + k ≤ x + 24 ∨ x + 32 ≤ b)
    (h4 : b + k ≤ y + 24 ∨ y + 32 ≤ b) : Mem.EqOn m (predMem m p slot q g x y) b k := by
  unfold Far at hg hp hq
  exact eqOn_predMem (by omega) (by omega) h3 h4 (by omega)

section PredMem
variable {m : Mem} {q x y : Nat}

theorem load_predMem (hsl : slot = g + 16 ∨ slot = g + 8) (hgp : Far g p) (hgq : Far g q) (hpq : Far p q)
    (hx : x = 0 ∨ (Far g x ∧ Far q x)) (hgy : Far g y) (hqy : Far q y) (hq64 : q < 256 ^ 8) (hg64 : g < 256 ^ 8)
    (hx64 : x < 256 ^ 8) (hy64 : y < 256 ^ 8) : (predMem m p slot q g x y).load slot 8 = q ∧ (predMem m p slot q g x y).load (q + 24) 8 = g ∧
      (predMem m p slot q g x y).load (q + 8) 8 = x ∧ (predMem m p slot q g x y).load (q + 16) 8 = y := by
  simp only [Far] at hgp hgq hpq hx hgy hqy
  refine ⟨?_, ?_, ?_, ?_⟩
  all_goals refine (Mem.load_congr (eqOn_predMem_tail (by omega) (by omega) (by omega))).trans ?_
  · rw [Mem.load_store_of_disjoint (by omega), Mem.load_store_of_disjoint (by omega),
      Mem.load_store_of_disjoint (by omega), Mem.load_store_of_lt hq64]
  · rw [Mem.load_store_of_disjoint (by omega), Mem.load_store_of_disjoint (by omega), Mem.load_store_of_lt hg64]
  · rw [Mem.load_store_of_disjoint (by omega), Mem.load_store_of_lt hx64]
  · rw [Mem.load_store_of_lt hy64]

theorem load_predMem_parent (hpx : x ≠ 0 → Far p x) (hpy : Far p y) (hxy : x ≠ 0 → Far x y) (hq64 : q < 256 ^ 8) :
    (x ≠ 0 → (predMem m p slot q g x y).load (x + 24) 8 = q) ∧ (predMem m p slot q g x y).load (y + 24) 8 = q := by
  unfold Far at hpy
  constructor
  · intro hx0
    have h1 := hpx hx0
    have h2 := hxy hx0
    unfold Far at h1 h2
    unfold predMem
    rw [Mem.load_congr (Mem.EqOn.store (Mem.EqOn.store (Mem.eqOn_store (by omega)) (by omega)) (by omega)),
      Mem.load_store_of_disjoint (by omega), if_neg hx0, Mem.load_store_of_lt hq64]
  · unfold predMem
    rw [Mem.load_congr (Mem.EqOn.store (Mem.EqOn.store (Mem.eqOn_store (by omega)) (by omega)) (by omega)),
      Mem.load_store_of_lt hq64]

theorem linksOnly_predMem (hl : TreeAt m l x p) (hr : TreeAt m r y p) (hy0 : y ≠ 0) :
    LinksOnly slot (p :: q :: (l.items ++ r.items)) m (predMem m p slot q g x y) := by
  intro b hb hbs
  have f1 := hbs p (by simp)
  have f2 := hbs q (by simp)
  have f3 := hbs y (by simp [hr.ptr_mem hy0])
  have f4 : x = 0 ∨ ¬(x + 8 ≤ b ∧ b < x + 32) := by
    by_cases hx0 : x = 0
    · exact .inl hx0
    · exact .inr (hbs x (by simp [hl.ptr_mem hx0]))
  exact eqOn_predMem (b := b) (k := 1) (by omega) (by omega) (by omega) (by omega) (by omega) b (by omega) (by omega)

theorem treeAt_predMem {sq : Nat} (hsl : slot = g + 16 ∨ slot = g + 8)
    (hap : Apart (p :: q :: (l.items ++ r.items))) (hg : ∀ a ∈ p :: q :: (l.items ++ r.items), Far g a)
    (hl : TreeAt m l x p) (hr : TreeAt m r y p) (hy0 : y ≠ 0) (hs : m.load (q + 4) 4 = sq) (hq0 : q ≠ 0)
    (hq64 : q < 256 ^ 8) (hg64 : g < 256 ^ 8) (hx64 : x < 256 ^ 8) (hy64 : y < 256 ^ 8) :
    TreeAt (predMem m p slot q g x y) (node l q sq r) ((predMem m p slot q g x y).load slot 8) g := by
  obtain ⟨hp, hap⟩ := List.pairwise_cons.1 hap
  obtain ⟨hq, hap⟩ := List.pairwise_cons.1 hap
  obtain ⟨al, ar, hlr⟩ := List.pairwise_append.1 hap
  have hym := hr.ptr_mem hy0
  have hxm : x ≠ 0 → x ∈ l.items := hl.ptr_mem
  have hxg : x = 0 ∨ (Far g x ∧ Far q x) := by
    by_cases hx0 : x = 0
    · exact .inl hx0
    · exact .inr ⟨hg x (by simp [hxm hx0]), hq x (by simp [hxm hx0])⟩
  obtain ⟨hslot, hq24, hq8, hq16⟩ := load_predMem (m := m) hsl (hg p (by simp)) (hg q (by simp)) (hp q (by simp)) hxg
    (hg y (by simp [hym])) (hq y (by simp [hym])) hq64 hg64 hx64 hy64
  obtain ⟨hxp, hyp⟩ := @load_predMem_parent _ _ _ m q x y (fun h0 => hp x (by simp [hxm h0]))
    (hp y (by simp [hym])) (fun h0 => hlr x (hxm h0) y hym) hq64
  rw [hslot]
  refine ⟨rfl, hq0, ?_, hq24, ?_, ?_⟩
  · have hgq := hg q (by simp)
    have hpq := hp q (by simp)
    have hqy := hq y (by simp [hym])
    simp only [Far] at hgq hpq hqy hxg
    rw [Mem.load_congr (eqOn_predMem (by omega) (by omega) (by omega) (by omega) (by omega)), hs]
  · rw [hq8]
    refine hl.reparent_of al hxp fun b k ⟨a, ha, h1, h2⟩ h3 => ?_
    have f4 := hlr a ha y hym
    exact eqOn_predMem_of_far hsl (hg a (by simp [ha])) (hp a (by simp [ha])) (hq a (by simp [ha])) (by omega) h2
      (.inr h3) (by unfold Far at f4; omega)
  rw [hq16]
  refine hr.reparent_of ar (fun _ => hyp) fun b k ⟨a, ha, h1, h2⟩ h3 => ?_
  have f4 : x = 0 ∨ Far x a := by
    by_cases hx0 : x = 0
    · exact .inl hx0
    · exact .inr (hlr x (hxm hx0) a ha)
  exact eqOn_predMem_of_far hsl (hg a (by simp [ha])) (hp a (by simp [ha])) (hq a (by simp [ha])) (by omega) h2
    (by simp only [Far] at f4; omega) h3

end PredMem

theorem TreeAt.size_of_mem {ptr par n : Nat} (ht : TreeAt m t ptr par) (ha : (a, n) ∈ t.entries) : m.load (a + 4) 4 = n ∧ a ≠ 0 := by
  induction t generalizing ptr par with
  | leaf => cases ha
  | node l b s r ihl ihr =>
    obtain ⟨-, h0, hs, -, hl, hr⟩ := ht
    simp only [entries_node, List.mem_append, List.mem_cons, Prod.mk.injEq] at ha
    rcases ha with ha | ⟨rfl, rfl⟩ | ha
    · exact ihl hl ha
    · exact ⟨hs, h0⟩
    · exact ihr hr ha

theorem items_popMax (l : SizeTree Nat) (a s : Nat) (r : SizeTree Nat) :
    (popMax l a s r).2.items ++ [(popMax l a s r).1.1] = (node l a s r).items := by
  have := congrArg (List.map Prod.fst) (entries_popMax l a s r)
  simpa [items] using this

theorem Hangs.removeTreeNode_both {ll lr rl rr : SizeTree Nat} {ls t : Nat} (H : Hangs h (node (node ll a ls lr) p s (node rl b t rr)) g slot)
    (hf : (node (node ll a ls lr) p s (node rl b t rr)).items.length ≤ h.currentSize) (h64 : h.baseAddr + h.currentSize ≤ 256 ^ 8) :
    RemovedTop h p (node (node ll a ls lr) p s (node rl b t rr)).items g slot (fuel + 2) (join (node ll a ls lr) (node rl b t rr)) := by
  obtain ⟨-, h0, -, hpar, hl, hr⟩ := H.tree
  obtain ⟨al, ar, fl, fr, flr⟩ := apart_node H.apart
  have ha : h.left p = a := hl.1
  have ha0 : a ≠ 0 := hl.2.1
  have hb : h.right p = b := hr.1
  have hb0 : b ≠ 0 := hr.2.1
  have hla : TreeAt h.mem (node ll a ls lr) a p := by
    rw [show h.mem.load (p + 8) 8 = a from ha] at hl
    exact hl
  have hrm : rightmost h h.currentSize a = some (some (popMax ll a ls lr).1.1) :=
    rightmost_spec hla (fun x hx => H.items_in x (mem_items_left hx)) (by
      simp only [items_node, List.length_append, List.length_cons] at hf
      omega)
  have hgp := H.parent_far p (by simp)
  -- the predecessor q is taken out of the left side, which leaves l'
  have hmax : RemovedTop h _ _ p (p + 8) (fuel + 1) _ := H.left.removeTreeNode_max
  obtain ⟨m', hm, ht, hlo⟩ := hmax
  have hitems := items_popMax ll a ls lr
  have hentry := entries_popMax ll a ls lr
  rw [join]
  generalize popMax ll a ls lr = pm at hrm hm ht hitems hentry ⊢
  obtain ⟨⟨q, sq⟩, l'⟩ := pm
  simp only at hrm hm ht hitems hentry ⊢
  have hql : q ∈ (node ll a ls lr).items := by rw [← hitems]; simp
  have hl'l : ∀ x ∈ l'.items, x ∈ (node ll a ls lr).items := fun x hx => by rw [← hitems]; simp [hx]
  obtain ⟨hsq, hq0⟩ := hl.size_of_mem (a := q) (n := sq) (by rw [entries_node, ← hentry]; simp)
  have hl'q : ∀ x ∈ l'.items, Far x q := fun x hx => by
    rw [← hitems] at al
    exact (List.pairwise_append.1 al).2.2 x hx q (by simp)
  have al' : Apart l'.items := by
    rw [← hitems] at al
    exact (List.pairwise_append.1 al).1
  -- that wrote nothing of p but its left link, nothing of the right side, and not the size of q
  have hpar' : m'.load (p + 24) 8 = g := (Mem.load_congr (hlo.eqOn_far (hangs_far_left H) (by omega) (by omega))).trans hpar
  have hb' : m'.load (p + 16) 8 = b := (Mem.load_congr (hlo.eqOn_far (hangs_far_left H) (by omega) (by omega))).trans hb
  have hr' : TreeAt m' (node rl b t rr) b p := by
    rw [show h.mem.load (p + 16) 8 = b from hb] at hr
    refine hr.congr fun x hx => ?_
    have := fr x hx
    unfold Far at this
    exact hlo.eqOn_far (fun c hc => (flr c hc x hx).symm) (by omega) (by omega)
  have hsq' : m'.load (q + 4) 4 = sq := by
    rw [← hsq]
    refine Mem.load_congr (hlo.eqOn ?_ fun c hc => ?_)
    · have := fl q hql
      unfold Far at this
      omega
    by_cases hcq : c = q
    · omega
    have hcl : c ∈ l'.items := by
      rw [← hitems] at hc
      simpa [hcq] using hc
    have := hl'q c hcl
    unfold Far at this
    omega
  have hin : ∀ x, x ∈ (node ll a ls lr).items ∨ x ∈ (node rl b t rr).items → hmuIsInHeap h x := fun x hx =>
    H.items_in x (hx.elim mem_items_left mem_items_right)
  have hq64 : q < 256 ^ 8 := Nat.lt_of_lt_of_le (hin q (.inl hql)).2 h64
  have hg64 : g < 256 ^ 8 := by rw [← hpar]; exact Mem.load_lt _ _ _
  have hb64 : b < 256 ^ 8 := by rw [← hb]; exact Mem.load_lt _ _ _
  have hx64 : m'.load (p + 8) 8 < 256 ^ 8 := Mem.load_lt _ _ _
  generalize hx : m'.load (p + 8) 8 = x at ht hx64
  have hapart : Apart (p :: q :: (l'.items ++ (node rl b t rr).items)) := by
    refine List.pairwise_cons.2 ⟨fun c hc => ?_, List.pairwise_cons.2 ⟨fun c hc => ?_, List.pairwise_append.2 ⟨al', ar,
      fun c hc d hd => flr c (hl'l c hc) d hd⟩⟩⟩
    · rcases List.mem_cons.1 hc with rfl | hc
      · exact (fl c hql).symm
      · rcases List.mem_append.1 hc with hc | hc
        · exact (fl c (hl'l c hc)).symm
        · exact fr c hc
    · rcases List.mem_append.1 hc with hc | hc
      · exact (hl'q c hc).symm
      · exact flr q hql c hc
  have hgfar : ∀ c ∈ p :: q :: (l'.items ++ (node rl b t rr).items), Far g c := by
    intro c hc
    refine H.parent_far c ?_
    simp only [List.mem_cons, List.mem_append] at hc
    rcases hc with rfl | rfl | hc | hc
    · simp
    · exact mem_items_left hql
    · exact mem_items_left (hl'l c hc)
    · exact mem_items_right hc
  have hres := replaceByPred_eq (h := { h with mem := m' }) (q := q) (x := x) (y := b) H.slot_or hgp
    (hgfar q (by simp)) (fl q hql).symm hpar' hx hb' (fun h0 => hin x (.inl (hl'l x (ht.ptr_mem h0))))
    (fun h0 => (hl'q x (ht.ptr_mem h0)).symm) hb0 (hin b (.inr (by simp)))
  refine ⟨predMem m' p slot q g x b, ?_,
    treeAt_predMem H.slot_or hapart hgfar ht hr' hb0 hsq' hq0 hq64 hg64 hx64 hb64, ?_⟩
  · rw [H.removeTreeNode_eq, removeAtSlot, ha, hb, if_neg ha0, if_neg hb0, if_neg (not_not.2 (hin a (.inl (by simp)))),
      hrm]
    simp only [hm, hres]
  intro y hy hys
  have hp8 := hys p (by simp)
  rw [linksOnly_predMem (g := g) ht hr' hb0 y hy fun c hc => hys c ?_, hlo y (by omega) fun c hc => hys c (mem_items_left hc)]
  simp only [List.mem_cons, List.mem_append] at hc
  rcases hc with rfl | rfl | hc | hc
  · simp
  · exact mem_items_left hql
  · exact mem_items_left (hl'l c hc)
  · exact mem_items_right hc

/-- Removing the node on top of the tree in a slot joins its two sides there. -/
theorem Hangs.removeTreeNode_top (H : Hangs h (node l p s r) g slot) (hf : (node l p s r).items.length ≤ h.currentSize)
    (h64 : h.baseAddr + h.currentSize ≤ 256 ^ 8) : RemovedTop h p (node l p s r).items g slot (fuel + 2) (join l r) := by
  match l, r, H, hf with
  | leaf, leaf, H, _ => exact H.removeTreeNode_leaf
  | leaf, node rl b t rr, H, _ => exact H.removeTreeNode_right
  | node ll a ls lr, leaf, H, _ => exact H.removeTreeNode_left
  | node ll a ls lr, node rl b t rr, H, hf =>
    exact H.removeTreeNode_both hf h64

/-- `remove_tree_node` on a node of the tree in a slot erases it from the tree. -/
theorem Hangs.removeTreeNode_erase {q : Nat} (H : Hangs h t g slot) (hq : q ∈ t.items)
    (hf : t.items.length ≤ h.currentSize) (h64 : h.baseAddr + h.currentSize ≤ 256 ^ 8) : RemovedTop h q t.items g slot (fuel + 2) (t.erase q) := by
  induction t generalizing g slot with
  | leaf => cases hq
  | node l p s r ihl ihr =>
    have hlen : l.items.length ≤ h.currentSize ∧ r.items.length ≤ h.currentSize := by
      simp only [items_node, List.length_append, List.length_cons] at hf
      omega
    obtain ⟨-, -, fl, fr, flr⟩ := apart_node H.apart
    rw [erase]
    split
    · rename_i hpq
      subst hpq
      exact H.removeTreeNode_top hf h64
    rename_i hpq
    simp only [items_node, List.mem_append, List.mem_cons] at hq
    rcases hq with hq | hq | hq
    · rw [erase_of_not_mem (t := r) fun hr => (flr q hq q hr).ne rfl]
      exact H.lift .left (ihl H.left hq hlen.1)
    · exact absurd hq.symm hpq
    · rw [erase_of_not_mem (t := l) fun hl => (flr q hl q hq).ne rfl]
      exact H.lift .right (ihr H.right hq hlen.2)

end Remove

/-! ## Linking a node -/

section Link
variable {h : GcHeap} {m m' : Mem} {l r : SizeTree Nat} {a s par x n fuel : Nat}
variable {lnk c : Nat}

/-- A node that is not yet in the tree: its size is written and it has no children. -/
structure Fresh (m : Mem) (x n : Nat) : Prop where
  ne_zero : x ≠ 0
  lt : x < 256 ^ 8
  size_eq : m.load (x + 4) 4 = n
  left_eq : m.load (x + 8) 8 = 0
  right_eq : m.load (x + 16) 8 = 0

theorem Fresh.treeAt (hx : Fresh m x n) (he : Mem.EqOn m m' (x + 4) 20) (hp : m'.load (x + 24) 8 = a) : TreeAt m' (node leaf x n leaf) x a := by
  refine ⟨rfl, hx.ne_zero, ?_, hp, ?_, ?_⟩
  · rw [Mem.load_congr (he.mono (by omega) (by omega)), hx.size_eq]
  · exact (Mem.load_congr (he.mono (by omega) (by omega))).trans hx.left_eq
  · exact (Mem.load_congr (he.mono (by omega) (by omega))).trans hx.right_eq

/-- The memory with `x` linked into the pointer at `lnk`, a link of `a`. -/
def linkMem (m : Mem) (lnk a x : Nat) : Mem := (m.store lnk 8 x).store (x + 24) 8 a

theorem eqOn_linkMem {b k : Nat} (h1 : b + k ≤ lnk ∨ lnk + 8 ≤ b) (h2 : b + k ≤ x + 24 ∨ x + 32 ≤ b) : Mem.EqOn m (linkMem m lnk a x) b k :=
  (Mem.eqOn_store h1).store h2

theorem linksOnly_linkMem {xs : List Nat} (ha : a ∈ xs) (hl : lnk = a + 8 ∨ lnk = a + 16) : LinksOnly (x + 24) xs m (linkMem m lnk a x) := by
  intro y h1 h2
  have := h2 a ha
  exact eqOn_linkMem (b := y) (k := 1) (by omega) (by omega) y (by omega) (by omega)

/-- What linking the node `x` of size `n` into the tree at `ptr` leaves: the tree `t'`, and only links written. -/
def Linked (h : GcHeap) (x n fuel ptr par : Nat) (xs : List Nat) (t' : SizeTree Nat) : Prop :=
  ∃ m', linkTreeNode n x fuel h ptr = some (true, { h with mem := m' }) ∧ TreeAt m' t' ptr par ∧
    LinksOnly (x + 24) xs h.mem m'

theorem eqOn_linkMem_far {b : Nat} (hl : lnk = a + 8 ∨ lnk = a + 16) (ha : Far a b) (hx : Far x b) : Mem.EqOn m (linkMem m lnk a x) (b + 4) 28 := by
  unfold Far at ha hx
  exact eqOn_linkMem (by omega) (by omega)

/-- The node `x` is a tree of its own behind the link. -/
theorem Fresh.linked (hx : Fresh m x n) (ha : a < 256 ^ 8) (hxa : Far x a) (hl : lnk = a + 8 ∨ lnk = a + 16) :
    TreeAt (linkMem m lnk a x) (node leaf x n leaf) ((linkMem m lnk a x).load lnk 8) a := by
  unfold Far at hxa
  rw [show (linkMem m lnk a x).load lnk 8 = x from (Mem.load_store_of_disjoint (by omega)).trans (Mem.load_store_of_lt hx.lt)]
  exact hx.treeAt (eqOn_linkMem (by omega) (by omega)) (Mem.load_store_of_lt ha)

section
variable {o t t' : SizeTree Nat} {off : Nat} {put : SizeTree Nat → SizeTree Nat}
variable (B : Below a s o off put) (hside : off = if s < n then 16 else 8) (ht : TreeAt h.mem (put t) a par)
include B hside ht

theorem Below.next_eq : (if h.size a < n then h.right a else h.left a) = h.mem.load (a + off) 8 ∧
    (if h.size a < n then h.setRight a x else h.setLeft a x) = { h with mem := h.mem.store (a + off) 8 x } := by
  have hs : h.size a = s := by cases B <;> exact ht.2.2.1
  rw [hs, hside]
  split <;> exact ⟨rfl, rfl⟩

variable (hap : Apart (put t).items) (hfar : ∀ b ∈ (put t).items, Far x b)
include hap hfar

/-- The loop at a node without a child on the side of `x` links `x` there. -/
theorem Below.linked (hleaf : t = leaf) (hx : Fresh h.mem x n) (ha : a < 256 ^ 8) :
    Linked h x n (fuel + 1) a par (put t).items (put (node leaf x n leaf)) := by
  subst hleaf
  have hxa := hfar a B.mem_self
  have hoff := B.off_eq
  have hnew : TreeAt (linkMem h.mem (a + off) a x) _ _ a := hx.linked ha hxa (by omega)
  have hnext := B.next_eq (x := x) hside ht
  have h0 : h.mem.load (a + off) 8 = 0 := B.child ht
  unfold Far at hxa
  refine ⟨linkMem h.mem (a + off) a x, ?_, ht.graft B (fun y k h1 h2 => eqOn_linkMem h2 (by omega))
    (fun b hb => eqOn_linkMem_far (by omega) ((B.far hap).2 b hb).1 (hfar b (B.mem_of (.inr hb)))) hnew, linksOnly_linkMem B.mem_self (by omega)⟩
  rw [linkTreeNode, hnext.1, hnext.2, if_pos h0]
  rfl

theorem Below.insert (hx : Fresh h.mem x n) (ha : a < 256 ^ 8) (hin : ∀ b ∈ t.items, hmuIsInHeap h b)
    (ih : h.mem.load (a + off) 8 ≠ 0 → Linked h x n fuel (h.mem.load (a + off) 8) a t.items t') (hleaf : t = leaf → t' = node leaf x n leaf) :
    Linked h x n (fuel + 1) a par (put t).items (put t') := by
  by_cases hc0 : h.mem.load (a + off) 8 = 0
  · have ht0 := (B.child ht).ptr_eq_zero.1 hc0
    rw [hleaf ht0]
    exact B.linked hside ht hap hfar ht0 hx ha
  obtain ⟨m', hm, htr, hlo⟩ := ih hc0
  obtain ⟨ft, fo⟩ := B.far hap
  have hxa := hfar a B.mem_self
  have hoff := B.off_eq
  unfold Far at hxa
  have hkeep : Mem.EqOn h.mem m' a 32 := hlo.eqOn_far ft (by omega) (by omega)
  refine ⟨m', ?_, ht.graft B (fun y k h1 _ => hkeep.mono (by omega) (by omega)) (fun b hb => ?_) ?_, hlo.mono fun b hb => B.mem_of (.inl hb)⟩
  · rw [linkTreeNode, (B.next_eq (x := x) hside ht).1]
    simp only [if_neg hc0, if_neg (not_not.2 (hin _ ((B.child ht).ptr_mem hc0))), hm]
  · have := hfar b (B.mem_of (.inr hb))
    unfold Far at this
    exact hlo.eqOn_far (fo b hb).2 (by omega) (by omega)
  · rw [Mem.load_congr (hkeep.mono (by omega) (by omega))]
    exact htr

end

/-- The loop of `gci_add_fc` links `x` where `SizeTree.insert` puts it. -/
theorem linkTreeNode_insert {t : SizeTree Nat} {ptr : Nat} (ht : TreeAt h.mem t ptr par) (h0 : ptr ≠ 0)
    (hin : ∀ b ∈ t.items, b ≠ ptr → hmuIsInHeap h b) (hx : Fresh h.mem x n) (hlt : ∀ b ∈ t.items, b < 256 ^ 8)
    (hap : Apart t.items) (hfar : ∀ b ∈ t.items, Far x b) (hf : t.items.length ≤ fuel) : Linked h x n fuel ptr par t.items (t.insert x n) := by
  induction t generalizing ptr par fuel with
  | leaf => exact absurd ht h0
  | node l a s r ihl ihr =>
    have hpa := ht.1
    subst hpa
    have hlen : l.items.length + r.items.length + 1 ≤ fuel := by
      simp only [items_node, List.length_append, List.length_cons] at hf
      omega
    obtain ⟨fuel, rfl⟩ := Nat.exists_eq_succ_of_ne_zero (n := fuel) (by omega)
    obtain ⟨al, ar, fl, fr, -⟩ := apart_node hap
    have hinl : ∀ b ∈ l.items, hmuIsInHeap h b := fun b hb => hin b (mem_items_left hb) (fl b hb).ne
    have hinr : ∀ b ∈ r.items, hmuIsInHeap h b := fun b hb => hin b (mem_items_right hb) (fr b hb).ne.symm
    unfold SizeTree.insert
    split
    · rename_i hs
      refine Below.right.insert (if_pos hs).symm ht hap hfar hx (hlt ptr (by simp)) hinr (fun hc0 => ?_) (by rintro rfl; rfl)
      exact ihr ht.2.2.2.2.2 hc0 (fun b hb _ => hinr b hb) (fun b hb => hlt b (mem_items_right hb)) ar (fun b hb => hfar b (mem_items_right hb)) (by omega)
    · rename_i hs
      refine Below.left.insert (if_neg hs).symm ht hap hfar hx (hlt ptr (by simp)) hinl (fun hc0 => ?_) (by rintro rfl; rfl)
      exact ihl ht.2.2.2.2.1 hc0 (fun b hb _ => hinl b hb) (fun b hb => hlt b (mem_items_left hb)) al (fun b hb => hfar b (mem_items_left hb)) (by omega)

end Link

/-! ## Looking for a node -/

/-- The loop of `alloc_hmu` finds the node that `SizeTree.bestFit` finds. -/
theorem bestTreeNode_bestFit {h : GcHeap} {t : SizeTree Nat} {ptr par n fuel : Nat} {acc : Option (Nat × Nat)}
    (ht : TreeAt h.mem t ptr par) (hin : ∀ b ∈ t.items, hmuIsInHeap h b) (hf : t.items.length < fuel) :
    bestTreeNode h n fuel ptr ((acc.map (·.1)).getD 0) = some (some (((t.bestFit n acc).map (·.1)).getD 0)) := by
  induction t generalizing ptr par fuel acc with
  | leaf =>
    obtain ⟨fuel, rfl⟩ := Nat.exists_eq_succ_of_ne_zero (n := fuel) (by omega)
    rw [bestTreeNode, if_pos (show ptr = 0 from ht)]
    rfl
  | node l a s r ihl ihr =>
    obtain ⟨rfl, h0, hs, -, tl, tr⟩ := ht
    simp only [items_node, List.length_append, List.length_cons] at hf
    obtain ⟨fuel, rfl⟩ := Nat.exists_eq_succ_of_ne_zero (n := fuel) (by omega)
    rw [bestTreeNode, if_neg h0, if_neg (not_not.2 (hin ptr (by simp))), show h.size ptr = s from hs]
    unfold bestFit
    split
    · exact ihr tr (fun b hb => hin b (mem_items_right hb)) (by omega)
    · exact @ihl _ _ _ (some (ptr, s)) tl (fun b hb => hin b (mem_items_left hb)) (by omega)

end WamrMigrate.Ems
