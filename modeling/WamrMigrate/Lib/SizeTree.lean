import Mathlib.Data.List.Nodup
import Mathlib.Data.List.Perm.Basic

/-!
# Search trees of sized items

Binary trees whose nodes carry an item and its size, ordered `left ≤ node < right` by size. Equal sizes are allowed: `insert` adds an item, `erase`
removes the one named, `bestFit` finds the last node on the search path that is large enough. Removing an inner node moves the largest item of its
left side into its place (`join`, `popMax`).
-/

/-- A binary tree of items with sizes. -/
inductive SizeTree (α : Type) where
  | leaf
  | node (l : SizeTree α) (a : α) (s : Nat) (r : SizeTree α)
  deriving DecidableEq, Repr

namespace SizeTree

variable {α β : Type}
variable {t : SizeTree α} {e : α × Nat} {n : Nat}

/-- The items with their sizes, from left to right. -/
def entries : SizeTree α → List (α × Nat)
  | leaf => []
  | node l a s r => l.entries ++ (a, s) :: r.entries

/-- The items, from left to right. -/
def items (t : SizeTree α) : List α := t.entries.map (·.1)

/-- `left ≤ node < right` at every node. -/
def Ordered : SizeTree α → Prop
  | leaf => True
  | node l _ s r => (∀ e ∈ l.entries, e.2 ≤ s) ∧ (∀ e ∈ r.entries, s < e.2) ∧ l.Ordered ∧ r.Ordered

/-- The tree with one more item, hung below the last node on its search path. -/
def insert (x : α) (n : Nat) : SizeTree α → SizeTree α
  | leaf => node leaf x n leaf
  | node l a s r => if s < n then node l a s (r.insert x n) else node (l.insert x n) a s r

/-- The last node on the search path of `n` with size at least `n`; `acc` is the last one seen so far. -/
def bestFit (n : Nat) : SizeTree α → Option (α × Nat) → Option (α × Nat)
  | leaf, acc => acc
  | node l a s r, acc => if s < n then r.bestFit n acc else l.bestFit n (some (a, s))

/-- The rightmost item of `node l a s r`, and the tree without it. -/
def popMax : SizeTree α → α → Nat → SizeTree α → (α × Nat) × SizeTree α
  | l, a, s, leaf => ((a, s), l)
  | l, a, s, node rl b t rr => ((popMax rl b t rr).1, node l a s (popMax rl b t rr).2)

/-- The two sides of a removed node as one tree: the rightmost item of the left side becomes the node. -/
def join : SizeTree α → SizeTree α → SizeTree α
  | leaf, r => r
  | node ll a s lr, leaf => node ll a s lr
  | node ll a s lr, node rl b t rr =>
    node (popMax ll a s lr).2 (popMax ll a s lr).1.1 (popMax ll a s lr).1.2 (node rl b t rr)

/-- The tree without the item `x`. -/
def erase [DecidableEq α] (x : α) : SizeTree α → SizeTree α
  | leaf => leaf
  | node l a s r => if a = x then join l r else node (l.erase x) a s (r.erase x)

/-- The same tree over other items. -/
def map (f : α → β) : SizeTree α → SizeTree β
  | leaf => leaf
  | node l a s r => node (l.map f) (f a) s (r.map f)

@[simp] theorem entries_leaf : (leaf : SizeTree α).entries = [] := rfl

@[simp] theorem entries_node (l : SizeTree α) (a : α) (s : Nat) (r : SizeTree α) : (node l a s r).entries = l.entries ++ (a, s) :: r.entries := rfl

@[simp] theorem items_leaf : (leaf : SizeTree α).items = [] := rfl

@[simp] theorem items_node (l : SizeTree α) (a : α) (s : Nat) (r : SizeTree α) : (node l a s r).items = l.items ++ a :: r.items := by
  simp [items]

theorem mem_items {a : α} : a ∈ t.items ↔ ∃ s, (a, s) ∈ t.entries := by
  simp [items]

theorem mem_items_of_mem (h : e ∈ t.entries) : e.1 ∈ t.items :=
  mem_items.2 ⟨e.2, h⟩

/-! ## Insertion -/

theorem entries_insert (x : α) (n : Nat) (t : SizeTree α) : (t.insert x n).entries.Perm ((x, n) :: t.entries) := by
  induction t with
  | leaf => exact List.Perm.refl _
  | node l a s r ihl ihr =>
    unfold insert
    split
    · calc l.entries ++ (a, s) :: (r.insert x n).entries
          |>.Perm (l.entries ++ (a, s) :: (x, n) :: r.entries) := (ihr.cons _).append_left _
        _ |>.Perm (l.entries ++ (x, n) :: (a, s) :: r.entries) := (List.Perm.swap _ _ _).append_left _
        _ |>.Perm ((x, n) :: (l.entries ++ (a, s) :: r.entries)) := List.perm_middle
    · exact ihl.append_right _

theorem mem_entries_insert {x : α} : e ∈ (t.insert x n).entries ↔ e = (x, n) ∨ e ∈ t.entries := by
  rw [(entries_insert x n t).mem_iff, List.mem_cons]

theorem ordered_insert {x : α} (h : t.Ordered) : (t.insert x n).Ordered := by
  induction t with
  | leaf => simp [insert, Ordered]
  | node l a s r ihl ihr =>
    obtain ⟨hl, hr, ol, or⟩ := h
    unfold insert
    split
    · rename_i hs
      refine ⟨hl, fun e he => ?_, ol, ihr or⟩
      rcases mem_entries_insert.1 he with rfl | he
      · exact hs
      · exact hr e he
    rename_i hs
    refine ⟨fun e he => ?_, hr, ihl ol, or⟩
    rcases mem_entries_insert.1 he with rfl | he
    · exact Nat.le_of_not_lt hs
    · exact hl e he

/-! ## Best fit -/

/-- What `bestFit` finds is the node it started with or a node of the tree that is large enough. -/
theorem bestFit_mem {acc : Option (α × Nat)} (h : t.bestFit n acc = some e) : acc = some e ∨ (e ∈ t.entries ∧ n ≤ e.2) := by
  induction t generalizing acc with
  | leaf => exact .inl h
  | node l a s r ihl ihr =>
    unfold bestFit at h
    split at h
    · rcases ihr h with h | ⟨h, hn⟩
      · exact .inl h
      · exact .inr ⟨by simp [h], hn⟩
    rename_i hs
    rcases ihl h with h | ⟨h, hn⟩
    · cases h
      exact .inr ⟨by simp, Nat.le_of_not_lt hs⟩
    · exact .inr ⟨by simp [h], hn⟩

/-- In an ordered tree `bestFit` finds nothing only when every node is too small. -/
theorem bestFit_eq_none {acc : Option (α × Nat)} (ho : t.Ordered) (h : t.bestFit n acc = none) : acc = none ∧ ∀ e ∈ t.entries, e.2 < n := by
  induction t generalizing acc with
  | leaf => exact ⟨h, fun e he => absurd he List.not_mem_nil⟩
  | node l a s r ihl ihr =>
    obtain ⟨hl, -, ol, or⟩ := ho
    unfold bestFit at h
    split at h
    · rename_i hs
      obtain ⟨hacc, hr⟩ := ihr or h
      refine ⟨hacc, fun e he => ?_⟩
      rw [entries_node, List.mem_append, List.mem_cons] at he
      rcases he with he | rfl | he
      · -- the left side is not looked at, and is not larger than the node
        exact Nat.lt_of_le_of_lt (hl e he) hs
      · exact hs
      · exact hr e he
    · cases (ihl ol h).1

/-! ## Removal -/

theorem entries_popMax (l : SizeTree α) (a : α) (s : Nat) (r : SizeTree α) :
    (popMax l a s r).2.entries ++ [(popMax l a s r).1] = l.entries ++ (a, s) :: r.entries := by
  induction r generalizing l a s with
  | leaf => rfl
  | node rl b t rr _ ih =>
    have := ih rl b t
    simp only [popMax, entries_node, List.append_assoc, List.cons_append, this]

theorem entries_join (l r : SizeTree α) : (join l r).entries = l.entries ++ r.entries := by
  cases l with
  | leaf => rfl
  | node ll a s lr =>
    cases r with
    | leaf => simp [join]
    | node rl b t rr =>
      have := entries_popMax ll a s lr
      simp only [join, entries_node]
      rw [← entries_node ll a s lr, entries_node ll a s lr, ← this]
      simp

/-- The rightmost item of an ordered tree is its largest, and the rest is ordered. -/
theorem ordered_popMax {l : SizeTree α} {a : α} {s : Nat} {r : SizeTree α} (h : (node l a s r).Ordered) :
    (popMax l a s r).2.Ordered ∧ ∀ e ∈ (popMax l a s r).2.entries, e.2 ≤ (popMax l a s r).1.2 := by
  induction r generalizing l a s with
  | leaf => exact ⟨h.2.2.1, h.1⟩
  | node rl b t rr _ ih =>
    obtain ⟨hl, hr, ol, or⟩ := h
    obtain ⟨o, hm⟩ := ih or
    have hperm := entries_popMax rl b t rr
    have hsub : ∀ e ∈ (popMax rl b t rr).2.entries, s < e.2 := fun e he =>
      hr e (by rw [entries_node, ← hperm]; simp [he])
    have hmax : s < (popMax rl b t rr).1.2 := hr _ (by rw [entries_node, ← hperm]; simp)
    refine ⟨⟨hl, hsub, ol, o⟩, fun e he => ?_⟩
    simp only [popMax, entries_node, List.mem_append, List.mem_cons] at he ⊢
    rcases he with he | rfl | he
    · exact Nat.le_of_lt (Nat.lt_of_le_of_lt (hl e he) hmax)
    · exact Nat.le_of_lt hmax
    · exact hm e he

theorem ordered_join {l r : SizeTree α} {k : Nat} (hl : ∀ e ∈ l.entries, e.2 ≤ k) (hr : ∀ e ∈ r.entries, k < e.2)
    (ol : l.Ordered) (or : r.Ordered) : (join l r).Ordered := by
  cases l with
  | leaf => exact or
  | node ll a s lr =>
    cases r with
    | leaf => exact ol
    | node rl b t rr =>
      obtain ⟨o, hm⟩ := ordered_popMax ol
      have hq : (popMax ll a s lr).1.2 ≤ k := hl _ (by rw [entries_node, ← entries_popMax]; simp)
      exact ⟨hm, fun e he => Nat.lt_of_le_of_lt hq (hr e he), o, or⟩

section Erase
variable [DecidableEq α]
variable {x : α} {t : SizeTree α}

theorem erase_of_not_mem (h : x ∉ t.items) : t.erase x = t := by
  induction t with
  | leaf => rfl
  | node l a s r ihl ihr =>
    simp only [items_node, List.mem_append, List.mem_cons, not_or] at h
    rw [erase, if_neg (Ne.symm h.2.1), ihl h.1, ihr h.2.2]

theorem entries_erase_sublist (x : α) (t : SizeTree α) : (t.erase x).entries.Sublist t.entries := by
  induction t with
  | leaf => exact List.Sublist.refl _
  | node l a s r ihl ihr =>
    unfold erase
    split
    · rw [entries_join, entries_node]
      exact (List.Sublist.refl _).append ((List.Sublist.refl _).cons _)
    · exact ihl.append (ihr.cons_cons _)

/-- Removing an item of a tree without repeated items removes its entry and no other. -/
theorem entries_erase {n : Nat} (hn : t.items.Nodup) (h : (x, n) ∈ t.entries) : t.entries.Perm ((x, n) :: (t.erase x).entries) := by
  induction t with
  | leaf => cases h
  | node l a s r ihl ihr =>
    simp only [items_node] at hn
    obtain ⟨nl, nr, hd⟩ := List.nodup_append.1 hn
    obtain ⟨har, nr⟩ := List.nodup_cons.1 nr
    simp only [entries_node, List.mem_append, List.mem_cons] at h
    unfold erase
    split
    · rename_i hax
      subst hax
      have hs : n = s := by
        rcases h with h | h | h
        · exact absurd rfl (hd a (mem_items_of_mem h) a (by simp))
        · exact (Prod.mk.inj h).2
        · exact absurd (mem_items_of_mem h) har
      subst hs
      rw [entries_node, entries_join]
      exact List.perm_middle
    rename_i hax
    rcases h with h | h | h
    · have hr : x ∉ r.items := fun hx => hd x (mem_items_of_mem h) x (by simp [hx]) rfl
      rw [erase_of_not_mem hr]
      exact (ihl nl h).append_right _
    · exact absurd (Prod.mk.inj h).1.symm hax
    have hl : x ∉ l.items := fun hx => hd x hx x (by simp [mem_items_of_mem h]) rfl
    rw [erase_of_not_mem hl]
    calc l.entries ++ (a, s) :: r.entries
        |>.Perm (l.entries ++ (a, s) :: (x, n) :: (r.erase x).entries) := ((ihr nr h).cons _).append_left _
      _ |>.Perm (l.entries ++ (x, n) :: (a, s) :: (r.erase x).entries) := (List.Perm.swap _ _ _).append_left _
      _ |>.Perm ((x, n) :: (l.entries ++ (a, s) :: (r.erase x).entries)) := List.perm_middle

theorem ordered_erase (h : t.Ordered) : (t.erase x).Ordered := by
  induction t with
  | leaf => trivial
  | node l a s r ihl ihr =>
    obtain ⟨hl, hr, ol, or⟩ := h
    unfold erase
    split
    · exact ordered_join hl hr ol or
    · exact ⟨fun e he => hl e ((entries_erase_sublist x l).subset he),
        fun e he => hr e ((entries_erase_sublist x r).subset he), ihl ol, ihr or⟩

end Erase

/-! ## Renaming the items -/

theorem entries_map (f : α → β) (t : SizeTree α) : (t.map f).entries = t.entries.map (fun e => (f e.1, e.2)) := by
  induction t with
  | leaf => rfl
  | node l a s r ihl ihr => simp [map, ihl, ihr]

theorem items_map (f : α → β) (t : SizeTree α) : (t.map f).items = t.items.map f := by
  simp [items, entries_map]

theorem insert_map (f : α → β) (x : α) (n : Nat) (t : SizeTree α) : (t.map f).insert (f x) n = (t.insert x n).map f := by
  induction t with
  | leaf => rfl
  | node l a s r ihl ihr =>
    simp only [map, insert]
    split
    · rw [ihr, map]
    · rw [ihl, map]

theorem bestFit_map (f : α → β) (n : Nat) (t : SizeTree α) (acc : Option (α × Nat)) :
    (t.map f).bestFit n (acc.map fun e => (f e.1, e.2)) = (t.bestFit n acc).map fun e => (f e.1, e.2) := by
  induction t generalizing acc with
  | leaf => rfl
  | node l a s r ihl ihr =>
    simp only [map, bestFit]
    split
    · exact ihr acc
    · exact ihl (some (a, s))

theorem popMax_map (f : α → β) (l : SizeTree α) (a : α) (s : Nat) (r : SizeTree α) : popMax (l.map f) (f a) s (r.map f) =
      ((f (popMax l a s r).1.1, (popMax l a s r).1.2), (popMax l a s r).2.map f) := by
  induction r generalizing l a s with
  | leaf => rfl
  | node rl b t rr _ ih =>
    simp only [map, popMax, ih]

theorem join_map (f : α → β) (l r : SizeTree α) : join (l.map f) (r.map f) = (join l r).map f := by
  cases l with
  | leaf => rfl
  | node ll a s lr =>
    cases r with
    | leaf => rfl
    | node rl b t rr => simp only [map, join, popMax_map]

theorem erase_map [DecidableEq α] [DecidableEq β] {f : α → β} (hf : Function.Injective f) (x : α) (t : SizeTree α) :
    (t.map f).erase (f x) = (t.erase x).map f := by
  induction t with
  | leaf => rfl
  | node l a s r ihl ihr =>
    by_cases h : a = x
    · simp only [map, erase, h, if_true, join_map]
    · simp only [map, erase, h, hf.ne h, if_false, ihl, ihr]

end SizeTree
