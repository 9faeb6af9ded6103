import WamrMigrate.Ems.Alloc

/-!
# The normal lists in memory

A normal list is threaded through its nodes by offsets: the four bytes after a node's header are the distance to the next one, and 0 ends the list.
`ListAt m xs head` says that the list from `head` on has the nodes `xs`. Nodes are at least 8 and less than `2 ^ 31` bytes apart, so that a link
written is the link read.
-/

namespace WamrMigrate.Ems

/-- The list from `head` on has the nodes `xs`. -/
def ListAt (m : Mem) : List Nat → Nat → Prop
  | [], head => head = 0
  | a :: xs, head => head = a ∧ a ≠ 0 ∧ ListAt m xs (getHmuNormalNodeNext m a)

/-- The nodes can be linked to each other: they do not overlap, they are close enough for an offset, and they are addresses. -/
def Linkable (a b : Nat) : Prop := (a + 8 ≤ b ∨ b + 8 ≤ a) ∧ a < b + 2 ^ 31 ∧ b < a + 2 ^ 31 ∧ a < 2 ^ 64 ∧ b < 2 ^ 64

/-- Outside the links of the nodes `xs`, `m'` is `m`. -/
def NextsOnly (xs : List Nat) (m m' : Mem) : Prop := ∀ x, (∀ a ∈ xs, ¬(a + 4 ≤ x ∧ x < a + 8)) → m' x = m x

variable {m m' : Mem} {a b : Nat} {xs : List Nat}

theorem getHmuNormalNodeNext_set (h : b = 0 ∨ Linkable a b) : getHmuNormalNodeNext (setHmuNormalNodeNext m a b) a = b := by
  unfold getHmuNormalNodeNext setHmuNormalNodeNext
  by_cases hb : b = 0
  · simp only [hb, if_true]
    rw [Mem.load_store]
    rfl
  obtain ⟨hd, h1, h2, h3, h4⟩ := h.resolve_left hb
  simp only [hb, if_false]
  have hlt : (((b : Int) - a) % 2 ^ 32).toNat < 256 ^ 4 := by omega
  rw [Mem.load_store_of_lt hlt]
  have hne : (((b : Int) - a) % 2 ^ 32).toNat ≠ 0 := by omega
  rw [if_neg hne]
  have hi : int32 (((b : Int) - a) % 2 ^ 32).toNat = (b : Int) - a := by
    unfold int32
    split <;> omega
  rw [hi, ptrAdd]
  omega

theorem getHmuNormalNodeNext_congr (h : Mem.EqOn m m' (a + 4) 4) : getHmuNormalNodeNext m' a = getHmuNormalNodeNext m a := by
  unfold getHmuNormalNodeNext
  rw [Mem.load_congr h]

theorem eqOn_setHmuNormalNodeNext {c k : Nat} (h : c + k ≤ a + 4 ∨ a + 8 ≤ c) : Mem.EqOn m (setHmuNormalNodeNext m a b) c k :=
  Mem.eqOn_store (by omega)

theorem nextsOnly_set (ha : a ∈ xs) : NextsOnly xs m (setHmuNormalNodeNext m a b) := by
  intro x hx
  have := hx a ha
  exact Mem.store_of_not (by omega)

theorem NextsOnly.refl (xs : List Nat) (m : Mem) : NextsOnly xs m m := fun _ _ => rfl

theorem NextsOnly.mono {ys : List Nat} (h : NextsOnly xs m m') (hs : ∀ a ∈ xs, a ∈ ys) : NextsOnly ys m m' :=
  fun x hx => h x fun a ha => hx a (hs a ha)

theorem NextsOnly.eqOn {c k : Nat} (h : NextsOnly xs m m') (hx : ∀ b ∈ xs, c + k ≤ b + 4 ∨ b + 8 ≤ c) : Mem.EqOn m m' c k := by
  intro x h1 h2
  refine h x fun b hb => ?_
  have := hx b hb
  omega

theorem ListAt.congr {head : Nat} (h : ListAt m xs head) (he : ∀ a ∈ xs, Mem.EqOn m m' (a + 4) 4) : ListAt m' xs head := by
  induction xs generalizing head with
  | nil => exact h
  | cons a xs ih =>
    obtain ⟨rfl, h0, ht⟩ := h
    refine ⟨rfl, h0, ?_⟩
    rw [getHmuNormalNodeNext_congr (he head (by simp))]
    exact ih ht fun b hb => he b (by simp [hb])

theorem ListAt.head_mem {head : Nat} (h : ListAt m xs head) (h0 : head ≠ 0) : head ∈ xs := by
  cases xs with
  | nil => exact absurd h h0
  | cons a xs =>
    obtain ⟨rfl, -⟩ := h
    simp

theorem ListAt.head_eq_zero {head : Nat} (h : ListAt m xs head) : head = 0 ↔ xs = [] := by
  cases xs with
  | nil => exact ⟨fun _ => rfl, fun _ => h⟩
  | cons a xs =>
    obtain ⟨rfl, h0, -⟩ := h
    exact ⟨fun hz => absurd hz h0, fun hz => nomatch hz⟩

theorem ListAt.push {head : Nat} (h : ListAt m xs head) (h0 : a ≠ 0) (hl : ∀ b ∈ xs, Linkable a b) :
    ListAt (setHmuNormalNodeNext m a head) (a :: xs) a := by
  refine ⟨rfl, h0, ?_⟩
  rw [getHmuNormalNodeNext_set]
  · refine h.congr fun b hb => eqOn_setHmuNormalNodeNext ?_
    have := hl b hb
    unfold Linkable at this
    omega
  · by_cases hz : head = 0
    · exact .inl hz
    · exact .inr (hl head (h.head_mem hz))

section Unlink
variable {h : GcHeap} {idx hmu fuel : Nat}

/-- The loop of `unlink_hmu` past the first node: the node is taken out of the list after `prev`. -/
theorem unlinkNormal_after {prev node : Nat} (hl : ListAt h.mem xs node) (hp : getHmuNormalNodeNext h.mem prev = node)
    (hp0 : prev ≠ 0) (hin : ∀ b ∈ xs, hmuIsInHeap h b) (hap : (prev :: xs).Pairwise Linkable) (hm : hmu ∈ xs) (hf : xs.length < fuel) :
    ∃ m', unlinkNormal idx hmu fuel h prev node = some (true, { h with mem := m' }) ∧
      ListAt m' (xs.erase hmu) (getHmuNormalNodeNext m' prev) ∧ NextsOnly (prev :: xs) h.mem m' := by
  induction xs generalizing prev node fuel with
  | nil => cases hm
  | cons a xs ih =>
    obtain ⟨rfl, h0, ht⟩ := hl
    obtain ⟨fuel, rfl⟩ := Nat.exists_eq_succ_of_ne_zero (n := fuel) (Nat.ne_zero_of_lt hf)
    obtain ⟨hpa, hap⟩ := List.pairwise_cons.1 hap
    obtain ⟨hna, hxs⟩ := List.pairwise_cons.1 hap
    rw [unlinkNormal, if_neg h0, if_neg (not_not.2 (hin node (by simp)))]
    by_cases hnode : node = hmu
    · subst hnode
      simp only [if_true, if_neg hp0]
      refine ⟨_, rfl, ?_, nextsOnly_set (by simp)⟩
      rw [List.erase_cons_head, getHmuNormalNodeNext_set]
      · refine ht.congr fun b hb => eqOn_setHmuNormalNodeNext ?_
        have := hpa b (by simp [hb])
        unfold Linkable at this
        omega
      · by_cases hz : getHmuNormalNodeNext h.mem node = 0
        · exact .inl hz
        · exact .inr (hpa _ (by simp [ht.head_mem hz]))
    simp only [if_neg hnode]
    have hm' : hmu ∈ xs := (List.mem_cons.1 hm).resolve_left (Ne.symm hnode)
    obtain ⟨m', hrun, hlist, hno⟩ := ih ht rfl h0 (fun b hb => hin b (by simp [hb])) hap hm' (by simpa using hf)
    refine ⟨m', hrun, ?_, hno.mono fun b hb => List.mem_cons_of_mem _ hb⟩
    -- the link to this node is not written
    have hkeep : getHmuNormalNodeNext m' prev = node := by
      rw [← hp]
      refine getHmuNormalNodeNext_congr (hno.eqOn fun b hb => ?_)
      have := hpa b hb
      unfold Linkable at this
      omega
    rw [hkeep, List.erase_cons_tail (by simpa using hnode)]
    exact ⟨rfl, h0, hlist⟩

theorem unlinkNormal_erase (hl : ListAt h.mem xs (h.kfcNormalList idx)) (hin : ∀ b ∈ xs, hmuIsInHeap h b)
    (hap : xs.Pairwise Linkable) (hm : hmu ∈ xs) (hf : xs.length < fuel) : ∃ m' head, unlinkNormal idx hmu fuel h 0 (h.kfcNormalList idx) =
        some (true, { h with mem := m' }.setNormalList idx head) ∧
      ListAt m' (xs.erase hmu) head ∧ NextsOnly xs h.mem m' := by
  cases xs with
  | nil => cases hm
  | cons a xs =>
    obtain ⟨ha, h0, ht⟩ := hl
    obtain ⟨fuel, rfl⟩ := Nat.exists_eq_succ_of_ne_zero (n := fuel) (Nat.ne_zero_of_lt hf)
    rw [ha, unlinkNormal, if_neg h0, if_neg (not_not.2 (hin a (by simp)))]
    by_cases hnode : a = hmu
    · subst hnode
      simp only [if_true]
      refine ⟨h.mem, getHmuNormalNodeNext h.mem a, rfl, ?_, NextsOnly.refl _ _⟩
      rw [List.erase_cons_head]
      exact ht
    simp only [if_neg hnode]
    have hm' : hmu ∈ xs := (List.mem_cons.1 hm).resolve_left (Ne.symm hnode)
    obtain ⟨m', hrun, hlist, hno⟩ :=
      @unlinkNormal_after _ _ idx hmu fuel _ _ ht rfl h0 (fun b hb => hin b (by simp [hb])) hap hm' (by simpa using hf)
    refine ⟨m', a, ?_, ?_, hno⟩
    · rw [hrun]
      have hsame : (fun i => if i = idx then a else h.kfcNormalList i) = h.kfcNormalList := by
        funext i
        split
        · rename_i hi
          rw [hi, ha]
        · rfl
      simp only [GcHeap.setNormalList, hsame]
    · rw [List.erase_cons_tail (by simpa using hnode)]
      exact ⟨rfl, h0, hlist⟩

end Unlink

end WamrMigrate.Ems
