import WamrMigrate.Lib.Reader

/-!
# Singly linked lists

Nodes by their address, with 0 for NULL. A loop that reads a node that is not there, or not any more, stops with a fault. `Seg h p xs q` says that
the nodes `xs` are linked one after the other from `p` to `q`. The loops do to the list what they are meant to, and reach no other node.
-/

namespace WamrMigrate

/-- A node of a list. -/
structure Link (α : Type) where
  val : α
  next : Nat

/-- The nodes that are there. -/
abbrev Links (α : Type) := Nat → Option (Link α)

namespace Links

variable {α σ : Type}

/-- Write the `next` of a node. -/
def setNext (h : Links α) (p q : Nat) : Links α := Function.update h p ((h p).map ({ · with next := q }))

/-- Free a node. -/
def free (h : Links α) (p : Nat) : Links α := Function.update h p none

/-- The loop that looks for the first node from `p` on that has the property; `prev` is the node before `p`. It gives the node before
the one it finds, that node, and what is in it. -/
def search (h : Links α) (found : α → Bool) : Nat → Nat → Nat → Except Fault (Option (Nat × Nat × Link α))
  | fuel, prev, p =>
    if p = 0 then .ok none
    else
      match fuel with
      | 0 => .error .invalid
      | fuel + 1 =>
        match h p with
        | none => .error .invalid
        | some n => if found n.val then .ok (some (prev, p, n)) else search h found fuel p n.next

/-- The loop that goes on from `p` as long as the nodes have the property; it gives the last of them, or `prev`, and where it stops. -/
def skip (h : Links α) (goes : α → Bool) : Nat → Nat → Nat → Except Fault (Nat × Nat)
  | fuel, prev, p =>
    if p = 0 then .ok (prev, 0)
    else
      match fuel with
      | 0 => .error .invalid
      | fuel + 1 =>
        match h p with
        | none => .error .invalid
        | some n => if goes n.val then skip h goes fuel p n.next else .ok (prev, p)

/-- The loop that looks for the last node. -/
def last (h : Links α) : Nat → Nat → Except Fault Nat
  | 0, _ => .error .invalid
  | fuel + 1, p =>
    match h p with
    | none => .error .invalid
    | some n => if n.next = 0 then .ok p else last h fuel n.next

/-- The loop that goes over the nodes from `p` on and rewrites what is in them, with a state of its own. -/
def rewrite (f : σ → α → σ × α) : Links α → Nat → σ → Nat → Except Fault (Links α × σ)
  | h, fuel, s, p =>
    if p = 0 then .ok (h, s)
    else
      match fuel with
      | 0 => .error .invalid
      | fuel + 1 =>
        match h p with
        | none => .error .invalid
        | some n => rewrite f (Function.update h p (some ⟨(f s n.val).2, n.next⟩)) fuel (f s n.val).1 n.next

end Links

/-- What `Links.rewrite` does to the values. -/
def accum {α σ : Type} (f : σ → α → σ × α) : σ → List α → σ × List α
  | s, [] => (s, [])
  | s, a :: as => ((accum f (f s a).1 as).1, (f s a).2 :: (accum f (f s a).1 as).2)

/-- The nodes `xs`, each with what is in it, are linked from `p` to `q`. -/
inductive Seg {α : Type} (h : Links α) : Nat → List (Nat × α) → Nat → Prop
  | nil {p : Nat} : Seg h p [] p
  | cons {p q : Nat} {n : Link α} {xs : List (Nat × α)} (hp : p ≠ 0) (hn : h p = some n) (hs : Seg h n.next xs q) :
      Seg h p ((p, n.val) :: xs) q

section Seg
variable {α σ : Type} {h h' : Links α} {p q r i : Nat} {v : α} {xs ys : List (Nat × α)} {found : α → Bool}

theorem Seg.congr (hs : Seg h p xs q) (hh : ∀ j ∈ xs.map Prod.fst, h' j = h j) : Seg h' p xs q := by
  induction hs with
  | nil => exact .nil
  | cons hp hn hs ih =>
    obtain ⟨h1, h2⟩ := List.forall_mem_cons.1 hh
    exact .cons hp (h1.trans hn) (ih h2)

theorem Seg.append (hs : Seg h p xs q) (hs' : Seg h q ys r) : Seg h p (xs ++ ys) r := by
  induction hs with
  | nil => exact hs'
  | cons hp hn hs ih => exact .cons hp hn (ih hs')

theorem Seg.split (hs : Seg h p (xs ++ ys) r) : ∃ q, Seg h p xs q ∧ Seg h q ys r := by
  induction xs generalizing p with
  | nil => exact ⟨p, .nil, hs⟩
  | cons x xs ih =>
    cases hs with
    | cons hp hn hs =>
      obtain ⟨q, h1, h2⟩ := ih hs
      exact ⟨q, .cons hp hn h1, h2⟩

theorem Seg.uncons (hs : Seg h p ((i, v) :: xs) q) : p = i ∧ i ≠ 0 ∧ ∃ next, h i = some ⟨v, next⟩ ∧ Seg h next xs q := by
  cases hs with
  | cons hp hn hs => exact ⟨rfl, hp, _, hn, hs⟩

theorem Seg.ne_zero (hs : Seg h p xs q) : ∀ j ∈ xs.map Prod.fst, j ≠ 0 := by
  induction hs with
  | nil => simp
  | cons hp hn hs ih => exact List.forall_mem_cons.2 ⟨hp, ih⟩

theorem Seg.node (hs : Seg h p xs q) : ∀ x ∈ xs, ∃ next, h x.1 = some ⟨x.2, next⟩ := by
  induction hs with
  | nil => simp
  | cons hp hn hs ih => exact List.forall_mem_cons.2 ⟨⟨_, hn⟩, ih⟩

theorem Seg.start_unique (hs : Seg h p xs 0) (hs' : Seg h' r xs 0) : p = r := by
  cases hs with
  | nil =>
    cases hs'
    rfl
  | cons hp hn hs =>
    obtain ⟨rfl, -⟩ := hs'.uncons
    rfl

theorem Seg.push (hs : Seg h p xs q) (hi : i ≠ 0) (hnew : i ∉ xs.map Prod.fst) : Seg (Function.update h i (some ⟨v, p⟩)) i ((i, v) :: xs) q := by
  have hn : Function.update h i (some (Link.mk v p)) i = some ⟨v, p⟩ := Function.update_self ..
  refine .cons hi hn (hs.congr fun j hj => Function.update_of_ne ?_ ..)
  rintro rfl
  exact hnew hj

theorem Seg.setVal {next : Nat} {w : α} (hs : Seg h p (xs ++ (i, v) :: ys) q) (hnodup : ((xs ++ (i, v) :: ys).map Prod.fst).Nodup)
    (hn : Seg h next ys q) : Seg (Function.update h i (some ⟨w, next⟩)) p (xs ++ (i, w) :: ys) q := by
  obtain ⟨j, h1, h2⟩ := hs.split
  obtain ⟨rfl, hi, -⟩ := h2.uncons
  rw [List.map_append, List.map_cons, List.nodup_append] at hnodup
  obtain ⟨-, hny, hdis⟩ := hnodup
  have hother : ∀ k, k ≠ j → Function.update h j (some ⟨w, next⟩) k = h k := fun k hk => Function.update_of_ne hk ..
  have hx : Seg (Function.update h j (some ⟨w, next⟩)) p xs j := h1.congr fun k hk => hother k (hdis k hk j List.mem_cons_self)
  have hy : Seg (Function.update h j (some ⟨w, next⟩)) next ys q := hn.congr fun k hk => hother k (by
    rintro rfl
    exact (List.nodup_cons.1 hny).1 hk)
  exact hx.append (.cons (n := ⟨w, next⟩) hi (Function.update_self ..) hy)

theorem Seg.setNext_last (hs : Seg h p (xs ++ [(i, v)]) q) (hnodup : ((xs ++ [(i, v)]).map Prod.fst).Nodup) :
    Seg (h.setNext i r) p (xs ++ [(i, v)]) r := by
  obtain ⟨j, h1, h2⟩ := hs.split
  obtain ⟨rfl, hi, next, hn, -⟩ := h2.uncons
  have hnot : j ∉ xs.map Prod.fst := by
    rw [List.map_append, List.nodup_append] at hnodup
    intro hj
    exact hnodup.2.2 j hj j (by simp) rfl
  have hnew : h.setNext j r j = some ⟨v, r⟩ := by
    rw [Links.setNext, Function.update_self, hn]
    rfl
  refine (h1.congr fun k hk => ?_).append (.cons (n := ⟨v, r⟩) hi hnew .nil)
  rw [Links.setNext, Function.update_of_ne]
  rintro rfl
  exact hnot hk

/-- The last node of a list in front of `p`, or `prev` when it is empty. -/
def lastId (prev : Nat) (xs : List (Nat × α)) : Nat := (xs.getLast?.map Prod.fst).getD prev

theorem lastId_cons (prev : Nat) (x : Nat × α) (xs : List (Nat × α)) : lastId prev (x :: xs) = lastId x.1 xs := by
  cases xs with
  | nil => rfl
  | cons y ys => rfl

theorem Seg.last (hs : Seg h p (xs ++ [(i, v)]) 0) {fuel : Nat} (hf : xs.length < fuel) : h.last fuel p = .ok i := by
  induction xs generalizing p fuel with
  | nil =>
    obtain ⟨rfl, hi, next, hn, hrest⟩ := hs.uncons
    obtain ⟨fuel, rfl⟩ : ∃ k, fuel = k + 1 := ⟨fuel - 1, by simp at hf; omega⟩
    cases hrest
    rw [Links.last]
    simp only [hn, if_true]
  | cons x xs ih =>
    obtain ⟨j, w⟩ := x
    obtain ⟨rfl, hi, next, hn, hrest⟩ := Seg.uncons hs
    obtain ⟨fuel, rfl⟩ : ∃ k, fuel = k + 1 := ⟨fuel - 1, by omega⟩
    have hne : next ≠ 0 := by
      cases xs with
      | nil =>
        obtain ⟨rfl, hne, -⟩ := hrest.uncons
        exact hne
      | cons y ys =>
        obtain ⟨rfl, hne, -⟩ := Seg.uncons hrest
        exact hne
    rw [Links.last]
    simp only [hn, if_neg hne]
    exact ih hrest (by simp at hf; omega)

/-- The loop stops at the first node that does not have the property. -/
theorem Seg.skip {goes : α → Bool} (hs : Seg h p (xs ++ ys) 0) (hx : ∀ x ∈ xs, goes x.2 = true) (hy : ∀ y ∈ ys.head?, goes y.2 = false)
    {fuel prev : Nat} (hf : xs.length < fuel) : ∃ q, h.skip goes fuel prev p = .ok (lastId prev xs, q) ∧ Seg h p xs q ∧ Seg h q ys 0 := by
  induction xs generalizing p fuel prev with
  | nil =>
    obtain ⟨fuel, rfl⟩ : ∃ k, fuel = k + 1 := ⟨fuel - 1, by simp at hf; omega⟩
    refine ⟨p, ?_, .nil, hs⟩
    cases ys with
    | nil =>
      cases hs
      rw [Links.skip, if_pos rfl]
      rfl
    | cons y ys =>
      obtain ⟨j, w⟩ := y
      obtain ⟨rfl, hi, next, hn, hrest⟩ := Seg.uncons hs
      have hw : goes w = false := hy (p, w) rfl
      rw [Links.skip, if_neg hi]
      simp only [hn, hw, Bool.false_eq_true, if_false]
      rfl
  | cons x xs ih =>
    obtain ⟨j, w⟩ := x
    obtain ⟨rfl, hi, next, hn, hrest⟩ := Seg.uncons hs
    obtain ⟨fuel, rfl⟩ : ∃ k, fuel = k + 1 := ⟨fuel - 1, by omega⟩
    obtain ⟨hw, hx⟩ := List.forall_mem_cons.1 hx
    obtain ⟨q, hskip, h1, h2⟩ := @ih _ hrest hx fuel p (Nat.lt_of_succ_lt_succ hf)
    refine ⟨q, ?_, .cons (n := ⟨w, next⟩) hi hn h1, h2⟩
    rw [Links.skip, if_neg hi]
    simp only [hn, hw, if_true]
    rw [hskip, lastId_cons]

/-- To search is to go on as long as the nodes do not have the property. -/
theorem Links.search_eq_skip (fuel prev p : Nat) : h.search found fuel prev p =
    (h.skip (!found ·) fuel prev p).map fun (prev, p) => if p = 0 then none else (h p).map (prev, p, ·) := by
  induction fuel generalizing prev p with
  | zero =>
    unfold Links.search Links.skip
    split <;> rfl
  | succ fuel ih =>
    unfold Links.search Links.skip
    by_cases hp : p = 0
    · rw [if_pos hp, if_pos hp]
      rfl
    cases hn : h p with
    | none => simp [hp, Except.map]
    | some n => cases hf : found n.val <;> simp [hp, hn, hf, ih, Except.map]

theorem Seg.search (hs : Seg h p (xs ++ (i, v) :: ys) 0) (hx : ∀ x ∈ xs, found x.2 = false) (hv : found v = true) {fuel prev : Nat}
    (hf : xs.length < fuel) : ∃ next, h.search found fuel prev p = .ok (some (lastId prev xs, i, ⟨v, next⟩)) ∧ Seg h next ys 0 := by
  obtain ⟨q, hskip, -, hrest⟩ := @Seg.skip _ _ _ _ _ (!found ·) hs (by simpa using hx) (by simp [hv]) fuel prev hf
  obtain ⟨rfl, hi, next, hn, hys⟩ := hrest.uncons
  refine ⟨next, ?_, hys⟩
  rw [Links.search_eq_skip, hskip]
  simp [Except.map, hi, hn]

theorem Seg.search_none (hs : Seg h p xs 0) (hx : ∀ x ∈ xs, found x.2 = false) {fuel prev : Nat} (hf : xs.length < fuel) :
    h.search found fuel prev p = .ok none := by
  rw [← List.append_nil xs] at hs
  obtain ⟨q, hskip, -, hrest⟩ := @Seg.skip _ _ _ _ _ (!found ·) hs (by simpa using hx) nofun fuel prev hf
  cases hrest
  rw [Links.search_eq_skip, hskip]
  rfl

theorem lastId_append_singleton (prev : Nat) (xs : List (Nat × α)) (x : Nat × α) : lastId prev (xs ++ [x]) = x.1 := by
  rw [lastId, List.getLast?_append, List.getLast?_singleton]
  rfl

/-- The nodes with `prev`, if there is one, going on at `next`, and the list that starts at `root`. -/
def relink (h : Links α) (prev next : Nat) : Links α := if prev = 0 then h else h.setNext prev next

/-- The root of a list after the nodes behind `prev` have been replaced by those from `next` on. -/
def reroot (root prev next : Nat) : Nat := if prev = 0 then next else root

theorem Seg.relink (hs : Seg h p xs q) (hnodup : (xs.map Prod.fst).Nodup) :
    Seg (WamrMigrate.relink h (lastId 0 xs) r) (reroot p (lastId 0 xs) r) xs r := by
  rcases List.eq_nil_or_concat xs with rfl | ⟨zs, z, rfl⟩
  · exact .nil
  rw [List.concat_eq_append] at hs hnodup ⊢
  have hz : z.1 ≠ 0 := hs.ne_zero _ (by simp)
  rw [lastId_append_singleton, WamrMigrate.relink, reroot, if_neg hz, if_neg hz]
  exact hs.setNext_last hnodup

theorem relink_of_not_mem {j : Nat} (hs : Seg h p xs q) (hj : j ∉ xs.map Prod.fst) : relink h (lastId 0 xs) r j = h j := by
  rcases List.eq_nil_or_concat xs with rfl | ⟨zs, z, rfl⟩
  · rfl
  rw [List.concat_eq_append] at hs hj ⊢
  have hz : z.1 ≠ 0 := hs.ne_zero _ (by simp)
  rw [lastId_append_singleton, relink, if_neg hz, Links.setNext, Function.update_of_ne]
  rintro rfl
  exact hj (by simp)

/-- A list without the node `i`, once that has been unlinked and freed. -/
theorem Seg.unlink (hs : Seg h p (xs ++ (i, v) :: ys) 0) (hnodup : ((xs ++ (i, v) :: ys).map Prod.fst).Nodup) {next : Nat} (hn : Seg h next ys 0) :
    Seg ((WamrMigrate.relink h (lastId 0 xs) next).free i) (reroot p (lastId 0 xs) next) (xs ++ ys) 0 := by
  obtain ⟨q, hx, -⟩ := hs.split
  rw [List.map_append, List.map_cons, List.nodup_append] at hnodup
  obtain ⟨hnx, hny, hdis⟩ := hnodup
  obtain ⟨hiy, hny⟩ := List.nodup_cons.1 hny
  have hix : i ∉ xs.map Prod.fst := fun hi => hdis i hi i List.mem_cons_self rfl
  refine ((Seg.relink hx hnx).congr fun j hj => ?_).append (hn.congr fun j hj => ?_)
  · rw [Links.free, Function.update_of_ne]
    rintro rfl
    exact hix hj
  have hjx : j ∉ xs.map Prod.fst := fun hx => hdis j hx j (List.mem_cons_of_mem _ hj) rfl
  rw [Links.free, Function.update_of_ne, relink_of_not_mem hx hjx]
  rintro rfl
  exact hiy hj

theorem Seg.insert (hx : Seg h p xs q) (hy : Seg h q ys 0) (hnodup : ((xs ++ ys).map Prod.fst).Nodup) (hi : i ≠ 0)
    (hnew : i ∉ (xs ++ ys).map Prod.fst) :
    Seg (WamrMigrate.relink (Function.update h i (some ⟨v, q⟩)) (lastId 0 xs) i) (reroot p (lastId 0 xs) i) (xs ++ (i, v) :: ys) 0 := by
  rw [List.map_append] at hnew hnodup
  obtain ⟨hnx, hny, hdis⟩ := List.nodup_append.1 hnodup
  have hix : i ∉ xs.map Prod.fst := fun h => hnew (List.mem_append_left _ h)
  have hiy : i ∉ ys.map Prod.fst := fun h => hnew (List.mem_append_right _ h)
  have hx' : Seg (Function.update h i (some ⟨v, q⟩)) p xs q := hx.congr fun j hj => Function.update_of_ne (by rintro rfl; exact hix hj) ..
  refine (Seg.relink hx' hnx).append ((hy.push (v := v) hi hiy).congr fun j hj => relink_of_not_mem hx' ?_)
  intro hjx
  rcases List.mem_cons.1 hj with rfl | hj
  · exact hix hjx
  · exact hdis j hjx j hj rfl

/-- The loop rewrites what is in the nodes of the list, and no other node. -/
theorem Seg.rewrite {f : σ → α → σ × α} {s : σ} (hs : Seg h p xs 0) (hnodup : (xs.map Prod.fst).Nodup) {fuel : Nat} (hf : xs.length < fuel) :
    ∃ h', Links.rewrite f h fuel s p = .ok (h', (accum f s (xs.map Prod.snd)).1) ∧
      Seg h' p ((xs.map Prod.fst).zip (accum f s (xs.map Prod.snd)).2) 0 ∧ ∀ j, j ∉ xs.map Prod.fst → h' j = h j := by
  induction xs generalizing h p s fuel with
  | nil =>
    cases hs
    refine ⟨h, ?_, .nil, fun _ _ => rfl⟩
    unfold Links.rewrite
    rw [if_pos rfl]
    rfl
  | cons x xs ih =>
    obtain ⟨j, w⟩ := x
    obtain ⟨rfl, hi, next, hn, hrest⟩ := Seg.uncons hs
    obtain ⟨fuel, rfl⟩ : ∃ k, fuel = k + 1 := ⟨fuel - 1, by omega⟩
    obtain ⟨hnot, hnodup⟩ := List.nodup_cons.1 hnodup
    have hrest' : Seg (Function.update h p (some ⟨(f s w).2, next⟩)) next xs 0 :=
      hrest.congr fun k hk => Function.update_of_ne (by rintro rfl; exact hnot hk) ..
    obtain ⟨h', hrun, hseg, hother⟩ := @ih _ _ (f s w).1 hrest' hnodup fuel (Nat.lt_of_succ_lt_succ hf)
    refine ⟨h', ?_, ?_, ?_⟩
    · rw [Links.rewrite, if_neg hi]
      simp only [hn]
      exact hrun
    · have hp : h' p = some ⟨(f s w).2, next⟩ := by rw [hother p hnot, Function.update_self]
      exact .cons (n := ⟨(f s w).2, next⟩) hi hp hseg
    · intro k hk
      obtain ⟨hkp, hkx⟩ := not_or.1 fun h => hk (List.mem_cons.2 h)
      rw [hother k hkx, Function.update_of_ne hkp]

end Seg

end WamrMigrate
