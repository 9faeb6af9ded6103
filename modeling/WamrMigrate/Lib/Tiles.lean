import Mathlib.Data.List.Basic

/-!
# Blocks that tile an interval

A list of sized blocks laid out one after the other from an address on: the bytes they take (`total`), each block with its address (`located`), and
the split at an address (`splitAt`). Two blocks of a layout are the same or disjoint.
-/

namespace Tiles

variable {α : Type} (size : α → Nat)

/-- The bytes that the blocks take. -/
def total : List α → Nat
  | [] => 0
  | c :: cs => size c + total cs

/-- The blocks with their addresses, laid out from `p` on. -/
def located : Nat → List α → List (Nat × α)
  | _, [] => []
  | p, c :: cs => (p, c) :: located (p + size c) cs

/-- The block that starts `o` bytes into the layout, with the blocks before and after it. -/
def splitAt : List α → Nat → Option (List α × α × List α)
  | [], _ => none
  | c :: cs, o =>
    if o = 0 then some ([], c, cs)
    else if o < size c then none
    else (splitAt cs (o - size c)).map fun s => (c :: s.1, s.2)

variable {size} {p q q' : Nat} {c c' : α} {cs pre post : List α}

@[simp] theorem total_nil : total size ([] : List α) = 0 := rfl

@[simp] theorem total_cons (c : α) (cs : List α) : total size (c :: cs) = size c + total size cs := rfl

@[simp] theorem total_append (xs ys : List α) : total size (xs ++ ys) = total size xs + total size ys := by
  induction xs with
  | nil => simp
  | cons c xs ih => simp [ih, Nat.add_assoc]

theorem total_replicate (n : Nat) (c : α) : total size (List.replicate n c) = n * size c := by
  induction n with
  | zero => simp
  | succ n ih => rw [List.replicate_succ, total_cons, ih, Nat.succ_mul, Nat.add_comm]

theorem located_append (xs ys : List α) (p : Nat) : located size p (xs ++ ys) = located size p xs ++ located size (p + total size xs) ys := by
  induction xs generalizing p with
  | nil => simp [located]
  | cons c xs ih => simp [located, ih, Nat.add_assoc]

theorem mem_located_iff : (q, c) ∈ located size p cs ↔ ∃ pre post, cs = pre ++ c :: post ∧ q = p + total size pre := by
  constructor
  · intro h
    induction cs generalizing p with
    | nil => cases h
    | cons d cs ih =>
      rcases List.mem_cons.1 h with h | h
      · cases h
        exact ⟨[], cs, rfl, rfl⟩
      · obtain ⟨pre, post, rfl, rfl⟩ := ih h
        exact ⟨d :: pre, post, rfl, by simp [Nat.add_assoc]⟩
  · rintro ⟨pre, post, rfl, rfl⟩
    rw [located_append]
    simp [located]

theorem mem_located_shift {o : Nat} : (p + o, c) ∈ located size p cs ↔ (o, c) ∈ located size 0 cs := by
  rw [mem_located_iff, mem_located_iff]
  constructor
  · rintro ⟨pre, post, h, hq⟩
    exact ⟨pre, post, h, by omega⟩
  · rintro ⟨pre, post, h, hq⟩
    exact ⟨pre, post, h, by omega⟩

theorem located_bounds (h : (q, c) ∈ located size p cs) : p ≤ q ∧ q + size c ≤ p + total size cs := by
  obtain ⟨pre, post, rfl, rfl⟩ := mem_located_iff.1 h
  simp only [total_append, total_cons]
  omega

theorem mem_of_located (h : (q, c) ∈ located size p cs) : c ∈ cs := by
  obtain ⟨pre, post, rfl, -⟩ := mem_located_iff.1 h
  simp

theorem located_disjoint (h : (q, c) ∈ located size p cs) (h' : (q', c') ∈ located size p cs) :
    (q = q' ∧ c = c') ∨ q + size c ≤ q' ∨ q' + size c' ≤ q := by
  induction cs generalizing p with
  | nil => cases h
  | cons d cs ih =>
    rcases List.mem_cons.1 h with h | h <;> rcases List.mem_cons.1 h' with h' | h'
    · cases h
      cases h'
      exact .inl ⟨rfl, rfl⟩
    · cases h
      exact .inr (.inl (located_bounds h').1)
    · cases h'
      exact .inr (.inr (located_bounds h).1)
    · exact ih h h'

theorem located_unique (hpos : ∀ d ∈ cs, 0 < size d) (h : (q, c) ∈ located size p cs) (h' : (q, c') ∈ located size p cs) : c = c' := by
  have h1 := hpos c (mem_of_located h)
  have h2 := hpos c' (mem_of_located h')
  rcases located_disjoint h h' with ⟨-, h⟩ | h | h
  · exact h
  · omega
  · omega

theorem splitAt_append (hpos : ∀ d ∈ pre, 0 < size d) : splitAt size (pre ++ c :: post) (total size pre) = some (pre, c, post) := by
  induction pre with
  | nil => simp [splitAt]
  | cons d pre ih =>
    have hd := hpos d (by simp)
    have h1 : total size (d :: pre) ≠ 0 := by simp only [total_cons]; omega
    have h2 : ¬total size (d :: pre) < size d := by simp only [total_cons]; omega
    have h3 : total size (d :: pre) - size d = total size pre := by simp only [total_cons]; omega
    rw [List.cons_append, splitAt, if_neg h1, if_neg h2, h3, ih fun e he => hpos e (by simp [he])]
    rfl

/-- A split is made at the address where the blocks in front end. -/
theorem splitAt_eq_some {o : Nat} (h : splitAt size cs o = some (pre, c, post)) : cs = pre ++ c :: post ∧ o = total size pre := by
  induction cs generalizing o pre with
  | nil => cases h
  | cons d cs ih =>
    rw [splitAt] at h
    split at h
    · cases h
      exact ⟨rfl, by assumption⟩
    split at h
    · cases h
    obtain ⟨⟨pre', c', post'⟩, hs, he⟩ := Option.map_eq_some_iff.1 h
    cases he
    obtain ⟨h1, h2⟩ := ih hs
    refine ⟨by rw [h1]; rfl, ?_⟩
    simp only [total_cons]
    omega

/-! ## Blocks by their number -/

/-- The blocks up to a numbered one end before any later one starts. -/
theorem total_take_add_le {i j : Nat} (hc : cs[i]? = some c) (hij : i < j) : total size (cs.take i) + size c ≤ total size (cs.take j) := by
  induction cs generalizing i j with
  | nil => cases hc
  | cons d cs ih =>
    obtain ⟨j, rfl⟩ := Nat.exists_eq_succ_of_ne_zero (Nat.ne_zero_of_lt hij)
    cases i with
    | zero =>
      cases hc
      simp
    | succ i =>
      have := ih hc (Nat.lt_of_succ_lt_succ hij)
      simp only [List.take_succ_cons, total_cons]
      omega

theorem total_take_add_le_total {i : Nat} (hc : cs[i]? = some c) : total size (cs.take i) + size c ≤ total size cs := by
  have h : total size (cs.take i) + size c ≤ total size (cs.take cs.length) :=
    total_take_add_le hc (List.getElem?_eq_some_iff.1 hc).1
  rwa [List.take_length] at h

theorem exists_tile {x : Nat} (hx : x < total size cs) :
    ∃ (i : Nat) (c : α), cs[i]? = some c ∧ total size (cs.take i) ≤ x ∧ x < total size (cs.take i) + size c := by
  induction cs generalizing x with
  | nil => cases hx
  | cons d cs ih =>
    by_cases hd : x < size d
    · exact ⟨0, d, rfl, by simp, by simpa using hd⟩
    simp only [total_cons] at hx
    obtain ⟨i, c, hc, hlo, hhi⟩ := @ih (x - size d) (by omega)
    refine ⟨i + 1, c, hc, ?_, ?_⟩
    · simp only [List.take_succ_cons, total_cons]
      omega
    · simp only [List.take_succ_cons, total_cons]
      omega

end Tiles
