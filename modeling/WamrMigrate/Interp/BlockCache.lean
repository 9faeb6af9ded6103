import WamrMigrate.Interp.BlockAddr

/-!
# The block address cache

All blocks that the scan comes through go into the cache. What is noted about an inner block is what a scan of its own would give: as long as the
block is open, its own scan would be at the same place, at a depth smaller by the depth of the block.
-/

namespace WamrMigrate.Interp

open Loader

variable {codeEnd p q d n : Nat} {code : Code} {label : LabelType} {e : Option Nat} {s s' : Scan} {r : Found}

/-- What the rest of the scan of an `if` finds, from `p` on, at depth `d`, when the last `else` was `e`. -/
def restOf (codeEnd : Nat) (code : Code) (p d : Nat) (e : Option Nat) : Option (Option Nat × Nat) :=
  (scanFrom codeEnd (.block .ite) code ⟨p, d, e, fun _ => {}⟩).map fun r => (r.elseAddr, r.endAddr)

/-- The addresses of the `else`, if there is one, and the `end` of a block, without the cache. -/
def uncached (codeEnd : Nat) (code : Code) (start : Nat) : Option (Option Nat × Nat) := restOf codeEnd code start 1 none

/-! ## The scan without the blocks it notes -/

/-- What the scan finds does not depend on what it has noted; and where the `else` is not asked for, not on the label either. -/
theorem scanLoop_map {α : Type} {f : Option Nat → α} {label' : LabelType} {e' : Option Nat} {stack stack' : BlockStack}
    (hf : label = label' ∧ e = e' ∨ ∀ x y, f x = f y) : (scanLoop codeEnd label code n ⟨p, d, e, stack⟩).map (fun r => (f r.elseAddr, r.endAddr)) =
      (scanLoop codeEnd label' code n ⟨p, d, e', stack'⟩).map fun r => (f r.elseAddr, r.endAddr) := by
  induction n generalizing p d e e' stack stack' with
  | zero => rfl
  | succ n ih =>
    simp only [scanLoop, scanStep]
    by_cases hp : p < codeEnd
    · rw [if_pos hp, if_pos hp]
      cases (skipInstr codeEnd).run code p with
      | none => rfl
      | some x =>
        simp only [Option.map_some]
        cases Role.ofOpcode x.1 with
        | closes =>
          simp only [Scan.advance]
          by_cases hd : d = 1
          · rcases hf with ⟨rfl, rfl⟩ | hf
            · simp [hd]
            · simp [hd, hf e e']
          · simp only [hd, if_false]
            exact ih hf
        | turns => exact ih (hf.imp_left fun h => ⟨h.1, by rw [h.1, h.2]⟩)
        | opens | inside => exact ih hf
    · rw [if_neg hp, if_neg hp]

theorem scanLoop_addrs {stack stack' : BlockStack} : (scanLoop codeEnd label code n ⟨p, d, e, stack⟩).map (fun r => (r.elseAddr, r.endAddr)) =
      (scanLoop codeEnd label code n ⟨p, d, e, stack'⟩).map fun r => (r.elseAddr, r.endAddr) :=
  scanLoop_map (f := id) (.inl ⟨rfl, rfl⟩)

/-- The scan of an `if` gives the addresses, whatever else it notes. -/
theorem scan_ite (codeEnd : Nat) (code : Code) (start : Nat) :
    (scan codeEnd (.block .ite) code start).map (fun r => (r.elseAddr, r.endAddr)) = uncached codeEnd code start :=
  scanLoop_addrs

theorem scan_end (codeEnd : Nat) (label : LabelType) (code : Code) (start : Nat) :
    (scan codeEnd label code start).map Found.endAddr = (uncached codeEnd code start).map Prod.snd := by
  have h : (scan codeEnd label code start).map (fun r => ((), r.endAddr)) =
      (scan codeEnd (.block .ite) code start).map fun r => ((), r.endAddr) :=
    scanLoop_map (f := fun _ => ()) (.inr fun _ _ => rfl)
  have h' := congrArg (Option.map Prod.snd) h
  rw [Option.map_map, Option.map_map] at h'
  rw [← scan_ite, Option.map_map]
  exact h'

theorem restOf_step {o : Opcode} (h : (skipInstr codeEnd).run code p = some (o, q)) (hp : p < codeEnd) : restOf codeEnd code p d e =
      match Role.ofOpcode o with
      | .opens => restOf codeEnd code q (d + 1) e
      | .turns => restOf codeEnd code q d (if d = 1 then some p else e)
      | .closes => if d = 1 then some (e, p) else restOf codeEnd code q (d - 1) e
      | .inside => restOf codeEnd code q d e := by
  rw [restOf, scanFrom_step (s := ⟨p, d, e, fun _ => {}⟩) h hp]
  cases Role.ofOpcode o with
  | opens => exact scanLoop_addrs
  | turns =>
    simp only [Scan.advance, scanOn, true_and]
    exact scanLoop_addrs
  | closes =>
    simp only [Scan.advance]
    split
    · rfl
    · exact scanLoop_addrs
  | inside => rfl

/-! ## The blocks that the scan notes -/

namespace BlockStack

variable {stack : BlockStack} {t : Nat} {change : BlockAddr → BlockAddr}

theorem note_same (h : t < 16) : stack.note t change t = change (stack t) := by
  rw [note, if_pos h, Function.update_self]

theorem note_ne (h : t ≠ d) : stack.note d change t = stack t := by
  unfold note
  split
  · exact Function.update_of_ne h _ _
  · rfl

theorem note_far (h : 16 ≤ t) : stack.note d change t = stack t := by
  unfold note
  split
  · exact Function.update_of_ne (by omega) _ _
  · rfl

end BlockStack

/-- An empty place, or a block with the addresses that a scan of its own gives. -/
def Right (codeEnd : Nat) (code : Code) (b : BlockAddr) : Prop :=
  b = {} ∨ ∃ a e n, b = ⟨some a, e, some n⟩ ∧ uncached codeEnd code a = some (e, n)

/-- What holds of the blocks that the scan has noted: the scan of an open one would be at the same place; a closed one is right. -/
structure Noted (codeEnd : Nat) (code : Code) (s : Scan) : Prop where
  depth_pos : 0 < s.depth
  opened : ∀ t, t < s.depth → t < 16 → ∃ a, (s.stack t).startAddr = some a ∧
    uncached codeEnd code a = restOf codeEnd code s.p (s.depth - t) (s.stack t).elseAddr
  closed : ∀ t, s.depth ≤ t → Right codeEnd code (s.stack t)
  far : ∀ t, 16 ≤ t → s.stack t = {}

theorem firstBlock_free {start t : Nat} (ht : 1 ≤ t) : Function.update (fun _ => {} : BlockStack) 0 { startAddr := some start } t = {} :=
  Function.update_of_ne (Nat.ne_of_gt ht) _ _

theorem noted_start (start : Nat) : Noted codeEnd code ⟨start, 1, none, Function.update (fun _ => {}) 0 { startAddr := some start }⟩ where
  depth_pos := Nat.one_pos
  opened t ht _ := by
    obtain rfl : t = 0 := Nat.lt_one_iff.1 ht
    exact ⟨start, rfl, rfl⟩
  closed t ht := .inl (firstBlock_free ht)
  far t ht := firstBlock_free (by omega)

section

variable {o : Opcode}

section
variable (hs : Noted codeEnd code s) (h : (skipInstr codeEnd).run code s.p = some (o, q)) (hp : s.p < codeEnd)
include hs h hp

theorem noted_inside (hrole : Role.ofOpcode o = .inside) : Noted codeEnd code { s with p := q } where
  depth_pos := hs.depth_pos
  opened t ht ht' := by
    obtain ⟨a, ha, heq⟩ := hs.opened t ht ht'
    rw [restOf_step h hp, hrole] at heq
    exact ⟨a, ha, heq⟩
  closed := hs.closed
  far := hs.far

theorem noted_opens (hrole : Role.ofOpcode o = .opens) :
    Noted codeEnd code { s with p := q, depth := s.depth + 1,
                                stack := s.stack.note s.depth fun b => { b with startAddr := some q, elseAddr := none } } where
  depth_pos := Nat.succ_pos _
  opened t ht ht' := by
    rcases Nat.lt_succ_iff_lt_or_eq.1 ht with ht | rfl
    · obtain ⟨a, ha, heq⟩ := hs.opened t ht ht'
      rw [restOf_step h hp, hrole] at heq
      simp only [BlockStack.note_ne (Nat.ne_of_lt ht), Nat.sub_add_comm (Nat.le_of_lt ht)]
      exact ⟨a, ha, heq⟩
    · simp only [BlockStack.note_same ht', Nat.add_sub_cancel_left]
      exact ⟨q, rfl, rfl⟩
  closed t ht := by
    simp only [BlockStack.note_ne (Nat.ne_of_gt ht)]
    exact hs.closed t (Nat.le_of_lt ht)
  far t ht := by
    simp only [BlockStack.note_far ht]
    exact hs.far t ht

theorem noted_turns (hrole : Role.ofOpcode o = .turns) (e : Option Nat) :
    Noted codeEnd code { s with p := q, elseAddr := e,
                                stack := s.stack.note (s.depth - 1) fun b => { b with elseAddr := some s.p } } where
  depth_pos := hs.depth_pos
  opened t ht ht' := by
    obtain ⟨a, ha, heq⟩ := hs.opened t ht ht'
    rw [restOf_step h hp, hrole] at heq
    by_cases htop : t = s.depth - 1
    · subst htop
      have hone : s.depth - (s.depth - 1) = 1 := Nat.sub_sub_self hs.depth_pos
      simp only [BlockStack.note_same ht', hone, if_true] at heq ⊢
      exact ⟨a, ha, heq⟩
    have hone : s.depth - t ≠ 1 := by
      simp only at ht
      omega
    simp only [BlockStack.note_ne htop, hone, if_false] at heq ⊢
    exact ⟨a, ha, heq⟩
  closed t ht := by
    have hpos := hs.depth_pos
    simp only at ht
    simp only [BlockStack.note_ne (show t ≠ s.depth - 1 by omega)]
    exact hs.closed t ht
  far t ht := by
    simp only [BlockStack.note_far ht]
    exact hs.far t ht

theorem right_closed (hrole : Role.ofOpcode o = .closes) :
    Right codeEnd code (s.stack.note (s.depth - 1) (fun b => { b with endAddr := some s.p }) (s.depth - 1)) := by
  by_cases hfar : s.depth - 1 < 16
  · obtain ⟨a, ha, heq⟩ := hs.opened (s.depth - 1) (Nat.sub_one_lt_of_lt hs.depth_pos) hfar
    rw [restOf_step h hp, hrole, Nat.sub_sub_self hs.depth_pos] at heq
    rw [BlockStack.note_same hfar, ha]
    exact .inr ⟨a, _, s.p, rfl, heq⟩
  · rw [BlockStack.note_far (Nat.not_lt.1 hfar)]
    exact .inl (hs.far _ (Nat.not_lt.1 hfar))

theorem right_found (hrole : Role.ofOpcode o = .closes) (hd : s.depth = 1) (t : Nat) :
    Right codeEnd code (s.stack.note (s.depth - 1) (fun b => { b with endAddr := some s.p }) t) := by
  by_cases ht : t = s.depth - 1
  · rw [ht]
    exact right_closed hs h hp hrole
  · rw [BlockStack.note_ne ht]
    exact hs.closed t (by omega)

theorem noted_closes (hrole : Role.ofOpcode o = .closes) (hd : s.depth ≠ 1) :
    Noted codeEnd code { s with p := q, depth := s.depth - 1,
                                stack := s.stack.note (s.depth - 1) fun b => { b with endAddr := some s.p } } where
  depth_pos := by
    have hpos := hs.depth_pos
    show 0 < s.depth - 1
    omega
  opened t ht ht' := by
    simp only at ht
    obtain ⟨a, ha, heq⟩ := hs.opened t (by omega) ht'
    have hone : s.depth - t ≠ 1 := by omega
    have hsub : s.depth - t - 1 = s.depth - 1 - t := by omega
    rw [restOf_step h hp, hrole] at heq
    simp only [hone, if_false, hsub] at heq
    simp only [BlockStack.note_ne (Nat.ne_of_lt ht)]
    exact ⟨a, ha, heq⟩
  closed t ht := by
    simp only at ht
    by_cases htop : t = s.depth - 1
    · rw [htop]
      exact right_closed hs h hp hrole
    · simp only [BlockStack.note_ne htop]
      exact hs.closed t (by omega)
  far t ht := by
    simp only [BlockStack.note_far ht]
    exact hs.far t ht

end

end

theorem scanLoop_right (hs : Noted codeEnd code s) (h : scanLoop codeEnd label code n s = some r) (t : Nat) : Right codeEnd code (r.stack t) := by
  induction n generalizing s with
  | zero => cases h
  | succ n ih =>
    simp only [scanLoop] at h
    split at h
    · next hp =>
      simp only [scanStep] at h
      cases hskip : (skipInstr codeEnd).run code s.p with
      | none => simp [hskip] at h
      | some x =>
        obtain ⟨o, q⟩ := x
        simp only [hskip, Option.map_some] at h
        cases hrole : Role.ofOpcode o with
        | inside =>
          rw [hrole] at h
          exact ih (noted_inside hs hskip hp hrole) h
        | opens =>
          rw [hrole] at h
          exact ih (noted_opens hs hskip hp hrole) h
        | turns =>
          rw [hrole] at h
          exact ih (noted_turns hs hskip hp hrole _) h
        | closes =>
          simp only [hrole, Scan.advance] at h
          by_cases hd : s.depth = 1
          · rw [if_pos hd] at h
            cases h
            exact right_found hs hskip hp hrole hd t
          · rw [if_neg hd] at h
            exact ih (noted_closes hs hskip hp hrole hd) h
    · cases h

/-! ## The cache -/

/-- Something holds of every entry of the cache. -/
def Cache.All (P : BlockAddr → Prop) (cache : Cache) : Prop := ∀ i j, i < 64 → j < 2 → P (cache i j)

/-- Every entry of the cache is free or right. -/
def Cache.Valid (codeEnd : Nat) (code : Code) (cache : Cache) : Prop := cache.All (Right codeEnd code)

theorem cacheIndex_lt (addr : Nat) : cacheIndex addr < 64 := Nat.mod_lt addr (by decide)

namespace Cache

variable {P : BlockAddr → Prop} {cache : Cache} {b : BlockAddr} {start : Nat}

theorem update_all {items : Nat → BlockAddr} (h : ∀ j < 2, P (items j)) (hb : P b) (k : Nat) : ∀ j < 2, P (Function.update items k b j) := by
  intro j hj
  rw [Function.update_apply]
  split
  · exact hb
  · exact h j hj

theorem All.insert (h : cache.All P) (hb : P b) (start : Nat) : (cache.insert start b).All P := by
  have hset : ∀ j < 2, P (cache (cacheIndex start) j) := fun j => h _ j (cacheIndex_lt start)
  intro i j hi hj
  unfold Cache.insert
  by_cases hi' : i = cacheIndex start
  · simp only [hi', Function.update_self]
    split
    · exact update_all hset hb _ j hj
    · split
      · exact update_all hset hb _ j hj
      · exact update_all (update_all hset (hset 0 (by decide)) _) hb _ j hj
  · simp only [Function.update_of_ne hi']
    exact h i j hi hj

theorem All.insertFrom {stack : BlockStack} (hstack : ∀ t, P (stack t)) (h : cache.All P) (n : Nat) : (cache.insertFrom stack n).All P := by
  induction n generalizing cache with
  | zero => exact h
  | succ n ih =>
    rw [Cache.insertFrom]
    split
    · exact ih (h.insert (hstack _) _)
    · exact h

theorem All.lookup (h : cache.All P) (hl : cache.lookup start = some b) : P b ∧ b.startAddr = some start := by
  have hset : ∀ j < 2, P (cache (cacheIndex start) j) := fun j => h _ j (cacheIndex_lt start)
  unfold Cache.lookup at hl
  simp only at hl
  split at hl
  · next hs =>
    cases hl
    exact ⟨hset 0 (by decide), hs⟩
  split at hl
  · next hs =>
    cases hl
    exact ⟨hset 1 (by decide), hs⟩
  · cases hl

theorem Valid.lookup (h : cache.Valid codeEnd code) (hl : cache.lookup start = some b) :
    ∃ e n, b = ⟨some start, e, some n⟩ ∧ uncached codeEnd code start = some (e, n) := by
  obtain ⟨rfl | ⟨a, e, n, rfl, heq⟩, hs⟩ := All.lookup h hl
  · cases hs
  · cases hs
    exact ⟨e, n, rfl, heq⟩

end Cache

/-- What `wasm_loader_find_block_addr` gives does not depend on the cache, as long as every entry of it is right; and it stays so. -/
theorem findBlockAddr_valid {cache : Cache} (h : cache.Valid codeEnd code) (start : Nat) (label : LabelType) :
    match findBlockAddr codeEnd cache code start label with
    | some (addrs, cache') =>
      cache'.Valid codeEnd code ∧ ∃ e n, uncached codeEnd code start = some (e, n) ∧ addrs.endAddr = some n ∧
        (label = .block .ite → addrs.elseAddr = some e)
    | none => uncached codeEnd code start = none := by
  unfold findBlockAddr
  cases hl : cache.lookup start with
  | some b =>
    obtain ⟨e, n, rfl, heq⟩ := h.lookup hl
    exact ⟨h, e, n, heq, rfl, fun _ => rfl⟩
  | none =>
    have hend := scan_end codeEnd label code start
    cases hr : scan codeEnd label code start with
    | none =>
      rw [hr] at hend
      exact Option.map_eq_none_iff.1 hend.symm
    | some r =>
      rw [hr] at hend
      obtain ⟨⟨e, n⟩, heq, hn⟩ := Option.map_eq_some_iff.1 hend.symm
      refine ⟨Cache.All.insertFrom (scanLoop_right (noted_start start) hr) h 16, e, n, heq, congrArg some hn.symm, ?_⟩
      rintro rfl
      have hite := scan_ite codeEnd code start
      rw [hr, heq] at hite
      cases hite
      simp

end WamrMigrate.Interp
