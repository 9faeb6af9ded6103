import Mathlib.Tactic.Ring

/-!
# Byte memories

A memory is a total function from addresses to bytes. Numbers of any width are read and written little-endian (`load`, `store`), blocks are filled
and copied (`fill`, `copy`). A load reads only its own bytes (`load_congr`), sees the last store to them (`load_store`) and no store elsewhere
(`load_store_of_disjoint`).
-/

/-- A memory: the byte at every address. -/
abbrev Mem := Nat → UInt8

namespace Mem

/-- The little-endian number in the `n` bytes at `a`. -/
def load (m : Mem) : Nat → Nat → Nat
  | _, 0 => 0
  | a, n + 1 => (m a).toNat + 256 * load m (a + 1) n

/-- The memory with the `n` little-endian bytes of `v` written at `a`; what does not fit in `n` bytes is dropped. -/
def store (m : Mem) (a n v : Nat) : Mem := fun x =>
  if a ≤ x ∧ x < a + n then UInt8.ofNat (v / 256 ^ (x - a)) else m x

/-- The memory with the `n` bytes at `a` set to `b`. -/
def fill (m : Mem) (a n : Nat) (b : UInt8) : Mem := fun x => if a ≤ x ∧ x < a + n then b else m x

/-- The memory with the `n` bytes at `src` copied to `dst`, all of them read before any is written. -/
def copy (m : Mem) (dst src n : Nat) : Mem := fun x => if dst ≤ x ∧ x < dst + n then m (src + (x - dst)) else m x

/-- `m` and `m'` agree on the `n` bytes at `a`. -/
def EqOn (m m' : Mem) (a n : Nat) : Prop := ∀ x, a ≤ x → x < a + n → m' x = m x

variable {m m' : Mem} {a b n k v x : Nat}

theorem EqOn.mono (h : EqOn m m' a n) (hl : a ≤ b) (hr : b + k ≤ a + n) : EqOn m m' b k :=
  fun x h1 h2 => h x (by omega) (by omega)

theorem EqOn.refl (m : Mem) (a n : Nat) : EqOn m m a n := fun _ _ _ => rfl

theorem EqOn.trans {m'' : Mem} (h : EqOn m m' a n) (h' : EqOn m' m'' a n) : EqOn m m'' a n :=
  fun x h1 h2 => (h' x h1 h2).trans (h x h1 h2)

theorem load_lt (m : Mem) (a n : Nat) : m.load a n < 256 ^ n := by
  induction n generalizing a with
  | zero => simp [load]
  | succ n ih =>
    have hb := (m a).toNat_lt
    have := ih (a + 1)
    simp only [load, Nat.pow_succ]
    omega

theorem load_congr (h : EqOn m m' a n) : m'.load a n = m.load a n := by
  induction n generalizing a with
  | zero => rfl
  | succ n ih =>
    simp only [load]
    rw [h a (by omega) (by omega), ih (h.mono (by omega) (by omega))]

theorem store_of_not (h : ¬(a ≤ x ∧ x < a + n)) : m.store a n v x = m x := if_neg h

theorem fill_of_not {c : UInt8} (h : ¬(a ≤ x ∧ x < a + n)) : m.fill a n c x = m x := if_neg h

theorem copy_of_not (h : ¬(a ≤ x ∧ x < a + n)) : m.copy a b n x = m x := if_neg h

theorem fill_of_mem {c : UInt8} (h : a ≤ x ∧ x < a + n) : m.fill a n c x = c := if_pos h

theorem copy_of_mem (h : a ≤ x ∧ x < a + n) : m.copy a b n x = m (b + (x - a)) := if_pos h

theorem eqOn_store (h : b + k ≤ a ∨ a + n ≤ b) : EqOn m (m.store a n v) b k :=
  fun x _ _ => store_of_not (by omega)

theorem eqOn_fill {c : UInt8} (h : b + k ≤ a ∨ a + n ≤ b) : EqOn m (m.fill a n c) b k :=
  fun x _ _ => fill_of_not (by omega)

theorem EqOn.store (h : EqOn m m' b k) (hd : b + k ≤ a ∨ a + n ≤ b) : EqOn m (m'.store a n v) b k :=
  h.trans (eqOn_store hd)

theorem EqOn.fill {c : UInt8} (h : EqOn m m' b k) (hd : b + k ≤ a ∨ a + n ≤ b) : EqOn m (m'.fill a n c) b k :=
  h.trans (eqOn_fill hd)

theorem load_store_of_disjoint (h : b + k ≤ a ∨ a + n ≤ b) : (m.store a n v).load b k = m.load b k :=
  load_congr (eqOn_store h)

theorem load_fill_of_disjoint {c : UInt8} (h : b + k ≤ a ∨ a + n ≤ b) : (m.fill a n c).load b k = m.load b k :=
  load_congr (eqOn_fill h)

/-- The bytes a store leaves from the `i`-th on are those of the number shifted down by `i` bytes. -/
theorem load_store_from (m : Mem) (a v : Nat) (i k : Nat) : (m.store a (i + k) v).load (a + i) k = v / 256 ^ i % 256 ^ k := by
  induction k generalizing i with
  | zero => simp [load, Nat.mod_one]
  | succ k ih =>
    have hb : m.store a (i + (k + 1)) v (a + i) = UInt8.ofNat (v / 256 ^ i) := by
      have : a ≤ a + i ∧ a + i < a + (i + (k + 1)) := by omega
      simp only [store, if_pos this, Nat.add_sub_cancel_left]
    have hr : (m.store a (i + (k + 1)) v).load (a + i + 1) k = v / 256 ^ i / 256 % 256 ^ k := by
      have := ih (i + 1)
      rw [show i + 1 + k = i + (k + 1) by omega, Nat.pow_succ, ← Nat.div_div_eq_div_mul] at this
      exact this
    rw [load, hb, hr, UInt8.toNat_ofNat', Nat.pow_succ' (n := k), Nat.mod_mul]

theorem load_store (m : Mem) (a n v : Nat) : (m.store a n v).load a n = v % 256 ^ n := by
  simpa using load_store_from m a v 0 n

theorem load_store_of_lt (h : v < 256 ^ n) : (m.store a n v).load a n = v := by
  rw [load_store, Nat.mod_eq_of_lt h]

theorem load_fill_zero (h1 : a ≤ b) (h2 : b + k ≤ a + n) : (m.fill a n 0).load b k = 0 := by
  induction k generalizing b with
  | zero => rfl
  | succ k ih =>
    have hb : m.fill a n 0 b = 0 := fill_of_mem (by omega)
    have hr : (m.fill a n 0).load (b + 1) k = 0 := ih (by omega) (by omega)
    rw [load, hb, hr]
    rfl

end Mem
