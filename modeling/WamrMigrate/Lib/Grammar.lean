import Mathlib.Data.List.Basic

/-!
# Grammars of byte strings

A grammar says which bytes stand for which value. Grammars are put one after the other, where the second may depend on the value of the first, so
that a binary format is written down in the order of its fields. A grammar is unambiguous if the bytes themselves say where a value ends; this is
kept when grammars are put together.
-/

/-- Which bytes stand for which value. -/
def Grammar (α : Type) : Type := List UInt8 → α → Prop

namespace Grammar

variable {α β : Type}

instance : Monad Grammar where
  pure a := fun bs b => bs = [] ∧ b = a
  bind E F := fun bs b => ∃ a x y, bs = x ++ y ∧ E x a ∧ F a y b

/-- No bytes. -/
def fail : Grammar α := fun _ _ => False

/-- A byte. -/
def byte : Grammar UInt8 := fun bs b => bs = [b]

/-- So many bytes. -/
def bytes (n : Nat) : Grammar (List UInt8) := fun bs v => v = bs ∧ bs.length = n

/-- So many values. -/
def times (E : Grammar α) : Nat → Grammar (List α)
  | 0 => pure []
  | n + 1 => do
    let a ← E
    let as ← times E n
    return a :: as

variable {E : Grammar α} {F : α → Grammar β}

/-- Of two values at the start of the same bytes, both are the same and end at the same place. -/
def Unambiguous (E : Grammar α) : Prop :=
  ∀ ⦃x y r s : List UInt8⦄ ⦃a b : α⦄, E x a → E y b → x ++ r = y ++ s → x = y ∧ a = b ∧ r = s

theorem Unambiguous.pure (a : α) : Unambiguous (pure a) := by
  rintro x y r s b c ⟨rfl, rfl⟩ ⟨rfl, rfl⟩ h
  exact ⟨rfl, rfl, h⟩

theorem Unambiguous.fail : Unambiguous (fail : Grammar α) := nofun

theorem Unambiguous.byte : Unambiguous byte := by
  rintro x y r s a b rfl rfl h
  obtain ⟨rfl, rfl⟩ := List.cons.inj h
  exact ⟨rfl, rfl, rfl⟩

theorem Unambiguous.bytes (n : Nat) : Unambiguous (bytes n) := by
  rintro x y r s a b ⟨rfl, hx⟩ ⟨rfl, hy⟩ h
  obtain ⟨rfl, rfl⟩ := List.append_inj h (hx.trans hy.symm)
  exact ⟨rfl, rfl, rfl⟩

theorem Unambiguous.bind (hE : Unambiguous E) (hF : ∀ a, Unambiguous (F a)) : Unambiguous (E >>= F) := by
  rintro x y r s b c ⟨a, x₁, x₂, rfl, hx₁, hx₂⟩ ⟨a', y₁, y₂, rfl, hy₁, hy₂⟩ h
  rw [List.append_assoc, List.append_assoc] at h
  obtain ⟨rfl, rfl, h⟩ := hE hx₁ hy₁ h
  obtain ⟨rfl, rfl, h⟩ := hF a hx₂ hy₂ h
  exact ⟨rfl, rfl, h⟩

theorem Unambiguous.times (hE : Unambiguous E) (n : Nat) : Unambiguous (times E n) := by
  induction n with
  | zero => exact Unambiguous.pure []
  | succ n ih => exact hE.bind fun a => ih.bind fun as => Unambiguous.pure (a :: as)

theorem length_of_times {n : Nat} {bs : List UInt8} {as : List α} (h : times E n bs as) : as.length = n := by
  induction n generalizing bs as with
  | zero =>
    obtain ⟨-, rfl⟩ := h
    rfl
  | succ n ih =>
    obtain ⟨a, x, y, -, -, as', y₁, y₂, -, has, -, rfl⟩ := h
    rw [List.length_cons, ih has]

end Grammar
