import Mathlib.Data.List.Count

/-!
# Calling conventions with registers of two classes

An argument is passed in the next register of its class as long as there is one, and in the next slot of the stack else. Its place depends on the
classes of the arguments before it only, and no two arguments share one.
-/

/-- The class of an argument. -/
inductive ArgClass
  | integer
  | float
  deriving DecidableEq

/-- Where an argument goes. -/
inductive Place
  | register (c : ArgClass) (k : Nat)
  | stack (k : Nat)
  deriving DecidableEq

/-- A convention: how many registers there are of each class. -/
structure CallConv where
  registers : ArgClass → Nat

namespace CallConv
variable (conv : CallConv)

/-- How many of the arguments are on the stack. -/
def stacked (args : List ArgClass) : Nat :=
  (args.count .integer - conv.registers .integer) + (args.count .float - conv.registers .float)

/-- Where an argument behind others goes. -/
def place (before : List ArgClass) (c : ArgClass) : Place :=
  if before.count c < conv.registers c then .register c (before.count c) else .stack (conv.stacked before)

variable {conv : CallConv} {before args : List ArgClass} {c d : ArgClass}

theorem stacked_mono (conv : CallConv) (h : before <+: args) : conv.stacked before ≤ conv.stacked args :=
  Nat.add_le_add (Nat.sub_le_sub_right (h.sublist.count_le _) _) (Nat.sub_le_sub_right (h.sublist.count_le _) _)

theorem stacked_append_of_ge (h : conv.registers c ≤ args.count c) : conv.stacked (args ++ [c]) = conv.stacked args + 1 := by
  unfold stacked
  cases c <;> simp only [List.count_append, List.count_singleton_self, List.count_singleton, beq_iff_eq, reduceCtorEq, if_false] <;> omega

theorem place_ne (h : before ++ [d] <+: args) : conv.place args c ≠ conv.place before d := by
  have hcount : before.count d + 1 ≤ args.count d := by
    have := h.sublist.count_le d
    rwa [List.count_append, List.count_singleton_self] at this
  unfold place
  intro heq
  by_cases hd : before.count d < conv.registers d
  · rw [if_pos hd] at heq
    split at heq
    · obtain ⟨rfl, hk⟩ := Place.register.inj heq
      omega
    · cases heq
  rw [if_neg hd] at heq
  split at heq
  · cases heq
  have hstack := stacked_append_of_ge (Nat.not_lt.1 hd)
  have hmono := stacked_mono conv h
  have := Place.stack.inj heq
  omega

end CallConv
