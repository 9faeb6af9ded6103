import Mathlib.Tactic.Ring

/-!
# Reading code at a position

A cursor reads bytes from a position on and gives a value and the position behind them, or nothing. A local cursor depends on those bytes only.
Cursors put together from local ones are local, so that decoders of the same code can be compared on copies of it that differ elsewhere.
-/

namespace WamrMigrate

/-- A chain of fallible computations gives what its last one gives, if all before it succeed. -/
theorem bind_ok_iff {ε α β : Type} {x : Except ε α} {f : α → Except ε β} {b : β} : (x >>= f) = .ok b ↔ ∃ a, x = .ok a ∧ f a = .ok b := by
  rcases x with e | a
  · constructor
    · intro h
      cases h
    · rintro ⟨a, h, -⟩
      cases h
  constructor
  · intro h
    exact ⟨a, rfl, h⟩
  · rintro ⟨_, ⟨⟩, h⟩
    exact h

theorem return_ok_iff {ε α : Type} {a b : α} : (pure a : Except ε α) = .ok b ↔ a = b :=
  ⟨Except.ok.inj, congrArg _⟩

/-- The memory that holds code, byte by byte. What is read behind the end of a body is whatever follows it. -/
abbrev Code := Nat → UInt8

/-- The two codes have the same bytes from `p` up to `q`. -/
def Agree (code code' : Code) (p q : Nat) : Prop := ∀ k, p ≤ k → k < q → code' k = code k

theorem Agree.mono {code code' : Code} {p q p' q' : Nat} (h : Agree code code' p q) (hp : p ≤ p') (hq : q' ≤ q) : Agree code code' p' q' :=
  fun k hk hk' => h k (Nat.le_trans hp hk) (Nat.lt_of_lt_of_le hk' hq)

/-- A program that reads code at a position. -/
structure Cursor (α : Type) where
  run : Code → Nat → Option (α × Nat)

namespace Cursor

variable {α β : Type}

instance : Monad Cursor where
  pure a := ⟨fun _ p => some (a, p)⟩
  bind r f := ⟨fun code p =>
    match r.run code p with
    | some (a, q) => (f a).run code q
    | none => none⟩

/-- Read nothing, and give nothing. -/
def fail : Cursor α := ⟨fun _ _ => none⟩

/-- Read a byte. -/
def byte : Cursor UInt8 := ⟨fun code p => some (code p, p + 1)⟩

/-- Read `n` values. -/
def times (r : Cursor α) : Nat → Cursor (List α)
  | 0 => pure []
  | n + 1 => do
    let a ← r
    let as ← times r n
    return a :: as

variable {r : Cursor α} {f : α → Cursor β} {code code' : Code} {p q q' n : Nat} {a : α} {b : β}

theorem run_byte : byte.run code p = some (code p, p + 1) := rfl

theorem run_bind (h : r.run code p = some (a, q)) : (r >>= f).run code p = (f a).run code q := by
  show (match r.run code p with | some (a, q) => (f a).run code q | none => none) = _
  rw [h]

theorem run_bind_iff : (r >>= f).run code p = some (b, q') ↔ ∃ a q, r.run code p = some (a, q) ∧ (f a).run code q = some (b, q') := by
  constructor
  · intro h
    cases hr : r.run code p with
    | none =>
      have hn : (r >>= f).run code p = none := by
        show (match r.run code p with | some (a, q) => (f a).run code q | none => none) = _
        rw [hr]
      rw [hn] at h
      cases h
    | some x => exact ⟨x.1, x.2, rfl, run_bind hr ▸ h⟩
  · rintro ⟨a, q, hr, h⟩
    rw [run_bind hr, h]

theorem times_length {as : List α} (h : (times r n).run code p = some (as, q)) : as.length = n := by
  induction n generalizing p as with
  | zero =>
    cases h
    rfl
  | succ n ih =>
    obtain ⟨a, p₁, -, h⟩ := run_bind_iff.1 h
    obtain ⟨as', q', has, h⟩ := run_bind_iff.1 h
    cases h
    rw [List.length_cons, ih has]

/-- The cursor goes forward, and reads the same wherever the bytes it reads are the same. -/
structure Local (r : Cursor α) : Prop where
  le : ∀ {code p a q}, r.run code p = some (a, q) → p ≤ q
  congr : ∀ {code code' p a q}, r.run code p = some (a, q) → Agree code code' p q → r.run code' p = some (a, q)

/-- On codes that are the same from a position on, a local cursor does the same there, also where it gives nothing. -/
theorem Local.run_eq (hr : Local r) (h : ∀ k, p ≤ k → code' k = code k) : r.run code' p = r.run code p := by
  cases hc : r.run code p with
  | some x => exact hr.congr hc fun k hk _ => h k hk
  | none =>
    cases hc' : r.run code' p with
    | none => rfl
    | some x =>
      have : r.run code p = some x := hr.congr hc' fun k hk _ => (h k hk).symm
      rw [hc] at this
      cases this

theorem Local.pure (a : α) : Local (pure a) where
  le h := by
    cases h
    exact Nat.le_refl _
  congr h _ := by
    cases h
    rfl

theorem Local.fail : Local (fail : Cursor α) where
  le h := by cases h
  congr h := by cases h

theorem Local.byte : Local byte where
  le h := by
    cases h
    exact Nat.le_succ _
  congr {code code' p a q} h hc := by
    cases h
    rw [run_byte, hc p (Nat.le_refl p) (Nat.lt_succ_self p)]

theorem Local.bind (hr : Local r) (hf : ∀ a, Local (f a)) : Local (r >>= f) where
  le h := by
    obtain ⟨a, q, h₁, h₂⟩ := run_bind_iff.1 h
    exact Nat.le_trans (hr.le h₁) ((hf a).le h₂)
  congr h hc := by
    obtain ⟨a, q, h₁, h₂⟩ := run_bind_iff.1 h
    rw [run_bind (hr.congr h₁ (hc.mono (Nat.le_refl _) ((hf a).le h₂)))]
    exact (hf a).congr h₂ (hc.mono (hr.le h₁) (Nat.le_refl _))

/-- Two local cursors one after the other, and another code that has the bytes which they read. -/
theorem run_two {γ : Type} {g : α → β → γ} {c : γ} (hr : Local r) (hf : ∀ a, Local (f a))
    (h : (r >>= fun a => f a >>= fun b => pure (g a b)).run code p = some (c, q)) (hc : Agree code code' p q) :
    ∃ a p₁ b, r.run code p = some (a, p₁) ∧ (f a).run code p₁ = some (b, q) ∧ Agree code code' p p₁ ∧ Agree code code' p₁ q ∧ g a b = c := by
  obtain ⟨a, p₁, h₁, h⟩ := run_bind_iff.1 h
  obtain ⟨b, q', h₂, h⟩ := run_bind_iff.1 h
  cases h
  exact ⟨a, p₁, b, h₁, h₂, hc.mono (Nat.le_refl p) ((hf a).le h₂), hc.mono (hr.le h₁) (Nat.le_refl q), rfl⟩

theorem Local.times (hr : Local r) (n : Nat) : Local (times r n) := by
  induction n with
  | zero => exact .pure []
  | succ n ih => exact hr.bind fun a => ih.bind fun as => .pure (a :: as)

/-! ## Copies of the code -/

/-- The bytes from `p` up to `q` stand in another code from `p'` on. -/
def Copied (code code' : Code) (p q p' : Nat) : Prop := ∀ k, p + k < q → code' (p' + k) = code (p + k)

theorem Copied.head {p' : Nat} (h : Copied code code' p q p') (hq : q' ≤ q) : Copied code code' p q' p' :=
  fun k hk => h k (Nat.lt_of_lt_of_le hk hq)

theorem Copied.tail {p' : Nat} (h : Copied code code' p q p') (hp : p ≤ q') : Copied code code' q' q (p' + (q' - p)) := by
  intro k hk
  have hk' := h (q' - p + k) (by omega)
  rwa [← Nat.add_assoc, ← Nat.add_assoc, Nat.add_sub_cancel' hp] at hk'

/-- The second cursor reads from a copy what the first one reads. The first one may stop at the address `n`, the second one at `n'`, which is at
least as far away. -/
structure Copies (n n' : Nat) (r r' : Cursor α) : Prop where
  copy : ∀ {code code' p p' a q}, r.run code p = some (a, q) → q ≤ n → n + p' ≤ n' + p → Copied code code' p q p' →
    p ≤ q ∧ r'.run code' p' = some (a, p' + (q - p))

variable {r' : Cursor α} {f' : α → Cursor β} {n' : Nat}

theorem Copies.pure (a : α) : Copies n n' (pure a) (pure a) where
  copy h _ _ _ := by
    cases h
    exact ⟨Nat.le_refl _, by rw [Nat.sub_self, Nat.add_zero]; rfl⟩

theorem Copies.fail : Copies n n' (fail : Cursor α) fail where
  copy h := by cases h

theorem Copies.byte : Copies n n' byte byte where
  copy {code code' p p' a q} h _ _ hc := by
    cases h
    have hb : code' p' = code p := hc 0 (Nat.lt_succ_self p)
    exact ⟨Nat.le_succ p, by rw [run_byte, hb, Nat.add_sub_cancel_left]⟩

theorem Copies.bind (hr : Copies n n' r r') (hf : ∀ a, Copies n n' (f a) (f' a)) (hle : ∀ a, Local (f a)) : Copies n n' (r >>= f) (r' >>= f') where
  copy {code code' p p' b q} h hq hn hc := by
    obtain ⟨a, p₁, h₁, h₂⟩ := run_bind_iff.1 h
    have hp₁ : p₁ ≤ q := (hle a).le h₂
    obtain ⟨hle₁, hrun₁⟩ := hr.copy h₁ (Nat.le_trans hp₁ hq) hn (hc.head hp₁)
    obtain ⟨hle₂, hrun₂⟩ := (hf a).copy h₂ hq (by omega) (hc.tail hle₁)
    have hpos : p' + (p₁ - p) + (q - p₁) = p' + (q - p) := by omega
    exact ⟨Nat.le_trans hle₁ hle₂, by rw [run_bind hrun₁, hrun₂, hpos]⟩

theorem Copies.times (hr : Copies n n' r r') (hle : Local r) (k : Nat) : Copies n n' (times r k) (times r' k) := by
  induction k with
  | zero => exact .pure []
  | succ k ih =>
    exact hr.bind (fun a => ih.bind (fun as => .pure (a :: as)) fun as => .pure _)
      fun a => (hle.times k).bind fun as => .pure _

end Cursor

end WamrMigrate
