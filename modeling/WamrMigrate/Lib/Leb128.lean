import Mathlib.Tactic.Ring

/-!
# LEB128

The integers of the WebAssembly binary format: groups of seven bits, the lowest first, in bytes whose highest bit says that another one follows. The
grammars of `uN` and `sN` bound the number of bytes and fix the bits of the last byte that the type has no room for: the number that all the groups
make up is in the range of the type.
-/

namespace Leb128

variable {bs : List UInt8} {N n : Nat}

/-- The grammar of `uN`. -/
inductive EncodesU : Nat → List UInt8 → Nat → Prop
  | last {N : Nat} {b : UInt8} (h : b.toNat < 2 ^ 7) (hN : b.toNat < 2 ^ N) : EncodesU N [b] b.toNat
  | more {N : Nat} {b : UInt8} {bs : List UInt8} {m : Nat} (h : 2 ^ 7 ≤ b.toNat) (hN : 7 < N) (hm : EncodesU (N - 7) bs m) :
    EncodesU N (b :: bs) (2 ^ 7 * m + (b.toNat - 2 ^ 7))

/-- The grammar of `sN`. -/
inductive EncodesS : Nat → List UInt8 → Int → Prop
  | pos {N : Nat} {b : UInt8} (h : b.toNat < 2 ^ 6) (hN : b.toNat < 2 ^ (N - 1)) : EncodesS N [b] b.toNat
  | neg {N : Nat} {b : UInt8} (h : 2 ^ 6 ≤ b.toNat) (h' : b.toNat < 2 ^ 7) (hN : 2 ^ 7 ≤ b.toNat + 2 ^ (N - 1)) : EncodesS N [b] (b.toNat - 2 ^ 7)
  | more {N : Nat} {b : UInt8} {bs : List UInt8} {m : Int} (h : 2 ^ 7 ≤ b.toNat) (hN : 7 < N) (hm : EncodesS (N - 7) bs m) :
    EncodesS N (b :: bs) (2 ^ 7 * m + (b.toNat - 2 ^ 7))

/-- All bytes but the last one say that another one follows. -/
def Terminated : List UInt8 → Prop
  | [] => False
  | b :: bs => (bs = [] ∧ b.toNat < 128) ∨ (128 ≤ b.toNat ∧ Terminated bs)

/-- The number that the groups make up. -/
def raw : List UInt8 → Nat
  | [] => 0
  | b :: bs => b.toNat % 128 + 128 * raw bs

/-- The same number in two's complement. -/
def signed : List UInt8 → Int
  | [] => 0
  | [b] => if b.toNat % 128 < 64 then b.toNat % 128 else b.toNat % 128 - 128
  | b :: bs => b.toNat % 128 + 128 * signed bs

theorem terminated_ne_nil (h : Terminated bs) : bs ≠ [] := by
  rintro rfl
  exact h

theorem terminated_cons {b : UInt8} (hne : bs ≠ []) : Terminated (b :: bs) ↔ 128 ≤ b.toNat ∧ Terminated bs := by
  rw [Terminated, or_iff_right fun h => hne h.1]

theorem signed_cons {b : UInt8} (hne : bs ≠ []) : signed (b :: bs) = b.toNat % 128 + 128 * signed bs := by
  cases bs with
  | nil => exact absurd rfl hne
  | cons c cs => rfl

theorem encodesU_iff (hN : 0 < N) : EncodesU N bs n ↔ Terminated bs ∧ 7 * bs.length < N + 7 ∧ raw bs = n ∧ n < 2 ^ N := by
  induction bs generalizing N n with
  | nil =>
    constructor
    · nofun
    · rintro ⟨h, -⟩
      exact absurd h id
  | cons b bs ih =>
    have hb := b.toNat_lt
    constructor
    · intro h
      cases h with
      | last h hN' => exact ⟨.inl ⟨rfl, h⟩, by simpa using hN, by simp [raw]; omega, hN'⟩
      | @more _ _ _ m h hN' hm =>
        obtain ⟨hterm, hlen, hraw, hlt⟩ := (ih (by omega)).1 hm
        have hpow : 2 ^ N = 2 ^ 7 * 2 ^ (N - 7) := by rw [← Nat.pow_add]; congr 1; omega
        refine ⟨.inr ⟨h, hterm⟩, by rw [List.length_cons]; omega, ?_, ?_⟩
        · rw [raw, hraw]
          omega
        · rw [hpow]
          omega
    rintro ⟨hterm, hlen, rfl, hlt⟩
    rcases hterm with ⟨rfl, hb'⟩ | ⟨hb', hterm⟩
    · have hraw : raw [b] = b.toNat := by
        simp only [raw]
        omega
      rw [hraw] at hlt ⊢
      exact .last hb' hlt
    have hpos := List.length_pos_iff.2 (terminated_ne_nil hterm)
    have hN' : 7 < N := by
      rw [List.length_cons] at hlen
      omega
    have hpow : 2 ^ N = 2 ^ 7 * 2 ^ (N - 7) := by rw [← Nat.pow_add]; congr 1; omega
    have hrest := (ih (N := N - 7) (n := raw bs) (by omega)).2
      ⟨hterm, by rw [List.length_cons] at hlen; omega, rfl, by rw [raw, hpow] at hlt; omega⟩
    have hraw : raw (b :: bs) = 2 ^ 7 * raw bs + (b.toNat - 2 ^ 7) := by
      rw [raw]
      omega
    rw [hraw]
    exact .more hb' hN' hrest

theorem exists_encodesU (h : n < 2 ^ N) : ∃ bs, EncodesU N bs n := by
  induction N using Nat.strong_induction_on generalizing n with
  | _ N ih =>
    by_cases hsmall : n < 2 ^ 7
    · have hb : (UInt8.ofNat n).toNat = n := UInt8.toNat_ofNat_of_lt (Nat.lt_trans hsmall (by decide))
      have hlast : EncodesU N [UInt8.ofNat n] (UInt8.ofNat n).toNat := .last (by rwa [hb]) (by rwa [hb])
      rw [hb] at hlast
      exact ⟨_, hlast⟩
    have hN : 7 < N := by
      by_contra hle
      exact hsmall (Nat.lt_of_lt_of_le h (Nat.pow_le_pow_right (by decide) (Nat.not_lt.1 hle)))
    have hpow : 2 ^ N = 2 ^ (N - 7) * 2 ^ 7 := by rw [← Nat.pow_add]; congr 1; omega
    obtain ⟨bs, hbs⟩ := ih (N - 7) (by omega) (Nat.div_lt_of_lt_mul (by rwa [Nat.mul_comm, ← hpow]) : n / 2 ^ 7 < 2 ^ (N - 7))
    have hlow : n % 2 ^ 7 + 2 ^ 7 < 2 ^ 8 := by have := Nat.mod_lt n (Nat.two_pow_pos 7); omega
    have hb : (UInt8.ofNat (n % 2 ^ 7 + 2 ^ 7)).toNat = n % 2 ^ 7 + 2 ^ 7 := UInt8.toNat_ofNat_of_lt hlow
    have hmore := EncodesU.more (N := N) (b := UInt8.ofNat (n % 2 ^ 7 + 2 ^ 7)) (by rw [hb]; omega) hN hbs
    rw [hb, Nat.add_sub_cancel, Nat.div_add_mod] at hmore
    exact ⟨_, hmore⟩

/-- An encoding ends where its bytes say, so that no two ones start the same bytes. -/
theorem EncodesU.unique {n' : Nat} {bs' rest rest' : List UInt8} (h : EncodesU N bs n) (h' : EncodesU N bs' n')
    (heq : bs ++ rest = bs' ++ rest') : bs = bs' ∧ n = n' ∧ rest = rest' := by
  induction h generalizing bs' n' with
  | last hb =>
    cases h' with
    | last =>
      obtain ⟨rfl, rfl⟩ := List.cons.inj heq
      exact ⟨rfl, rfl, rfl⟩
    | more hb' =>
      obtain ⟨rfl, -⟩ := List.cons.inj heq
      exact absurd hb (Nat.not_lt.2 hb')
  | more hb _ _ ih =>
    cases h' with
    | last hb' =>
      obtain ⟨rfl, -⟩ := List.cons.inj heq
      exact absurd hb' (Nat.not_lt.2 hb)
    | more _ _ hm' =>
      obtain ⟨rfl, htail⟩ := List.cons.inj heq
      obtain ⟨rfl, rfl, rfl⟩ := ih hm' htail
      exact ⟨rfl, rfl, rfl⟩

theorem getLastD_cons {b : UInt8} (hne : bs ≠ []) : (b :: bs).getLastD 0 = bs.getLastD 0 := by
  cases bs with
  | nil => exact absurd rfl hne
  | cons c cs => rfl

theorem raw_eq (h : Terminated bs) :
    ∃ low, low < 128 ^ (bs.length - 1) ∧ raw bs = low + 128 ^ (bs.length - 1) * (bs.getLastD 0).toNat ∧ (bs.getLastD 0).toNat < 128 := by
  induction bs with
  | nil => exact absurd h id
  | cons b bs ih =>
    rcases h with ⟨rfl, hb⟩ | ⟨-, hterm⟩
    · refine ⟨0, Nat.one_pos, ?_, hb⟩
      rw [raw, raw]
      simp only [List.length_singleton, List.getLastD_cons, List.getLastD_nil, Nat.sub_self, Nat.pow_zero]
      omega
    obtain ⟨low, hlow, hraw, hlast⟩ := ih hterm
    have hne := terminated_ne_nil hterm
    have hlen : (b :: bs).length - 1 = bs.length - 1 + 1 := by
      have := List.length_pos_iff.2 hne
      rw [List.length_cons]
      omega
    rw [getLastD_cons hne, hlen, Nat.pow_succ]
    refine ⟨b.toNat % 128 + 128 * low, by omega, ?_, hlast⟩
    rw [raw, hraw]
    ring

theorem signed_eq (h : Terminated bs) : signed bs = raw bs - if (bs.getLastD 0).toNat < 64 then 0 else 128 ^ bs.length := by
  induction bs with
  | nil => exact absurd h id
  | cons b bs ih =>
    rcases h with ⟨rfl, hb⟩ | ⟨-, hterm⟩
    · simp only [signed, raw, List.getLastD_cons, List.getLastD_nil, List.length_singleton]
      split <;> split <;> omega
    have hne := terminated_ne_nil hterm
    rw [signed_cons hne, ih hterm, getLastD_cons hne, raw, List.length_cons, pow_succ]
    push_cast
    split <;> ring

theorem intPow (k : Nat) : (2 : Int) ^ k = ((2 ^ k : Nat) : Int) := by
  rw [Nat.cast_pow]
  rfl

theorem encodesS_iff {i : Int} (hN : 0 < N) :
    EncodesS N bs i ↔ Terminated bs ∧ 7 * bs.length < N + 7 ∧ signed bs = i ∧ -2 ^ (N - 1) ≤ i ∧ i < 2 ^ (N - 1) := by
  induction bs generalizing N i with
  | nil =>
    constructor
    · nofun
    · rintro ⟨h, -⟩
      exact absurd h id
  | cons b bs ih =>
    have hb := b.toNat_lt
    have hpow (h : 7 < N) : 2 ^ (N - 1) = 2 ^ 7 * 2 ^ (N - 7 - 1) := by rw [← Nat.pow_add]; congr 1; omega
    constructor
    · intro h
      rw [intPow]
      cases h with
      | pos h hN' => exact ⟨.inl ⟨rfl, by omega⟩, by simpa using hN, by rw [signed, if_pos (by omega)]; omega, by omega, by omega⟩
      | neg h h' hN' => exact ⟨.inl ⟨rfl, h'⟩, by simpa using hN, by rw [signed, if_neg (by omega)]; omega, by omega, by omega⟩
      | @more _ _ _ m h hN' hm =>
        obtain ⟨hterm, hlen, hm, hle, hlt⟩ := (ih (by omega)).1 hm
        rw [intPow] at hle hlt
        rw [hpow hN']
        refine ⟨.inr ⟨h, hterm⟩, by rw [List.length_cons]; omega, ?_, by omega, by omega⟩
        rw [signed_cons (terminated_ne_nil hterm), hm]
        omega
    rintro ⟨hterm, hlen, rfl, hle, hlt⟩
    rw [intPow] at hle hlt
    rcases hterm with ⟨rfl, hb'⟩ | ⟨hb', hterm⟩
    · have hmod : (b.toNat : Int) % 128 = b.toNat := by omega
      rw [signed] at hle hlt ⊢
      split at hle
      · rename_i hpos
        rw [if_pos hpos] at hlt
        rw [if_pos hpos, hmod]
        exact .pos (by omega) (by omega)
      rename_i hneg
      rw [if_neg hneg] at hlt
      rw [if_neg hneg, hmod]
      exact .neg (by omega) hb' (by omega)
    have hpos := List.length_pos_iff.2 (terminated_ne_nil hterm)
    have hN' : 7 < N := by
      rw [List.length_cons] at hlen
      omega
    have hsigned : signed (b :: bs) = 2 ^ 7 * signed bs + (b.toNat - 2 ^ 7) := by
      rw [signed_cons (terminated_ne_nil hterm)]
      omega
    rw [hsigned, hpow hN'] at hle hlt
    rw [hsigned]
    refine .more hb' hN' ((ih (by omega)).2 ⟨hterm, by rw [List.length_cons] at hlen; omega, rfl, ?_, ?_⟩)
    · rw [intPow]
      omega
    · rw [intPow]
      omega

theorem pow_groups (len : Nat) : 128 ^ len = 2 ^ (7 * len) := Nat.pow_mul 2 7 len ▸ rfl

/-- Only the last group decides whether a number is in the range of the type. -/
theorem raw_lt_iff (h : Terminated bs) (hlen : 7 * bs.length < N + 7) : raw bs < 2 ^ N ↔ (bs.getLastD 0).toNat < 2 ^ (N - 7 * (bs.length - 1)) := by
  obtain ⟨low, hlow, hraw, -⟩ := raw_eq h
  have hpow : 2 ^ N = 128 ^ (bs.length - 1) * 2 ^ (N - 7 * (bs.length - 1)) := by
    rw [pow_groups, ← Nat.pow_add]
    congr 1
    omega
  rw [hraw, hpow]
  generalize 128 ^ (bs.length - 1) = k at hlow
  constructor
  · intro hlt
    exact Nat.lt_of_mul_lt_mul_left (Nat.lt_of_le_of_lt (Nat.le_add_left _ _) hlt)
  intro hlt
  calc low + k * (bs.getLastD 0).toNat < k + k * (bs.getLastD 0).toNat := Nat.add_lt_add_right hlow _
    _ = k * ((bs.getLastD 0).toNat + 1) := by ring
    _ ≤ _ := Nat.mul_le_mul_left _ hlt

theorem signed_range_iff (h : Terminated bs) (hlen : 7 * bs.length < N + 7) : (-2 ^ (N - 1) ≤ signed bs ∧ signed bs < 2 ^ (N - 1)) ↔
      if (bs.getLastD 0).toNat < 64 then (bs.getLastD 0).toNat < 2 ^ (N - 1 - 7 * (bs.length - 1))
      else 128 ≤ (bs.getLastD 0).toNat + 2 ^ (N - 1 - 7 * (bs.length - 1)) := by
  obtain ⟨low, hlow, hraw, hlast⟩ := raw_eq h
  have hpos := List.length_pos_iff.2 (terminated_ne_nil h)
  have hpow : (2 : Int) ^ (N - 1) = (128 ^ (bs.length - 1) : Nat) * (2 ^ (N - 1 - 7 * (bs.length - 1)) : Nat) := by
    rw [intPow, ← Nat.cast_mul, pow_groups, ← Nat.pow_add]
    congr 2
    omega
  have hfull : (128 : Int) ^ bs.length = (128 ^ (bs.length - 1) : Nat) * 128 := by
    have hsucc : 128 ^ bs.length = 128 ^ (bs.length - 1) * 128 := by
      rw [← Nat.pow_succ]
      congr 1
      omega
    have hcast : (128 : Int) ^ bs.length = (128 ^ bs.length : Nat) := by rw [Nat.cast_pow]; rfl
    rw [hcast, hsucc, Nat.cast_mul]
    rfl
  rw [signed_eq h, hraw, hpow, hfull, Nat.cast_add, Nat.cast_mul]
  generalize 128 ^ (bs.length - 1) = k at hlow
  generalize 2 ^ (N - 1 - 7 * (bs.length - 1)) = m
  generalize (bs.getLastD 0).toNat = b at hlast
  split
  · rw [Int.sub_zero, ← Nat.cast_mul, ← Nat.cast_mul, ← Nat.cast_add]
    constructor
    · rintro ⟨-, hlt⟩
      have hlt' : low + k * b < k * m := by exact_mod_cast hlt
      exact Nat.lt_of_mul_lt_mul_left (Nat.lt_of_le_of_lt (Nat.le_add_left _ _) hlt')
    intro hlt
    have hle := Nat.mul_le_mul_left k (Nat.succ_le_of_lt hlt)
    rw [Nat.mul_succ] at hle
    omega
  constructor
  · rintro ⟨hle, -⟩
    by_contra hlt
    have hle' := Nat.mul_le_mul_left k (show b + m + 1 ≤ 128 by omega)
    rw [Nat.mul_add, Nat.mul_add] at hle'
    have : ((k * b + k * m + k * 1 : Nat) : Int) ≤ (k * 128 : Nat) := by exact_mod_cast hle'
    push_cast at this
    omega
  intro hge
  have hle := Nat.mul_le_mul_left k hge
  have hle' := Nat.mul_le_mul_left k (show b + 1 ≤ 128 by omega)
  rw [Nat.mul_add] at hle hle'
  have hcast : ((k * 128 : Nat) : Int) ≤ (k * b + k * m : Nat) := by exact_mod_cast hle
  have hcast' : ((k * b + k * 1 : Nat) : Int) ≤ (k * 128 : Nat) := by exact_mod_cast hle'
  have hnonneg : (0 : Int) ≤ (k * m : Nat) := Int.natCast_nonneg _
  push_cast at hcast hcast' hnonneg
  constructor <;> omega

end Leb128
