import WamrMigrate.Lib.Leb128
import WamrMigrate.Loader.Leb

/-!
# What the LEB128 readers accept

The loader's `read_leb` is compared with the grammar of the binary format: which bytes it accepts, which value it gives, and where it stops. Its
checks on the last byte are there for `u32`, `s32` and `s64`. For `u64`, which no caller asks for, there is none.
-/

namespace WamrMigrate

open Leb

/-- The `n` bytes of the code from a position on. -/
def bytesAt (code : Code) : Nat → Nat → List UInt8
  | _, 0 => []
  | p, n + 1 => code p :: bytesAt code (p + 1) n

theorem length_bytesAt (code : Code) (p n : Nat) : (bytesAt code p n).length = n := by
  induction n generalizing p with
  | zero => rfl
  | succ n ih => rw [bytesAt, List.length_cons, ih]

namespace Leb

theorem forall_byte {P : UInt8 → Prop} (h : ∀ v : BitVec 8, P ⟨v⟩) (b : UInt8) : P b := h b.toBitVec

theorem and_continue (b : UInt8) : b &&& 0x80 = 0 ↔ b.toNat < 128 := forall_byte (P := fun b => b &&& 0x80 = 0 ↔ b.toNat < 128) (by decide) b

/-- Below the bits of `result` nothing changes, so the group of a byte is added. -/
theorem accumulate_eq {result : BitVec 64} {shift : Nat} (b : UInt8) (hresult : result.toNat < 2 ^ shift) (hshift : shift < 64) :
    accumulate result b shift = .ofNat 64 (result.toNat + b.toNat % 128 * 2 ^ shift) := by
  have hgroup : (b &&& 0x7f).toNat = b.toNat % 128 := forall_byte (P := fun b => (b &&& 0x7f).toNat = b.toNat % 128) (by decide) b
  have hpow : 2 ^ 64 = 2 ^ shift * 2 ^ (64 - shift) := by
    rw [← Nat.pow_add]
    congr 1
    omega
  apply BitVec.eq_of_toNat_eq
  rw [accumulate, BitVec.toNat_or, BitVec.toNat_shiftLeft, BitVec.toNat_setWidth, UInt8.toNat_toBitVec, hgroup, BitVec.toNat_ofNat,
    Nat.shiftLeft_eq, Nat.mod_eq_of_lt (by omega : b.toNat % 128 < 2 ^ 64), Nat.mul_comm (b.toNat % 128), hpow, Nat.mul_mod_mul_left, Nat.or_comm,
    ← Nat.two_pow_add_eq_or_of_lt hresult]
  generalize b.toNat % 128 = c
  generalize 2 ^ (64 - shift) = k at hpow ⊢
  have hk : 0 < k := by
    rcases Nat.eq_zero_or_pos k with rfl | hk
    · omega
    · exact hk
  have hdiv := Nat.div_add_mod c k
  have hlt := Nat.mod_lt c hk
  have hle : 2 ^ shift * (c % k) + 2 ^ shift ≤ 2 ^ shift * k := by
    rw [← Nat.mul_succ]
    exact Nat.mul_le_mul_left _ hlt
  have hsum : 2 ^ shift * (c % k) + result.toNat < 2 ^ shift * k := by omega
  have hsplit : result.toNat + 2 ^ shift * c = 2 ^ shift * (c % k) + result.toNat + 2 ^ shift * k * (c / k) := by
    conv_lhs => rw [← hdiv]
    ring
  rw [hsplit, Nat.add_mul_mod_self_left, Nat.mod_eq_of_lt hsum]

end Leb

namespace Loader

open Leb128

variable {code : Code} {bufEnd n shift p q : Nat} {result : BitVec 64} {x : Scanned}

/-- What the loop leaves behind when it has read the groups of a list of bytes. -/
def scanned (result : BitVec 64) (shift p : Nat) (bs : List UInt8) : Scanned :=
  ⟨.ofNat 64 (result.toNat + raw bs * 2 ^ shift), bs.getLastD 0, shift + 7 * bs.length, p + bs.length⟩

theorem scanned_cons {bs : List UInt8} (b : UInt8) (hne : bs ≠ []) :
    scanned (.ofNat 64 (result.toNat + b.toNat % 128 * 2 ^ shift)) (shift + 7) (p + 1) bs = scanned result shift p (b :: bs) := by
  have hlast : bs.getLastD 0 = (b :: bs).getLastD 0 := by
    cases bs with
    | nil => exact absurd rfl hne
    | cons c cs => rfl
  have hvalue : BitVec.ofNat 64 ((BitVec.ofNat 64 (result.toNat + b.toNat % 128 * 2 ^ shift)).toNat + raw bs * 2 ^ (shift + 7)) =
      .ofNat 64 (result.toNat + raw (b :: bs) * 2 ^ shift) := by
    apply BitVec.eq_of_toNat_eq
    rw [BitVec.toNat_ofNat, BitVec.toNat_ofNat, BitVec.toNat_ofNat, Nat.mod_add_mod, raw, Nat.pow_add]
    congr 1
    ring
  rw [scanned, scanned, hvalue, hlast, List.length_cons]
  congr 1 <;> omega

/-- The loop ends at the first byte that says so, if it is in the buffer and not too far. -/
theorem lebLoop_ok_iff (hresult : result.toNat < 2 ^ shift) (hshift : shift + 7 * n ≤ 70) : lebLoop code bufEnd n result shift p = .ok x ↔
      ∃ bs, bs = bytesAt code p bs.length ∧ Terminated bs ∧ bs.length ≤ n ∧ p + bs.length ≤ bufEnd ∧ x = scanned result shift p bs := by
  induction n generalizing result shift p with
  | zero =>
    refine iff_of_false (by simp [lebLoop]) ?_
    rintro ⟨bs, -, hterm, hlen, -⟩
    exact terminated_ne_nil hterm (List.length_eq_zero_iff.1 (Nat.le_zero.1 hlen))
  | succ n ih =>
    have hacc := accumulate_eq (code p) hresult (by omega)
    -- the first byte of the list is the one read
    have hhead {bs : List UInt8} {b : UInt8} (hbs : b :: bs = bytesAt code p (b :: bs).length) : b = code p ∧ bs = bytesAt code (p + 1) bs.length :=
      List.cons.inj hbs
    rw [lebLoop]
    by_cases hend : bufEnd < p + 1
    · rw [if_pos hend]
      refine iff_of_false (by simp) ?_
      rintro ⟨bs, -, hterm, -, hle, -⟩
      have := List.length_pos_iff.2 (terminated_ne_nil hterm)
      omega
    rw [if_neg hend]
    by_cases hlast : code p &&& 0x80 = 0
    · rw [if_pos hlast, hacc]
      have hlt := (and_continue _).1 hlast
      constructor
      · intro hx
        refine ⟨[code p], rfl, .inl ⟨rfl, hlt⟩, Nat.le_add_left _ _, Nat.not_lt.1 hend, ?_⟩
        rw [← Except.ok.inj hx]
        simp [scanned, raw]
      rintro ⟨_ | ⟨b, bs⟩, hbs, hterm, -, -, rfl⟩
      · exact absurd hterm id
      obtain ⟨rfl, -⟩ := hhead hbs
      rcases hterm with ⟨rfl, -⟩ | ⟨hge, -⟩
      · simp [scanned, raw]
      · omega
    · rw [if_neg hlast, hacc]
      have hge : 128 ≤ (code p).toNat := Nat.not_lt.1 fun hlt => hlast ((and_continue _).2 hlt)
      have hpow : 2 ^ (shift + 7) = 2 ^ shift * 128 := Nat.pow_add 2 shift 7
      have hresult' : (BitVec.ofNat 64 (result.toNat + (code p).toNat % 128 * 2 ^ shift)).toNat < 2 ^ (shift + 7) := by
        have hgroup : (code p).toNat % 128 * 2 ^ shift ≤ 127 * 2 ^ shift := Nat.mul_le_mul_right _ (by omega)
        have hmod := Nat.mod_le (result.toNat + (code p).toNat % 128 * 2 ^ shift) (2 ^ 64)
        rw [BitVec.toNat_ofNat, hpow]
        omega
      rw [ih hresult' (by omega)]
      constructor
      · rintro ⟨bs, hbs, hterm, hlen, hle, rfl⟩
        refine ⟨code p :: bs, by rw [List.length_cons, bytesAt, ← hbs], .inr ⟨hge, hterm⟩, Nat.succ_le_succ hlen, ?_, ?_⟩
        · rw [List.length_cons]
          omega
        · exact scanned_cons _ (terminated_ne_nil hterm)
      rintro ⟨_ | ⟨b, bs⟩, hbs, hterm, hlen, hle, rfl⟩
      · exact absurd hterm id
      obtain ⟨rfl, hrest⟩ := hhead hbs
      rcases hterm with ⟨-, hlt⟩ | ⟨-, hterm⟩
      · omega
      · refine ⟨bs, hrest, hterm, Nat.le_of_succ_le_succ hlen, ?_, (scanned_cons _ (terminated_ne_nil hterm)).symm⟩
        rw [List.length_cons] at hle
        omega

theorem readLeb_ok_iff {N : Nat} {sign : Bool} {r : BitVec 64} (hN : N ≤ 64) : readLeb code bufEnd N sign p = .ok (r, q) ↔
      ∃ bs, bs = bytesAt code p bs.length ∧ Terminated bs ∧ 7 * bs.length < N + 7 ∧ q ≤ bufEnd ∧ q = p + bs.length ∧
        lebCheck N sign (scanned 0#64 0 p bs) = .ok r := by
  rw [readLeb_eq_ok]
  have hloop (x : Scanned) : lebLoop code bufEnd ((N + 6) / 7) 0#64 0 p = .ok x ↔ _ := lebLoop_ok_iff (by decide) (by omega)
  constructor
  · rintro ⟨x, hx, hcheck, rfl⟩
    obtain ⟨bs, hbs, hterm, hlen, hle, rfl⟩ := (hloop x).1 hx
    exact ⟨bs, hbs, hterm, by omega, hle, rfl, hcheck⟩
  · rintro ⟨bs, hbs, hterm, hlen, hle, rfl, hcheck⟩
    exact ⟨_, (hloop _).2 ⟨bs, hbs, hterm, by omega, hle, rfl⟩, hcheck, rfl⟩

end Loader

namespace Leb

theorem setWidth_ofInt {N : Nat} (hN : N ≤ 64) (i : Int) : (BitVec.ofInt 64 i).setWidth N = BitVec.ofInt N i := by
  have hdvd : ((2 ^ N : Nat) : Int) ∣ ((2 ^ 64 : Nat) : Int) := Int.natCast_dvd_natCast.2 (Nat.pow_dvd_pow 2 hN)
  have hpos : (0 : Int) < ((2 ^ N : Nat) : Int) := Int.natCast_pos.2 (Nat.two_pow_pos N)
  apply BitVec.eq_of_toNat_eq
  apply Int.ofNat_inj.1
  rw [BitVec.toNat_setWidth, BitVec.toNat_ofInt, BitVec.toNat_ofInt, Int.natCast_emod, Int.toNat_of_nonneg (Int.emod_nonneg _ (by decide)),
    Int.toNat_of_nonneg (Int.emod_nonneg _ (Int.ne_of_gt hpos)), Int.emod_emod_of_dvd _ hdvd]

/-- What the sign adds does not matter where there is no room for it. -/
theorem ofInt_sub_pow {N k : Nat} (hk : N ≤ k) (i : Int) : BitVec.ofInt N (i - 2 ^ k) = BitVec.ofInt N i := by
  have hpow : (2 : Int) ^ k = ((2 ^ N : Nat) : Int) * 2 ^ (k - N) := by
    rw [← Leb128.intPow N, ← pow_add]
    congr 1
    omega
  apply BitVec.eq_of_toNat_eq
  rw [BitVec.toNat_ofInt, BitVec.toNat_ofInt, hpow, Int.sub_mul_emod_self_left]

theorem signExtend_eq {n shift : Nat} (hn : n < 2 ^ shift) (hshift : shift < 64) : signExtend (.ofNat 64 n) shift = .ofInt 64 (n - 2 ^ shift) := by
  have hpow : 2 ^ 64 = 2 ^ shift * 2 ^ (64 - shift) := by
    rw [← Nat.pow_add]
    congr 1
    omega
  have hlt : 2 ^ shift < 2 ^ 64 := Nat.pow_lt_pow_right (by decide) hshift
  have hones : ((~~~ 0#64) <<< shift).toNat = 2 ^ shift * (2 ^ (64 - shift) - 1) := by
    have hlow : 2 ^ 64 - 2 ^ shift < 2 ^ 64 := by omega
    have hsplit : (2 ^ 64 - 1) * 2 ^ shift = 2 ^ 64 * (2 ^ shift - 1) + (2 ^ 64 - 2 ^ shift) := by
      rw [Nat.sub_mul, Nat.mul_sub, Nat.one_mul, Nat.mul_one]
      omega
    rw [BitVec.toNat_shiftLeft, Nat.shiftLeft_eq, show (~~~ 0#64).toNat = 2 ^ 64 - 1 from rfl, hsplit, Nat.mul_add_mod, Nat.mod_eq_of_lt hlow,
      Nat.mul_sub, Nat.mul_one, ← hpow]
  apply BitVec.eq_of_toNat_eq
  rw [signExtend, BitVec.toNat_or, hones, BitVec.toNat_ofNat, Nat.mod_eq_of_lt (Nat.lt_trans hn hlt), Nat.or_comm,
    ← Nat.two_pow_add_eq_or_of_lt hn, BitVec.toNat_ofInt, Nat.mul_sub, Nat.mul_one, ← hpow, Leb128.intPow]
  omega

end Leb

namespace Loader

open Leb128

variable {bs : List UInt8} {p : Nat}

theorem scanned_result (bs : List UInt8) (p : Nat) : (scanned 0#64 0 p bs).result = .ofNat 64 (raw bs) := by
  rw [scanned, BitVec.toNat_zero, Nat.zero_add, Nat.pow_zero, Nat.mul_one]

theorem setWidth_ofNat {N : Nat} (hN : N ≤ 64) (n : Nat) : (BitVec.ofNat 64 n).setWidth N = BitVec.ofNat N n := by
  rw [← BitVec.ofInt_natCast, setWidth_ofInt hN, BitVec.ofInt_natCast]

theorem scanned_shift (bs : List UInt8) (p : Nat) : (scanned 0#64 0 p bs).shift = 7 * bs.length := Nat.zero_add _

theorem scanned_byte (bs : List UInt8) (p : Nat) : (scanned 0#64 0 p bs).byte = bs.getLastD 0 := rfl

section
variable (hterm : Terminated bs)
include hterm

/-- A number of `u32` takes five groups at most, and of the fifth only four bits may be set. -/
theorem lebCheck_u32 (hlen : 7 * bs.length < 32 + 7) (v : BitVec 32) :
    (∃ r, lebCheck 32 false (scanned 0#64 0 p bs) = .ok r ∧ r.setWidth 32 = v) ↔ raw bs < 2 ^ 32 ∧ .ofNat 32 (raw bs) = v := by
  obtain ⟨-, -, -, hlast⟩ := raw_eq hterm
  have hbits := forall_byte (P := fun b => b.toNat < 128 → (b &&& 0xf0 = 0 ↔ b.toNat < 16)) (by decide) (bs.getLastD 0) hlast
  have hif : (32 ≤ 7 * bs.length ∧ bs.getLastD 0 &&& 0xf0 ≠ 0) ↔ ¬ raw bs < 2 ^ 32 := by
    rw [raw_lt_iff hterm hlen, ne_eq, hbits]
    by_cases hfive : bs.length = 5
    · rw [hfive]
      omega
    · have hpow : 2 ^ 11 ≤ 2 ^ (32 - 7 * (bs.length - 1)) := Nat.pow_le_pow_right (by decide) (by omega)
      omega
  rw [lebCheck, scanned_shift, scanned_byte, scanned_result]
  by_cases hrange : raw bs < 2 ^ 32
  · rw [if_neg fun h => hif.1 h hrange, and_iff_right hrange, ← setWidth_ofNat (by decide)]
    simp
  · rw [if_pos (hif.2 hrange)]
    exact iff_of_false (by simp) fun h => hrange h.1

theorem signed_value {N : Nat} (hN : N ≤ 64) :
    (if 7 * bs.length < N ∧ bs.getLastD 0 &&& 0x40 ≠ 0 then signExtend (.ofNat 64 (raw bs)) (7 * bs.length) else .ofNat 64 (raw bs)).setWidth N =
      BitVec.ofInt N (signed bs) := by
  obtain ⟨low, hlow, hraw, hlast⟩ := raw_eq hterm
  have hbits := forall_byte (P := fun b => b.toNat < 128 → (b &&& 0x40 ≠ 0 ↔ ¬ b.toNat < 64)) (by decide) (bs.getLastD 0) hlast
  have hlt : raw bs < 2 ^ (7 * bs.length) := by
    rw [raw_lt_iff hterm (Nat.lt_add_of_pos_right (by decide))]
    have hpos := List.length_pos_iff.2 (terminated_ne_nil hterm)
    have hexp : 7 * bs.length - 7 * (bs.length - 1) = 7 := by omega
    rwa [hexp]
  rw [signed_eq hterm]
  split
  · rename_i hsign
    rw [signExtend_eq hlt (by omega), setWidth_ofInt hN, if_neg (hbits.1 hsign.2), Leb128.intPow, ← pow_groups, Nat.cast_pow]
    rfl
  rename_i hsign
  rw [setWidth_ofNat hN, ← BitVec.ofInt_natCast]
  split
  · rw [Int.sub_zero]
  rename_i hneg
  have hpow : (128 : Int) ^ bs.length = 2 ^ (7 * bs.length) := by
    rw [Leb128.intPow, ← pow_groups, Nat.cast_pow]
    rfl
  rw [hpow, ofInt_sub_pow (Nat.not_lt.1 fun hlen => hsign ⟨hlen, hbits.2 hneg⟩)]

/-- The check of a signed type: the value is the signed one, and the last group is refused exactly if that is out of range. -/
theorem lebCheck_signed {N : Nat} {refused : Prop} [Decidable refused] (hlen : 7 * bs.length < N + 7) (hN : N ≤ 64)
    (hcheck : lebCheck N true (scanned 0#64 0 p bs) =
      if 7 * bs.length < N then .ok (if bs.getLastD 0 &&& 0x40 ≠ 0 then signExtend (.ofNat 64 (raw bs)) (7 * bs.length) else .ofNat 64 (raw bs))
      else if refused then .error "integer too large" else .ok (.ofNat 64 (raw bs)))
    (hbits : refused ↔ ¬ if (bs.getLastD 0).toNat < 64 then (bs.getLastD 0).toNat < 2 ^ ((N - 1) % 7)
      else 128 ≤ (bs.getLastD 0).toNat + 2 ^ ((N - 1) % 7)) (v : BitVec N) : (∃ r, lebCheck N true (scanned 0#64 0 p bs) = .ok r ∧ r.setWidth N = v) ↔
      (-2 ^ (N - 1) ≤ signed bs ∧ signed bs < 2 ^ (N - 1)) ∧ BitVec.ofInt N (signed bs) = v := by
  have hpos := List.length_pos_iff.2 (terminated_ne_nil hterm)
  have hvalue := signed_value hterm hN
  rw [signed_range_iff hterm hlen, hcheck, ← hvalue]
  by_cases hshort : 7 * bs.length < N
  · have hpow : 2 ^ 7 ≤ 2 ^ (N - 1 - 7 * (bs.length - 1)) := Nat.pow_le_pow_right (by decide) (by omega)
    obtain ⟨-, -, -, hlast⟩ := raw_eq hterm
    rw [and_iff_right (by split <;> omega)]
    simp only [hshort, if_true, true_and, Except.ok.injEq, exists_eq_left']
  · have hexp : N - 1 - 7 * (bs.length - 1) = (N - 1) % 7 := by omega
    rw [hexp, ← not_not (a := ite _ _ _), ← hbits]
    by_cases hrefused : refused <;> simp [hshort, hrefused]

theorem lebCheck_s32 (hlen : 7 * bs.length < 32 + 7) (v : BitVec 32) : (∃ r, lebCheck 32 true (scanned 0#64 0 p bs) = .ok r ∧ r.setWidth 32 = v) ↔
      (-2 ^ 31 ≤ signed bs ∧ signed bs < 2 ^ 31) ∧ BitVec.ofInt 32 (signed bs) = v := by
  obtain ⟨-, -, -, hlast⟩ := raw_eq hterm
  refine lebCheck_signed hterm hlen (by decide) (by rw [lebCheck, scanned_shift, scanned_byte, scanned_result]) ?_ v
  exact forall_byte (P := fun b => b.toNat < 128 →
    ((b &&& 0x08 ≠ 0 ∧ b &&& 0xf0 ≠ 0x70 ∨ b &&& 0x08 = 0 ∧ b &&& 0xf0 ≠ 0) ↔ ¬ if b.toNat < 64 then b.toNat < 8 else 128 ≤ b.toNat + 8))
    (by decide) (bs.getLastD 0) hlast

theorem lebCheck_s64 (hlen : 7 * bs.length < 64 + 7) (v : BitVec 64) : (∃ r, lebCheck 64 true (scanned 0#64 0 p bs) = .ok r ∧ r.setWidth 64 = v) ↔
      (-2 ^ 63 ≤ signed bs ∧ signed bs < 2 ^ 63) ∧ BitVec.ofInt 64 (signed bs) = v := by
  obtain ⟨-, -, -, hlast⟩ := raw_eq hterm
  refine lebCheck_signed hterm hlen (by decide) (by rw [lebCheck, scanned_shift, scanned_byte, scanned_result]) ?_ v
  exact forall_byte (P := fun b => b.toNat < 128 →
    ((b &&& 0x01 ≠ 0 ∧ b &&& 0xfe ≠ 0x7e ∨ b &&& 0x01 = 0 ∧ b &&& 0xfe ≠ 0) ↔ ¬ if b.toNat < 64 then b.toNat < 1 else 128 ≤ b.toNat + 1))
    (by decide) (bs.getLastD 0) hlast

end

theorem lebCheck_u64 (bs : List UInt8) (v : BitVec 64) :
    (∃ r, lebCheck 64 false (scanned 0#64 0 p bs) = .ok r ∧ r.setWidth 64 = v) ↔ .ofNat 64 (raw bs) = v := by
  have hcheck : lebCheck 64 false (scanned 0#64 0 p bs) = .ok (scanned 0#64 0 p bs).result := rfl
  rw [hcheck, scanned_result]
  simp

/-- The bytes are an encoding of a number of the type, and these are the bits of the number. -/
def Encodes (N : Nat) (sign : Bool) (bs : List UInt8) (v : BitVec N) : Prop :=
  match sign with
  | false => ∃ n, EncodesU N bs n ∧ .ofNat N n = v
  | true => ∃ i, EncodesS N bs i ∧ .ofInt N i = v

/-- `read_leb` succeeds on the encodings that end in the buffer, gives their values and goes behind them. -/
def ReadsExactly (code : Code) (bufEnd N : Nat) (sign : Bool) (p : Nat) : Prop :=
  ∀ (v : BitVec N) (q : Nat), (∃ r, readLeb code bufEnd N sign p = .ok (r, q) ∧ r.setWidth N = v) ↔
    ∃ bs, bs = bytesAt code p bs.length ∧ q ≤ bufEnd ∧ q = p + bs.length ∧ Encodes N sign bs v

/-- Where it succeeds, the macro of the interpreter for the type, if there is one, gives the same value and goes to the same place. -/
def ReadsUnchecked (code : Code) (bufEnd N : Nat) (sign : Bool) (p : Nat) : Prop :=
  ∀ r q, readLeb code bufEnd N sign p = .ok (r, q) →
    match N, sign with
    | 32, false => Interp.readLebUint32 code p = some ((r.setWidth 32).toNat, q)
    | 32, true => Interp.readLebInt32 code p = some (r.setWidth 32, q)
    | 64, true => Interp.readLebInt64 code p = some (r, q)
    | _, _ => True

theorem encodes_iff {N : Nat} {sign : Bool} {v : BitVec N} (hN : 0 < N) : Encodes N sign bs v ↔ Terminated bs ∧ 7 * bs.length < N + 7 ∧
      match sign with
      | false => raw bs < 2 ^ N ∧ .ofNat N (raw bs) = v
      | true => (-2 ^ (N - 1) ≤ signed bs ∧ signed bs < 2 ^ (N - 1)) ∧ .ofInt N (signed bs) = v := by
  cases sign <;> simp only [Encodes, encodesU_iff hN, encodesS_iff hN]
  all_goals
    constructor
    · rintro ⟨n, ⟨hterm, hlen, rfl, hrange⟩, hv⟩
      exact ⟨hterm, hlen, hrange, hv⟩
    · rintro ⟨hterm, hlen, hrange, hv⟩
      exact ⟨_, ⟨hterm, hlen, rfl, hrange⟩, hv⟩

variable {code : Code} {bufEnd N : Nat} {sign : Bool}

/-- It is enough that the check on the last byte says what the grammar says. -/
theorem readsExactly_of_check (h0 : 0 < N) (hN : N ≤ 64)
    (hcheck : ∀ bs, bs = bytesAt code p bs.length → Terminated bs → 7 * bs.length < N + 7 → p + bs.length ≤ bufEnd → ∀ v : BitVec N,
      (∃ r, lebCheck N sign (scanned 0#64 0 p bs) = .ok r ∧ r.setWidth N = v) ↔ match sign with
        | false => raw bs < 2 ^ N ∧ .ofNat N (raw bs) = v
        | true => (-2 ^ (N - 1) ≤ signed bs ∧ signed bs < 2 ^ (N - 1)) ∧ .ofInt N (signed bs) = v) :
    ReadsExactly code bufEnd N sign p := by
  intro v q
  constructor
  · rintro ⟨r, hr, hv⟩
    obtain ⟨bs, hbs, hterm, hlen, hle, rfl, hlast⟩ := (readLeb_ok_iff hN).1 hr
    exact ⟨bs, hbs, hle, rfl, (encodes_iff h0).2 ⟨hterm, hlen, (hcheck bs hbs hterm hlen hle v).1 ⟨r, hlast, hv⟩⟩⟩
  rintro ⟨bs, hbs, hle, rfl, henc⟩
  obtain ⟨hterm, hlen, hvalue⟩ := (encodes_iff h0).1 henc
  obtain ⟨r, hlast, hv⟩ := (hcheck bs hbs hterm hlen hle v).2 hvalue
  exact ⟨r, (readLeb_ok_iff hN).2 ⟨bs, hbs, hterm, hlen, hle, rfl, hlast⟩, hv⟩

theorem readsUnchecked (hN : N = 32 ∨ N = 64) : ReadsUnchecked code bufEnd N sign p := by
  intro r q hr
  have hself : Agree code code p q := fun _ _ _ => rfl
  rcases hN with rfl | rfl <;> cases sign
  · exact readLebUint32_unchecked (readLebUint32_eq_ok.2 ⟨r, hr, rfl⟩) hself
  · exact readLebInt32_unchecked (readLebInt32_eq_ok.2 ⟨r, hr, rfl⟩) hself
  · trivial
  · exact readLebInt64_unchecked hr hself

theorem terminated_bytesAt_iff (code : Code) (p n : Nat) :
    Terminated (bytesAt code p (n + 1)) ↔ (∀ i, i < n → 128 ≤ (code (p + i)).toNat) ∧ (code (p + n)).toNat < 128 := by
  induction n generalizing p with
  | zero => simp [bytesAt, Terminated]
  | succ n ih =>
    have hne : bytesAt code (p + 1) (n + 1) ≠ [] := List.cons_ne_nil _ _
    have hshift (i : Nat) : code (p + 1 + i) = code (p + (i + 1)) := congrArg code (by omega)
    rw [bytesAt, terminated_cons hne, ih, ← and_assoc]
    simp only [hshift]
    refine and_congr_left fun _ => ?_
    constructor
    · rintro ⟨hfirst, hrest⟩ i hi
      cases i with
      | zero => exact hfirst
      | succ i => exact hrest i (Nat.lt_of_succ_lt_succ hi)
    · intro hall
      exact ⟨hall 0 (Nat.succ_pos n), fun i hi => hall (i + 1) (Nat.succ_lt_succ hi)⟩

theorem getLastD_bytesAt (code : Code) (p n : Nat) : (bytesAt code p (n + 1)).getLastD 0 = code (p + n) := by
  induction n generalizing p with
  | zero => rfl
  | succ n ih => exact (ih (p + 1)).trans (congrArg code (by omega))

/-- A ninth byte is followed by one of which more than the last bit is set, which has no place in 64 bits. -/
def Overfull (code : Code) (bufEnd p : Nat) : Prop :=
  p + 10 ≤ bufEnd ∧ (∀ i, i < 9 → 128 ≤ (code (p + i)).toNat) ∧ 1 < (code (p + 9)).toNat ∧ (code (p + 9)).toNat < 128

theorem readsExactly_u64_iff : ReadsExactly code bufEnd 64 false p ↔ ¬ Overfull code bufEnd p := by
  have hlen := length_bytesAt code p 10
  have hlast := getLastD_bytesAt code p 9
  constructor
  · rintro hexact ⟨hle, hcont, hmore, hterm⟩
    have hterm := (terminated_bytesAt_iff code p 9).2 ⟨hcont, hterm⟩
    obtain ⟨r, hr, hv⟩ := (lebCheck_u64 (p := p) (bytesAt code p 10) _).2 rfl
    have hread : readLeb code bufEnd 64 false p = .ok (r, p + (bytesAt code p 10).length) := (readLeb_ok_iff (Nat.le_refl 64)).2
      ⟨bytesAt code p 10, by rw [hlen], hterm, by rw [hlen]; decide, by rw [hlen]; exact hle, rfl, hr⟩
    obtain ⟨bs, hbs, -, hnext, henc⟩ := (hexact _ _).1 ⟨r, hread, hv⟩
    obtain ⟨hterm', hlen', hlt, -⟩ := (encodes_iff (by decide)).1 henc
    have hten : bs.length = 10 := by omega
    rw [raw_lt_iff hterm' hlen', hten, hbs, hten, hlast] at hlt
    omega
  intro hover
  refine readsExactly_of_check (by decide) (Nat.le_refl 64) fun bs hbs hterm hlen hle v => (lebCheck_u64 bs v).trans (and_iff_right ?_).symm
  rw [raw_lt_iff hterm hlen]
  by_cases hten : bs.length = 10
  · rw [hten] at hbs hle
    rw [hbs] at hterm
    obtain ⟨hcont, hlt⟩ := (terminated_bytesAt_iff code p 9).1 hterm
    rw [hten, hbs, hlast]
    by_contra hmore
    exact hover ⟨hle, hcont, by omega, hlt⟩
  · have hpow : 2 ^ 7 ≤ 2 ^ (64 - 7 * (bs.length - 1)) := Nat.pow_le_pow_right (by decide) (by omega)
    obtain ⟨-, -, -, hbyte⟩ := raw_eq hterm
    exact Nat.lt_of_lt_of_le hbyte hpow

theorem readsExactly_u32 (code : Code) (bufEnd p : Nat) : ReadsExactly code bufEnd 32 false p :=
  readsExactly_of_check (by decide) (by decide) fun _ _ hterm hlen _ v => lebCheck_u32 hterm hlen v

/-- `read_leb_uint32` reads the encodings of `u32` that end in the buffer. -/
theorem readLebUint32_ok_iff {p v q : Nat} : readLebUint32 code bufEnd p = .ok (v, q) ↔
    ∃ bs, bs = bytesAt code p bs.length ∧ q ≤ bufEnd ∧ q = p + bs.length ∧ EncodesU 32 bs v := by
  rw [readLebUint32_eq_ok]
  constructor
  · rintro ⟨r, hr, rfl⟩
    obtain ⟨bs, hbs, hle, hq, n, henc, hv⟩ := (readsExactly_u32 code bufEnd p (r.setWidth 32) q).1 ⟨r, hr, rfl⟩
    have hlt := ((encodesU_iff (by decide)).1 henc).2.2.2
    rw [← hv, BitVec.toNat_ofNat, Nat.mod_eq_of_lt hlt]
    exact ⟨bs, hbs, hle, hq, henc⟩
  rintro ⟨bs, hbs, hle, hq, henc⟩
  have hlt := ((encodesU_iff (by decide)).1 henc).2.2.2
  obtain ⟨r, hr, hv⟩ := (readsExactly_u32 code bufEnd p (.ofNat 32 v) q).2 ⟨bs, hbs, hle, hq, v, henc, rfl⟩
  refine ⟨r, hr, ?_⟩
  rw [hv, BitVec.toNat_ofNat, Nat.mod_eq_of_lt hlt]

/-- Nine bytes that go on and a tenth one, of value two. -/
def tenBytes : Code := fun i => if i < 9 then 0x80 else 2

end Loader

end WamrMigrate
