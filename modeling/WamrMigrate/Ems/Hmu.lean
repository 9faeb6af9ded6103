import Mathlib.Tactic.NormNum

/-!
# The header word of a heap memory unit

Every chunk starts with one 32-bit word (`hmu_t`): two bits of type, one for the chunk before it being in use, one for a freed object, one not used,
and in the low 27 bits the size without its three low bits. The definitions are the macros of `ems_gc_internal.h`; the lemmas say that each setter
changes its own field only. `hmuSetSize` does not mask its argument, so its lemmas need a size below `2 ^ 30`.
-/

namespace WamrMigrate.Ems

variable {size offset i : Nat} {v : BitVec 32}

/-- `HMU_SIZE`. -/
def hmuSize : Nat := 4

/-- `GC_HEAD_PADDING`. -/
def gcHeadPadding : Nat := 4

/-- `HMU_VO`: the type of a chunk that holds an object. -/
def hmuVO : BitVec 32 := 2

/-- `HMU_FC`: the type of a free chunk. -/
def hmuFC : BitVec 32 := 1

/-- `SETBIT`. -/
def setBit (v : BitVec 32) (offset : Nat) : BitVec 32 := v ||| (1#32 <<< offset)

/-- `GETBIT`. -/
def getBit (v : BitVec 32) (offset : Nat) : Bool := (v &&& (1#32 <<< offset)) != 0

/-- `CLRBIT`. -/
def clrBit (v : BitVec 32) (offset : Nat) : BitVec 32 := v &&& ~~~(1#32 <<< offset)

/-- `SETBITS`. -/
def setBits (v : BitVec 32) (offset size : Nat) (value : BitVec 32) : BitVec 32 :=
  (v &&& ~~~(((1#32 <<< size) - 1#32) <<< offset)) ||| (value <<< offset)

/-- `GETBITS`. -/
def getBits (v : BitVec 32) (offset size : Nat) : BitVec 32 :=
  (v &&& (((1#32 <<< size) - 1#32) <<< offset)) >>> offset

/-- `hmu_get_ut`. -/
def hmuGetUt (v : BitVec 32) : BitVec 32 := getBits v 30 2

/-- `hmu_set_ut`. -/
def hmuSetUt (v : BitVec 32) (type : BitVec 32) : BitVec 32 := setBits v 30 2 type

/-- `hmu_mark_pinuse`. -/
def hmuMarkPinuse (v : BitVec 32) : BitVec 32 := setBit v 29

/-- `hmu_unmark_pinuse`. -/
def hmuUnmarkPinuse (v : BitVec 32) : BitVec 32 := clrBit v 29

/-- `hmu_get_pinuse`. -/
def hmuGetPinuse (v : BitVec 32) : Bool := getBit v 29

/-- `hmu_is_vo_freed`. -/
def hmuIsVoFreed (v : BitVec 32) : Bool := getBit v 28

/-- `hmu_unfree_vo`. -/
def hmuUnfreeVo (v : BitVec 32) : BitVec 32 := clrBit v 28

/-- `hmu_get_size`. -/
def hmuGetSize (v : BitVec 32) : Nat := (getBits v 0 27 <<< 3).toNat

/-- `hmu_set_size`. -/
def hmuSetSize (v : BitVec 32) (size : Nat) : BitVec 32 := setBits v 0 27 (BitVec.ofNat 32 size >>> 3)

theorem getLsbD_mask (h : size < 32) (i : Nat) : ((1#32 <<< size) - 1#32).getLsbD i = decide (i < size) := by
  have e : (1#32 <<< size) - 1#32 = BitVec.ofNat 32 (2 ^ size - 1) := by
    apply BitVec.eq_of_toNat_eq
    have h1 : 2 ^ size < 2 ^ 32 := Nat.pow_lt_pow_right (by omega) h
    have h2 : 0 < 2 ^ size := Nat.two_pow_pos size
    simp only [BitVec.toNat_sub, BitVec.toNat_shiftLeft, BitVec.toNat_ofNat, Nat.shiftLeft_eq]
    omega
  rw [e, BitVec.getLsbD_ofNat, Nat.testBit_two_pow_sub_one]
  by_cases hi : i < size
  · simp [hi]; omega
  · simp [hi]

theorem getLsbD_setBits {x : BitVec 32} (h : size < 32) (hi : i < 32) : (setBits v offset size x).getLsbD i =
      ((v.getLsbD i && !(decide (offset ≤ i) && decide (i < offset + size))) || (decide (offset ≤ i) && x.getLsbD (i - offset))) := by
  unfold setBits
  simp only [BitVec.getLsbD_or, BitVec.getLsbD_and, BitVec.getLsbD_not, BitVec.getLsbD_shiftLeft, hi, getLsbD_mask h]
  by_cases ho : offset ≤ i
  · have e : (i - offset < size) = (i < offset + size) := by simp; omega
    simp [ho, e, Nat.not_lt.2 ho]
  · have : i < offset := by omega
    simp [ho, this]

theorem getLsbD_getBits (h : size < 32) : (getBits v offset size).getLsbD i = (v.getLsbD (offset + i) && decide (i < size)) := by
  unfold getBits
  simp only [BitVec.getLsbD_ushiftRight, BitVec.getLsbD_and, BitVec.getLsbD_shiftLeft, getLsbD_mask h]
  by_cases hi : offset + i < 32
  · simp [hi]
  · simp [hi, BitVec.getLsbD_of_ge v (offset + i) (by omega)]

theorem getLsbD_bit (h : offset < 32) : (1#32 <<< offset).getLsbD i = decide (i = offset) := by
  simp only [BitVec.getLsbD_shiftLeft, BitVec.getLsbD_one]
  by_cases hi : i = offset
  · simp [hi, h]
  · simp [hi]
    omega

theorem getLsbD_setBit (h : offset < 32) : (setBit v offset).getLsbD i = (v.getLsbD i || decide (i = offset)) := by
  rw [setBit, BitVec.getLsbD_or, getLsbD_bit h]

theorem getLsbD_clrBit (h : offset < 32) : (clrBit v offset).getLsbD i = (v.getLsbD i && !decide (i = offset)) := by
  rw [clrBit, BitVec.getLsbD_and, BitVec.getLsbD_not, getLsbD_bit h]
  by_cases hi : i < 32
  · simp [hi]
  · simp [BitVec.getLsbD_of_ge v i (by omega)]

theorem getBit_eq (h : offset < 32) : getBit v offset = v.getLsbD offset := by
  have e : v &&& (1#32 <<< offset) = if v.getLsbD offset then 1#32 <<< offset else 0#32 := by
    apply BitVec.eq_of_getLsbD_eq
    intro i _
    rw [BitVec.getLsbD_and, getLsbD_bit h]
    by_cases hi : i = offset
    · subst hi
      cases v.getLsbD i <;> simp [getLsbD_bit h]
    · cases v.getLsbD offset <;> simp [getLsbD_bit h, hi]
  have hb : 1#32 <<< offset ≠ 0#32 := fun h0 => by
    have := getLsbD_bit h (i := offset)
    simp [h0] at this
  unfold getBit
  rw [e]
  cases v.getLsbD offset <;> simp [hb]

/-! ## Fields of a word -/

section Fields
variable {v x : BitVec 32} {o s o' s' : Nat}

theorem getBits_setBits (hs : s < 32) (ho : o + s ≤ 32) (hx : ∀ j, s ≤ j → x.getLsbD j = false) : getBits (setBits v o s x) o s = x := by
  apply BitVec.eq_of_getLsbD_eq
  intro i _
  rw [getLsbD_getBits hs]
  by_cases hi : i < s
  · rw [getLsbD_setBits hs (by omega)]
    simp [hi]
  · simp [hi, hx i (by omega)]

theorem getBits_setBits_of_disjoint (hs : s < 32) (hs' : s' < 32) (hx : ∀ j, s ≤ j → x.getLsbD j = false)
    (hd : o + s ≤ o' ∨ o' + s' ≤ o) (h' : o' + s' ≤ 32) : getBits (setBits v o s x) o' s' = getBits v o' s' := by
  apply BitVec.eq_of_getLsbD_eq
  intro i _
  rw [getLsbD_getBits hs', getLsbD_getBits hs']
  by_cases hi : i < s'
  · rw [getLsbD_setBits hs (by omega)]
    by_cases hl : o ≤ o' + i
    · have h1 : ¬(o' + i < o + s) := by omega
      simp [h1, hx (o' + i - o) (by omega)]
    · simp [hl]
  · simp [hi]

theorem getBit_setBits_of_disjoint (hs : s < 32) (hx : ∀ j, s ≤ j → x.getLsbD j = false)
    (hd : o + s ≤ o' ∨ o' < o) (h' : o' < 32) : getBit (setBits v o s x) o' = getBit v o' := by
  rw [getBit_eq h', getBit_eq h', getLsbD_setBits hs h']
  by_cases hl : o ≤ o'
  · have h1 : ¬(o' < o + s) := by omega
    simp [h1, hx (o' - o) (by omega)]
  · simp [hl]

theorem getBits_setBit_of_disjoint (hs' : s' < 32) (ho : o < 32) (hd : o < o' ∨ o' + s' ≤ o) : getBits (setBit v o) o' s' = getBits v o' s' := by
  apply BitVec.eq_of_getLsbD_eq
  intro i _
  rw [getLsbD_getBits hs', getLsbD_getBits hs', getLsbD_setBit ho]
  by_cases hi : i < s'
  · have : ¬(o' + i = o) := by omega
    simp [this]
  · simp [hi]

theorem getBits_clrBit_of_disjoint (hs' : s' < 32) (ho : o < 32) (hd : o < o' ∨ o' + s' ≤ o) : getBits (clrBit v o) o' s' = getBits v o' s' := by
  apply BitVec.eq_of_getLsbD_eq
  intro i _
  rw [getLsbD_getBits hs', getLsbD_getBits hs', getLsbD_clrBit ho]
  by_cases hi : i < s'
  · have : ¬(o' + i = o) := by omega
    simp [this]
  · simp [hi]

theorem getBit_setBit (ho : o < 32) (ho' : o' < 32) : getBit (setBit v o) o' = (getBit v o' || decide (o' = o)) := by
  rw [getBit_eq ho', getBit_eq ho', getLsbD_setBit ho]

theorem getBit_clrBit (ho : o < 32) (ho' : o' < 32) : getBit (clrBit v o) o' = (getBit v o' && !decide (o' = o)) := by
  rw [getBit_eq ho', getBit_eq ho', getLsbD_clrBit ho]

end Fields

/-! ## Fields of a header -/

section Header
variable {v t : BitVec 32} {n : Nat}

theorem getLsbD_of_lt_two_pow {k j : Nat} (h : v.toNat < 2 ^ k) (hj : k ≤ j) : v.getLsbD j = false :=
  Nat.testBit_lt_two_pow (Nat.lt_of_lt_of_le h (Nat.pow_le_pow_right (by omega) hj))

theorem ut_high (h : t = hmuVO ∨ t = hmuFC) (j : Nat) (hj : 2 ≤ j) : t.getLsbD j = false := by
  apply getLsbD_of_lt_two_pow (k := 2) ?_ hj
  rcases h with rfl | rfl <;> decide

theorem size_high (h : n < 2 ^ 30) (j : Nat) (hj : 27 ≤ j) : (BitVec.ofNat 32 n >>> 3).getLsbD j = false := by
  apply getLsbD_of_lt_two_pow (k := 27) ?_ hj
  simp only [BitVec.toNat_ushiftRight, BitVec.toNat_ofNat, Nat.shiftRight_eq_div_pow]
  omega

@[simp] theorem hmuGetUt_hmuSetUt (h : t = hmuVO ∨ t = hmuFC) : hmuGetUt (hmuSetUt v t) = t :=
  getBits_setBits (by omega) (by omega) (ut_high h)

@[simp] theorem hmuGetSize_hmuSetUt (h : t = hmuVO ∨ t = hmuFC) : hmuGetSize (hmuSetUt v t) = hmuGetSize v := by
  unfold hmuGetSize hmuSetUt
  rw [getBits_setBits_of_disjoint (by omega) (by omega) (ut_high h) (by omega) (by omega)]

@[simp] theorem hmuGetPinuse_hmuSetUt (h : t = hmuVO ∨ t = hmuFC) : hmuGetPinuse (hmuSetUt v t) = hmuGetPinuse v :=
  getBit_setBits_of_disjoint (by omega) (ut_high h) (by omega) (by omega)

@[simp] theorem hmuGetSize_hmuSetSize (h : n < 2 ^ 30) (h8 : n % 8 = 0) : hmuGetSize (hmuSetSize v n) = n := by
  unfold hmuGetSize hmuSetSize
  rw [getBits_setBits (by omega) (by omega) (size_high h)]
  simp only [BitVec.toNat_shiftLeft, BitVec.toNat_ushiftRight, BitVec.toNat_ofNat, Nat.shiftRight_eq_div_pow,
    Nat.shiftLeft_eq]
  omega

theorem hmuGetSize_lt (v : BitVec 32) : hmuGetSize v < 2 ^ 30 := by
  have hbits : (getBits v 0 27).toNat < 2 ^ 27 := by
    unfold getBits
    rw [BitVec.shiftLeft_zero, BitVec.ushiftRight_zero, BitVec.toNat_and]
    exact Nat.lt_of_le_of_lt Nat.and_le_right (by decide)
  unfold hmuGetSize
  rw [BitVec.toNat_shiftLeft, Nat.shiftLeft_eq]
  omega

@[simp] theorem hmuGetUt_hmuSetSize (h : n < 2 ^ 30) : hmuGetUt (hmuSetSize v n) = hmuGetUt v :=
  getBits_setBits_of_disjoint (by omega) (by omega) (size_high h) (by omega) (by omega)

@[simp] theorem hmuGetPinuse_hmuSetSize (h : n < 2 ^ 30) : hmuGetPinuse (hmuSetSize v n) = hmuGetPinuse v :=
  getBit_setBits_of_disjoint (by omega) (size_high h) (by omega) (by omega)

@[simp] theorem hmuGetUt_hmuMarkPinuse : hmuGetUt (hmuMarkPinuse v) = hmuGetUt v :=
  getBits_setBit_of_disjoint (by omega) (by omega) (by omega)

@[simp] theorem hmuGetSize_hmuMarkPinuse : hmuGetSize (hmuMarkPinuse v) = hmuGetSize v := by
  unfold hmuGetSize hmuMarkPinuse
  rw [getBits_setBit_of_disjoint (by omega) (by omega) (by omega)]

@[simp] theorem hmuGetPinuse_hmuMarkPinuse : hmuGetPinuse (hmuMarkPinuse v) = true := by
  simp [hmuGetPinuse, hmuMarkPinuse, getBit_setBit]

@[simp] theorem hmuIsVoFreed_hmuMarkPinuse : hmuIsVoFreed (hmuMarkPinuse v) = hmuIsVoFreed v := by
  simp [hmuIsVoFreed, hmuMarkPinuse, getBit_setBit]

@[simp] theorem hmuGetUt_hmuUnmarkPinuse : hmuGetUt (hmuUnmarkPinuse v) = hmuGetUt v :=
  getBits_clrBit_of_disjoint (by omega) (by omega) (by omega)

@[simp] theorem hmuGetSize_hmuUnmarkPinuse : hmuGetSize (hmuUnmarkPinuse v) = hmuGetSize v := by
  unfold hmuGetSize hmuUnmarkPinuse
  rw [getBits_clrBit_of_disjoint (by omega) (by omega) (by omega)]

@[simp] theorem hmuGetPinuse_hmuUnmarkPinuse : hmuGetPinuse (hmuUnmarkPinuse v) = false := by
  simp [hmuGetPinuse, hmuUnmarkPinuse, getBit_clrBit]

@[simp] theorem hmuIsVoFreed_hmuUnmarkPinuse : hmuIsVoFreed (hmuUnmarkPinuse v) = hmuIsVoFreed v := by
  simp [hmuIsVoFreed, hmuUnmarkPinuse, getBit_clrBit]

@[simp] theorem hmuGetUt_hmuUnfreeVo : hmuGetUt (hmuUnfreeVo v) = hmuGetUt v :=
  getBits_clrBit_of_disjoint (by omega) (by omega) (by omega)

@[simp] theorem hmuGetSize_hmuUnfreeVo : hmuGetSize (hmuUnfreeVo v) = hmuGetSize v := by
  unfold hmuGetSize hmuUnfreeVo
  rw [getBits_clrBit_of_disjoint (by omega) (by omega) (by omega)]

@[simp] theorem hmuGetPinuse_hmuUnfreeVo : hmuGetPinuse (hmuUnfreeVo v) = hmuGetPinuse v := by
  simp [hmuGetPinuse, hmuUnfreeVo, getBit_clrBit]

@[simp] theorem hmuIsVoFreed_hmuUnfreeVo : hmuIsVoFreed (hmuUnfreeVo v) = false := by
  simp [hmuIsVoFreed, hmuUnfreeVo, getBit_clrBit]

end Header

end WamrMigrate.Ems
