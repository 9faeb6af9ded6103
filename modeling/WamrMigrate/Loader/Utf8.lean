import WamrMigrate.Lib.Reader
import WamrMigrate.Loader.ConstStr

/-!
# Well-formed names

A name is well-formed UTF-8 if it is made of the encodings of Unicode scalar values. `check_utf8_str` accepts exactly these, and looks at no byte
behind the end of the name: here a read of such a byte is a fault.
-/

namespace WamrMigrate.Loader

/-- `p[i]`, for the bytes `p` from a pointer up to `p_end`. -/
def byteAt (p : List UInt8) (i : Nat) : Except Fault UInt8 :=
  match p[i]? with
  | some b => .ok b
  | none => .error .short

/-- Tests of the bytes from `p[i]` on. It ends at the first byte that fails, and the bytes behind that are not read. -/
def testBytes (p : List UInt8) : Nat → List (UInt8 → Bool) → Except Fault Bool
  | _, [] => return true
  | i, test :: tests => do
    let b ← byteAt p i
    if test b then testBytes p (i + 1) tests else return false

/-- `check_utf8_str` with its reads. -/
def readUtf8Str : List UInt8 → Except Fault Bool
  | [] => return true
  | chr :: rest =>
    let p := chr :: rest
    if chr < 0x80 then readUtf8Str rest
    else if between 0xC2 0xDF chr ∧ 1 < p.length then do
      if ← testBytes p 1 [between 0x80 0xBF] then readUtf8Str (rest.drop 1) else return false
    else if between 0xE0 0xEF chr ∧ 2 < p.length then do
      if ← testBytes p 1 [secondOfThree chr, between 0x80 0xBF] then readUtf8Str (rest.drop 2) else return false
    else if between 0xF0 0xF4 chr ∧ 3 < p.length then do
      if ← testBytes p 1 [secondOfFour chr, between 0x80 0xBF, between 0x80 0xBF] then readUtf8Str (rest.drop 3) else return false
    else return false
termination_by p => p.length
decreasing_by all_goals simp only [List.length_cons, List.length_drop]; omega

/-- The bytes are the encodings of Unicode scalar values, one after the other. A `Char` is such a value: no surrogate, and not above U+10FFFF. -/
def WellFormed (str : List UInt8) : Prop := ∃ cs : List Char, str = cs.flatMap String.utf8EncodeChar

/-- Tests of bytes that are there read no others. -/
theorem testBytes_eq {p : List UInt8} {i : Nat} {tests : List (UInt8 → Bool)} (h : i + tests.length ≤ p.length) :
    testBytes p i tests = .ok ((tests.zipWith (· ·) (p.drop i)).all id) := by
  induction tests generalizing i with
  | nil => rfl
  | cons test tests ih =>
    rw [List.length_cons] at h
    have hi : i < p.length := by omega
    have hread : byteAt p i = .ok p[i] := by rw [byteAt, List.getElem?_eq_getElem hi]
    rw [testBytes, hread, List.drop_eq_getElem_cons hi, List.zipWith_cons_cons, List.all_cons]
    cases htest : test p[i] with
    | false => simp [bind, Except.bind, htest, pure, Except.pure]
    | true => simpa [bind, Except.bind, htest] using ih (by omega)

/-- A character that is tested in bounds, and then the rest. -/
theorem tested_eq {p : List UInt8} {tests : List (UInt8 → Bool)} {x : Except Fault Bool} {b : Bool} (h : 1 + tests.length ≤ p.length) (hx : x = .ok b) :
    (do if ← testBytes p 1 tests then x else return false) = .ok ((tests.zipWith (· ·) (p.drop 1)).all id && b) := by
  rw [testBytes_eq h, hx]
  cases (tests.zipWith (· ·) (p.drop 1)).all id <;> rfl

/-- A byte is only read behind a test that the string goes on so far. -/
theorem readUtf8Str_eq (str : List UInt8) : readUtf8Str str = .ok (checkUtf8Str str) := by
  fun_induction checkUtf8Str str with
  | case4 chr hascii p₁ rest htwo ih =>
    rw [readUtf8Str, if_neg hascii, if_pos ⟨htwo, by simp⟩]
    exact (tested_eq (by simp) ih).trans (by simp)
  | case6 chr hascii p₁ htwo p₂ rest hthree ih =>
    rw [readUtf8Str, if_neg hascii, if_neg (htwo ·.1), if_pos ⟨hthree, by simp⟩]
    exact (tested_eq (by simp) ih).trans (by simp)
  | case8 chr hascii p₁ htwo p₂ hthree p₃ rest hfour ih =>
    rw [readUtf8Str, if_neg hascii, if_neg (htwo ·.1), if_neg (hthree ·.1), if_pos ⟨hfour, by simp⟩]
    exact (tested_eq (by simp) ih).trans (by simp [Bool.and_assoc])
  | _ =>
    rw [readUtf8Str]
    simp_all [pure, Except.pure]

/-! ## Characters as numbers -/

theorem between_iff {lo hi b : UInt8} : between lo hi b = true ↔ lo.toNat ≤ b.toNat ∧ b.toNat ≤ hi.toNat := by
  simp [between, UInt8.le_iff_toNat_le]

/-- The first of the lead bytes bounds the second byte from below, the other one from above. -/
theorem second_iff {low high lo hi chr b : UInt8} (hne : low ≠ high) (hlo : 0x80 ≤ lo.toNat) (hhi : hi.toNat ≤ 0xBF) :
    (if chr = low then between lo 0xBF b else if chr = high then between 0x80 hi b else between 0x80 0xBF b) = true ↔
      (0x80 ≤ b.toNat ∧ b.toNat ≤ 0xBF) ∧ (chr.toNat = low.toNat → lo.toNat ≤ b.toNat) ∧ (chr.toNat = high.toNat → b.toNat ≤ hi.toNat) := by
  simp only [UInt8.toNat_inj]
  by_cases hlow : chr = low
  · simp [hlow, hne, between_iff]
    omega
  by_cases hhigh : chr = high
  · simp [hhigh, hne.symm, between_iff]
    omega
  · simp [hlow, hhigh, between_iff]

theorem secondOfThree_iff {chr b : UInt8} : secondOfThree chr b = true ↔
    (0x80 ≤ b.toNat ∧ b.toNat ≤ 0xBF) ∧ (chr.toNat = 0xE0 → 0xA0 ≤ b.toNat) ∧ (chr.toNat = 0xED → b.toNat ≤ 0x9F) :=
  second_iff (by decide) (by decide) (by decide)

theorem secondOfFour_iff {chr b : UInt8} : secondOfFour chr b = true ↔
    (0x80 ≤ b.toNat ∧ b.toNat ≤ 0xBF) ∧ (chr.toNat = 0xF0 → 0x90 ≤ b.toNat) ∧ (chr.toNat = 0xF4 → b.toNat ≤ 0x8F) :=
  second_iff (by decide) (by decide) (by decide)

/-! ## A character of each length -/

section

variable {chr p₁ p₂ p₃ : UInt8} {rest : List UInt8}

theorem checkUtf8Str_one (h : chr.toNat < 0x80) : checkUtf8Str (chr :: rest) = checkUtf8Str rest := by
  rw [checkUtf8Str.eq_def]
  exact if_pos (UInt8.lt_iff_toNat_lt.2 h)

theorem checkUtf8Str_two (h : between 0xC2 0xDF chr) (h₁ : between 0x80 0xBF p₁) : checkUtf8Str (chr :: p₁ :: rest) = checkUtf8Str rest := by
  have hascii : ¬ chr < 0x80 := by
    simp [between_iff, UInt8.lt_iff_toNat_lt] at h ⊢
    omega
  rw [checkUtf8Str.eq_def]
  simp [hascii, h, h₁]

theorem checkUtf8Str_three (h : between 0xE0 0xEF chr) (h₁ : secondOfThree chr p₁) (h₂ : between 0x80 0xBF p₂) :
    checkUtf8Str (chr :: p₁ :: p₂ :: rest) = checkUtf8Str rest := by
  have hshort : ¬ chr < 0x80 ∧ ¬ between 0xC2 0xDF chr := by
    simp [between_iff, UInt8.lt_iff_toNat_lt] at h ⊢
    omega
  rw [checkUtf8Str.eq_def]
  simp [hshort, h, h₁, h₂]

theorem checkUtf8Str_four (h : between 0xF0 0xF4 chr) (h₁ : secondOfFour chr p₁) (h₂ : between 0x80 0xBF p₂) (h₃ : between 0x80 0xBF p₃) :
    checkUtf8Str (chr :: p₁ :: p₂ :: p₃ :: rest) = checkUtf8Str rest := by
  have hshort : ¬ chr < 0x80 ∧ ¬ between 0xC2 0xDF chr ∧ ¬ between 0xE0 0xEF chr := by
    simp [between_iff, UInt8.lt_iff_toNat_lt] at h ⊢
    omega
  rw [checkUtf8Str.eq_def]
  simp [hshort, h, h₁, h₂, h₃]

/-- A character whose encoding stands in front of a well-formed string. -/
theorem WellFormed.cons (v : Nat) (bs : List UInt8) (hv : v.isValidChar) (hbs : ∀ c : Char, c.val.toNat = v → String.utf8EncodeChar c = bs)
    (h : WellFormed rest) : WellFormed (bs ++ rest) := by
  obtain ⟨cs, rfl⟩ := h
  refine ⟨Char.ofNatAux v hv :: cs, ?_⟩
  rw [List.flatMap_cons, hbs _ rfl]

theorem WellFormed.one (h : chr < 0x80) (hrest : WellFormed rest) : WellFormed (chr :: rest) := by
  have hlt : chr.toNat < 0x80 := UInt8.lt_iff_toNat_lt.1 h
  refine hrest.cons chr.toNat [chr] (.inl (by omega)) fun c hc => ?_
  simp only [String.utf8EncodeChar, hc]
  rw [if_pos (by omega), UInt8.ofNat_toNat]

theorem WellFormed.two (h : between 0xC2 0xDF chr) (h₁ : between 0x80 0xBF p₁) (hrest : WellFormed rest) : WellFormed (chr :: p₁ :: rest) := by
  simp only [between_iff, UInt8.reduceToNat] at h h₁
  refine hrest.cons ((chr.toNat - 0xC0) * 64 + (p₁.toNat - 0x80)) [chr, p₁] (.inl (by omega)) fun c hc => ?_
  simp only [String.utf8EncodeChar, hc]
  rw [if_neg (by omega), if_pos (by omega)]
  simp [← UInt8.toNat_inj]
  omega

theorem WellFormed.three (h : between 0xE0 0xEF chr) (h₁ : secondOfThree chr p₁) (h₂ : between 0x80 0xBF p₂) (hrest : WellFormed rest) :
    WellFormed (chr :: p₁ :: p₂ :: rest) := by
  simp only [between_iff, secondOfThree_iff, UInt8.reduceToNat] at h h₁ h₂
  have hv : ((chr.toNat - 0xE0) * 4096 + (p₁.toNat - 0x80) * 64 + (p₂.toNat - 0x80)).isValidChar := by
    unfold Nat.isValidChar
    omega
  refine hrest.cons _ [chr, p₁, p₂] hv fun c hc => ?_
  simp only [String.utf8EncodeChar, hc]
  rw [if_neg (by omega), if_neg (by omega), if_pos (by omega)]
  simp [← UInt8.toNat_inj]
  omega

theorem WellFormed.four (h : between 0xF0 0xF4 chr) (h₁ : secondOfFour chr p₁) (h₂ : between 0x80 0xBF p₂) (h₃ : between 0x80 0xBF p₃)
    (hrest : WellFormed rest) : WellFormed (chr :: p₁ :: p₂ :: p₃ :: rest) := by
  simp only [between_iff, secondOfFour_iff, UInt8.reduceToNat] at h h₁ h₂ h₃
  have hv : ((chr.toNat - 0xF0) * 262144 + (p₁.toNat - 0x80) * 4096 + (p₂.toNat - 0x80) * 64 + (p₃.toNat - 0x80)).isValidChar := by
    unfold Nat.isValidChar
    omega
  refine hrest.cons _ [chr, p₁, p₂, p₃] hv fun c hc => ?_
  simp only [String.utf8EncodeChar, hc]
  rw [if_neg (by omega), if_neg (by omega), if_neg (by omega)]
  simp [← UInt8.toNat_inj]
  omega

end

/-- The encoding of a character is accepted, and the rest is looked at next. -/
theorem checkUtf8Str_encode (c : Char) (rest : List UInt8) : checkUtf8Str (String.utf8EncodeChar c ++ rest) = checkUtf8Str rest := by
  have hvalid : c.val.toNat < 0xD800 ∨ 0xDFFF < c.val.toNat ∧ c.val.toNat < 0x110000 := c.valid
  unfold String.utf8EncodeChar
  generalize c.val.toNat = v at hvalid
  simp only
  split
  · refine checkUtf8Str_one ?_
    simp only [UInt8.toNat_ofNat']
    omega
  split
  · refine checkUtf8Str_two ?_ ?_
    all_goals simp only [between_iff, UInt8.toNat_ofNat', UInt8.reduceToNat]
    all_goals omega
  split
  · refine checkUtf8Str_three ?_ ?_ ?_
    all_goals simp only [between_iff, secondOfThree_iff, UInt8.toNat_ofNat', UInt8.reduceToNat]
    all_goals omega
  · refine checkUtf8Str_four ?_ ?_ ?_ ?_
    all_goals simp only [between_iff, secondOfFour_iff, UInt8.toNat_ofNat', UInt8.reduceToNat]
    all_goals omega

/-- Exactly the well-formed strings are accepted. -/
theorem checkUtf8Str_iff (str : List UInt8) : checkUtf8Str str = true ↔ WellFormed str := by
  constructor
  · intro h
    fun_induction checkUtf8Str str with
    | case1 => exact ⟨[], rfl⟩
    | case2 chr rest hascii ih => exact (ih h).one hascii
    | case4 chr hascii p₁ rest htwo ih =>
      obtain ⟨h₁, h⟩ := Bool.and_eq_true_iff.1 h
      exact (ih h).two htwo h₁
    | case6 chr hascii p₁ htwo p₂ rest hthree ih =>
      simp only [Bool.and_eq_true] at h
      obtain ⟨⟨h₁, h₂⟩, h⟩ := h
      exact (ih h).three hthree h₁ h₂
    | case8 chr hascii p₁ htwo p₂ hthree p₃ rest hfour ih =>
      simp only [Bool.and_eq_true] at h
      obtain ⟨⟨⟨h₁, h₂⟩, h₃⟩, h⟩ := h
      exact (ih h).four hfour h₁ h₂ h₃
    | _ => cases h
  · rintro ⟨cs, rfl⟩
    induction cs with
    | nil => rfl
    | cons c cs ih => rw [List.flatMap_cons, checkUtf8Str_encode, ih]

/-- Whatever the string, no byte behind its end is read, and it is accepted exactly if it is well-formed. -/
theorem readUtf8Str_accepts_wellFormed (str : List UInt8) : ∃ accepted, readUtf8Str str = .ok accepted ∧ (accepted = true ↔ WellFormed str) :=
  ⟨checkUtf8Str str, readUtf8Str_eq str, checkUtf8Str_iff str⟩

end WamrMigrate.Loader
