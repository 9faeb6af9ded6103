import WamrMigrate.Lib.Cursor

/-!
# LEB128 integers

The loader's `read_leb` bounds the number of bytes, stays in the body and checks the bits of the last byte that the type has no room for; the
interpreter's trusts the code, and its macros take a one-byte integer without calling it. Where the loader's reader succeeds, the interpreter's
gives the same value and stops at the same byte.
-/

namespace WamrMigrate

namespace Leb

/-- What the loops of both readers leave behind: `result`, the last byte, `shift`, and the position after the last byte. -/
structure Scanned where
  result : BitVec 64
  byte : UInt8
  shift : Nat
  next : Nat

/-- `result | (byte & 0x7f) << shift`. -/
def accumulate (result : BitVec 64) (byte : UInt8) (shift : Nat) : BitVec 64 :=
  result ||| ((byte &&& 0x7f).toBitVec.setWidth 64 <<< shift)

/-- `result | ~0 << shift`. -/
def signExtend (result : BitVec 64) (shift : Nat) : BitVec 64 := result ||| ((~~~ 0#64) <<< shift)

end Leb

open Leb

namespace Loader

/-- The loop of `read_leb`. The first argument is how many more bytes the type may take. -/
def lebLoop (code : Code) (bufEnd : Nat) : Nat → BitVec 64 → Nat → Nat → Except String Scanned
  | 0, _, _, _ => .error "integer representation too long"
  | n + 1, result, shift, p =>
    if bufEnd < p + 1 then .error "unexpected end of section or function"
    else if code p &&& 0x80 = 0 then .ok ⟨accumulate result (code p) shift, code p, shift + 7, p + 1⟩
    else lebLoop code bufEnd n (accumulate result (code p) shift) (shift + 7) (p + 1)

/-- What `read_leb` does after its loop with the last byte, for the types `uint32`, `int32` and `int64`. -/
def lebCheck (maxbits : Nat) (sign : Bool) (x : Scanned) : Except String (BitVec 64) :=
  let tooLarge : Except String (BitVec 64) := .error "integer too large"
  match sign, maxbits with
  | false, 32 => if 32 ≤ x.shift ∧ x.byte &&& 0xf0 ≠ 0 then tooLarge else .ok x.result
  | true, 32 =>
    if x.shift < 32 then .ok (if x.byte &&& 0x40 ≠ 0 then signExtend x.result x.shift else x.result)
    else if x.byte &&& 0x08 ≠ 0 ∧ x.byte &&& 0xf0 ≠ 0x70 ∨ x.byte &&& 0x08 = 0 ∧ x.byte &&& 0xf0 ≠ 0 then tooLarge
    else .ok x.result
  | true, 64 =>
    if x.shift < 64 then .ok (if x.byte &&& 0x40 ≠ 0 then signExtend x.result x.shift else x.result)
    else if x.byte &&& 0x01 ≠ 0 ∧ x.byte &&& 0xfe ≠ 0x7e ∨ x.byte &&& 0x01 = 0 ∧ x.byte &&& 0xfe ≠ 0 then tooLarge
    else .ok x.result
  | _, _ => .ok x.result

/-- `read_leb` of the loader: the value and the position behind it. -/
def readLeb (code : Code) (bufEnd maxbits : Nat) (sign : Bool) (p : Nat) : Except String (BitVec 64 × Nat) := do
  let x ← lebLoop code bufEnd ((maxbits + 6) / 7) 0#64 0 p
  return (← lebCheck maxbits sign x, x.next)

/-- `read_leb_uint32` of the loader. -/
def readLebUint32 (code : Code) (bufEnd p : Nat) : Except String (Nat × Nat) := do
  let (result, next) ← readLeb code bufEnd 32 false p
  return ((result.setWidth 32).toNat, next)

/-- `read_leb_int32` of the loader. -/
def readLebInt32 (code : Code) (bufEnd p : Nat) : Except String (BitVec 32 × Nat) := do
  let (result, next) ← readLeb code bufEnd 32 true p
  return (result.setWidth 32, next)

/-- `read_leb_int64` of the loader. -/
def readLebInt64 (code : Code) (bufEnd p : Nat) : Except String (BitVec 64 × Nat) := readLeb code bufEnd 64 true p

end Loader

namespace Interp

/-- The loop of `read_leb` of the interpreter. It ends at the first byte without the continuation bit. The first argument counts down
to the byte whose bits would be shifted out of `result` altogether, which is undefined. -/
def lebLoop (code : Code) : Nat → BitVec 64 → Nat → Nat → Option Scanned
  | 0, _, _, _ => none
  | n + 1, result, shift, p =>
    if code p &&& 0x80 = 0 then some ⟨accumulate result (code p) shift, code p, shift + 7, p + 1⟩
    else lebLoop code n (accumulate result (code p) shift) (shift + 7) (p + 1)

/-- `read_leb` of the interpreter. -/
def readLeb (code : Code) (maxbits : Nat) (sign : Bool) (p : Nat) : Option (BitVec 64 × Nat) :=
  (lebLoop code 10 0#64 0 p).map fun x =>
    (if sign ∧ x.shift < maxbits ∧ x.byte &&& 0x40 ≠ 0 then signExtend x.result x.shift else x.result, x.next)

/-- `read_leb_uint32` of the interpreter. -/
def readLebUint32 (code : Code) (p : Nat) : Option (Nat × Nat) :=
  if code p &&& 0x80 = 0 then some ((code p).toNat, p + 1)
  else (readLeb code 32 false p).map fun x => ((x.1.setWidth 32).toNat, x.2)

/-- `read_leb_int32` of the interpreter. -/
def readLebInt32 (code : Code) (p : Nat) : Option (BitVec 32 × Nat) :=
  if code p &&& 0x80 = 0 then
    let val := (code p).toBitVec.setWidth 32
    some (if code p &&& 0x40 ≠ 0 then val ||| 0xFFFFFF80#32 else val, p + 1)
  else (readLeb code 32 true p).map fun x => (x.1.setWidth 32, x.2)

/-- `read_leb_int64` of the interpreter. -/
def readLebInt64 (code : Code) (p : Nat) : Option (BitVec 64 × Nat) :=
  if code p &&& 0x80 = 0 then
    let val := (code p).toBitVec.setWidth 64
    some (if code p &&& 0x40 ≠ 0 then val ||| 0xFFFFFFFFFFFFFF80#64 else val, p + 1)
  else readLeb code 64 true p

/-- `skip_leb`, cut off like the loop above: nothing that the loader lets through is longer. -/
def skipLeb (code : Code) : Nat → Nat → Option Nat
  | 0, _ => none
  | n + 1, p => if code p &&& 0x80 = 0 then some (p + 1) else skipLeb code n (p + 1)

end Interp

/-! ## What a successful read took -/

namespace Loader

variable {code code' : Code} {bufEnd n shift p : Nat} {result : BitVec 64} {x : Scanned}

section
variable (h : lebLoop code bufEnd n result shift p = .ok x)
include h

theorem lebLoop_bounds : p < x.next ∧ x.next ≤ bufEnd ∧ x.next ≤ p + n := by
  induction n generalizing result shift p with
  | zero => simp [lebLoop] at h
  | succ n ih =>
    simp only [lebLoop] at h
    split at h
    · cases h
    split at h
    · cases h
      exact ⟨Nat.lt_succ_self p, Nat.not_lt.1 ‹_›, by simp⟩
    · have := ih h
      omega

theorem lebLoop_unchecked {m : Nat} (hm : n ≤ m) : Interp.lebLoop code m result shift p = some x := by
  induction n generalizing result shift p m with
  | zero => simp [lebLoop] at h
  | succ n ih =>
    obtain ⟨m, rfl⟩ : ∃ k, m = k + 1 := ⟨m - 1, by omega⟩
    simp only [lebLoop] at h
    simp only [Interp.lebLoop]
    split at h
    · cases h
    split at h
    · rw [if_pos ‹_›]
      cases h
      rfl
    · rw [if_neg ‹_›]
      exact ih h (by omega)

theorem lebLoop_skip {m : Nat} (hm : x.next ≤ p + m) : Interp.skipLeb code m p = some x.next := by
  induction n generalizing result shift p m with
  | zero => simp [lebLoop] at h
  | succ n ih =>
    have hlt : p < x.next := (lebLoop_bounds h).1
    obtain ⟨m, rfl⟩ : ∃ k, m = k + 1 := ⟨m - 1, by omega⟩
    simp only [lebLoop] at h
    simp only [Interp.skipLeb]
    split at h
    · cases h
    split at h
    · rw [if_pos ‹_›]
      cases h
      rfl
    · rw [if_neg ‹_›]
      exact ih h (by omega)

theorem lebLoop_copied {bufEnd' p' : Nat} (hend : bufEnd + p' ≤ bufEnd' + p) (hc : Cursor.Copied code code' p x.next p') :
    lebLoop code' bufEnd' n result shift p' = .ok { x with next := p' + (x.next - p) } := by
  induction n generalizing result shift p p' with
  | zero => simp [lebLoop] at h
  | succ n ih =>
    obtain ⟨hlt, hle, -⟩ := lebLoop_bounds h
    have hp : code' p' = code p := hc 0 hlt
    simp only [lebLoop, hp] at h ⊢
    split at h
    · cases h
    rw [if_neg (by omega)]
    split at h
    · rw [if_pos ‹_›]
      cases h
      simp
    rw [if_neg ‹_›]
    have hlt' : p + 1 < x.next := (lebLoop_bounds h).1
    rw [ih h (by omega) (by simpa using hc.tail (Nat.le_succ p))]
    congr 2
    omega

theorem lebLoop_agree {bufEnd' : Nat} (hle : bufEnd ≤ bufEnd') (hc : Agree code code' p x.next) : lebLoop code' bufEnd' n result shift p = .ok x := by
  have hcopy := lebLoop_copied h (Nat.add_le_add_right hle p) fun k hk => hc _ (Nat.le_add_right p k) hk
  rwa [Nat.add_sub_cancel' (Nat.le_of_lt (lebLoop_bounds h).1)] at hcopy

end

variable {maxbits q v : Nat} {sign : Bool}

theorem readLeb_eq_ok : readLeb code bufEnd maxbits sign p = .ok (result, q) ↔
      ∃ x, lebLoop code bufEnd ((maxbits + 6) / 7) 0#64 0 p = .ok x ∧ lebCheck maxbits sign x = .ok result ∧ x.next = q := by
  simp only [readLeb, bind_ok_iff, return_ok_iff, Prod.mk.injEq]
  constructor
  · rintro ⟨x, hx, r, hr, rfl, rfl⟩
    exact ⟨x, hx, hr, rfl⟩
  · rintro ⟨x, hx, hr, rfl⟩
    exact ⟨x, hx, result, hr, rfl, rfl⟩

theorem readLeb_bounds (h : readLeb code bufEnd maxbits sign p = .ok (result, q)) : p < q ∧ q ≤ bufEnd := by
  obtain ⟨x, hx, -, rfl⟩ := readLeb_eq_ok.1 h
  exact ⟨(lebLoop_bounds hx).1, (lebLoop_bounds hx).2.1⟩

theorem readLeb_congr (h : readLeb code bufEnd maxbits sign p = .ok (result, q))
    (hc : Agree code code' p q) : readLeb code' bufEnd maxbits sign p = .ok (result, q) := by
  obtain ⟨x, hx, hr, rfl⟩ := readLeb_eq_ok.1 h
  exact readLeb_eq_ok.2 ⟨x, lebLoop_agree hx (Nat.le_refl _) hc, hr, rfl⟩

/-- The checks after the loop only reject; the value is the one the interpreter computes. -/
theorem lebCheck_result (hw : maxbits = 32 ∨ maxbits = 64 ∧ sign = true) (h : lebCheck maxbits sign x = .ok result) :
    (if sign ∧ x.shift < maxbits ∧ x.byte &&& 0x40 ≠ 0 then signExtend x.result x.shift else x.result) = result := by
  rcases hw with rfl | ⟨rfl, rfl⟩
  · cases sign with
    | false =>
      simp only [lebCheck] at h
      split at h
      · cases h
      · simpa using h
    | true =>
      simp only [lebCheck] at h
      split at h
      · simpa [‹x.shift < 32›] using h
      rw [if_neg fun hs => ‹¬ _› hs.2.1]
      split at h
      · cases h
      · exact Except.ok.inj h
  · simp only [lebCheck] at h
    split at h
    · simpa [‹x.shift < 64›] using h
    rw [if_neg fun hs => ‹¬ _› hs.2.1]
    split at h
    · cases h
    · exact Except.ok.inj h

/-- What the loader's reader accepts, the interpreter's reads in the same way. -/
theorem readLeb_unchecked (hw : maxbits = 32 ∨ maxbits = 64 ∧ sign = true)
    (h : readLeb code bufEnd maxbits sign p = .ok (result, q)) : Interp.readLeb code maxbits sign p = some (result, q) := by
  obtain ⟨x, hx, hr, rfl⟩ := readLeb_eq_ok.1 h
  have hm : (maxbits + 6) / 7 ≤ 10 := by
    rcases hw with rfl | ⟨rfl, -⟩ <;> decide
  rw [Interp.readLeb, lebLoop_unchecked hx hm, Option.map_some, lebCheck_result hw hr]

theorem readLebUint32_eq_ok : readLebUint32 code bufEnd p = .ok (v, q) ↔
      ∃ r, readLeb code bufEnd 32 false p = .ok (r, q) ∧ (r.setWidth 32).toNat = v := by
  simp only [readLebUint32, bind_ok_iff, return_ok_iff, Prod.mk.injEq]
  constructor
  · rintro ⟨⟨r, _⟩, h, rfl, rfl⟩
    exact ⟨r, h, rfl⟩
  · rintro ⟨r, h, rfl⟩
    exact ⟨(r, q), h, rfl, rfl⟩

theorem readLebInt32_eq_ok {v : BitVec 32} : readLebInt32 code bufEnd p = .ok (v, q) ↔
      ∃ r, readLeb code bufEnd 32 true p = .ok (r, q) ∧ r.setWidth 32 = v := by
  simp only [readLebInt32, bind_ok_iff, return_ok_iff, Prod.mk.injEq]
  constructor
  · rintro ⟨⟨r, _⟩, h, rfl, rfl⟩
    exact ⟨r, h, rfl⟩
  · rintro ⟨r, h, rfl⟩
    exact ⟨(r, q), h, rfl, rfl⟩

end Loader

namespace Interp

variable {code : Code} {p : Nat}

theorem low_bits {b : UInt8} (h : b &&& 0x80 = 0) : b &&& 0x7f = b := by
  have hbits : ∀ v : BitVec 8, v &&& 0x80#8 = 0#8 → v &&& 0x7f#8 = v := by decide
  exact UInt8.toBitVec_inj.1 (hbits _ (congrArg UInt8.toBitVec h))

/-- The loop ends at once on a byte without the continuation bit. -/
theorem lebLoop_one (h : code p &&& 0x80 = 0) : lebLoop code 10 0#64 0 p = some ⟨(code p).toBitVec.setWidth 64, code p, 7, p + 1⟩ := by
  simp [lebLoop, h, accumulate, low_bits h]

theorem readLebUint32_eq : readLebUint32 code p = (readLeb code 32 false p).map fun x => ((x.1.setWidth 32).toNat, x.2) := by
  unfold readLebUint32
  split
  · next h => simp [readLeb, lebLoop_one h]
  · rfl

theorem readLebInt32_eq : readLebInt32 code p = (readLeb code 32 true p).map fun x => (x.1.setWidth 32, x.2) := by
  have hsign : ∀ b : BitVec 8, b.setWidth 32 ||| 0xFFFFFF80#32 = (signExtend (b.setWidth 64) 7).setWidth 32 := by decide
  unfold readLebInt32
  split
  · next h =>
    rw [readLeb, lebLoop_one h]
    by_cases hs : code p &&& 0x40 = 0 <;> simp [hs, hsign]
  · rfl

theorem readLebInt64_eq : readLebInt64 code p = readLeb code 64 true p := by
  have hsign : ∀ b : BitVec 8, b.setWidth 64 ||| 0xFFFFFFFFFFFFFF80#64 = signExtend (b.setWidth 64) 7 := by decide
  unfold readLebInt64
  split
  · next h =>
    rw [readLeb, lebLoop_one h]
    by_cases hs : code p &&& 0x40 = 0 <;> simp [hs, hsign]
  · rfl

end Interp

namespace Loader

variable {code code' : Code} {bufEnd p q v : Nat}

theorem readLebInt32_unchecked {v : BitVec 32} (h : readLebInt32 code bufEnd p = .ok (v, q)) (hc : Agree code code' p q) :
    Interp.readLebInt32 code' p = some (v, q) := by
  obtain ⟨r, hr, rfl⟩ := readLebInt32_eq_ok.1 h
  rw [Interp.readLebInt32_eq, readLeb_unchecked (.inl rfl) (readLeb_congr hr hc), Option.map_some]

theorem readLebInt64_unchecked {v : BitVec 64} (h : readLebInt64 code bufEnd p = .ok (v, q)) (hc : Agree code code' p q) :
    Interp.readLebInt64 code' p = some (v, q) := by
  rw [Interp.readLebInt64_eq, readLeb_unchecked (.inr ⟨rfl, rfl⟩) (readLeb_congr h hc)]

/-- With room up to the end of the integer, `skip_leb` goes there. -/
theorem readLeb_skip {maxbits n : Nat} {sign : Bool} {r : BitVec 64} (h : readLeb code bufEnd maxbits sign p = .ok (r, q))
    (hc : Agree code code' p q) (hn : q ≤ p + n) : Interp.skipLeb code' n p = some q := by
  obtain ⟨x, hx, -, rfl⟩ := readLeb_eq_ok.1 (readLeb_congr h hc)
  exact lebLoop_skip hx hn

section
variable (h : readLebUint32 code bufEnd p = .ok (v, q))
include h

theorem readLebUint32_bounds : p < q ∧ q ≤ bufEnd := by
  obtain ⟨r, hr, -⟩ := readLebUint32_eq_ok.1 h
  exact readLeb_bounds hr

theorem readLebUint32_congr (hc : Agree code code' p q) : readLebUint32 code' bufEnd p = .ok (v, q) := by
  obtain ⟨r, hr, hv⟩ := readLebUint32_eq_ok.1 h
  exact readLebUint32_eq_ok.2 ⟨r, readLeb_congr hr hc, hv⟩

/-- The interpreter reads an unsigned integer that the loader has let through in the same way, wherever its bytes are the same. -/
theorem readLebUint32_unchecked (hc : Agree code code' p q) : Interp.readLebUint32 code' p = some (v, q) := by
  obtain ⟨r, hr, rfl⟩ := readLebUint32_eq_ok.1 h
  rw [Interp.readLebUint32_eq, readLeb_unchecked (.inl rfl) (readLeb_congr hr hc), Option.map_some]

theorem readLebUint32_skip {n : Nat} (hc : Agree code code' p q) (hn : q ≤ p + n) : Interp.skipLeb code' n p = some q := by
  obtain ⟨r, hr, -⟩ := readLebUint32_eq_ok.1 h
  exact readLeb_skip hr hc hn

theorem readLebUint32_length : q ≤ p + 5 := by
  obtain ⟨r, hr, -⟩ := readLebUint32_eq_ok.1 h
  obtain ⟨x, hx, -, rfl⟩ := readLeb_eq_ok.1 hr
  exact (lebLoop_bounds hx).2.2

theorem readLebUint32_mono {bufEnd' : Nat} (hle : bufEnd ≤ bufEnd') : readLebUint32 code bufEnd' p = .ok (v, q) := by
  obtain ⟨r, hr, hv⟩ := readLebUint32_eq_ok.1 h
  obtain ⟨x, hx, hcheck, hq⟩ := readLeb_eq_ok.1 hr
  exact readLebUint32_eq_ok.2 ⟨r, readLeb_eq_ok.2 ⟨x, lebLoop_agree hx hle fun _ _ _ => rfl, hcheck, hq⟩, hv⟩

end

/-- `read_leb_uint32`, as a cursor. -/
def leb (bufEnd : Nat) : Cursor Nat := ⟨fun code p => (readLebUint32 code bufEnd p).toOption⟩

/-- `read_leb_int32`, as a cursor. -/
def lebInt32 (bufEnd : Nat) : Cursor (BitVec 32) := ⟨fun code p => (readLebInt32 code bufEnd p).toOption⟩

/-- `read_leb_int64`, as a cursor. -/
def lebInt64 (bufEnd : Nat) : Cursor (BitVec 64) := ⟨fun code p => (readLebInt64 code bufEnd p).toOption⟩

theorem toOption_eq_some {α : Type} {x : Except String α} {a : α} : x.toOption = some a ↔ x = .ok a := by
  cases x <;> simp [Except.toOption]

theorem run_leb : (leb bufEnd).run code p = some (v, q) ↔ readLebUint32 code bufEnd p = .ok (v, q) := toOption_eq_some

theorem run_lebInt32 {v : BitVec 32} : (lebInt32 bufEnd).run code p = some (v, q) ↔ readLebInt32 code bufEnd p = .ok (v, q) :=
  toOption_eq_some

theorem run_lebInt64 {v : BitVec 64} : (lebInt64 bufEnd).run code p = some (v, q) ↔ readLebInt64 code bufEnd p = .ok (v, q) :=
  toOption_eq_some

theorem leb_local (bufEnd : Nat) : (leb bufEnd).Local where
  le h := Nat.le_of_lt (readLebUint32_bounds (run_leb.1 h)).1
  congr h hc := run_leb.2 (readLebUint32_congr (run_leb.1 h) hc)

theorem leb_copies (bufEnd bufEnd' : Nat) : Cursor.Copies bufEnd bufEnd' (leb bufEnd) (leb bufEnd') where
  copy h _ hend hc := by
    obtain ⟨r, hr, hv⟩ := readLebUint32_eq_ok.1 (run_leb.1 h)
    obtain ⟨x, hx, hcheck, rfl⟩ := readLeb_eq_ok.1 hr
    refine ⟨Nat.le_of_lt (lebLoop_bounds hx).1, run_leb.2 (readLebUint32_eq_ok.2 ⟨r, ?_, hv⟩)⟩
    exact readLeb_eq_ok.2 ⟨_, lebLoop_copied hx hend hc, hcheck, rfl⟩

theorem lebInt32_local (bufEnd : Nat) : (lebInt32 bufEnd).Local where
  le h := by
    obtain ⟨r, hr, -⟩ := readLebInt32_eq_ok.1 (run_lebInt32.1 h)
    exact Nat.le_of_lt (readLeb_bounds hr).1
  congr h hc := by
    obtain ⟨r, hr, hv⟩ := readLebInt32_eq_ok.1 (run_lebInt32.1 h)
    exact run_lebInt32.2 (readLebInt32_eq_ok.2 ⟨r, readLeb_congr hr hc, hv⟩)

theorem lebInt64_local (bufEnd : Nat) : (lebInt64 bufEnd).Local where
  le h := Nat.le_of_lt (readLeb_bounds (run_lebInt64.1 h)).1
  congr h hc := run_lebInt64.2 (readLeb_congr (run_lebInt64.1 h) hc)

end Loader

end WamrMigrate
