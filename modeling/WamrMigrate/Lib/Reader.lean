import Mathlib.Data.List.Basic
import Mathlib.Tactic.Ring

/-!
# Reading a file back

A reader takes the rest of a file and gives a value and what is then left, or stops with a fault. `Reads r bs a` says that `r` takes exactly the
bytes `bs` from the front of whatever file they stand in, and gives `a`. Its rules follow the way readers are put together, so that a reader is
shown to be the inverse of a writer one field at a time. Words are little-endian.
-/

namespace WamrMigrate

/-- Why a program that reads a file stops. -/
inductive Fault where
  /-- It ends itself. -/
  | exit
  /-- It reads past the end of the file. -/
  | short
  /-- It uses a null pointer, a table entry that is not there, or a value that was never set. -/
  | invalid
  deriving DecidableEq

/-- A program that reads a file from the front. -/
structure Reader (α : Type) where
  run : List UInt8 → Except Fault (α × List UInt8)

namespace Reader

variable {α β σ : Type}
variable {r : Reader α} {f : α → Reader β} {bs rest : List UInt8} {a : α} {n : Nat}

instance : Monad Reader where
  pure a := ⟨fun bs => .ok (a, bs)⟩
  bind r f := ⟨fun bs =>
    match r.run bs with
    | .error e => .error e
    | .ok (a, rest) => (f a).run rest⟩

/-- Stop with a fault. -/
def fail (e : Fault) : Reader α := ⟨fun _ => .error e⟩

/-- Go on with a result, or stop with its fault. -/
def ofExcept (x : Except Fault α) : Reader α := ⟨fun bs => x.map (·, bs)⟩

/-- The little-endian word in a list of bytes. -/
def ofBytes : List UInt8 → Nat
  | [] => 0
  | b :: bs => b.toNat + 256 * ofBytes bs

/-- The lowest `n` bytes of a number, the lowest first. -/
def toBytes : Nat → Nat → List UInt8
  | 0, _ => []
  | n + 1, v => UInt8.ofNat v :: toBytes n (v / 256)

/-- Read `n` bytes. -/
def take (n : Nat) : Reader (List UInt8) :=
  ⟨fun bs => if bs.length < n then .error .short else .ok (bs.take n, bs.drop n)⟩

/-- Read a word of `n` bytes. -/
def word (n : Nat) : Reader Nat := do
  let bs ← take n
  return ofBytes bs

/-- Read a word of one byte. -/
def u8 : Reader UInt8 := do return .ofNat (← word 1)

/-- Read a word of two bytes. -/
def u16 : Reader UInt16 := do return .ofNat (← word 2)

/-- Read a word of four bytes. -/
def u32 : Reader UInt32 := do return .ofNat (← word 4)

/-- Read a word of eight bytes. -/
def u64 : Reader UInt64 := do return .ofNat (← word 8)

/-- The byte of a word of one byte. -/
def put8 (w : UInt8) : List UInt8 := toBytes 1 w.toNat

/-- The bytes of a word of two bytes. -/
def put16 (w : UInt16) : List UInt8 := toBytes 2 w.toNat

/-- The bytes of a word of four bytes. -/
def put32 (w : UInt32) : List UInt8 := toBytes 4 w.toNat

/-- The bytes of a word of eight bytes. -/
def put64 (w : UInt64) : List UInt8 := toBytes 8 w.toNat

/-- Read `n` values one after the other. -/
def times (r : Reader α) : Nat → Reader (List α)
  | 0 => pure []
  | n + 1 => do
    let a ← r
    let as ← times r n
    return a :: as

/-- The loop that reads a word of four bytes and goes on with `step`, until no such word is left. -/
def whileWords (step : σ → UInt32 → Reader σ) : Nat → σ → Reader σ
  | 0, _ => fail .invalid
  | fuel + 1, s => ⟨fun bs =>
    if bs.length < 4 then .ok (s, [])
    else (do
      let w ← u32
      let s' ← step s w
      whileWords step fuel s').run bs⟩

theorem run_bind_ok (h : r.run bs = .ok (a, rest)) : (r >>= f).run bs = (f a).run rest := by
  show (match r.run bs with | .error e => Except.error e | .ok (a, rest) => (f a).run rest) = _
  rw [h]

theorem run_bind_error {e : Fault} (h : r.run bs = .error e) : (r >>= f).run bs = .error e := by
  show (match r.run bs with | .error e => Except.error e | .ok (a, rest) => (f a).run rest) = _
  rw [h]

theorem run_bind_eq_ok {b : β} (h : (r >>= f).run bs = .ok (b, rest)) : ∃ a bs', r.run bs = .ok (a, bs') ∧ (f a).run bs' = .ok (b, rest) := by
  cases hr : r.run bs with
  | error e =>
    rw [run_bind_error hr] at h
    cases h
  | ok p =>
    rw [run_bind_ok hr] at h
    exact ⟨p.1, p.2, rfl, h⟩

/-! ## Bytes of a word -/

@[simp] theorem length_toBytes (n v : Nat) : (toBytes n v).length = n := by
  induction n generalizing v with
  | zero => rfl
  | succ n ih => simp [toBytes, ih]

theorem ofBytes_toBytes (n v : Nat) : ofBytes (toBytes n v) = v % 256 ^ n := by
  induction n generalizing v with
  | zero => simp [toBytes, ofBytes, Nat.mod_one]
  | succ n ih =>
    simp only [toBytes, ofBytes, ih, UInt8.toNat_ofNat']
    rw [show 256 ^ (n + 1) = 256 * 256 ^ n by ring, Nat.mod_mul]

theorem ofBytes_toBytes_of_lt {v : Nat} (h : v < 256 ^ n) : ofBytes (toBytes n v) = v := by
  rw [ofBytes_toBytes, Nat.mod_eq_of_lt h]

theorem ofBytes_lt (bs : List UInt8) : ofBytes bs < 256 ^ bs.length := by
  induction bs with
  | nil => exact Nat.one_pos
  | cons b bs ih =>
    have hb := b.toNat_lt
    rw [ofBytes, List.length_cons, Nat.pow_succ]
    omega

/-! ## What a reader takes -/

/-- `r` takes exactly the bytes `bs` and gives `a`. -/
def Reads (r : Reader α) (bs : List UInt8) (a : α) : Prop := ∀ rest, r.run (bs ++ rest) = .ok (a, rest)

theorem reads_pure (a : α) : Reads (pure a) [] a := fun _ => rfl

theorem reads_ofExcept {x : Except Fault α} (h : x = .ok a) : Reads (ofExcept x) [] a := by
  subst h
  exact fun _ => rfl

theorem Reads.bind {cs : List UInt8} {b : β} (h : Reads r bs a) (h' : Reads (f a) cs b) : Reads (r >>= f) (bs ++ cs) b := by
  intro rest
  rw [List.append_assoc, run_bind_ok (h (cs ++ rest))]
  exact h' rest

theorem Reads.bind_pure {g : α → β} (h : Reads r bs a) : Reads (do let a ← r; return g a) bs (g a) := by
  have hb : Reads (do let a ← r; return g a) (bs ++ []) (g a) := h.bind (reads_pure (g a))
  rwa [List.append_nil] at hb

/-- A reader in front of a file that is written in pieces takes the first one. -/
theorem Reads.run_piece {css : List (List UInt8)} (h : Reads r bs a) : (r >>= f).run (bs :: css).flatten = (f a).run css.flatten := by
  rw [List.flatten_cons, run_bind_ok (h css.flatten)]

theorem reads_take (bs : List UInt8) : Reads (take bs.length) bs bs := by
  intro rest
  simp [take]

theorem reads_toBytes {v : Nat} (h : v < 256 ^ n) : Reads (word n) (toBytes n v) v := by
  have ht := reads_take (toBytes n v)
  rw [length_toBytes] at ht
  have hw : Reads (word n) (toBytes n v) (ofBytes (toBytes n v)) := ht.bind_pure
  rwa [ofBytes_toBytes_of_lt h] at hw

theorem reads_u8 (w : UInt8) : Reads u8 (put8 w) w := by
  have h : Reads u8 (put8 w) (.ofNat w.toNat) := (reads_toBytes (by norm_num; exact w.toNat_lt)).bind_pure
  rwa [UInt8.ofNat_toNat] at h

theorem reads_u32 (w : UInt32) : Reads u32 (put32 w) w := by
  have h : Reads u32 (put32 w) (.ofNat w.toNat) := (reads_toBytes (by norm_num; exact w.toNat_lt)).bind_pure
  rwa [UInt32.ofNat_toNat] at h

theorem reads_u64 (w : UInt64) : Reads u64 (put64 w) w := by
  have h : Reads u64 (put64 w) (.ofNat w.toNat) := (reads_toBytes (by norm_num; exact w.toNat_lt)).bind_pure
  rwa [UInt64.ofNat_toNat] at h

theorem reads_times {w : β → List UInt8} {g : β → α} {bs : List β} (h : ∀ b ∈ bs, Reads r (w b) (g b)) :
    Reads (times r bs.length) (bs.flatMap w) (bs.map g) := by
  induction bs with
  | nil => exact reads_pure []
  | cons b bs ih =>
    have htail := ih fun c hc => h c (List.mem_cons_of_mem _ hc)
    rw [List.flatMap_cons]
    exact (h b List.mem_cons_self).bind htail.bind_pure

theorem length_of_times {as : List α} (h : (times r n).run bs = .ok (as, rest)) : as.length = n := by
  induction n generalizing bs rest as with
  | zero =>
    cases h
    rfl
  | succ n ih =>
    obtain ⟨a, bs₁, -, h⟩ := run_bind_eq_ok h
    obtain ⟨as', bs₂, h₁, h⟩ := run_bind_eq_ok h
    cases h
    rw [List.length_cons, ih h₁]

/-! ## The loop -/

section Loop
variable {step : σ → UInt32 → Reader σ} {fuel : Nat} {w : UInt32} {s s' : σ} {bs rest : List UInt8}

theorem whileWords_end : (whileWords step (fuel + 1) s).run [] = .ok (s, []) := rfl

theorem whileWords_word : (whileWords step (fuel + 1) s).run (put32 w ++ rest) = (step s w >>= whileWords step fuel).run rest := by
  have hlen : ¬(put32 w ++ rest).length < 4 := by simp [put32]
  rw [whileWords]
  simp only [if_neg hlen]
  exact run_bind_ok (reads_u32 w rest)

theorem whileWords_step (h : Reads (step s w) bs s') :
    (whileWords step (fuel + 1) s).run (put32 w ++ (bs ++ rest)) = (whileWords step fuel s').run rest := by
  rw [whileWords_word, run_bind_ok (h rest)]

theorem whileWords_fault {e : Fault} (h : (step s w).run rest = .error e) : (whileWords step (fuel + 1) s).run (put32 w ++ rest) = .error e := by
  rw [whileWords_word, run_bind_error h]

theorem whileWords_rel {r : σ → σ → Prop} (hrefl : ∀ s, r s s) (htrans : ∀ s t u, r s t → r t u → r s u)
    (hstep : ∀ s w bs s' rest, (step s w).run bs = .ok (s', rest) → r s s') (h : (whileWords step fuel s).run bs = .ok (s', rest)) : r s s' := by
  induction fuel generalizing s bs with
  | zero => cases h
  | succ fuel ih =>
    rw [whileWords] at h
    simp only at h
    split at h
    · cases h
      exact hrefl _
    · obtain ⟨w, bs₁, -, h⟩ := run_bind_eq_ok h
      obtain ⟨s₁, bs₂, h₁, h⟩ := run_bind_eq_ok h
      exact htrans _ _ _ (hstep _ w bs₁ s₁ bs₂ h₁) (ih h)

end Loop

end Reader

end WamrMigrate
