import Mathlib.Data.List.TakeWhile
import WamrMigrate.Lib.Reader

/-!
# Values of a property string

`find_key_value` of `restful_utils.c` looks a key up in a buffer such as `key1=value1;key2=value2`. Its loop to the next key does not end at a NUL,
and its outer loop looks for one only where a delimiter stands. So a NUL ends the search at the start of the buffer only, and segments behind the end
of the string are found, if they are within `buffer_len`.
-/

namespace WamrMigrate.Restful

/-- What `find_key_value` is asked for. The delimiter is neither the NUL that ends a buffer nor a byte of `key=`. -/
structure KeyQuery where
  bufferLen : Int
  key : List UInt8
  valueLen : Nat
  delimiter : UInt8
  key_ne : key ≠ []
  key_lt : key.length < 2 ^ 31
  nul_notMem : 0 ∉ key
  delimiter_notMem : delimiter ∉ key ++ [0x3D]
  delimiter_ne : delimiter ≠ 0
  valueLen_pos : 0 < valueLen

/-! ## The model -/

/-- `*p`, where `p` is the memory from a pointer on. Behind the list there are NULs. -/
def deref (p : List UInt8) : UInt8 := p.headD 0

/-- `while (*p == ' ' || *p == delimiter)`. Below 0, where only the length of the key is compared with it, `remaining` may stay 0. -/
def skipSeparators (delimiter : UInt8) : List UInt8 → Nat → List UInt8 × Nat
  | [], remaining => ([], remaining)
  | c :: p, remaining => if c = 0x20 ∨ c = delimiter then skipSeparators delimiter p (remaining - 1) else (c :: p, remaining)

/-- `while (*p != delimiter && remaining > 0)`. -/
def gotoNextKey (delimiter : UInt8) : Nat → List UInt8 → List UInt8 × Nat
  | 0, p => (p, 0)
  | remaining + 1, p => if deref p ≠ delimiter then gotoNextKey delimiter remaining p.tail else (p, remaining + 1)

/-- `while (*p != delimiter && remaining > 0 && value_len > 0)`. -/
def copyValue (delimiter : UInt8) : Nat → Nat → List UInt8 → List UInt8
  | remaining + 1, valueLen + 1, p => if deref p ≠ delimiter then deref p :: copyValue delimiter remaining valueLen p.tail else []
  | _, _, _ => []

/-- `0 == strncmp(p, key, key_len) && p[key_len] == '='`. -/
def keyAt (key p : List UInt8) : Bool := p.take key.length = key ∧ deref (p.drop key.length) = 0x3D

/-- A C string up to its end. -/
def stringOf (bs : List UInt8) : List UInt8 := bs.takeWhile (· ≠ 0)

namespace KeyQuery

/-- The outer loop: NULL, or the bytes of `value`, which is set to 0 before the copy. -/
def findFrom (q : KeyQuery) : Nat → List UInt8 → Nat → Except Fault (Option (List UInt8))
  | 0, _, _ => .error .invalid
  | fuel + 1, p, remaining =>
    if deref p ≠ 0 ∧ 0 < remaining then
      let (p, remaining) := skipSeparators q.delimiter p remaining
      if remaining ≤ q.key.length then .ok none
      else if keyAt q.key p then
        .ok (some ((copyValue q.delimiter (remaining - (q.key.length + 1)) (q.valueLen - 1) (p.drop (q.key.length + 1))).rightpad q.valueLen 0))
      else
        let (p, remaining) := gotoNextKey q.delimiter remaining p
        q.findFrom fuel p remaining
    else .ok none

/-- `find_key_value` on the memory from `buffer` on. -/
def findKeyValue (q : KeyQuery) (buffer : List UInt8) : Except Fault (Option (List UInt8)) :=
  q.findFrom (q.bufferLen.toNat + 1) buffer q.bufferLen.toNat

/-! ## What is to be found -/

/-- The value of the key in a segment, whose leading blanks are skipped. -/
def valueIn (q : KeyQuery) (segment : List UInt8) : Option (List UInt8) := (q.key ++ [0x3D]).isPrefixOf? (segment.dropWhile (· = 0x20))

/-- The value in the first segment that has the key. -/
def firstValue (q : KeyQuery) (l : List UInt8) : Option (List UInt8) := (l.splitOn q.delimiter).findSome? q.valueIn

/-- The bytes before `buffer_len`. -/
def within (q : KeyQuery) (buffer : List UInt8) : List UInt8 := buffer.take q.bufferLen.toNat

/-- The value of the first segment of the string in the buffer, as far as there is space, and no byte at or behind `buffer_len` makes a difference. -/
structure Right (q : KeyQuery) (buffer : List UInt8) : Prop where
  value : (q.findKeyValue buffer).map (Option.map stringOf) = .ok ((q.firstValue (stringOf (q.within buffer))).map (·.take (q.valueLen - 1)))
  alone : ∀ other, q.within other = q.within buffer → q.findKeyValue other = q.findKeyValue buffer

section

variable {q : KeyQuery} {l s v : List UInt8}

/-- A list of segments is one segment, or a segment with a delimiter and more behind it. -/
theorem segment_induction {motive : List UInt8 → Prop} (d : UInt8) (one : ∀ s, d ∉ s → motive s)
    (more : ∀ s l, d ∉ s → motive l → motive (s ++ d :: l)) (l : List UInt8) : motive l := by
  induction hn : l.length using Nat.strong_induction_on generalizing l with
  | _ n ih =>
    by_cases hd : d ∈ l
    · obtain ⟨s, t, rfl, hs⟩ := List.eq_append_cons_of_mem hd
      refine more s t hs (ih t.length ?_ t rfl)
      rw [← hn, List.length_append, List.length_cons]
      omega
    · exact one l hd

theorem firstValue_one (hs : q.delimiter ∉ s) : q.firstValue s = q.valueIn s := by
  simp [firstValue, List.splitOn_eq_singleton hs]

theorem ne_delimiter (hs : q.delimiter ∉ s) : ∀ c ∈ s, decide (c ≠ q.delimiter) = true :=
  fun c hc => by simpa using ne_of_mem_of_not_mem hc hs

theorem firstValue_more (hs : q.delimiter ∉ s) : q.firstValue (s ++ q.delimiter :: l) = (q.valueIn s).or (q.firstValue l) := by
  have hsplit : (s ++ q.delimiter :: l).splitOn q.delimiter = s :: l.splitOn q.delimiter :=
    List.splitOnP_append_cons_of_forall_mem (fun c hc => by simpa using ne_delimiter hs c hc) _ (by simp) _
  rw [firstValue, hsplit, List.findSome?_cons, firstValue]
  cases q.valueIn s <;> rfl

theorem valueIn_eq_some : q.valueIn s = some v ↔ q.key ++ [0x3D] ++ v = s.dropWhile (· = 0x20) := List.isPrefixOf?_eq_some_iff_append_eq

theorem valueIn_nil : q.valueIn [] = none := by
  rw [Option.eq_none_iff_forall_ne_some]
  intro v h
  simpa using valueIn_eq_some.1 h

/-- Blanks and delimiters before a segment are skipped. -/
theorem firstValue_separator {c : UInt8} (hc : c = 0x20 ∨ c = q.delimiter) (l : List UInt8) : q.firstValue (c :: l) = q.firstValue l := by
  by_cases hd : c = q.delimiter
  · rw [hd]
    exact (firstValue_more (s := []) (by simp)).trans (by rw [valueIn_nil, Option.none_or])
  have hblank : ∀ s, q.valueIn (c :: s) = q.valueIn s := fun s => by simp [valueIn, hc.resolve_right hd]
  have hcons : ∀ {s}, q.delimiter ∉ s → q.delimiter ∉ c :: s := fun hs => by simp [hs, Ne.symm hd]
  induction l using segment_induction q.delimiter with
  | one s hs => rw [firstValue_one (hcons hs), firstValue_one hs, hblank]
  | more s l hs _ => rw [← List.cons_append, firstValue_more (hcons hs), firstValue_more hs, hblank]

/-- The key, the `=` and the value stand in the list. -/
theorem firstValue_sublist (h : q.firstValue l = some v) : (q.key ++ [0x3D] ++ v).Sublist l := by
  have hone : ∀ {s}, q.valueIn s = some v → (q.key ++ [0x3D] ++ v).Sublist s := fun hs => (valueIn_eq_some.1 hs).symm ▸ List.dropWhile_sublist _
  induction l using segment_induction q.delimiter with
  | one s hs => exact hone (firstValue_one hs ▸ h)
  | more s l hs ih =>
    rw [firstValue_more hs, Option.or_eq_some_iff] at h
    rcases h with h | ⟨-, h⟩
    · exact (hone h).trans (List.sublist_append_left _ _)
    · exact (ih h).trans ((List.sublist_cons_self _ _).trans (List.sublist_append_right _ _))

theorem eq_of_dropWhile {c d : UInt8} (h : l.dropWhile (· ≠ d) = c :: s) : c = d := by
  have hhead := List.head?_dropWhile_not (· ≠ d) l
  rw [h] at hhead
  simpa using hhead

theorem dropWhile_blank (h : deref s ≠ 0x20) : s.dropWhile (· = 0x20) = s := by cases s <;> simp_all [deref]

/-- The bytes up to the next delimiter are a segment. -/
theorem firstValue_eq (l : List UInt8) :
    q.firstValue l = (q.valueIn (l.takeWhile (· ≠ q.delimiter))).or (q.firstValue (l.dropWhile (· ≠ q.delimiter))) := by
  induction l using segment_induction q.delimiter with
  | one s hs =>
    rw [List.takeWhile_eq_self_iff.2 (ne_delimiter hs), List.dropWhile_eq_nil_iff.2 (ne_delimiter hs), firstValue_one hs, firstValue_one (by simp), valueIn_nil,
      Option.or_none]
  | more s l hs _ =>
    rw [List.takeWhile_append_of_pos (ne_delimiter hs), List.dropWhile_append_of_pos (ne_delimiter hs), firstValue_more hs]
    simp [firstValue_separator]

/-- A list that begins with the key and the `=`. -/
theorem firstValue_key {w : List UInt8} (hblank : deref (q.key ++ [0x3D] ++ w) ≠ 0x20) :
    q.firstValue (q.key ++ [0x3D] ++ w) = some (w.takeWhile (· ≠ q.delimiter)) := by
  have hv : q.valueIn (q.key ++ [0x3D] ++ w.takeWhile (· ≠ q.delimiter)) = some (w.takeWhile (· ≠ q.delimiter)) := by
    refine valueIn_eq_some.2 (dropWhile_blank ?_).symm
    have := q.key_ne
    cases hk : q.key <;> simp_all [deref]
  rw [firstValue_eq, List.takeWhile_append_of_pos (ne_delimiter q.delimiter_notMem), hv, Option.some_or]

/-- A list that begins with another segment. -/
theorem firstValue_other (hblank : deref l ≠ 0x20) (h : ¬ q.key ++ [0x3D] <+: l) :
    q.firstValue l = q.firstValue (l.dropWhile (· ≠ q.delimiter)) := by
  have hnone : q.valueIn (l.takeWhile (· ≠ q.delimiter)) = none := by
    rw [Option.eq_none_iff_forall_ne_some]
    intro v hv
    have hhead : deref (l.takeWhile (· ≠ q.delimiter)) ≠ 0x20 := by
      cases l with
      | nil => simpa using hblank
      | cons c l =>
        rw [List.takeWhile_cons]
        split
        · simpa [deref] using hblank
        · decide
    rw [valueIn_eq_some, dropWhile_blank hhead] at hv
    exact h ((List.prefix_append _ _).trans (hv ▸ List.takeWhile_prefix _))
  rw [firstValue_eq, hnone, Option.none_or]

theorem stringOf_nul (v rest : List UInt8) : stringOf (v ++ 0 :: rest) = stringOf v := by
  unfold stringOf
  induction v with
  | nil => simp
  | cons c v ih => simp only [List.cons_append, List.takeWhile_cons, ih]

/-- Behind a NUL nothing belongs to the value any more. -/
theorem firstValue_nul (h : q.firstValue l = some v) (rest : List UInt8) : (q.firstValue (l ++ 0 :: rest)).map stringOf = some (stringOf v) := by
  induction l using segment_induction q.delimiter with
  | one s hs =>
    rw [firstValue_one hs, valueIn_eq_some] at h
    have hnul : q.valueIn (s ++ 0 :: rest.takeWhile (· ≠ q.delimiter)) = some (v ++ 0 :: rest.takeWhile (· ≠ q.delimiter)) := by
      rw [valueIn_eq_some, List.dropWhile_append, ← h]
      simp
    rw [firstValue_eq, List.takeWhile_append_of_pos (ne_delimiter hs), List.takeWhile_cons_of_pos (by simpa using q.delimiter_ne.symm), hnul]
    simp [stringOf_nul]
  | more s l hs ih =>
    rw [firstValue_more hs] at h
    rw [List.append_assoc, List.cons_append, firstValue_more hs]
    rcases Option.or_eq_some_iff.1 h with h | ⟨hs, h⟩
    · rw [h]
      rfl
    · rw [hs]
      exact ih h

/-! ## The loops -/

variable {p p' : List UInt8} {r r' : Nat}

theorem skipSeparators_spec (h : skipSeparators q.delimiter p r = (p', r')) :
    q.firstValue (p'.take r') = q.firstValue (p.take r) ∧ r' ≤ r ∧ deref p' ≠ 0x20 ∧ deref p' ≠ q.delimiter := by
  fun_induction skipSeparators q.delimiter p r with
  | case1 r =>
    cases h
    exact ⟨rfl, Nat.le_refl _, (by decide : deref [] ≠ 0x20), q.delimiter_ne.symm⟩
  | case2 c p r hc ih =>
    obtain ⟨hvalue, hle, hends⟩ := ih h
    refine ⟨hvalue.trans ?_, Nat.le_trans hle (Nat.sub_le r 1), hends⟩
    cases r with
    | zero => rfl
    | succ r => exact (firstValue_separator hc _).symm
  | case3 c p r hc =>
    cases h
    exact ⟨rfl, Nat.le_refl _, not_or.1 hc⟩

theorem gotoNextKey_spec {d : UInt8} (h : gotoNextKey d r p = (p', r')) :
    p'.take r' = (p.take r).dropWhile (· ≠ d) ∧ r' ≤ r ∧ (deref p ≠ d → 0 < r → r' < r) := by
  fun_induction gotoNextKey d r p with
  | case1 p =>
    cases h
    simp
  | case2 r p hd ih =>
    obtain ⟨htake, hle, -⟩ := ih h
    refine ⟨htake.trans ?_, by omega, fun _ _ => by omega⟩
    cases p <;> simp_all [deref]
  | case3 r p hd =>
    cases h
    refine ⟨?_, by omega, fun h => absurd h hd⟩
    cases p' <;> simp_all [deref]

theorem copyValue_spec (d : UInt8) (r m : Nat) (p : List UInt8) {n : Nat} (hm : m ≤ n) :
    (copyValue d r m p).rightpad n 0 = (((p.take r).takeWhile (· ≠ d)).take m).rightpad n 0 := by
  fun_induction copyValue d r m p generalizing n with
  | case1 r m p hd ih =>
    obtain ⟨n, rfl⟩ : ∃ k, n = k + 1 := ⟨n - 1, by omega⟩
    have := @ih n (by omega)
    cases p <;> simp_all [deref, List.rightpad, List.replicate_succ]
  | case2 r m p hd =>
    cases p <;> simp_all [deref]
  | case3 r m p hend =>
    cases r with
    | zero => simp
    | succ r =>
      cases m with
      | zero => simp
      | succ m => exact (hend r m rfl rfl).elim

theorem keyAt_iff {key : List UInt8} (hr : key.length < r) : keyAt key p = true ↔ key ++ [0x3D] <+: p.take r := by
  have hlen : (key ++ [0x3D]).length ≤ r := by simpa using Nat.succ_le_of_lt hr
  rw [List.prefix_take_iff, and_iff_left hlen, keyAt, decide_eq_true_iff]
  constructor
  · rintro ⟨hkey, heq⟩
    cases hdrop : p.drop key.length with
    | nil => simp [hdrop, deref] at heq
    | cons c t =>
      have hc : c = 0x3D := by simpa [hdrop, deref] using heq
      refine ⟨t, ?_⟩
      rw [← List.take_append_drop key.length p, hkey, hdrop, hc, List.append_assoc, List.singleton_append]
  · rintro ⟨w, rfl⟩
    simp [deref]

/-- The search within `buffer_len`: a NUL ends it only at the start of the buffer. -/
theorem findFrom_eq (q : KeyQuery) {fuel : Nat} (p : List UInt8) (hr : r < fuel) : q.findFrom fuel p r =
    .ok (if deref (p.take r) = 0 then none else (q.firstValue (p.take r)).map fun v => (v.take (q.valueLen - 1)).rightpad q.valueLen 0) := by
  induction fuel generalizing p r with
  | zero => omega
  | succ fuel ih =>
    have hstart : (deref p ≠ 0 ∧ 0 < r) ↔ deref (p.take r) ≠ 0 := by cases r <;> cases p <;> simp [deref]
    rw [findFrom]
    simp only [hstart]
    by_cases h0 : deref (p.take r) = 0
    · simp [h0]
    rw [if_pos h0, if_neg h0]
    cases hskip : skipSeparators q.delimiter p r with
    | mk p' r' =>
    obtain ⟨hvalue, hle, hblank, hdel⟩ := skipSeparators_spec hskip
    simp only [← hvalue]
    split
    · rename_i hshort
      have hnone : q.firstValue (p'.take r') = none := by
        rw [Option.eq_none_iff_forall_ne_some]
        intro v hv
        have hlen := (firstValue_sublist hv).length_le
        simp at hlen
        omega
      rw [hnone]
      rfl
    rename_i hlong
    have hblank' : deref (p'.take r') ≠ 0x20 := by
      obtain ⟨r', rfl⟩ : ∃ k, r' = k + 1 := ⟨r' - 1, by omega⟩
      cases p' with
      | nil => exact hblank
      | cons c p => exact hblank
    split
    · rename_i hkey
      obtain ⟨w, hw⟩ := (keyAt_iff (Nat.lt_of_not_le hlong)).1 hkey
      rw [← hw] at hblank'
      have hrest : (p'.drop (q.key.length + 1)).take (r' - (q.key.length + 1)) = w := by
        rw [← List.drop_take, ← hw, List.drop_left' (by simp)]
      rw [copyValue_spec _ _ _ _ (Nat.sub_le _ 1), hrest, ← hw, firstValue_key hblank']
      rfl
    · rename_i hkey
      obtain ⟨htake, -, hlt⟩ := gotoNextKey_spec (d := q.delimiter) (r := r') (p := p') rfl
      have hlt := hlt hdel (by omega)
      rw [ih _ (by omega), htake, firstValue_other hblank' (mt (keyAt_iff (Nat.lt_of_not_le hlong)).2 hkey)]
      cases hdrop : (p'.take r').dropWhile (· ≠ q.delimiter) with
      | nil => simp [firstValue_one, valueIn_nil]
      | cons c t =>
        rw [if_neg (eq_of_dropWhile hdrop ▸ q.delimiter_ne : deref (c :: t) ≠ 0)]

end

/-- The C string in `value`. -/
theorem stringOf_value (q : KeyQuery) (v : List UInt8) : stringOf ((v.take (q.valueLen - 1)).rightpad q.valueLen 0) = (stringOf v).take (q.valueLen - 1) := by
  have hpos := q.valueLen_pos
  obtain ⟨k, hk⟩ : ∃ k, q.valueLen - (v.take (q.valueLen - 1)).length = k + 1 := ⟨_, (Nat.sub_add_cancel (by simp; omega)).symm⟩
  rw [List.rightpad, hk, List.replicate_succ, stringOf_nul, stringOf, stringOf, List.take_takeWhile]

/-- A value in the string is found in the buffer. -/
theorem firstValue_stringOf {q : KeyQuery} {l v : List UInt8} (h : q.firstValue (stringOf l) = some v) :
    (q.firstValue l).map stringOf = some v := by
  have hnul : 0 ∉ stringOf l := fun h0 => by simpa using List.mem_takeWhile_imp h0
  have hv : stringOf v = v := List.takeWhile_eq_self_iff.2 fun c hc => by
    simpa using ne_of_mem_of_not_mem ((firstValue_sublist h).subset (List.mem_append_right _ hc)) hnul
  have hl : stringOf l ++ l.dropWhile (· ≠ 0) = l := List.takeWhile_append_dropWhile
  cases hdrop : l.dropWhile (· ≠ 0) with
  | nil =>
    rw [hdrop, List.append_nil] at hl
    rw [← hl, h, Option.map_some, hv]
  | cons c t =>
    rw [hdrop, eq_of_dropWhile hdrop] at hl
    rw [← hl, firstValue_nul h, hv]

/-- It is right exactly if the string in the buffer is empty or has the key, or if the bytes behind its end that are within `buffer_len` do not
have it either. -/
theorem findKeyValue_right_iff (q : KeyQuery) (buffer : List UInt8) : q.Right buffer ↔ (stringOf (q.within buffer) ≠ [] →
    q.firstValue (stringOf (q.within buffer)) = none → q.firstValue (q.within buffer) = none) := by
  have hrun : ∀ other, q.findKeyValue other = .ok (if deref (q.within other) = 0 then none else
      (q.firstValue (q.within other)).map fun v => (v.take (q.valueLen - 1)).rightpad q.valueLen 0) :=
    fun other => q.findFrom_eq other (Nat.lt_succ_self _)
  have hempty : deref (q.within buffer) = 0 ↔ stringOf (q.within buffer) = [] := by
    cases q.within buffer <;> simp [deref, stringOf, List.takeWhile_cons]
  constructor
  · intro h hne hnone
    have hvalue := h.value
    rw [hrun, if_neg (mt hempty.1 hne), hnone] at hvalue
    simpa [Except.map] using hvalue
  · intro h
    refine ⟨?_, fun other hother => by rw [hrun, hrun, hother]⟩
    rw [hrun]
    refine congrArg Except.ok ?_
    by_cases hne : deref (q.within buffer) = 0
    · rw [if_pos hne, hempty.1 hne, firstValue_one (by simp), valueIn_nil]
      rfl
    rw [if_neg hne, Option.map_map]
    cases hstring : q.firstValue (stringOf (q.within buffer)) with
    | none =>
      rw [h (mt hempty.2 hne) hstring]
      rfl
    | some v =>
      obtain ⟨w, hw, rfl⟩ := Option.map_eq_some_iff.1 (firstValue_stringOf hstring)
      rw [hw]
      exact congrArg some (q.stringOf_value w)

/-- `b` is asked for in `a=1`, and found behind its end. -/
theorem not_right_behind_nul : ¬ Right ⟨8, [0x62], 4, 0x3B, by decide, by decide, by decide, by decide, by decide, by decide⟩
    [0x61, 0x3D, 0x31, 0, 0x3B, 0x62, 0x3D, 0x32, 0] := by
  intro h
  exact absurd h.value (by decide)

end KeyQuery
end WamrMigrate.Restful
