import WamrMigrate.Lib.Slots
import Mathlib.Data.List.InsertIdx

/-!
# The vector of the utilities

A vector keeps elements of one size in a block that is replaced by a larger one when it is full. Its calls are compared with those of a list.
`bh_vector_insert` moves the elements behind the index only, so that the new element comes after the one at the index. A vector that is initialised
a second time has lost its block if there is no memory for the new one, although the call says that it failed.
-/

namespace WamrMigrate.Utils

/-- A vector. The elements stand one after the other in the block at `data`, which may be NULL. -/
structure Vector where
  maxElems : Nat
  data : Option Mem
  numElems : Nat
  sizeElem : Nat

/-- What a call gives back: its value, the bytes it writes to the buffer of its caller, and the vector it leaves. -/
structure Vector.Reply where
  done : Bool
  out : Option (List UInt8)
  vector : Vector

namespace Vector

/-! ## The calls

Every function is `none` where it reads or writes through NULL. `malloc` says whether `BH_MALLOC` has memory. -/

def allocVectorData (malloc : Bool) (length sizeElem : Nat) : Option Mem :=
  let totalSize := sizeElem * length % 2 ^ 64
  if length > 0xFFFFFFFF ∨ sizeElem > 0xFFFFFFFF ∨ totalSize > 0xFFFFFFFF then none
  else if malloc then some fun _ => 0
  else none

/-- The number of elements that a full vector is extended to. The source compares the wanted length with the size of an element, not with the capacity. -/
def grownLength (v : Vector) (length : Nat) : Nat :=
  if length < v.sizeElem * 3 % 2 ^ 64 / 2 then v.sizeElem * 3 % 2 ^ 64 / 2 else length

def extendVector (malloc : Bool) (v : Vector) (length : Nat) : Option (Bool × Vector) :=
  if length ≤ v.maxElems then some (true, v)
  else
    match allocVectorData malloc (v.grownLength length) v.sizeElem with
    | none => some (false, v)
    | some block => v.data.map fun old =>
      (true, { v with data := some (block.paste 0 old (v.sizeElem * v.maxElems)), maxElems := v.grownLength length })

/-- A call that returns false before it has done anything. -/
def refuse (v : Vector) : Option Reply := some ⟨false, none, v⟩

def bhVectorInit (malloc : Bool) (v : Vector) (initLength sizeElem : Nat) : Option Reply :=
  let initLength := if initLength = 0 then 4 else initLength
  -- the field is assigned before it is tested
  match allocVectorData malloc initLength sizeElem with
  | none => refuse { v with data := none }
  | some block => some ⟨true, none, { maxElems := initLength, data := some block, numElems := 0, sizeElem := sizeElem }⟩

def bhVectorSet (v : Vector) (index : Nat) (elemBuf : Option Mem) : Option Reply :=
  match elemBuf with
  | none => v.refuse
  | some buf =>
    if index ≥ v.numElems then v.refuse
    else v.data.map fun data => ⟨true, none, { v with data := some (data.paste (v.sizeElem * index) buf v.sizeElem) }⟩

/-- `elemBuf` says whether the caller gives a buffer. -/
def bhVectorGet (v : Vector) (index : Nat) (elemBuf : Bool) : Option Reply :=
  if !elemBuf then v.refuse
  else if index ≥ v.numElems then v.refuse
  else v.data.map fun data => ⟨true, some (data.slice (v.sizeElem * index) v.sizeElem), v⟩

/-- The loop of `bh_vector_insert`, with its counter and its pointer. -/
def insertLoop (sizeElem index : Nat) : Nat → Nat → Mem → Mem × Nat
  | 0, p, data => (data, p)
  | i + 1, p, data =>
    if i + 1 > index then insertLoop sizeElem index i (p - sizeElem) (data.copy p (p - sizeElem) sizeElem)
    else (data, p)

def bhVectorInsert (malloc : Bool) (v : Vector) (index : Nat) (elemBuf : Option Mem) : Option Reply :=
  match elemBuf with
  | none => v.refuse
  | some buf =>
    if index ≥ v.numElems then v.refuse
    else
      (extendVector malloc v (v.numElems + 1)).bind fun (extended, v) =>
        if !extended then v.refuse
        else v.data.map fun data =>
          let (data, p) := insertLoop v.sizeElem index (v.numElems - 1) (v.sizeElem * v.numElems) data
          ⟨true, none, { v with data := some (data.paste p buf v.sizeElem), numElems := v.numElems + 1 }⟩

def bhVectorAppend (malloc : Bool) (v : Vector) (elemBuf : Option Mem) : Option Reply :=
  match elemBuf with
  | none => v.refuse
  | some buf =>
    (extendVector malloc v (v.numElems + 1)).bind fun (extended, v) =>
      if !extended then v.refuse
      else v.data.map fun data =>
        ⟨true, none, { v with data := some (data.paste (v.sizeElem * v.numElems) buf v.sizeElem), numElems := v.numElems + 1 }⟩

/-- The loop of `bh_vector_remove` with the number of rounds that are left. -/
def removeLoop (sizeElem : Nat) : Nat → Nat → Mem → Mem
  | 0, _, data => data
  | k + 1, p, data => removeLoop sizeElem k (p + sizeElem) (data.copy p (p + sizeElem) sizeElem)

def bhVectorRemove (v : Vector) (index : Nat) (oldElemBuf : Bool) : Option Reply :=
  if index ≥ v.numElems then v.refuse
  else v.data.map fun data =>
    let p := v.sizeElem * index
    ⟨true, if oldElemBuf then some (data.slice p v.sizeElem) else none,
      { v with data := some (removeLoop v.sizeElem (v.numElems - 1 - index) p data), numElems := v.numElems - 1 }⟩

/-- A call of the interface. -/
inductive Op
  | init (malloc : Bool) (initLength sizeElem : Nat)
  | set (index : Nat) (elemBuf : Option Mem)
  | get (index : Nat) (elemBuf : Bool)
  | insert (malloc : Bool) (index : Nat) (elemBuf : Option Mem)
  | append (malloc : Bool) (elemBuf : Option Mem)
  | remove (index : Nat) (oldElemBuf : Bool)

def call (v : Vector) : Op → Option Reply
  | .init malloc initLength sizeElem => bhVectorInit malloc v initLength sizeElem
  | .set index elemBuf => bhVectorSet v index elemBuf
  | .get index elemBuf => bhVectorGet v index elemBuf
  | .insert malloc index elemBuf => bhVectorInsert malloc v index elemBuf
  | .append malloc elemBuf => bhVectorAppend malloc v elemBuf
  | .remove index oldElemBuf => bhVectorRemove v index oldElemBuf

/-! ## The list -/

/-- A list of elements of one size. -/
@[ext] structure Listing where
  sizeElem : Nat
  elems : List (List UInt8)
  sized : ∀ e ∈ elems, e.length = sizeElem

namespace Listing

/-- The element that a caller gives in a buffer. -/
def given (l : Listing) (buf : Mem) : List UInt8 := buf.slice 0 l.sizeElem

@[simp] theorem length_given (l : Listing) (buf : Mem) : (l.given buf).length = l.sizeElem := Mem.length_slice _ _ _

def set (l : Listing) (i : Nat) (buf : Mem) : Listing where
  sizeElem := l.sizeElem
  elems := l.elems.set i (l.given buf)
  sized e he := (List.mem_or_eq_of_mem_set he).elim (l.sized e) fun h => h ▸ l.length_given buf

/-- The new element is the `i`-th, the elements from `i` on move up by one. -/
def insert (l : Listing) (i : Nat) (buf : Mem) : Listing where
  sizeElem := l.sizeElem
  elems := l.elems.take i ++ l.given buf :: l.elems.drop i
  sized e he := by
    rcases List.mem_append.1 he with he | he
    · exact l.sized e (List.mem_of_mem_take he)
    · rcases List.mem_cons.1 he with rfl | he
      · exact l.length_given buf
      · exact l.sized e (List.mem_of_mem_drop he)

def append (l : Listing) (buf : Mem) : Listing where
  sizeElem := l.sizeElem
  elems := l.elems ++ [l.given buf]
  sized e he := (List.mem_append.1 he).elim (l.sized e) fun h => List.mem_singleton.1 h ▸ l.length_given buf

def remove (l : Listing) (i : Nat) : Listing where
  sizeElem := l.sizeElem
  elems := l.elems.eraseIdx i
  sized e he := l.sized e (List.mem_of_mem_eraseIdx he)

/-- The list of a new vector. -/
def empty (sizeElem : Nat) : Listing := ⟨sizeElem, [], by simp⟩

end Listing

/-- What a call that succeeds does to the list. -/
def Op.apply : Op → Listing → Listing
  | .init _ _ sizeElem, _ => .empty sizeElem
  | .set i (some buf), l => l.set i buf
  | .insert _ i (some buf), l => l.insert i buf
  | .append _ (some buf), l => l.append buf
  | .remove i _, l => l.remove i
  | .set _ none, l | .get _ _, l | .insert _ _ none, l | .append _ none, l => l

/-- What a call that succeeds returns in the buffer of its caller. -/
def Op.output : Op → Listing → Option (List UInt8)
  | .get i _, l => l.elems[i]?
  | .remove i true, l => l.elems[i]?
  | .init .., _ | .set .., _ | .insert .., _ | .append .., _ | .remove _ false, _ => none

/-- What a call may fail for: an index that is not there, a missing buffer, or, for the calls that allocate, memory. -/
def Op.MayFail : Op → Listing → Prop
  | .set i buf, l => l.elems.length ≤ i ∨ buf = none
  | .get i buf, l => l.elems.length ≤ i ∨ buf = false
  | .remove i _, l => l.elems.length ≤ i
  | .init .., _ | .insert .., _ | .append .., _ => True

/-- The elements of a vector are those of the list, and it has room for them. -/
structure Holds (v : Vector) (l : Listing) : Prop where
  size : v.sizeElem = l.sizeElem
  elems : v.data.map (·.slots v.sizeElem v.numElems) = some l.elems
  room : v.numElems ≤ v.maxElems

/-- A call does what the list does: one that returns false changes nothing, one that returns true changes the list and gives out an element of it. -/
structure Right (v : Vector) (l : Listing) (op : Op) (r : Reply) : Prop where
  failed : r.done = false → r.vector = v ∧ op.MayFail l
  out : r.done = true → r.out = op.output l
  holds : r.vector.Holds (if r.done then op.apply l else l)

/-- The vector holds the list that the calls define, after every one of them. -/
def Tracks : Vector → Listing → List Op → Prop
  | v, l, [] => v.Holds l
  | v, l, op :: ops => v.Holds l ∧ ∃ r, v.call op = some r ∧ v.Right l op r ∧ Tracks r.vector (if r.done then op.apply l else l) ops

/-! ## When the calls are right -/

/-- A block of this many elements can be asked for. -/
def Fits (length sizeElem : Nat) : Prop := length ≤ 0xFFFFFFFF ∧ sizeElem ≤ 0xFFFFFFFF ∧ sizeElem * length ≤ 0xFFFFFFFF

instance (length sizeElem : Nat) : Decidable (Fits length sizeElem) := inferInstanceAs (Decidable (_ ∧ _))

/-- There is room for one more element, or memory for it. -/
def Room (v : Vector) (malloc : Bool) : Prop :=
  v.numElems < v.maxElems ∨ malloc = true ∧ Fits (v.grownLength (v.numElems + 1)) v.sizeElem

/-- The condition on a call: there is memory for what a vector is initialised with, and an element that is inserted is equal to the one at its index. -/
def Meets (v : Vector) : Op → Prop
  | .init malloc initLength sizeElem => malloc = true ∧ Fits (if initLength = 0 then 4 else initLength) sizeElem
  | .insert malloc i (some buf) => i < v.numElems → v.Room malloc → v.data.map (·.slot v.sizeElem i) = some (buf.slice 0 v.sizeElem)
  | _ => True

/-- The condition on every call of a sequence. -/
def AllMeet : Vector → List Op → Prop
  | _, [] => True
  | v, op :: ops => v.Meets op ∧ ∀ r, v.call op = some r → AllMeet r.vector ops

section Calls
variable {v : Vector} {l : Listing} {m buf : Mem} {malloc : Bool} {w i n : Nat}

theorem allocVectorData_eq (malloc : Bool) (length sizeElem : Nat) :
    allocVectorData malloc length sizeElem = if malloc = true ∧ Fits length sizeElem then some fun _ => 0 else none := by
  unfold allocVectorData Fits
  by_cases hl : length ≤ 0xFFFFFFFF
  swap
  · rw [if_pos (.inl (by omega)), if_neg (fun h => hl h.2.1)]
  by_cases hw : sizeElem ≤ 0xFFFFFFFF
  swap
  · rw [if_pos (.inr (.inl (by omega))), if_neg (fun h => hw h.2.2.1)]
  -- both factors have 32 bits, the product does not wrap
  have hlt : sizeElem * length < 2 ^ 64 := Nat.lt_of_le_of_lt (Nat.mul_le_mul hw hl) (by decide)
  simp only [Nat.mod_eq_of_lt hlt]
  by_cases ht : sizeElem * length ≤ 0xFFFFFFFF
  · cases malloc <;> simp [hl, hw, ht]
  · rw [if_pos (.inr (.inr (by omega))), if_neg (fun h => ht h.2.2.2)]

theorem le_grownLength (v : Vector) (length : Nat) : length ≤ v.grownLength length := by
  unfold grownLength
  split <;> omega

theorem slots_paste_zero (block : Mem) (h : n ≤ i) : (block.paste 0 m (w * i)).slots w n = m.slots w n := by
  apply Mem.slots_congr
  intro j hj
  apply Mem.slice_congr
  intro k hk
  have hlt := Nat.mul_le_mul_left w (Nat.succ_le_of_lt (Nat.lt_of_lt_of_le hj h))
  rw [Nat.mul_succ] at hlt
  have hin : 0 ≤ w * j + k ∧ w * j + k < 0 + w * i := by omega
  rw [Mem.paste, if_pos hin, Nat.sub_zero]

/-- A vector is extended, with the same elements and room for one more, or left as it is. -/
theorem extendVector_spec (h : v.Holds l) (malloc : Bool) :
    (v.Room malloc ∧ ∃ v', extendVector malloc v (v.numElems + 1) = some (true, v') ∧ v'.Holds l ∧ v'.numElems = v.numElems ∧ v'.sizeElem = v.sizeElem ∧
      v'.numElems < v'.maxElems) ∨ (¬ v.Room malloc ∧ extendVector malloc v (v.numElems + 1) = some (false, v)) := by
  obtain ⟨old, hold⟩ : ∃ old, v.data = some old := by
    cases hd : v.data with
    | none => simpa [hd] using h.elems
    | some old => exact ⟨old, rfl⟩
  unfold extendVector
  by_cases hroom : v.numElems + 1 ≤ v.maxElems
  · rw [if_pos hroom]
    exact .inl ⟨.inl (by omega), v, rfl, h, rfl, rfl, by omega⟩
  rw [if_neg hroom, allocVectorData_eq]
  by_cases hfits : malloc = true ∧ Fits (v.grownLength (v.numElems + 1)) v.sizeElem
  · rw [if_pos hfits, hold]
    refine .inl ⟨.inr hfits, _, rfl, ⟨h.size, ?_, ?_⟩, rfl, rfl, ?_⟩
    · have helems := h.elems
      rw [hold, Option.map_some] at helems
      rw [Option.map_some, slots_paste_zero _ h.room, helems]
    · have := v.le_grownLength (v.numElems + 1)
      show v.numElems ≤ v.grownLength _
      omega
    · exact v.le_grownLength (v.numElems + 1)
  · rw [if_neg hfits]
    exact .inr ⟨fun hr => hr.elim (by omega) hfits, rfl⟩

/-- The loop of `bh_vector_insert` moves the elements behind the index up by one and ends behind the element at the index. -/
theorem insertLoop_spec (index : Nat) (h : index ≤ i) : ∃ m', insertLoop w index i (w * (i + 1)) m = (m', w * (index + 1)) ∧
      ∀ k, m'.slot w k = if index + 1 < k ∧ k ≤ i + 1 then m.slot w (k - 1) else m.slot w k := by
  induction i generalizing m with
  | zero =>
    obtain rfl : index = 0 := by omega
    refine ⟨m, rfl, fun k => ?_⟩
    rw [if_neg (by omega)]
  | succ i ih =>
    rw [insertLoop]
    by_cases hgt : i + 1 > index
    · have hp : w * (i + 1 + 1) - w = w * (i + 1) := by rw [Nat.mul_succ w (i + 1), Nat.add_sub_cancel]
      rw [if_pos hgt, hp]
      obtain ⟨m', heq, hslot⟩ := ih (m := m.copy (w * (i + 1 + 1)) (w * (i + 1)) w) (by omega)
      refine ⟨m', heq, fun k => ?_⟩
      rw [hslot k]
      by_cases hk : k = i + 1 + 1
      · rw [if_neg (by omega), hk, Mem.slot_copy_self, if_pos (by omega), Nat.add_sub_cancel]
      rw [Mem.slot_copy_of_ne hk]
      by_cases hin : index + 1 < k ∧ k ≤ i + 1
      · rw [if_pos hin, if_pos (by omega), Mem.slot_copy_of_ne (by omega)]
      · rw [if_neg hin, if_neg (by omega)]
    obtain rfl : index = i + 1 := by omega
    rw [if_neg hgt]
    refine ⟨m, rfl, fun k => ?_⟩
    rw [if_neg (by omega)]

/-- What `bh_vector_insert` leaves: the new element stands behind the one at the index. -/
theorem slots_insertLoop (buf : Mem) (h : i < n) : ∃ m' p, insertLoop w i (n - 1) (w * n) m = (m', p) ∧
    (m'.paste p buf w).slots w (n + 1) = (m.slots w n).take (i + 1) ++ buf.slice 0 w :: (m.slots w n).drop (i + 1) := by
  obtain ⟨k, rfl⟩ : ∃ k, n = k + 1 := ⟨n - 1, by omega⟩
  obtain ⟨m', heq, hslot⟩ := insertLoop_spec (w := w) (m := m) (i := k) i (by omega)
  refine ⟨m', _, heq, ?_⟩
  apply List.ext_getElem?
  intro j
  rw [Mem.getElem?_slots]
  rcases Nat.lt_trichotomy j (i + 1) with hj | rfl | hj
  · rw [if_pos (by omega), Mem.slot_paste_of_ne (by omega), hslot, if_neg (by omega),
      List.getElem?_append_left (by simp; omega), List.getElem?_take_of_lt hj, Mem.getElem?_slots, if_pos (by omega)]
  · have hlen : ((m.slots w (k + 1)).take (i + 1)).length = i + 1 := by simp; omega
    rw [if_pos (by omega), Mem.slot_paste_self, List.getElem?_append_right (by omega), hlen, Nat.sub_self, List.getElem?_cons_zero]
  have hlen : ((m.slots w (k + 1)).take (i + 1)).length = i + 1 := by simp; omega
  obtain ⟨d, rfl⟩ : ∃ d, j = i + 1 + (d + 1) := ⟨j - (i + 2), by omega⟩
  rw [List.getElem?_append_right (by omega), hlen, Nat.add_sub_cancel_left, List.getElem?_cons_succ, List.getElem?_drop, Mem.getElem?_slots]
  by_cases hd : i + 1 + d < k + 1
  · rw [if_pos (by omega), if_pos hd, Mem.slot_paste_of_ne (by omega), hslot, if_pos (by omega)]
    rfl
  · rw [if_neg (by omega), if_neg hd]

/-- The loop of `bh_vector_remove` moves the elements behind the index down by one. -/
theorem slot_removeLoop (k p : Nat) : ∀ j, (removeLoop w k (w * p) m).slot w j = if p ≤ j ∧ j < p + k then m.slot w (j + 1) else m.slot w j := by
  induction k generalizing p m with
  | zero =>
    intro j
    rw [removeLoop, if_neg (by omega)]
  | succ k ih =>
    intro j
    have hp : w * p + w = w * (p + 1) := (Nat.mul_succ w p).symm
    rw [removeLoop, hp, ih (p + 1) j]
    by_cases hj : j = p
    · subst hj
      rw [if_neg (show ¬(j + 1 ≤ j ∧ j < j + 1 + k) by omega), Mem.slot_copy_self, if_pos (by omega)]
    rw [Mem.slot_copy_of_ne hj]
    by_cases hin : p + 1 ≤ j ∧ j < p + 1 + k
    · rw [if_pos hin, if_pos (by omega), Mem.slot_copy_of_ne (by omega)]
    · rw [if_neg hin, if_neg (by omega)]

theorem slots_removeLoop (h : i < n) : (removeLoop w (n - 1 - i) (w * i) m).slots w (n - 1) = (m.slots w n).eraseIdx i := by
  apply List.ext_getElem?
  intro j
  rw [Mem.getElem?_slots, slot_removeLoop, List.getElem?_eraseIdx, Mem.getElem?_slots, Mem.getElem?_slots]
  by_cases hj : j < i
  · have hin : ¬(i ≤ j ∧ j < i + (n - 1 - i)) := by omega
    rw [if_pos hj, if_neg hin, if_pos (by omega), if_pos (by omega)]
  rw [if_neg hj]
  by_cases hn : j < n - 1
  · have hin : i ≤ j ∧ j < i + (n - 1 - i) := by omega
    rw [if_pos hn, if_pos hin, if_pos (by omega)]
  · rw [if_neg hn, if_neg (by omega)]

theorem Holds.block (h : v.Holds l) : ∃ m, v.data = some m ∧ m.slots v.sizeElem v.numElems = l.elems := by
  cases hd : v.data with
  | none => simpa [hd] using h.elems
  | some m => exact ⟨m, rfl, by simpa [hd] using h.elems⟩

theorem Holds.length_eq (h : v.Holds l) : l.elems.length = v.numElems := by
  obtain ⟨m, -, hm⟩ := h.block
  rw [← hm, Mem.length_slots]

theorem Holds.getElem? (h : v.Holds l) (hd : v.data = some m) (hi : i < v.numElems) : l.elems[i]? = some (m.slot v.sizeElem i) := by
  obtain ⟨m', hd', hm⟩ := h.block
  obtain rfl : m = m' := Option.some.inj (hd.symm.trans hd')
  rw [← hm, Mem.getElem?_slots, if_pos hi]

/-- The call returns, and is right exactly if it meets the condition. -/
def Judged (v : Vector) (l : Listing) (op : Op) : Prop := ∃ r, v.call op = some r ∧ (v.Right l op r ↔ v.Meets op)

theorem insert_succ_eq_iff {xs : List (List UInt8)} {x e : List UInt8} (hx : xs[i]? = some x) :
    xs.take (i + 1) ++ e :: xs.drop (i + 1) = xs.take i ++ e :: xs.drop i ↔ x = e := by
  obtain ⟨hi, rfl⟩ := List.getElem?_eq_some_iff.1 hx
  rw [List.drop_eq_getElem_cons hi, List.take_add_one, hx, Option.toList_some, List.append_assoc, List.append_cancel_left_eq, List.singleton_append]
  constructor
  · intro heq
    exact (List.cons.inj heq).1
  · intro heq
    rw [heq]

section
variable (h : v.Holds l)
include h

theorem judged_refuse {op : Op} (hcall : v.call op = v.refuse) (hf : op.MayFail l) (hm : v.Meets op) : v.Judged l op :=
  ⟨_, hcall, iff_of_true ⟨fun _ => ⟨rfl, hf⟩, nofun, h⟩ hm⟩

theorem judged_set (i : Nat) (elemBuf : Option Mem) : v.Judged l (.set i elemBuf) := by
  cases elemBuf with
  | none => exact judged_refuse h rfl (.inr rfl) trivial
  | some buf =>
    by_cases hi : i ≥ v.numElems
    · exact judged_refuse h (if_pos hi) (.inl (h.length_eq ▸ hi)) trivial
    obtain ⟨m, hd, hm⟩ := h.block
    rw [Judged, call, bhVectorSet]
    simp only [if_neg hi, hd]
    refine ⟨_, rfl, iff_of_true ⟨nofun, fun _ => rfl, h.size, ?_, h.room⟩ trivial⟩
    show some (Mem.slots _ _ _) = some (l.elems.set i (l.given buf))
    rw [Mem.slots_paste, hm, h.size]
    rfl

theorem judged_get (i : Nat) (elemBuf : Bool) : v.Judged l (.get i elemBuf) := by
  cases elemBuf with
  | false => exact judged_refuse h rfl (.inr rfl) trivial
  | true =>
    by_cases hi : i ≥ v.numElems
    · exact judged_refuse h (if_pos hi) (.inl (h.length_eq ▸ hi)) trivial
    obtain ⟨m, hd, hm⟩ := h.block
    rw [Judged, call, bhVectorGet]
    simp only [if_neg hi, hd]
    exact ⟨_, rfl, iff_of_true ⟨nofun, fun _ => (h.getElem? hd (by omega)).symm, h⟩ trivial⟩

theorem judged_remove (i : Nat) (oldElemBuf : Bool) : v.Judged l (.remove i oldElemBuf) := by
  by_cases hi : i ≥ v.numElems
  · exact judged_refuse h (if_pos hi) (show l.elems.length ≤ i from h.length_eq ▸ hi) trivial
  obtain ⟨m, hd, hm⟩ := h.block
  rw [Judged, call, bhVectorRemove]
  simp only [if_neg hi, hd]
  refine ⟨_, rfl, iff_of_true ⟨nofun, fun _ => ?_, h.size, ?_, Nat.le_trans (Nat.sub_le _ _) h.room⟩ trivial⟩
  · cases oldElemBuf with
    | false => rfl
    | true => exact (h.getElem? hd (by omega)).symm
  · show some (Mem.slots _ _ _) = some (l.elems.eraseIdx i)
    rw [slots_removeLoop (by omega), hm]

theorem judged_append (malloc : Bool) (elemBuf : Option Mem) : v.Judged l (.append malloc elemBuf) := by
  cases elemBuf with
  | none => exact judged_refuse h rfl trivial trivial
  | some buf =>
    rcases extendVector_spec h malloc with ⟨-, v', hext, h', -, -, hroom⟩ | ⟨-, hext⟩
    swap
    · exact judged_refuse h (by rw [call, bhVectorAppend, hext]; rfl) trivial trivial
    obtain ⟨m, hd, hm⟩ := h'.block
    rw [Judged, call, bhVectorAppend, hext]
    show ∃ r, v'.data.map _ = some r ∧ _
    rw [hd]
    refine ⟨_, rfl, iff_of_true ⟨nofun, fun _ => rfl, h'.size, ?_, hroom⟩ trivial⟩
    show some (Mem.slots _ _ _) = some (l.elems ++ [l.given buf])
    rw [Mem.slots_succ, Mem.slots_paste, Mem.slot_paste_self, hm, List.set_eq_of_length_le (Nat.le_of_eq h'.length_eq), h'.size]
    rfl

theorem judged_init (malloc : Bool) (initLength sizeElem : Nat) : v.Judged l (.init malloc initLength sizeElem) := by
  obtain ⟨m, hd, -⟩ := h.block
  rw [Judged, call, bhVectorInit]
  simp only [allocVectorData_eq]
  rw [Meets]
  by_cases hfits : malloc = true ∧ Fits (if initLength = 0 then 4 else initLength) sizeElem
  · rw [if_pos hfits]
    exact ⟨_, rfl, iff_of_true ⟨nofun, fun _ => rfl, rfl, rfl, Nat.zero_le _⟩ hfits⟩
  rw [if_neg hfits]
  refine ⟨_, rfl, iff_of_false (fun hr => ?_) hfits⟩
  have hv := congrArg Vector.data (hr.failed rfl).1
  rw [hd] at hv
  cases hv

theorem judged_insert (malloc : Bool) (i : Nat) (elemBuf : Option Mem) : v.Judged l (.insert malloc i elemBuf) := by
  cases elemBuf with
  | none => exact judged_refuse h rfl trivial trivial
  | some buf =>
    by_cases hi : i ≥ v.numElems
    · exact judged_refuse h (if_pos hi) trivial fun hlt => absurd hlt (Nat.not_lt.2 hi)
    rcases extendVector_spec h malloc with ⟨hroom, v', hext, h', hnum, hsize, hmax⟩ | ⟨hroom, hext⟩
    swap
    · exact judged_refuse h (by rw [call, bhVectorInsert]; simp only [if_neg hi, hext]; rfl) trivial fun _ hr => absurd hr hroom
    obtain ⟨m, hd, hm⟩ := h'.block
    obtain ⟨m', p, hloop, hslots⟩ := slots_insertLoop (w := v'.sizeElem) (m := m) (i := i) (n := v'.numElems) buf (by omega)
    obtain ⟨m₀, hd₀, hm₀⟩ := h.block
    have hat : l.elems[i]? = some (m₀.slot v.sizeElem i) := h.getElem? hd₀ (Nat.not_le.1 hi)
    rw [Judged, call, bhVectorInsert, Meets]
    simp only [if_neg hi, hext]
    show ∃ r, v'.data.map _ = some r ∧ _
    rw [hd, Option.map_some, hloop, hd₀, Option.map_some]
    refine ⟨_, rfl, ?_⟩
    rw [hm, h'.size] at hslots
    rw [h.size] at hat ⊢
    -- of what makes the call right only the order of the two elements is in question
    have horder := insert_succ_eq_iff (e := l.given buf) hat
    constructor
    · intro hr _ _
      have helems : some (Mem.slots _ _ _) = some (l.elems.take i ++ l.given buf :: l.elems.drop i) := hr.holds.elems
      rw [h'.size, hslots] at helems
      exact congrArg some (horder.1 (Option.some.inj helems))
    intro hmeets
    have hx := Option.some.inj (hmeets (Nat.not_le.1 hi) hroom)
    refine ⟨nofun, fun _ => rfl, h'.size, ?_, hmax⟩
    show some (Mem.slots _ _ _) = some (l.elems.take i ++ l.given buf :: l.elems.drop i)
    rw [h'.size, hslots]
    exact congrArg some (horder.2 hx)

/-- One call on a vector that holds a list is right exactly if it meets the condition. -/
theorem judged (op : Op) : v.Judged l op := by
  cases op with
  | init malloc initLength sizeElem => exact judged_init h malloc initLength sizeElem
  | insert malloc i elemBuf => exact judged_insert h malloc i elemBuf
  | set i elemBuf => exact judged_set h i elemBuf
  | get i elemBuf => exact judged_get h i elemBuf
  | append malloc elemBuf => exact judged_append h malloc elemBuf
  | remove i oldElemBuf => exact judged_remove h i oldElemBuf

end

theorem tracks_iff_of_holds (h : v.Holds l) (ops : List Op) : v.Tracks l ops ↔ v.AllMeet ops := by
  induction ops generalizing v l with
  | nil => exact iff_of_true h trivial
  | cons op ops ih =>
    obtain ⟨r, hr, hiff⟩ := judged h op
    constructor
    · rintro ⟨-, r', hr', hright, htracks⟩
      obtain rfl := Option.some.inj (hr.symm.trans hr')
      refine ⟨hiff.1 hright, fun r'' hr'' => ?_⟩
      obtain rfl := Option.some.inj (hr.symm.trans hr'')
      exact (ih hright.holds).1 htracks
    · rintro ⟨hmeets, hrest⟩
      have hright := hiff.2 hmeets
      exact ⟨h, r, hr, hright, (ih hright.holds).2 (hrest r hr)⟩

end Calls

/-! ## Sequences of calls on a new vector -/

end Vector
end WamrMigrate.Utils
