import Mathlib.Data.List.Nodup
import Mathlib.Data.List.TakeWhile
import WamrMigrate.Loader.FunctionSection

/-!
# The constant strings of a module

`const_str_list_insert` keeps one copy of each name of a module. It looks a name up by its length and its bytes, but the length of a string in the
list goes up to the first byte 0, and names may have such bytes. A copy of 2 GiB is refused by `bh_memcpy_s` and leaves the zeros of the new block.
-/

namespace WamrMigrate.Loader

/-! ## The model -/

/-- A byte in a range. -/
def between (lo hi b : UInt8) : Bool := lo ≤ b && b ≤ hi

/-- The second byte of a character of three bytes. -/
def secondOfThree (chr b : UInt8) : Bool :=
  if chr = 0xE0 then between 0xA0 0xBF b else if chr = 0xED then between 0x80 0x9F b else between 0x80 0xBF b

/-- The second byte of a character of four bytes. -/
def secondOfFour (chr b : UInt8) : Bool :=
  if chr = 0xF0 then between 0x90 0xBF b else if chr = 0xF4 then between 0x80 0x8F b else between 0x80 0xBF b

/-- `check_utf8_str`. -/
def checkUtf8Str : List UInt8 → Bool
  | [] => true
  | chr :: rest =>
    if chr < 0x80 then checkUtf8Str rest
    else
      match rest with
      | [] => false
      | p₁ :: rest =>
        if between 0xC2 0xDF chr then between 0x80 0xBF p₁ && checkUtf8Str rest
        else
          match rest with
          | [] => false
          | p₂ :: rest =>
            if between 0xE0 0xEF chr then secondOfThree chr p₁ && between 0x80 0xBF p₂ && checkUtf8Str rest
            else
              match rest with
              | [] => false
              | p₃ :: rest =>
                if between 0xF0 0xF4 chr then secondOfFour chr p₁ && between 0x80 0xBF p₂ && between 0x80 0xBF p₃ && checkUtf8Str rest
                else false

/-- What `const_str_list_insert` is called with, and whether there is memory for a node. -/
structure StrArg where
  str : List UInt8
  malloc : Bool
  len_lt : str.length < 2 ^ 32

/-- `StringNode`: which one it is, and the bytes of its string with the end. Nodes are numbered as they are made; blocks that are in use are different ones. -/
structure StringNode where
  ptr : Nat
  str : List UInt8
  deriving DecidableEq

/-- A C string up to its end. -/
def cString (str : List UInt8) : List UInt8 := str.takeWhile (· ≠ 0)

/-- `strlen(node->str) == len && !memcmp(node->str, str, len)`. -/
def StringNode.isFor (str : List UInt8) (node : StringNode) : Bool :=
  (cString node.str).length = str.length ∧ node.str.take str.length = str

/-- The bytes of a new node: `bh_memcpy_s` copies nothing into a block of 2 GiB, which is zeroed. -/
def nodeBytes (str : List UInt8) : List UInt8 := if 0x7FFFFFFF < str.length + 1 then List.replicate (str.length + 1) 0 else str ++ [0]

/-- `const_str_list_insert`: the list, the newest node first, and the node whose string is returned. -/
def constStrListInsert (nodes : List StringNode) (a : StrArg) : Except String (List StringNode × Nat) :=
  if ¬ checkUtf8Str a.str then .error "invalid UTF-8 encoding"
  else
    match nodes.find? (·.isFor a.str) with
    | some node => .ok (nodes, node.ptr)
    | none => do
      loaderMalloc a.malloc (16 + a.str.length + 1)
      return (⟨nodes.length, nodeBytes a.str⟩ :: nodes, nodes.length)

/-- The list of a module, and what has been returned for which string. -/
structure StringTable where
  nodes : List StringNode
  log : List (List UInt8 × Nat)

namespace StringTable

/-- A module without strings. -/
def empty : StringTable := ⟨[], []⟩

/-- One call of `const_str_list_insert`. -/
def insert (t : StringTable) (a : StrArg) : StringTable :=
  match constStrListInsert t.nodes a with
  | .ok (nodes, ptr) => ⟨nodes, (a.str, ptr) :: t.log⟩
  | .error _ => t

/-- Several calls. -/
def insertAll (t : StringTable) (as : List StrArg) : StringTable := as.foldl insert t

/-- What is returned points to the string and its end, equal strings have one pointer and different ones two, and no two nodes are equal. -/
structure Interned (t : StringTable) : Prop where
  strings : ∀ x ∈ t.log, ∃ n ∈ t.nodes, n.ptr = x.2 ∧ x.1 ++ [0] <+: n.str
  same : ∀ x ∈ t.log, ∀ y ∈ t.log, x.1 = y.1 ↔ x.2 = y.2
  distinct : (t.nodes.map StringNode.str).Nodup

end StringTable

namespace StrArg

/-- A node is made for the string if it is not found. -/
def Stored (a : StrArg) : Prop := checkUtf8Str a.str ∧ a.malloc ∧ 16 + a.str.length + 1 < 0xFFFFFFFF

/-- A string that is too long for `bh_memcpy_s` has only zeros. -/
def Copied (a : StrArg) : Prop := a.Stored → 0x7FFFFFFF ≤ a.str.length → ∀ b ∈ a.str, b = 0

/-- After a string with a byte 0 neither the same string comes again, nor its part before that byte. -/
def Apart (a b : StrArg) : Prop :=
  a.Stored → 0 ∈ a.str → checkUtf8Str b.str → b.str ≠ cString a.str ∧ (b.Stored → b.str ≠ a.str)

end StrArg

/-! ## Strings in the list -/

section Strings
variable {str : List UInt8} {n : StringNode} {a : StrArg}

theorem zero_not_mem_cString (str : List UInt8) : 0 ∉ cString str := by
  intro h
  have hne := List.mem_takeWhile_imp h
  simp at hne

theorem cString_of_not_mem (h : 0 ∉ str) : cString str = str := by
  refine List.takeWhile_eq_self_iff.2 fun b hb => decide_eq_true ?_
  rintro rfl
  exact h hb

theorem cString_append_zero (str : List UInt8) : cString (str ++ [0]) = cString str := by
  induction str with
  | nil => rfl
  | cons b str ih =>
    unfold cString at ih ⊢
    rw [List.cons_append, List.takeWhile_cons, List.takeWhile_cons, ih]

/-- A node is taken for the strings that are its string up to the first byte 0. -/
theorem isFor_iff {name : List UInt8} (hn : n.str = str ++ [0]) : n.isFor name ↔ name = cString str := by
  have hpre : cString str <+: n.str := hn ▸ (List.takeWhile_prefix _).trans (List.prefix_append str [0])
  have htake : n.str.take (cString str).length = cString str := (List.prefix_iff_eq_take.1 hpre).symm
  unfold StringNode.isFor
  rw [decide_eq_true_eq, hn, cString_append_zero, ← hn]
  constructor
  · rintro ⟨hlen, heq⟩
    rw [← heq, ← hlen, htake]
  · rintro rfl
    exact ⟨rfl, htake⟩

theorem nodeBytes_of_copied (hs : a.Stored) (hc : a.Copied) : nodeBytes a.str = a.str ++ [0] := by
  unfold nodeBytes
  split
  · rename_i hlong
    rw [List.replicate_succ', ← List.eq_replicate_of_mem (hc hs (Nat.le_of_lt_succ hlong))]
  · rfl

end Strings

/-! ## One call -/

namespace StringTable
variable {t : StringTable} {a b : StrArg}

/-- What a call does: nothing, a node that is found, or a new one. -/
theorem insert_cases (t : StringTable) (a : StrArg) : (checkUtf8Str a.str = false ∧ t.insert a = t) ∨
    (∃ n, checkUtf8Str a.str ∧ t.nodes.find? (·.isFor a.str) = some n ∧ t.insert a = ⟨t.nodes, (a.str, n.ptr) :: t.log⟩) ∨
    (t.nodes.find? (·.isFor a.str) = none ∧ ¬ a.Stored ∧ t.insert a = t) ∨ (t.nodes.find? (·.isFor a.str) = none ∧ a.Stored ∧
      t.insert a = ⟨⟨t.nodes.length, nodeBytes a.str⟩ :: t.nodes, (a.str, t.nodes.length) :: t.log⟩) := by
  unfold insert constStrListInsert
  by_cases hutf : checkUtf8Str a.str = true
  · rw [if_neg (not_not.2 hutf)]
    cases hfind : t.nodes.find? (·.isFor a.str) with
    | some n => exact .inr (.inl ⟨n, hutf, rfl, rfl⟩)
    | none =>
      by_cases hmem : a.malloc = true ∧ 16 + a.str.length + 1 < 0xFFFFFFFF
      · have hok := loaderMalloc_iff.2 hmem
        refine .inr (.inr (.inr ⟨rfl, ⟨hutf, hmem⟩, ?_⟩))
        simp only [hok]
        rfl
      · cases hok : loaderMalloc a.malloc (16 + a.str.length + 1) with
        | ok => exact absurd (loaderMalloc_iff.1 hok) hmem
        | error e => exact .inr (.inr (.inl ⟨rfl, fun hs => hmem hs.2, rfl⟩))
  · rw [if_pos hutf]
    exact .inl ⟨Bool.eq_false_iff.2 hutf, rfl⟩

/-- The nodes have the strings that have been returned. No node is newer than one with a byte 0 and has the string before that byte. -/
structure Sound (t : StringTable) : Prop where
  returned : ∀ x ∈ t.log, ⟨x.2, x.1 ++ [0]⟩ ∈ t.nodes
  named : ∀ n ∈ t.nodes, ∃ str, n.str = str ++ [0] ∧ (str, n.ptr) ∈ t.log
  ptr_lt : ∀ n ∈ t.nodes, n.ptr < t.nodes.length
  ptrs : (t.nodes.map StringNode.ptr).Nodup
  strs : (t.nodes.map StringNode.str).Nodup
  long : ∀ n ∈ t.nodes, 0x7FFFFFFF < n.str.length → ∀ b ∈ n.str, b = 0
  order : t.nodes.Pairwise fun newer n => ∀ str, n.str = str ++ [0] → 0 ∈ str → newer.str ≠ cString str ++ [0]

/-- A string that can be inserted: it is copied, and it is not taken for a string with a byte 0, nor such a string again. -/
def Fits (t : StringTable) (a : StrArg) : Prop :=
  a.Copied ∧ ∀ n ∈ t.nodes, ∀ str, n.str = str ++ [0] → 0 ∈ str → checkUtf8Str a.str → a.str ≠ cString str ∧ (a.Stored → a.str ≠ str)

theorem sound_empty : empty.Sound :=
  ⟨nofun, nofun, nofun, List.nodup_nil, List.nodup_nil, nofun, List.Pairwise.nil⟩

theorem Sound.interned (h : t.Sound) : t.Interned where
  strings x hx := ⟨_, h.returned x hx, rfl, List.prefix_refl _⟩
  same x hx y hy := by
    have hxn := h.returned x hx
    have hyn := h.returned y hy
    constructor
    · intro hstr
      exact congrArg StringNode.ptr (List.inj_on_of_nodup_map h.strs hxn hyn (congrArg (· ++ [0]) hstr))
    · intro hptr
      exact List.append_cancel_right (congrArg StringNode.str (List.inj_on_of_nodup_map h.ptrs hxn hyn hptr))
  distinct := h.strs

theorem Sound.found (h : t.Sound) (hfit : t.Fits a) (hutf : checkUtf8Str a.str) {n : StringNode} (hn : n ∈ t.nodes) (hfor : n.isFor a.str) :
    n.str = a.str ++ [0] := by
  obtain ⟨str, hstr, -⟩ := h.named n hn
  have hname := (isFor_iff hstr).1 hfor
  by_cases hzero : 0 ∈ str
  · exact absurd hname (hfit.2 n hn str hstr hzero hutf).1
  · rw [hstr, hname, cString_of_not_mem hzero]

/-- A string that is not found has no node, unless it has a byte 0. -/
theorem not_found (hfind : t.nodes.find? (·.isFor a.str) = none) {n : StringNode} (hn : n ∈ t.nodes) {str : List UInt8}
    (hstr : n.str = str ++ [0]) : a.str ≠ cString str := by
  intro hname
  exact absurd ((isFor_iff hstr).2 hname) (List.find?_eq_none.1 hfind n hn)

theorem Sound.insert (h : t.Sound) (hfit : t.Fits a) : (t.insert a).Sound := by
  rcases t.insert_cases a with ⟨-, heq⟩ | ⟨n, hutf, hfind, heq⟩ | ⟨-, -, heq⟩ | ⟨hfind, hstored, heq⟩
  · rwa [heq]
  · have hn := List.mem_of_find?_eq_some hfind
    have hstr := h.found hfit hutf hn (List.find?_some hfind)
    rw [heq]
    refine ⟨?_, ?_, h.ptr_lt, h.ptrs, h.strs, h.long, h.order⟩
    · intro x hx
      rcases List.mem_cons.1 hx with rfl | hx
      · exact hstr ▸ hn
      · exact h.returned x hx
    · intro m hm
      obtain ⟨str, hs, hlog⟩ := h.named m hm
      exact ⟨str, hs, List.mem_cons_of_mem _ hlog⟩
  · rwa [heq]
  have hbytes := nodeBytes_of_copied hstored hfit.1
  rw [heq]
  refine ⟨?_, ?_, ?_, ?_, ?_, ?_, ?_⟩
  · intro x hx
    rcases List.mem_cons.1 hx with rfl | hx
    · exact hbytes ▸ List.mem_cons_self
    · exact List.mem_cons_of_mem _ (h.returned x hx)
  · intro m hm
    rcases List.mem_cons.1 hm with rfl | hm
    · exact ⟨a.str, hbytes, List.mem_cons_self⟩
    · obtain ⟨str, hs, hlog⟩ := h.named m hm
      exact ⟨str, hs, List.mem_cons_of_mem _ hlog⟩
  · intro m hm
    rcases List.mem_cons.1 hm with rfl | hm
    · exact Nat.lt_succ_self _
    · exact Nat.lt_succ_of_lt (h.ptr_lt m hm)
  · refine List.nodup_cons.2 ⟨?_, h.ptrs⟩
    intro hmem
    obtain ⟨m, hm, hptr⟩ := List.mem_map.1 hmem
    exact Nat.ne_of_lt (h.ptr_lt m hm) hptr
  · refine List.nodup_cons.2 ⟨?_, h.strs⟩
    intro hmem
    obtain ⟨m, hm, hstr⟩ := List.mem_map.1 hmem
    rw [hbytes] at hstr
    by_cases hzero : 0 ∈ a.str
    · exact (hfit.2 m hm a.str hstr hzero hstored.1).2 hstored rfl
    · exact not_found hfind hm hstr (cString_of_not_mem hzero).symm
  · intro m hm hlen b hb
    rcases List.mem_cons.1 hm with rfl | hm
    · simp only [hbytes, List.length_append, List.length_singleton, List.mem_append, List.mem_singleton] at hlen hb
      rcases hb with hb | rfl
      · exact hfit.1 hstored (Nat.le_of_lt_succ hlen) b hb
      · rfl
    · exact h.long m hm hlen b hb
  refine List.pairwise_cons.2 ⟨?_, h.order⟩
  intro m hm str hstr _ hsame
  rw [hbytes] at hsame
  exact not_found hfind hm hstr (List.append_cancel_right hsame)

/-! ## A string that does not fit -/

theorem Sound.not_interned_of_not_copied (h : t.Sound) (hc : ¬ a.Copied) : ¬ (t.insert a).Interned := by
  unfold StrArg.Copied at hc
  push Not at hc
  obtain ⟨hstored, hlong, b, hb, hne⟩ := hc
  rcases t.insert_cases a with ⟨hutf, -⟩ | ⟨n, -, hfind, -⟩ | ⟨-, hno, -⟩ | ⟨hfind, -, heq⟩
  · exact absurd hstored.1 (hutf ▸ Bool.false_ne_true)
  · -- a node of that length has only zeros, and so no C string of that length
    have hn := List.mem_of_find?_eq_some hfind
    obtain ⟨str, hstr, -⟩ := h.named n hn
    have hname := (isFor_iff hstr).1 (List.find?_some hfind)
    have hle : a.str.length ≤ str.length := hname ▸ (List.takeWhile_prefix _).length_le
    have hzeros := h.long n hn (by rw [hstr, List.length_append, List.length_singleton]; omega)
    have hmem : b ∈ n.str := by
      rw [hstr]
      exact List.mem_append_left _ ((List.takeWhile_prefix _).subset (hname ▸ hb))
    exact absurd (hzeros b hmem) hne
  · exact absurd hstored hno
  rintro ⟨hstrings, -, -⟩
  rw [heq] at hstrings
  obtain ⟨n, hn, hptr, hpre⟩ := hstrings _ List.mem_cons_self
  rcases List.mem_cons.1 hn with rfl | hn
  · have hbytes : nodeBytes a.str = List.replicate (a.str.length + 1) 0 := if_pos (Nat.lt_succ_of_le hlong)
    have hmem : b ∈ nodeBytes a.str := hpre.subset (List.mem_append_left _ hb)
    rw [hbytes] at hmem
    exact hne (List.eq_of_mem_replicate hmem)
  · exact Nat.ne_of_lt (h.ptr_lt n hn) hptr

/-- The string before the byte 0 of a node gets a pointer that another string has. -/
theorem Sound.not_interned_of_cString (h : t.Sound) {n : StringNode} (hn : n ∈ t.nodes) {str : List UInt8} (hstr : n.str = str ++ [0]) (hzero : 0 ∈ str)
    (hutf : checkUtf8Str a.str) (hname : a.str = cString str) : ¬ (t.insert a).Interned := by
  have hfor := (isFor_iff hstr).2 hname
  rcases t.insert_cases a with ⟨hno, -⟩ | ⟨n', -, hfind, heq⟩ | ⟨hfind, -⟩ | ⟨hfind, -⟩
  · exact absurd hutf (hno ▸ Bool.false_ne_true)
  · rintro ⟨-, hsame, -⟩
    rw [heq] at hsame
    obtain ⟨hfor', newer, older, hnodes, hbefore⟩ := List.find?_eq_some_iff_append.1 hfind
    obtain ⟨str', hstr', hlog⟩ := h.named n' (List.mem_of_find?_eq_some hfind)
    -- the node that is found has a byte 0 too: a newer one with just the string does not exist
    have hzero' : 0 ∈ str' := by
      rw [hnodes] at hn
      rcases List.mem_append.1 hn with hn | hn
      · exact absurd hfor (by simpa using hbefore n hn)
      rcases List.mem_cons.1 hn with rfl | hn
      · rwa [List.append_cancel_right (hstr'.symm.trans hstr)]
      by_contra hnot
      have horder := h.order
      rw [hnodes] at horder
      have hnewer := (List.pairwise_cons.1 (List.pairwise_append.1 horder).2.1).1 n hn str hstr hzero
      have hname' := (isFor_iff hstr').1 hfor'
      rw [cString_of_not_mem hnot] at hname'
      exact hnewer (by rw [hstr', ← hname', hname])
    have hsame' : a.str = str' := (hsame _ List.mem_cons_self _ (List.mem_cons_of_mem _ hlog)).2 rfl
    have hname' : a.str = cString str' := (isFor_iff hstr').1 hfor'
    have hzeroA : 0 ∈ a.str := hsame' ▸ hzero'
    exact zero_not_mem_cString str' (hname' ▸ hzeroA)
  · exact absurd hfor (List.find?_eq_none.1 hfind n hn)
  · exact absurd hfor (List.find?_eq_none.1 hfind n hn)

theorem Sound.not_interned_of_same (hc : a.Copied) {n : StringNode} (hn : n ∈ t.nodes) (hstr : n.str = a.str ++ [0]) (h : t.Sound)
    (hzero : 0 ∈ a.str) (hstored : a.Stored) : ¬ (t.insert a).Interned := by
  rcases t.insert_cases a with ⟨hno, -⟩ | ⟨n', -, hfind, -⟩ | ⟨-, hno, -⟩ | ⟨-, -, heq⟩
  · exact absurd hstored.1 (hno ▸ Bool.false_ne_true)
  · obtain ⟨str', hstr', -⟩ := h.named n' (List.mem_of_find?_eq_some hfind)
    have hname := (isFor_iff hstr').1 (List.find?_some hfind)
    exact absurd (hname ▸ hzero) (zero_not_mem_cString str')
  · exact absurd hstored hno
  rintro ⟨-, -, hdistinct⟩
  rw [heq] at hdistinct
  refine (List.nodup_cons.1 hdistinct).1 (List.mem_map.2 ⟨n, hn, ?_⟩)
  rw [hstr, nodeBytes_of_copied hstored hc]

theorem Sound.not_interned (h : t.Sound) (hfit : ¬ t.Fits a) : ¬ (t.insert a).Interned := by
  by_cases hc : a.Copied
  · unfold Fits at hfit
    push Not at hfit
    obtain ⟨n, hn, str, hstr, hzero, hutf, hbad⟩ := hfit hc
    by_cases hname : a.str = cString str
    · exact h.not_interned_of_cString hn hstr hzero hutf hname
    · obtain ⟨hstored, rfl⟩ := hbad hname
      exact h.not_interned_of_same hc hn hstr hzero hstored
  · exact h.not_interned_of_not_copied hc

/-! ## Several calls -/

/-- The pointers are those of nodes that have been made. -/
structure Bounded (t : StringTable) : Prop where
  log_lt : ∀ x ∈ t.log, x.2 < t.nodes.length
  ptr_lt : ∀ n ∈ t.nodes, n.ptr < t.nodes.length

theorem Bounded.insert (h : t.Bounded) (a : StrArg) : (t.insert a).Bounded := by
  rcases t.insert_cases a with ⟨-, heq⟩ | ⟨n, -, hfind, heq⟩ | ⟨-, -, heq⟩ | ⟨-, -, heq⟩
  · rwa [heq]
  · rw [heq]
    refine ⟨fun x hx => ?_, h.ptr_lt⟩
    rcases List.mem_cons.1 hx with rfl | hx
    · exact h.ptr_lt n (List.mem_of_find?_eq_some hfind)
    · exact h.log_lt x hx
  · rwa [heq]
  rw [heq]
  constructor
  · intro x hx
    rcases List.mem_cons.1 hx with rfl | hx
    · exact Nat.lt_succ_self _
    · exact Nat.lt_succ_of_lt (h.log_lt x hx)
  intro n hn
  rcases List.mem_cons.1 hn with rfl | hn
  · exact Nat.lt_succ_self _
  · exact Nat.lt_succ_of_lt (h.ptr_lt n hn)

theorem Bounded.interned_of_insert (h : t.Bounded) (hi : (t.insert a).Interned) : t.Interned := by
  rcases t.insert_cases a with ⟨-, heq⟩ | ⟨n, -, -, heq⟩ | ⟨-, -, heq⟩ | ⟨-, -, heq⟩
  · rwa [heq] at hi
  · rw [heq] at hi
    exact ⟨fun x hx => hi.strings x (List.mem_cons_of_mem _ hx),
      fun x hx y hy => hi.same x (List.mem_cons_of_mem _ hx) y (List.mem_cons_of_mem _ hy), hi.distinct⟩
  · rwa [heq] at hi
  rw [heq] at hi
  refine ⟨fun x hx => ?_, fun x hx y hy => hi.same x (List.mem_cons_of_mem _ hx) y (List.mem_cons_of_mem _ hy), (List.nodup_cons.1 hi.distinct).2⟩
  obtain ⟨n, hn, hptr, hpre⟩ := hi.strings x (List.mem_cons_of_mem _ hx)
  rcases List.mem_cons.1 hn with rfl | hn
  · exact absurd hptr (Nat.ne_of_gt (h.log_lt x hx))
  · exact ⟨n, hn, hptr, hpre⟩

theorem Bounded.interned_of_insertAll {as : List StrArg} (h : t.Bounded) (hi : (t.insertAll as).Interned) : t.Interned := by
  induction as generalizing t with
  | nil => exact hi
  | cons a as ih => exact h.interned_of_insert (ih (h.insert a) hi)

theorem Sound.bounded (h : t.Sound) : t.Bounded := ⟨fun x hx => h.ptr_lt _ (h.returned x hx), h.ptr_lt⟩

/-- After a string that fits, another one fits if it did before and is apart from it. -/
theorem fits_insert_iff (h : t.Sound) (hfit : t.Fits a) : (t.insert a).Fits b ↔ t.Fits b ∧ a.Apart b := by
  rcases t.insert_cases a with ⟨hno, heq⟩ | ⟨n, -, hfind, heq⟩ | ⟨-, hno, heq⟩ | ⟨-, hstored, heq⟩
  · rw [heq, iff_self_and]
    intro _ hstored
    exact absurd hstored.1 (hno ▸ Bool.false_ne_true)
  · have happart : a.Apart b := by
      intro _ hzero
      obtain ⟨str, hstr, -⟩ := h.named n (List.mem_of_find?_eq_some hfind)
      have hname := (isFor_iff hstr).1 (List.find?_some hfind)
      exact absurd (hname ▸ hzero) (zero_not_mem_cString str)
    rw [heq]
    exact (and_iff_left happart).symm
  · rw [heq, iff_self_and]
    intro _ hstored
    exact absurd hstored hno
  have hbytes := nodeBytes_of_copied hstored hfit.1
  rw [heq]
  unfold Fits StrArg.Apart
  rw [and_assoc, and_congr_right_iff]
  intro _
  constructor
  · intro hall
    exact ⟨fun n hn => hall n (List.mem_cons_of_mem _ hn), fun _ => hall _ List.mem_cons_self a.str hbytes⟩
  rintro ⟨hold, hnew⟩ n hn str hstr
  rcases List.mem_cons.1 hn with rfl | hn
  · obtain rfl := List.append_cancel_right (hbytes.symm.trans hstr)
    exact hnew hstored
  · exact hold n hn str hstr

theorem Sound.interned_insertAll_iff {as : List StrArg} (h : t.Sound) : (t.insertAll as).Interned ↔ (∀ a ∈ as, t.Fits a) ∧ as.Pairwise StrArg.Apart := by
  induction as generalizing t with
  | nil => exact iff_of_true h.interned ⟨nofun, List.Pairwise.nil⟩
  | cons a as ih =>
    by_cases hfit : t.Fits a
    · have hrest : ((t.insert a).insertAll as).Interned ↔ _ := ih (h.insert hfit)
      rw [insertAll, List.foldl_cons, ← insertAll, hrest, List.pairwise_cons, List.forall_mem_cons, and_iff_right hfit]
      constructor
      · rintro ⟨hall, hpair⟩
        exact ⟨fun b hb => ((fits_insert_iff h hfit).1 (hall b hb)).1, fun b hb => ((fits_insert_iff h hfit).1 (hall b hb)).2, hpair⟩
      · rintro ⟨hall, hapart, hpair⟩
        exact ⟨fun b hb => (fits_insert_iff h hfit).2 ⟨hall b hb, hapart b hb⟩, hpair⟩
    · refine iff_of_false (fun hi => h.not_interned hfit ?_) fun hall => hfit (hall.1 a List.mem_cons_self)
      exact (h.bounded.insert a).interned_of_insertAll hi

end StringTable

/-- The strings of a module are interned exactly if those that are too long to be copied have only zeros, and if after a string with a byte 0 neither the
same string comes again nor its part before that byte. -/
theorem constStr_interned_iff (as : List StrArg) :
    (StringTable.empty.insertAll as).Interned ↔ (∀ a ∈ as, a.Copied) ∧ as.Pairwise StrArg.Apart := by
  rw [StringTable.sound_empty.interned_insertAll_iff]
  refine and_congr_left fun _ => forall₂_congr fun a _ => ?_
  exact and_iff_left nofun

/-- A string with a byte 0 that comes twice, and one that comes before its own first part. -/
def zeroStrings (last : List UInt8) (h : last.length < 2 ^ 32) : List StrArg := [⟨[0x61, 0, 0x62], true, by decide⟩, ⟨last, true, h⟩]

/-- The same string gets two nodes, and two different strings get one pointer. -/
theorem zeroStrings_not_interned :
    (StringTable.empty.insertAll (zeroStrings [0x61, 0, 0x62] (by decide))).log = [([0x61, 0, 0x62], 1), ([0x61, 0, 0x62], 0)] ∧
    (StringTable.empty.insertAll (zeroStrings [0x61] (by decide))).log = [([0x61], 0), ([0x61, 0, 0x62], 0)] ∧
    ¬ (StringTable.empty.insertAll (zeroStrings [0x61, 0, 0x62] (by decide))).Interned ∧
    ¬ (StringTable.empty.insertAll (zeroStrings [0x61] (by decide))).Interned := by
  have htwice : (StringTable.empty.insertAll (zeroStrings [0x61, 0, 0x62] (by decide))).log = [([0x61, 0, 0x62], 1), ([0x61, 0, 0x62], 0)] := by decide
  have hfirst : (StringTable.empty.insertAll (zeroStrings [0x61] (by decide))).log = [([0x61], 0), ([0x61, 0, 0x62], 0)] := by decide
  refine ⟨htwice, hfirst, fun h => ?_, fun h => ?_⟩
  · have hsame := h.same _ (htwice ▸ List.mem_cons_self) _ (htwice ▸ List.mem_cons_of_mem _ List.mem_cons_self)
    exact absurd (hsame.1 rfl) (by decide)
  · have hsame := h.same _ (hfirst ▸ List.mem_cons_self) _ (hfirst ▸ List.mem_cons_of_mem _ List.mem_cons_self)
    exact absurd (hsame.2 rfl) (by decide)

end WamrMigrate.Loader
