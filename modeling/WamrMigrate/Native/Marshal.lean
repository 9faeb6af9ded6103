import WamrMigrate.Native.Invoke

/-!
# The arguments of native functions

The words of the array are the places of the calling convention: with each argument the counters are those of the convention, and no word is written
twice. A pointer that passes its check is an address in the memory, except one to no bytes at the end of the memory, which is made a null pointer.
-/

namespace WamrMigrate.Native

/-! ## The array -/

/-- The word of the array for a place. -/
def slot : Place → Nat
  | .register .integer k => 8 + k
  | .register .float k => k
  | .stack k => 14 + k

/-- The classes of the arguments before one. -/
def classes (args : List Arg) : List ArgClass := args.map Arg.argClass

/-- The word for an argument behind others. -/
def slotOf (before : List Arg) (a : Arg) : Nat := slot (systemV.place (classes before) a.argClass)

section Array
variable {before args : List Arg} {a b : Arg} {s : Marshal}

theorem count_classes (cs : List ArgClass) : cs.count .integer + cs.count .float = cs.length := by
  induction cs with
  | nil => rfl
  | cons c cs ih => cases c <;> simp <;> omega

theorem prefix_of_getElem {i : Nat} (h : args[i]? = some a) : args.take i ++ [a] <+: args := by
  have htake : args.take (i + 1) = args.take i ++ args[i]?.toList := List.take_add_one
  rw [h, Option.toList_some] at htake
  exact htake ▸ List.take_prefix _ _

/-- The registers of the convention are as many as there is room for in the array. -/
theorem slot_inj {cs ds : List ArgClass} {c d : ArgClass} (h : slot (systemV.place cs c) = slot (systemV.place ds d)) :
    systemV.place cs c = systemV.place ds d := by
  revert h
  unfold CallConv.place
  cases c <;> cases d <;> split <;> split <;> simp only [slot, systemV, Place.register.injEq, Place.stack.injEq, reduceCtorEq, true_and] at * <;> omega

theorem slotOf_ne (h : before ++ [b] <+: args) : slotOf args a ≠ slotOf before b := by
  intro heq
  refine CallConv.place_ne ?_ (slot_inj heq)
  have hclasses := h.map Arg.argClass
  rwa [List.map_append] at hclasses

theorem slotOf_integer (hc : a.argClass = .integer) :
    slotOf args a = if (classes args).count .integer < 6 then 8 + (classes args).count .integer else 14 + systemV.stacked (classes args) := by
  rw [slotOf, hc]
  exact apply_ite slot _ _ _

theorem slotOf_float (hc : a.argClass = .float) :
    slotOf args a = if (classes args).count .float < 8 then (classes args).count .float else 14 + systemV.stacked (classes args) := by
  rw [slotOf, hc]
  exact apply_ite slot _ _ _

/-- With the environment the array has as many words as there are arguments, and eight more. -/
theorem slotOf_lt (before : List Arg) (a : Arg) : slotOf before a < 8 + (before.length + 1) := by
  have hcount := count_classes (classes before)
  have hlen : (classes before).length = before.length := List.length_map _
  have hstacked : systemV.stacked (classes before) = ((classes before).count .integer - 6) + ((classes before).count .float - 8) := rfl
  cases hc : a.argClass with
  | integer =>
    rw [slotOf_integer hc, hstacked]
    split <;> omega
  | float =>
    rw [slotOf_float hc, hstacked]
    split <;> omega

/-- The array after some arguments. -/
structure Holds (s : Marshal) (args : List Arg) : Prop where
  nInts : s.nInts = min ((classes args).count .integer) 6
  nFps : s.nFps = min ((classes args).count .float) 8
  nStacks : s.nStacks = systemV.stacked (classes args)
  words : ∀ (i : Nat) (a : Arg), args[i]? = some a → a.Fits (s.argv1 (slotOf (args.take i) a))
  written : ∀ k ∈ s.written, k < 8 + args.length

theorem Holds.put_eq (h : Holds s args) (a : Arg) :
    (s.put a).argv1 = Function.update s.argv1 (slotOf args a) (a.store (s.argv1 (slotOf args a))) ∧ (s.put a).written = slotOf args a :: s.written := by
  have hints := h.nInts
  have hfps := h.nFps
  unfold Marshal.put
  cases hc : a.argClass with
  | integer =>
    rw [slotOf_integer hc]
    by_cases hlt : (classes args).count .integer < 6
    · rw [if_pos hlt, ← Nat.min_eq_left (Nat.le_of_lt hlt), ← hints]
      simp only [show s.nInts < 6 by omega, if_true]
      exact ⟨rfl, rfl⟩
    · rw [if_neg hlt, ← h.nStacks]
      simp only [show ¬ s.nInts < 6 by omega, if_false]
      exact ⟨rfl, rfl⟩
  | float =>
    rw [slotOf_float hc]
    by_cases hlt : (classes args).count .float < 8
    · rw [if_pos hlt, ← Nat.min_eq_left (Nat.le_of_lt hlt), ← hfps]
      simp only [show s.nFps < 8 by omega, if_true]
      exact ⟨rfl, rfl⟩
    · rw [if_neg hlt, ← h.nStacks]
      simp only [show ¬ s.nFps < 8 by omega, if_false]
      exact ⟨rfl, rfl⟩

theorem Holds.counters (h : Holds s args) (a : Arg) :
    (s.put a).nInts = min ((classes (args ++ [a])).count .integer) 6 ∧ (s.put a).nFps = min ((classes (args ++ [a])).count .float) 8 ∧
      (s.put a).nStacks = systemV.stacked (classes (args ++ [a])) := by
  obtain ⟨hints, hfps, hstacks, -, -⟩ := h
  have hclasses : classes (args ++ [a]) = classes args ++ [a.argClass] := List.map_append
  have hcount (c : ArgClass) : (classes (args ++ [a])).count c = (classes args).count c + if a.argClass = c then 1 else 0 := by
    rw [hclasses, List.count_append, List.count_singleton, beq_eq_decide]
    simp only [decide_eq_true_eq]
  rw [hcount, hcount]
  unfold Marshal.put CallConv.stacked at *
  rw [hcount, hcount]
  cases hc : a.argClass <;> simp only [systemV, Marshal.write, reduceCtorEq, if_true, if_false] at * <;> split <;> simp only <;> omega

/-- An argument is put at its place, and the others stay where they are. -/
theorem Holds.put (h : Holds s args) (a : Arg) : Holds (s.put a) (args ++ [a]) := by
  obtain ⟨hargv, hwritten⟩ := h.put_eq a
  obtain ⟨hints, hfps, hstacks⟩ := h.counters a
  refine ⟨hints, hfps, hstacks, fun i b hb => ?_, fun k hk => ?_⟩
  · rw [hargv]
    rcases Nat.lt_or_ge i args.length with hi | hi
    · rw [List.getElem?_append_left hi] at hb
      rw [List.take_append_of_le_length (Nat.le_of_lt hi), Function.update_of_ne (slotOf_ne (prefix_of_getElem hb)).symm]
      exact h.words i b hb
    obtain ⟨hlt, -⟩ := List.getElem?_eq_some_iff.1 hb
    obtain rfl : i = args.length := by
      rw [List.length_append, List.length_singleton] at hlt
      omega
    rw [List.getElem?_concat_length] at hb
    cases hb
    rw [List.take_left, Function.update_self]
    exact Arg.fits_store _ _
  · rw [List.length_append, List.length_singleton]
    rw [hwritten] at hk
    rcases List.mem_cons.1 hk with rfl | hk
    · exact slotOf_lt args a
    · have := h.written k hk
      omega

theorem Holds.withSrc (h : Holds s args) (src : Nat) : Holds { s with argvSrc := src } args := ⟨h.nInts, h.nFps, h.nStacks, h.words, h.written⟩

theorem pushArgs_eq (argv1 : Nat → Nat) (n : Nat) (stack : List Nat) : pushArgs argv1 n stack = (List.range n).map (fun k => argv1 (14 + k)) ++ stack := by
  induction n generalizing stack with
  | zero => rfl
  | succ n ih => rw [pushArgs, ih, List.range_succ, List.map_append, List.append_assoc, List.map_singleton, List.singleton_append]

theorem at_place {k : Nat} (h : k < s.nStacks) : (invokeNative s.argv1 s.nStacks).stack[k]? = some (s.argv1 (14 + k)) := by
  show (pushArgs s.argv1 s.nStacks [])[k]? = _
  rw [pushArgs_eq, List.append_nil, List.getElem?_map, List.getElem?_range h]
  rfl

/-- What is in the array is passed at the places of the convention. -/
theorem Holds.at (h : Holds s args) {i : Nat} (ha : args[i]? = some a) :
    (invokeNative s.argv1 s.nStacks).at (systemV.place (classes (args.take i)) a.argClass) = some (s.argv1 (slotOf (args.take i) a)) := by
  have hprefix : classes (args.take i) ++ [a.argClass] <+: classes args := by
    have := (prefix_of_getElem ha).map Arg.argClass
    rwa [List.map_append] at this
  unfold slotOf CallConv.place
  split
  · cases a.argClass <;> rfl
  rename_i hfull
  have hmono := CallConv.stacked_mono systemV hprefix
  rw [CallConv.stacked_append_of_ge (Nat.not_lt.1 hfull), ← h.nStacks] at hmono
  exact at_place hmono

theorem Holds.passed (h : Holds s args) : Invocation.Passed args (invokeNative s.argv1 s.nStacks) :=
  fun i a ha => ⟨_, h.at ha, h.words i a ha⟩

end Array

/-! ## The loops -/

namespace Invocation
variable {inv : Invocation} {args : List Arg} {s s' : Marshal} {ts : List ValueType} {i src n : Nat} {ok : Bool}

/-- The argument that the source passes for a parameter. -/
def codeArg (inv : Invocation) (p : Param) : Option Arg := inv.param p.index p.type p.src

/-- The loop over the parameters puts their arguments up to the first one that does not pass its check. -/
theorem marshalParams_holds (hs : Holds s args) (hsrc : s.argvSrc = src) (h : inv.marshalParams i ts s = (s', ok)) :
    ∃ as, Holds s' (args ++ as) ∧ as.length ≤ ts.length ∧
      (ok = true → (paramsFrom i src ts).map inv.codeArg = as.map some ∧ s'.argvSrc = src + (ts.map cells).sum) ∧
      (ok = false → ∃ p ∈ paramsFrom i src ts, inv.codeArg p = none) := by
  induction ts generalizing i s src args with
  | nil =>
    obtain ⟨rfl, rfl⟩ := Prod.mk.inj h
    refine ⟨[], by rwa [List.append_nil], Nat.le_refl _, fun _ => ⟨rfl, hsrc⟩, nofun⟩
  | cons t ts ih =>
    unfold marshalParams at h
    rw [hsrc] at h
    split at h
    · rename_i a ha
      obtain ⟨as, hholds, hlen, htrue, hfalse⟩ := ih ((hs.put a).withSrc (src + cells t)) rfl h
      refine ⟨a :: as, by rwa [List.append_cons], Nat.succ_le_succ hlen, fun hok => ?_, fun hok => ?_⟩
      · obtain ⟨hmap, hsrc'⟩ := htrue hok
        refine ⟨?_, by rw [hsrc', List.map_cons, List.sum_cons, Nat.add_assoc]⟩
        rw [paramsFrom, List.map_cons, List.map_cons, hmap]
        exact congrArg (· :: _) ha
      · obtain ⟨p, hp, hnone⟩ := hfalse hok
        exact ⟨p, List.mem_cons_of_mem _ hp, hnone⟩
    · rename_i hnone
      obtain ⟨rfl, rfl⟩ := Prod.mk.inj h
      exact ⟨[], by rwa [List.append_nil], Nat.zero_le _, nofun, fun _ => ⟨_, List.mem_cons_self, hnone⟩⟩

theorem marshalResults_holds (inv : Invocation) (n : Nat) (hs : Holds s args) (hsrc : s.argvSrc = src) :
    Holds (inv.marshalResults n s) (args ++ (List.range n).map fun k => .int (inv.argv64 (src + 2 * k))) := by
  induction n generalizing s src args with
  | zero =>
    rw [List.range_zero, List.map_nil, List.append_nil]
    exact hs
  | succ n ih =>
    have hrest := ih ((hs.put (.int (inv.argv64 src))).withSrc (src + 2)) rfl
    rw [List.append_assoc, List.singleton_append] at hrest
    rw [List.range_succ_eq_map, List.map_cons, List.map_map, marshalResults, hsrc]
    have hshift : (fun k => Arg.int (inv.argv64 (src + 2 * k))) ∘ Nat.succ = fun k => Arg.int (inv.argv64 (src + 2 + 2 * k)) := by
      funext k
      rw [Function.comp_apply, Nat.mul_succ, Nat.add_comm (2 * k) 2, Nat.add_assoc]
    rwa [hshift]

/-- The addresses of further results. -/
def resultArgs (inv : Invocation) : List Arg := (List.range inv.extRetCount).map fun k => .int (inv.argv64 (inv.cellCount + 2 * k))

theorem holds_nil (argv1 : Nat → Nat) : Holds ⟨0, 0, 0, 0, argv1, []⟩ [] := ⟨rfl, rfl, rfl, fun _ _ h => absurd h (by simp), nofun⟩

theorem holds_start (inv : Invocation) : Holds inv.start [.int inv.execEnv] :=
  (holds_nil _).put _

theorem marshal_holds (h : inv.marshal = (s, ok)) : ∃ args, Holds s args ∧ 8 + args.length ≤ inv.argc1 ∧
      (ok = true → ∃ as, inv.params.map inv.codeArg = as.map some ∧ args = .int inv.execEnv :: as ++ inv.resultArgs) ∧
      (ok = false → ∃ p ∈ inv.params, inv.codeArg p = none) := by
  unfold marshal at h
  cases hparams : inv.marshalParams 0 inv.type.params inv.start with
  | mk s₁ ok₁ =>
    obtain ⟨as, hholds, hlen, htrue, hfalse⟩ := marshalParams_holds (holds_start inv) (rfl : inv.start.argvSrc = 0) hparams
    rw [hparams] at h
    cases ok₁ with
    | true =>
      obtain ⟨rfl, rfl⟩ := Prod.mk.inj h
      obtain ⟨hmap, hsrc⟩ := htrue rfl
      have hall := marshalResults_holds inv inv.extRetCount hholds (hsrc.trans (Nat.zero_add _))
      refine ⟨_, hall, ?_, fun _ => ⟨as, hmap, rfl⟩, nofun⟩
      rw [List.length_append, List.length_append, List.length_map, List.length_range, List.length_singleton, argc1]
      omega
    | false =>
      obtain ⟨rfl, rfl⟩ := Prod.mk.inj h
      refine ⟨_, hholds, ?_, nofun, fun _ => hfalse rfl⟩
      rw [List.length_append, List.length_singleton, argc1]
      omega

/-! ## Pointers -/

/-- The type of a parameter with a character of a signature. -/
def charType : Char → ValueType
  | 'I' => .i64
  | 'f' => .f32
  | 'F' => .f64
  | _ => .i32

theorem sigMap_spec (t : ValueType) : charType (sigMap t) = t ∧ sigMap t ≠ ')' := by
  cases t <;> decide

theorem checkParams_types {ts : List ValueType} {p rest : List Char} (h : checkParams ts p = some rest) :
    ∃ used, p = used ++ rest ∧ ts = used.map charType ∧ ∀ ch ∈ used, ch ≠ ')' := by
  fun_induction checkParams ts p with
  | case1 => exact ⟨[], Option.some.inj h, rfl, nofun⟩
  | case2 | case4 | case8 => cases h
  | case3 t ts p ih =>
    obtain ⟨used, rfl, rfl, hused⟩ := ih h
    obtain ⟨htype, hparen⟩ := sigMap_spec t
    exact ⟨sigMap t :: used, rfl, by rw [List.map_cons, htype], List.forall_mem_cons.2 ⟨hparen, hused⟩⟩
  | case5 t ht ts p _ ih =>
    obtain ⟨used, rfl, rfl, hused⟩ := ih h
    refine ⟨'*' :: '~' :: used, rfl, ?_, ?_⟩
    · rw [not_not.1 ht]
      rfl
    · exact List.forall_mem_cons.2 ⟨by decide, List.forall_mem_cons.2 ⟨by decide, hused⟩⟩
  | case6 t ht ts p _ _ ih =>
    obtain ⟨used, rfl, rfl, hused⟩ := ih h
    refine ⟨'*' :: used, rfl, ?_, List.forall_mem_cons.2 ⟨by decide, hused⟩⟩
    rw [not_not.1 ht]
    rfl
  | case7 t ts p ht _ _ ih =>
    obtain ⟨used, rfl, rfl, hused⟩ := ih h
    refine ⟨'$' :: used, rfl, ?_, List.forall_mem_cons.2 ⟨by decide, hused⟩⟩
    rw [not_not.1 ht]
    rfl

/-- A length that is announced in an accepted signature is a 32-bit integer. -/
theorem checkParams_length {ts : List ValueType} {p rest : List Char} (h : checkParams ts p = some (')' :: rest)) {k : Nat} (hk : k < ts.length)
    (hlen : p[k + 1]? = some '~') : ts[k + 1]? = some .i32 := by
  obtain ⟨used, rfl, rfl, -⟩ := checkParams_types h
  rw [List.length_map] at hk
  rcases Nat.lt_or_eq_of_le (Nat.succ_le_of_lt hk) with hlt | heq
  · rw [List.getElem?_append_left hlt] at hlen
    rw [List.getElem?_map, hlen]
    rfl
  · rw [← Nat.succ_eq_add_one, heq, List.getElem?_append_right (Nat.le_refl _), Nat.sub_self] at hlen
    cases hlen

theorem accepted_inv (inv : Invocation) : ∃ p rest, inv.signature = '(' :: p ∧ checkParams inv.type.params p = some (')' :: rest) := by
  have h := inv.accepted
  unfold checkSymbolSignature at h
  split at h
  · rename_i p hsig
    refine ⟨p, ?_⟩
    obtain ⟨-, h⟩ := Bool.and_eq_true_iff.1 h
    split at h
    · rename_i rest hrest
      exact ⟨rest, hsig, hrest⟩
    · cases h
  · cases h

/-- The characters of the parameters in a signature. -/
def sigParams (signature : List Char) : List Char := signature.tail.takeWhile (· ≠ ')')

theorem sigParams_append {used rest : List Char} (h : ∀ ch ∈ used, ch ≠ ')') : sigParams ('(' :: (used ++ ')' :: rest)) = used := by
  rw [sigParams, List.tail_cons, List.takeWhile_append_of_pos (by simpa using h), List.takeWhile_cons_of_neg (by simp), List.append_nil]

theorem params_eq_sigParams (inv : Invocation) : inv.type.params = (sigParams inv.signature).map charType := by
  obtain ⟨p, rest, hsig, hcheck⟩ := inv.accepted_inv
  obtain ⟨used, rfl, htypes, hused⟩ := checkParams_types hcheck
  rw [hsig, sigParams_append hused, htypes]

theorem paramsFrom_get (i src : Nat) (ts : List ValueType) (k : Nat) :
    (paramsFrom i src ts)[k]? = (ts[k]?).map fun t => ⟨i + k, t, src + ((ts.take k).map cells).sum⟩ := by
  induction ts generalizing i src k with
  | nil => rfl
  | cons t ts ih =>
    cases k with
    | zero => rfl
    | succ k =>
      rw [paramsFrom, List.getElem?_cons_succ, List.getElem?_cons_succ, ih, List.take_succ_cons, List.map_cons, List.sum_cons, Nat.add_assoc, Nat.add_comm 1 k,
        Nat.add_assoc]

theorem params_get (k : Nat) : inv.params[k]? = (inv.type.params[k]?).map fun t => ⟨k, t, ((inv.type.params.take k).map cells).sum⟩ := by
  rw [params, paramsFrom_get]
  simp only [Nat.zero_add]

theorem mem_params {p : Param} (h : p ∈ inv.params) :
    inv.params[p.index]? = some p ∧ inv.type.params[p.index]? = some p.type ∧ p.src = ((inv.type.params.take p.index).map cells).sum := by
  obtain ⟨k, hk⟩ := List.mem_iff_getElem?.1 h
  have hget := hk
  rw [params_get] at hget
  obtain ⟨t, ht, rfl⟩ := Option.map_eq_some_iff.1 hget
  exact ⟨hk, ht, rfl⟩

/-- The length that the source reads is the one that the next parameter gives. -/
theorem pointerLength_eq {p : Param} (h : p ∈ inv.params) (hptr : inv.IsPointer p) :
    inv.pointerLength p = if inv.sigAt (p.index + 2) = some '~' then (inv.argv (p.src + 1)).toNat else 1 := by
  obtain ⟨sig, rest, hsig, hcheck⟩ := inv.accepted_inv
  obtain ⟨-, htype, hsrc⟩ := mem_params h
  unfold pointerLength
  split
  · rename_i htilde
    obtain ⟨hi32, hstar⟩ := hptr
    rw [sigAt, hsig, List.getElem?_cons_succ] at htilde
    have hnext := checkParams_length hcheck (List.getElem?_eq_some_iff.1 htype).1 htilde
    have hcells : ((inv.type.params.take (p.index + 1)).map cells).sum = p.src + 1 := by
      rw [List.take_add_one, htype, hi32, Option.toList_some, List.map_append, List.sum_append, ← hsrc]
      rfl
    rw [params_get, hnext, Option.map_some, hcells, Option.elim_some]
    rfl
  · rfl

/-- The check of a pointer or a string, as the source makes it. -/
def Checks (inv : Invocation) (p : Param) : Prop :=
  (inv.IsPointer p → ∃ m ∈ inv.memory, inv.value p + inv.pointerLength p ≤ m.memoryDataSize) ∧
    (inv.IsString p → ∃ m ∈ inv.memory, ∃ k, inv.value p + k < m.memoryDataSize ∧ m.bytes (m.data + inv.value p + k) = 0)

/-- A pointer to no bytes at the end of the memory. -/
def EmptyEnd (inv : Invocation) (p : Param) : Prop :=
  inv.IsPointer p ∧ inv.pointerLength p = 0 ∧ ∃ m ∈ inv.memory, inv.value p = m.size ∧ 0 < m.data + m.size

section Pointers
variable {m : LinearMemory} {p : Param} {off len : Nat}

theorem memoryDataSize_le (m : LinearMemory) : m.memoryDataSize ≤ m.size := Nat.mod_le _ _

theorem validateAppAddr_iff {memory : Option LinearMemory} : validateAppAddr memory off len = true ↔ ∃ m ∈ memory, off + len ≤ m.memoryDataSize := by
  cases memory with
  | none => exact iff_of_false nofun nofun
  | some m =>
    have hlt : m.memoryDataSize < 2 ^ 32 := Nat.mod_lt _ (by decide)
    simp only [validateAppAddr, Option.any_some, Bool.and_eq_true, decide_eq_true_eq, Option.mem_def, Option.some.injEq, exists_eq_left']
    constructor
    · exact And.right
    · intro h
      exact ⟨by omega, h⟩

theorem addrAppToNative_eq (h : off ≤ m.size) : addrAppToNative (some m) off = if off < m.size then m.data + off else 0 := by
  have hlt : m.data + m.size < 2 ^ 64 := m.end_lt
  have hmod : (m.data + off) % 2 ^ 64 = m.data + off := Nat.mod_eq_of_lt (by omega)
  unfold addrAppToNative
  simp only [Option.elim_some, hmod]
  by_cases hin : off < m.size
  · rw [if_pos ⟨Nat.le_add_right _ _, Nat.add_lt_add_left hin _⟩, if_pos hin]
  · rw [if_neg fun h => hin (Nat.lt_of_add_lt_add_left h.2), if_neg hin]

theorem validateAppStrAddr_iff {memory : Option LinearMemory} :
    validateAppStrAddr memory off = true ↔ ∃ m ∈ memory, ∃ k, off + k < m.memoryDataSize ∧ m.bytes (m.data + off + k) = 0 := by
  cases memory with
  | none => exact iff_of_false nofun nofun
  | some m =>
    have hle := memoryDataSize_le m
    simp only [validateAppStrAddr, Option.any_some, Bool.and_eq_true, decide_eq_true_eq, Option.mem_def, Option.some.injEq, exists_eq_left', List.any_eq_true,
      List.mem_range]
    constructor
    · rintro ⟨hoff, k, hk, hzero⟩
      rw [addrAppToNative_eq (by omega), if_pos (by omega)] at hzero
      exact ⟨k, by omega, hzero⟩
    · rintro ⟨k, hk, hzero⟩
      refine ⟨by omega, k, by omega, ?_⟩
      rwa [addrAppToNative_eq (by omega), if_pos (by omega)]

theorem codeArg_pointer (hp : p ∈ inv.params) (h : inv.IsPointer p) : inv.codeArg p =
      if validateAppAddr inv.memory (inv.value p) (inv.pointerLength p) then some (.int (addrAppToNative inv.memory (inv.value p))) else none := by
  rw [pointerLength_eq hp h]
  obtain ⟨htype, hstar⟩ := h
  have hvalue : inv.value p = (inv.argv p.src).toNat := by rw [value, htype]; rfl
  unfold codeArg param
  rw [htype, hvalue]
  simp only [intParam, if_pos hstar]
  exact apply_ite (Option.map Arg.int) _ _ _

theorem codeArg_string (h : inv.IsString p) :
    inv.codeArg p = if validateAppStrAddr inv.memory (inv.value p) then some (.int (addrAppToNative inv.memory (inv.value p))) else none := by
  obtain ⟨htype, hdollar⟩ := h
  have hvalue : inv.value p = (inv.argv p.src).toNat := by rw [value, htype]; rfl
  have hstar : inv.sigAt (p.index + 1) ≠ some '*' := by rw [hdollar]; decide
  unfold codeArg param
  rw [htype, hvalue]
  simp only [intParam, if_neg hstar, if_pos hdollar]
  exact apply_ite (Option.map Arg.int) _ _ _

theorem codeArg_plain (hptr : ¬ inv.IsPointer p) (hstr : ¬ inv.IsString p) : inv.codeArg p = some (inv.arg p) := by
  unfold codeArg param arg
  rw [if_neg (not_or.2 ⟨hptr, hstr⟩)]
  cases htype : p.type with
  | i32 =>
    have hvalue : inv.value p = (inv.argv p.src).toNat := by rw [value, htype]; rfl
    simp only [intParam, if_neg fun h => hptr ⟨htype, h⟩, if_neg fun h => hstr ⟨htype, h⟩, Option.map_some, hvalue]
  | i64 | f64 =>
    have hvalue : inv.value p = inv.argv64 p.src := by rw [value, htype]; rfl
    simp only [hvalue]
  | f32 => rfl

theorem not_string_of_pointer (h : inv.IsPointer p) : ¬ inv.IsString p := fun h' => by
  have := h.2.symm.trans h'.2
  cases this

/-- A parameter that passes its check, and only such a one, is passed: as it is to be, or as a null pointer. -/
theorem codeArg_some_iff (hp : p ∈ inv.params) : (∃ a, inv.codeArg p = some a) ↔ inv.Checks p := by
  by_cases hptr : inv.IsPointer p
  · have hstr := not_string_of_pointer hptr
    rw [codeArg_pointer hp hptr, Checks, imp_iff_right hptr, and_iff_left fun h => absurd h hstr, ← validateAppAddr_iff]
    split
    · rename_i hok
      exact iff_of_true ⟨_, rfl⟩ hok
    · rename_i hbad
      exact iff_of_false nofun hbad
  by_cases hstr : inv.IsString p
  · rw [codeArg_string hstr, Checks, imp_iff_right hstr, and_iff_right fun h => absurd h hptr, ← validateAppStrAddr_iff]
    split
    · rename_i hok
      exact iff_of_true ⟨_, rfl⟩ hok
    · rename_i hbad
      exact iff_of_false nofun hbad
  · rw [codeArg_plain hptr hstr]
    exact iff_of_true ⟨_, rfl⟩ ⟨fun h => absurd h hptr, fun h => absurd h hstr⟩

theorem Checks.inMemory (h : inv.Checks p) : inv.InMemory p := by
  refine ⟨fun hptr => ?_, fun hstr => ?_⟩
  · obtain ⟨m, hm, hle⟩ := h.1 hptr
    exact ⟨m, hm, Nat.le_trans hle (memoryDataSize_le m)⟩
  · obtain ⟨m, hm, k, hk, hzero⟩ := h.2 hstr
    exact ⟨m, hm, k, Nat.lt_of_lt_of_le hk (memoryDataSize_le m), hzero⟩

theorem codeArg_address (hp : p ∈ inv.params) (h : inv.Checks p) (hm : inv.memory = some m) (haddr : inv.IsPointer p ∨ inv.IsString p) :
    inv.codeArg p = some (.int (if inv.value p < m.size then m.data + inv.value p else 0)) := by
  have hle := memoryDataSize_le m
  rcases haddr with hptr | hstr
  · obtain ⟨m', hm', hin⟩ := h.1 hptr
    have hok := validateAppAddr_iff.2 ⟨m', hm', hin⟩
    rw [hm] at hm'
    cases hm'
    rw [codeArg_pointer hp hptr, if_pos hok, hm, addrAppToNative_eq (by omega)]
  obtain ⟨m', hm', k, hin, hzero⟩ := h.2 hstr
  have hok := validateAppStrAddr_iff.2 ⟨m', hm', k, hin, hzero⟩
  rw [hm] at hm'
  cases hm'
  rw [codeArg_string hstr, if_pos hok, hm, addrAppToNative_eq (by omega)]

theorem arg_address (hm : inv.memory = some m) (haddr : inv.IsPointer p ∨ inv.IsString p) : inv.arg p = .int (m.data + inv.value p) := by
  unfold arg
  rw [if_pos haddr, hm]
  rfl

/-- Only a pointer to no bytes at the end of the memory is not passed as it is to be. -/
theorem codeArg_eq_iff (hp : p ∈ inv.params) (h : inv.Checks p) : inv.codeArg p = some (inv.arg p) ↔ ¬ inv.EmptyEnd p := by
  by_cases haddr : inv.IsPointer p ∨ inv.IsString p
  · obtain ⟨m, hm⟩ : ∃ m, inv.memory = some m := by
      rcases haddr with hptr | hstr
      · obtain ⟨m, hm, -⟩ := h.1 hptr
        exact ⟨m, hm⟩
      · obtain ⟨m, hm, -⟩ := h.2 hstr
        exact ⟨m, hm⟩
    have hle := memoryDataSize_le m
    rw [codeArg_address hp h hm haddr, arg_address hm haddr]
    by_cases hlt : inv.value p < m.size
    · rw [if_pos hlt]
      refine iff_of_true rfl ?_
      rintro ⟨-, -, m', hm', heq, -⟩
      rw [hm] at hm'
      cases hm'
      omega
    rw [if_neg hlt, Option.some.injEq, Arg.int.injEq]
    -- only a pointer of length zero passes its check here
    rcases haddr with hptr | hstr
    · obtain ⟨m', hm', hin⟩ := h.1 hptr
      rw [hm] at hm'
      cases hm'
      constructor
      · rintro heq ⟨-, -, m', hm', hend, hpos⟩
        rw [hm] at hm'
        cases hm'
        omega
      · intro hnot
        by_contra hne
        exact hnot ⟨hptr, by omega, m, hm, by omega, by omega⟩
    obtain ⟨m', hm', k, hin, -⟩ := h.2 hstr
    rw [hm] at hm'
    cases hm'
    omega
  · obtain ⟨hptr, hstr⟩ := not_or.1 haddr
    exact iff_of_true (codeArg_plain hptr hstr) fun h => hptr h.1

end Pointers

/-! ## The call -/

section Call
variable {native : Registers → Returned} {regs : Registers}

/-- The arguments that are passed have the classes of those that are to be passed. -/
theorem codeArg_class {p : Param} {a : Arg} (hp : p ∈ inv.params) (h : inv.codeArg p = some a) : a.argClass = (inv.arg p).argClass := by
  have hcheck := (codeArg_some_iff hp).1 ⟨a, h⟩
  by_cases haddr : inv.IsPointer p ∨ inv.IsString p
  · obtain ⟨m, hm⟩ : ∃ m, inv.memory = some m := by
      rcases haddr with hptr | hstr
      · exact (hcheck.1 hptr).imp fun _ h => h.1
      · exact (hcheck.2 hstr).imp fun _ h => h.1
    rw [codeArg_address hp hcheck hm haddr] at h
    rw [arg_address hm haddr, ← Option.some.inj h]
    rfl
  · obtain ⟨hptr, hstr⟩ := not_or.1 haddr
    rw [codeArg_plain hptr hstr] at h
    rw [Option.some.inj h]

/-- The native function is called if there is memory for the array and all checks pass. -/
theorem call_cases (inv : Invocation) (native : Registers → Returned) : (∀ k ∈ (runtimeInvokeNative inv native).written, k < inv.argc1) ∧
      ((runtimeInvokeNative inv native).call = none ∧ ¬ (inv.allocated = true ∧ ∀ p ∈ inv.params, inv.Checks p) ∨
        inv.allocated = true ∧ (∀ p ∈ inv.params, inv.Checks p) ∧
          ∃ regs as, (runtimeInvokeNative inv native).call = some regs ∧ inv.params.map inv.codeArg = as.map some ∧
            Passed (.int inv.execEnv :: as ++ inv.resultArgs) regs) := by
  unfold runtimeInvokeNative
  by_cases halloc : inv.allocated = true
  · rw [if_pos halloc]
    cases hmarshal : inv.marshal with
    | mk s ok =>
      obtain ⟨args, hholds, hlen, htrue, hfalse⟩ := marshal_holds hmarshal
      have hwritten : ∀ k ∈ s.written, k < inv.argc1 := fun k hk => Nat.lt_of_lt_of_le (hholds.written k hk) hlen
      cases ok with
      | true =>
        obtain ⟨as, hmap, rfl⟩ := htrue rfl
        refine ⟨hwritten, .inr ⟨halloc, fun p hp => (codeArg_some_iff hp).1 ?_, _, as, rfl, hmap, hholds.passed⟩⟩
        have hmem : inv.codeArg p ∈ as.map some := hmap ▸ List.mem_map_of_mem hp
        obtain ⟨a, -, ha⟩ := List.mem_map.1 hmem
        exact ⟨a, ha.symm⟩
      | false =>
        obtain ⟨p, hp, hnone⟩ := hfalse rfl
        refine ⟨hwritten, .inl ⟨rfl, fun h => ?_⟩⟩
        obtain ⟨a, ha⟩ := (codeArg_some_iff hp).2 (h.2 p hp)
        rw [hnone] at ha
        cases ha
  · rw [if_neg halloc]
    exact ⟨nofun, .inl ⟨rfl, fun h => halloc h.1⟩⟩

theorem args_eq (inv : Invocation) : inv.args = .int inv.execEnv :: inv.params.map inv.arg ++ inv.resultArgs := rfl

/-- The argument of the source for a parameter is at the place of the one that is to be passed. -/
theorem passed_at {as : List Arg} {p : Param} {a : Arg} (hmap : inv.params.map inv.codeArg = as.map some) (hp : p ∈ inv.params) (ha : inv.codeArg p = some a)
    (hpassed : Passed (.int inv.execEnv :: as ++ inv.resultArgs) regs) :
    ∃ w, regs.at (systemV.place ((inv.args.take (p.index + 1)).map Arg.argClass) (inv.arg p).argClass) = some w ∧ a.Fits w := by
  have hclasses : as.map Arg.argClass = (inv.params.map inv.arg).map Arg.argClass := by
    refine (List.map_inj_right fun _ _ => Option.some.inj).1 ?_
    have hmapped := congrArg (List.map (Option.map Arg.argClass)) hmap.symm
    simp only [List.map_map] at hmapped ⊢
    refine hmapped.trans (List.map_congr_left fun q hq => ?_)
    obtain ⟨b, hb⟩ : ∃ b, inv.codeArg q = some b := by
      have hmem : inv.codeArg q ∈ as.map some := hmap ▸ List.mem_map_of_mem hq
      obtain ⟨b, -, hb⟩ := List.mem_map.1 hmem
      exact ⟨b, hb.symm⟩
    simp only [Function.comp_apply, hb, Option.map_some, codeArg_class hq hb]
  have has : as[p.index]? = some a := by
    have hsome := congrArg (·[p.index]?) hmap
    simp only [List.getElem?_map, (mem_params hp).1, Option.map_some, ha] at hsome
    obtain ⟨b, hb, hab⟩ := Option.map_eq_some_iff.1 hsome.symm
    rw [hb, Option.some.inj hab]
  have hall : (.int inv.execEnv :: as ++ inv.resultArgs).map Arg.argClass = inv.args.map Arg.argClass := by
    rw [args_eq, List.map_append, List.map_append, List.map_cons, List.map_cons, hclasses]
  have hat := hpassed (p.index + 1) a (by
    rw [List.cons_append, List.getElem?_cons_succ, List.getElem?_append_left (List.getElem?_eq_some_iff.1 has).1, has])
  rwa [List.map_take, hall, ← List.map_take, codeArg_class hp ha] at hat

/-- What is passed for a pointer is what is to be passed, if that is passed too. -/
theorem passed_unique {as : List Arg} {p : Param} {a : Arg} (hmap : inv.params.map inv.codeArg = as.map some) (hp : p ∈ inv.params) (ha : inv.codeArg p = some a)
    (hpassed : Passed (.int inv.execEnv :: as ++ inv.resultArgs) regs) (hargs : Passed inv.args regs) (hptr : inv.IsPointer p) : a = inv.arg p := by
  obtain ⟨w, hw, hfits⟩ := passed_at hmap hp ha hpassed
  have hargs := hargs (p.index + 1) (inv.arg p) (by
    have hmapped : (inv.params.map inv.arg)[p.index]? = some (inv.arg p) := by rw [List.getElem?_map, (mem_params hp).1, Option.map_some]
    rw [args_eq, List.cons_append, List.getElem?_cons_succ, List.getElem?_append_left (List.getElem?_eq_some_iff.1 hmapped).1, hmapped])
  obtain ⟨w', hw', hfits'⟩ := hargs
  rw [hw] at hw'
  cases hw'
  obtain ⟨m, hm, -⟩ := ((codeArg_some_iff hp).1 ⟨a, ha⟩).1 hptr
  rw [codeArg_address hp ((codeArg_some_iff hp).1 ⟨a, ha⟩) hm (.inl hptr)] at ha
  rw [arg_address hm (.inl hptr)] at hfits' ⊢
  rw [← Option.some.inj ha] at hfits ⊢
  exact congrArg Arg.int (hfits.symm.trans hfits')

end Call

/-- A call of a function with a pointer and a length, for the end of a memory of a page. -/
def endOfMemory : Invocation where
  type := ⟨[.i32, .i32], []⟩
  signature := ['(', '*', '~', ')']
  accepted := by decide
  params_le := by decide
  results_le := by decide
  execEnv := 0x1000
  argv i := if i = 0 then 65536 else 0
  memory := some ⟨0x10000, 65536, 1, fun _ => 0, onePage_lt⟩
  malloc := true
  init _ := 0

end Invocation

end WamrMigrate.Native
