import WamrMigrate.Native.Marshal
import WamrMigrate.Wasi.Wrapper

/-!
# Calls of WASI stay in the memory of the guest

What a wrapper or the signature checks is inside the memory. What a wrapper touches and hands to the host is among this for all functions but
`poll_oneoff`, whose arrays are checked for one element only. A wrapper that fails a check has not called the host, except `args_get` and
`environ_get`, which ask the host for the sizes first.
-/

namespace WamrMigrate.Wasi

open Native Native.Invocation Traced

/-! ## Ranges -/

section Range
variable {memory : Option LinearMemory} {r : Range} {m : LinearMemory}
variable {len : Nat}

theorem Range.inside_of_le (hm : memory = some m) (hl : m.data ≤ r.addr) (hr : r.addr + r.len ≤ m.data + m.size) : r.Inside memory :=
  fun _ ha hb => ⟨m, hm, Nat.le_trans hl ha, Nat.lt_of_lt_of_le hb hr⟩

theorem Range.inside_empty (h : r.len = 0) : r.Inside memory := fun a ha hb => by omega

theorem Range.Inside.mono {r' : Range} (h : r.Inside memory) (hl : r.addr ≤ r'.addr) (hr : r'.addr + r'.len ≤ r.addr + r.len) : r'.Inside memory :=
  fun a ha hb => h a (Nat.le_trans hl ha) (Nat.lt_of_lt_of_le hb hr)

theorem inside_of_validate {addr : Nat} (h : validateNativeAddr memory addr len = true) : Range.Inside memory ⟨addr, len⟩ := by
  cases memory with
  | none => cases h
  | some m =>
    simp only [validateNativeAddr, Option.any_some, Bool.and_eq_true, decide_eq_true_eq] at h
    exact Range.inside_of_le rfl h.1.2 h.2

theorem validate_of_inside {addr : Nat} (h : Range.Inside memory ⟨addr, len⟩) (hlen : 0 < len) : validateNativeAddr memory addr len = true := by
  obtain ⟨m, hm, hl, -⟩ := h addr (Nat.le_refl _) (Nat.lt_add_of_pos_right hlen)
  obtain ⟨m', hm', -, hr⟩ := h (addr + len - 1) (by show addr ≤ _; omega) (by show _ < addr + len; omega)
  rw [Option.mem_def] at hm hm'
  rw [hm] at hm'
  cases hm'
  have hend : m.data + m.size < 2 ^ 64 := m.end_lt
  rw [hm, validateNativeAddr, Option.any_some]
  simp only [Bool.and_eq_true, decide_eq_true_eq]
  omega

/-- A buffer that passes its check is inside, at its offset and at the address that the wrapper makes of it. -/
theorem inside_of_validateAppAddr {off : Nat} (h : validateAppAddr memory off len = true) :
    Range.Inside memory ⟨address memory off, len⟩ ∧ Range.Inside memory ⟨addrAppToNative memory off, len⟩ := by
  obtain ⟨m, hm, hle⟩ := validateAppAddr_iff.1 h
  cases hm
  have hin := Nat.le_trans hle (memoryDataSize_le m)
  have haddr : Range.Inside (some m) ⟨address (some m) off, len⟩ := Range.inside_of_le rfl (Nat.le_add_right _ _) (by
    show m.data + off + len ≤ m.data + m.size
    omega)
  refine ⟨haddr, ?_⟩
  rw [addrAppToNative_eq (by omega)]
  split
  · exact haddr
  · exact Range.inside_empty (by show len = 0; omega)

end Range

/-! ## Triples for what a wrapper does -/

section Triples
variable {env : Env} {P : Event → Prop} {call : SspCall}

theorem keeps_wasiCtx : Keeps P (wasiCtx env) (fun ctx => env.context = some ctx) (· ≠ 0) := by
  unfold wasiCtx
  cases env.context with
  | none => exact keeps_fail (by decide)
  | some ctx => exact keeps_pure rfl

theorem keeps_need {b : Bool} : Keeps P (need b) (fun _ => b = true) (· ≠ 0) := by
  unfold need
  split
  · exact keeps_pure ‹_›
  · exact keeps_fail (by decide)

theorem keeps_outOfBounds {α : Type} {Q : α → Prop} (hP : ∀ s, P (.exception s)) : Keeps P (outOfBounds : Wasi α) Q (· ≠ 0) :=
  (keeps_emit (hP _)).bind fun _ _ => keeps_fail (by decide)

theorem keeps_validate (hP : ∀ s, P (.exception s)) (r : Range) : Keeps P (validate env r) (fun _ => r.Inside env.memory) (· ≠ 0) := by
  unfold validate
  split
  · exact keeps_pure (inside_of_validate ‹_›)
  · exact keeps_outOfBounds hP

theorem keeps_checks (hP : ∀ s, P (.exception s)) (checks : List Range) :
    Keeps P (each (validate env) checks) (fun _ => ∀ r ∈ checks, r.Inside env.memory) (· ≠ 0) :=
  keeps_each fun r _ => keeps_validate hP r

theorem keeps_ssp (h : P (.ssp call)) : Keeps P (ssp env call) (fun _ => True) (· ≠ 0) := (keeps_emit h).bind fun _ _ => keeps_pure trivial

theorem keeps_sspOk (h : P (.ssp call)) : Keeps P (sspOk env call) (fun _ => True) (· ≠ 0) := by
  refine (keeps_ssp h).bind fun answer _ => ?_
  split
  · exact keeps_pure trivial
  · exact keeps_fail ‹_›

theorem keeps_write {r : Range} {v : Nat} (h : r.Inside env.memory) : Keeps (Event.Inside env.memory) (emit (.write r v) : Wasi Unit) (fun _ => True) (· ≠ 0) :=
  keeps_emit h

theorem buffers_succ (memory : Option LinearMemory) (addr n : Nat) :
    buffers memory addr (n + 1) = ⟨address memory (load32 memory addr), load32 memory (addr + 4)⟩ :: buffers memory (addr + 8) n := by
  have hshift (i : Nat) : addr + 8 * (i + 1) = addr + 8 + 8 * i := by omega
  simp only [buffers, List.range_succ_eq_map, List.map_cons, List.map_map, Nat.mul_zero, Nat.add_zero, Function.comp_def, Nat.succ_eq_add_one, hshift]

theorem keeps_loadIovecs (hP : ∀ s, P (.exception s)) {n p : Nat} (hread : ∀ i < n, P (.read ⟨p + 8 * i, 8⟩)) :
    Keeps P (loadIovecs env n p) (fun rs => (∀ r ∈ rs, r.Inside env.memory) ∧ ∀ r ∈ buffers env.memory p n, r.Inside env.memory) (· ≠ 0) := by
  induction n generalizing p with
  | zero => exact keeps_pure ⟨nofun, nofun⟩
  | succ n ih =>
    refine (keeps_emit (hread 0 (Nat.succ_pos n))).bind fun _ _ => ?_
    simp only
    split
    · rename_i hvalid
      obtain ⟨hbuf, haddr⟩ := inside_of_validateAppAddr hvalid
      refine (ih fun i hi => ?_).bind fun rs hrs => keeps_pure ⟨List.forall_mem_cons.2 ⟨haddr, hrs.1⟩, ?_⟩
      · have hshift : p + 8 + 8 * i = p + 8 * (i + 1) := by omega
        rw [hshift]
        exact hread (i + 1) (Nat.succ_lt_succ hi)
      · rw [buffers_succ]
        exact List.forall_mem_cons.2 ⟨hbuf, hrs.2⟩
    · exact keeps_outOfBounds hP

end Triples

/-! ## Families of wrappers -/

/-- All that is done is inside the memory. -/
def Stays (env : Env) (x : Wasi UInt16) : Prop := Keeps (Event.Inside env.memory) x (fun _ => True) (· ≠ 0)

/-- An error is returned and the host is not called. -/
def Refuses (x : Wasi UInt16) : Prop := Keeps (fun e => ¬ e.IsSsp) x (fun _ => False) (· ≠ 0)

section Families
variable {env : Env} {checks : List Range} {call : SspCall}
variable {results : Context → Answer → List (Range × Nat)}

section
variable (h : (∀ r ∈ checks, r.Inside env.memory) → ∀ r ∈ call.ranges, r.Inside env.memory)
include h

theorem stays_handOver : Stays env (handOver env checks call) :=
  (keeps_checks (fun _ => trivial) checks).bind fun _ hchecks => (keeps_ssp (h hchecks)).bind fun _ _ => keeps_pure trivial

theorem stays_handOverCtx : Stays env (handOverCtx env checks call) :=
  keeps_wasiCtx.bind fun _ _ => stays_handOver h

theorem stays_report (hresults : ∀ ctx answer, ∀ w ∈ results ctx answer, ∃ r ∈ checks, r.addr ≤ w.1.addr ∧ w.1.addr + w.1.len ≤ r.addr + r.len) :
    Stays env (report env checks call results) := by
  refine keeps_wasiCtx.bind fun ctx _ => (keeps_checks (fun _ => trivial) checks).bind fun _ hchecks => ?_
  refine (keeps_sspOk (h hchecks)).bind fun answer _ => (keeps_each fun w hw => keeps_write ?_).bind fun _ _ => ?_
  · obtain ⟨r, hr, hl, hle⟩ := hresults ctx answer w hw
    exact (hchecks r hr).mono hl hle
  · exact keeps_pure trivial

end

theorem keeps_report_none {P : Event → Prop} {Q : UInt16 → Prop} (h : env.context = none) : Keeps P (report env checks call results) Q (· ≠ 0) :=
  keeps_wasiCtx.bind fun _ hctx => absurd (h.symm.trans hctx) nofun

section
variable (h : ∃ r ∈ checks, ¬ r.Inside env.memory)
include h

theorem not_all_of_exists : ¬ ∀ r ∈ checks, r.Inside env.memory :=
  fun hall => h.elim fun r hr => hr.2 (hall r hr.1)

theorem refuses_handOver : Refuses (handOver env checks call) :=
  (keeps_checks (fun _ => id) checks).bind fun _ hchecks => absurd hchecks (not_all_of_exists h)

theorem refuses_handOverCtx : Refuses (handOverCtx env checks call) :=
  keeps_wasiCtx.bind fun _ _ => refuses_handOver h

theorem refuses_report : Refuses (report env checks call results) :=
  keeps_wasiCtx.bind fun _ _ => (keeps_checks (fun _ => id) checks).bind fun _ hchecks => absurd hchecks (not_all_of_exists h)

end

section Vectored
variable {f : Function} {before behind : List SspArg} {iovecApp iovsLen resultApp : Nat}

theorem stays_vectored (hbefore : ∀ r ∈ before.flatMap SspArg.ranges, r.Inside env.memory)
    (hbehind : (∀ r ∈ checks, r.Inside env.memory) → ∀ r ∈ behind.flatMap SspArg.ranges, r.Inside env.memory) (hresult : ⟨resultApp, 4⟩ ∈ checks) :
    Stays env (vectored env checks f before iovecApp iovsLen behind resultApp) := by
  refine keeps_wasiCtx.bind fun _ _ => (keeps_checks (fun _ => trivial) checks).bind fun _ hchecks => keeps_need.bind fun _ _ => ?_
  refine (keeps_validate (fun _ => trivial) _).bind fun _ harray => keeps_need.bind fun _ _ => ?_
  have hread (i : Nat) (hi : i < iovsLen) : Event.Inside env.memory (.read ⟨iovecApp + 8 * i, 8⟩) :=
    harray.mono (Nat.le_add_right _ _) (by show iovecApp + 8 * i + 8 ≤ iovecApp + 8 * iovsLen; omega)
  refine (keeps_loadIovecs (fun _ => trivial) hread).bind fun iovec hiovec => (keeps_sspOk ?_).bind fun _ _ => ?_
  · intro r hr
    simp only [SspCall.ranges, List.flatMap_append, List.mem_append, List.flatMap_cons, List.flatMap_nil, List.append_nil, SspArg.ranges] at hr
    rcases hr with (hr | hr) | hr
    · exact hbefore r hr
    · exact hiovec.1 r hr
    · exact hbehind hchecks r hr
  · refine (keeps_write (hchecks _ hresult)).bind fun _ _ => ?_
    exact keeps_pure trivial

theorem refuses_vectored
    (h : (∃ r ∈ checks, ¬ r.Inside env.memory) ∨ ∃ r ∈ ⟨iovecApp, 8 * iovsLen⟩ :: buffers env.memory iovecApp iovsLen, ¬ r.Inside env.memory) :
    Refuses (vectored env checks f before iovecApp iovsLen behind resultApp) := by
  refine keeps_wasiCtx.bind fun _ _ => (keeps_checks (fun _ => id) checks).bind fun _ hchecks => keeps_need.bind fun _ _ => ?_
  refine (keeps_validate (fun _ => id) _).bind fun _ harray => keeps_need.bind fun _ _ => ?_
  refine (keeps_loadIovecs (fun _ => id) fun _ _ => id).bind fun iovec hiovec => ?_
  rcases h with h | ⟨r, hr, hout⟩
  · exact absurd hchecks (not_all_of_exists h)
  · rcases List.mem_cons.1 hr with rfl | hr
    · exact absurd harray hout
    · exact absurd (hiovec.2 r hr) hout

end Vectored

theorem stays_stringsGet {sizesGet get : Function} {sel : Context → Strings} {offsets buf : Nat} : Stays env (stringsGet env sizesGet get sel offsets buf) := by
  refine keeps_wasiCtx.bind fun ctx _ => (keeps_sspOk nofun).bind fun _ _ => ?_
  have hcount := (sel ctx).count_lt
  have hsize : 4 * ((sel ctx).count + 1) % 2 ^ 64 = 4 * ((sel ctx).count + 1) := Nat.mod_eq_of_lt (by omega)
  simp only [hsize]
  refine keeps_need.bind fun _ _ => (keeps_validate (fun _ => trivial) _).bind fun _ hoffsets => ?_
  refine keeps_need.bind fun _ _ => (keeps_validate (fun _ => trivial) _).bind fun _ hbuf => keeps_need.bind fun _ _ => ?_
  have hwrite (i : Nat) (hi : i ≤ (sel ctx).count) : Range.Inside env.memory ⟨offsets + 4 * i, 4⟩ :=
    hoffsets.mono (Nat.le_add_right _ _) (by show offsets + 4 * i + 4 ≤ offsets + 4 * ((sel ctx).count + 1); omega)
  refine (keeps_sspOk ?_).bind fun answer _ => (keeps_each fun i hi => keeps_write ?_).bind fun _ _ => ?_
  · intro r hr
    rw [List.mem_singleton.1 hr]
    exact hbuf
  · exact hwrite i (Nat.le_of_lt (List.mem_range.1 hi))
  · refine (keeps_write (hwrite _ (Nat.le_refl _))).bind fun _ _ => ?_
    exact keeps_pure trivial

end Families

/-! ## The wrappers -/

/-- The arrays of `poll_oneoff` are inside if the elements that are checked are. -/
def PollFits (memory : Option LinearMemory) (addr num : Nat → Nat) : Prop :=
  Range.Inside memory ⟨addr 0, 56⟩ → Range.Inside memory ⟨addr 1, 32⟩ → Range.Inside memory ⟨addr 3, 4⟩ →
    Range.Inside memory ⟨addr 0, 56 * num 2⟩ ∧ Range.Inside memory ⟨addr 1, 32 * num 2⟩

/-- The low half of a register. -/
def low32 (a : Nat → Nat) (k : Nat) : Nat := a k % 2 ^ 32

section Wrappers
variable {env : Env} {a : Nat → Nat} {f : Function}

/-- What a wrapper does is inside the memory, if the bytes with a length in the next parameter are and the arrays of `poll_oneoff` are. -/
theorem wrapper_stays (hsized : ∀ k, Need.sized k ∈ f.needs → Range.Inside env.memory ⟨a k, low32 a (k + 1)⟩)
    (hpoll : f = .pollOneoff → env.context.isSome = true → PollFits env.memory a (low32 a)) : Stays env (f.wrapper env a) := by
  cases f
  case argsGet | environGet => exact stays_stringsGet
  case fdPread | fdPwrite | fdRead | fdWrite | sockSend | sockRecv =>
    exact stays_vectored (by simp [SspArg.ranges]) (by simp [SspArg.ranges]) (by simp)
  case procExit | procRaise => exact (keeps_emit trivial).bind fun _ _ => keeps_pure trivial
  case argsSizesGet | environSizesGet | fdPrestatGet | fdFdstatGet => exact stays_report (by simp [SspCall.ranges, SspArg.ranges]) (by simp)
  case fdReaddir | pathReadlink =>
    simp [Function.needs, low32] at hsized
    exact stays_report (by simp [SspCall.ranges, SspArg.ranges, hsized]) (by simp)
  case pollOneoff =>
    cases hctx : env.context with
    | none => exact keeps_report_none hctx
    | some ctx =>
      refine stays_report (fun hchecks => ?_) (by simp)
      simp only [List.forall_mem_cons] at hchecks
      obtain ⟨hin, hout⟩ := hpoll rfl (hctx ▸ rfl) hchecks.1 hchecks.2.1 hchecks.2.2.1
      simpa [SspCall.ranges, SspArg.ranges] using ⟨hin, hout⟩
  case pathOpen =>
    simp [Function.needs, low32] at hsized
    refine keeps_wasiCtx.bind fun _ _ => (keeps_validate (fun _ => trivial) _).bind fun _ hfd => (keeps_ssp ?_).bind fun answer _ => ?_
    · simpa [Event.Inside, SspCall.ranges, SspArg.ranges] using hsized
    · exact (keeps_write hfd).bind fun _ _ => keeps_pure trivial
  case clockResGet | clockTimeGet | schedYield => exact stays_handOver (by simp [SspCall.ranges, SspArg.ranges])
  case randomGet =>
    simp [Function.needs, low32] at hsized
    exact stays_handOver (by simp [SspCall.ranges, SspArg.ranges, hsized])
  case fdClose | fdDatasync | fdRenumber | fdSeek | fdTell | fdFdstatSetFlags | fdFdstatSetRights | fdSync | fdAdvise | fdAllocate | fdFilestatGet
      | fdFilestatSetTimes | fdFilestatSetSize | sockShutdown =>
    exact stays_handOverCtx (by simp [SspCall.ranges, SspArg.ranges])
  all_goals
    -- the paths, whose lengths are in the signature
    simp [Function.needs, low32] at hsized
    exact stays_handOverCtx (by simp [SspCall.ranges, SspArg.ranges, hsized])

/-- Each need but those for bytes with a length in the next parameter is checked by the wrapper before it calls the host. -/
theorem wrapper_refuses (hargs : f ≠ .argsGet) (henviron : f ≠ .environGet) (hpoll : f = .pollOneoff → env.context.isSome = true → PollFits env.memory a (low32 a))
    (hsized : ∀ k, Need.sized k ∈ f.needs → Range.Inside env.memory ⟨a k, low32 a (k + 1)⟩)
    (h : ∃ n ∈ f.needs, ∃ r ∈ n.ranges env.memory env.context a (low32 a), ¬ r.Inside env.memory) : Refuses (f.wrapper env a) := by
  cases f
  case argsGet => exact absurd rfl hargs
  case environGet => exact absurd rfl henviron
  case fdPread | fdPwrite | fdRead | fdWrite | sockSend | sockRecv =>
    refine refuses_vectored ?_
    simp [Function.needs, Need.ranges, low32] at h ⊢
    tauto
  case argsSizesGet | environSizesGet | fdPrestatGet | fdFdstatGet =>
    refine refuses_report ?_
    simpa [Function.needs, Need.ranges] using h
  case fdReaddir | pathReadlink =>
    simp [Function.needs, low32] at hsized
    refine refuses_report ?_
    simpa [Function.needs, Need.ranges, low32, hsized] using h
  case pollOneoff =>
    cases hctx : env.context with
    | none => exact keeps_report_none hctx
    | some ctx =>
      refine refuses_report ?_
      by_contra hchecks
      push Not at hchecks
      simp only [List.forall_mem_cons] at hchecks
      obtain ⟨hin, hout, hevents, -⟩ := hchecks
      obtain ⟨hin', hout'⟩ := hpoll rfl (hctx ▸ rfl) hin hout hevents
      simp [Function.needs, Need.ranges, hin', hout', hevents] at h
  case pathOpen =>
    simp [Function.needs, low32] at hsized
    simp [Function.needs, Need.ranges, low32, hsized] at h
    exact keeps_wasiCtx.bind fun _ _ => (keeps_validate (fun _ => id) _).bind fun _ hfd => absurd hfd h
  case clockResGet | clockTimeGet =>
    refine refuses_handOver ?_
    simpa [Function.needs, Need.ranges] using h
  case fdSeek | fdTell | fdFilestatGet =>
    refine refuses_handOverCtx ?_
    simpa [Function.needs, Need.ranges] using h
  case pathFilestatGet =>
    simp [Function.needs, low32] at hsized
    refine refuses_handOverCtx ?_
    simpa [Function.needs, Need.ranges, low32, hsized] using h
  all_goals
    -- nothing is needed but paths
    simp [Function.needs, low32] at hsized
    simp [Function.needs, Need.ranges, low32, hsized] at h

end Wrappers

/-! ## The entry of a wrapper -/

/-- A need is one that the characters of the parameters say. -/
def Need.Agrees (ps : List Char) : Need → Prop
  | .fixed k _ => ps[k]? = some '*' ∧ ps[k + 1]? ≠ some '~'
  | .sized k => ps[k]? = some '*' ∧ ps[k + 1]? = some '~'
  | .array k n _ => (ps[k]? = some '*' ∧ ps[k + 1]? ≠ some '~') ∧ ps[n]? = some 'i'
  | .iovecs k n => (ps[k]? = some '*' ∧ ps[k + 1]? ≠ some '~') ∧ ps[n]? = some 'i'
  | .strings k _ => (ps[k]? = some '*' ∧ ps[k + 1]? ≠ some '~') ∧ ps[k + 1]? = some '*' ∧ ps[k + 2]? ≠ some '~'

instance (ps : List Char) : DecidablePred (Need.Agrees ps)
  | .fixed _ _ => inferInstanceAs (Decidable (_ ∧ _))
  | .sized _ => inferInstanceAs (Decidable (_ ∧ _))
  | .array _ _ _ => inferInstanceAs (Decidable ((_ ∧ _) ∧ _))
  | .iovecs _ _ => inferInstanceAs (Decidable ((_ ∧ _) ∧ _))
  | .strings _ _ => inferInstanceAs (Decidable ((_ ∧ _) ∧ _ ∧ _))

theorem needs_agree (f : Function) : ∀ n ∈ f.needs, n.Agrees (sigParams f.signature) := by
  cases f <;> decide

theorem sigParams_integer (f : Function) : ∀ ch ∈ sigParams f.signature, ch ≠ '$' ∧ (charType ch = .i32 ∨ charType ch = .i64) := by
  have hall : (sigParams f.signature).all fun ch => ch ≠ '$' && (charType ch = .i32 || charType ch = .i64) := by
    cases f <;> decide
  intro ch hch
  simpa using List.all_eq_true.1 hall ch hch

namespace Call
variable {c : Call} {regs : Registers} {k : Nat} {ch : Char}

/-- The characters of the parameters. -/
def chars (c : Call) : List Char := sigParams c.function.signature

theorem params_chars (c : Call) : c.inv.type.params = c.chars.map charType := by
  rw [chars, ← c.signature_eq]
  exact params_eq_sigParams c.inv

theorem param_of_char (hk : c.chars[k]? = some ch) : ∃ p, c.inv.params[k]? = some p ∧ p.type = charType ch ∧ p.index = k := by
  rw [params_get, params_chars, List.getElem?_map, hk]
  exact ⟨_, rfl, rfl, rfl⟩

theorem guestArg_eq {p : Param} (hp : c.inv.params[k]? = some p) : c.guestArg k = c.inv.value p := by
  rw [guestArg, hp]
  rfl

theorem signature_split (c : Call) : ∃ rest, c.inv.signature = '(' :: c.chars ++ ')' :: rest := by
  obtain ⟨p, rest, hsig, hcheck⟩ := c.inv.accepted_inv
  obtain ⟨used, rfl, -, hused⟩ := checkParams_types hcheck
  refine ⟨rest, ?_⟩
  rw [chars, ← c.signature_eq, hsig, sigParams_append hused]
  rfl

theorem sigAt_of_char (hk : c.chars[k]? = some ch) : c.inv.sigAt (k + 1) = some ch := by
  obtain ⟨rest, hsig⟩ := c.signature_split
  rw [sigAt, hsig, List.cons_append, List.getElem?_cons_succ, List.getElem?_append_left (List.getElem?_eq_some_iff.1 hk).1, hk]

theorem sigAt_next (hk : c.chars[k]? = some ch) : c.inv.sigAt (k + 2) = some '~' ↔ c.chars[k + 1]? = some '~' := by
  obtain ⟨rest, hsig⟩ := c.signature_split
  rw [sigAt, hsig, List.cons_append, List.getElem?_cons_succ]
  rcases Nat.lt_or_eq_of_le (Nat.succ_le_of_lt (List.getElem?_eq_some_iff.1 hk).1) with hlt | heq
  · rw [List.getElem?_append_left hlt]
  · rw [← Nat.succ_eq_add_one, heq, List.getElem?_append_right (Nat.le_refl _), Nat.sub_self, List.getElem?_eq_none (Nat.le_refl _)]
    exact iff_of_false (by simp) (by simp)

theorem args_integer (c : Call) : ∀ a ∈ c.inv.args, a.argClass = .integer := by
  intro a ha
  rw [args_eq] at ha
  rcases List.mem_append.1 ha with ha | ha
  · rcases List.mem_cons.1 ha with rfl | ha
    · rfl
    obtain ⟨p, hp, rfl⟩ := List.mem_map.1 ha
    have htype := List.mem_of_getElem? (mem_params hp).2.1
    rw [params_chars] at htype
    obtain ⟨ch, hch, htype⟩ := List.mem_map.1 htype
    have hint := (sigParams_integer c.function ch hch).2
    rw [htype] at hint
    unfold Invocation.arg
    split
    · rfl
    · rcases hint with hint | hint <;> rw [hint] <;> rfl
  · obtain ⟨k, -, rfl⟩ := List.mem_map.1 ha
    rfl

/-- What is passed for a parameter passes its check, and is what the source makes of it. -/
theorem parameter_spec (h : c.entry = some regs) {p : Param} (hp : c.inv.params[k]? = some p) :
    c.inv.Checks p ∧ c.inv.codeArg p = some (.int (parameter regs k)) := by
  have hmem := List.mem_of_getElem? hp
  rcases (call_cases c.inv _).2 with ⟨hnone, -⟩ | ⟨-, hchecks, regs', as, hsome, hmap, hpassed⟩
  · exact absurd (hnone.symm.trans h) nofun
  obtain rfl : regs' = regs := Option.some.inj (hsome.symm.trans h)
  obtain ⟨a, ha⟩ := (codeArg_some_iff hmem).2 (hchecks p hmem)
  obtain ⟨w, hw, hfits⟩ := passed_at hmap hmem ha hpassed
  have hindex : p.index = k := by
    rw [params_get] at hp
    obtain ⟨t, -, rfl⟩ := Option.map_eq_some_iff.1 hp
    rfl
  have hlen : k < c.inv.params.length := (List.getElem?_eq_some_iff.1 hp).1
  have hargs : (c.inv.args.take (k + 1)).map Arg.argClass = List.replicate (k + 1) .integer := by
    refine List.eq_replicate_iff.2 ⟨?_, fun x hx => ?_⟩
    · rw [List.length_map, List.length_take, args_eq, List.length_append, List.length_cons, List.length_map]
      omega
    · obtain ⟨b, hb, rfl⟩ := List.mem_map.1 hx
      exact args_integer c b (List.mem_of_mem_take hb)
  have harg : (c.inv.arg p).argClass = .integer :=
    args_integer c _ (by rw [args_eq]; exact List.mem_append_left _ (List.mem_cons_of_mem _ (List.mem_map_of_mem hmem)))
  rw [hindex, hargs, harg] at hw
  refine ⟨hchecks p hmem, ha.trans (congrArg some ?_)⟩
  have hclass := codeArg_class hmem ha
  rw [harg] at hclass
  cases a with
  | int v => rw [parameter, hw, Option.getD_some, show w = v from hfits]
  | float32 v => cases hclass
  | float64 v => cases hclass

theorem parameter_plain (h : c.entry = some regs) (hk : c.chars[k]? = some ch) (hch : ch ≠ '*') : parameter regs k = c.guestArg k := by
  obtain ⟨p, hp, htype, hindex⟩ := param_of_char hk
  have hsig := sigAt_of_char hk
  have hint := sigParams_integer c.function ch (List.mem_of_getElem? hk)
  have hptr : ¬ c.inv.IsPointer p := fun hptr => hch (Option.some.inj ((hindex ▸ hsig).symm.trans hptr.2))
  have hstr : ¬ c.inv.IsString p := fun hstr => hint.1 (Option.some.inj ((hindex ▸ hsig).symm.trans hstr.2))
  have harg := (parameter_spec h hp).2
  rw [codeArg_plain hptr hstr, Invocation.arg, if_neg (not_or.2 ⟨hptr, hstr⟩), htype] at harg
  rw [guestArg_eq hp]
  rcases hint.2 with hint | hint <;> rw [hint] at harg <;> exact (Arg.int.inj (Option.some.inj harg)).symm

theorem guestArg_lt (hk : c.chars[k]? = some ch) (hch : charType ch = .i32) : c.guestArg k < 2 ^ 32 := by
  obtain ⟨p, hp, htype, -⟩ := param_of_char hk
  rw [guestArg_eq hp, Invocation.value, htype, hch]
  exact UInt32.toNat_lt _

section
variable (h : c.entry = some regs)
include h

theorem low32_parameter (hk : c.chars[k]? = some ch) (hch : ch = 'i' ∨ ch = '~') : low32 (parameter regs) k = c.guestArg k := by
  have hplain : parameter regs k = c.guestArg k := parameter_plain h hk (by rcases hch with rfl | rfl <;> decide)
  have hlt := guestArg_lt hk (by rcases hch with rfl | rfl <;> rfl)
  rw [low32, hplain, Nat.mod_eq_of_lt hlt]

/-- A pointer is in the memory up to its length, and is passed as its address if there are bytes. -/
theorem parameter_pointer (hk : c.chars[k]? = some '*') :
    ∃ m, c.inv.memory = some m ∧ c.guestArg k + (if c.chars[k + 1]? = some '~' then c.guestArg (k + 1) else 1) ≤ m.memoryDataSize ∧
      parameter regs k = if c.guestArg k < m.size then m.data + c.guestArg k else 0 := by
  obtain ⟨p, hp, htype, hindex⟩ := param_of_char hk
  have hptr : c.inv.IsPointer p := ⟨htype, hindex ▸ sigAt_of_char hk⟩
  obtain ⟨hchecks, harg⟩ := parameter_spec h hp
  obtain ⟨m, hm, hle⟩ := hchecks.1 hptr
  rw [codeArg_address (List.mem_of_getElem? hp) hchecks hm (.inl hptr)] at harg
  refine ⟨m, hm, ?_, ?_⟩
  · rw [Invocation.pointerLength, hindex] at hle
    simp only [sigAt_next hk] at hle
    rw [guestArg_eq hp]
    exact hle
  · rw [guestArg_eq hp]
    exact (Arg.int.inj (Option.some.inj harg)).symm

theorem parameter_fixed (hk : c.chars[k]? = some '*') (hnext : c.chars[k + 1]? ≠ some '~') :
    parameter regs k = address c.inv.memory (c.guestArg k) := by
  obtain ⟨m, hm, hle, hparam⟩ := parameter_pointer h hk
  rw [if_neg hnext] at hle
  rw [hparam, hm, if_pos (Nat.lt_of_lt_of_le (Nat.lt_of_succ_le hle) (memoryDataSize_le m))]
  rfl

theorem parameter_sized (hk : c.chars[k]? = some '*') (hnext : c.chars[k + 1]? = some '~') :
    Range.Inside c.inv.memory ⟨parameter regs k, c.guestArg (k + 1)⟩ ∧
      Range.Inside c.inv.memory ⟨address c.inv.memory (c.guestArg k), c.guestArg (k + 1)⟩ := by
  obtain ⟨m, hm, hle, hparam⟩ := parameter_pointer h hk
  rw [if_pos hnext] at hle
  have hin := inside_of_validateAppAddr (validateAppAddr_iff.2 ⟨m, hm, hle⟩)
  rw [hm, addrAppToNative_eq (by have := memoryDataSize_le m; omega), ← hparam, ← hm] at hin
  exact ⟨hin.2, hin.1⟩

/-- What the call needs and is not inside, it also needs as it is entered. -/
theorem ranges_parameter {n : Need} (hn : n.Agrees c.chars)
    (hout : ∃ r ∈ n.ranges c.inv.memory c.context (fun k => address c.inv.memory (c.guestArg k)) c.guestArg, ¬ r.Inside c.inv.memory) :
    ∃ r ∈ n.ranges c.inv.memory c.context (parameter regs) (low32 (parameter regs)), ¬ r.Inside c.inv.memory := by
  cases n with
  | fixed k len =>
    simp only [Need.ranges, parameter_fixed h hn.1 hn.2]
    exact hout
  | sized k =>
    obtain ⟨r, hr, hout⟩ := hout
    rw [List.mem_singleton.1 hr] at hout
    exact absurd (parameter_sized h hn.1 hn.2).2 hout
  | array k n size | iovecs k n =>
    simp only [Need.ranges, parameter_fixed h hn.1.1 hn.1.2, low32_parameter h hn.2 (.inl rfl)]
    exact hout
  | strings k sel =>
    simp only [Need.ranges, parameter_fixed h hn.1.1 hn.1.2, parameter_fixed h hn.2.1 hn.2.2]
    exact hout

/-- The arrays of `poll_oneoff` are the same for the guest and for the wrapper. -/
theorem pollFits_parameter (hf : c.function = .pollOneoff) :
    PollFits c.inv.memory (parameter regs) (low32 (parameter regs)) ↔ PollFits c.inv.memory (fun k => address c.inv.memory (c.guestArg k)) c.guestArg := by
  have hchars : c.chars = ['*', '*', 'i', '*'] := by
    rw [chars, hf]
    decide
  have hfixed (k : Nat) (hk : c.chars[k]? = some '*') (hnext : c.chars[k + 1]? ≠ some '~') := parameter_fixed h hk hnext
  have hnum : low32 (parameter regs) 2 = c.guestArg 2 := low32_parameter h (by rw [hchars]; rfl) (.inl rfl)
  simp only [PollFits, hnum, hfixed 0 (by rw [hchars]; rfl) (by rw [hchars]; decide), hfixed 1 (by rw [hchars]; rfl) (by rw [hchars]; decide),
    hfixed 3 (by rw [hchars]; rfl) (by rw [hchars]; decide)]

end

end Call

/-! ## Which calls stay in the memory -/

section Violations
variable {env : Env} {ctx : Context}

theorem wasiCtx_some (h : env.context = some ctx) : wasiCtx env = pure ctx := by
  rw [wasiCtx, h]
  rfl

theorem ssp_mem_sspOk (env : Env) (call : SspCall) : .ssp call ∈ (sspOk env call).events := events_bind (events_bind List.mem_cons_self)

theorem checks_pass {checks : List Range} (h : ∀ r ∈ checks, r.Inside env.memory ∧ 0 < r.len) : (each (validate env) checks).result = .ok () := by
  induction checks with
  | nil => rfl
  | cons r checks ih =>
    obtain ⟨⟨hin, hlen⟩, hrest⟩ := List.forall_mem_cons.1 h
    have hvalid : validate env r = pure () := if_pos (validate_of_inside hin hlen)
    show (validate env r >>= fun _ => each (validate env) checks).result = _
    rw [hvalid]
    exact ih hrest

theorem ssp_mem_report {checks : List Range} {call : SspCall} {results : Context → Answer → List (Range × Nat)} (hctx : env.context = some ctx)
    (h : ∀ r ∈ checks, r.Inside env.memory ∧ 0 < r.len) : .ssp call ∈ (report env checks call results).events := by
  unfold report
  rw [wasiCtx_some hctx]
  exact events_bind_ok rfl (events_bind_ok (checks_pass h) (events_bind (ssp_mem_sspOk env call)))

/-- The host gets the arrays of `poll_oneoff` if their first elements are inside. -/
theorem ssp_mem_pollOneoff {inApp out n neventsApp : Nat} (hctx : env.context = some ctx) (hin : Range.Inside env.memory ⟨inApp, 56⟩)
    (hout : Range.Inside env.memory ⟨out, 32⟩) (hevents : Range.Inside env.memory ⟨neventsApp, 4⟩) :
    ∃ call : SspCall, .ssp call ∈ (wasiPollOneoff env inApp out n neventsApp).events ∧ ⟨inApp, 56 * n⟩ ∈ call.ranges ∧ ⟨out, 32 * n⟩ ∈ call.ranges :=
  ⟨_, ssp_mem_report hctx (by simp [hin, hout, hevents]), by simp [SspCall.ranges, SspArg.ranges], by simp [SspCall.ranges, SspArg.ranges]⟩

theorem ssp_mem_stringsGet {sizesGet get : Function} {sel : Context → Strings} {offsets buf : Nat} (hctx : env.context = some ctx) :
    .ssp ⟨sizesGet, []⟩ ∈ (stringsGet env sizesGet get sel offsets buf).events := by
  unfold stringsGet
  rw [wasiCtx_some hctx]
  exact events_bind_ok rfl (events_bind (ssp_mem_sspOk env _))

end Violations

namespace Call
variable {c : Call} {regs : Registers}

/-- A call of `poll_oneoff` has its arrays inside the memory if it passes the checks for their first elements, and one of `args_get` and `environ_get` has all that
it needs inside. -/
def Fits (c : Call) : Prop :=
  c.inv.allocated = true → (∀ p ∈ c.inv.params, c.inv.Checks p) → c.context.isSome = true →
    (c.function = .pollOneoff → PollFits c.inv.memory (fun k => address c.inv.memory (c.guestArg k)) c.guestArg) ∧
      (c.function = .argsGet ∨ c.function = .environGet → ∀ r ∈ c.needed, r.Inside c.inv.memory)

theorem events_entry (h : c.entry = some regs) : c.events = (c.run regs).events := by
  rw [events, h]
  rfl

/-- A wrapper is entered if there is memory for the array of its arguments and all pointers pass their checks. -/
theorem entry_cases (c : Call) : c.entry = none ∧ ¬ (c.inv.allocated = true ∧ ∀ p ∈ c.inv.params, c.inv.Checks p) ∨
      (∃ regs, c.entry = some regs) ∧ c.inv.allocated = true ∧ ∀ p ∈ c.inv.params, c.inv.Checks p := by
  rcases (call_cases c.inv _).2 with ⟨hnone, hnot⟩ | ⟨halloc, hchecks, regs, -, hsome, -, -⟩
  · exact .inl ⟨hnone, hnot⟩
  · exact .inr ⟨⟨regs, hsome⟩, halloc, hchecks⟩

/-- The bytes with a length in the next parameter are checked before the wrapper is entered. -/
theorem inside_sized (h : c.entry = some regs) {k : Nat} (hk : Need.sized k ∈ c.function.needs) :
    Range.Inside c.inv.memory ⟨parameter regs k, low32 (parameter regs) (k + 1)⟩ := by
  obtain ⟨hstar, hlen⟩ := needs_agree c.function _ hk
  rw [low32_parameter h hlen (.inr rfl)]
  exact (parameter_sized h hstar hlen).1

/-- Without a context, `args_get` and `environ_get` need nothing. -/
theorem needed_strings_none (hf : c.function = .argsGet ∨ c.function = .environGet) (hctx : c.context = none) : c.needed = [] := by
  unfold needed
  rcases hf with hf | hf <;> rw [hf, hctx] <;> rfl

theorem refused_of_refuses (h : c.entry = some regs) (hrefuses : Refuses (c.run regs)) : c.Failed ∧ ∀ e ∈ c.events, ¬ e.IsSsp := by
  refine ⟨fun regs' hregs' => ?_, fun e he => hrefuses.events e (events_entry h ▸ he)⟩
  obtain rfl : regs' = regs := Option.some.inj (hregs'.symm.trans h)
  unfold errnoOf
  split
  · exact absurd ‹_› (hrefuses.value _)
  · exact hrefuses.error _ ‹_›

theorem sandboxed_of_fits (h : c.Fits) : c.Sandboxed := by
  rcases c.entry_cases with ⟨hnone, -⟩ | ⟨⟨regs, hsome⟩, halloc, hchecks⟩
  · have hevents : c.events = [] := by
      rw [events, hnone]
      rfl
    refine ⟨fun e he => ?_, fun _ => ⟨fun regs hregs => absurd (hnone.symm.trans hregs) nofun, fun e he => ?_⟩⟩
    · rw [hevents] at he
      cases he
    · rw [hevents] at he
      cases he
  have hpoll (hf : c.function = .pollOneoff) (hctx : c.env.context.isSome = true) : PollFits c.inv.memory (parameter regs) (low32 (parameter regs)) :=
    (pollFits_parameter hsome hf).2 ((h halloc hchecks hctx).1 hf)
  have hstays : Stays c.env (c.run regs) := wrapper_stays (fun _ => inside_sized hsome) hpoll
  refine ⟨fun e he => hstays.events e (events_entry hsome ▸ he), fun hout => ?_⟩
  by_cases hstrings : c.function = .argsGet ∨ c.function = .environGet
  · -- all that they need is inside
    obtain ⟨r, hr, hnot⟩ := hout
    cases hctx : c.context with
    | none =>
      rw [needed_strings_none hstrings hctx] at hr
      cases hr
    | some ctx => exact absurd ((h halloc hchecks (hctx ▸ rfl)).2 hstrings r hr) hnot
  obtain ⟨hargs, henviron⟩ := not_or.1 hstrings
  obtain ⟨r, hr, hnot⟩ := hout
  obtain ⟨n, hn, hr⟩ := List.mem_flatMap.1 hr
  have hnative := ranges_parameter hsome (needs_agree c.function n hn) ⟨r, hr, hnot⟩
  exact refused_of_refuses hsome (wrapper_refuses hargs henviron hpoll (fun _ => inside_sized hsome) ⟨n, hn, hnative⟩)

theorem fits_of_sandboxed (h : c.Sandboxed) : c.Fits := by
  intro halloc hchecks hctx
  obtain ⟨ctx, hctx⟩ := Option.isSome_iff_exists.1 hctx
  obtain ⟨regs, hsome⟩ : ∃ regs, c.entry = some regs := by
    rcases c.entry_cases with ⟨-, hnot⟩ | ⟨hsome, -⟩
    · exact absurd ⟨halloc, hchecks⟩ hnot
    · exact hsome
  refine ⟨fun hf => (pollFits_parameter hsome hf).1 fun hin hout hevents => ?_, fun hf r hr => ?_⟩
  · obtain ⟨call, hmem, hin', hout'⟩ := ssp_mem_pollOneoff (n := low32 (parameter regs) 2) (show c.env.context = _ from hctx) hin hout hevents
    have hrun : .ssp call ∈ c.events := by
      rw [events_entry hsome, run, hf]
      exact hmem
    exact ⟨h.inside _ hrun _ hin', h.inside _ hrun _ hout'⟩
  by_contra hnot
  obtain ⟨call, hrun⟩ : ∃ call, .ssp call ∈ c.events := by
    rw [events_entry hsome, run]
    rcases hf with hf | hf <;> rw [hf] <;> exact ⟨_, ssp_mem_stringsGet hctx⟩
  exact (h.refused ⟨r, hr, hnot⟩).2 _ hrun trivial

/-- Two subscriptions, of which only the first one is in the memory of one page. -/
def secondOutside : Call where
  function := .pollOneoff
  inv :=
    { type := ⟨[.i32, .i32, .i32, .i32], [.i32]⟩
      signature := ['(', '*', '*', 'i', '*', ')', 'i']
      accepted := by decide
      params_le := by decide
      results_le := by decide
      execEnv := 0x1000
      argv := fun k => [65480, 0, 2, 64].getD k 0
      memory := some ⟨0x10000, 65536, 1, fun _ => 0, onePage_lt⟩
      malloc := true
      init := fun _ => 0 }
  signature_eq := by decide
  context := some ⟨⟨0, 0, by decide⟩, ⟨0, 0, by decide⟩⟩
  host := fun _ => ⟨0, fun _ => 0⟩
  malloc := fun _ => true

end Call

end WamrMigrate.Wasi
