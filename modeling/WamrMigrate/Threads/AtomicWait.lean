import Mathlib.Data.List.Nodup
import Mathlib.Data.List.Perm.Subperm
import WamrMigrate.Lib.Cursor
import WamrMigrate.Lib.Reader

/-!
# Atomic waits and notifies

`wasm_runtime_atomic_wait` and `wasm_runtime_atomic_notify` on one address of a shared memory meet in the wait info of the address, whose list of
nodes has a lock; it is looked up, made and destroyed outside this lock. The calls are interleaved at the regions under the locks of the list and of
the map of wait infos. A node stays in the list until its wait has woken up.
-/

namespace WamrMigrate.Threads

/-- `AtomicWaitNode`, with the wait that it is of. -/
structure WaitNode where
  call : Nat
  notified : Bool
  deriving DecidableEq, Repr

/-- The parts of `release_wait_info`: it reads the length of the list, removes the info from the map and destroys it. -/
inductive Phase where
  | check
  | remove
  | destroy
  deriving DecidableEq, Repr

/-- Where a call is: before the look-up of the info, before an own one is made, before a region under the lock of the info, before `release_wait_info` or
after the return. -/
inductive CallState where
  | waitStart
  | waitCreate
  | waitLock (info : Nat)
  | waiting (info : Nat)
  | waitRelease (phase : Phase) (info : Nat) (ret : UInt32)
  | waitDone (ret : UInt32)
  | notifyStart (count : UInt32)
  | notifyLock (info : Nat) (count : UInt32)
  | notifyRelease (phase : Phase) (info : Nat) (ret : Nat)
  | notifyDone (ret : Nat)
  deriving DecidableEq, Repr

/-- The calls, what the map of wait infos has for the address, and the infos made so far: the list of each, until it is destroyed. -/
structure WaitState where
  calls : List CallState
  map : Option Nat
  infos : List (Option (List WaitNode))
  deriving DecidableEq, Repr

/-- A call starts, or one goes on: `same` is what it compares and `mem` is whether it gets the memory and the locks that it asks for. -/
inductive WaitEvent where
  | wait
  | notify (count : UInt32)
  | advance (call : Nat) (same mem : Bool)
  deriving DecidableEq, Repr

namespace WaitState

/-- No call yet. -/
def init : WaitState := ⟨[], none, []⟩

def put (s : WaitState) (c : Nat) (st : CallState) : WaitState := { s with calls := s.calls.set c st }

def setInfo (s : WaitState) (i : Nat) (info : Option (List WaitNode)) : WaitState := { s with infos := s.infos.set i info }

/-- The list of an info, which must not have been destroyed. -/
def info (s : WaitState) (i : Nat) : Except Fault (List WaitNode) :=
  match s.infos[i]? with
  | some (some nodes) => .ok nodes
  | _ => .error .invalid

/-- A part of `release_wait_info`, with the next one if there is one. -/
def release (s : WaitState) (i : Nat) : Phase → Except Fault (WaitState × Option Phase)
  | .check => do
    let nodes ← s.info i
    return (s, if nodes = [] then some .remove else none)
  | .remove => .ok ({ s with map := none }, some .destroy)
  | .destroy => do
    let _ ← s.info i
    return (s.setInfo i none, none)

end WaitState

/-- `notify_count` of `notify_wait_list`. -/
def notifyCount (nodes : List WaitNode) (count : UInt32) : Nat :=
  if count = 0xFFFFFFFF ∨ nodes.length < count.toNat then nodes.length else count.toNat

/-- `notify_wait_list`: the nodes at the head of the list are notified. -/
def notifyWaitList (nodes : List WaitNode) (count : UInt32) : List WaitNode :=
  (nodes.take (notifyCount nodes count)).map (fun d => { d with notified := true }) ++ nodes.drop (notifyCount nodes count)

/-- What a wait returns when it finds its node as it is. -/
def wakeResult (nodes : List WaitNode) (c : Nat) : UInt32 := if (⟨c, true⟩ : WaitNode) ∈ nodes then 0 else 2

namespace WaitState

/-- The next part of `wasm_runtime_atomic_wait` or `wasm_runtime_atomic_notify`. A wait may wake up at any time: notified, timed out or for no reason. -/
def advance (s : WaitState) (c : Nat) (same mem : Bool) : CallState → Except Fault WaitState
  | .waitStart =>
    match s.map with
    | some i => .ok (s.put c (.waitLock i))
    | none => .ok (s.put c .waitCreate)
  | .waitCreate =>
    -- a second insertion under the address fails
    if mem ∧ s.map = none then
      .ok (put ⟨s.calls, some s.infos.length, s.infos ++ [some []]⟩ c (.waitLock s.infos.length))
    else .ok (s.put c (.waitDone (-1)))
  | .waitLock i => do
    let nodes ← s.info i
    if ¬ same then return s.put c (.waitDone 1)
    else if ¬ mem then return s.put c (.waitDone (-1))
    else return (s.setInfo i (some (⟨c, false⟩ :: nodes))).put c (.waiting i)
  | .waiting i => do
    let nodes ← s.info i
    return (s.setInfo i (some (nodes.filter (·.call ≠ c)))).put c (.waitRelease .check i (wakeResult nodes c))
  | .waitRelease phase i ret => do
    let (s', next) ← s.release i phase
    return s'.put c (match next with | some q => .waitRelease q i ret | none => .waitDone ret)
  | .waitDone _ => .ok s
  | .notifyStart count =>
    match s.map with
    | some i => .ok (s.put c (.notifyLock i count))
    | none => .ok (s.put c (.notifyDone 0))
  | .notifyLock i count => do
    let nodes ← s.info i
    return (s.setInfo i (some (notifyWaitList nodes count))).put c (.notifyRelease .check i (notifyCount nodes count))
  | .notifyRelease phase i ret => do
    let (s', next) ← s.release i phase
    return s'.put c (match next with | some q => .notifyRelease q i ret | none => .notifyDone ret)
  | .notifyDone _ => .ok s

/-- One event. One of a call that is not there does nothing. -/
def step (s : WaitState) : WaitEvent → Except Fault WaitState
  | .wait => .ok { s with calls := s.calls ++ [.waitStart] }
  | .notify count => .ok { s with calls := s.calls ++ [.notifyStart count] }
  | .advance c same mem =>
    match s.calls[c]? with
    | some st => s.advance c same mem st
    | none => .ok s

/-- The nodes that an event notifies and counts. -/
def notifies (s : WaitState) : WaitEvent → List WaitNode
  | .advance c _ _ =>
    match s.calls[c]? with
    | some (.notifyLock i count) =>
      match s.infos[i]? with
      | some (some nodes) => nodes.take (notifyCount nodes count)
      | _ => []
    | _ => []
  | _ => []

/-- All events of an interleaving. -/
def run : WaitState → List WaitEvent → Except Fault WaitState
  | s, [] => .ok s
  | s, e :: es =>
    match s.step e with
    | .ok s' => s'.run es
    | .error f => .error f

/-- The waits that the notifies of an interleaving have counted. -/
def counted : WaitState → List WaitEvent → List Nat
  | _, [] => []
  | s, e :: es =>
    (s.notifies e).map WaitNode.call ++
      match s.step e with
      | .ok s' => s'.counted es
      | .error _ => []

end WaitState

/-- The info that a call uses when it goes on. -/
def CallState.uses : CallState → Option Nat
  | .waitLock i => some i
  | .waiting i => some i
  | .waitRelease .check i _ => some i
  | .waitRelease .destroy i _ => some i
  | .notifyLock i _ => some i
  | .notifyRelease .check i _ => some i
  | .notifyRelease .destroy i _ => some i
  | _ => none

/-- The number that a notify returns, from when it has counted. -/
def CallState.notified : CallState → Nat
  | .notifyRelease _ _ ret => ret
  | .notifyDone ret => ret
  | _ => 0

/-- A wait that has not returned. -/
def CallState.Pending : CallState → Prop
  | .waitStart => True
  | .waitCreate => True
  | .waitLock _ => True
  | .waiting _ => True
  | .waitRelease _ _ _ => True
  | _ => False

namespace WaitState

/-- The call that goes on uses an info that has been destroyed. -/
def Dangling (s : WaitState) : WaitEvent → Prop
  | .advance c _ _ => ∃ st i, s.calls[c]? = some st ∧ st.uses = some i ∧ ∀ nodes, s.infos[i]? ≠ some (some nodes)
  | _ => False

/-- The notify that goes on counts a node that has been notified before. -/
def Recounts (s : WaitState) (e : WaitEvent) : Prop := ∃ d ∈ s.notifies e, d.notified = true

/-- No call uses an info that another one has destroyed, and no notify counts a wait that one has counted before and that has not woken up yet. -/
def Orderly : WaitState → List WaitEvent → Prop
  | _, [] => True
  | s, e :: es => ¬ s.Dangling e ∧ ¬ s.Recounts e ∧ ∀ s', s.step e = .ok s' → s'.Orderly es

/-- The sum of the numbers that the notifies return. -/
def notifySum (s : WaitState) : Nat := (s.calls.map CallState.notified).sum

/-- The waits that have returned 0. -/
def woken (s : WaitState) : List Nat := (List.range s.calls.length).filter (fun c => s.calls[c]? = some (.waitDone 0))

/-- All waits have returned. -/
def Returned (s : WaitState) : Prop := ∀ st ∈ s.calls, ¬ st.Pending

end WaitState

/-- What a call says about whether its wait has been counted: a wait in the list has a node that says it. -/
def Agrees (k : List Nat) (c : Nat) : Option CallState → Prop
  | some (.waiting _) => True
  | some (.waitRelease _ _ ret) => (c ∈ k ∧ ret = 0) ∨ (c ∉ k ∧ ret ≠ 0)
  | some (.waitDone ret) => (c ∈ k ∧ ret = 0) ∨ (c ∉ k ∧ ret ≠ 0)
  | _ => c ∉ k

/-- What holds between the calls, the lists and the waits counted so far. -/
structure Accounts (s : WaitState) (k : List Nat) : Prop where
  waiting {i : Nat} {ns : List WaitNode} : s.infos[i]? = some (some ns) → ∀ d ∈ ns, s.calls[d.call]? = some (.waiting i)
  notified {i : Nat} {ns : List WaitNode} : s.infos[i]? = some (some ns) → ∀ d ∈ ns, (d.notified = true ↔ d.call ∈ k)
  nodup {i : Nat} {ns : List WaitNode} : s.infos[i]? = some (some ns) → (ns.map WaitNode.call).Nodup
  listed {c i : Nat} {ns : List WaitNode} : s.calls[c]? = some (.waiting i) → s.infos[i]? = some (some ns) → c ∈ ns.map WaitNode.call
  bound {c i : Nat} : s.calls[c]? = some (.waiting i) → i < s.infos.length
  agrees (c : Nat) : Agrees k c s.calls[c]?
  sum : s.notifySum = k.length

theorem sum_map_set {α : Type} (f : α → Nat) {l : List α} {c : Nat} {a : α} (h : l[c]? = some a) (b : α) :
    ((l.set c b).map f).sum + f a = (l.map f).sum + f b := by
  induction l generalizing c with
  | nil => simp at h
  | cons x l ih =>
    cases c with
    | zero =>
      obtain rfl : x = a := by simpa using h
      simp only [List.set_cons_zero, List.map_cons, List.sum_cons]
      omega
    | succ c =>
      have := ih (c := c) (by simpa using h)
      simp only [List.set_cons_succ, List.map_cons, List.sum_cons]
      omega

theorem getElem?_concat {α : Type} (l : List α) (a : α) (d : Nat) : (l ++ [a])[d]? = if d = l.length then some a else l[d]? := by
  rw [List.getElem?_append]
  split
  · rw [if_neg (by omega)]
  split
  · subst_vars
    rw [Nat.sub_self, List.getElem?_cons_zero]
  · rw [List.getElem?_eq_none (by simp only [List.length_singleton]; omega), List.getElem?_eq_none (by omega)]

namespace WaitState

variable {s s' : WaitState} {k : List Nat} {c i : Nat} {st st' : CallState} {ns : List WaitNode}

theorem info_eq_ok : s.info i = .ok ns ↔ s.infos[i]? = some (some ns) := by
  unfold info
  split
  · rename_i ms hm
    rw [hm, Except.ok.injEq, Option.some.injEq, Option.some.injEq]
  · rename_i hm
    exact ⟨fun h => (nomatch h), fun h => absurd h (hm ns)⟩

theorem put_calls (st' : CallState) (h : s.calls[c]? = some st) (d : Nat) : (s.put c st').calls[d]? = if d = c then some st' else s.calls[d]? := by
  obtain ⟨hc, -⟩ := List.getElem?_eq_some_iff.1 h
  rw [put, List.getElem?_set]
  by_cases hd : c = d
  · rw [if_pos hd, if_pos hd.symm, if_pos hc]
  · rw [if_neg hd, if_neg (Ne.symm hd)]

theorem notifySum_put (st' : CallState) (h : s.calls[c]? = some st) : (s.put c st').notifySum + st.notified = s.notifySum + st'.notified :=
  sum_map_set CallState.notified h st'

end WaitState

namespace Accounts

variable {s : WaitState} {k : List Nat} {c i : Nat} {st st' : CallState} {ns : List WaitNode}

theorem agreesAt (h : Accounts s k) (hc : s.calls[c]? = some st) : Agrees k c (some st) := hc ▸ h.agrees c

theorem put (h : Accounts s k) (hc : s.calls[c]? = some st) (hst : ∀ i, st ≠ .waiting i) (hst' : ∀ i, st' ≠ .waiting i)
    (hk : Agrees k c (some st')) (hn : st'.notified = st.notified) : Accounts (s.put c st') k where
  waiting hi d hd := by
    have hw := h.waiting hi d hd
    rw [WaitState.put_calls st' hc, if_neg]
    · exact hw
    · rintro rfl
      exact hst _ (Option.some.inj (hc.symm.trans hw))
  notified := h.notified
  nodup := h.nodup
  listed {d j ms} hd hj := by
    rw [WaitState.put_calls st' hc] at hd
    split at hd
    · exact absurd (Option.some.inj hd) (hst' j)
    · exact h.listed hd hj
  bound {d j} hd := by
    rw [WaitState.put_calls st' hc] at hd
    split at hd
    · exact absurd (Option.some.inj hd) (hst' j)
    · exact h.bound hd
  agrees d := by
    rw [WaitState.put_calls st' hc]
    split
    · rename_i hd
      exact hd ▸ hk
    · exact h.agrees d
  sum := by
    have := WaitState.notifySum_put st' hc
    have := h.sum
    omega

theorem start (st : CallState) (h : Accounts s k) (hst : ∀ i, st ≠ .waiting i) (hk : ∀ c, c ∉ k → Agrees k c (some st)) (hn : st.notified = 0) :
    Accounts { s with calls := s.calls ++ [st] } k where
  waiting hi d hd := by
    have hw := h.waiting hi d hd
    rwa [List.getElem?_append_left (List.getElem?_eq_some_iff.1 hw).1]
  notified := h.notified
  nodup := h.nodup
  listed {d j ms} hd hj := by
    rw [getElem?_concat] at hd
    split at hd
    · exact absurd (Option.some.inj hd) (hst j)
    · exact h.listed hd hj
  bound {d j} hd := by
    rw [getElem?_concat] at hd
    split at hd
    · exact absurd (Option.some.inj hd) (hst j)
    · exact h.bound hd
  agrees d := by
    rw [getElem?_concat]
    split
    · rename_i hd
      have hd' := h.agrees d
      rw [List.getElem?_eq_none (Nat.le_of_eq hd.symm)] at hd'
      exact hk d hd'
    · exact h.agrees d
  sum := by
    have := h.sum
    simp only [WaitState.notifySum, List.map_append, List.sum_append, List.map_cons, List.map_nil, List.sum_cons, List.sum_nil, hn] at this ⊢
    omega

theorem create (h : Accounts s k) (m : Option Nat) : Accounts ⟨s.calls, m, s.infos ++ [some []]⟩ k where
  waiting {j ms} hj d hd := by
    rw [getElem?_concat] at hj
    split at hj
    · obtain rfl : [] = ms := Option.some.inj (Option.some.inj hj)
      nomatch hd
    · exact h.waiting hj d hd
  notified {j ms} hj d hd := by
    rw [getElem?_concat] at hj
    split at hj
    · obtain rfl : [] = ms := Option.some.inj (Option.some.inj hj)
      nomatch hd
    · exact h.notified hj d hd
  nodup {j ms} hj := by
    rw [getElem?_concat] at hj
    split at hj
    · obtain rfl : [] = ms := Option.some.inj (Option.some.inj hj)
      exact List.nodup_nil
    · exact h.nodup hj
  listed {d j ms} hd hj := by
    rw [getElem?_concat, if_neg (Nat.ne_of_lt (h.bound hd))] at hj
    exact h.listed hd hj
  bound hd := by
    have := h.bound hd
    simp only [List.length_append, List.length_singleton]
    omega
  agrees := h.agrees
  sum := h.sum

theorem destroy (h : Accounts s k) (i : Nat) : Accounts (s.setInfo i none) k := by
  have live {j : Nat} {ms : List WaitNode} (hj : (s.setInfo i none).infos[j]? = some (some ms)) : s.infos[j]? = some (some ms) := by
    rw [WaitState.setInfo, List.getElem?_set] at hj
    split at hj
    · split at hj
      · exact nomatch Option.some.inj hj
      · nomatch hj
    · exact hj
  exact ⟨fun hj => h.waiting (live hj), fun hj => h.notified (live hj), fun hj => h.nodup (live hj), fun hd hj => h.listed hd (live hj),
    fun hd => (h.bound hd).trans_eq List.length_set.symm, h.agrees, h.sum⟩

/-- A region under the lock of an info: its list changes, and `new` are the waits of it that are counted. -/
theorem change (new : List Nat) (ms : List WaitNode) (st' : CallState) (h : Accounts s k) (hc : s.calls[c]? = some st) (hi : s.infos[i]? = some (some ns))
    (hst : ∀ j, st = .waiting j → j = i) (hst' : ∀ j, st' = .waiting j → j = i) (hnew : ∀ d ∈ new, s.calls[d]? = some (.waiting i))
    (hwait : ∀ d ∈ ms, (s.put c st').calls[d.call]? = some (.waiting i)) (hnote : ∀ d ∈ ms, (d.notified = true ↔ d.call ∈ k ++ new))
    (hnodup : (ms.map WaitNode.call).Nodup)
    (hlist : ∀ d, (s.put c st').calls[d]? = some (.waiting i) → d ∈ ms.map WaitNode.call) (hk : Agrees (k ++ new) c (some st'))
    (hsum : new.length + st.notified = st'.notified) : Accounts ((s.setInfo i (some ms)).put c st') (k ++ new) := by
  have hlt : i < s.infos.length := (List.getElem?_eq_some_iff.1 hi).1
  have hinfo (j : Nat) : ((s.setInfo i (some ms)).put c st').infos[j]? = if i = j then some (some ms) else s.infos[j]? := by
    rw [WaitState.put, WaitState.setInfo, List.getElem?_set, if_pos hlt]
  -- the call of a node of another list is not the one that goes on, and is not counted
  have other {j : Nat} {ls : List WaitNode} (hij : i ≠ j) (hj : s.infos[j]? = some (some ls)) {d : WaitNode} (hd : d ∈ ls) :
      d.call ≠ c ∧ d.call ∉ new := by
    have hw := h.waiting hj d hd
    constructor
    · rintro rfl
      exact hij (hst j (Option.some.inj (hc.symm.trans hw))).symm
    · intro hn
      exact hij (CallState.waiting.inj (Option.some.inj ((hnew _ hn).symm.trans hw)))
  constructor
  case waiting =>
    intro j ls hj d hd
    rw [hinfo] at hj
    split at hj
    · rename_i hij
      cases hj
      exact hij ▸ hwait d hd
    rename_i hij
    have := WaitState.put_calls st' hc d.call
    rw [if_neg (other hij hj hd).1] at this
    exact this.trans (h.waiting hj d hd)
  case notified =>
    intro j ls hj d hd
    rw [hinfo] at hj
    split at hj
    · cases hj
      exact hnote d hd
    · rename_i hij
      rw [h.notified hj d hd, List.mem_append, or_iff_left (other hij hj hd).2]
  case nodup =>
    intro j ls hj
    rw [hinfo] at hj
    split at hj
    · cases hj
      exact hnodup
    · exact h.nodup hj
  case listed =>
    intro d j ls hd hj
    rw [hinfo] at hj
    split at hj
    · rename_i hij
      cases hj
      exact hlist d (hij ▸ hd)
    rename_i hij
    have hd' := (WaitState.put_calls st' hc d).symm.trans hd
    split at hd'
    · exact absurd (hst' j (Option.some.inj hd')).symm hij
    · exact h.listed hd' hj
  case bound =>
    intro d j hd
    have hd' := (WaitState.put_calls st' hc d).symm.trans hd
    have hlen : ((s.setInfo i (some ms)).put c st').infos.length = s.infos.length := List.length_set
    rw [hlen]
    split at hd'
    · exact hst' j (Option.some.inj hd') ▸ hlt
    · exact h.bound hd'
  case agrees =>
    intro d
    rw [show ((s.setInfo i (some ms)).put c st').calls[d]? = _ from WaitState.put_calls st' hc d]
    split
    · rename_i hd
      exact hd ▸ hk
    have hd := h.agrees d
    by_cases hn : d ∈ new
    · rw [hnew d hn]
      exact trivial
    · generalize s.calls[d]? = x at hd
      unfold Agrees at hd ⊢
      simpa only [List.mem_append, or_iff_left hn] using hd
  case sum =>
    have := WaitState.notifySum_put st' hc
    have hsum' : ((s.setInfo i (some ms)).put c st').notifySum = (s.put c st').notifySum := rfl
    have := h.sum
    rw [hsum', List.length_append]
    omega

theorem enter (h : Accounts s k) (hc : s.calls[c]? = some (.waitLock i)) (hi : s.infos[i]? = some (some ns)) :
    Accounts ((s.setInfo i (some (⟨c, false⟩ :: ns))).put c (.waiting i)) k := by
  have hfree : c ∉ k := h.agreesAt hc
  have hcalls := WaitState.put_calls (.waiting i) hc
  have hne (d : WaitNode) (hd : d ∈ ns) : d.call ≠ c := by
    rintro rfl
    nomatch hc.symm.trans (h.waiting hi d hd)
  have hchange := h.change [] (⟨c, false⟩ :: ns) (.waiting i) hc hi (fun j hj => nomatch hj)
    (fun j hj => (CallState.waiting.inj hj).symm) (fun d hd => nomatch hd)
  rw [List.append_nil] at hchange
  apply hchange
  · intro d hd
    rw [hcalls]
    rcases List.mem_cons.1 hd with rfl | hd
    · exact if_pos rfl
    · rw [if_neg (hne d hd)]
      exact h.waiting hi d hd
  · intro d hd
    rcases List.mem_cons.1 hd with rfl | hd
    · exact iff_of_false Bool.false_ne_true hfree
    · exact h.notified hi d hd
  · rw [List.map_cons, List.nodup_cons]
    refine ⟨fun hm => ?_, h.nodup hi⟩
    obtain ⟨d, hd, rfl⟩ := List.mem_map.1 hm
    exact hne d hd rfl
  · intro d hd
    rw [hcalls] at hd
    rw [List.map_cons, List.mem_cons]
    split at hd
    · exact .inl ‹_›
    · exact .inr (h.listed hd hi)
  · exact trivial
  · rfl

theorem wakeResult_eq_zero (h : Accounts s k) (hc : s.calls[c]? = some (.waiting i)) (hi : s.infos[i]? = some (some ns)) :
    (c ∈ k ∧ wakeResult ns c = 0) ∨ (c ∉ k ∧ wakeResult ns c = 2) := by
  unfold wakeResult
  obtain ⟨d, hd, rfl⟩ := List.mem_map.1 (h.listed hc hi)
  have hd' := h.notified hi d hd
  split
  · rename_i hm
    exact .inl ⟨(h.notified hi _ hm).1 rfl, rfl⟩
  rename_i hm
  refine .inr ⟨fun hk => hm ?_, rfl⟩
  obtain ⟨_, b⟩ := d
  exact (show b = true from hd'.2 hk) ▸ hd

theorem wake (h : Accounts s k) (hc : s.calls[c]? = some (.waiting i)) (hi : s.infos[i]? = some (some ns)) :
    Accounts ((s.setInfo i (some (ns.filter (·.call ≠ c)))).put c (.waitRelease .check i (wakeResult ns c))) k := by
  have hcalls := WaitState.put_calls (.waitRelease .check i (wakeResult ns c)) hc
  have hchange := h.change [] (ns.filter (·.call ≠ c)) (.waitRelease .check i (wakeResult ns c)) hc hi
    (fun j hj => (CallState.waiting.inj hj).symm) (fun j hj => nomatch hj) (fun d hd => nomatch hd)
  rw [List.append_nil] at hchange
  apply hchange
  · intro d hd
    obtain ⟨hd, hne⟩ := List.mem_filter.1 hd
    rw [hcalls, if_neg (of_decide_eq_true hne)]
    exact h.waiting hi d hd
  · intro d hd
    exact h.notified hi d (List.mem_filter.1 hd).1
  · exact ((List.filter_sublist).map WaitNode.call).nodup (h.nodup hi)
  · intro d hd
    rw [hcalls] at hd
    split at hd
    · nomatch hd
    · rename_i hne
      obtain ⟨n, hn, rfl⟩ := List.mem_map.1 (h.listed hd hi)
      exact List.mem_map_of_mem (List.mem_filter.2 ⟨hn, decide_eq_true hne⟩)
  · rcases h.wakeResult_eq_zero hc hi with ⟨hk, hr⟩ | ⟨hk, hr⟩
    · exact .inl ⟨hk, hr⟩
    · exact .inr ⟨hk, hr ▸ by decide⟩
  · rfl

theorem notifyCount_le (ns : List WaitNode) (count : UInt32) : notifyCount ns count ≤ ns.length := by
  unfold notifyCount
  split
  · exact Nat.le_refl _
  · omega

theorem map_call_notifyWaitList (ns : List WaitNode) (count : UInt32) : (notifyWaitList ns count).map WaitNode.call = ns.map WaitNode.call := by
  rw [notifyWaitList, List.map_append, List.map_map]
  exact (List.map_append (f := WaitNode.call)).symm.trans (by rw [List.take_append_drop])

theorem note {count : UInt32} (h : Accounts s k) (hc : s.calls[c]? = some (.notifyLock i count)) (hi : s.infos[i]? = some (some ns)) :
    Accounts ((s.setInfo i (some (notifyWaitList ns count))).put c (.notifyRelease .check i (notifyCount ns count)))
      (k ++ (ns.take (notifyCount ns count)).map WaitNode.call) := by
  have hcalls := WaitState.put_calls (.notifyRelease .check i (notifyCount ns count)) hc
  have hwait (d : Nat) (hd : d ∈ ns.map WaitNode.call) : s.calls[d]? = some (.waiting i) := by
    obtain ⟨n, hn, rfl⟩ := List.mem_map.1 hd
    exact h.waiting hi n hn
  have hne (d : Nat) (hd : d ∈ ns.map WaitNode.call) : d ≠ c := by
    rintro rfl
    nomatch hc.symm.trans (hwait d hd)
  have hhead (d : Nat) (hd : d ∈ (ns.take (notifyCount ns count)).map WaitNode.call) : d ∈ ns.map WaitNode.call :=
    ((List.take_sublist _ _).map _).mem hd
  refine h.change _ _ _ hc hi (fun j hj => nomatch hj) (fun j hj => nomatch hj) (fun d hd => hwait d (hhead d hd)) ?_ ?_ ?_ ?_ ?_ ?_
  · intro d hd
    have hd' : d.call ∈ ns.map WaitNode.call := map_call_notifyWaitList ns count ▸ List.mem_map_of_mem hd
    rw [hcalls, if_neg (hne _ hd')]
    exact hwait _ hd'
  · intro d hd
    rw [List.mem_append]
    rcases List.mem_append.1 hd with hd | hd
    · obtain ⟨n, hn, rfl⟩ := List.mem_map.1 hd
      exact iff_of_true rfl (.inr (List.mem_map.2 ⟨n, hn, rfl⟩))
    rw [h.notified hi d (List.mem_of_mem_drop hd), or_iff_left]
    -- a wait has only one node, so none of those behind is one of those counted
    intro hm
    have hsplit := h.nodup hi
    rw [← List.take_append_drop (notifyCount ns count) ns, List.map_append] at hsplit
    exact List.disjoint_of_nodup_append hsplit hm (List.mem_map_of_mem hd)
  · rw [map_call_notifyWaitList]
    exact h.nodup hi
  · intro d hd
    rw [hcalls] at hd
    split at hd
    · nomatch hd
    · rw [map_call_notifyWaitList]
      exact h.listed hd hi
  · have hfree : c ∉ k := h.agreesAt hc
    intro hm
    rcases List.mem_append.1 hm with hm | hm
    · exact hfree hm
    · exact hne c (hhead c hm) rfl
  · rw [List.length_map, List.length_take, Nat.min_eq_left (notifyCount_le ns count)]
    rfl

theorem release {p : Phase} {s' : WaitState} {next : Option Phase} (h : Accounts s k) (hr : s.release i p = .ok (s', next)) :
    Accounts s' k ∧ s'.calls = s.calls := by
  cases p with
  | check =>
    obtain ⟨ns, -, hr⟩ := bind_ok_iff.1 hr
    cases hr
    exact ⟨h, rfl⟩
  | remove =>
    cases hr
    exact ⟨⟨h.waiting, h.notified, h.nodup, h.listed, h.bound, h.agrees, h.sum⟩, rfl⟩
  | destroy =>
    obtain ⟨ns, -, hr⟩ := bind_ok_iff.1 hr
    cases hr
    exact ⟨h.destroy i, rfl⟩

theorem advance {same mem : Bool} {s' : WaitState} (h : Accounts s k) (hc : s.calls[c]? = some st) (hst : ∀ i count, st ≠ .notifyLock i count)
    (hs : s.advance c same mem st = .ok s') : Accounts s' k := by
  cases st with
  | waitStart | notifyStart count =>
    have hfree : c ∉ k := h.agreesAt hc
    rw [WaitState.advance] at hs
    split at hs <;> cases hs
    · exact h.put hc nofun nofun hfree rfl
    · exact h.put hc nofun nofun hfree rfl
  | waitCreate =>
    have hfree : c ∉ k := h.agreesAt hc
    rw [WaitState.advance] at hs
    split at hs <;> cases hs
    · exact (h.create _).put hc nofun nofun hfree rfl
    · exact h.put hc nofun nofun (.inr ⟨hfree, by decide⟩) rfl
  | waitLock i =>
    have hfree : c ∉ k := h.agreesAt hc
    obtain ⟨ns, hi, hs⟩ := bind_ok_iff.1 hs
    split at hs
    · cases hs
      exact h.put hc nofun nofun (.inr ⟨hfree, by decide⟩) rfl
    · split at hs <;> cases hs
      · exact h.put hc nofun nofun (.inr ⟨hfree, by decide⟩) rfl
      · exact h.enter hc (WaitState.info_eq_ok.1 hi)
  | waiting i =>
    obtain ⟨ns, hi, hs⟩ := bind_ok_iff.1 hs
    cases hs
    exact h.wake hc (WaitState.info_eq_ok.1 hi)
  | waitRelease p i ret =>
    have hret : Agrees k c (some (.waitRelease p i ret)) := h.agreesAt hc
    obtain ⟨⟨s', next⟩, hr, hs⟩ := bind_ok_iff.1 hs
    cases hs
    obtain ⟨h', hcalls⟩ := h.release hr
    rw [← hcalls] at hc
    cases next with
    | none | some q => exact h'.put hc nofun nofun hret rfl
  | waitDone ret | notifyDone ret =>
    cases hs
    exact h
  | notifyLock i count => exact absurd rfl (hst i count)
  | notifyRelease p i ret =>
    have hfree : c ∉ k := h.agreesAt hc
    obtain ⟨⟨s', next⟩, hr, hs⟩ := bind_ok_iff.1 hs
    cases hs
    obtain ⟨h', hcalls⟩ := h.release hr
    rw [← hcalls] at hc
    cases next with
    | none | some q => exact h'.put hc nofun nofun hfree rfl

theorem step {e : WaitEvent} {s' : WaitState} (h : Accounts s k) (hs : s.step e = .ok s') : Accounts s' (k ++ (s.notifies e).map WaitNode.call) := by
  cases e with
  | wait =>
    cases hs
    simpa only [WaitState.notifies, List.map_nil, List.append_nil] using h.start .waitStart nofun (fun _ hk => hk) rfl
  | notify count =>
    cases hs
    simpa only [WaitState.notifies, List.map_nil, List.append_nil] using h.start (.notifyStart count) nofun (fun _ hk => hk) rfl
  | advance c same mem =>
    rw [WaitState.step] at hs
    split at hs
    · rename_i st hc
      by_cases hst : ∃ i count, st = .notifyLock i count
      · obtain ⟨i, count, rfl⟩ := hst
        obtain ⟨ns, hi, hs⟩ := bind_ok_iff.1 hs
        cases hs
        rw [WaitState.info_eq_ok] at hi
        simpa only [WaitState.notifies, hc, hi] using h.note hc hi
      have hst' (i : Nat) (count : UInt32) : st ≠ .notifyLock i count := fun hst' => hst ⟨i, count, hst'⟩
      have hnone : s.notifies (.advance c same mem) = [] := by
        rw [WaitState.notifies, hc]
        split
        · rename_i hlock
          exact absurd (Option.some.inj hlock) (hst' _ _)
        · rfl
      rw [hnone, List.map_nil, List.append_nil]
      exact h.advance hc hst' hs
    · rename_i hc
      cases hs
      simpa only [WaitState.notifies, hc, List.map_nil, List.append_nil] using h

/-- The waits counted so far stay different ones exactly as long as no notify counts one again. -/
theorem nodup_iff (h : Accounts s k) (e : WaitEvent) : (k ++ (s.notifies e).map WaitNode.call).Nodup ↔ k.Nodup ∧ ¬ s.Recounts e := by
  have hnotes : ((s.notifies e).map WaitNode.call).Nodup ∧ ∀ d ∈ s.notifies e, (d.notified = true ↔ d.call ∈ k) := by
    unfold WaitState.notifies
    split
    · split
      · split
        · rename_i hi
          exact ⟨((List.take_sublist _ _).map _).nodup (h.nodup hi), fun d hd => h.notified hi d (List.mem_of_mem_take hd)⟩
        · exact ⟨List.nodup_nil, nofun⟩
      · exact ⟨List.nodup_nil, nofun⟩
    · exact ⟨List.nodup_nil, nofun⟩
  rw [List.nodup_append', and_congr_right_iff]
  intro _
  rw [and_iff_right hnotes.1]
  constructor
  · rintro hdis ⟨d, hd, hn⟩
    exact hdis ((hnotes.2 d hd).1 hn) (List.mem_map_of_mem hd)
  · intro hre c hc hm
    obtain ⟨d, hd, rfl⟩ := List.mem_map.1 hm
    exact hre ⟨d, hd, (hnotes.2 d hd).2 hc⟩

theorem init : Accounts .init [] where
  waiting hi := nomatch hi
  notified hi := nomatch hi
  nodup hi := nomatch hi
  listed hc := nomatch hc
  bound hc := nomatch hc
  agrees _ := List.not_mem_nil
  sum := rfl

end Accounts

theorem bind_ok_of_total {ε α β : Type} {x : Except ε α} {f : α → Except ε β} (hf : ∀ a, ∃ b, f a = .ok b) :
    (∃ b, (x >>= f) = .ok b) ↔ ∃ a, x = .ok a := by
  constructor
  · rintro ⟨b, hb⟩
    obtain ⟨a, ha, -⟩ := bind_ok_iff.1 hb
    exact ⟨a, ha⟩
  · rintro ⟨a, ha⟩
    obtain ⟨b, hb⟩ := hf a
    exact ⟨b, bind_ok_iff.2 ⟨a, ha, hb⟩⟩

namespace WaitState

variable {s s' : WaitState} {k : List Nat} {c i : Nat} {st : CallState} {e : WaitEvent} {es : List WaitEvent}

/-- The call can go on as far as the info that it uses is concerned. -/
def Live (s : WaitState) (used : Option Nat) : Prop := ∀ i, used = some i → ∃ ns, s.infos[i]? = some (some ns)

theorem live_none : s.Live none := nofun

theorem live_some : s.Live (some i) ↔ ∃ ns, s.info i = .ok ns := by
  simp only [Live, Option.some.injEq, forall_eq', info_eq_ok]

theorem release_ok_iff {p : Phase} (ret : UInt32) : (∃ r, s.release i p = .ok r) ↔ s.Live (CallState.waitRelease p i ret).uses := by
  cases p with
  | check | destroy => exact (bind_ok_of_total fun ns => ⟨_, rfl⟩).trans live_some.symm
  | remove => exact iff_of_true ⟨_, rfl⟩ live_none

theorem advance_ok_iff {same mem : Bool} : (∃ s', s.advance c same mem st = .ok s') ↔ s.Live st.uses := by
  cases st with
  | waitStart | waitCreate | notifyStart count =>
    refine iff_of_true ?_ live_none
    rw [advance]
    split <;> exact ⟨_, rfl⟩
  | waitLock i =>
    refine (bind_ok_of_total fun ns => ?_).trans live_some.symm
    split
    · exact ⟨_, rfl⟩
    · split <;> exact ⟨_, rfl⟩
  | waiting i | notifyLock i count => exact (bind_ok_of_total fun ns => ⟨_, rfl⟩).trans live_some.symm
  | waitRelease p i ret => exact (bind_ok_of_total fun r => ⟨_, rfl⟩).trans (release_ok_iff ret)
  | waitDone ret | notifyDone ret => exact iff_of_true ⟨_, rfl⟩ live_none
  | notifyRelease p i ret =>
    have huses : (CallState.notifyRelease p i ret).uses = (CallState.waitRelease p i 0).uses := by
      cases p <;> rfl
    rw [huses]
    exact (bind_ok_of_total fun r => ⟨_, rfl⟩).trans (release_ok_iff 0)

theorem step_ok_iff : (∃ s', s.step e = .ok s') ↔ ¬ s.Dangling e := by
  cases e with
  | wait | notify count => exact iff_of_true ⟨_, rfl⟩ id
  | advance c same mem =>
    cases hc : s.calls[c]? with
    | none =>
      refine iff_of_true ⟨s, by rw [step, hc]⟩ ?_
      rintro ⟨st, i, hst, -⟩
      nomatch hc.symm.trans hst
    | some st =>
      have hstep : s.step (.advance c same mem) = s.advance c same mem st := by rw [step, hc]
      rw [hstep, advance_ok_iff]
      constructor
      · rintro hlive ⟨st', i, hst', hi, hdead⟩
        cases hc.symm.trans hst'
        obtain ⟨ns, hns⟩ := hlive i hi
        exact hdead ns hns
      · intro hdead i hi
        by_contra hns
        exact hdead ⟨st, i, hc, hi, fun ns h => hns ⟨ns, h⟩⟩

theorem Orderly.run (h : s.Orderly es) : ∃ s', s.run es = .ok s' := by
  induction es generalizing s with
  | nil => exact ⟨s, rfl⟩
  | cons e es ih =>
    obtain ⟨hlive, -, hrest⟩ := h
    obtain ⟨t, ht⟩ := step_ok_iff.2 hlive
    obtain ⟨s', hs'⟩ := ih (hrest t ht)
    refine ⟨s', ?_⟩
    unfold WaitState.run
    rw [ht]
    exact hs'

end WaitState

namespace Accounts

variable {s s' : WaitState} {k : List Nat} {es : List WaitEvent}

/-- A whole interleaving: what the notifies have counted is accounted for, and it is orderly exactly if all the waits counted are different ones. -/
theorem run (h : Accounts s k) (hr : s.run es = .ok s') : Accounts s' (k ++ s.counted es) ∧ ((k ++ s.counted es).Nodup ↔ k.Nodup ∧ s.Orderly es) := by
  induction es generalizing s k with
  | nil =>
    cases hr
    rw [WaitState.counted, List.append_nil]
    exact ⟨h, (and_iff_left trivial).symm⟩
  | cons e es ih =>
    rw [WaitState.run] at hr
    rw [WaitState.counted]
    split at hr
    · rename_i t ht
      obtain ⟨hacc, hiff⟩ := ih (h.step ht) hr
      rw [← List.append_assoc]
      refine ⟨hacc, hiff.trans ?_⟩
      rw [h.nodup_iff e, and_assoc, and_congr_right_iff]
      intro _
      constructor
      · rintro ⟨hre, hrest⟩
        exact ⟨WaitState.step_ok_iff.1 ⟨t, ht⟩, hre, fun t' ht' => Except.ok.inj (ht.symm.trans ht') ▸ hrest⟩
      · rintro ⟨-, hre, hrest⟩
        exact ⟨hre, hrest t ht⟩
    · nomatch hr

/-- When all waits have returned, those that have been counted are those that have returned 0. -/
theorem mem_woken_iff (h : Accounts s k) (hret : s.Returned) (c : Nat) : c ∈ s.woken ↔ c ∈ k := by
  have hc := h.agrees c
  unfold WaitState.woken
  rw [List.mem_filter, List.mem_range, decide_eq_true_eq]
  constructor
  · rintro ⟨-, hdone⟩
    rw [hdone] at hc
    rcases hc with ⟨hk, -⟩ | ⟨-, hne⟩
    · exact hk
    · exact absurd rfl hne
  intro hk
  cases hcall : s.calls[c]? with
  | none =>
    rw [hcall] at hc
    exact absurd hk hc
  | some st =>
    have hpend := hret st (List.mem_of_getElem? hcall)
    refine ⟨(List.getElem?_eq_some_iff.1 hcall).1, ?_⟩
    rw [hcall] at hc
    cases st with
    | waitDone ret =>
      rcases hc with ⟨-, hzero⟩ | ⟨hn, -⟩
      · rw [hzero]
      · exact absurd hk hn
    | waitStart | waitCreate | waitLock i | waiting i | waitRelease p i ret => exact absurd trivial hpend
    | notifyStart count | notifyLock i count | notifyRelease p i ret | notifyDone ret => exact absurd hk hc

theorem sum_eq_iff (h : Accounts s k) (hret : s.Returned) : s.notifySum = s.woken.length ↔ k.Nodup := by
  have hmem := h.mem_woken_iff hret
  have hnodup : s.woken.Nodup := List.nodup_range.filter _
  rw [h.sum]
  constructor
  · intro hlen
    have hsub := List.subperm_of_subset hnodup (fun c hc => (hmem c).1 hc)
    exact (hsub.perm_of_length_le (Nat.le_of_eq hlen)).nodup_iff.1 hnodup
  · intro hk
    exact ((List.perm_ext_iff_of_nodup hk hnodup).2 fun c => (hmem c).symm).length_eq

theorem timedOut (h : Accounts s k) {c : Nat} (hc : s.calls[c]? = some (.waitDone 2)) : c ∉ k := by
  rcases h.agreesAt hc with ⟨-, hzero⟩ | ⟨hn, -⟩
  · nomatch hzero
  · exact hn

end Accounts

/-- The interleaving goes through, the numbers that the notifies return add up to the number of the waits that return 0, and no wait that returns 2 has
been counted. -/
def Accounted (es : List WaitEvent) : Prop :=
  ∃ s, WaitState.init.run es = .ok s ∧ s.notifySum = s.woken.length ∧
    ∀ c, s.calls[c]? = some (.waitDone 2) → c ∉ WaitState.init.counted es

/-- In an interleaving at the end of which all waits have returned, notifies count the waits that return 0 exactly if the calls are orderly: none uses an
info that another one has destroyed, and no notify counts a node that has been notified already. -/
theorem atomicNotify_accounted_iff (es : List WaitEvent) (hret : ∀ s, WaitState.init.run es = .ok s → s.Returned) :
    Accounted es ↔ WaitState.init.Orderly es := by
  constructor
  · rintro ⟨s, hs, hsum, -⟩
    obtain ⟨hacc, hiff⟩ := Accounts.init.run hs
    exact (hiff.1 ((hacc.sum_eq_iff (hret s hs)).1 hsum)).2
  intro h
  obtain ⟨s, hs⟩ := h.run
  obtain ⟨hacc, hiff⟩ := Accounts.init.run hs
  exact ⟨s, hs, (hacc.sum_eq_iff (hret s hs)).2 (hiff.2 ⟨List.nodup_nil, h⟩), fun c hc => hacc.timedOut hc⟩

/-- A call goes on, gets what it asks for and finds the value that it expects. -/
def goes (c : Nat) : WaitEvent := .advance c true true

/-- Two notifies find the node of one wait before it wakes up and both count it; and the notify of a wait that has woken up before it releases the info
destroys the info that the wait then releases. -/
theorem woken_late_counted_twice :
    (∃ s, WaitState.init.run ([.wait, .notify 1, .notify 1] ++ [0, 0, 0, 1, 2, 1, 2, 1, 2, 0, 0, 0, 0].map goes) = .ok s ∧
      s.Returned ∧ s.notifySum = 2 ∧ s.woken = [0]) ∧
    WaitState.init.run ([.wait, .notify 1] ++ [0, 0, 0, 1, 1, 0, 1, 1, 1, 0].map goes) = .error .invalid := by
  refine ⟨⟨⟨[.waitDone 0, .notifyDone 1, .notifyDone 1], none, [none]⟩, rfl, ?_, rfl, rfl⟩, rfl⟩
  simp [WaitState.Returned, CallState.Pending]

/-- One wait and one notify that is through before the wait wakes up. -/
theorem one_wait_accounted : Accounted ([.wait, .notify 1] ++ [0, 0, 0, 1, 1, 1, 0, 0, 0, 0].map goes) := by
  refine (atomicNotify_accounted_iff _ ?_).2 ?_
  · intro s hs
    obtain rfl : ⟨[.waitDone 0, .notifyDone 1], none, [none]⟩ = s := Except.ok.inj hs
    simp [WaitState.Returned, CallState.Pending]
  · exact ((Accounts.init.run rfl).2.1 (by decide)).2

end WamrMigrate.Threads
