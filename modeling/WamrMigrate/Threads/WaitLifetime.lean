import WamrMigrate.Threads.AtomicWait

/-!
# The lifetime of a wait info

Waits and notifies on any addresses share the map of wait infos, in which each address has its own entry, so that the state is one for each address
and an event belongs to one of them. A call has an info from `acquire_wait_info` to its last use of it. `release_wait_info` reads the length of the
list, removes the entry and destroys the info in three steps, with no lock around them.
-/

namespace WamrMigrate.Threads

namespace CallState

variable {st : CallState}

/-- The info that a call has obtained and will use again. -/
def holds : CallState → Option Nat
  | .waitLock i => some i
  | .waiting i => some i
  | .waitRelease _ i _ => some i
  | .notifyLock i _ => some i
  | .notifyRelease _ i _ => some i
  | _ => none

/-- The info of a call that removes the entry of the address next. -/
def removing : CallState → Option Nat
  | .waitRelease .remove i _ => some i
  | .notifyRelease .remove i _ => some i
  | _ => none

/-- The info of a call that destroys it next. -/
def destroying : CallState → Option Nat
  | .waitRelease .destroy i _ => some i
  | .notifyRelease .destroy i _ => some i
  | _ => none

/-- The call has returned. -/
def Over : CallState → Prop
  | .waitDone _ => True
  | .notifyDone _ => True
  | _ => False

theorem holds_of_removing {i : Nat} (h : st.removing = some i) : st.holds = some i ∧ st.destroying = none := by
  unfold removing at h
  split at h <;> cases h
  · exact ⟨rfl, rfl⟩
  · exact ⟨rfl, rfl⟩

theorem holds_of_destroying {i : Nat} (h : st.destroying = some i) : st.holds = some i ∧ st.removing = none := by
  unfold destroying at h
  split at h <;> cases h
  · exact ⟨rfl, rfl⟩
  · exact ⟨rfl, rfl⟩

theorem Over.holds (h : st.Over) : st.holds = none := by
  cases st with
  | waitDone ret => rfl
  | notifyDone ret => rfl
  | _ => exact h.elim

end CallState

namespace WaitState

variable {e : WaitEvent}

/-- A call other than `c` has the info. -/
def HeldByOther (s : WaitState) (c i : Nat) : Prop := ∃ d st, d ≠ c ∧ s.calls[d]? = some st ∧ st.holds = some i

/-- No call on the address is in progress. -/
def Idle (s : WaitState) : Prop := ∀ st ∈ s.calls, st.Over

/-- No call other than `c` is in progress. -/
def Last (s : WaitState) (c : Nat) : Prop := ∀ d st, d ≠ c → s.calls[d]? = some st → st.Over

/-- The info has not been destroyed. -/
def Alive (s : WaitState) (i : Nat) : Prop := ∃ ns, s.infos[i]? = some (some ns)

/-- An info is removed from the map, or destroyed, only when no other call has it. -/
def Spares (s : WaitState) : WaitEvent → Prop
  | .advance c _ _ => ∀ st, s.calls[c]? = some st →
    (st.removing ≠ none → ∀ j, s.map = some j → ¬ s.HeldByOther c j) ∧ ∀ i, st.destroying = some i → ¬ s.HeldByOther c i
  | _ => True

/-- The infos that an event destroys. -/
def destroys (s : WaitState) : WaitEvent → List Nat
  | .advance c _ _ => (s.calls[c]?.bind CallState.destroying).toList
  | _ => []

/-- What the last call in progress must not leave behind: a wait that has obtained an info enters its list, and there is no entry when an info cannot be
inserted or is destroyed. -/
def Clears (s : WaitState) (same mem : Bool) : CallState → Prop
  | .waitLock _ => same ∧ mem
  | .waitCreate => s.map = none
  | .waitRelease .destroy _ _ => s.map = none
  | .notifyRelease .destroy _ _ => s.map = none
  | _ => True

/-- When a call goes on to remove the entry of its info no other call has that info, and the last call in progress clears up. -/
def Careful (s : WaitState) : WaitEvent → Prop
  | .advance c same mem => ∀ st, s.calls[c]? = some st →
    (∀ i, st.removing = some i → ¬ s.HeldByOther c i) ∧ (s.Last c → s.Clears same mem st)
  | _ => True

/-! ## What a call does when it goes on -/

/-- What becomes of the call and of the rest of the state. -/
inductive Move (s : WaitState) (same mem : Bool) : CallState → CallState → WaitState → Prop
  /-- The look-up finds an info. -/
  | acquire {st st' : CallState} {i : Nat} : st.holds = none → s.map = some i → st'.holds = some i → st'.destroying = none →
      Move s same mem st st' s
  /-- The look-up finds no info, or none can be inserted. -/
  | pass {st st' : CallState} : st.holds = none → st'.holds = none → (st'.Over → s.map = none ∨ st = .waitCreate) → Move s same mem st st' s
  /-- An info is made. -/
  | create {st' : CallState} : s.map = none → st'.holds = some s.infos.length → st'.destroying = none →
      Move s same mem .waitCreate st' ⟨s.calls, some s.infos.length, s.infos ++ [some []]⟩
  /-- The list of the info is read or changed. -/
  | use {st st' : CallState} {t : WaitState} {i : Nat} : st.holds = some i → st.destroying = none → st'.holds = some i → st'.destroying = none →
      t.calls = s.calls → t.map = s.map → t.infos.length = s.infos.length → (∀ j, t.Alive j ↔ s.Alive j) → Move s same mem st st' t
  /-- A wait does not enter the list. -/
  | refuse {i : Nat} {st' : CallState} : ¬(same ∧ mem) → st'.Over → Move s same mem (.waitLock i) st' s
  /-- The list is not empty, and the info stays. -/
  | leave {st st' : CallState} {i : Nat} {d : WaitNode} {ns : List WaitNode} : st.holds = some i → st.destroying = none → s.infos[i]? = some (some (d :: ns)) →
      (∀ j, st ≠ .waiting j) → st'.Over → Move s same mem st st' s
  /-- The entry of the address is removed. -/
  | remove {st st' : CallState} {i : Nat} : st.removing = some i → st'.destroying = some i → Move s same mem st st' { s with map := none }
  /-- The info is destroyed. -/
  | destroy {st st' : CallState} {i : Nat} : st.destroying = some i → s.Alive i → st'.Over → Move s same mem st st' (s.setInfo i none)
  /-- The call has returned before. -/
  | ended {st : CallState} : st.Over → Move s same mem st st s

variable {s s' t : WaitState} {c d i j : Nat} {st st' : CallState} {same mem : Bool}

theorem alive_setInfo_some {ns ms : List WaitNode} (h : s.infos[i]? = some (some ns)) : (s.setInfo i (some ms)).Alive j ↔ s.Alive j := by
  unfold Alive setInfo
  rw [List.getElem?_set]
  split
  · rename_i hij
    subst hij
    rw [if_pos (List.getElem?_eq_some_iff.1 h).1, h]
    exact iff_of_true ⟨ms, rfl⟩ ⟨ns, rfl⟩
  · exact Iff.rfl

theorem alive_setInfo_none : (s.setInfo i none).Alive j ↔ j ≠ i ∧ s.Alive j := by
  unfold Alive setInfo
  rw [List.getElem?_set]
  split
  · rename_i hij
    refine iff_of_false ?_ fun h => h.1 hij.symm
    rintro ⟨ns, hns⟩
    split at hns
    · nomatch Option.some.inj hns
    · nomatch hns
  · rename_i hij
    exact (and_iff_right (Ne.symm hij)).symm

theorem release_calls {p : Phase} {next : Option Phase} (hr : s.release i p = .ok (t, next)) : t.calls = s.calls := by
  cases p with
  | check | destroy =>
    obtain ⟨ns, -, hr⟩ := bind_ok_iff.1 hr
    cases hr
    rfl
  | remove =>
    cases hr
    rfl

theorem put_self (hc : s.calls[c]? = some st) : s.put c st = s := by
  obtain ⟨hlt, rfl⟩ := List.getElem?_eq_some_iff.1 hc
  rw [put, List.set_getElem_self]

/-- A part of `release_wait_info`, for the states `f` of a call that is in it and the state `g` of one that has returned. -/
theorem release_move {p : Phase} {next : Option Phase} {f : Phase → CallState} {g : CallState} (hr : s.release i p = .ok (t, next))
    (hst : st' = next.elim g f) (hf : ∀ q, (f q).holds = some i) (hg : g.Over)
    (hcheck : (f .check).destroying = none) (hremove : (f .remove).removing = some i) (hdestroy : (f .destroy).destroying = some i)
    (hwait : ∀ q j, f q ≠ .waiting j) : Move s same mem (f p) st' t := by
  cases p with
  | check =>
    obtain ⟨ns, hi, hr⟩ := bind_ok_iff.1 hr
    rw [info_eq_ok] at hi
    cases ns with
    | nil =>
      cases hr
      exact hst ▸ .use (hf _) hcheck (hf _) (CallState.holds_of_removing hremove).2 rfl rfl rfl fun _ => Iff.rfl
    | cons d ns =>
      cases hr
      exact hst ▸ .leave (hf _) hcheck hi (hwait _) hg
  | remove =>
    cases hr
    exact hst ▸ .remove hremove hdestroy
  | destroy =>
    obtain ⟨ns, hi, hr⟩ := bind_ok_iff.1 hr
    cases hr
    exact hst ▸ .destroy hdestroy ⟨ns, info_eq_ok.1 hi⟩ hg

theorem advance_move (hc : s.calls[c]? = some st) (h : s.advance c same mem st = .ok s') :
    ∃ st' t, s' = t.put c st' ∧ t.calls = s.calls ∧ Move s same mem st st' t := by
  cases st with
  | waitStart =>
    rw [advance] at h
    split at h <;> cases h
    · rename_i i hi
      exact ⟨_, s, rfl, rfl, .acquire rfl hi rfl rfl⟩
    · exact ⟨_, s, rfl, rfl, .pass rfl rfl fun hover => hover.elim⟩
  | waitCreate =>
    rw [advance] at h
    split at h <;> cases h
    · rename_i hnew
      exact ⟨_, _, rfl, rfl, .create hnew.2 rfl rfl⟩
    · exact ⟨_, s, rfl, rfl, .pass rfl rfl fun _ => .inr rfl⟩
  | waitLock i =>
    obtain ⟨ns, hi, h⟩ := bind_ok_iff.1 h
    rw [info_eq_ok] at hi
    split at h
    · rename_i hsame
      cases h
      exact ⟨.waitDone 1, s, rfl, rfl, .refuse (fun h => hsame h.1) trivial⟩
    split at h <;> cases h
    · rename_i hmem
      exact ⟨.waitDone (-1), s, rfl, rfl, .refuse (fun h => hmem h.2) trivial⟩
    · exact ⟨.waiting i, _, rfl, rfl, .use rfl rfl rfl rfl rfl rfl List.length_set fun _ => alive_setInfo_some hi⟩
  | waiting i | notifyLock i count =>
    obtain ⟨ns, hi, h⟩ := bind_ok_iff.1 h
    rw [info_eq_ok] at hi
    cases h
    exact ⟨_, s.setInfo i _, rfl, rfl, .use rfl rfl rfl rfl rfl rfl List.length_set fun _ => alive_setInfo_some hi⟩
  | waitRelease p i ret =>
    obtain ⟨⟨t, next⟩, hr, h⟩ := bind_ok_iff.1 h
    cases h
    refine ⟨_, t, rfl, release_calls hr, release_move (f := fun q => .waitRelease q i ret) hr (g := .waitDone ret) ?_ (fun _ => rfl) trivial rfl rfl rfl (by simp)⟩
    cases next <;> rfl
  | waitDone ret | notifyDone ret =>
    cases h
    exact ⟨_, s, (put_self hc).symm, rfl, .ended trivial⟩
  | notifyStart count =>
    rw [advance] at h
    split at h <;> cases h
    · rename_i i hi
      exact ⟨_, s, rfl, rfl, .acquire rfl hi rfl rfl⟩
    · rename_i hnone
      exact ⟨_, s, rfl, rfl, .pass rfl rfl fun _ => .inl hnone⟩
  | notifyRelease p i ret =>
    obtain ⟨⟨t, next⟩, hr, h⟩ := bind_ok_iff.1 h
    cases h
    refine ⟨_, t, rfl, release_calls hr, release_move (f := fun q => .notifyRelease q i ret) hr (g := .notifyDone ret) ?_ (fun _ => rfl) trivial rfl rfl rfl (by simp)⟩
    cases next <;> rfl

/-! ## What holds as long as the calls are careful -/

/-- The calls that have an info have the one in the map, but for one that is about to destroy its info: nobody else has that one. When no call is in progress
the map has no entry. -/
structure Owned (s : WaitState) : Prop where
  current {c i : Nat} {st : CallState} : s.calls[c]? = some st → st.holds = some i → st.destroying = none → s.map = some i
  removed {c i : Nat} {st : CallState} : s.calls[c]? = some st → st.destroying = some i → s.map ≠ some i ∧ s.Alive i ∧ ¬ s.HeldByOther c i
  alive {i : Nat} : s.map = some i → s.Alive i
  idle : s.Idle → s.map = none
  accounts : ∃ k, Accounts s k

theorem calls_of_put (hc : s.calls[c]? = some st) (ht : t.calls = s.calls) (d : Nat) :
    (t.put c st').calls[d]? = if d = c then some st' else s.calls[d]? := by
  rw [put_calls st' (ht.symm ▸ hc), ht]

theorem not_over_of_holds (h : st.holds = some i) : ¬ st.Over := fun hover => nomatch hover.holds.symm.trans h

theorem clears_of_destroying (h : st.destroying = some i) : s.Clears same mem st ↔ s.map = none := by
  unfold CallState.destroying at h
  split at h <;> cases h
  · exact Iff.rfl
  · exact Iff.rfl

/-- A call destroys its info next only when it has removed the entry. -/
theorem Move.removing (hm : Move s same mem st st' t) (h : st'.destroying = some i) : st.removing = some i ∧ t = { s with map := none } := by
  have hholds := (CallState.holds_of_destroying h).1
  cases hm with
  | acquire _ _ _ hst' | create _ _ hst' | use _ _ _ hst' => nomatch hst'.symm.trans h
  | pass _ hst' => nomatch hst'.symm.trans hholds
  | refuse _ hover | leave _ _ _ _ hover | destroy _ _ hover | ended hover => exact absurd hover (not_over_of_holds hholds)
  | remove hrem hst' => exact ⟨hrem.trans (hst'.symm.trans h), rfl⟩

/-- When no call is in progress after a step of `c`, no other one was before it, and `c` has returned. -/
theorem last_of_idle (hc : s.calls[c]? = some st) (ht : t.calls = s.calls) (h : (t.put c st').Idle) : st'.Over ∧ s.Last c := by
  constructor
  · refine h st' (List.mem_of_getElem? (i := c) ?_)
    rw [calls_of_put hc ht, if_pos rfl]
  · intro d std hd hstd
    refine h std (List.mem_of_getElem? (i := d) ?_)
    rw [calls_of_put hc ht, if_neg hd, hstd]

namespace Owned

variable {e : WaitEvent}

section
variable (h : s.Owned) (hc : s.calls[c]? = some st)
include h hc

/-- A call that removes the entry next removes that of its own info. -/
theorem map_of_removing (hi : st.removing = some i) : s.map = some i := by
  obtain ⟨hholds, hdes⟩ := CallState.holds_of_removing hi
  exact h.current hc hholds hdes

section
variable (hm : Move s same mem st st' t)
include hm

/-- What a move of `c` leaves in the map for the other calls that have an info and do not destroy it. -/
theorem current_of_move
    (hcare : ∀ i, st.removing = some i → ¬ s.HeldByOther c i) {d i : Nat} {std : CallState} (hd : d ≠ c) (hstd : s.calls[d]? = some std)
    (hi : std.holds = some i) (hdes : std.destroying = none) : t.map = some i := by
  have hmap := h.current hstd hi hdes
  cases hm with
  | create hnone => nomatch hnone.symm.trans hmap
  | use _ _ _ _ _ ht => rw [ht, hmap]
  | remove hrem =>
    obtain rfl := Option.some.inj (hmap.symm.trans (h.map_of_removing hc hrem))
    exact absurd ⟨d, std, hd, hstd, hi⟩ (hcare _ hrem)
  | _ => exact hmap

/-- A call that has moved has the info in the map, or destroys its own next. -/
theorem current_of_moved (hi : st'.holds = some i) (hdes : st'.destroying = none) : t.map = some i := by
  cases hm with
  | acquire _ hmap hst' => rw [hmap, ← hst', hi]
  | pass _ hst' => nomatch hst'.symm.trans hi
  | create _ hst' =>
    show some s.infos.length = some i
    rw [← hst', hi]
  | use hst hst2 hst' _ _ ht => rw [ht, h.current hc hst hst2, ← hst', hi]
  | refuse _ hover | leave _ _ _ _ hover | destroy _ _ hover | ended hover => exact absurd hover (not_over_of_holds hi)
  | remove _ hst' => nomatch hst'.symm.trans hdes

/-- An info that `d` destroys next is left alone by the moves of another call. -/
theorem removed_of_move {d i : Nat} {std : CallState} (hd : d ≠ c)
    (hstd : s.calls[d]? = some std) (hdes : std.destroying = some i) : t.map ≠ some i ∧ t.Alive i ∧ st'.holds ≠ some i := by
  obtain ⟨hmap, halive, hother⟩ := h.removed hstd hdes
  have hst : st.holds ≠ some i := fun hi => hother ⟨c, st, hd.symm, hc, hi⟩
  have hover {std : CallState} (h : std.Over) : std.holds ≠ some i := fun hi => not_over_of_holds hi h
  cases hm with
  | acquire _ hj hst' => exact ⟨hmap, halive, fun hi => hmap (hj.trans (hst'.symm.trans hi))⟩
  | pass _ hst' => exact ⟨hmap, halive, fun hi => nomatch hst'.symm.trans hi⟩
  | create _ hst' =>
    obtain ⟨ns, hns⟩ := halive
    have hlt := (List.getElem?_eq_some_iff.1 hns).1
    have hne : some s.infos.length ≠ some i := fun hi => Nat.ne_of_gt hlt (Option.some.inj hi)
    exact ⟨hne, ⟨ns, by rw [List.getElem?_append_left hlt, hns]⟩, hst' ▸ hne⟩
  | use hj _ hst' _ _ ht _ halive' => exact ⟨ht ▸ hmap, (halive' i).2 halive, fun hi => hst (hj.trans (hst'.symm.trans hi))⟩
  | refuse _ hend | leave _ _ _ _ hend => exact ⟨hmap, halive, hover hend⟩
  | remove hrem hst' =>
    have hholds := (CallState.holds_of_removing hrem).1
    have hholds' := (CallState.holds_of_destroying hst').1
    exact ⟨nofun, halive, fun hi => hst (hholds.trans (hholds'.symm.trans hi))⟩
  | destroy hj _ hend =>
    have hne : i ≠ _ := fun hi => hst ((CallState.holds_of_destroying hj).1.trans (congrArg some hi.symm))
    exact ⟨hmap, alive_setInfo_none.2 ⟨hne, halive⟩, hover hend⟩
  | ended _ => exact ⟨hmap, halive, hst⟩

/-- The entry that a careful call leaves has an info that is there. -/
theorem alive_of_move (hi : t.map = some i) : t.Alive i := by
  cases hm with
  | create =>
    obtain rfl : s.infos.length = i := Option.some.inj hi
    exact ⟨[], by rw [List.getElem?_append_right (Nat.le_refl _), Nat.sub_self]; rfl⟩
  | use _ _ _ _ _ ht _ halive => exact (halive i).2 (h.alive (ht.symm.trans hi))
  | remove => nomatch hi
  | destroy hj =>
    refine alive_setInfo_none.2 ⟨?_, h.alive hi⟩
    rintro rfl
    exact (h.removed hc hj).1 hi
  | _ => exact h.alive hi

end

theorem idle_of_move (ht : t.calls = s.calls) (hm : Move s same mem st st' t)
    (hcare : s.Last c → s.Clears same mem st) (hidle : (t.put c st').Idle) : t.map = none := by
  obtain ⟨hover, hlast⟩ := last_of_idle hc ht hidle
  have hclear := hcare hlast
  cases hm with
  | acquire _ _ hst' | create _ hst' | use _ _ hst' => exact absurd hover (not_over_of_holds hst')
  | pass _ _ hend =>
    rcases hend hover with hnone | rfl
    · exact hnone
    · exact hclear
  | refuse hno => exact absurd hclear hno
  | leave _ _ hns hwait =>
    -- the call of a node of the list is still waiting
    obtain ⟨k, hk⟩ := h.accounts
    have hcall := hk.waiting hns _ List.mem_cons_self
    exact (hlast _ _ (fun hd => hwait _ (Option.some.inj (hc.symm.trans (hd ▸ hcall)))) hcall).elim
  | remove => rfl
  | destroy hj => exact (clears_of_destroying hj).1 hclear
  | ended hend =>
    refine h.idle fun std hstd => ?_
    obtain ⟨d, hd⟩ := List.getElem?_of_mem hstd
    by_cases hdc : d = c
    · exact Option.some.inj (hc.symm.trans (hdc ▸ hd)) ▸ hend
    · exact hlast d std hdc hd

theorem move (ht : t.calls = s.calls) (hm : Move s same mem st st' t)
    (hcare : ∀ i, st.removing = some i → ¬ s.HeldByOther c i) (hlast : s.Last c → s.Clears same mem st)
    (hacc : ∃ k, Accounts (t.put c st') k) : (t.put c st').Owned where
  current {d i std} hd hi hdes := by
    rw [calls_of_put hc ht] at hd
    split at hd
    · cases hd
      show t.map = some i
      exact h.current_of_moved hc hm hi hdes
    · rename_i hdc
      exact h.current_of_move hc hm hcare hdc hd hi hdes
  removed {d i std} hd hdes := by
    have hheld (e : Nat) : (t.put c st').HeldByOther e i → (c ≠ e ∧ st'.holds = some i) ∨ s.HeldByOther e i := by
      rintro ⟨b, stb, hb, hstb, hbi⟩
      rw [calls_of_put hc ht] at hstb
      split at hstb
      · rename_i hbc
        cases hstb
        exact .inl ⟨hbc ▸ hb, hbi⟩
      · exact .inr ⟨b, stb, hb, hstb, hbi⟩
    rw [calls_of_put hc ht] at hd
    split at hd
    · rename_i hdc
      cases hd
      subst hdc
      obtain ⟨hrem, rfl⟩ := hm.removing hdes
      refine ⟨nofun, h.alive (h.map_of_removing hc hrem), fun hother => ?_⟩
      rcases hheld d hother with ⟨hne, -⟩ | hother
      · exact hne rfl
      · exact hcare _ hrem hother
    rename_i hdc
    obtain ⟨hmap, halive, hst'⟩ := h.removed_of_move hc hm hdc hd hdes
    refine ⟨hmap, halive, fun hother => ?_⟩
    rcases hheld d hother with ⟨-, hi⟩ | hother
    · exact hst' hi
    · exact (h.removed hd hdes).2.2 hother
  alive {i} hi := (h.alive_of_move hc hm hi : t.Alive i)
  idle := h.idle_of_move hc ht hm hlast
  accounts := hacc

end

theorem init : WaitState.init.Owned where
  current hc := nomatch hc
  removed hc := nomatch hc
  alive hi := nomatch hi
  idle _ := rfl
  accounts := ⟨[], Accounts.init⟩

theorem start (h : s.Owned) (hst : st.holds = none) (hover : ¬ st.Over) (hacc : ∃ k, Accounts { s with calls := s.calls ++ [st] } k) :
    Owned { s with calls := s.calls ++ [st] } where
  current {d i std} hd hi hdes := by
    rw [getElem?_concat] at hd
    split at hd
    · cases hd
      nomatch hst.symm.trans hi
    · exact h.current hd hi hdes
  removed {d i std} hd hdes := by
    rw [getElem?_concat] at hd
    split at hd
    · cases hd
      nomatch hst.symm.trans (CallState.holds_of_destroying hdes).1
    obtain ⟨hmap, halive, hother⟩ := h.removed hd hdes
    refine ⟨hmap, halive, ?_⟩
    rintro ⟨b, stb, hb, hstb, hbi⟩
    rw [getElem?_concat] at hstb
    split at hstb
    · cases hstb
      nomatch hst.symm.trans hbi
    · exact hother ⟨b, stb, hb, hstb, hbi⟩
  alive := h.alive
  idle hidle := absurd (hidle st (List.mem_append_right _ List.mem_cons_self)) hover
  accounts := hacc

theorem step (h : s.Owned) (hcare : s.Careful e) (hs : s.step e = .ok s') : s'.Owned := by
  have hacc : ∃ k, Accounts s' k := by
    obtain ⟨k, hk⟩ := h.accounts
    exact ⟨_, hk.step hs⟩
  cases e with
  | wait | notify count =>
    cases hs
    exact h.start rfl id hacc
  | advance c same mem =>
    rw [WaitState.step] at hs
    split at hs
    · rename_i st hc
      obtain ⟨st', t, rfl, ht, hm⟩ := advance_move hc hs
      obtain ⟨hrem, hlast⟩ := hcare st hc
      exact h.move hc ht hm hrem hlast hacc
    · cases hs
      exact h

theorem spares (h : s.Owned) (hcare : s.Careful e) : s.Spares e := by
  cases e with
  | wait => trivial
  | notify count => trivial
  | advance c same mem =>
    intro st hc
    refine ⟨fun hrem j hj => ?_, fun i hi => (h.removed hc hi).2.2⟩
    obtain ⟨i, hi⟩ := Option.ne_none_iff_exists'.1 hrem
    obtain rfl := Option.some.inj (hj.symm.trans (h.map_of_removing hc hi))
    exact (hcare st hc).1 j hi

/-- The last call in progress does not return with an entry left behind only if it clears up. -/
theorem clears (h : s.Owned) (hc : s.calls[c]? = some st) (hlast : s.Last c)
    (hidle : ∀ s', s.advance c same mem st = .ok s' → s'.Idle → s'.map = none) : s.Clears same mem st := by
  have ends (t : WaitState) (ht : t.calls = s.calls) (st' : CallState) (hst' : st'.Over) (hs : s.advance c same mem st = .ok (t.put c st')) :
      t.map = none := by
    refine hidle (t.put c st') hs fun std hstd => ?_
    obtain ⟨d, hd⟩ := List.getElem?_of_mem hstd
    rw [calls_of_put hc ht] at hd
    split at hd
    · cases hd
      exact hst'
    · rename_i hdc
      exact hlast d std hdc hd
  have destroyed {i : Nat} (hi : st.destroying = some i) (hadv : ∀ ns, s.info i = .ok ns → ∃ st', st'.Over ∧
      s.advance c same mem st = .ok ((s.setInfo i none).put c st')) : s.map = none := by
    obtain ⟨ns, hns⟩ := (h.removed hc hi).2.1
    obtain ⟨st', hst', hs⟩ := hadv ns (info_eq_ok.2 hns)
    exact ends (s.setInfo i none) rfl st' hst' hs
  cases st with
  | waitCreate =>
    by_contra hmap
    have hs : s.advance c same mem .waitCreate = .ok (s.put c (.waitDone (-1))) := if_neg fun hnew => hmap hnew.2
    exact hmap (ends s rfl (.waitDone (-1)) trivial hs)
  | waitLock i =>
    by_contra hno
    have hmap := h.current hc rfl rfl
    obtain ⟨ns, hns⟩ := h.alive hmap
    have hs : ∃ ret, s.advance c same mem (.waitLock i) = .ok (s.put c (.waitDone ret)) := by
      rw [advance, info_eq_ok.2 hns]
      by_cases hsame : same = true
      · exact ⟨-1, by simp only [hsame]; exact if_pos fun hmem => hno ⟨hsame, hmem⟩⟩
      · exact ⟨1, if_pos hsame⟩
    obtain ⟨ret, hs⟩ := hs
    have hnone : s.map = none := ends s rfl (.waitDone ret) trivial hs
    cases hmap.symm.trans hnone
  | waitRelease p i ret =>
    cases p with
    | check => trivial
    | remove => trivial
    | destroy => exact destroyed rfl fun ns hns => ⟨.waitDone ret, trivial, by rw [advance, release, hns]; rfl⟩
  | notifyRelease p i ret =>
    cases p with
    | check => trivial
    | remove => trivial
    | destroy => exact destroyed rfl fun ns hns => ⟨.notifyDone ret, trivial, by rw [advance, release, hns]; rfl⟩
  | waitStart | waiting i | waitDone ret | notifyStart count | notifyLock i count | notifyDone ret => trivial

/-- An event that spares what other calls have and leaves no entry without a call is careful. -/
theorem careful (h : s.Owned) (hspare : s.Spares e) (hidle : ∀ s', s.step e = .ok s' → s'.Idle → s'.map = none) : s.Careful e := by
  cases e with
  | wait => trivial
  | notify count => trivial
  | advance c same mem =>
    intro st hc
    constructor
    · intro i hi
      exact (hspare st hc).1 (fun hnone => nomatch hnone.symm.trans hi) i (h.map_of_removing hc hi)
    intro hlast
    refine h.clears hc hlast fun s' hs => hidle s' ?_
    rw [WaitState.step, hc]
    exact hs

end Owned

/-! ## Destroyed infos -/

/-- The info has been destroyed. -/
def Dead (s : WaitState) (i : Nat) : Prop := i < s.infos.length ∧ ¬ s.Alive i

theorem Dead.move (h : s.Dead i) (hm : Move s same mem st st' t) : t.Dead i := by
  obtain ⟨hlt, hdead⟩ := h
  cases hm with
  | create =>
    refine ⟨Nat.lt_of_lt_of_le hlt (List.length_append ▸ Nat.le_add_right _ _), ?_⟩
    rintro ⟨ns, hns⟩
    exact hdead ⟨ns, by rwa [List.getElem?_append_left hlt] at hns⟩
  | use _ _ _ _ _ _ hlen halive => exact ⟨hlen.symm ▸ hlt, fun hi => hdead ((halive i).1 hi)⟩
  | destroy => exact ⟨List.length_set.symm ▸ hlt, fun hi => hdead (alive_setInfo_none.1 hi).2⟩
  | _ => exact ⟨hlt, hdead⟩

theorem Dead.step (h : s.Dead i) (hs : s.step e = .ok s') : s'.Dead i := by
  cases e with
  | wait | notify count =>
    cases hs
    exact h
  | advance c same mem =>
    rw [WaitState.step] at hs
    split at hs
    · rename_i st hc
      obtain ⟨st', t, rfl, -, hm⟩ := advance_move hc hs
      have ht : t.Dead i := h.move hm
      exact ht
    · cases hs
      exact h

theorem mem_destroys (h : i ∈ s.destroys e) : ∃ c same mem st, e = .advance c same mem ∧ s.calls[c]? = some st ∧ st.destroying = some i := by
  cases e with
  | wait => nomatch h
  | notify count => nomatch h
  | advance c same mem =>
    obtain ⟨st, hc, hi⟩ := Option.bind_eq_some_iff.1 (Option.mem_toList.1 h)
    exact ⟨c, same, mem, st, rfl, hc, hi⟩

theorem dead_of_destroys (h : i ∈ s.destroys e) (hs : s.step e = .ok s') : s'.Dead i := by
  obtain ⟨c, same, mem, st, rfl, hc, hi⟩ := mem_destroys h
  rw [WaitState.step, hc] at hs
  obtain ⟨st', t, rfl, -, hm⟩ := advance_move hc hs
  obtain ⟨hholds, hrem⟩ := CallState.holds_of_destroying hi
  cases hm with
  | destroy hj halive =>
    obtain rfl := Option.some.inj (hj.symm.trans hi)
    obtain ⟨ns, hns⟩ := halive
    refine ⟨?_, fun hi => (alive_setInfo_none.1 hi).1 rfl⟩
    exact List.length_set.symm ▸ (List.getElem?_eq_some_iff.1 hns).1
  | acquire hst | pass hst => cases hst.symm.trans hholds
  | create => cases hholds
  | use _ hst | leave _ hst => cases hst.symm.trans hi
  | refuse => cases hi
  | remove hst => cases hst.symm.trans hrem
  | ended hover => exact absurd hover (not_over_of_holds hholds)

theorem Owned.alive_of_destroys (h : s.Owned) (hi : i ∈ s.destroys e) : s.Alive i := by
  obtain ⟨c, same, mem, st, rfl, hc, hst⟩ := mem_destroys hi
  exact (h.removed hc hst).2.1

theorem destroys_nodup (s : WaitState) (e : WaitEvent) : (s.destroys e).Nodup := by
  unfold destroys
  split
  · exact Option.toList_nodup _
  · exact List.nodup_nil

end WaitState

/-! ## All addresses -/

/-- The calls and infos of each address. -/
abbrev WaitStates := Nat → WaitState

namespace WaitStates

/-- No call yet on any address. -/
def init : WaitStates := fun _ => .init

/-- One event of a call on the address `a`. -/
def step (s : WaitStates) (a : Nat) (e : WaitEvent) : Except Fault WaitStates := (s a).step e |>.map (Function.update s a)

/-- Every event of the interleaving spares the infos that other calls have, and in every state it comes to an address without a call in progress has no
entry in the map. -/
def Kept : WaitStates → List (Nat × WaitEvent) → Prop
  | _, [] => True
  | s, (a, e) :: es => (s a).Spares e ∧ ∀ s', s.step a e = .ok s' → (∀ b, (s' b).Idle → (s' b).map = none) ∧ Kept s' es

/-- The infos that are destroyed, with their addresses. -/
def destroyed : WaitStates → List (Nat × WaitEvent) → List (Nat × Nat)
  | _, [] => []
  | s, (a, e) :: es =>
    ((s a).destroys e).map (a, ·) ++
      match s.step a e with
      | .ok s' => destroyed s' es
      | .error _ => []

/-- Every event of the interleaving is careful. -/
def Careful : WaitStates → List (Nat × WaitEvent) → Prop
  | _, [] => True
  | s, (a, e) :: es => (s a).Careful e ∧ ∀ s', s.step a e = .ok s' → Careful s' es

variable {s s' : WaitStates} {a : Nat} {e : WaitEvent} {es : List (Nat × WaitEvent)}

theorem step_eq_ok (h : s.step a e = .ok s') : ∃ t, (s a).step e = .ok t ∧ s' = Function.update s a t := by
  unfold step at h
  cases hs : (s a).step e with
  | error f =>
    rw [hs] at h
    cases h
  | ok t =>
    rw [hs] at h
    cases h
    exact ⟨t, rfl, rfl⟩

theorem step_of_ok {t : WaitState} (h : (s a).step e = .ok t) : s.step a e = .ok (Function.update s a t) := by
  unfold step
  rw [h]
  rfl

theorem forall_of_step {p : WaitState → Prop} (h : ∀ b, p (s b)) (hs : s.step a e = .ok s') (ha : ∀ t, (s a).step e = .ok t → p t) (b : Nat) :
    p (s' b) := by
  obtain ⟨t, ht, rfl⟩ := step_eq_ok hs
  by_cases hb : b = a
  · subst hb
    rw [Function.update_self]
    exact ha t ht
  · rw [Function.update_of_ne hb]
    exact h b

theorem owned_of_step (h : ∀ b, (s b).Owned) (hcare : (s a).Careful e) (hs : s.step a e = .ok s') : ∀ b, (s' b).Owned :=
  forall_of_step h hs fun _ ht => (h a).step hcare ht

/-- An interleaving is kept to the lifetimes exactly if all its events are careful. -/
theorem kept_iff_careful (h : ∀ b, (s b).Owned) : s.Kept es ↔ s.Careful es := by
  induction es generalizing s with
  | nil => exact Iff.rfl
  | cons x es ih =>
    obtain ⟨a, e⟩ := x
    constructor
    · rintro ⟨hspare, hrest⟩
      have hcare : (s a).Careful e := by
        refine (h a).careful hspare fun t ht hidle => ?_
        have hidle' := (hrest _ (step_of_ok ht)).1 a
        rw [Function.update_self] at hidle'
        exact hidle' hidle
      exact ⟨hcare, fun s' hs => (ih (owned_of_step h hcare hs)).1 (hrest s' hs).2⟩
    rintro ⟨hcare, hrest⟩
    refine ⟨(h a).spares hcare, fun s' hs => ?_⟩
    have h' := owned_of_step h hcare hs
    exact ⟨fun b => (h' b).idle, (ih h').2 (hrest s' hs)⟩

/-- In a careful interleaving no info is destroyed that is dead already, and so none twice. -/
theorem destroyed_of_careful (h : ∀ b, (s b).Owned) (hcare : s.Careful es) : (s.destroyed es).Nodup ∧ ∀ x ∈ s.destroyed es, ¬ (s x.1).Dead x.2 := by
  induction es generalizing s with
  | nil => exact ⟨List.nodup_nil, nofun⟩
  | cons x es ih =>
    obtain ⟨a, e⟩ := x
    obtain ⟨hfirst, hrest⟩ := hcare
    have hnow : (((s a).destroys e).map (a, ·)).Nodup := ((s a).destroys_nodup e).map fun _ _ heq => (Prod.mk.inj heq).2
    have halive : ∀ x ∈ ((s a).destroys e).map (a, ·), ¬ (s x.1).Dead x.2 := by
      intro x hx hdead
      obtain ⟨i, hi, rfl⟩ := List.mem_map.1 hx
      exact hdead.2 ((h a).alive_of_destroys hi)
    cases hs : s.step a e with
    | error f =>
      simp only [destroyed, hs, List.append_nil]
      exact ⟨hnow, halive⟩
    | ok s' =>
      simp only [destroyed, hs]
      obtain ⟨hnodup, hlater⟩ := ih (owned_of_step h hfirst hs) (hrest s' hs)
      obtain ⟨t, ht, rfl⟩ := step_eq_ok hs
      refine ⟨List.nodup_append'.2 ⟨hnow, hnodup, ?_⟩, ?_⟩
      · intro x hx hx'
        obtain ⟨i, hi, rfl⟩ := List.mem_map.1 hx
        refine hlater _ hx' ?_
        rw [Function.update_self]
        exact WaitState.dead_of_destroys hi ht
      intro x hx
      rcases List.mem_append.1 hx with hx | hx
      · exact halive x hx
      intro hdead
      refine hlater x hx ?_
      by_cases hxa : x.1 = a
      · rw [hxa, Function.update_self]
        exact (hxa ▸ hdead).step ht
      · rwa [Function.update_of_ne hxa]

end WaitStates

/-- In the interleaving no info is removed or destroyed that another call has, none is destroyed twice, and the map has no entry for an address without a
call in progress. -/
def LifetimesKept (es : List (Nat × WaitEvent)) : Prop := WaitStates.init.Kept es ∧ (WaitStates.init.destroyed es).Nodup

/-- Wait infos are kept exactly as long as their calls have them in the interleavings all of whose events are careful: when a call goes on to remove an
entry no other call has its info, and the last call in progress on an address clears up. -/
theorem lifetimesKept_iff (es : List (Nat × WaitEvent)) : LifetimesKept es ↔ WaitStates.init.Careful es := by
  have hinit : ∀ b, (WaitStates.init b).Owned := fun _ => WaitState.Owned.init
  constructor
  · rintro ⟨hkept, -⟩
    exact (WaitStates.kept_iff_careful hinit).1 hkept
  · intro hcare
    exact ⟨(WaitStates.kept_iff_careful hinit).2 hcare, (WaitStates.destroyed_of_careful hinit hcare).1⟩

/-- A wait that finds another value than it expects. -/
def refusedWait : List (Nat × WaitEvent) := [(8, .wait), (8, goes 0), (8, goes 0), (8, .advance 0 false true)]

/-- A wait that wakes up and a notify that has counted it both find the list empty. -/
def bothRelease : List (Nat × WaitEvent) :=
  [(8, .wait), (8, .notify 1)] ++ [0, 0, 0, 1, 1, 0, 0, 1, 0, 1, 0, 1].map fun c => (8, goes c)

/-- A wait that returns at once leaves the entry that it has made, and a wait and a notify that both release an info destroy it twice. -/
theorem lifetimes_not_kept : ¬ LifetimesKept refusedWait ∧ ¬ LifetimesKept bothRelease := by
  constructor
  · rintro ⟨⟨-, h⟩, -⟩
    obtain ⟨-, -, h⟩ := h _ rfl
    obtain ⟨-, -, h⟩ := h _ rfl
    obtain ⟨-, -, h⟩ := h _ rfl
    obtain ⟨h, -⟩ := h _ rfl
    have hidle : WaitState.Idle ⟨[.waitDone 1], some 0, [some []]⟩ := by
      intro st hst
      rw [List.mem_singleton.1 hst]
      trivial
    nomatch h 8 hidle
  rintro ⟨-, hnodup⟩
  have htwice : WaitStates.init.destroyed bothRelease = [(8, 0), (8, 0)] := by decide
  rw [htwice] at hnodup
  exact absurd hnodup (by decide)

end WamrMigrate.Threads
