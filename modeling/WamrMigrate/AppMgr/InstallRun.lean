import Mathlib.Data.List.Induction
import WamrMigrate.AppMgr.Install

/-!
# Install requests one after the other

What the receiver makes of a request is compared with what its bytes say, phase by phase: a known number of bytes (`agrees_collect`), the version
bytes, a section size, and then the sections by induction.
-/

namespace WamrMigrate.AppMgr

open Reader (ofBytes)

/-- The context is as it is before the first request, but for the counters, which the first byte sets again. -/
def Clean (ctx : RecvCtx) : Prop := ctx.phase = .reqVer ∧ ctx.message = {}

/-- The receiver does what the bytes say, unless they have a part of length zero; it is clean afterwards if the request is complete or
refused and `ok` holds. -/
def Agrees (ok : Prop) (res : Except Fault (Outcome × RecvCtx)) (p : Parsed) : Prop :=
  0 ∉ p.lengths → ∃ ctx, res = .ok (p.outcome, ctx) ∧ (ok → p.outcome ≠ .pending → Clean ctx)

section Steps
variable {cfg : Config} {total : Nat} {ok : Prop} {xs : List Item} {p : Parsed}
variable {n t used : Nat} {ctx : RecvCtx} {type size : UInt32} {next : InstallPhase} {m : InstallMsg} {ch : UInt8}

/-- Go on after a call. -/
def follow (cfg : Config) (total : Nat) (res : Except Fault Result) (xs : List Item) : Except Fault (Outcome × RecvCtx) :=
  match res with
  | .error e => .error e
  | .ok ⟨_, ctx, _, some h⟩ => .ok (.handed h, ctx)
  | .ok ⟨true, ctx, _, none⟩ => feed cfg total ctx xs
  | .ok ⟨false, ctx, response, none⟩ => .ok (.refused response, ctx)

theorem feed_cons (ctx : RecvCtx) (x : Item) : feed cfg total ctx (x :: xs) = follow cfg total (byteArrive cfg total ctx x) xs := rfl

theorem follow_more (ctx : RecvCtx) : follow cfg total ctx.more xs = feed cfg total ctx xs := rfl

theorem agrees_pending (ctx : RecvCtx) (ls : List Nat) : Agrees ok (.ok (.pending, ctx)) ⟨.pending, ls⟩ :=
  fun _ => ⟨ctx, rfl, fun _ h => absurd rfl h⟩

theorem agrees_fail (ctx : RecvCtx) (text : String) (ls : List Nat) :
    Agrees ok (follow cfg total (ctx.fail text) xs) ⟨.refused (some (ctx.message.requestMid, text)), ls⟩ :=
  fun _ => ⟨{}, rfl, fun _ _ => ⟨rfl, rfl⟩⟩

theorem agrees_sized {res : Except Fault (Outcome × RecvCtx)} (h : n ≠ 0 → Agrees ok res p) : Agrees ok res (sized n p) := by
  intro hl
  have hn : n ≠ 0 := fun hz => hl (hz ▸ List.mem_cons_self)
  exact h hn fun hm => hl (List.mem_cons_of_mem _ hm)

theorem byteArrive_of_ne (x : Item) (h : ctx.phase ≠ .reqVer) :
    byteArrive cfg total ctx x = byteArrive' cfg total { ctx with totalReceivedSize := ctx.totalReceivedSize + 1 } x := by
  unfold byteArrive
  rw [if_neg h]

/-! ## A phase that collects bytes -/

section Collect
variable {n t : Nat} (base : RecvCtx) (leave : Item → RecvCtx → List UInt8 → Except Fault Result) {g : List UInt8}

theorem feed_collect (hstep : ∀ got u x, g.length ≤ got.length → got.length < n →
      byteArrive cfg total { base with got := got, totalReceivedSize := u } x =
        RecvCtx.store { base with got := got, totalReceivedSize := u + 1 } n x.ch
          (leave x { base with got := got, totalReceivedSize := u + 1 }))
    (ys zs : List Item) (hlen : g.length + ys.length < n) :
    feed cfg total { base with got := g, totalReceivedSize := t } (ys ++ zs) =
      feed cfg total { base with got := g ++ bytesOf ys, totalReceivedSize := t + ys.length } zs := by
  induction ys using List.reverseRecOn generalizing zs with
  | nil => simp [bytesOf]
  | append_singleton ys y ih =>
    rw [List.length_append, List.length_singleton] at hlen
    have hgot : (g ++ bytesOf ys).length = g.length + ys.length := by simp [bytesOf]
    rw [List.append_assoc, ih _ (by omega), List.singleton_append, feed_cons, hstep _ _ _ (by omega) (by omega), RecvCtx.store, if_neg]
    · rw [follow_more]
      simp [bytesOf, Nat.add_assoc]
    · simp only [List.length_append, List.length_singleton] at hgot ⊢
      omega

/-- A phase that is left once `n` bytes are there, `g` of which have been stored, takes the bytes it needs. -/
theorem agrees_collect {m : Nat} {k : List Item → List Item → Parsed} (hm : 0 < m) (hn : g.length + m = n)
    (hstep : ∀ got u x, g.length ≤ got.length → got.length < n → byteArrive cfg total { base with got := got, totalReceivedSize := u } x =
        RecvCtx.store { base with got := got, totalReceivedSize := u + 1 } n x.ch
          (leave x { base with got := got, totalReceivedSize := u + 1 }))
    (hk : ∀ ys x zs, xs = ys ++ x :: zs → ys.length + 1 = m →
      Agrees ok (follow cfg total (leave x { base with got := g ++ bytesOf ys, totalReceivedSize := t + m } (g ++ bytesOf (ys ++ [x]))) zs)
        (k (ys ++ [x]) zs)) :
    Agrees ok (feed cfg total { base with got := g, totalReceivedSize := t } xs) (need m xs k) := by
  unfold need
  split
  · next hlt =>
    rw [← List.append_nil xs, feed_collect base leave hstep xs [] (by omega)]
    exact agrees_pending _ _
  next hge =>
  -- the byte that completes the phase
  obtain ⟨x, zs, hsplit⟩ : ∃ x zs, xs.drop (m - 1) = x :: zs := by
    cases hd : xs.drop (m - 1) with
    | nil =>
      rw [List.drop_eq_nil_iff] at hd
      omega
    | cons x zs => exact ⟨x, zs, rfl⟩
  have hxs : xs = xs.take (m - 1) ++ x :: zs := by rw [← hsplit, List.take_append_drop]
  have hys : (xs.take (m - 1)).length + 1 = m := by
    rw [List.length_take]
    omega
  generalize xs.take (m - 1) = ys at hxs hys
  have htake : xs.take m = ys ++ [x] := by
    rw [hxs, ← hys, List.take_length_add_append]
    rfl
  have hdrop : xs.drop m = zs := by
    rw [hxs, ← hys, List.drop_length_add_append]
    rfl
  have hgot : (g ++ bytesOf ys).length = g.length + ys.length := by simp [bytesOf]
  have hrun : feed cfg total { base with got := g, totalReceivedSize := t } xs =
      follow cfg total (leave x { base with got := g ++ bytesOf ys, totalReceivedSize := t + m } (g ++ bytesOf (ys ++ [x]))) zs := by
    have hlen : ((g ++ bytesOf ys) ++ [x.ch]).length = n := by
      simp only [List.length_append, List.length_singleton] at hgot ⊢
      omega
    have hbytes : (g ++ bytesOf ys) ++ [x.ch] = g ++ bytesOf (ys ++ [x]) := by simp [bytesOf]
    rw [hxs, feed_collect base leave hstep ys (x :: zs) (by omega), feed_cons, hstep _ _ _ (by omega) (by omega), RecvCtx.store, if_pos hlen,
      hbytes, Nat.add_assoc, hys]
  rw [htake, hdrop, hrun]
  exact hk ys x zs hxs hys

end Collect

/-! ## The version bytes and a section size -/

/-- The version bytes are compared one by one; `es` are still expected. -/
theorem agrees_version (base : RecvCtx) (expected : List UInt8) (next : InstallPhase) {error : String} {k : List Item → Parsed}
    (h4 : expected.length = 4) (hstep : ∀ got u x, byteArrive cfg total { base with got := got, totalReceivedSize := u } x =
      RecvCtx.recvVersion { base with got := got, totalReceivedSize := u + 1 } expected x.ch error next)
    {got es : List UInt8} (hes : got ++ es = expected) (hne : es ≠ [])
    (hk : ∀ zs, zs <:+ xs → Agrees ok
      (feed cfg total { base with
        phase := next
        got := []
        totalReceivedSize := t + es.length
        message.appFile.version := .ofNat (ofBytes expected) } zs) (k zs)) :
    Agrees ok (feed cfg total { base with got := got, totalReceivedSize := t } xs)
      (parseVersion ⟨.refused (some (base.message.requestMid, error)), []⟩ k es xs) := by
  induction es generalizing got t xs with
  | nil => exact absurd rfl hne
  | cons e es ih =>
    cases xs with
    | nil => exact agrees_pending _ _
    | cons x xs =>
      have hlen : got.length + es.length + 1 = 4 := by
        rw [← hes, List.length_append, List.length_cons] at h4
        omega
      have hget : expected[got.length]? = some e := by
        rw [← hes, List.getElem?_append_right (le_refl _), Nat.sub_self]
        rfl
      rw [feed_cons, hstep, RecvCtx.recvVersion, hget, parseVersion]
      by_cases hx : x.ch = e
      · rw [if_pos hx, if_pos (congrArg some hx.symm), RecvCtx.store]
        cases es with
        | nil =>
          rw [if_pos (by simp at hlen ⊢; omega), follow_more]
          have hall : got ++ [x.ch] = expected := by rw [hx, hes]
          have := hk xs (List.suffix_cons x xs)
          rwa [← hall] at this
        | cons e' es =>
          rw [if_neg (by simp at hlen ⊢; omega), follow_more]
          refine ih (by rw [hx, List.append_assoc]; exact hes) (by simp) fun zs hzs => ?_
          have := hk zs (hzs.trans (List.suffix_cons x xs))
          rwa [List.length_cons, ← Nat.add_assoc, Nat.add_right_comm] at this
      · rw [if_neg hx, if_neg fun he => hx (Option.some.inj he).symm]
        exact agrees_fail _ _ _

theorem agrees_size (base : RecvCtx) {got : List UInt8} {k : UInt32 → Nat → Item → List Item → Parsed} (hp : base.phase = .wasmSectionSize)
    (hs : base.message.appFile.sectionEnd = some ⟨type, size, []⟩) (hgot : got.length ≤ 5)
    (hk : ∀ size n x zs, x :: zs <:+ xs → got.length < n → Agrees ok (feed cfg total { base.setSection ⟨type, size, []⟩ with
        phase := .wasmSectionContent, got := [], totalReceivedSize := t + n - got.length } zs) (k size n x zs)) :
    Agrees ok (feed cfg total { base with got := got, totalReceivedSize := t } xs)
      (parseSize base.message.requestMid k got.length size xs) := by
  induction xs generalizing base got t size with
  | nil => exact agrees_pending _ _
  | cons x xs ih =>
    obtain ⟨phase, g₀, m, t₀⟩ := base
    obtain rfl : phase = .wasmSectionSize := hp
    rw [feed_cons, byteArrive_of_ne x (by simp), byteArrive']
    simp only [show m.appFile.sectionEnd = some ⟨type, size, []⟩ from hs, parseSize]
    generalize size ||| (x.ch.toUInt32 &&& 0x7F) <<< UInt32.ofNat (got.length * 7) = size'
    by_cases h5 : 5 ≤ got.length
    · rw [if_pos h5, if_pos (by simp; omega)]
      exact agrees_fail _ _ _
    rw [if_neg h5, if_neg (by simp; omega)]
    by_cases hlast : x.ch &&& 0x80 = 0
    · rw [if_pos hlast, if_pos hlast]
      by_cases hm : x.malloc
      · rw [if_pos hm, if_pos hm, follow_more]
        have := hk size' (got.length + 1) x xs (List.suffix_refl _) (by omega)
        rwa [← Nat.add_assoc, Nat.add_right_comm, Nat.add_sub_cancel] at this
      · rw [if_neg hm, if_neg hm]
        exact agrees_fail _ _ _
    rw [if_neg hlast, if_neg hlast, follow_more]
    have hlen : (got ++ [x.ch]).length = got.length + 1 := by simp
    have := @ih (t + 1) size' (RecvCtx.setSection ⟨.wasmSectionSize, g₀, m, t₀⟩ ⟨type, size', []⟩) (got ++ [x.ch]) rfl rfl (by omega) fun size n y zs hzs hn => ?_
    · rw [hlen] at this
      exact this
    have := hk size n y zs (hzs.trans (List.suffix_cons x xs)) (by omega)
    rw [hlen]
    have harith : t + 1 + n - (got.length + 1) = t + n - got.length := by omega
    rw [harith]
    exact this

/-! ## The sections -/

/-- At the end of a section the file is handed over or the next section follows. -/
theorem agrees_end {full : RecvCtx} {x : Item} (hh : ok → x.handle) (hk : Agrees ok (feed cfg total { full with phase := next, got := [] } xs) p) :
    Agrees ok (follow cfg total (RecvCtx.sectionDone total x.handle next full) xs)
      (parseEnd total full.totalReceivedSize full.message x p) := by
  unfold RecvCtx.sectionDone parseEnd
  split
  · split
    · exact fun _ => ⟨{}, rfl, fun _ _ => ⟨rfl, rfl⟩⟩
    · next hx => exact fun _ => ⟨full, rfl, fun hok => absurd (hh hok) hx⟩
  · rw [follow_more]
    exact hk

/-- The body of a section, of length `size`, and what follows it. -/
theorem agrees_body {phase : InstallPhase} {last : Item} {k : InstallMsg → List Item → Parsed} (next : InstallPhase) (sec : List UInt8 → Section)
    (h0 : size.toNat ≠ 0) (hh : ok → ∀ x ∈ xs, x.handle) (hstep : ∀ got u x, got.length < size.toNat → byteArrive cfg total ⟨phase, got, m, u⟩ x =
      RecvCtx.store ⟨phase, got, m, u + 1⟩ size.toNat x.ch fun bs =>
        RecvCtx.sectionDone total x.handle next { RecvCtx.setSection ⟨phase, got, m, u + 1⟩ (sec bs) with got := bs })
    (hk : ∀ body zs, zs <:+ xs → Agrees ok (feed cfg total ⟨next, [], { m with appFile.sectionEnd := some (sec body) }, t + size.toNat⟩ zs)
      (k { m with appFile.sectionEnd := some (sec body) } zs)) :
    Agrees ok (feed cfg total ⟨phase, [], m, t⟩ xs) (need size.toNat xs fun body xs =>
      let m := { m with appFile.sectionEnd := some (sec (bytesOf body)) }
      parseEnd total (t + size.toNat) m (body.getLastD last) (k m xs)) := by
  refine agrees_collect (n := size.toNat) ⟨phase, [], m, t⟩ (fun x ctx bs => RecvCtx.sectionDone total x.handle next
    { ctx.setSection (sec bs) with got := bs }) (Nat.pos_of_ne_zero h0) (Nat.zero_add _) (fun got u x _ hlt => hstep got u x hlt) ?_
  intro ys x zs hxs hys
  have hx : ok → x.handle := fun hok => hh hok x (by rw [hxs]; simp)
  have hzs : zs <:+ xs := ⟨ys ++ [x], by rw [hxs]; simp⟩
  simp only [List.getLastD_concat, List.nil_append]
  exact agrees_end hx (hk _ zs hzs)

theorem agrees_wasmSections {fuel : Nat} (hh : ok → ∀ x ∈ xs, x.handle) (hfuel : xs.length < fuel) :
    Agrees ok (feed cfg total ⟨.wasmSectionType, [], m, used⟩ xs) (parseWasmSections total fuel used m xs) := by
  induction fuel generalizing used m xs with
  | zero => omega
  | succ fuel ih =>
    cases xs with
    | nil => exact agrees_pending _ _
    | cons t xs =>
      rw [feed_cons, byteArrive_of_ne t (by simp), byteArrive', parseWasmSections]
      simp only
      by_cases ht : t.ch ≤ sectionTypeMax
      · by_cases hm : t.malloc
        · rw [if_pos ht, if_pos hm, if_pos ht, if_pos hm, follow_more]
          refine agrees_size ⟨.wasmSectionSize, [], { m with appFile := m.appFile.add ⟨t.ch.toUInt32, 0, []⟩ }, 0⟩ rfl rfl (by simp) ?_
          intro size n x zs hzs hn
          refine agrees_sized fun h0 => ?_
          have hlen := hzs.length_le
          simp only [List.length_cons] at hfuel hlen
          have hsub : ∀ y ∈ zs, y ∈ t :: xs := fun y hy => List.mem_cons_of_mem _ (hzs.subset (List.mem_cons_of_mem _ hy))
          refine agrees_body .wasmSectionType (⟨t.ch.toUInt32, size, ·⟩) h0 (fun hok y hy => hh hok y (hsub y hy)) (fun got u x hlt => ?_) fun body ws hws => ?_
          · rw [byteArrive_of_ne x (by simp), byteArrive']
            exact if_neg (show ¬max 1 size.toNat ≤ got.length by omega)
          exact ih (fun hok y hy => hh hok y (hsub y (hws.subset hy))) (by have := hws.length_le; omega)
        · rw [if_pos ht, if_neg hm, if_pos ht, if_neg hm]
          exact agrees_fail _ _ _
      · rw [if_neg ht, if_neg ht]
        exact agrees_fail _ _ _

theorem agrees_aotSize {first : Item} {k : Nat → InstallMsg → List Item → Parsed}
    (hs : m.appFile.sectionEnd = some ⟨type, 0, []⟩) (hh : ok → ∀ x ∈ xs, x.handle) (hk : ∀ u sec zs, zs <:+ xs →
      Agrees ok (feed cfg total ⟨.aotSectionID, [], { m with appFile.sectionEnd := some sec }, u⟩ zs)
        (k u { m with appFile.sectionEnd := some sec } zs)) :
    Agrees ok (feed cfg total ⟨.aotSectionSize, [], m, t⟩ xs) (need 4 xs fun sizeBytes xs =>
      let size := UInt32.ofNat (ofBytes (bytesOf sizeBytes))
      let last := sizeBytes.getLastD first
      if size ≠ 0 ∧ (type = aotSectionTypeText ∧ 0xFFFFFFFF ≤ cfg.textSize size ∨ ¬last.malloc) then
        ⟨.refused (some (m.requestMid, "Install WASM app failed: allocate memory failed")), []⟩
      else sized size.toNat <| need size.toNat xs fun body xs =>
        let m := { m with appFile.sectionEnd := some (cfg.aotSection ⟨type, size, []⟩ (bytesOf body)) }
        parseEnd total (t + 4 + size.toNat) m (body.getLastD last) (k (t + 4 + size.toNat) m xs)) := by
  refine agrees_collect (n := 4) ⟨.aotSectionSize, [], m, t⟩
    (fun x ctx bs =>
      if UInt32.ofNat (ofBytes bs) ≠ 0 ∧ (type = aotSectionTypeText ∧ 0xFFFFFFFF ≤ cfg.textSize (.ofNat (ofBytes bs)) ∨ ¬x.malloc) then
        ctx.fail "Install WASM app failed: allocate memory failed"
      else RecvCtx.more { ctx.setSection ⟨type, .ofNat (ofBytes bs), []⟩ with phase := .aotSectionContent, got := [] })
    (by omega) rfl ?_ ?_
  · intro got u x _ hlt
    rw [byteArrive_of_ne x (by simp), byteArrive']
    simp only [hs, decide_eq_true_eq]
  intro ys x zs hxs hys
  have hzs : zs <:+ xs := ⟨ys ++ [x], by rw [hxs]; simp⟩
  simp only [List.getLastD_concat, List.nil_append]
  split
  · exact agrees_fail _ _ _
  rw [follow_more]
  refine agrees_sized fun h0 => ?_
  refine agrees_body .aotSectionID _ h0 (fun hok y hy => hh hok y (hzs.subset hy)) (fun got u x hlt => ?_) fun body ws hws => hk _ _ ws (hws.trans hzs)
  rw [byteArrive_of_ne x (by simp), byteArrive']
  exact if_neg (Nat.not_le.2 hlt)

theorem agrees_aotSections {fuel : Nat} (hh : ok → ∀ x ∈ xs, x.handle) (hfuel : xs.length < fuel) :
    Agrees ok (feed cfg total ⟨.aotSectionID, [], m, used⟩ xs) (parseAotSections cfg total fuel used m xs) := by
  induction fuel generalizing used m xs with
  | zero => omega
  | succ fuel ih =>
    cases xs with
    | nil => exact agrees_pending _ _
    | cons x xs =>
      have hoff : UInt32.ofNat (used + 1) - 1 = UInt32.ofNat used := by
        rw [UInt32.ofNat_add]
        exact UInt32.add_sub_cancel _ _
      simp only [List.length_cons] at hfuel
      rw [feed_cons, byteArrive_of_ne x (by simp), byteArrive', parseAotSections]
      simp only [hoff, if_true]
      by_cases hpad : (UInt32.ofNat used - 18 - m.requestUrlLen.toUInt32) % 4 ≠ 0
      · rw [if_pos hpad, if_pos hpad, follow_more]
        exact ih (fun hok y hy => hh hok y (List.mem_cons_of_mem _ hy)) (by omega)
      rw [if_neg hpad, if_neg hpad]
      by_cases hm : x.malloc
      case neg =>
        rw [if_neg hm, if_pos hm]
        exact agrees_fail _ _ _
      rw [if_pos hm, if_neg (not_not.2 hm), follow_more]
      refine agrees_collect (g := [x.ch]) (n := 4) ⟨.aotSectionID, [], { m with appFile := m.appFile.add ⟨0, 0, []⟩ }, 0⟩
        (fun _ ctx bs => if aotSectionTypeOk (.ofNat (ofBytes bs)) then
          RecvCtx.more { ctx.setSection ⟨.ofNat (ofBytes bs), 0, []⟩ with phase := .aotSectionSize, got := [] }
          else ctx.fail ("Install WASM app failed: invalid AOT section id " ++ toString (UInt32.ofNat (ofBytes bs)).toInt32.toInt))
        (by omega) rfl ?_ ?_
      · intro got u y hlen hlt
        have hne : got ≠ [] := fun h => by simp [h] at hlen
        rw [byteArrive_of_ne y (by simp), byteArrive']
        simp only [if_neg hne]
        rfl
      intro ys y zs hxs hys
      have hzs : zs <:+ xs := ⟨ys ++ [y], by rw [hxs]; simp⟩
      have hsub : ∀ z ∈ zs, z ∈ x :: xs := fun z hz => List.mem_cons_of_mem _ (hzs.subset hz)
      simp only [List.singleton_append]
      split
      · rw [follow_more]
        refine agrees_aotSize rfl (fun hok z hz => hh hok z (hsub z hz)) fun u sec ws hws => ?_
        have := hzs.length_le
        have := hws.length_le
        exact ih (fun hok z hz => hh hok z (hsub z (hws.subset hz))) (by omega)
      · exact agrees_fail _ _ _

/-! ## What a call counts -/

/-- A call that expects more bytes has counted this one and is past the first phase; one that hands a file over was at the last byte. -/
def Counts (total : Nat) (ctx : RecvCtx) (res : Except Fault Result) : Prop :=
  ∀ r, res = .ok r →
    (r.ret → r.handed = none → r.ctx.phase ≠ .reqVer ∧ r.ctx.totalReceivedSize = ctx.totalReceivedSize) ∧
      (r.handed ≠ none → r.ret ∧ ctx.totalReceivedSize = total)

theorem counts_more {ctx' : RecvCtx} (hp : ctx'.phase ≠ .reqVer) (ht : ctx'.totalReceivedSize = ctx.totalReceivedSize) :
    Counts total ctx ctx'.more := by
  rintro r ⟨⟩
  exact ⟨fun _ _ => ⟨hp, ht⟩, fun h => absurd rfl h⟩

theorem counts_refused (ctx ctx' : RecvCtx) (response : Option (UInt32 × String)) : Counts total ctx (.ok ⟨false, ctx', response, none⟩) := by
  rintro r ⟨⟩
  exact ⟨fun h => (Bool.false_ne_true h).elim, fun h => absurd rfl h⟩

theorem counts_fail (ctx ctx' : RecvCtx) (text : String) : Counts total ctx (ctx'.fail text) := counts_refused _ _ _

theorem counts_error (ctx : RecvCtx) (e : Fault) : Counts total ctx (.error e) := by
  intro r h
  cases h

theorem counts_store {leave : List UInt8 → Except Fault Result} (hp : ctx.phase ≠ .reqVer)
    (hl : ∀ bs, Counts total ctx (leave bs)) : Counts total ctx (ctx.store n ch leave) := by
  unfold RecvCtx.store
  split
  · exact hl _
  · exact counts_more hp rfl

theorem counts_integer {set : Nat → InstallMsg} (hp : ctx.phase ≠ .reqVer) (hn : next ≠ .reqVer) : Counts total ctx (ctx.recvInteger n ch set next) :=
  counts_store hp fun _ => counts_more hn rfl

theorem counts_version {expected : List UInt8} {error : String}
    (hp : ctx.phase ≠ .reqVer) (hn : next ≠ .reqVer) : Counts total ctx (ctx.recvVersion expected ch error next) := by
  unfold RecvCtx.recvVersion
  split
  · exact counts_store hp fun _ => counts_more hn rfl
  · exact counts_fail _ _ _

theorem counts_done {full : RecvCtx} {handle : Bool} (hn : next ≠ .reqVer)
    (ht : full.totalReceivedSize = ctx.totalReceivedSize) : Counts total ctx (RecvCtx.sectionDone total handle next full) := by
  unfold RecvCtx.sectionDone
  split
  · next hfull =>
    split
    · rintro r ⟨⟩
      exact ⟨fun _ h => absurd h (by simp), fun _ => ⟨rfl, ht ▸ hfull⟩⟩
    · exact counts_refused _ _ _
  · exact counts_more hn ht

theorem counts_byteArrive' (ctx : RecvCtx) (x : Item) : Counts total ctx (byteArrive' cfg total ctx x) := by
  obtain ⟨phase, got, m, t⟩ := ctx
  rw [byteArrive']
  cases phase <;> simp only
  case reqVer =>
    split
    · exact counts_refused _ _ _
    · exact counts_more (by simp) rfl
  case reqAction =>
    exact counts_more (by simp) rfl
  case reqFmt | reqMid | reqSender | reqPayloadLen =>
    exact counts_integer (by simp) (by simp)
  case reqUrlLen =>
    refine counts_store (by simp) fun bs => ?_
    split
    · exact counts_more (by simp) rfl
    · exact counts_fail _ _ _
  case reqUrl =>
    split
    · exact counts_error _ _
    · exact counts_store (by simp) fun bs => counts_more (by simp) rfl
  case appMagic =>
    refine counts_store (by simp) fun bs => ?_
    split
    · exact counts_more (by simp) rfl
    · exact counts_more (by simp) rfl
    · exact counts_fail _ _ _
  case wasmVersion | aotVersion =>
    exact counts_version (by simp) (by simp)
  case wasmSectionType =>
    split
    · split
      · exact counts_more (by simp) rfl
      · exact counts_fail _ _ _
    · exact counts_fail _ _ _
  case wasmSectionSize =>
    split
    · exact counts_error _ _
    split
    · exact counts_fail _ _ _
    split
    · split
      · exact counts_more (by simp) rfl
      · exact counts_fail _ _ _
    · exact counts_more (by simp [RecvCtx.setSection]) rfl
  case wasmSectionContent | aotSectionContent =>
    split
    · exact counts_error _ _
    · split
      · exact counts_error _ _
      · exact counts_store (by simp) fun bs => counts_done (by simp) rfl
  case aotSectionID =>
    split
    · split
      · exact counts_more (by simp) rfl
      · split
        · exact counts_more (by simp) rfl
        · exact counts_fail _ _ _
    split
    · exact counts_error _ _
    refine counts_store (by simp) fun bs => ?_
    split
    · exact counts_more (by simp) rfl
    · exact counts_fail _ _ _
  case aotSectionSize =>
    split
    · exact counts_error _ _
    refine counts_store (by simp) fun bs => ?_
    split
    · exact counts_fail _ _ _
    · exact counts_more (by simp) rfl

/-! ## The whole request -/

/-- The end of the phase that collects the magic number. -/
def RecvCtx.magicRead (cfg : Config) (ctx : RecvCtx) (bs : List UInt8) : Except Fault Result :=
  let magic := UInt32.ofNat (ofBytes bs)
  let m := { ctx.message with appFileMagic := magic }
  match getPackageType bs, cfg.aot with
  | .bytecode, _ => { ctx with phase := .wasmVersion, got := [], message := { m with appFile.magic := magic } }.more
  | .aot, true => { ctx with phase := .aotVersion, got := [], message := { m with appFile.magic := magic } }.more
  | _, _ => ctx.fail "Install WASM app failed: invalid file format."

theorem agrees_file (hh : ok → ∀ x ∈ xs, x.handle) : Agrees ok (feed cfg total ⟨.appMagic, [], m, used⟩ xs) (parseFile cfg total used m xs) := by
  refine agrees_collect (n := 4) ⟨.appMagic, [], m, used⟩
    (fun _ => RecvCtx.magicRead cfg) (by omega) rfl ?_ ?_
  · intro got u x _ _
    exact (byteArrive_of_ne x (by simp)).trans rfl
  intro ys x zs hxs hys
  have hzs : zs <:+ xs := ⟨ys ++ [x], by rw [hxs]; simp⟩
  simp only [List.nil_append, RecvCtx.magicRead]
  cases getPackageType (bytesOf (ys ++ [x])) with
  | bytecode =>
    rw [follow_more]
    refine agrees_version ⟨.wasmVersion, [], _, used + 4⟩ [1, 0, 0, 0] .wasmSectionType rfl (fun got u y => ?_) (List.nil_append _) (by simp)
      fun ws hws => ?_
    · rw [byteArrive_of_ne y (by simp), byteArrive']
    · exact agrees_wasmSections (fun hok y hy => hh hok y (hzs.subset (hws.subset hy))) (by omega)
  | aot =>
    cases cfg.aot with
    | false => exact agrees_fail _ _ _
    | true =>
      rw [follow_more]
      refine agrees_version ⟨.aotVersion, [], _, used + 4⟩ [3, 0, 0, 0] .aotSectionID rfl (fun got u y => ?_) (List.nil_append _) (by simp)
        fun ws hws => ?_
      · rw [byteArrive_of_ne y (by simp), byteArrive']
      · exact agrees_aotSections (fun hok y hy => hh hok y (hzs.subset (hws.subset hy))) (by omega)
  | unknown => exact agrees_fail _ _ _

theorem agrees_integer (set : InstallMsg → Nat → InstallMsg) (next : InstallPhase) {phase : InstallPhase} {k : List Item → List Item → Parsed} (hn : 0 < n)
    (hstep : ∀ got u x, byteArrive cfg total ⟨phase, got, m, u⟩ x = RecvCtx.recvInteger ⟨phase, got, m, u + 1⟩ n x.ch (set m) next)
    (hk : ∀ ys zs, zs <:+ xs → Agrees ok (feed cfg total ⟨next, [], set m (netWord (bytesOf ys)), t + n⟩ zs) (k ys zs)) :
    Agrees ok (feed cfg total ⟨phase, [], m, t⟩ xs) (need n xs k) := by
  refine agrees_collect (n := n) ⟨phase, [], m, t⟩
    (fun _ ctx bs => RecvCtx.more { ctx with phase := next, got := [], message := set m (netWord bs) }) hn (Nat.zero_add _) ?_ ?_
  · intro got u x _ _
    rw [hstep]
    rfl
  · intro ys x zs hxs hys
    exact hk (ys ++ [x]) zs ⟨ys ++ [x], by rw [hxs]; simp⟩

/-- From a clean context the receiver does what the bytes of the request say. -/
theorem agrees_parse {ctx : RecvCtx} (hc : Clean ctx) (hh : ok → ∀ x ∈ xs, x.handle) : Agrees ok (feed cfg total ctx xs) (parse cfg total xs) := by
  obtain ⟨phase, got, m, t⟩ := ctx
  obtain ⟨rfl, rfl⟩ : phase = .reqVer ∧ m = {} := hc
  cases xs with
  | nil => exact agrees_pending _ _
  | cons ver xs =>
    rw [feed_cons, byteArrive, byteArrive', parse]
    simp only [if_true]
    by_cases hv : ver.ch ≠ 1
    · rw [if_pos hv, if_pos hv]
      exact fun _ => ⟨_, rfl, fun _ _ => ⟨rfl, rfl⟩⟩
    rw [if_neg hv, if_neg hv, follow_more]
    have hsub : ∀ zs : List Item, zs <:+ xs → ok → ∀ x ∈ zs, x.handle :=
      fun zs hzs hok x hx => hh hok x (List.mem_cons_of_mem _ (hzs.subset hx))
    refine agrees_collect (n := 1) ⟨.reqAction, [], {}, 1⟩
      (fun _ ctx bs => RecvCtx.more { ctx with phase := .reqFmt, got := [], message.requestAction := bs.headD 0 }) (by omega) rfl ?_ ?_
    · intro got u x _ hlt
      obtain rfl : got = [] := List.eq_nil_of_length_eq_zero (by omega)
      rfl
    intro ys x zs hxs hys
    have hzs : zs <:+ xs := ⟨ys ++ [x], by rw [hxs]; simp⟩
    rw [follow_more]
    refine agrees_integer (fun m w => { m with requestFmt := .ofNat w }) .reqMid (by omega) (fun _ _ _ => rfl) fun fmt zs₁ h₁ => ?_
    refine agrees_integer (fun m w => { m with requestMid := .ofNat w }) .reqSender (by omega) (fun _ _ _ => rfl) fun mid zs₂ h₂ => ?_
    refine agrees_integer (fun m w => { m with requestSender := .ofNat w }) .reqUrlLen (by omega) (fun _ _ _ => rfl) fun sender zs₃ h₃ => ?_
    have hzs₃ : zs₃ <:+ xs := ((h₃.trans h₂).trans h₁).trans hzs
    refine agrees_collect (n := 2) ⟨.reqUrlLen, [], _, 0⟩
      (fun x ctx bs => if x.malloc then
        RecvCtx.more { ctx with phase := .reqPayloadLen, got := [], message.requestUrlLen := .ofNat (netWord bs) }
        else ctx.fail "Install WASM app failed: allocate memory failed.") (by omega) rfl (fun _ _ _ _ _ => rfl) ?_
    intro us y zs₄ h₄ _
    have hzs₄ : zs₄ <:+ xs := List.IsSuffix.trans ⟨us ++ [y], by rw [h₄]; simp⟩ hzs₃
    simp only [List.getLastD_concat, List.nil_append]
    by_cases hm : y.malloc
    case neg =>
      rw [if_neg hm, if_pos hm]
      exact agrees_fail _ _ _
    rw [if_pos hm, if_neg (not_not.2 hm), follow_more]
    refine agrees_integer (fun m w => { m with wasmAppSize := .ofNat w }) .reqUrl (by omega) (fun _ _ _ => rfl) fun size zs₅ h₅ => ?_
    refine agrees_sized fun h0 => ?_
    refine agrees_collect (n := (UInt16.ofNat (netWord (bytesOf (us ++ [y])))).toNat) ⟨.reqUrl, [], _, 0⟩
      (fun _ ctx bs => RecvCtx.more { ctx with phase := .appMagic, got := [], message.requestUrl := bs })
      (Nat.pos_of_ne_zero h0) (Nat.zero_add _) ?_ ?_
    · intro got u x _ hlt
      rw [byteArrive_of_ne x (by simp), byteArrive']
      simp only
      rw [if_neg (by omega)]
    · intro vs z zs₆ h₆ _
      have hzs₆ : zs₆ <:+ xs := List.IsSuffix.trans ⟨vs ++ [z], by rw [h₆]; simp⟩ (h₅.trans hzs₄)
      exact agrees_file (hsub zs₆ hzs₆)

end Steps

theorem feedAll_of_clean {cfg : Config} {rs : List InstallRequest} {ctx : RecvCtx} (hc : Clean ctx)
    (hlen : ∀ r ∈ rs, 0 ∉ (r.parse cfg).lengths) (hdone : ∀ r ∈ rs.dropLast, (r.parse cfg).outcome ≠ .pending)
    (hhandle : ∀ r ∈ rs.dropLast, ∀ x ∈ r.bytes, x.handle) : feedAll cfg ctx rs = .ok (rs.map fun r => (r.parse cfg).outcome) := by
  induction rs generalizing ctx with
  | nil => rfl
  | cons r rs ih =>
    obtain ⟨ctx', hfeed, hclean⟩ := @agrees_parse cfg r.total (∀ x ∈ r.bytes, x.handle) r.bytes ctx hc id (hlen r List.mem_cons_self)
    have hfeed : feed cfg r.total ctx r.bytes = .ok ((r.parse cfg).outcome, ctx') := hfeed
    rw [feedAll, hfeed]
    cases rs with
    | nil => rfl
    | cons r' rs =>
      have hr : r ∈ (r :: r' :: rs).dropLast := List.mem_cons_self
      have hrest := ih (hclean (hhandle r hr) (hdone r hr)) (fun q hq => hlen q (List.mem_cons_of_mem _ hq))
        (fun q hq => hdone q (List.mem_cons_of_mem _ hq)) fun q hq => hhandle q (List.mem_cons_of_mem _ hq)
      simp only [hrest, Except.map, List.map_cons]

/-- An install request with a one-letter url and a file of one section. -/
def smallInstall : InstallRequest :=
  ⟨31, [1, 1, 0, 0, 0, 0, 0, 7, 0, 0, 0, 0, 0, 2, 0, 0, 0, 11, 0x61, 0, 0x00, 0x61, 0x73, 0x6D, 1, 0, 0, 0, 0, 1, 9].map (⟨·, true, true⟩)⟩

/-- A request that is refused at its first byte. -/
def wrongVersion : InstallRequest := ⟨1, [⟨2, true, true⟩]⟩

/-- A request that ends in the middle of the url. -/
def cutInstall : InstallRequest := ⟨19, smallInstall.bytes.take 19⟩

/-- What `smallInstall` hands over. -/
def smallHanded : Handed := ⟨1, 0, 7, [0x61], ⟨0x6D736100, 1, [], some ⟨0, 1, [9]⟩⟩⟩

end WamrMigrate.AppMgr
