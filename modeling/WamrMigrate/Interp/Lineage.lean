import WamrMigrate.Interp.Generations

/-!
# The registry over any number of migrations

A consistent process that is ready can be migrated, and becomes a consistent one: the frames are taken from the new stack at their old distances,
whatever the order of their entries was, and the joined list has one entry for each of them and for each block.
-/

namespace WamrMigrate.Interp

open Image

/-- The entries with their offsets in the pool. -/
abbrev World.translated (w : World) : List PoolInfo := w.m.registry.rootInfo.map (absTranslate w.m.registry.pool)

section Dump
variable {L : Layout} {w : World} {cs : List Nat} {pool : Nat} {e : PoolInfo} {es : List PoolInfo}

@[simp] theorem translate_translate (pool : Nat) (e : PoolInfo) : absTranslate pool (absTranslate pool e) = absTranslate pool e := by
  simp [absTranslate, Function.comp_def]

/-- What `dump_runtime` sees are the entries with their offsets in the pool. -/
theorem Consistent.dumped (h : Consistent w cs) (hr : w.restored = true → w.m.acts.length = 1) : ∃ N, w.dumped = .ok N ∧ Holds N w.translated := by
  rw [World.dumped]
  split
  · obtain ⟨N, hN, hholds, -⟩ := h.holds.absTranslation
    rw [h.pool] at hholds
    exact ⟨N, hN, hholds⟩
  next hacts =>
  have hfirst : w.restored = false := by
    by_contra hne
    exact hacts (hr (by simpa using hne))
  have hself : w.translated = w.m.registry.rootInfo :=
    (List.map_congr_left (g := id) (h.offsets hfirst)).trans (List.map_id _)
  exact ⟨w.nodes, rfl, by rw [hself]; exact h.holds⟩

theorem filter_map_translate {p : PoolInfo → Bool} (hp : ∀ e, p (absTranslate pool e) = p e) :
    (es.map (absTranslate pool)).filter p = (es.filter p).map (absTranslate pool) := by
  rw [List.filter_map]
  congr 2
  funext e
  exact hp e

theorem Consistent.exact (h : Consistent w cs) : Exact w w.translated where
  offsets := by
    intro e he
    obtain ⟨x, -, rfl⟩ := List.mem_map.1 he
    exact translate_translate _ x
  blocks := by
    rw [filter_map_translate fun _ => rfl, List.map_map]
    exact h.blocks
  frames := by
    refine ⟨cs, h.linked, h.tiled.nodup, ?_⟩
    rw [filter_map_translate fun _ => rfl, List.map_map]
    exact h.frames

theorem readable_translate (h : Readable L e) : Readable L (absTranslate pool e) := by
  unfold Readable at h ⊢
  have hlist : e.list = [] → (absTranslate pool e).list = [] := fun h => by simp [absTranslate, h]
  have hlen : (absTranslate pool e).list.length = e.list.length := by simp [absTranslate]
  rw [show (absTranslate pool e).type = e.type from rfl]
  cases hk : kind e.type with
  | tail =>
    rw [hk] at h
    exact ⟨hlist h.1, h.2⟩
  | objects =>
    rw [hk] at h
    exact ⟨h.1, hlen.trans h.2⟩
  | frame | dropped | plain =>
    rw [hk] at h
    exact hlist h

end Dump

/-! ## The frames -/

theorem insertFrame_sorted {e : PoolInfo} {fs : List PoolInfo} (h : fs.Pairwise fun a b => toInt a.pAbs ≤ toInt b.pAbs) :
    (insertFrame e fs).Pairwise fun a b => toInt a.pAbs ≤ toInt b.pAbs := by
  induction fs with
  | nil => exact List.pairwise_singleton _ _
  | cons f fs ih =>
    obtain ⟨hf, hfs⟩ := List.pairwise_cons.1 h
    rw [insertFrame]
    split
    · next hlt =>
      refine List.pairwise_cons.2 ⟨fun x hx => ?_, ih hfs⟩
      rcases List.mem_cons.1 ((insertFrame_perm e fs).subset hx) with rfl | hx
      · exact Int.le_of_lt hlt
      · exact hf x hx
    · next hge =>
      refine List.pairwise_cons.2 ⟨List.forall_mem_cons.2 ⟨Int.not_lt.1 hge, fun x hx => ?_⟩, h⟩
      exact Int.le_trans (Int.not_lt.1 hge) (hf x hx)

theorem foldl_after_sorted {L : Layout} {place : Nat → Nat} {ws : List PoolInfo} {s : Restored}
    (h : s.rootFrame.Pairwise fun a b => toInt a.pAbs ≤ toInt b.pAbs) :
    (ws.foldl (Restored.after L place) s).rootFrame.Pairwise fun a b => toInt a.pAbs ≤ toInt b.pAbs := by
  induction ws generalizing s with
  | nil => exact h
  | cons e ws ih =>
    refine ih ?_
    unfold Restored.after
    split
    · exact insertFrame_sorted h
    · exact h
    · exact h

/-- The entries that are made from those that are written: one for each block that is taken. -/
theorem foldl_after_blocks {L : Layout} {place : Nat → Nat} {ws : List PoolInfo} {s : Restored} :
    ∃ new, (ws.foldl (Restored.after L place) s).rootInfo = new ++ s.rootInfo ∧ (∀ x ∈ new, x.type ≠ .wasmInterpFrameT ∧ ∃ i, x.pRaw = place i) ∧
      ∃ k, (ws.foldl (Restored.after L place) s).blocks = s.blocks + k ∧ new.map (·.pRaw) = ((List.range' s.blocks k).map place).reverse := by
  induction ws generalizing s with
  | nil => exact ⟨[], rfl, by simp, 0, rfl, rfl⟩
  | cons e ws ih =>
    obtain ⟨new, hinfo, htypes, k, hblocks, hraw⟩ := @ih (s.after L place e)
    rw [List.foldl_cons]
    rcases after_rootInfo L place s e with ⟨h1, h2, -⟩ | ⟨x, h1, -, h2, hx, htype, hk, -⟩
    · rw [h1] at hinfo
      rw [h2] at hblocks hraw
      exact ⟨new, hinfo, htypes, k, hblocks, hraw⟩
    rw [h1] at hinfo
    rw [h2] at hblocks hraw
    refine ⟨new ++ [x], by rw [hinfo, List.append_assoc]; rfl, ?_, k + 1, by rw [hblocks]; omega, ?_⟩
    · intro y hy
      rcases List.mem_append.1 hy with hy | hy
      · exact htypes y hy
      rw [List.mem_singleton.1 hy]
      refine ⟨fun ht => hk ?_, _, hx⟩
      rw [← htype, ht]
      rfl
    · rw [List.map_append, hraw, List.range'_succ, @List.map_cons _ _ place, List.reverse_cons, ← hx]
      rfl

theorem kind_eq_frame {t : DataType} : kind t = .frame ↔ t = .wasmInterpFrameT := by
  cases t <;> simp [kind]

theorem writtenFrames_eq (es : List PoolInfo) : writtenFrames es = es.filter (·.type = .wasmInterpFrameT) := by
  rw [writtenFrames, written, List.filter_filter]
  refine List.filter_congr fun e _ => ?_
  rw [Bool.eq_iff_iff]
  simp only [kind_eq_frame, Bool.and_eq_true, decide_eq_true_eq, Bool.not_eq_true']
  exact ⟨fun h => h.1, fun h => ⟨h, by rw [h]; rfl⟩⟩

section Frames
variable {L : Layout} {w : World} {P : Process} {cs : List Nat}

theorem waiting_sorted {pool : Nat} {size : Nat → Nat} (hpool : ∀ a ∈ cs, pool ≤ a ∧ a < pool + 2 ^ 31) (hdesc : cs.Pairwise (· > ·)) :
    (cs.map fun a => waiting pool a (size a)).reverse.Pairwise fun a b => toInt a.pAbs ≤ toInt b.pAbs := by
  rw [List.pairwise_reverse, List.pairwise_map]
  refine (List.pairwise_iff_forall_sublist.2 fun {a b} hab => ?_)
  have ha := hpool a (hab.subset List.mem_cons_self)
  have hb := hpool b (hab.subset (List.mem_cons_of_mem _ List.mem_cons_self))
  have hlt : a > b := List.pairwise_iff_forall_sublist.1 hdesc hab
  show toInt (absOf pool b) ≤ toInt (absOf pool a)
  rw [toInt_absOf ha, toInt_absOf hb]
  omega

theorem Consistent.writtenFrames_perm (h : Consistent w cs) : ((writtenFrames w.translated).map fun e =>
      (⟨e.pAbs, 0, e.size, e.type, [], 0⟩ : PoolInfo)).Perm (cs.map fun a => waiting w.m.registry.pool a (w.m.frames a).size) := by
  have hmap : ((writtenFrames w.translated).map fun e =>
      (⟨e.pAbs, 0, e.size, e.type, [], 0⟩ : PoolInfo)) =
      ((frameEntries w.m.registry).map fun e => (e.pRaw, e.size)).map
        fun p => ⟨absOf w.m.registry.pool p.1, 0, p.2, .wasmInterpFrameT, [], 0⟩ := by
    rw [writtenFrames_eq, filter_map_translate fun _ => rfl, List.map_map, List.map_map]
    refine List.map_congr_left fun e he => ?_
    have ht : e.type = .wasmInterpFrameT := by simpa using (List.mem_filter.1 he).2
    simp only [Function.comp_apply, absTranslate, ht]
  have hperm := h.frames.map fun p => (⟨absOf w.m.registry.pool p.1, 0, p.2, .wasmInterpFrameT, [], 0⟩ : PoolInfo)
  rw [hmap]
  rwa [List.map_map (l := cs)] at hperm

theorem Ready.written (hr : Ready L w P) : ∀ e ∈ written w.translated, Readable L e := by
  intro e he
  rw [Image.written, filter_map_translate fun _ => rfl] at he
  obtain ⟨x, hx, rfl⟩ := List.mem_map.1 he
  exact readable_translate (hr.readable x hx)

/-- `root_frame` as `restore_runtime` builds it: the frames of the chain, from the bottom of the stack. -/
theorem Consistent.rootFrame (h : Consistent w cs) (hr : Ready L w P) (place : Nat → Nat) (own : List PoolInfo) :
    ((written w.translated).foldl (Restored.after L place) ⟨own, [], 0⟩).rootFrame =
      (cs.map fun a => waiting w.m.registry.pool a (w.m.frames a).size).reverse := by
  have hpool := fun a ha => (hr.frames cs h.linked a ha).1
  have hread : ∀ e ∈ written w.translated, Readable L e := hr.written
  obtain ⟨-, -, -, hperm⟩ := @foldl_after L place ⟨own, [], 0⟩ _ (fun e he => not_dropped he) hread
  rw [List.append_nil] at hperm
  have hperm' := hperm.trans h.writtenFrames_perm
  refine List.Perm.eq_of_pairwise ?_ (foldl_after_sorted List.Pairwise.nil) (waiting_sorted hpool h.tiled.pairwise)
    (hperm'.trans (List.reverse_perm _).symm)
  -- entries with the same offset are those of one frame
  intro x y hx hy hxy hyx
  obtain ⟨a, ha, rfl⟩ := List.mem_map.1 (hperm'.subset hx)
  obtain ⟨b, hb, rfl⟩ := List.mem_map.1 (List.mem_reverse.1 hy)
  have heq : toInt (absOf w.m.registry.pool a) = toInt (absOf w.m.registry.pool b) := Int.le_antisymm hxy hyx
  rw [toInt_absOf (hpool a ha), toInt_absOf (hpool b hb)] at heq
  obtain rfl : a = b := by omega
  rfl

theorem accum_placeFrame {boundary : Nat} {fs : List PoolInfo} {T : Taken} : (accum (placeFrame boundary) T fs).1 = fs.foldl (Taken.take boundary) T ∧
      (fs.foldl (Taken.take boundary) T).infos = T.infos ++ (accum (placeFrame boundary) T fs).2 := by
  induction fs generalizing T with
  | nil => exact ⟨rfl, (List.append_nil _).symm⟩
  | cons e fs ih =>
    obtain ⟨h1, h2⟩ := @ih (T.take boundary e)
    refine ⟨h1, h2.trans ?_⟩
    have hinfos : (T.take boundary e).infos = T.infos ++ [{ e with pRaw := (T.take boundary e).prev }] := by
      unfold Taken.take
      split <;> rfl
    rw [hinfos, List.append_assoc]
    rfl

theorem restoreFields_run {infos es : List PoolInfo} {old frames : Nat → FrameFields} {new : Nat → Nat}
    (hinfo : ∀ e ∈ es, ∃ i, getFrameInfo infos e.pAbs = .ok (some i) ∧ i.pRaw = new e.pRaw) (hne : ∀ e ∈ es, new e.pRaw ≠ 0)
    (hcode : ∀ e ∈ es, (old e.pRaw).isNative = false) (hnodup : (es.map fun e => new e.pRaw).Nodup) :
    ∃ frames', restoreFields infos old es frames = .ok frames' ∧ (∀ x, (∀ e ∈ es, x ≠ new e.pRaw) → frames' x = frames x) ∧
      ∀ e ∈ es, frames' (new e.pRaw) = (old e.pRaw).comeBack (frames (new e.pRaw)) := by
  induction es generalizing frames with
  | nil => exact ⟨frames, rfl, fun _ _ => rfl, by simp⟩
  | cons e es ih =>
    obtain ⟨⟨i, hi, hraw⟩, hinfos⟩ := List.forall_mem_cons.1 hinfo
    obtain ⟨hne, hnes⟩ := List.forall_mem_cons.1 hne
    obtain ⟨hcode, hcodes⟩ := List.forall_mem_cons.1 hcode
    obtain ⟨hnot, hnodup⟩ := List.nodup_cons.1 hnodup
    have hapart : ∀ x ∈ es, new x.pRaw ≠ new e.pRaw := fun x hx heq => hnot (List.mem_map.2 ⟨x, hx, heq⟩)
    obtain ⟨frames', hrun, hkeep, hback⟩ :=
      @ih (Function.update frames (new e.pRaw) ((old e.pRaw).comeBack (frames (new e.pRaw)))) hinfos hnes hcodes hnodup
    refine ⟨frames', ?_, ?_, List.forall_mem_cons.2 ⟨?_, ?_⟩⟩
    · rw [restoreFields, hi]
      simp only [hraw, hne, hcode, Bool.false_eq_true, or_self, if_false]
      exact hrun
    · intro x hx
      obtain ⟨hxe, hxs⟩ := List.forall_mem_cons.1 hx
      rw [hkeep x hxs, Function.update_of_ne hxe]
    · rw [hkeep _ fun x hx => (hapart x hx).symm, Function.update_self]
    · intro x hx
      rw [hback x hx, Function.update_of_ne (hapart x hx)]

theorem TakenFor.size {m : Machine} {start top a : Nat} {T : Taken} {stale : Nat → Bool} (hT : TakenFor m start top cs T)
    (hst : Stack m cs) (hstack : m.topBoundary < m.bottom + 2 ^ 32) (ha : a ∈ cs) :
    (takenFields T stale (a - m.bottom + start)).size = (m.frames a).size := by
  have hbot := fun b hb => (hst.tiled.bounds.2 b hb).1
  have hroom := hst.room a ha
  have hlow := hbot a ha
  have hsize : (UInt32.ofNat (m.frames a).size).toNat = (m.frames a).size :=
    UInt32.toNat_ofNat_of_lt' (by unfold UInt32.size; omega)
  show ((T.infos.find? (·.pRaw = a - m.bottom + start)).map (·.size.toNat)).getD 0 = _
  cases hfind : T.infos.find? (·.pRaw = a - m.bottom + start) with
  | none =>
    rw [List.find?_eq_none] at hfind
    refine absurd (hfind { waiting m.registry.pool a (m.frames a).size with pRaw := a - m.bottom + start } ?_) (by simp)
    rw [hT.infos, List.mem_reverse]
    exact List.mem_map_of_mem ha
  | some i =>
    have hmem := List.mem_of_find?_eq_some hfind
    have hraw : i.pRaw = a - m.bottom + start := by simpa using List.find?_some hfind
    rw [hT.infos, List.mem_reverse] at hmem
    obtain ⟨b, hb, rfl⟩ := List.mem_map.1 hmem
    have hlow' := hbot b hb
    obtain rfl : b = a := by
      have : b - m.bottom + start = a - m.bottom + start := hraw
      omega
    exact hsize

/-! ## The calls in progress -/

/-- The calls in progress when the frames have moved: the resumed call is all that is left. -/
theorem Acts.moved {frames frames' : Nat → FrameFields} {new : Nat → Nat} {rest : List Act} {b p : Nat}
    (h : Acts frames (.code b p :: rest) cs) (hb : b ≠ 0) (hnew : ∀ a ∈ cs, new a ≠ 0)
    (hcode : ∀ a ∈ cs, IsCode (frames a) → IsCode (frames' (new a)))
    (hset : ∀ a ∈ cs, IsCode (frames a) → (frames a).ip = true → (frames' (new a)).ip = true)
    (hnull : ∀ a ∈ cs.tail, (frames a).ip = false → (frames' (new a)).ip = false) : Acts frames' [.code (new b) (new p)] (cs.map new) := by
  obtain ⟨l, hl⟩ : ∃ l, l = Act.code b p :: rest := ⟨_, rfl⟩
  rw [← hl] at h
  induction h generalizing b p rest with
  | nil | host h ht hi hf ih | nativeOfCode h ha ih | nativeOfHost h ih => cases hl
  | start h hf ih =>
    cases hl
    exact absurd rfl hb
  | resume hb' hi hfn =>
    cases hl
    refine .resume (hnew _ List.mem_cons_self) ?_ (hcode _ List.mem_cons_self hfn)
    exact hnull _ List.mem_cons_self hi
  | enter h hb' hfn ih =>
    cases hl
    -- the caller is the frame of the call from the host
    have hi : ∀ {a : Nat} {acts : List Act} {ds : List Nat}, Acts frames (.code 0 a :: acts) (a :: ds) → (frames a).ip = false := by
      intro a acts ds h
      cases h with
      | start h hf =>
        obtain ⟨-, -, -, -, -, hi, -⟩ := h.host_inv
        exact hi
      | resume hb | enter _ hb | call _ _ _ hb => exact absurd rfl hb
    refine .resume (hnew _ List.mem_cons_self) ?_ (hcode _ List.mem_cons_self hfn)
    exact hnull _ List.mem_cons_self (hi h)
  | call h ha hi hb' hfn ih =>
    cases hl
    have hbelow := ih ha (fun a ha => hnew a (List.mem_cons_of_mem _ ha)) (fun a ha => hcode a (List.mem_cons_of_mem _ ha))
      (fun a ha => hset a (List.mem_cons_of_mem _ ha)) (fun a ha => hnull a (List.mem_cons_of_mem _ ha)) rfl
    obtain ⟨-, -, hcaller, -⟩ := h.code_inv ha
    refine .call hbelow (hnew _ (List.mem_cons_of_mem _ List.mem_cons_self)) ?_ (hnew _ List.mem_cons_self)
      (hcode _ List.mem_cons_self hfn)
    exact hset _ (List.mem_cons_of_mem _ List.mem_cons_self) hcaller hi

theorem Tiled.moved {frames frames' : Nat → FrameFields} {bottom top start : Nat} (h : Tiled frames bottom top cs)
    (hsize : ∀ a ∈ cs, (frames' (a - bottom + start)).size = (frames a).size) :
    Tiled frames' start (top - bottom + start) (cs.map fun a => a - bottom + start) := by
  induction cs generalizing top with
  | nil =>
    obtain rfl : top = bottom := h
    show top - top + start = start
    omega
  | cons a cs ih =>
    obtain ⟨htop, hlow, hrest⟩ := h
    obtain ⟨ha, hcs⟩ := List.forall_mem_cons.1 hsize
    have hbot := hrest.bounds.1
    refine ⟨?_, by rw [ha]; exact hlow, ih hrest hcs⟩
    show top - bottom + start = a - bottom + start + (frames' (a - bottom + start)).size
    omega

theorem Chained.linked {frames : Nat → InterpFrame} {frames' : Nat → FrameFields} {a : Nat} {bs : List Nat} (h : Chained frames a bs)
    (hf : ∀ b ∈ bs, (frames' b).prevFrame = (frames b).prevFrame) : Linked frames' a bs := by
  induction bs generalizing a with
  | nil => exact h
  | cons b bs ih =>
    obtain ⟨hab, hne, hrest⟩ := h
    obtain ⟨hb, hbs⟩ := List.forall_mem_cons.1 hf
    refine ⟨hab, hne, ?_⟩
    rw [hb]
    exact ih hrest hbs

/-! ## The new process -/

@[simp] theorem comeBack_prevFrame (old f : FrameFields) : (old.comeBack f).prevFrame = f.prevFrame := by
  unfold FrameFields.comeBack
  split <;> rfl

@[simp] theorem comeBack_size (old f : FrameFields) : (old.comeBack f).size = f.size := by
  unfold FrameFields.comeBack
  split <;> rfl

@[simp] theorem comeBack_function (old f : FrameFields) : (old.comeBack f).function = old.function := by
  unfold FrameFields.comeBack
  split
  · next h => exact h.symm
  · next h => exact h.symm

theorem Consistent.records (h : Consistent w cs) : ((writtenFrames w.translated).map (·.pRaw)).Perm cs ∧
      ∀ e ∈ writtenFrames w.translated, e.pAbs = absOf w.m.registry.pool e.pRaw := by
  rw [writtenFrames_eq, filter_map_translate fun _ => rfl]
  constructor
  · have hperm := h.frames.map Prod.fst
    rw [List.map_map, List.map_map] at hperm
    rw [List.map_map]
    exact hperm.trans (List.Perm.of_eq (List.map_id _))
  · intro e he
    obtain ⟨x, -, rfl⟩ := List.mem_map.1 he
    rfl

/-- The fields of the frames in the new process. -/
structure FramesBack (w : World) (P : Process) (cs : List Nat) (T : Taken) (frames : Nat → FrameFields) : Prop where
  taken : TakenFor w.m P.start w.m.top cs T
  back : ∀ a ∈ cs, frames (a - w.m.bottom + P.start) = (w.synced a).comeBack (takenFields T P.stale (a - w.m.bottom + P.start))

theorem Consistent.framesBack (h : Consistent w cs) (hr : Ready L w P) :
    ∃ T frames, (cs.map fun a => waiting w.m.registry.pool a (w.m.frames a).size).reverse.foldl (Taken.take P.boundary)
        ⟨P.start, 0, [], fun _ => blank⟩ = T ∧ restoreFields T.infos w.synced (writtenFrames w.translated) (takenFields T P.stale) =
        .ok frames ∧ FramesBack w P cs T frames := by
  obtain ⟨hperm, habs⟩ := h.records
  have hT := takenFor hr.start hr.boundary hr.stackSize h.tiled h.room
  generalize (cs.map fun a => waiting w.m.registry.pool a (w.m.frames a).size).reverse.foldl (Taken.take P.boundary)
    ⟨P.start, 0, [], fun _ => blank⟩ = T at hT ⊢
  have hpool := fun a ha => (hr.frames cs h.linked a ha).1
  have hmem : ∀ e ∈ writtenFrames w.translated, e.pRaw ∈ cs := fun e he =>
    hperm.subset (List.mem_map_of_mem he)
  have hfind : ∀ e ∈ writtenFrames w.translated,
      ∃ i, getFrameInfo T.infos e.pAbs = .ok (some i) ∧ i.pRaw = e.pRaw - w.m.bottom + P.start := fun e he => by
    rw [habs e he]
    exact hT.find hpool (hmem e he)
  have hcode : ∀ e ∈ writtenFrames w.translated, (w.synced e.pRaw).isNative = false := by
    intro e he
    have hsame : Same w.m (w.m.setFrame w.m.curFrame { w.m.frames w.m.curFrame with ip := true }) cs := Same.sync _ _
    have hfn : (w.synced e.pRaw).function = (w.m.frames e.pRaw).function := hsame.function _ (hmem e he)
    rw [FrameFields.isNative, hfn]
    cases hg : (w.m.frames e.pRaw).function with
    | none => rfl
    | some g => exact (hr.frames cs h.linked _ (hmem e he)).2 g hg
  have hnodup : ((writtenFrames w.translated).map fun e =>
      e.pRaw - w.m.bottom + P.start).Nodup := by
    have hmap := hperm.map fun a => a - w.m.bottom + P.start
    rw [List.map_map] at hmap
    refine hmap.nodup_iff.2 (List.Nodup.map_on ?_ h.tiled.nodup)
    intro a ha b hb heq
    have h1 := (h.tiled.bounds.2 a ha).1
    have h2 := (h.tiled.bounds.2 b hb).1
    omega
  have hstart := hr.start
  obtain ⟨frames, hrun, -, hback⟩ := @restoreFields_run T.infos _ w.synced (takenFields T P.stale)
    (fun a => a - w.m.bottom + P.start) hfind (fun e he => by omega) hcode hnodup
  refine ⟨T, frames, rfl, hrun, hT, fun a ha => ?_⟩
  obtain ⟨e, he, rfl⟩ := List.mem_map.1 (hperm.symm.subset ha)
  exact hback e he

theorem Consistent.shape_moved (h : Consistent w cs) (hr : Ready L w P) {T : Taken} {frames : Nat → FrameFields}
    (hb : FramesBack w P cs T frames) (R : Registry) : Shape ⟨P.start, P.boundary, T.top, T.prev, frames, R, [.code T.prev (frames T.prev).prevFrame]⟩
      (cs.map fun a => a - w.m.bottom + P.start) := by
  have hsize : ∀ a ∈ cs, (frames (a - w.m.bottom + P.start)).size = (w.m.frames a).size := fun a ha => by
    rw [hb.back a ha, comeBack_size]
    exact hb.taken.size h.toStack hr.stackSize ha
  have hlinked : Linked frames T.prev (cs.map fun a => a - w.m.bottom + P.start) := by
    refine hb.taken.chained.linked fun b hmem => ?_
    obtain ⟨a, ha, rfl⟩ := List.mem_map.1 hmem
    rw [hb.back a ha, comeBack_prevFrame]
    rfl
  have htop : T.top = w.m.top - w.m.bottom + P.start := by
    have h1 := hb.taken.top
    have h2 := h.tiled.bounds.1
    omega
  obtain ⟨b, p, rest, hacts, hne⟩ := hr.test
  have hrunning := h.toShape.running (by simp [hacts])
  rw [hacts] at hrunning
  obtain ⟨ds, rfl, -⟩ := hrunning.code_inv hne
  have hcur : w.m.curFrame = b := h.linked.1
  refine ⟨⟨hr.start, hlinked, ?_, ?_⟩, .inl ?_⟩
  · show Tiled frames P.start T.top _
    rw [htop]
    exact h.tiled.moved hsize
  · intro a' ha'
    obtain ⟨a, ha, rfl⟩ := List.mem_map.1 ha'
    have hroom := h.room a ha
    have hlow := (h.tiled.bounds.2 a ha).1
    have hbound := hr.boundary
    show a - w.m.bottom + P.start + (frames (a - w.m.bottom + P.start)).size * 2 ≤ P.boundary
    rw [hsize a ha]
    omega
  have hprev : T.prev = b - w.m.bottom + P.start := hlinked.1
  have hcaller : (frames T.prev).prevFrame = p - w.m.bottom + P.start := by
    rw [hprev]
    exact hlinked.2.2.1
  show Acts frames [.code T.prev (frames T.prev).prevFrame] _
  rw [hcaller, hprev]
  have hstart := hr.start
  have hfn : ∀ a ∈ b :: p :: ds, (w.synced a).function = (w.m.frames a).function := (Same.sync w.m.curFrame true).function
  refine @Acts.moved _ _ _ (fun a => a - w.m.bottom + P.start) _ _ _ hrunning hne (fun a _ => by omega) ?_ ?_ ?_
  · rintro a ha ⟨g, hg, hi⟩
    refine ⟨g, ?_, hi⟩
    rw [hb.back a ha, comeBack_function, hfn a ha, hg]
  · rintro a ha ⟨g, hg, hi⟩ hip
    have hsynced : (w.synced a).ip = true := by
      by_cases hac : a = w.m.curFrame
      · rw [hac]
        simp [World.synced, Machine.setFrame]
      · simpa [World.synced, Machine.setFrame, hac] using hip
    rw [hb.back a ha, FrameFields.comeBack, hfn a ha, hg]
    exact hsynced
  intro a ha hip
  have hnot : a ≠ w.m.curFrame := by
    rintro rfl
    rw [hcur] at ha
    exact (List.nodup_cons.1 h.tiled.nodup).1 ha
  have hsynced : w.synced a = w.m.frames a := by simp [World.synced, Machine.setFrame, hnot]
  rw [hb.back a (List.mem_cons_of_mem _ ha), FrameFields.comeBack, hsynced]
  split
  · exact hr.stale _
  · exact hip

end Frames

section Migrate
variable {L : Layout} {w w' : World} {P : Process} {cs : List Nat}

/-- A consistent process that is ready can be migrated, and is consistent again. -/
theorem Consistent.migrate (h : Consistent w cs) (hr : Ready L w P) :
    ∃ w' cs', w.migrate L P = .ok w' ∧ w'.m.acts.length = 1 ∧ Consistent w' cs' := by
  obtain ⟨N₁, hdump, hholds⟩ := h.dumped hr.resumed
  obtain ⟨hwrite, hread⟩ := @restoreInfos_image L P.place P.own _ hr.written
  obtain ⟨N₂, hload, hparts, hpool₂⟩ := @Parts.load _ L P.place (written w.translated)
    ⟨P.own, [], 0⟩ (hr.own.parts hr.rootFrame)
  have hroot := h.rootFrame hr P.place P.own
  obtain ⟨new, hnew, htypes, k, hblocks, hplaces⟩ := @foldl_after_blocks L P.place
    (written w.translated) ⟨P.own, [], 0⟩
  generalize hs : (written w.translated).foldl (Restored.after L P.place) ⟨P.own, [], 0⟩ = s
    at *
  rw [hroot, hnew] at hparts
  obtain ⟨T, frames, hT, hfields, hback⟩ := h.framesBack hr
  obtain ⟨N₃, hplace, hparts₃, hpool₃⟩ := hparts.placeFrames (placeFrame P.boundary) ⟨P.start, 0, [], fun _ => blank⟩
  obtain ⟨hfold, hinfos⟩ := @accum_placeFrame P.boundary (cs.map fun a => waiting w.m.registry.pool a (w.m.frames a).size).reverse
    ⟨P.start, 0, [], fun _ => blank⟩
  rw [hfold, hT] at hplace
  rw [hT, List.nil_append] at hinfos
  rw [← hinfos] at hparts₃
  obtain ⟨hparts₄, hpool₄⟩ := hparts₃.addAll P.wasi
  have hne : T.infos ≠ [] := by
    obtain ⟨b, p, rest, hacts, hb⟩ := hr.test
    have hrunning := h.toShape.running (by simp [hacts])
    rw [hacts] at hrunning
    obtain ⟨ds, rfl, -⟩ := hrunning.code_inv hb
    rw [hback.taken.infos]
    simp
  obtain ⟨N₄, hjoin, hholds₄, hpool₅⟩ := hparts₄.joinFrames hne
  have hframes : ∀ e ∈ T.infos, e.type = .wasmInterpFrameT := by
    intro e he
    rw [hback.taken.infos, List.mem_reverse] at he
    obtain ⟨a, -, rfl⟩ := List.mem_map.1 he
    rfl
  have hothers : Apart P.start P.boundary (P.wasi ++ (new ++ P.own)) := by
    intro e he
    rcases List.mem_append.1 he with hwasi | he
    · exact hr.apart e (List.mem_append_left _ hwasi)
    rcases List.mem_append.1 he with hmade | hown
    · obtain ⟨htype, i, hi⟩ := htypes e hmade
      rw [hi]
      exact ⟨htype, hr.place i⟩
    · exact hr.apart e (List.mem_append_right _ hown)
  have hframeEntries : frameEntries ⟨P.pool, T.infos ++ (P.wasi ++ s.rootInfo), T.infos⟩ = T.infos := by
    rw [frameEntries, hnew, List.filter_append, List.filter_eq_self.2 fun e he => by simpa using hframes e he,
      List.filter_eq_nil_iff.2 fun e he => by simpa using (hothers e he).1, List.append_nil]
  have hblockEntries : blockEntries ⟨P.pool, T.infos ++ (P.wasi ++ s.rootInfo), T.infos⟩ = P.wasi ++ (new ++ P.own) := by
    rw [blockEntries, hnew, List.filter_append, List.filter_eq_nil_iff.2 fun e he => by simpa using hframes e he,
      List.filter_eq_self.2 fun e he => by simpa using (hothers e he).1, List.nil_append]
  refine ⟨{
    m := ⟨P.start, P.boundary, T.top, T.prev, frames, ⟨P.pool, T.infos ++ (P.wasi ++ s.rootInfo), T.infos⟩,
      [.code T.prev (frames T.prev).prevFrame]⟩
    nodes := N₄
    live := P.wasi.map (·.pRaw) ++ ((List.range s.blocks).map P.place ++ P.own.map (·.pRaw))
    restored := true }, _, ?_, rfl, h.shape_moved hr hback _, ?_, ?_, ?_, ?_, ?_, ?_⟩
  · simp only [World.migrate, hdump, hholds.infos, hwrite, hread, hload, hplace, hfields, hjoin, bind, Except.bind, pure, Except.pure]
  · rw [hnew]
    exact hholds₄
  · exact hpool₅.trans (hpool₄.trans (hpool₃.trans (hpool₂.trans hr.pool)))
  · show ((frameEntries ⟨P.pool, T.infos ++ (P.wasi ++ s.rootInfo), T.infos⟩).map _).Perm _
    rw [hframeEntries, hback.taken.infos, List.map_reverse, List.map_map, List.map_map]
    refine (List.reverse_perm _).trans (List.Perm.of_eq (List.map_congr_left fun a ha => ?_))
    show (a - w.m.bottom + P.start, UInt32.ofNat (w.m.frames a).size) = (_, UInt32.ofNat (frames (a - w.m.bottom + P.start)).size)
    rw [hback.back a ha, comeBack_size, hback.taken.size h.toStack hr.stackSize ha]
  · intro e he htype
    rcases List.mem_append.1 he with he | he
    · exact absurd (hframes e he) htype
    · rw [hnew] at he
      exact (hothers e he).2
  · show ((blockEntries ⟨P.pool, T.infos ++ (P.wasi ++ s.rootInfo), T.infos⟩).map _).Perm _
    rw [hblockEntries, List.map_append, List.map_append, hplaces, hblocks, Nat.zero_add, List.range_eq_range']
    exact ((List.reverse_perm _).append_right _).append_left _
  · intro hf
    cases hf

end Migrate

theorem Fresh.consistent {L : Layout} {w : World} (h : Fresh L w) : Consistent w [] := by
  have hnone : frameEntries w.m.registry = [] := List.filter_eq_nil_iff.2 fun e he => by simpa using (h.blocks e he).1
  have hall : blockEntries w.m.registry = w.m.registry.rootInfo := List.filter_eq_self.2 fun e he => by simpa using (h.blocks e he).1
  refine ⟨h.toInitial.shape, h.holds, h.pool, ?_, fun e he _ => (h.blocks e he).2, ?_, fun _ e he => translate_registered (h.registered e he)⟩
  · rw [hnone]
    exact List.Perm.nil
  · rw [hall, h.live]

theorem Lineage.consistent {L : Layout} {w₀ w : World} {n : Nat} (h₀ : Fresh L w₀) (h : Lineage L w₀ n w) : ∃ cs, Consistent w cs := by
  induction h with
  | refl => exact ⟨[], h₀.consistent⟩
  | event _ he ha ht ih =>
    obtain ⟨cs, hc⟩ := ih
    exact hc.event he ha ht
  | migrate _ hm hr ih =>
    obtain ⟨cs, hc⟩ := ih
    obtain ⟨w', cs', hm', -, hc'⟩ := hc.migrate hr
    rw [hm] at hm'
    cases hm'
    exact ⟨cs', hc'⟩

/-- The first process, with an empty registry. -/
def first : World := ⟨idle, ⟨1024, fun _ => none, 0, 0, 0⟩, [], false⟩

theorem first_fresh : Fresh layout8 first where
  toInitial := idle_initial
  holds := ⟨[], .nil, rfl, List.nodup_nil, by simp⟩
  pool := rfl
  registered := fun _ he => absurd he List.not_mem_nil
  live := rfl
  restored := rfl

/-- A process with its pool and its stack elsewhere. -/
def elsewhere (pool : Nat) : Process where
  pool := pool
  own := []
  nodes := ⟨pool, fun _ => none, 0, 0, 0⟩
  place := fun i => pool + 65536 + 8 * i
  start := pool + 4096
  boundary := pool + 6144
  wasi := []
  stale := fun _ => false

/-- A sequence of events of the machine that a program can do and that are tidy, in any state, is one of the process. -/
theorem Lineage.events {L : Layout} {w₀ w : World} {n : Nat} {es : List Event} {m' : Machine} (h₀ : Fresh L w₀) (h : Lineage L w₀ n w)
    (hes : ∀ e ∈ es, ∀ w, e.Allowed L w ∧ Tidy w.m e) (hs : es.foldlM step w.m = some m') :
    ∃ w', es.foldlM World.event w = some w' ∧ w'.m = m' ∧ w'.restored = w.restored ∧ Lineage L w₀ n w' := by
  induction es generalizing w with
  | nil =>
    cases hs
    exact ⟨w, rfl, rfl, rfl, h⟩
  | cons e es ih =>
    obtain ⟨he, hes⟩ := List.forall_mem_cons.1 hes
    obtain ⟨m₁, hstep, hrest⟩ := Option.bind_eq_some_iff.1 hs
    obtain ⟨cs, hc⟩ := h.consistent h₀
    obtain ⟨N₁, hevent, -⟩ := World.event_of_step hc.holds hstep fun addr hf => hc.any_freed (he w).1 hf
    obtain ⟨w', hw', hm', hr', hl'⟩ := ih (h.event hevent (he w).1 (he w).2) hes hrest
    exact ⟨w', Option.bind_eq_some_iff.2 ⟨_, hevent, hw'⟩, hm', hr', hl'⟩

/-- A sequence of events of the machine in a process that was not restored is one of the process. -/
theorem World.events {w : World} {es : List Event} {m' : Machine} (h : Holds w.nodes w.m.registry.rootInfo)
    (hf : w.m.registry.rootFrame = []) (hs : es.foldlM step w.m = some m') :
    ∃ w', es.foldlM World.event w = some w' ∧ w'.m = m' ∧ Holds w'.nodes m'.registry.rootInfo := by
  induction es generalizing w with
  | nil =>
    cases hs
    exact ⟨w, rfl, rfl, h⟩
  | cons e es ih =>
    obtain ⟨m₁, hstep, hrest⟩ := Option.bind_eq_some_iff.1 hs
    have hfree : ∀ addr, freed w.m e = some addr → w.m.registry.rootInfo.any (·.pRaw == addr) = true ∧ m₁.registry.rootFrame = [] := by
      intro addr ha
      have hreg := freed_of_step hstep ha
      rw [Registry.freeInfo, hf] at hreg
      split at hreg
      · next hany =>
        rw [← Option.some.inj hreg]
        exact ⟨hany, rfl⟩
      · cases hreg
    have hkeep : m₁.registry.rootFrame = [] := by
      cases ha : freed w.m e with
      | some addr => exact (hfree addr ha).2
      | none =>
        rcases atMostOne_of_step hstep ha with heq | ⟨x, heq⟩
        · rw [heq, hf]
        · rw [heq]
          exact hf
    obtain ⟨N₁, hevent, hholds, -⟩ := World.event_of_step h hstep fun addr ha => (hfree addr ha).1
    obtain ⟨w', hw', hm', hh'⟩ := ih (w := ⟨m₁, N₁, liveAfter w.live e, w.restored⟩) hholds hkeep hrest
    exact ⟨w', Option.bind_eq_some_iff.2 ⟨_, hevent, hw'⟩, hm', hh'⟩

/-- A function that the host has called is stopped in its first instruction; it can be restored elsewhere. -/
theorem first_ready : ∃ w, [.hostCall leaf, .start, .enter].foldlM World.event first = some w ∧ Lineage layout8 first 0 w ∧
    Ready layout8 w (elsewhere 2048) := by
  have hrun : ∃ m, [.hostCall leaf, .start, .enter].foldlM step idle = some m ∧
      (m.bottom = 4096 ∧ m.topBoundary = 6144 ∧ m.curFrame = 4180) ∧ m.acts = [.code 4180 4096, .host 0 4096 leaf true] ∧
      m.frames 4180 = ⟨4096, some leaf, false, 180⟩ ∧ m.frames 4096 = ⟨0, none, false, 84⟩ ∧
      m.registry = ⟨1024, [frameEntry 1024 4180 180, frameEntry 1024 4096 84], []⟩ := ⟨_, rfl, ⟨rfl, rfl, rfl⟩, rfl, rfl, rfl, rfl⟩
  obtain ⟨m, hm, ⟨hbottom, htop, hcur⟩, hacts, hcallee, hcaller, hreg⟩ := hrun
  obtain ⟨w, hw, rfl, hfirst, hlineage⟩ :=
    @Lineage.events layout8 first first 0 _ _ first_fresh .refl (by simp [Tidy, Event.Allowed, leaf_fits]) hm
  have hchain : ∀ cs, Linked w.m.frames w.m.curFrame cs → cs = [4180, 4096] := by
    intro cs hlinked
    rw [hcur] at hlinked
    rcases cs with _ | ⟨_, cs⟩
    · cases hlinked
    obtain ⟨rfl, -, h⟩ := hlinked
    rw [hcallee] at h
    rcases cs with _ | ⟨_, cs⟩
    · cases h
    obtain ⟨rfl, -, h⟩ := h
    rw [hcaller] at h
    rcases cs with _ | ⟨_, cs⟩
    · rfl
    · exact absurd h.1.symm h.2.1
  have hplace : ∀ i, ¬((elsewhere 2048).start ≤ (elsewhere 2048).place i ∧ (elsewhere 2048).place i ≤ (elsewhere 2048).boundary) := by
    intro i
    simp only [elsewhere]
    omega
  exact ⟨w, hw, hlineage, {
    test := ⟨_, _, _, hacts, by decide⟩
    resumed := fun h => absurd (hfirst.symm.trans h) Bool.false_ne_true
    readable := by simp [hreg, written, isSkipped, frameEntry, Readable, kind]
    frames := by
      intro cs hlinked
      rw [hchain cs hlinked]
      simp [hreg, hcallee, hcaller, leaf]
    stackSize := by simp [hbottom, htop]
    start := by decide
    boundary := by simp [hbottom, htop, elsewhere]
    own := ⟨[], .nil, rfl, List.nodup_nil, by simp⟩
    rootFrame := rfl
    pool := rfl
    apart := fun _ he => absurd he List.not_mem_nil
    place := hplace
    stale := fun _ => rfl }⟩

/-- A native function without parameters. -/
def callback : Func := ⟨true, 0, 0, 0, 0, 0⟩

/-- The process that the function is restored in: the entries of its frames have the offsets of the first one. -/
theorem restored_elsewhere : ∃ w w₁, [.hostCall leaf, .start, .enter].foldlM World.event first = some w ∧
    w.migrate layout8 (elsewhere 2048) = .ok w₁ ∧ w₁.m.acts = [.code 6228 6144] ∧ w₁.m.topBoundary = 8192 ∧ w₁.m.top = 6408 ∧
    w₁.m.registry.pool = 2048 ∧ w₁.m.registry.rootInfo = [⟨3072, 6144, 84, .wasmInterpFrameT, [], 0⟩, ⟨3156, 6228, 180, .wasmInterpFrameT, [], 0⟩] :=
  ⟨_, _, rfl, rfl, rfl, rfl, rfl, rfl, rfl⟩

end WamrMigrate.Interp
