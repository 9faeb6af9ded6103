import WamrMigrate.Image.LiveCalls

/-!
# Runs that keep the registry exact

The groups of blocks of `wasm_runtime_init_wasi`, and then any sequence of calls: the blocks are registered exactly while in use, and the process
does not end in `free_info`, exactly when all calls are of the kind that keeps the registry exact.
-/

namespace WamrMigrate.Image

/-! ## Groups of blocks -/

section Groups
variable {L : Layout} {s : Runtime} {U : List Nat} {rs : List Request} {ps : List Nat}
variable {p : Nat} {infos : List Info} {earlier : List Nat}

theorem mem_nonNull : p ∈ nonNull ps ↔ p ∈ ps ∧ p ≠ 0 := by
  rw [nonNull, List.mem_filter, decide_eq_true_iff]

theorem nonNull_cons_zero : nonNull (0 :: ps) = nonNull ps := rfl

theorem nonNull_cons (h0 : p ≠ 0) : nonNull (p :: ps) = p :: nonNull ps :=
  List.filter_cons_of_pos (decide_eq_true h0)

theorem nonNull_append (ps qs : List Nat) : nonNull (ps ++ qs) = nonNull ps ++ nonNull qs := List.filter_append ..

theorem Runtime.Pending.congr {V : List Nat} (h : s.Pending U) (hp : U.Perm V) : s.Pending V :=
  ⟨(hp.symm.append_left _).trans h.perm, h.nodup, h.ne_zero, fun _ hv => h.sub (hp.mem_iff.2 hv)⟩

theorem Runtime.Pending.nodup_pending (h : s.Pending U) : U.Nodup := (List.nodup_append.1 (h.perm.nodup_iff.2 h.nodup)).2.1

/-- What is granted after the blocks `as` is granted when these are in use. -/
theorem Runtime.Grants.after {s' : Runtime} {as bs : List Nat} (h : s.Grants (as ++ bs))
    (hu : ∀ a ∈ s'.used, a ∈ s.used ∨ a ∈ as) : s'.Grants bs := by
  obtain ⟨hnodup, hfresh⟩ := h
  rw [nonNull_append] at hnodup
  obtain ⟨-, hbs, hdisj⟩ := List.nodup_append.1 hnodup
  refine ⟨hbs, fun b hb => ?_⟩
  by_cases h0 : b = 0
  · exact .inl h0
  refine Or.inr fun hmem => ?_
  rcases hu b hmem with hmem | hmem
  · exact (hfresh b (List.mem_append_right _ hb)).not_mem h0 hmem
  · exact hdisj b (mem_nonNull.2 ⟨hmem, h0⟩) b (mem_nonNull.2 ⟨hb, h0⟩) rfl

theorem allGranted_cons {r : Request} : AllGranted (r :: rs) ↔ ¬r.Refused ∧ AllGranted rs := List.forall_mem_cons

theorem mallocAll_cons (s : Runtime) (r : Request) (rs : List Request) : (r.Refused ∧ s.mallocAll (r :: rs) = (s, false, [])) ∨
    (¬r.Refused ∧ r.Skipped ∧ s.mallocAll (r :: rs) = ((s.mallocAll rs).1, (s.mallocAll rs).2.1, 0 :: (s.mallocAll rs).2.2)) ∨
    (¬r.Refused ∧ ¬r.Skipped ∧ r.answer ≠ 0 ∧ s.mallocAll (r :: rs) =
        (((s.wasmRuntimeMalloc r.answer).mallocAll rs).1, ((s.wasmRuntimeMalloc r.answer).mallocAll rs).2.1,
          r.answer :: ((s.wasmRuntimeMalloc r.answer).mallocAll rs).2.2)) := by
  cases r with
  | sized size answer =>
    simp only [Runtime.mallocAll, Request.Refused, Request.Skipped, Request.answer]
    by_cases hbig : 2 ^ 32 - 1 ≤ size
    · exact .inl ⟨.inl hbig, if_pos hbig⟩
    rw [if_neg hbig]
    by_cases h0 : size = 0
    · exact .inr (.inl ⟨by omega, h0, if_pos h0⟩)
    rw [if_neg h0]
    by_cases ha : answer = 0
    · exact .inl ⟨.inr ⟨h0, ha⟩, if_pos ha⟩
    · exact .inr (.inr ⟨by omega, h0, ha, if_neg ha⟩)
  | fixed answer =>
    simp only [Runtime.mallocAll, Request.Refused, Request.Skipped, Request.answer]
    by_cases ha : answer = 0
    · exact .inl ⟨ha, if_pos ha⟩
    · exact .inr (.inr ⟨ha, id, ha, if_neg ha⟩)

theorem mallocAll_fst_snd : (s.mallocAll rs).2.1 = true ↔ AllGranted rs := by
  induction rs generalizing s with
  | nil => exact iff_of_true rfl fun r hr => nomatch hr
  | cons r rs ih =>
    rw [allGranted_cons]
    rcases mallocAll_cons s r rs with ⟨href, he⟩ | ⟨href, -, he⟩ | ⟨href, -, -, he⟩
    · rw [he]
      exact iff_of_false Bool.false_ne_true fun h => h.1 href
    · rw [he, and_iff_right href]
      exact ih
    · rw [he, and_iff_right href]
      exact ih

theorem mallocAll_length (hg : AllGranted rs) : (s.mallocAll rs).2.2.length = rs.length := by
  induction rs generalizing s with
  | nil => rfl
  | cons r rs ih =>
    obtain ⟨hno, hg'⟩ := allGranted_cons.1 hg
    rcases mallocAll_cons s r rs with ⟨href, -⟩ | ⟨-, -, he⟩ | ⟨-, -, -, he⟩
    · exact absurd href hno
    · rw [he, List.length_cons, List.length_cons, ih hg']
    · rw [he, List.length_cons, List.length_cons, ih hg']

theorem wholeOrNothing_iff : WholeOrNothing rs ↔ AllGranted rs ∨ nonNull (s.mallocAll rs).2.2 = [] := by
  induction rs generalizing s with
  | nil => exact iff_of_true trivial (.inr rfl)
  | cons r rs ih =>
    rw [WholeOrNothing, allGranted_cons]
    rcases mallocAll_cons s r rs with ⟨href, he⟩ | ⟨href, hskip, he⟩ | ⟨href, hskip, h0, he⟩
    · rw [he]
      exact iff_of_true (.inl href) (.inr rfl)
    · rw [he, nonNull_cons_zero, or_iff_right href, and_iff_right hskip, and_iff_right href, ← ih]
      exact or_iff_left_of_imp fun hall => (ih (s := s)).2 (.inl hall)
    · rw [he, nonNull_cons h0, or_iff_right href, or_iff_right fun h => hskip h.1, and_iff_right href]
      exact (or_iff_left (List.cons_ne_nil _ _)).symm

theorem Runtime.Pending.mallocAll (h : s.Pending U) (hg : s.Grants (rs.map Request.answer)) :
    (s.mallocAll rs).1.Pending (nonNull (s.mallocAll rs).2.2 ++ U) ∧
      nonNull (s.mallocAll rs).2.2 ⊆ rs.map Request.answer ∧ s.blocks ⊆ (s.mallocAll rs).1.blocks ∧
      ∀ a ∈ (s.mallocAll rs).1.used, a ∈ s.used ∨ a ∈ rs.map Request.answer := by
  induction rs generalizing s U with
  | nil => exact ⟨h, List.nil_subset _, List.Subset.refl _, fun a ha => Or.inl ha⟩
  | cons r rs ih =>
    have hg' : s.Grants ([r.answer] ++ rs.map Request.answer) := hg
    rcases mallocAll_cons s r rs with ⟨-, he⟩ | ⟨-, -, he⟩ | ⟨-, -, h0, he⟩
    · rw [he]
      exact ⟨h, List.nil_subset _, List.Subset.refl _, fun a ha => Or.inl ha⟩
    · rw [he, nonNull_cons_zero]
      obtain ⟨hp, hsub, hblocks, hused⟩ := ih h (hg'.after fun a ha => Or.inl ha)
      exact ⟨hp, fun a ha => List.mem_cons_of_mem _ (hsub ha), hblocks, fun a ha => (hused a ha).imp id (List.mem_cons_of_mem _)⟩
    have hm := h.malloc ((hg.2 r.answer List.mem_cons_self).not_mem h0) h0
    have hnext : (s.wasmRuntimeMalloc r.answer).Grants (rs.map Request.answer) := by
      refine hg'.after fun a ha => ?_
      rw [Runtime.wasmRuntimeMalloc_eq h0] at ha
      rcases List.mem_cons.1 ha with rfl | ha
      · exact .inr List.mem_cons_self
      · exact .inl ha
    obtain ⟨hp, hsub, hblocks, hused⟩ := ih hm hnext
    rw [he, nonNull_cons h0]
    refine ⟨hp.congr List.perm_middle, List.cons_subset_cons _ hsub, ?_, fun a ha => ?_⟩
    · intro a ha
      apply hblocks
      rw [Runtime.wasmRuntimeMalloc_eq h0]
      exact List.mem_cons_of_mem _ ha
    rcases hused a ha with hmem | hmem
    · rw [Runtime.wasmRuntimeMalloc_eq h0] at hmem
      rcases List.mem_cons.1 hmem with rfl | hmem
      · exact .inr List.mem_cons_self
      · exact .inl hmem
    · exact .inr (List.mem_cons_of_mem _ hmem)

theorem Runtime.Pending.enterAll (h : s.Pending (nonNull ps ++ U)) (hlen : ps.length ≤ infos.length) :
    ∃ R, Runtime.enterAll L s (ps.zip infos) = .ok { s with registry := R } ∧ Runtime.Pending { s with registry := R } U := by
  induction ps generalizing s infos with
  | nil => exact ⟨s.registry, rfl, h⟩
  | cons p ps ih =>
    cases infos with
    | nil => exact absurd hlen (Nat.not_succ_le_zero _)
    | cons i infos =>
      rw [List.zip_cons_cons, Runtime.enterAll]
      by_cases h0 : p = 0
      · subst h0
        rw [if_pos rfl]
        exact ih h (Nat.le_of_succ_le_succ hlen)
      rw [nonNull_cons h0] at h
      obtain ⟨R, hrun, hR⟩ := Runtime.Pending.enter (L := L) (i := i) h
      obtain ⟨R', hrun', hR'⟩ := ih hR (Nat.le_of_succ_le_succ hlen)
      rw [if_neg h0, hrun]
      exact ⟨R', hrun', hR'⟩

/-- The blocks of a list, which may have NULL in it, are different blocks in use. -/
def Runtime.Holds (s : Runtime) (ps : List Nat) : Prop := (nonNull ps).Nodup ∧ nonNull ps ⊆ s.blocks

theorem Runtime.Holds.perm {qs : List Nat} (h : s.Holds ps) (hp : qs.Perm ps) : s.Holds qs :=
  ⟨((hp.filter _).nodup_iff).2 h.1, fun _ hq => h.2 ((hp.filter _).mem_iff.1 hq)⟩

/-- When the first block has been freed the others are still there. -/
theorem Runtime.Holds.tail {R : Registry} (h : s.Holds (p :: ps)) (h0 : p ≠ 0) :
    Runtime.Holds { s with blocks := s.blocks.erase p, registry := R } ps := by
  obtain ⟨hnodup, hsub⟩ := h
  rw [nonNull_cons h0] at hnodup hsub
  obtain ⟨hp, hps⟩ := List.nodup_cons.1 hnodup
  refine ⟨hps, fun q hq => (List.mem_erase_of_ne ?_).2 (hsub (List.mem_cons_of_mem p hq))⟩
  rintro rfl
  exact hp hq

theorem Runtime.Settled.freeAll (hs : s.Settled) (h : s.Holds ps) : Ends (s.freeAll ps) := by
  induction ps generalizing s with
  | nil => exact .ok hs
  | cons p ps ih =>
    rw [Runtime.freeAll]
    split
    · rename_i h0
      subst h0
      exact ih hs h
    rename_i h0
    have hp : p ∈ s.blocks := h.2 (by rw [nonNull_cons h0]; exact List.mem_cons_self)
    obtain ⟨R, hrun, hR⟩ := Runtime.Pending.free hs hp List.not_mem_nil
    rw [hrun]
    exact ih hR (h.tail h0)

theorem Runtime.Pending.freeAll {u : Nat} (hs : s.Pending U) (h : s.Holds ps) (hu : u ∈ U) (hmem : u ∈ ps) : s.freeAll ps = .error .freeInfo := by
  induction ps generalizing s with
  | nil => cases hmem
  | cons p ps ih =>
    rw [Runtime.freeAll]
    have hu0 : u ≠ 0 := hs.ne_zero_of_mem (List.mem_append_left _ (hs.sub hu))
    by_cases h0 : p = 0
    · subst h0
      rw [if_pos rfl]
      exact ih hs h ((List.mem_cons.1 hmem).resolve_left hu0)
    rw [if_neg h0]
    by_cases hpU : p ∈ U
    · rw [hs.free_pending hpU]
      rfl
    have hp : p ∈ s.blocks := h.2 (by rw [nonNull_cons h0]; exact List.mem_cons_self)
    obtain ⟨R, hrun, hR⟩ := hs.free hp hpU
    rw [hrun]
    refine ih hR (h.tail h0) ((List.mem_cons.1 hmem).resolve_left ?_)
    rintro rfl
    exact hpU hu

/-- A group that has been taken: its blocks have entries, and they and the earlier ones can be freed. -/
structure Runtime.Taken (s : Runtime) (rs : List Request) (earlier : List Nat) (s' : Runtime) (got : List Nat) : Prop where
  settled : s'.Settled
  holds : s'.Holds (got ++ earlier)
  used : ∀ a ∈ s'.used, a ∈ s.used ∨ a ∈ rs.map Request.answer

theorem Runtime.Settled.holds_mallocAll (hs : s.Settled) (hg : s.Grants (rs.map Request.answer))
    (he : s.Holds earlier) : (s.mallocAll rs).1.Holds ((s.mallocAll rs).2.2 ++ earlier) := by
  obtain ⟨hp, hsub, hblocks, -⟩ := Runtime.Pending.mallocAll hs hg
  rw [List.append_nil] at hp
  unfold Runtime.Holds
  rw [nonNull_append]
  refine ⟨List.nodup_append.2 ⟨hp.nodup_pending, he.1, ?_⟩, ?_⟩
  · rintro a ha b hb rfl
    exact (hg.2 a (hsub ha)).not_mem (mem_nonNull.1 hb).2 (List.mem_append_left _ (he.2 hb))
  intro a ha
  rcases List.mem_append.1 ha with ha | ha
  · exact hp.sub ha
  · exact hblocks (he.2 ha)

theorem wasiGroup_cases {failed : List Nat → List Nat}
    (next : Runtime → List Nat → Except Exit Runtime) (hs : s.Settled) (hg : s.Grants (rs.map Request.answer)) (hlen : rs.length ≤ infos.length)
    (he : s.Holds earlier) (hf : ∀ got, (failed got).Perm (got ++ earlier)) :
    (¬WholeOrNothing rs ∧ s.wasiGroup L rs infos failed next = .error .freeInfo) ∨
    (WholeOrNothing rs ∧ ¬AllGranted rs ∧ Ends (s.wasiGroup L rs infos failed next)) ∨ (WholeOrNothing rs ∧ AllGranted rs ∧
      ∃ s' got, s.Taken rs earlier s' got ∧ s.wasiGroup L rs infos failed next = next s' got) := by
  obtain ⟨hp, -, -, hused⟩ := Runtime.Pending.mallocAll hs hg
  have hholds := hs.holds_mallocAll hg he
  unfold Runtime.wasiGroup
  simp only
  by_cases hall : AllGranted rs
  · right
    right
    have hlen' : (s.mallocAll rs).2.2.length ≤ infos.length := by rwa [mallocAll_length hall]
    obtain ⟨R, hrun, hR⟩ := hp.enterAll (L := L) hlen'
    refine ⟨(wholeOrNothing_iff (s := s)).2 (.inl hall), hall, _, _, ⟨hR, hholds, hused⟩, ?_⟩
    rw [if_pos (mallocAll_fst_snd.2 hall), hrun]
    rfl
  rw [if_neg (mt mallocAll_fst_snd.1 hall)]
  have hperm := hholds.perm (hf (s.mallocAll rs).2.2)
  by_cases hw : WholeOrNothing rs
  · right
    left
    have hnone := ((wholeOrNothing_iff (s := s)).1 hw).resolve_left hall
    rw [hnone] at hp
    exact ⟨hw, hall, Runtime.Settled.freeAll hp hperm⟩
  left
  have hsome : nonNull (s.mallocAll rs).2.2 ≠ [] := fun hnone => hw ((wholeOrNothing_iff (s := s)).2 (.inr hnone))
  obtain ⟨u, hu⟩ := List.exists_mem_of_ne_nil _ hsome
  refine ⟨hw, hp.freeAll hperm (List.mem_append_left _ hu) ?_⟩
  exact (hf _).mem_iff.2 (List.mem_append_left _ (mem_nonNull.1 hu).1)

theorem wasiGroup_decided {Q : Prop} {failed : List Nat → List Nat} {next : Runtime → List Nat → Except Exit Runtime} (hs : s.Settled)
    (hg : s.Grants (rs.map Request.answer)) (hlen : rs.length ≤ infos.length) (he : s.Holds earlier)
    (hf : ∀ got, (failed got).Perm (got ++ earlier)) (hnext : ∀ s' got, s.Taken rs earlier s' got → Decided Q (next s' got)) :
    Decided (WholeOrNothing rs ∧ (AllGranted rs → Q)) (s.wasiGroup L rs infos failed next) := by
  rcases wasiGroup_cases (L := L) next hs hg hlen he hf with ⟨hw, hrun⟩ | ⟨hw, hno, hends⟩ | ⟨hw, hall, s', got, ht, hrun⟩
  · exact ⟨fun h => absurd h.1 hw, fun _ => Or.inl hrun⟩
  · exact ⟨fun _ => hends, fun h => absurd ⟨hw, fun hall => absurd hall hno⟩ h⟩
  · rw [hrun, and_iff_right hw, forall_prop_of_true hall]
    exact hnext s' got ht

end Groups

section Wasi
variable {L : Layout} {s : Runtime} {x : WasiInit}

theorem Runtime.Grants.left {as bs : List Nat} (h : s.Grants (as ++ bs)) : s.Grants as := by
  obtain ⟨hnodup, hfresh⟩ := h
  rw [nonNull_append] at hnodup
  exact ⟨(List.nodup_append.1 hnodup).1, fun a ha => hfresh a (List.mem_append_left _ ha)⟩

theorem wasiGroups_decided (hs : s.Settled) (hg : s.Grants ((x.argvRequests ++ (x.envRequests ++ x.tableRequests)).map Request.answer)) : Decided
      (WholeOrNothing x.argvRequests ∧ (AllGranted x.argvRequests →
          WholeOrNothing x.envRequests ∧ (AllGranted x.envRequests → WholeOrNothing x.tableRequests ∧ (AllGranted x.tableRequests → True))))
      (s.wasiGroup L x.argvRequests [.buf .charTT x.argc, .buf .charT x.argvBufSize] List.reverse fun s argv =>
        s.wasiGroup L x.envRequests [.buf .charTT x.envCount, .buf .charT x.envBufSize] (argv.reverse ++ ·.reverse) fun s env =>
        s.wasiGroup L x.tableRequests [.info .fdTableT, .info .fdPrestatsT, .info .argvEnvironValuesT]
          (· ++ (argv.reverse ++ env.reverse)) fun s tables => if x.rest then .ok s else s.freeAll (tables ++ (argv.reverse ++ env.reverse))) := by
  rw [List.map_append, List.map_append] at hg
  have hnone : s.Holds [] := ⟨List.nodup_nil, List.nil_subset _⟩
  refine wasiGroup_decided hs hg.left (Nat.le_refl 2) hnone ?_ fun s₁ argv h₁ => ?_
  · intro got
    rw [List.append_nil]
    exact List.reverse_perm got
  have hg₁ := hg.after h₁.used
  refine wasiGroup_decided h₁.settled hg₁.left (Nat.le_refl 2) h₁.holds ?_ fun s₂ env h₂ => ?_
  · intro got
    rw [List.append_nil]
    exact ((List.reverse_perm argv).append (List.reverse_perm got)).trans List.perm_append_comm
  have hg₂ := hg₁.after h₂.used
  have hearlier : (argv.reverse ++ env.reverse).Perm (env ++ (argv ++ [])) := by
    rw [List.append_nil]
    exact ((List.reverse_perm argv).append (List.reverse_perm env)).trans List.perm_append_comm
  refine wasiGroup_decided h₂.settled hg₂ (Nat.le_refl 3) h₂.holds (fun got => hearlier.append_left got) fun s₃ tables h₃ => ?_
  refine ⟨fun _ => ?_, fun h => absurd trivial h⟩
  split
  · exact .ok h₃.settled
  · exact h₃.settled.freeAll (h₃.holds.perm (hearlier.append_left tables))

theorem initWasi_decided (hs : s.Settled) (hl : (PoolCall.initWasi x).Legal s) : Decided ((PoolCall.initWasi x).Safe s) (s.initWasi L x) := by
  have hgrants : s.Grants x.answers := hl
  unfold Runtime.initWasi
  simp only [PoolCall.Safe]
  by_cases h0 : x.ctx = 0
  · rw [if_pos h0]
    exact ⟨fun _ => .ok hs, fun hno => absurd (.inl h0) hno⟩
  obtain ⟨R, hrun, hs₁⟩ := hs.malloc_enter (L := L) (i := .info .wasiContextT) (hgrants.2 x.ctx List.mem_cons_self) h0
  rw [if_neg h0, hrun, or_iff_right h0]
  simp only [Except.bind]
  cases hmem : x.hasMemory with
  | false =>
    rw [if_neg Bool.false_ne_true]
    exact ⟨fun _ => .ok hs₁, fun hno => absurd (.inl rfl) hno⟩
  | true =>
    rw [if_pos rfl, or_iff_right Bool.false_ne_true.symm]
    have hg₁ : Runtime.Grants ⟨x.ctx :: s.blocks, s.frames, R⟩
        ((x.argvRequests ++ (x.envRequests ++ x.tableRequests)).map Request.answer) := by
      have hsplit : s.Grants ([x.ctx] ++ _) := hgrants
      refine hsplit.after fun a ha => ?_
      rcases List.mem_cons.1 ha with rfl | ha
      · exact .inr List.mem_cons_self
      · exact .inl ha
    have hgroups := wasiGroups_decided (L := L) hs₁ hg₁
    simp only [implies_true, and_true] at hgroups
    exact hgroups

end Wasi

/-! ## A run -/

/-- The calls of a run are what the rest of the program may make. -/
def LegalRun (L : Layout) : Runtime → List PoolCall → Prop
  | _, [] => True
  | s, c :: cs => c.Legal s ∧ ∀ s', c.run L s = .ok s' → LegalRun L s' cs

/-- The calls of a run keep the registry exact. -/
def SafeRun (L : Layout) : Runtime → List PoolCall → Prop
  | _, [] => True
  | s, c :: cs => c.Safe s ∧ ∀ s', c.run L s = .ok s' → SafeRun L s' cs

section Run
variable {L : Layout} {s : Runtime} {c : PoolCall}

theorem Ends.decided {r : Except Exit Runtime} (h : Ends r) : Decided True r := ⟨fun _ => h, fun hno => absurd trivial hno⟩

/-- A legal call in a settled runtime is right exactly when it is safe. -/
theorem PoolCall.decided (hs : s.Settled) (hl : c.Legal s) : Decided (c.Safe s) (c.run L s) := by
  cases c with
  | allocate i answer => exact (allocate_ends hs hl).decided
  | allocateUnchecked i answer => exact (allocateUnchecked_ends hs hl).decided
  | free ptr =>
    refine ⟨fun hsafe => free_ends hs (hl.resolve_left hsafe), fun hno => ?_⟩
    have h0 : ptr = 0 := not_not.1 hno
    subst h0
    exact .inl (Runtime.free_zero hs.zero_not_mem)
  | enlargeMemory data size realloc malloc => exact (enlargeMemory_ends hs hl.1 hl.2.1 hl.2.2).decided
  | nativeEnter x => exact ⟨nativeEnter_ends hs hl, nativeEnter_breaks hs hl⟩
  | nativeLeave x =>
    obtain ⟨hp, hr⟩ := hl
    refine (nativeLeave_ends hs ?_ ?_).decided
    · intro hne
      by_cases hp16 : 16 < x.paramCount
      · rw [if_pos hp16]
        exact hp hp16
      · rw [if_neg hp16] at hne
        exact absurd rfl hne
    intro hne
    by_cases hr4 : 4 < x.resultCount
    · rw [if_pos hr4]
      refine ⟨(hr hr4).1, fun hpb => ?_⟩
      by_cases hp16 : 16 < x.paramCount
      · rw [if_pos hp16]
        exact (hr hr4).2
      · rw [if_neg hp16] at hpb
        exact absurd rfl hpb
    · rw [if_neg hr4] at hne
      exact absurd rfl hne
  | initWasi x => exact initWasi_decided hs hl
  | readFile answer read => exact ⟨fun h0 => Or.inl ⟨s, if_pos h0, hs⟩, readFile_breaks hs hl⟩
  | allocFrame frame size => exact (allocFrame_ends hs hl).decided
  | freeFrame frame => exact ⟨freeFrame_ends hs, freeFrame_breaks hs hl⟩

/-- In a run of legal calls from a settled runtime the blocks are registered exactly while they are in use, and no call ends in
`free_info`, exactly when all calls are safe. -/
theorem exactThroughout_iff (L : Layout) (s : Runtime) (cs : List PoolCall) (hs : s.Settled) (hl : LegalRun L s cs) :
    ExactThroughout L s cs ↔ SafeRun L s cs := by
  induction cs generalizing s with
  | nil => exact iff_of_true hs.exact trivial
  | cons c cs ih =>
    obtain ⟨hlegal, hrest⟩ := hl
    rw [ExactThroughout, SafeRun, and_iff_right hs.exact]
    by_cases hsafe : c.Safe s
    · rw [and_iff_right hsafe]
      rcases (PoolCall.decided (L := L) hs hlegal).1 hsafe with ⟨s', hrun, hs'⟩ | hrun
      · rw [hrun]
        simp only [Except.ok.injEq, forall_eq']
        exact ih s' hs' (hrest s' hrun)
      · rw [hrun]
        exact iff_of_true trivial fun s' h => nomatch h
    refine iff_of_false ?_ fun h => hsafe h.1
    rcases (PoolCall.decided (L := L) hs hlegal).2 hsafe with hrun | ⟨s', hrun, hno⟩
    · rw [hrun]
      exact id
    rw [hrun]
    cases cs with
    | nil => exact hno
    | cons c' cs' => exact fun h => hno h.1

end Run

/-- Before the first call. -/
def started : Runtime := ⟨[], [], ⟨0, [], []⟩⟩

theorem started_settled : started.Settled := ⟨List.Perm.refl _, List.nodup_nil, List.not_mem_nil, List.nil_subset _⟩

/-- A native function with one parameter and no result; its buffers are on the C stack. -/
def oneParam : NativeCall := ⟨1, 0, 0x7fff0000, 0x7fff1000, 0, 0, true⟩

/-- NULL cannot be freed; the buffer of a file cannot be freed; after a call of a native function with one parameter there are two
entries for addresses on the C stack; and when the second block of a group cannot be allocated, the first one cannot be freed. -/
theorem calls_lose_track :
    (PoolCall.free 0).run layout8 started = .error .freeInfo ∧
    (∃ s, (PoolCall.readFile 4096 true).run layout8 started = .ok s ∧ (PoolCall.free 4096).run layout8 s = .error .freeInfo) ∧
    (∃ s s', (PoolCall.nativeEnter oneParam).run layout8 started = .ok s ∧ (PoolCall.nativeLeave oneParam).run layout8 s = .ok s' ∧
      s'.blocks = [] ∧ s'.frames = [] ∧ s'.registry.keys = [0x7fff1000, 0x7fff0000]) ∧
    (PoolCall.initWasi ⟨true, 1, 6, 0, 0, 4096, 8192, 0, 0, 0, 0, 0, 0, true⟩).run layout8 started = .error .freeInfo := by
  refine ⟨rfl, ⟨_, rfl, rfl⟩, ⟨_, _, rfl, rfl, rfl, rfl, rfl⟩, rfl⟩

/-- A module is loaded, its memory grows, and its block is freed. -/
def loadAndGrow : List PoolCall :=
  [.allocate (.info .wasmModuleT) 4096, .allocate (.buf .uint8T 65536) 8192, .enlargeMemory 8192 131072 0 262144, .free 4096]

theorem loadAndGrow_exact : LegalRun layout8 started loadAndGrow ∧ ExactThroughout layout8 started loadAndGrow := by
  have hlegal : LegalRun layout8 started loadAndGrow := by
    refine ⟨.inr List.not_mem_nil, fun s₁ h₁ => ?_⟩
    cases h₁
    refine ⟨.inr (by decide), fun s₂ h₂ => ?_⟩
    cases h₂
    refine ⟨⟨by decide, .inr (.inl rfl), .inr (by decide)⟩, fun s₃ h₃ => ?_⟩
    cases h₃
    exact ⟨.inr (by decide), fun _ _ => trivial⟩
  refine ⟨hlegal, (exactThroughout_iff layout8 started loadAndGrow started_settled hlegal).2 ?_⟩
  exact ⟨trivial, fun _ _ => ⟨trivial, fun _ _ => ⟨trivial, fun _ _ => ⟨Nat.succ_ne_zero 4095, fun _ _ => trivial⟩⟩⟩⟩

end WamrMigrate.Image
