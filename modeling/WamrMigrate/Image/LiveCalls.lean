import WamrMigrate.Image.LiveBlocks

/-!
# Calls that keep the registry exact

What the rest of the program keeps to when it makes a call, which calls keep the registry exact under that, and why.
-/

namespace WamrMigrate.Image

/-! ## One call -/

namespace Request

def answer : Request → Nat
  | .sized _ answer => answer
  | .fixed answer => answer

/-- The request makes its group fail. -/
def Refused : Request → Prop
  | .sized size answer => 2 ^ 32 - 1 ≤ size ∨ size ≠ 0 ∧ answer = 0
  | .fixed answer => answer = 0

/-- Nothing is asked for. -/
def Skipped : Request → Prop
  | .sized size _ => size = 0
  | .fixed _ => False

instance : DecidablePred Refused
  | .sized _ _ => inferInstanceAs (Decidable (_ ∨ _))
  | .fixed _ => inferInstanceAs (Decidable (_ = _))

instance : DecidablePred Skipped
  | .sized _ _ => inferInstanceAs (Decidable (_ = _))
  | .fixed _ => inferInstanceAs (Decidable False)

end Request

/-- No request of the group is refused. -/
def AllGranted (rs : List Request) : Prop := ∀ r ∈ rs, ¬r.Refused

/-- No request is refused after another one has been granted. -/
def WholeOrNothing : List Request → Prop
  | [] => True
  | r :: rs => r.Refused ∨ (r.Skipped ∧ WholeOrNothing rs) ∨ AllGranted rs

/-- The addresses but NULL. -/
def nonNull (ps : List Nat) : List Nat := ps.filter (· ≠ 0)

/-- The addresses are not in use and, NULL apart, all different. -/
def Runtime.Grants (s : Runtime) (answers : List Nat) : Prop := (nonNull answers).Nodup ∧ ∀ a ∈ answers, s.Fresh a

/-- All that `wasm_runtime_malloc` answers to `wasm_runtime_init_wasi`. -/
def WasiInit.answers (x : WasiInit) : List Nat :=
  x.ctx :: (x.argvRequests ++ (x.envRequests ++ x.tableRequests)).map Request.answer

namespace PoolCall

/-- What the rest of the program keeps to: the allocator gives out what is not in use, the buffers on the C stack are in use by nobody
else, and what is freed is NULL or in use. -/
def Legal (s : Runtime) : PoolCall → Prop
  | .allocate _ answer | .allocateUnchecked _ answer | .readFile answer _ => s.Fresh answer
  | .free ptr => ptr = 0 ∨ ptr ∈ s.blocks
  | .enlargeMemory data _ realloc malloc => data ∈ s.blocks ∧ (realloc = data ∨ s.Fresh realloc) ∧ s.Fresh malloc
  | .nativeEnter x =>
    s.Grants [x.params, x.results] ∧
      ∀ buf ∈ [x.paramsBuf, x.resultsBuf], buf ≠ 0 ∧ buf ∉ s.used ∧ buf ≠ x.params ∧ buf ≠ x.results
  | .nativeLeave x =>
    (16 < x.paramCount → x.params ∈ s.blocks) ∧ (4 < x.resultCount → x.results ∈ s.blocks ∧ x.results ≠ x.params)
  | .initWasi x => s.Grants x.answers
  | .allocFrame frame _ => s.Fresh frame
  | .freeFrame frame => frame ∈ s.frames

/-- A call that keeps the registry exact. -/
def Safe (s : Runtime) : PoolCall → Prop
  | .free ptr => ptr ≠ 0
  | .nativeEnter x => 16 < x.paramCount ∧ (x.params = 0 ∨ x.paramsOk = false ∨ 4 < x.resultCount ∧ x.results ≠ 0)
  | .initWasi x =>
    x.ctx = 0 ∨ x.hasMemory = false ∨
      WholeOrNothing x.argvRequests ∧
        (AllGranted x.argvRequests →
          WholeOrNothing x.envRequests ∧ (AllGranted x.envRequests → WholeOrNothing x.tableRequests))
  | .readFile answer _ => answer = 0
  | .freeFrame frame => s.frames.head? = some frame
  | _ => True

end PoolCall

/-- The call goes on with a settled runtime, or the process ends in `alloc_info`. -/
def Ends (r : Except Exit Runtime) : Prop := (∃ s, r = .ok s ∧ s.Settled) ∨ r = .error .allocInfo

/-- The call ends the process in `free_info`, or leaves a registry that is not exact. -/
def Breaks (r : Except Exit Runtime) : Prop := r = .error .freeInfo ∨ ∃ s, r = .ok s ∧ ¬s.Exact

/-- The call is right when `Q` holds, and wrong when not. -/
def Decided (Q : Prop) (r : Except Exit Runtime) : Prop := (Q → Ends r) ∧ (¬Q → Breaks r)

section Calls
variable {L : Layout} {s : Runtime} {p : Nat} {i : Info}

theorem not_mem_cons_zero {l : List Nat} (h0 : p ≠ 0) (hl : 0 ∉ l) : 0 ∉ p :: l := by
  rw [List.mem_cons, not_or]
  exact ⟨h0.symm, hl⟩

theorem Ends.ok (h : s.Settled) : Ends (.ok s) := Or.inl ⟨s, rfl, h⟩

theorem Breaks.ok (h : ¬s.Exact) : Breaks (.ok s) := Or.inr ⟨s, rfl, h⟩

theorem Runtime.Fresh.not_mem (hf : s.Fresh p) (h0 : p ≠ 0) : p ∉ s.used := hf.resolve_left h0

section
variable (hs : s.Settled)
include hs

theorem Runtime.Settled.malloc_enter (hf : s.Fresh p) (h0 : p ≠ 0) : ∃ R, (s.wasmRuntimeMalloc p).enter L p i = .ok ⟨p :: s.blocks, s.frames, R⟩ ∧
      Runtime.Settled ⟨p :: s.blocks, s.frames, R⟩ := by
  have hm := Runtime.Pending.malloc hs (hf.not_mem h0) h0
  obtain ⟨R, hrun, hR⟩ := hm.enter (L := L) (i := i)
  rw [Runtime.wasmRuntimeMalloc_eq h0] at hrun hR ⊢
  exact ⟨R, hrun, hR⟩

theorem allocate_ends (hf : s.Fresh p) : Ends (s.allocate L i p) := by
  unfold Runtime.allocate
  split
  · exact .ok hs
  rename_i h0
  obtain ⟨R, hrun, hR⟩ := hs.malloc_enter (L := L) (i := i) hf h0
  rw [hrun]
  exact .ok hR

theorem allocateUnchecked_ends (hf : s.Fresh p) : Ends (s.allocateUnchecked L i p) := by
  unfold Runtime.allocateUnchecked
  by_cases h0 : p = 0
  · subst h0
    exact .inr Runtime.enter_zero
  · obtain ⟨R, hrun, hR⟩ := hs.malloc_enter (L := L) (i := i) hf h0
    rw [hrun]
    exact .ok hR

theorem free_ends (hp : p ∈ s.blocks) : Ends (s.wasmRuntimeFree p) := by
  obtain ⟨R, hrun, hR⟩ := Runtime.Pending.free hs hp List.not_mem_nil
  rw [hrun]
  exact .ok hR

theorem readFile_breaks {read : Bool} (hf : s.Fresh p) (h0 : p ≠ 0) : Breaks (s.bhReadFileToBuffer p read) := by
  have hm := Runtime.Pending.malloc hs (hf.not_mem h0) h0
  unfold Runtime.bhReadFileToBuffer
  rw [if_neg h0]
  split
  · exact .ok (hm.not_exact List.mem_cons_self)
  · exact .inl (hm.free_pending List.mem_cons_self)

theorem enlargeMemory_ends {data size realloc malloc : Nat} (hd : data ∈ s.blocks)
    (hr : realloc = data ∨ s.Fresh realloc) (hm : s.Fresh malloc) : Ends (s.enlargeMemory L data size realloc malloc) := by
  unfold Runtime.enlargeMemory
  by_cases h0 : realloc = 0
  · rw [if_neg (not_not_intro h0)]
    split
    · exact .ok hs
    rename_i hne
    have hused := hm.not_mem hne
    have hdata : data ∉ [malloc] := by
      rw [List.mem_singleton]
      exact fun he => hused (he ▸ List.mem_append_left _ hd)
    have hpend := Runtime.Pending.malloc hs hused hne
    rw [Runtime.wasmRuntimeMalloc_eq hne] at hpend ⊢
    obtain ⟨R, hrun, hR⟩ := hpend.free (List.mem_cons_of_mem _ hd) hdata
    obtain ⟨R', hrun', hR'⟩ := hR.enter (L := L) (i := .buf .uint8T size)
    rw [hrun]
    exact .inl ⟨_, hrun', hR'⟩
  · rw [if_pos h0, Runtime.wasmRuntimeRealloc, if_neg h0]
    have hkey : data ∈ s.registry.keys := hs.mem_keys.2 ⟨List.mem_append_left _ hd, List.not_mem_nil⟩
    have herase : s.blocks.erase data ++ s.frames = s.used.erase data := (List.erase_append_left _ hd).symm
    have hnew : realloc ∉ s.used.erase data := by
      rcases hr with rfl | hr
      · exact hs.nodup.not_mem_erase
      · exact fun hmem => hr.not_mem h0 (List.mem_of_mem_erase hmem)
    obtain ⟨R, hrun, hk⟩ := Runtime.freeInfo_of_mem (s := { s with blocks := realloc :: s.blocks.erase data }) hkey
    obtain ⟨R', hrun', hk'⟩ := Runtime.enter_eq (s := ⟨realloc :: s.blocks.erase data, s.frames, R⟩) (L := L)
      (i := .buf .uint8T size) h0
    rw [hrun]
    refine Or.inl ⟨_, hrun', Runtime.Settled.of_cons (p := realloc) (l := s.used.erase data) ?_ ?_ ?_ ?_⟩
    · show R'.keys.Perm _
      rw [hk', hk]
      exact (hs.keys_perm.erase data).cons realloc
    · show (realloc :: (s.blocks.erase data ++ s.frames)).Perm _
      rw [herase]
    · exact List.nodup_cons.2 ⟨hnew, hs.nodup.erase data⟩
    · exact not_mem_cons_zero h0 fun hmem => hs.ne_zero (List.mem_of_mem_erase hmem)

theorem allocFrame_ends {size : Nat} (hf : s.Fresh p) : Ends (s.allocFrame L p size) := by
  unfold Runtime.allocFrame
  split
  · exact .ok hs
  rename_i h0
  obtain ⟨R, hrun, hk⟩ := Runtime.enter_eq (s := { s with frames := p :: s.frames }) (L := L) (i := .ex .wasmInterpFrameT size) h0
  refine Or.inl ⟨_, hrun, Runtime.Settled.of_cons ?_ List.perm_middle ?_ ?_⟩
  · show R.keys.Perm (p :: s.used)
    rw [hk]
    exact hs.keys_perm.cons p
  · exact List.nodup_cons.2 ⟨hf.not_mem h0, hs.nodup⟩
  · exact not_mem_cons_zero h0 hs.ne_zero

theorem freeFrame_ends (hp : s.frames.head? = some p) : Ends (s.freeFrame p) := by
  obtain ⟨fs, hfs⟩ := List.head?_eq_some_iff.1 hp
  have hused : s.used.Perm (p :: (s.blocks ++ fs)) := by
    rw [Runtime.used, hfs]
    exact List.perm_middle
  have hkey : p ∈ s.registry.keys := hs.keys_perm.mem_iff.2 (hused.mem_iff.2 List.mem_cons_self)
  have hrest : (s.frames.dropWhile (· ≠ p)).tail = fs := by
    rw [hfs, List.dropWhile_cons_of_neg (by simp)]
    rfl
  obtain ⟨R, hrun, hk⟩ := Runtime.freeInfo_of_mem (s := { s with frames := fs }) hkey
  unfold Runtime.freeFrame
  rw [hrest, hrun]
  have hperm : R.keys.Perm (s.blocks ++ fs) := by
    rw [hk, ← List.erase_cons_head p (s.blocks ++ fs)]
    exact (hs.keys_perm.trans hused).erase p
  refine .ok ⟨by rw [List.append_nil]; exact hperm, ?_, ?_, List.nil_subset _⟩
  · exact (List.nodup_cons.1 (hused.nodup_iff.1 hs.nodup)).2
  · exact fun hmem => hs.ne_zero (hused.mem_iff.2 (List.mem_cons_of_mem p hmem))

theorem freeFrame_breaks (hp : p ∈ s.frames) (hne : s.frames.head? ≠ some p) : Breaks (s.freeFrame p) := by
  cases hfs : s.frames with
  | nil =>
    rw [hfs] at hp
    cases hp
  | cons f fs =>
    have hfp : f ≠ p := by
      rintro rfl
      exact hne (by rw [hfs]; rfl)
    have hnodup := hs.nodup
    rw [Runtime.used, hfs] at hnodup
    obtain ⟨-, hframes, hdisj⟩ := List.nodup_append.1 hnodup
    have hused : ∀ q ∈ s.frames, q ∈ s.registry.keys := fun q hq =>
      hs.mem_keys.2 ⟨List.mem_append_right _ hq, List.not_mem_nil⟩
    have hsub : (s.frames.dropWhile (· ≠ p)).tail ⊆ fs := by
      rw [hfs, List.dropWhile_cons_of_pos (by simpa using hfp)]
      exact ((List.tail_sublist _).trans (List.dropWhile_sublist _)).subset
    obtain ⟨R, hrun, hk⟩ := Runtime.freeInfo_of_mem
      (s := { s with frames := (s.frames.dropWhile (· ≠ p)).tail }) (hused p hp)
    unfold Runtime.freeFrame
    rw [hrun]
    refine .ok (Runtime.not_exact_of_key (p := f) ?_ ?_)
    · show f ∈ R.keys
      rw [hk]
      exact (List.mem_erase_of_ne hfp).2 (hused f (by rw [hfs]; exact List.mem_cons_self))
    intro hmem
    rcases List.mem_append.1 hmem with hblock | hframe
    · exact hdisj f hblock f List.mem_cons_self rfl
    · exact (List.nodup_cons.1 hframes).1 (hsub hframe)

end

end Calls

/-! ## Native calls -/

section Native
variable {L : Layout} {s : Runtime} {x : NativeCall} {params results : Nat}

theorem nativeLeave_ends (hs : s.Settled) (hp : params ≠ x.paramsBuf → params ∈ s.blocks)
    (hr : results ≠ x.resultsBuf → results ∈ s.blocks ∧ (params ≠ x.paramsBuf → results ≠ params)) : Ends (s.nativeLeave x params results) := by
  unfold Runtime.nativeLeave
  by_cases hpb : params ≠ x.paramsBuf
  · obtain ⟨R, hrun, hR⟩ := Runtime.Pending.free hs (hp hpb) List.not_mem_nil
    rw [if_pos hpb, hrun]
    show Ends (if results ≠ x.resultsBuf then _ else _)
    split
    · rename_i hrb
      obtain ⟨hmem, hne⟩ := hr hrb
      exact free_ends hR ((List.mem_erase_of_ne (hne hpb)).2 hmem)
    · exact .ok hR
  rw [if_neg hpb]
  show Ends (if results ≠ x.resultsBuf then _ else _)
  split
  · rename_i hrb
    exact free_ends hs (hr hrb).1
  · exact .ok hs

theorem nativeLeave_null (h0 : x.resultsBuf ≠ 0) (hs : s.Settled) (hp : params ≠ x.paramsBuf → params ∈ s.blocks) :
    s.nativeLeave x params 0 = .error .freeInfo := by
  unfold Runtime.nativeLeave
  by_cases hpb : params ≠ x.paramsBuf
  · obtain ⟨R, hrun, hR⟩ := Runtime.Pending.free hs (hp hpb) List.not_mem_nil
    rw [if_pos hpb, hrun]
    exact (if_pos h0.symm).trans (Runtime.free_zero hR.zero_not_mem)
  · rw [if_neg hpb]
    exact (if_pos h0.symm).trans (Runtime.free_zero hs.zero_not_mem)

theorem Runtime.Grants.pair {a b : Nat} (h : s.Grants [a, b]) : s.Fresh a ∧ s.Fresh b ∧ (a ≠ 0 → b ≠ a) := by
  refine ⟨h.2 a (by simp), h.2 b (by simp), ?_⟩
  rintro ha rfl
  have hnodup := h.1
  simp [nonNull, ha] at hnodup

section
variable (hs : s.Settled) (hl : (PoolCall.nativeEnter x).Legal s)
include hs hl

theorem nativeEnter_ends (hsafe : (PoolCall.nativeEnter x).Safe s) : Ends (s.nativeEnter L x) := by
  obtain ⟨hgrants, hbuf⟩ := hl
  obtain ⟨hpf, hrf, hdiff⟩ := hgrants.pair
  obtain ⟨hp16, hor⟩ := hsafe
  unfold Runtime.nativeEnter
  simp only [if_pos hp16]
  by_cases hp0 : x.params = 0
  · rw [if_pos ⟨hp16, hp0⟩, hp0]
    exact .ok hs
  obtain ⟨R, hrun, hR⟩ := hs.malloc_enter (L := L) (i := .infos .wasmValT x.paramCount) hpf hp0
  rw [if_neg fun h => hp0 h.2, hrun]
  show Ends (if x.paramsOk = true then _ else _)
  split
  · rename_i hok
    have hres : 4 < x.resultCount ∧ x.results ≠ 0 :=
      (hor.resolve_left hp0).resolve_left fun hno => Bool.false_ne_true (hno.symm.trans hok)
    have hfresh : Runtime.Fresh ⟨x.params :: s.blocks, s.frames, R⟩ x.results := by
      refine Or.inr fun hmem => ?_
      rcases List.mem_cons.1 hmem with he | hmem
      · exact hdiff hp0 he
      · exact hrf.not_mem hres.2 hmem
    obtain ⟨R', hrun', hR'⟩ := hR.malloc_enter (L := L) (i := .infos .wasmValT x.resultCount) hfresh hres.2
    simp only [if_pos hres.1]
    rw [if_neg fun h => hres.2 h.2, hrun']
    exact .ok hR'
  · exact nativeLeave_ends hR (fun _ => List.mem_cons_self) fun h => absurd rfl h

theorem nativeEnter_breaks_params (hp16 : ¬16 < x.paramCount) : Breaks (s.nativeEnter L x) := by
  obtain ⟨hgrants, hbuf⟩ := hl
  obtain ⟨hpb0, hpbu, -, hpbr⟩ := hbuf x.paramsBuf (by simp)
  obtain ⟨hrb0, -⟩ := hbuf x.resultsBuf (by simp)
  obtain ⟨R, hrun, hk⟩ := Runtime.enter_eq (s := s) (L := L) (i := .infos .wasmValT x.paramCount) hpb0
  have hkey : x.paramsBuf ∈ R.keys := hk ▸ List.mem_cons_self
  have hzero : 0 ∉ R.keys := hk ▸ not_mem_cons_zero hpb0 hs.zero_not_mem
  unfold Runtime.nativeEnter
  simp only [if_neg hp16]
  rw [if_neg fun h => hp16 h.1, hrun]
  show Breaks (if x.paramsOk = true then _ else _)
  split
  · by_cases hr4 : 4 < x.resultCount
    · simp only [if_pos hr4]
      by_cases hr0 : x.results = 0
      · rw [if_pos ⟨hr4, hr0⟩, hr0]
        unfold Runtime.nativeLeave
        rw [if_neg (not_not_intro rfl)]
        exact .inl ((if_pos hrb0.symm).trans (Runtime.free_zero hzero))
      obtain ⟨R', hrun', hk'⟩ := Runtime.enter_eq (s := ⟨x.results :: s.blocks, s.frames, R⟩) (L := L)
        (i := .infos .wasmValT x.resultCount) hr0
      rw [if_neg fun h => hr0 h.2, Runtime.wasmRuntimeMalloc_eq hr0, hrun']
      refine .ok (Runtime.not_exact_of_key (p := x.paramsBuf) (by rw [hk']; exact List.mem_cons_of_mem _ hkey) ?_)
      intro hmem
      rcases List.mem_cons.1 hmem with he | hmem
      · exact hpbr he
      · exact hpbu hmem
    · obtain ⟨R', hrun', hk'⟩ := Runtime.enter_eq (s := { s with registry := R }) (L := L)
        (i := .infos .wasmValT x.resultCount) hrb0
      simp only [if_neg hr4]
      rw [if_neg fun h => hr4 h.1, hrun']
      exact .ok (Runtime.not_exact_of_key (p := x.paramsBuf) (by rw [hk']; exact List.mem_cons_of_mem _ hkey) hpbu)
  · unfold Runtime.nativeLeave
    rw [if_neg (not_not_intro rfl)]
    exact .inr ⟨_, if_neg (not_not_intro rfl), Runtime.not_exact_of_key hkey hpbu⟩

/-- The entry for the buffer of the results stays, or NULL is freed. -/
theorem nativeEnter_breaks_results (hp16 : 16 < x.paramCount)
    (hp0 : x.params ≠ 0) (hok : x.paramsOk = true) (hres : 4 < x.resultCount → x.results = 0) : Breaks (s.nativeEnter L x) := by
  obtain ⟨hgrants, hbuf⟩ := hl
  obtain ⟨hrb0, hrbu, hrbp, -⟩ := hbuf x.resultsBuf (by simp)
  obtain ⟨R, hrun, hR⟩ := hs.malloc_enter (L := L) (i := .infos .wasmValT x.paramCount) hgrants.pair.1 hp0
  unfold Runtime.nativeEnter
  simp only [if_pos hp16]
  rw [if_neg fun h => hp0 h.2, hrun]
  show Breaks (if x.paramsOk = true then _ else _)
  rw [if_pos hok]
  by_cases hr4 : 4 < x.resultCount
  · simp only [if_pos hr4]
    rw [if_pos ⟨hr4, hres hr4⟩, hres hr4]
    exact .inl (nativeLeave_null hrb0 hR fun _ => List.mem_cons_self)
  obtain ⟨R', hrun', hk'⟩ := Runtime.enter_eq (s := ⟨x.params :: s.blocks, s.frames, R⟩) (L := L)
    (i := .infos .wasmValT x.resultCount) hrb0
  simp only [if_neg hr4]
  rw [if_neg fun h => hr4 h.1, hrun']
  refine .ok (Runtime.not_exact_of_key (p := x.resultsBuf) (by rw [hk']; exact List.mem_cons_self) ?_)
  intro hmem
  rcases List.mem_cons.1 hmem with he | hmem
  · exact hrbp he
  · exact hrbu hmem

theorem nativeEnter_breaks (hsafe : ¬(PoolCall.nativeEnter x).Safe s) : Breaks (s.nativeEnter L x) := by
  by_cases hp16 : 16 < x.paramCount
  · have hno : ¬(x.params = 0 ∨ x.paramsOk = false ∨ 4 < x.resultCount ∧ x.results ≠ 0) := fun h => hsafe ⟨hp16, h⟩
    rw [not_or, not_or] at hno
    obtain ⟨hp0, hok, hres⟩ := hno
    refine nativeEnter_breaks_results hs hl hp16 hp0 (Bool.eq_true_of_not_eq_false hok) fun hr4 => ?_
    by_contra hne
    exact hres ⟨hr4, hne⟩
  · exact nativeEnter_breaks_params hs hl hp16

end

end Native

end WamrMigrate.Image
