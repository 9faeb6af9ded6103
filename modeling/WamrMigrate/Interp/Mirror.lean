import WamrMigrate.Interp.Stack

/-!
# The registry mirrors the call stack

As long as every call that returns to the host has given back the frames above its own, the frame entries of the registry are the frames on the
chain from the current frame, in order (`mirrors_of_run`). An exception with frames of wasm or native functions above leaves their entries behind.
-/

namespace WamrMigrate.Interp

open Image

/-- The entries of frames. -/
def frameEntries (R : Registry) : List PoolInfo := R.rootInfo.filter (·.type = .wasmInterpFrameT)

/-- The frame entries of the registry are the frames on the chain from the current frame, each once, with its size. -/
def Mirrors (m : Machine) : Prop :=
  ∃ cs, Linked m.frames m.curFrame cs ∧ cs.Nodup ∧
    frameEntries m.registry = cs.map fun a => frameEntry m.registry.pool a (m.frames a).size

/-- The interpreter is at the test of `sig_flag`. -/
def AtTest (m : Machine) : Prop := ∃ frame p rest, m.acts = .code frame p :: rest

/-- A step that leaves no frames behind: a call returns to the host with its own frame as the current frame. The functions called have
frames of a size that can be computed. -/
def Tidy (m : Machine) : Event → Prop
  | .hostCall f => f.Fits
  | .call f => f.Fits
  | .hostReturn => ∀ p frame f s rest, m.acts = .host p frame f s :: rest → m.curFrame = frame
  | _ => True

/-- A machine before the first call: there are no frames, and the blocks in the registry are not in the stack. -/
structure Initial (m : Machine) : Prop where
  bottom : 0 < m.bottom
  top : m.top = m.bottom
  curFrame : m.curFrame = 0
  acts : m.acts = []
  blocks : ∀ e ∈ m.registry.rootInfo, e.type ≠ .wasmInterpFrameT ∧ ¬(m.bottom ≤ e.pRaw ∧ e.pRaw ≤ m.topBoundary)

/-- Runs whose steps are all tidy. -/
inductive Run (m₀ : Machine) : Machine → Prop
  | refl : Run m₀ m₀
  | step {m m' : Machine} {e : Event} (h : Run m₀ m) (hs : Interp.step m e = some m') (ht : Tidy m e) : Run m₀ m'

/-- Removing an entry of a kind, where no entry of another kind is concerned. -/
theorem filter_eraseP {α : Type} {p q : α → Bool} {l : List α} (h : ∀ x ∈ l, q x = false → p x = false) :
    (l.eraseP p).filter q = (l.filter q).eraseP p := by
  induction l with
  | nil => rfl
  | cons x l ih =>
    obtain ⟨hx, hl⟩ := List.forall_mem_cons.1 h
    by_cases hp : p x
    · have hq : q x = true := by
        by_contra hq
        rw [hx (by simpa using hq)] at hp
        cases hp
      rw [List.eraseP_cons_of_pos hp, List.filter_cons_of_pos hq, List.eraseP_cons_of_pos hp]
    rw [List.eraseP_cons_of_neg hp]
    by_cases hq : q x
    · rw [List.filter_cons_of_pos hq, List.filter_cons_of_pos hq, List.eraseP_cons_of_neg hp, ih hl]
    · rw [List.filter_cons_of_neg hq, List.filter_cons_of_neg hq, ih hl]

theorem filter_eraseP_of_not {α : Type} {p q : α → Bool} {l : List α} (h : ∀ x ∈ l, p x = true → q x = false) :
    (l.eraseP p).filter q = l.filter q := by
  induction l with
  | nil => rfl
  | cons x l ih =>
    obtain ⟨hx, hl⟩ := List.forall_mem_cons.1 h
    by_cases hp : p x
    · rw [List.eraseP_cons_of_pos hp, List.filter_cons_of_neg (by simp [hx hp])]
    · rw [List.eraseP_cons_of_neg hp, List.filter_cons, List.filter_cons, ih hl]

/-- What every tidy run keeps. -/
structure Inv (m : Machine) (cs : List Nat) : Prop extends Shape m cs where
  entries : frameEntries m.registry = cs.map fun a => frameEntry m.registry.pool a (m.frames a).size
  blocks : ∀ e ∈ m.registry.rootInfo, e.type ≠ .wasmInterpFrameT → ¬(m.bottom ≤ e.pRaw ∧ e.pRaw ≤ m.topBoundary)

section Step
variable {m m' : Machine} {e : Event} {cs ds : List Nat} {a addr : Nat} {R : Registry}

theorem Keeps.map_entries (hk : Keeps m m' cs) (pool : Nat) :
    (cs.map fun a => frameEntry pool a (m'.frames a).size) = cs.map fun a => frameEntry pool a (m.frames a).size :=
  List.map_congr_left fun a ha => by rw [hk.size a ha]

theorem Shape.bounds (h : Shape m cs) (ha : a ∈ cs) : m.bottom ≤ a ∧ a ≤ m.topBoundary := by
  have hbot := (h.tiled.bounds.2 a ha).1
  have hroom := h.room a ha
  omega

theorem Shape.innermost {inner : List Nat} (h : Shape m (inner ++ a :: ds)) (ht : Tidy m e)
    (he : inner ≠ [] → e = .hostReturn ∧ ∃ p f s rest, m.acts = .host p a f s :: rest) : inner = [] := by
  by_contra hne
  obtain ⟨rfl, p, f, s, rest, hacts⟩ := he hne
  have hhead := h.linked.headD
  have hnodup := h.tiled.nodup
  rw [ht p a f s rest hacts] at hhead
  cases inner with
  | nil => exact hne rfl
  | cons c inner =>
    obtain rfl : c = a := hhead
    simp at hnodup

/-- `free_info` at an address where only frames are registered removes the entry of a frame and no other. -/
theorem frameEntries_freeInfo {R' : Registry} (hany : R.rootInfo.any (·.pRaw == a) = true)
    (hother : ∀ e ∈ R.rootInfo, e.type ≠ .wasmInterpFrameT → e.pRaw ≠ a) (hfree : R.freeInfo a = some R') :
    frameEntries R' = (frameEntries R).eraseP (·.pRaw == a) ∧
      R'.rootInfo.filter (·.type ≠ .wasmInterpFrameT) = R.rootInfo.filter (·.type ≠ .wasmInterpFrameT) := by
  rw [Registry.freeInfo, if_pos hany] at hfree
  cases hfree
  constructor
  · exact filter_eraseP fun e he ht => by simpa using hother e he (by simpa using ht)
  · exact filter_eraseP_of_not fun e he ha => decide_eq_false fun ht => hother e he ht (by simpa using ha)

theorem frameEntries_freeInfo_block {R' : Registry} (hother : ∀ e ∈ R.rootInfo, e.type = .wasmInterpFrameT → e.pRaw ≠ addr)
    (hfree : R.freeInfo addr = some R') : frameEntries R' = frameEntries R := by
  rw [Registry.freeInfo] at hfree
  split at hfree
  · cases hfree
    exact filter_eraseP_of_not fun e he ha => decide_eq_false fun ht => hother e he ht (by simpa using ha)
  · split at hfree <;> cases hfree
    rfl

theorem Inv.freeInfo_frame (h : Inv m (a :: ds)) (hfree : m.registry.freeInfo a = some R) :
    frameEntries R = ds.map fun a => frameEntry m.registry.pool a (m.frames a).size := by
  have hmem : frameEntry m.registry.pool a (m.frames a).size ∈ frameEntries m.registry := by
    rw [h.entries]
    exact List.mem_cons_self
  have hany : m.registry.rootInfo.any (·.pRaw == a) = true :=
    List.any_eq_true.2 ⟨_, (List.mem_filter.1 hmem).1, by simp [frameEntry]⟩
  have hother : ∀ e ∈ m.registry.rootInfo, e.type ≠ .wasmInterpFrameT → e.pRaw ≠ a := fun e he ht heq =>
    h.blocks e he ht (heq ▸ h.bounds List.mem_cons_self)
  rw [(frameEntries_freeInfo hany hother hfree).1, h.entries, List.map_cons, List.eraseP_cons_of_pos (by simp [frameEntry])]

theorem Inv.freeInfo_block (h : Inv m cs) (hout : ¬(m.bottom ≤ addr ∧ addr ≤ m.topBoundary)) (hfree : m.registry.freeInfo addr = some R) :
    frameEntries R = frameEntries m.registry := by
  refine frameEntries_freeInfo_block (fun e he ht heq => hout ?_) hfree
  have hmem : e ∈ frameEntries m.registry := List.mem_filter.2 ⟨he, by simpa using ht⟩
  rw [h.entries] at hmem
  obtain ⟨a, ha, rfl⟩ := List.mem_map.1 hmem
  exact heq ▸ h.bounds ha

/-- An entry after a step was there before, or is the one of a new frame or of a block that was registered. -/
theorem Change.entry (hc : Change m e m' cs cs') (hx : x ∈ m'.registry.rootInfo) :
    x ∈ m.registry.rootInfo ∨ (∃ a size, x = frameEntry m.registry.pool a size) ∨
      e = .register x ∧ ¬(m.bottom ≤ x.pRaw ∧ x.pRaw ≤ m.topBoundary) := by
  cases hc with
  | same hsame =>
    rw [hsame.registry] at hx
    exact .inl hx
  | push _ _ _ _ _ _ _ _ hreg =>
    rw [hreg] at hx
    rcases List.mem_cons.1 hx with rfl | hx
    · exact .inr (.inl ⟨_, _, rfl⟩)
    · exact .inl hx
  | pop _ _ _ _ _ hreg => exact .inl ((Registry.freeInfo_subset hreg).2 hx)
  | block _ _ _ hb =>
    rcases hb with ⟨y, rfl, -, hout, hreg⟩ | ⟨addr, -, -, hreg⟩
    · rw [hreg] at hx
      rcases List.mem_cons.1 hx with rfl | hx
      · exact .inr (.inr ⟨rfl, hout⟩)
      · exact .inl hx
    · exact .inl ((Registry.freeInfo_subset hreg).2 hx)

theorem Change.stack (hc : Change m e m' cs cs') : m'.bottom = m.bottom ∧ m'.topBoundary = m.topBoundary ∧ m'.registry.pool = m.registry.pool := by
  cases hc with
  | same hsame => exact ⟨hsame.bottom, hsame.topBoundary, by rw [hsame.registry]⟩
  | push hk _ _ _ _ _ _ _ hreg => exact ⟨hk.bottom, hk.topBoundary, by rw [hreg]⟩
  | pop hk _ _ _ _ hreg => exact ⟨hk.bottom, hk.topBoundary, (Registry.freeInfo_subset hreg).1⟩
  | block hk _ _ hb =>
    refine ⟨hk.bottom, hk.topBoundary, ?_⟩
    rcases hb with ⟨y, -, -, -, hreg⟩ | ⟨addr, -, -, hreg⟩
    · rw [hreg]
    · exact (Registry.freeInfo_subset hreg).1

theorem Tidy.fits (h : Tidy m e) : e.Fits := by
  cases e <;> first | exact h | trivial

theorem Inv.step (h : Inv m cs) (hs : Interp.step m e = some m') (ht : Tidy m e) : ∃ cs', Inv m' cs' := by
  obtain ⟨cs', hchange, hshape⟩ := h.toShape.step ht.fits hs
  refine ⟨cs', hshape, ?_, ?_⟩
  · cases hchange with
    | same hsame => rw [hsame.registry, hsame.toKeeps.map_entries, h.entries]
    | @push fn size hk _ _ _ _ hsize _ _ hreg =>
      rw [hreg, List.map_cons, hsize, hk.map_entries, ← h.entries]
      simp [frameEntries, frameEntry]
    | pop hk hcs he _ _ hreg =>
      subst hcs
      obtain rfl := h.toShape.innermost ht he
      rw [(Registry.freeInfo_subset hreg).1, hk.map_entries]
      exact h.freeInfo_frame hreg
    | block hk _ _ hb =>
      rcases hb with ⟨x, -, htype, -, hreg⟩ | ⟨addr, -, hout, hreg⟩
      · rw [hk.map_entries, hreg, ← h.entries, frameEntries, List.filter_cons_of_neg (by simpa using htype)]
        rfl
      · rw [hk.map_entries, (Registry.freeInfo_subset hreg).1, ← h.entries]
        exact h.freeInfo_block hout hreg
  · intro x hx htype
    rw [hchange.stack.1, hchange.stack.2.1]
    rcases hchange.entry hx with hold | ⟨a, size, rfl⟩ | ⟨-, hout⟩
    · exact h.blocks x hold htype
    · exact absurd rfl htype
    · exact hout

end Step

theorem Initial.shape {m : Machine} (h : Initial m) : Shape m [] := by
  refine ⟨⟨h.bottom, h.curFrame, h.top, by simp⟩, .inl ?_⟩
  rw [h.acts]
  exact .nil

theorem Initial.inv {m : Machine} (h : Initial m) : Inv m [] := by
  refine ⟨h.shape, ?_, fun e he _ => (h.blocks e he).2⟩
  exact List.filter_eq_nil_iff.2 fun e he => by simpa using (h.blocks e he).1

theorem Run.inv {m₀ m : Machine} (h₀ : Initial m₀) (h : Run m₀ m) : ∃ cs, Inv m cs := by
  induction h with
  | refl => exact ⟨[], h₀.inv⟩
  | step _ hs ht ih =>
    obtain ⟨cs, hi⟩ := ih
    exact hi.step hs ht

/-- After any tidy run, at the test of `sig_flag` as anywhere else, the frame entries of the registry are the frames on the chain from
the current frame. -/
theorem mirrors_of_run {m₀ m : Machine} (h₀ : Initial m₀) (h : Run m₀ m) : Mirrors m := by
  obtain ⟨cs, hi⟩ := h.inv h₀
  exact ⟨cs, hi.linked, hi.tiled.nodup, hi.entries⟩

/-- A stack of two kilobytes, before the first call. -/
def idle : Machine where
  bottom := 4096
  topBoundary := 6144
  top := 4096
  curFrame := 0
  frames := fun _ => ⟨0, none, false, 0⟩
  registry := ⟨1024, [], []⟩
  acts := []

/-- A function with one parameter, four operands and two blocks. -/
def leaf : Func := ⟨false, 1, 0, 0, 4, 2⟩

theorem idle_initial : Initial idle := ⟨by decide, rfl, rfl, rfl, fun _ he => absurd he List.not_mem_nil⟩

theorem leaf_fits : leaf.Fits := Or.inr (by decide)

theorem Run.of_foldlM {m₀ m m' : Machine} {es : List Event} (h : Run m₀ m) (hes : ∀ e ∈ es, ∀ m, Tidy m e)
    (hm : es.foldlM Interp.step m = some m') : Run m₀ m' := by
  induction es generalizing m with
  | nil =>
    cases hm
    exact h
  | cons e es ih =>
    obtain ⟨he, hes⟩ := List.forall_mem_cons.1 hes
    obtain ⟨m₁, hstep, hrest⟩ := Option.bind_eq_some_iff.1 hm
    exact ih (h.step hstep (he m)) hes hrest

/-- A function that has called another one is at the test of `sig_flag`. -/
theorem mirrors_in_callee :
    ∃ m, [.hostCall leaf, .start, .enter, .call leaf].foldlM step idle = some m ∧ AtTest m ∧ m.curFrame ≠ 0 ∧ Mirrors m := by
  have hrun : ∃ m, [.hostCall leaf, .start, .enter, .call leaf].foldlM step idle = some m ∧ AtTest m ∧ m.curFrame ≠ 0 :=
    ⟨_, rfl, ⟨_, _, _, rfl⟩, by decide⟩
  obtain ⟨m, hm, hat, hcur⟩ := hrun
  refine ⟨m, hm, hat, hcur, mirrors_of_run idle_initial (Run.refl.of_foldlM ?_ hm)⟩
  simp [Tidy, leaf_fits]

/-- A call that ends with an exception, and another one: there are three entries for the two frames of the second. -/
theorem exception_run :
    ∃ m, [.hostCall leaf, .start, .enter, .trap, .hostReturn, .hostCall leaf, .start, .enter].foldlM step idle = some m ∧ AtTest m ∧
      m.acts.length = 2 ∧ (frameEntries m.registry).length = 3 ∧ ∀ cs, Linked m.frames m.curFrame cs → cs.length = 2 := by
  have hrun : ∃ m, [.hostCall leaf, .start, .enter, .trap, .hostReturn, .hostCall leaf, .start, .enter].foldlM step idle = some m ∧
      AtTest m ∧ m.acts.length = 2 ∧ (frameEntries m.registry).length = 3 ∧ m.curFrame = 4180 ∧ (m.frames 4180).prevFrame = 4096 ∧
      (m.frames 4096).prevFrame = 0 :=
    ⟨_, rfl, ⟨_, _, _, rfl⟩, rfl, rfl, rfl, rfl, rfl⟩
  obtain ⟨m, hm, hat, hacts, hthree, hcur, hprev, hlast⟩ := hrun
  refine ⟨m, hm, hat, hacts, hthree, fun cs hlinked => ?_⟩
  rw [hcur] at hlinked
  match cs, hlinked with
  | [_], h =>
    obtain ⟨rfl, -, h⟩ := h
    rw [hprev] at h
    cases h
  | [_, _], _ => rfl
  | _ :: _ :: _ :: _, h =>
    obtain ⟨rfl, -, h⟩ := h
    rw [hprev] at h
    obtain ⟨rfl, -, h⟩ := h
    rw [hlast] at h
    exact absurd h.1.symm h.2.1

/-- An exception in the first call leaves the entry of its frame in the registry, where it still is when the function is called again. -/
theorem exception_breaks :
    ∃ m, [.hostCall leaf, .start, .enter, .trap, .hostReturn, .hostCall leaf, .start, .enter].foldlM step idle = some m ∧ AtTest m ∧
      ¬Mirrors m := by
  obtain ⟨m, hm, hat, -, hthree, hchain⟩ := exception_run
  refine ⟨m, hm, hat, ?_⟩
  rintro ⟨cs, hlinked, -, hentries⟩
  rw [hentries, List.length_map, hchain cs hlinked] at hthree
  cases hthree

end WamrMigrate.Interp
