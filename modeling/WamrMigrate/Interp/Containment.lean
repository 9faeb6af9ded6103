import WamrMigrate.Interp.Mirror

/-!
# Frames and arguments stay inside the wasm stack

`wasm_exec_env_alloc_wasm_frame` asks for twice the size of the frame, so that the arguments written above it stay below the boundary. That is
enough for calls between wasm functions, whose operand stack has at most `max_stack_cell_num` cells. The frame that `wasm_interp_call_wasm` takes
has room for the results only: the arguments above it stay inside the stack when there is room for them (`contained_of_run`).
-/

namespace WamrMigrate.Interp

/-- The bytes that the frame of the function needs: the fields before `lp`, and its cells and control blocks. A native function has
its arguments only. -/
def Func.frameBytes (f : Func) : Nat :=
  if f.isImportFunc then 72 + 4 * f.paramCellNum.toNat
  else 72 + 4 * (f.paramCellNum.toNat + f.localCellNum.toNat + f.maxStackCellNum.toNat) + 32 * f.maxBlockNum.toNat

/-- The cells of `outs_area->lp` that the event writes: the address and the number of cells. -/
def argsWritten (m : Machine) : Event → Option (Nat × Nat)
  | .hostCall f =>
    (m.allocFrame (interpFrameSize (max f.retCellNum.toNat 2)) m.curFrame none false).map fun (_, m') =>
      (m'.top + 72, f.paramCellNum.toNat)
  | .call f => some (m.top + 72, f.paramCellNum.toNat)
  | _ => none

/-- Every frame on the chain from the current frame is inside the stack, with what its function needs. -/
def Contained (m : Machine) : Prop :=
  ∃ cs, Linked m.frames m.curFrame cs ∧ ∀ a ∈ cs, m.bottom ≤ a ∧ a + (m.frames a).size ≤ m.topBoundary ∧
    ∀ f, (m.frames a).function = some f → a + f.frameBytes ≤ m.topBoundary

/-- The arguments that the event writes are inside the stack. -/
def ArgsContained (m : Machine) (e : Event) : Prop :=
  ∀ addr n, argsWritten m e = some (addr, n) → m.bottom ≤ addr ∧ addr + 4 * n ≤ m.topBoundary

/-- The loader has accepted the function that runs: the arguments of a call are on its operand stack, which has at most
`max_stack_cell_num` cells. -/
def Accepted (m : Machine) : Event → Prop
  | .call f => ∀ g, (m.frames m.curFrame).function = some g → f.paramCellNum.toNat ≤ g.maxStackCellNum.toNat
  | _ => True

/-- The functions called have frames of a size that can be computed, and when the host calls one and gets a frame there is room on the
stack for the header and the arguments above it. -/
def Roomy (m : Machine) : Event → Prop
  | .hostCall f =>
    f.Fits ∧ (m.top + interpFrameSize (max f.retCellNum.toNat 2) * 2 ≤ m.topBoundary →
      m.top + interpFrameSize (max f.retCellNum.toNat 2) + 72 + 4 * f.paramCellNum.toNat ≤ m.topBoundary)
  | .call f => f.Fits
  | _ => True

/-- Runs of accepted functions where there is room for the arguments of each call from the host. -/
inductive RoomyRun (m₀ : Machine) : Machine → Prop
  | refl : RoomyRun m₀ m₀
  | step {m m' : Machine} {e : Event} (h : RoomyRun m₀ m) (hs : Interp.step m e = some m') (ha : Accepted m e) (hr : Roomy m e) :
      RoomyRun m₀ m'

/-! ## Calls that are about to start -/

section Pending
variable {m m' : Machine} {e : Event} {frames : Nat → FrameFields} {acts rest : List Act} {x : Act} {cs : List Nat} {f : Func} {p : Nat}

/-- The innermost call in progress is not one from the host that has yet to call its function. -/
def Started (acts : List Act) : Prop := ∀ p a f rest, acts ≠ .host p a f false :: rest

theorem Left.started (h : Left frames acts cs) : Started acts := by
  intro p a f rest heq
  rcases h with rfl | ⟨_, _, _, _, _, _, rfl, -⟩ <;> cases heq

theorem Acts.started_tail (h : Acts frames (x :: acts) cs) : Started acts := by
  intro p a f rest heq
  subst heq
  cases h with
  | host _ ht => rcases ht with h | ⟨b, q, r, h⟩ <;> cases h
  | enter h hb hfn =>
    cases h with
    | enter _ hb | call _ _ _ hb => exact absurd rfl hb
  | call h ha =>
    exact (h.unwind ha).started _ _ _ _ rfl

theorem Shape.started_tail (h : Shape m cs) (heq : m.acts = x :: rest) : Started rest := by
  rcases h.acts with ha | ⟨_, _, _, _, _, _, -, -, -, ha⟩
  · rw [heq] at ha
    exact ha.started_tail
  · rw [heq] at ha
    exact ha.started_tail

theorem started_enterCode (h : Started rest) : Started (m.enterCode f p rest).acts := by
  unfold Machine.enterCode
  split
  · exact h
  split
  · exact h
  · intro _ _ _ _ heq
    cases heq

theorem started_enterNative (h : Started m'.acts) : Started ((m.enterNative f p).getD m').acts := by
  unfold Machine.enterNative
  cases m.allocFrame (interpFrameSize 2) p (some f) false with
  | none => exact h
  | some r =>
    intro _ _ _ _ heq
    cases heq

/-- Only a call from the host leaves one that has yet to call its function. -/
theorem started_of_step (h : Shape m cs) (hs : step m e = some m') :
    (∃ f, e = .hostCall f) ∨ m'.acts = m.acts ∧ m'.top = m.top ∨ Started m'.acts := by
  cases e <;> simp only [step] at hs
  case hostCall f => exact .inl ⟨f, rfl⟩
  case register y =>
    split at hs <;> cases hs
    exact .inr (.inl ⟨rfl, rfl⟩)
  case free addr =>
    split at hs
    · cases hs
    · obtain ⟨R, -, rfl⟩ := Option.map_eq_some_iff.1 hs
      exact .inr (.inl ⟨rfl, rfl⟩)
  all_goals refine Or.inr (.inr ?_)
  case start =>
    split at hs
    · split at hs <;> cases hs
      · exact started_enterNative fun _ _ _ _ heq => by cases heq
      · intro _ _ _ _ heq
        cases heq
    · cases hs
  case enter =>
    split at hs
    · next heq =>
      cases hs
      exact started_enterCode (h.started_tail heq)
    · cases hs
  case call f =>
    split at hs
    · next heq =>
      split at hs
      · cases hs
      · split at hs <;> cases hs
        · exact started_enterNative (h.started_tail heq)
        · exact started_enterCode (h.started_tail heq)
    · cases hs
  case nativeReturn ok =>
    split at hs
    · next heq =>
      split at hs
      · obtain ⟨m₁, -, rfl⟩ := Option.map_eq_some_iff.1 hs
        exact h.started_tail heq
      cases hs
      have hacts := h.running (by simp [heq])
      rw [heq] at hacts
      exact hacts.unwind_native.started
    · cases hs
  case ret =>
    split at hs
    · next heq =>
      split at hs
      · cases hs
      obtain ⟨m₁, -, rfl⟩ := Option.map_eq_some_iff.1 hs
      split
      · intro _ _ _ _ heq
        cases heq
      · exact h.started_tail heq
    · cases hs
  case trap =>
    split at hs
    · next heq =>
      split at hs <;> cases hs
      exact h.started_tail heq
    · cases hs
  case hostReturn =>
    split at hs
    · next heq =>
      obtain ⟨m₁, -, rfl⟩ := Option.map_eq_some_iff.1 hs
      exact h.started_tail heq
    · cases hs

end Pending

/-! ## What every such run keeps -/

/-- The frames have what their functions need, and there is room for the arguments of a call that is about to start. -/
structure Held (m : Machine) (cs : List Nat) : Prop extends Shape m cs where
  bytes : ∀ a ∈ cs, ∀ f, (m.frames a).function = some f → a + f.frameBytes ≤ m.topBoundary
  size : ∀ a ∈ cs, ∀ f, (m.frames a).function = some f → f.isImportFunc = false → 72 + f.allCellNum * 5 ≤ (m.frames a).size
  pending : ∀ p a f rest, m.acts = .host p a f false :: rest → m.top + 72 + 4 * f.paramCellNum.toNat ≤ m.topBoundary

section Held
variable {m m' : Machine} {e : Event} {cs cs' : List Nat} {f g : Func} {addr n : Nat}

theorem Func.Fits.bounds (hf : f.Fits) (hi : f.isImportFunc = false) :
    72 + f.allCellNum * 5 ≤ interpFrameSize f.allCellNum ∧ f.frameBytes ≤ 72 + f.allCellNum * 5 := by
  have hlt : 72 + f.allCellNum * 5 + 3 < 2 ^ 31 := hf.resolve_left (by simp [hi])
  refine ⟨(interpFrameSize_bounds hlt).1, ?_⟩
  rw [Func.frameBytes, if_neg (by simp [hi]), Func.allCellNum]
  omega

theorem Roomy.fits (h : Roomy m e) : e.Fits := by
  cases e with
  | hostCall f => exact h.1
  | call f => exact h
  | _ => trivial

/-- The arguments of a call come from an operand stack that is smaller than the frame it belongs to, and there is room for another
such frame. -/
theorem Held.call_args (h : Held m cs) (hs : step m (.call f) = some m') (ha : Accepted m (.call f)) :
    m.bottom ≤ m.top + 72 ∧ m.top + 72 + 4 * f.paramCellNum.toNat ≤ m.topBoundary := by
  simp only [step] at hs
  split at hs
  · next a p rest heq =>
    split at hs
    · cases hs
    next hne =>
    have hacts := h.running (by simp [heq])
    rw [heq] at hacts
    obtain ⟨ds, rfl, ⟨g, hg, hi⟩, -⟩ := hacts.code_inv hne
    have hcur : m.curFrame = a := h.linked.1
    have hparams : f.paramCellNum.toNat ≤ g.maxStackCellNum.toNat := ha g (by rw [hcur, hg])
    have hsize := h.size a List.mem_cons_self g hg hi
    have hroom := h.room a List.mem_cons_self
    have htop := h.tiled.1
    have hbot := h.tiled.bounds.1
    rw [Func.allCellNum] at hsize
    omega
  · cases hs

theorem Held.push (h : Held m cs) (hs : step m e = some m') (ha : Accepted m e) {size : Nat} (he : Enters m e (some f) size)
    (hroom : m.top + size * 2 ≤ m.topBoundary) : m.top + f.frameBytes ≤ m.topBoundary ∧ (f.isImportFunc = false → 72 + f.allCellNum * 5 ≤ size) := by
  cases he with
  | start hacts hi =>
    have := h.pending _ _ _ _ hacts
    rw [Func.frameBytes, if_pos hi]
    exact ⟨by omega, fun hc => by rw [hi] at hc; cases hc⟩
  | enter hi hf | call hi hf =>
    have hb := hf.bounds hi
    exact ⟨by omega, fun _ => hb.1⟩
  | native hi =>
    have := (h.call_args hs ha).2
    rw [Func.frameBytes, if_pos hi]
    exact ⟨by omega, fun hc => by rw [hi] at hc; cases hc⟩

/-- A call from the host that gets its frame has room for its arguments. -/
theorem Roomy.alloc (hr : Roomy m (.hostCall f)) {a : Nat} {m₁ : Machine}
    (h : m.allocFrame (interpFrameSize (max f.retCellNum.toNat 2)) m.curFrame none false = some (a, m₁)) :
    m.top ≤ m₁.top ∧ m₁.top + 72 + 4 * f.paramCellNum.toNat ≤ m.topBoundary ∧ m₁.topBoundary = m.topBoundary := by
  have hlt := (Enters.host (m := m) (f := f)).bounds.2
  unfold Machine.allocFrame at h
  split at h
  · cases h
  next hroom =>
  cases h
  have := hr.2 (by omega)
  exact ⟨Nat.le_add_right _ _, this, rfl⟩

theorem Roomy.pending (hr : Roomy m (.hostCall f)) (hs : step m (.hostCall f) = some m') :
    m' = m ∨ ∃ p a rest, m'.acts = .host p a f false :: rest ∧ m'.top + 72 + 4 * f.paramCellNum.toNat ≤ m'.topBoundary := by
  cases halloc : m.allocFrame (interpFrameSize (max f.retCellNum.toNat 2)) m.curFrame none false with
  | none =>
    simp only [step, halloc] at hs
    split at hs <;> cases hs <;> exact .inl rfl
  | some r =>
    obtain ⟨a, m₁⟩ := r
    obtain ⟨-, hroom, hbound⟩ := hr.alloc halloc
    rw [← hbound] at hroom
    simp only [step, halloc] at hs
    split at hs <;> cases hs <;> exact .inr ⟨_, _, _, rfl, hroom⟩

/-- What a new frame has to bring for a fact about all the frames to go on. -/
theorem Change.forall_mem {P : Machine → Nat → Prop} (hc : Change m e m' cs cs') (h : ∀ a ∈ cs, P m a)
    (hkeep : ∀ ds, Keeps m m' ds → ∀ a ∈ ds, P m a → P m' a)
    (hpush : ∀ fn size, Keeps m m' cs → Enters m e fn size → m.top + size * 2 ≤ m.topBoundary → (m'.frames m.top).function = fn →
      (m'.frames m.top).size = size → P m' m.top) : ∀ a ∈ cs', P m' a := by
  cases hc with
  | same hs => exact fun a ha => hkeep _ hs.toKeeps a ha (h a ha)
  | push hk he hroom _ hfn hsize => exact List.forall_mem_cons.2 ⟨hpush _ _ hk he hroom hfn hsize, fun a ha => hkeep _ hk a ha (h a ha)⟩
  | pop hk hcs =>
    subst hcs
    exact fun a ha => hkeep _ hk a ha (h a (List.mem_append_right _ (List.mem_cons_of_mem _ ha)))
  | block hk => exact fun a ha => hkeep _ hk a ha (h a ha)

theorem Held.step (h : Held m cs) (hs : Interp.step m e = some m') (ha : Accepted m e) (hr : Roomy m e) : ∃ cs', Held m' cs' := by
  obtain ⟨cs', hchange, hshape⟩ := h.toShape.step hr.fits hs
  refine ⟨cs', hshape, ?_, ?_, ?_⟩
  · refine hchange.forall_mem (P := fun m a => ∀ f, (m.frames a).function = some f → a + f.frameBytes ≤ m.topBoundary) h.bytes ?_ ?_
    · intro ds hk a hmem hold f hf
      rw [hk.topBoundary]
      exact hold f (by rw [← hk.function a hmem, hf])
    intro fn size hk he hroom hfn hsize f hf
    rw [hfn] at hf
    subst hf
    rw [hk.topBoundary]
    exact (h.push hs ha he hroom).1
  · refine hchange.forall_mem
      (P := fun m a => ∀ f, (m.frames a).function = some f → f.isImportFunc = false → 72 + f.allCellNum * 5 ≤ (m.frames a).size) h.size ?_ ?_
    · intro ds hk a hmem hold f hf
      rw [hk.size a hmem]
      exact hold f (by rw [← hk.function a hmem, hf])
    intro fn size hk he hroom hfn hsize f hf
    rw [hfn] at hf
    subst hf
    rw [hsize]
    exact (h.push hs ha he hroom).2
  intro p a f rest hacts
  rcases started_of_step h.toShape hs with ⟨g, rfl⟩ | ⟨hsame, htop⟩ | hstarted
  · rcases hr.pending hs with rfl | ⟨q, b, r, hacts', hroom⟩
    · exact h.pending p a f rest hacts
    · rw [hacts'] at hacts
      cases hacts
      exact hroom
  · rw [htop, hchange.stack.2.1]
    exact h.pending p a f rest (hsame ▸ hacts)
  · exact absurd hacts (hstarted p a f rest)

theorem Held.contained (h : Held m cs) : Contained m := by
  refine ⟨cs, h.linked, fun a ha => ⟨(h.tiled.bounds.2 a ha).1, ?_, h.bytes a ha⟩⟩
  have := h.room a ha
  omega

theorem Held.args (h : Held m cs) (hs : Interp.step m e = some m') (ha : Accepted m e) (hr : Roomy m e) : ArgsContained m e := by
  intro addr n hw
  have hbot := h.tiled.bounds.1
  cases e with
  | hostCall f =>
    obtain ⟨⟨a, m₁⟩, halloc, hw⟩ := Option.map_eq_some_iff.1 hw
    cases hw
    obtain ⟨hle, hroom, -⟩ := hr.alloc halloc
    exact ⟨by omega, hroom⟩
  | call f =>
    cases hw
    exact h.call_args hs ha
  | _ => cases hw

end Held

theorem RoomyRun.held {m₀ m : Machine} (h₀ : Initial m₀) (h : RoomyRun m₀ m) : ∃ cs, Held m cs := by
  induction h with
  | refl =>
    refine ⟨[], h₀.shape, by simp, by simp, fun p a f rest hacts => ?_⟩
    rw [h₀.acts] at hacts
    cases hacts
  | step _ hs ha hr ih =>
    obtain ⟨cs, hi⟩ := ih
    exact hi.step hs ha hr

/-- In every state that such a run reaches, the frames are inside the stack with what their functions need, and the arguments that the
next step of the run writes are inside the stack too. -/
theorem contained_of_run {m₀ m : Machine} (h₀ : Initial m₀) (h : RoomyRun m₀ m) :
    Contained m ∧ ∀ e m', step m e = some m' → Accepted m e → Roomy m e → ArgsContained m e := by
  obtain ⟨cs, hi⟩ := h.held h₀
  exact ⟨hi.contained, fun e m' hs ha hr => hi.args hs ha hr⟩

/-- A function that has called another one, which is about to make a call in turn. -/
theorem contained_in_callee :
    ∃ m m', [.hostCall leaf, .start, .enter, .call leaf].foldlM step idle = some m ∧ step m (.call leaf) = some m' ∧ Contained m ∧
      ArgsContained m (.call leaf) := by
  have hrun : ∃ m₁ m₂ m₃ m₄ m₅, step idle (.hostCall leaf) = some m₁ ∧ step m₁ .start = some m₂ ∧ step m₂ .enter = some m₃ ∧
      step m₃ (.call leaf) = some m₄ ∧ step m₄ (.call leaf) = some m₅ ∧ (m₃.frames m₃.curFrame).function = some leaf ∧
      (m₄.frames m₄.curFrame).function = some leaf :=
    ⟨_, _, _, _, _, rfl, rfl, rfl, rfl, rfl, rfl, rfl⟩
  obtain ⟨m₁, m₂, m₃, m₄, m₅, h₁, h₂, h₃, h₄, h₅, hfn₃, hfn₄⟩ := hrun
  have hone : ∀ m, (m.frames m.curFrame).function = some leaf → Accepted m (.call leaf) := by
    intro m hm g hg
    cases hm.symm.trans hg
    decide
  have r₁ : RoomyRun idle m₁ := .step .refl h₁ trivial ⟨leaf_fits, fun _ => by decide⟩
  have r₃ : RoomyRun idle m₃ := (r₁.step h₂ trivial trivial).step h₃ trivial trivial
  have r₄ : RoomyRun idle m₄ := r₃.step h₄ (hone m₃ hfn₃) leaf_fits
  obtain ⟨hframes, hargs⟩ := contained_of_run idle_initial r₄
  refine ⟨m₄, m₅, ?_, h₅, hframes, hargs _ m₅ h₅ (hone m₄ hfn₄) leaf_fits⟩
  simp [h₁, h₂, h₃, h₄]

/-- Ten arguments for a function on a stack of 168 bytes: the frame of the call is granted, and the arguments are written past the
boundary. -/
theorem many_arguments_break :
    ∃ m', step { idle with topBoundary := 4264 } (.hostCall { leaf with paramCellNum := 10 }) = some m' ∧
      ¬ArgsContained { idle with topBoundary := 4264 } (.hostCall { leaf with paramCellNum := 10 }) := by
  refine ⟨_, rfl, fun h => ?_⟩
  have := (h 4252 10 rfl).2
  exact absurd this (by decide)

end WamrMigrate.Interp
