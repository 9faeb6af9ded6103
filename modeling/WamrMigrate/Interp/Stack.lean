import WamrMigrate.Interp.Frames

/-!
# The wasm stack over a run

The frames lie one on the other from the bottom of the stack, in the order of the chain of `prev_frame`, and each call in progress has its own.
`Shape.step` says what one step of the machine does to the frames and the registry (`Change`): nothing, one more frame, one less, or, when a call
returns to the host after an exception, all the frames above its own.
-/

namespace WamrMigrate.Interp

open Image

/-- The chain of `prev_frame` from a frame. -/
def Linked (frames : Nat → FrameFields) : Nat → List Nat → Prop
  | a, [] => a = 0
  | a, b :: bs => a = b ∧ b ≠ 0 ∧ Linked frames (frames b).prevFrame bs

/-- The frames lie one on the other from the bottom of the stack to its top. -/
def Tiled (frames : Nat → FrameFields) (bottom : Nat) : Nat → List Nat → Prop
  | top, [] => top = bottom
  | top, a :: as => top = a + (frames a).size ∧ 72 ≤ (frames a).size ∧ Tiled frames bottom a as

/-- The size of the frame of the function is computed without a carry out of 32 bits, also when it is doubled. -/
def Func.Fits (f : Func) : Prop := f.isImportFunc ∨ 72 + f.allCellNum * 5 + 3 < 2 ^ 31

/-- The functions that the event calls have frames of a size that can be computed. -/
def Event.Fits : Event → Prop
  | .hostCall f | .call f => f.Fits
  | _ => True

/-- What holds of the stack and the frames; `cs` are the frames, the innermost first. -/
structure Stack (m : Machine) (cs : List Nat) : Prop where
  bottom : 0 < m.bottom
  linked : Linked m.frames m.curFrame cs
  tiled : Tiled m.frames m.bottom m.top cs
  room : ∀ a ∈ cs, a + (m.frames a).size * 2 ≤ m.topBoundary

section Lists
variable {frames frames' : Nat → FrameFields} {bottom top a : Nat} {cs : List Nat}

section
variable (h : Tiled frames bottom top cs)
include h

theorem Tiled.bounds : bottom ≤ top ∧ ∀ b ∈ cs, bottom ≤ b ∧ b + (frames b).size ≤ top := by
  induction cs generalizing top with
  | nil => exact ⟨Nat.le_of_eq h.symm, by simp⟩
  | cons c cs ih =>
    obtain ⟨htop, hsize, hrest⟩ := h
    obtain ⟨hbot, hall⟩ := ih hrest
    refine ⟨by omega, List.forall_mem_cons.2 ⟨⟨hbot, by omega⟩, fun b hb => ?_⟩⟩
    have := hall b hb
    omega

theorem Tiled.size : ∀ b ∈ cs, 72 ≤ (frames b).size := by
  induction cs generalizing top with
  | nil => simp
  | cons c cs ih => exact List.forall_mem_cons.2 ⟨h.2.1, ih h.2.2⟩

theorem Tiled.lt_top : ∀ b ∈ cs, b < top := by
  intro b hb
  have h1 := (h.bounds.2 b hb).2
  have h2 := h.size b hb
  omega

theorem Tiled.nodup : cs.Nodup := by
  induction cs generalizing top with
  | nil => exact List.nodup_nil
  | cons c cs ih => exact List.nodup_cons.2 ⟨fun hc => absurd (h.2.2.lt_top c hc) (Nat.lt_irrefl c), ih h.2.2⟩

theorem Tiled.congr (hf : ∀ b ∈ cs, (frames' b).size = (frames b).size) : Tiled frames' bottom top cs := by
  induction cs generalizing top with
  | nil => exact h
  | cons c cs ih =>
    obtain ⟨htop, hsize, hrest⟩ := h
    obtain ⟨hc, hcs⟩ := List.forall_mem_cons.1 hf
    exact ⟨by rw [hc, htop], by rwa [hc], ih hrest hcs⟩

end

theorem Linked.congr (h : Linked frames a cs) (hf : ∀ b ∈ cs, (frames' b).prevFrame = (frames b).prevFrame) : Linked frames' a cs := by
  induction cs generalizing a with
  | nil => exact h
  | cons c cs ih =>
    obtain ⟨hac, hne, hrest⟩ := h
    obtain ⟨hc, hcs⟩ := List.forall_mem_cons.1 hf
    refine ⟨hac, hne, ?_⟩
    rw [hc]
    exact ih hrest hcs

end Lists

theorem interpFrameSize_bounds {n : Nat} (h : 72 + n * 5 + 3 < 2 ^ 31) : 72 + n * 5 ≤ interpFrameSize n ∧ interpFrameSize n < 2 ^ 31 := by
  rw [interpFrameSize, Nat.mod_eq_of_lt (a := 72 + n * 5) (by omega), Nat.mod_eq_of_lt (by omega)]
  omega

/-! ## The calls in progress -/

/-- The frame is that of a wasm function. -/
def IsCode (fields : FrameFields) : Prop := ∃ g, fields.function = some g ∧ g.isImportFunc = false

/-- The calls in progress and the frames they have on the stack, with nothing left behind by an exception. Frames that no call in
progress has are below (`nil`): those that a restored process was given. In such a process `wasm_interp_call_func_bytecode` goes on
with no call from the host around it (`resume`). -/
inductive Acts (frames : Nat → FrameFields) : List Act → List Nat → Prop
  | nil {cs : List Nat} : Acts frames [] cs
  | host {acts : List Act} {cs : List Nat} {a : Nat} {f : Func} {s : Bool} (h : Acts frames acts cs)
      (ht : acts = [] ∨ ∃ b p rest, acts = .native b p :: rest) (hip : (frames a).ip = false) (hf : f.Fits) :
      Acts frames (.host (cs.headD 0) a f s :: acts) (a :: cs)
  | start {acts : List Act} {cs : List Nat} {p a : Nat} {f : Func} (h : Acts frames (.host p a f true :: acts) (a :: cs))
      (hf : f.isImportFunc = false) : Acts frames (.code 0 a :: .host p a f true :: acts) (a :: cs)
  | resume {cs : List Nat} {a b : Nat} (hb : b ≠ 0) (hip : (frames a).ip = false) (hfn : IsCode (frames b)) :
      Acts frames [.code b a] (b :: a :: cs)
  | enter {acts : List Act} {cs : List Nat} {a b : Nat} (h : Acts frames (.code 0 a :: acts) (a :: cs)) (hb : b ≠ 0)
      (hfn : IsCode (frames b)) : Acts frames (.code b a :: acts) (b :: a :: cs)
  | call {acts : List Act} {cs : List Nat} {a b p : Nat} (h : Acts frames (.code a p :: acts) (a :: cs)) (ha : a ≠ 0)
      (hip : (frames a).ip = true) (hb : b ≠ 0) (hfn : IsCode (frames b)) : Acts frames (.code b a :: acts) (b :: a :: cs)
  | nativeOfCode {acts : List Act} {cs : List Nat} {a b p : Nat} (h : Acts frames (.code a p :: acts) (a :: cs)) (ha : a ≠ 0) :
      Acts frames (.native b a :: .code a p :: acts) (b :: a :: cs)
  | nativeOfHost {acts : List Act} {cs : List Nat} {a b p : Nat} {f : Func} (h : Acts frames (.host p a f true :: acts) (a :: cs)) :
      Acts frames (.native b a :: .host p a f true :: acts) (b :: a :: cs)

/-- After an exception the frame of the call to be left is below those that are left behind. -/
def Unwinding (frames : Nat → FrameFields) (acts : List Act) (cs : List Nat) : Prop :=
  ∃ p a f rest inner ds, acts = .host p a f true :: rest ∧ cs = inner ++ a :: ds ∧ inner ≠ [] ∧ Acts frames acts (a :: ds)

/-- What is left of the calls in progress after an exception. -/
def Left (frames : Nat → FrameFields) (acts : List Act) (cs : List Nat) : Prop := acts = [] ∨ Unwinding frames acts cs

section Acts
variable {frames frames' : Nat → FrameFields} {acts : List Act} {cs : List Nat} {a b p : Nat}

theorem Left.above (h : Left frames acts cs) (b : Nat) : Left frames acts (b :: cs) := by
  rcases h with h | ⟨p, a, f, rest, inner, ds, hacts, hcs, hne, hbelow⟩
  · exact .inl h
  · exact .inr ⟨p, a, f, rest, b :: inner, ds, hacts, by rw [hcs]; rfl, List.cons_ne_nil _ _, hbelow⟩

theorem Left.inProgress (h : Left frames acts cs) : Acts frames acts cs ∨ Unwinding frames acts cs := by
  rcases h with rfl | h
  · exact .inl .nil
  · exact .inr h

theorem Acts.congr (h : Acts frames acts cs) (hf : ∀ b ∈ cs, (frames' b).ip = (frames b).ip ∧ (frames' b).function = (frames b).function) :
    Acts frames' acts cs := by
  have code : ∀ b, (frames' b).function = (frames b).function → IsCode (frames b) → IsCode (frames' b) := by
    rintro b hb ⟨g, hg, hi⟩
    exact ⟨g, hb.trans hg, hi⟩
  induction h with
  | nil => exact .nil
  | host h ht hip hfits ih =>
    obtain ⟨ha, hcs⟩ := List.forall_mem_cons.1 hf
    exact .host (ih hcs) ht (by rw [ha.1, hip]) hfits
  | start h hfn ih => exact .start (ih hf) hfn
  | resume hb hip hfn =>
    obtain ⟨hb', hcs⟩ := List.forall_mem_cons.1 hf
    exact .resume hb (by rw [(List.forall_mem_cons.1 hcs).1.1, hip]) (code _ hb'.2 hfn)
  | enter h hb hfn ih =>
    obtain ⟨hb', hcs⟩ := List.forall_mem_cons.1 hf
    exact .enter (ih hcs) hb (code _ hb'.2 hfn)
  | call h ha hip hb hfn ih =>
    obtain ⟨hb', hcs⟩ := List.forall_mem_cons.1 hf
    exact .call (ih hcs) ha (by rw [(List.forall_mem_cons.1 hcs).1.1, hip]) hb (code _ hb'.2 hfn)
  | nativeOfCode h ha ih => exact .nativeOfCode (ih (List.forall_mem_cons.1 hf).2) ha
  | nativeOfHost h ih => exact .nativeOfHost (ih (List.forall_mem_cons.1 hf).2)

theorem Acts.code_inv (h : Acts frames (.code a p :: acts) cs) (ha : a ≠ 0) : ∃ ds, cs = a :: p :: ds ∧ IsCode (frames a) ∧
      (((frames p).ip = true ∧ p ≠ 0 ∧ ∃ q, Acts frames (.code p q :: acts) (p :: ds)) ∨ (frames p).ip = false ∧ Acts frames acts (p :: ds)) := by
  cases h with
  | start h hf => exact absurd rfl ha
  | @resume ds _ _ hb hip hfn => exact ⟨ds, rfl, hfn, .inr ⟨hip, .nil⟩⟩
  | @enter _ ds _ _ h hb hfn =>
    refine ⟨ds, rfl, hfn, .inr ?_⟩
    cases h with
    | start h hf =>
      refine ⟨?_, h⟩
      cases h with
      | host h ht hip hf => exact hip
    | resume hb | enter h hb | call h ha hip hb => exact absurd rfl hb
  | @call _ ds _ _ q h ha hip hb hfn => exact ⟨ds, rfl, hfn, .inl ⟨hip, ha, q, h⟩⟩

/-- An exception in a wasm function leaves its frames above that of the call from the host, if there is one. -/
theorem Acts.unwind (h : Acts frames (.code a p :: acts) cs) (ha : a ≠ 0) : Left frames acts cs := by
  obtain ⟨l, hl⟩ : ∃ l, l = Act.code a p :: acts := ⟨_, rfl⟩
  rw [← hl] at h
  induction h generalizing a p acts with
  | nil | host h ht hip hf ih | nativeOfCode h ha ih | nativeOfHost h ih => cases hl
  | start h hf ih =>
    cases hl
    exact absurd rfl ha
  | resume hb hip hfn =>
    cases hl
    exact .inl rfl
  | enter h hb hfn ih =>
    cases hl
    cases h with
    | start h hf => exact .inr ⟨_, _, _, _, [_], _, rfl, rfl, List.cons_ne_nil _ _, h⟩
    | resume hb | enter h hb | call h ha hip hb => exact absurd rfl hb
  | call h ha' hip hb hfn ih =>
    cases hl
    exact (ih ha' rfl).above _

theorem Acts.native_inv (h : Acts frames (.native a p :: acts) cs) : ∃ ds, cs = a :: p :: ds ∧ Acts frames acts (p :: ds) := by
  cases h with
  | nativeOfCode h ha | nativeOfHost h => exact ⟨_, rfl, h⟩

/-- An exception in a native function leaves its frame behind, and those of the wasm function around it. -/
theorem Acts.unwind_native (h : Acts frames (.native a p :: acts) cs) : Left frames (Interp.unwind acts) cs := by
  cases h with
  | nativeOfCode h ha => exact (h.unwind ha).above _
  | nativeOfHost h => exact .inr ⟨_, _, _, _, [_], _, rfl, rfl, List.cons_ne_nil _ _, h⟩

theorem Acts.host_inv {f : Func} {s : Bool} (h : Acts frames (.host p a f s :: acts) cs) :
    ∃ ds, cs = a :: ds ∧ p = ds.headD 0 ∧ Acts frames acts ds ∧ (acts = [] ∨ ∃ b q rest, acts = .native b q :: rest) ∧
      (frames a).ip = false ∧ f.Fits := by
  cases h with
  | host h ht hip hf => exact ⟨_, rfl, rfl, h, ht, hip, hf⟩

end Acts

theorem Linked.headD {frames : Nat → FrameFields} {a : Nat} {cs : List Nat} (h : Linked frames a cs) : cs.headD 0 = a := by
  cases cs with
  | nil => exact h.symm
  | cons c cs => exact h.1.symm

section Append
variable {frames : Nat → FrameFields} {bottom top a b : Nat} {inner ds : List Nat}

theorem Tiled.below (h : Tiled frames bottom top (inner ++ a :: ds)) : Tiled frames bottom a ds := by
  induction inner generalizing top with
  | nil => exact h.2.2
  | cons c inner ih => exact ih h.2.2

theorem Linked.below (h : Linked frames b (inner ++ a :: ds)) : Linked frames (frames a).prevFrame ds := by
  induction inner generalizing b with
  | nil => exact h.2.2
  | cons c inner ih => exact ih h.2.2

end Append

/-! ## What a step does -/

/-- The frames are where they were, with the same callers, functions and sizes. -/
structure Keeps (m m' : Machine) (cs : List Nat) : Prop where
  bottom : m'.bottom = m.bottom
  topBoundary : m'.topBoundary = m.topBoundary
  prevFrame : ∀ a ∈ cs, (m'.frames a).prevFrame = (m.frames a).prevFrame
  function : ∀ a ∈ cs, (m'.frames a).function = (m.frames a).function
  size : ∀ a ∈ cs, (m'.frames a).size = (m.frames a).size

/-- The frames, the stack and the registry are as they were. -/
structure Same (m m' : Machine) (cs : List Nat) : Prop extends Keeps m m' cs where
  top : m'.top = m.top
  curFrame : m'.curFrame = m.curFrame
  registry : m'.registry = m.registry

/-- The event that takes a frame, the function the frame is for and its size. -/
inductive Enters (m : Machine) : Event → Option Func → Nat → Prop
  | host {f : Func} : Enters m (.hostCall f) none (interpFrameSize (max f.retCellNum.toNat 2))
  | start {p a : Nat} {f : Func} {rest : List Act} (hacts : m.acts = .host p a f false :: rest) (hi : f.isImportFunc = true) :
      Enters m .start (some f) (interpFrameSize 2)
  | enter {f : Func} (hi : f.isImportFunc = false) (hf : f.Fits) : Enters m .enter (some f) (interpFrameSize f.allCellNum)
  | call {f : Func} (hi : f.isImportFunc = false) (hf : f.Fits) : Enters m (.call f) (some f) (interpFrameSize f.allCellNum)
  | native {f : Func} (hi : f.isImportFunc = true) : Enters m (.call f) (some f) (interpFrameSize 2)

/-- The blocks that are not frames: one more, outside the stack, or one less. -/
def BlockChange (m : Machine) (e : Event) (m' : Machine) : Prop :=
  (∃ x, e = .register x ∧ x.type ≠ .wasmInterpFrameT ∧ ¬(m.bottom ≤ x.pRaw ∧ x.pRaw ≤ m.topBoundary) ∧
      m'.registry = { m.registry with rootInfo := x :: m.registry.rootInfo }) ∨
    ∃ addr, e = .free addr ∧ ¬(m.bottom ≤ addr ∧ addr ≤ m.topBoundary) ∧ m.registry.freeInfo addr = some m'.registry

/-- What a step does to the frames `cs` and to the registry. -/
inductive Change (m : Machine) (e : Event) (m' : Machine) (cs : List Nat) : List Nat → Prop
  | same (h : Same m m' cs) : Change m e m' cs cs
  | push {fn : Option Func} {size : Nat} (hk : Keeps m m' cs) (he : Enters m e fn size) (hroom : m.top + size * 2 ≤ m.topBoundary)
      (hprev : (m'.frames m.top).prevFrame = m.curFrame) (hfn : (m'.frames m.top).function = fn) (hsize : (m'.frames m.top).size = size)
      (htop : m'.top = m.top + size) (hcur : m'.curFrame = m.top)
      (hreg : m'.registry = { m.registry with rootInfo := frameEntry m.registry.pool m.top size :: m.registry.rootInfo }) :
      Change m e m' cs (m.top :: cs)
  | pop {inner ds : List Nat} {a : Nat} (hk : Keeps m m' ds) (hcs : cs = inner ++ a :: ds)
      (he : inner ≠ [] → e = .hostReturn ∧ ∃ p f s rest, m.acts = .host p a f s :: rest)
      (htop : m'.top = a) (hcur : m'.curFrame = (m.frames a).prevFrame) (hreg : m.registry.freeInfo a = some m'.registry) :
      Change m e m' cs ds
  | block (hk : Keeps m m' cs) (htop : m'.top = m.top) (hcur : m'.curFrame = m.curFrame) (hb : BlockChange m e m') : Change m e m' cs cs

/-- The frames and the calls in progress. -/
structure Shape (m : Machine) (cs : List Nat) : Prop extends Stack m cs where
  acts : Acts m.frames m.acts cs ∨ Unwinding m.frames m.acts cs

theorem Enters.bounds {m : Machine} {e : Event} {fn : Option Func} {size : Nat} (h : Enters m e fn size) : 72 ≤ size ∧ size < 2 ^ 31 := by
  have code : ∀ f : Func, f.isImportFunc = false → f.Fits → 72 ≤ interpFrameSize f.allCellNum ∧ interpFrameSize f.allCellNum < 2 ^ 31 := by
    intro f hi hf
    have hlt : 72 + f.allCellNum * 5 + 3 < 2 ^ 31 := hf.resolve_left (by simp [hi])
    have := interpFrameSize_bounds hlt
    omega
  cases h with
  | @host f =>
    have hret := f.retCellNum.toNat_lt
    have := interpFrameSize_bounds (n := max f.retCellNum.toNat 2) (by omega)
    omega
  | start | native => decide
  | enter hi hf | call hi hf => exact code _ hi hf

section Change
variable {m m' : Machine} {e : Event} {cs cs' : List Nat}

theorem Stack.change (h : Stack m cs) (hc : Change m e m' cs cs') : Stack m' cs' := by
  -- the frames of `ds`, which are some of `cs`, are where they were
  have kept : ∀ ds, (∀ a ∈ ds, a ∈ cs) → Keeps m m' ds → ∀ a ∈ ds, a + (m'.frames a).size * 2 ≤ m'.topBoundary := by
    intro ds hds hk a ha
    rw [hk.size a ha, hk.topBoundary]
    exact h.room a (hds a ha)
  have hbottom : ∀ ds, Keeps m m' ds → 0 < m'.bottom := fun ds hk => by
    rw [hk.bottom]
    exact h.bottom
  cases hc with
  | same hs =>
    refine ⟨hbottom cs hs.toKeeps, ?_, ?_, kept cs (fun _ ha => ha) hs.toKeeps⟩
    · rw [hs.curFrame]
      exact h.linked.congr hs.prevFrame
    · rw [hs.top, hs.bottom]
      exact h.tiled.congr hs.size
  | @push fn size hk he hroom hprev hfn hsize htop hcur hreg =>
    have hpos : 0 < m.top := Nat.lt_of_lt_of_le h.bottom h.tiled.bounds.1
    refine ⟨hbottom cs hk, ?_, ?_, List.forall_mem_cons.2 ⟨?_, kept cs (fun _ ha => ha) hk⟩⟩
    · refine ⟨hcur, Nat.pos_iff_ne_zero.1 hpos, ?_⟩
      rw [hprev]
      exact h.linked.congr hk.prevFrame
    · refine ⟨by rw [htop, hsize], by rw [hsize]; exact he.bounds.1, ?_⟩
      rw [hk.bottom]
      exact h.tiled.congr hk.size
    · rw [hsize, hk.topBoundary]
      exact hroom
  | @pop inner ds a hk hcs he htop hcur hreg =>
    subst hcs
    refine ⟨hbottom _ hk, ?_, ?_, kept _ (fun b hb => List.mem_append_right _ (List.mem_cons_of_mem _ hb)) hk⟩
    · rw [hcur]
      exact h.linked.below.congr hk.prevFrame
    · rw [htop, hk.bottom]
      exact h.tiled.below.congr hk.size
  | block hk htop hcur hb =>
    refine ⟨hbottom cs hk, ?_, ?_, kept cs (fun _ ha => ha) hk⟩
    · rw [hcur]
      exact h.linked.congr hk.prevFrame
    · rw [htop, hk.bottom]
      exact h.tiled.congr hk.size

end Change

/-! ## Steps -/

section Step
variable {m m₀ m' : Machine} {e : Event} {frames : Nat → FrameFields} {cs ds : List Nat} {acts rest : List Act} {a p : Nat} {f : Func}

theorem Same.withActs (acts : List Act) : Same m { m with acts := acts } cs :=
  ⟨⟨rfl, rfl, fun _ _ => rfl, fun _ _ => rfl, fun _ _ => rfl⟩, rfl, rfl, rfl⟩

/-- A frame is taken, in a state that differs from `m₀` in a saved `ip`. -/
theorem Change.of_alloc {fn : Option Func} {ip : Bool} {size : Nat} (hst : Stack m cs) (hs : Same m₀ m cs) (he : Enters m₀ e fn size)
    (h : m.allocFrame size m.curFrame fn ip = some (a, m')) (acts : List Act) :
    a = m.top ∧ m'.frames = Function.update m.frames m.top ⟨m.curFrame, fn, ip, size⟩ ∧
      Change m₀ e { m' with curFrame := a, acts := acts } cs (m₀.top :: cs) := by
  have hlt := he.bounds.2
  unfold Machine.allocFrame at h
  split at h
  · cases h
  next hroom =>
  cases h
  refine ⟨rfl, rfl, ?_⟩
  have hself : (Function.update m.frames m.top ⟨m.curFrame, fn, ip, size⟩) m.top = ⟨m.curFrame, fn, ip, size⟩ :=
    Function.update_self ..
  have hother : ∀ b ∈ cs, (Function.update m.frames m.top ⟨m.curFrame, fn, ip, size⟩) b = m.frames b :=
    fun b hc => Function.update_of_ne (Nat.ne_of_lt (hst.tiled.lt_top b hc)) ..
  refine .push ⟨hs.bottom, hs.topBoundary, ?_, ?_, ?_⟩ he ?_ ?_ ?_ ?_ ?_ ?_ ?_
  · exact fun b hc => (congrArg FrameFields.prevFrame (hother b hc)).trans (hs.prevFrame b hc)
  · exact fun b hc => (congrArg FrameFields.function (hother b hc)).trans (hs.function b hc)
  · exact fun b hc => (congrArg FrameFields.size (hother b hc)).trans (hs.size b hc)
  · rw [← hs.top, ← hs.topBoundary]
    omega
  · rw [← hs.top, ← hs.curFrame]
    exact congrArg FrameFields.prevFrame hself
  · rw [← hs.top]
    exact congrArg FrameFields.function hself
  · rw [← hs.top]
    exact congrArg FrameFields.size hself
  · rw [← hs.top]
  · exact hs.top
  · rw [← hs.registry, ← hs.top]

/-- The calls in progress after a step. -/
def Outcome (m : Machine) (e : Event) (m' : Machine) (cs : List Nat) : Prop :=
  ∃ cs', Change m e m' cs cs' ∧ (Acts m'.frames m'.acts cs' ∨ Unwinding m'.frames m'.acts cs')

theorem update_of_mem {fields : FrameFields} (hst : Stack m cs) {b : Nat} (hc : b ∈ cs) : Function.update m.frames m.top fields b = m.frames b :=
  Function.update_of_ne (Nat.ne_of_lt (hst.tiled.lt_top b hc)) ..

theorem Same.trans {m₁ m₂ : Machine} (h : Same m m₁ cs) (h' : Same m₁ m₂ cs) : Same m m₂ cs where
  bottom := h'.bottom.trans h.bottom
  topBoundary := h'.topBoundary.trans h.topBoundary
  prevFrame a ha := (h'.prevFrame a ha).trans (h.prevFrame a ha)
  function a ha := (h'.function a ha).trans (h.function a ha)
  size a ha := (h'.size a ha).trans (h.size a ha)
  top := h'.top.trans h.top
  curFrame := h'.curFrame.trans h.curFrame
  registry := h'.registry.trans h.registry

/-- A wasm function is entered on a new frame, or an exception is raised. -/
theorem Outcome.enterCode (hst : Stack m cs) (hs : Same m₀ m cs) (hcur : m.curFrame = p)
    (he : Enters m₀ e (some f) (interpFrameSize f.allCellNum)) (hi : f.isImportFunc = false) (hacts : ∀ frames b, b ≠ 0 → IsCode (frames b) →
      (∀ c ∈ cs, (frames c).ip = (m.frames c).ip ∧ (frames c).function = (m.frames c).function) → Acts frames (.code b p :: rest) (b :: cs))
    (hun : Acts m.frames rest cs ∨ Unwinding m.frames rest cs) : Outcome m₀ e (m.enterCode f p rest) cs := by
  have hexc : Outcome m₀ e { m with acts := rest } cs := ⟨cs, .same (hs.trans (Same.withActs rest)), hun⟩
  unfold Machine.enterCode
  split
  · exact hexc
  subst hcur
  cases halloc : m.allocFrame (interpFrameSize f.allCellNum) m.curFrame (some f) (m.frames m.top).ip with
  | none => exact hexc
  | some r =>
    obtain ⟨b, m'⟩ := r
    obtain ⟨rfl, hframes, hchange⟩ := Change.of_alloc hst hs he halloc (.code b m.curFrame :: rest)
    refine ⟨_, hchange, .inl ?_⟩
    rw [← hs.top]
    have hpos : 0 < m.top := Nat.lt_of_lt_of_le hst.bottom hst.tiled.bounds.1
    refine hacts _ _ (Nat.pos_iff_ne_zero.1 hpos) ⟨f, ?_, hi⟩ fun c hc => ?_
    · show (m'.frames m.top).function = _
      rw [hframes, Function.update_self]
    · show (m'.frames c).ip = _ ∧ (m'.frames c).function = _
      rw [hframes, update_of_mem hst hc]
      exact ⟨rfl, rfl⟩

/-- A native function is entered on a new frame, or an exception is raised. -/
theorem Outcome.enterNative (hst : Stack m cs) (hs : Same m₀ m cs) (hcur : m.curFrame = p)
    (he : Enters m₀ e (some f) (interpFrameSize 2)) {m₁ : Machine} (hexc : Outcome m₀ e m₁ cs)
    (hacts : ∀ frames b, (∀ c ∈ cs, (frames c).ip = (m.frames c).ip ∧ (frames c).function = (m.frames c).function) →
      Acts frames (.native b p :: m.acts) (b :: cs)) : Outcome m₀ e ((m.enterNative f p).getD m₁) cs := by
  subst hcur
  unfold Machine.enterNative
  cases halloc : m.allocFrame (interpFrameSize 2) m.curFrame (some f) false with
  | none => exact hexc
  | some r =>
    obtain ⟨b, m'⟩ := r
    have hsame : m'.acts = m.acts := by
      unfold Machine.allocFrame at halloc
      split at halloc <;> cases halloc
      rfl
    obtain ⟨rfl, hframes, hchange⟩ := Change.of_alloc hst hs he halloc (.native b m.curFrame :: m'.acts)
    refine ⟨_, hchange, .inl ?_⟩
    show Acts m'.frames (.native m.top m.curFrame :: m'.acts) _
    rw [← hs.top, hsame]
    refine hacts _ _ fun c hc => ?_
    rw [hframes, update_of_mem hst hc]
    exact ⟨rfl, rfl⟩

/-- Only a call that is to return to the host can have frames left behind above it. -/
theorem Shape.running (h : Shape m cs) (hne : ∀ p a f rest, m.acts ≠ .host p a f true :: rest) : Acts m.frames m.acts cs := by
  rcases h.acts with ha | ⟨p, a, g, rest, -, -, hacts, -⟩
  · exact ha
  · exact absurd hacts (hne p a g rest)

theorem Shape.hostCall (h : Shape m cs) (hf : f.Fits) (hs : step m (.hostCall f) = some m') : Outcome m (.hostCall f) m' cs := by
  have htop : m.acts = [] ∨ ∃ b p rest, m.acts = .native b p :: rest := by
    simp only [step] at hs
    split at hs
    · next heq => exact .inl heq
    · next heq => exact .inr ⟨_, _, _, heq⟩
    · cases hs
  have hacts : Acts m.frames m.acts cs := h.running fun p a g rest heq => by
    rcases htop with h | ⟨b, q, r, h⟩ <;> rw [heq] at h <;> cases h
  cases halloc : m.allocFrame (interpFrameSize (max f.retCellNum.toNat 2)) m.curFrame none false with
  | none =>
    have hm : m = m' := by
      rcases htop with heq | ⟨b, p, rest, heq⟩ <;> simp only [step, heq, halloc] at hs <;> exact Option.some.inj hs
    subst hm
    exact ⟨cs, .same (Same.withActs m.acts), h.acts⟩
  | some r =>
    obtain ⟨b, m₁⟩ := r
    obtain ⟨rfl, hframes, hchange⟩ :=
      Change.of_alloc h.toStack (Same.withActs m.acts) .host halloc (.host m.curFrame b f false :: m.acts)
    have hm : { m₁ with curFrame := m.top, acts := .host m.curFrame m.top f false :: m.acts } = m' := by
      rcases htop with heq | ⟨b, p, rest, heq⟩ <;> simp only [step, heq, halloc] at hs <;> rw [heq] <;> exact Option.some.inj hs
    rw [← hm]
    refine ⟨_, hchange, .inl ?_⟩
    show Acts m₁.frames (.host m.curFrame m.top f false :: m.acts) (m.top :: cs)
    rw [← h.linked.headD, hframes]
    refine .host (hacts.congr fun c hc => by rw [update_of_mem h.toStack hc]; exact ⟨rfl, rfl⟩) htop ?_ hf
    rw [Function.update_self]

theorem Stack.withActs (h : Stack m cs) (acts : List Act) : Stack { m with acts := acts } cs := ⟨h.bottom, h.linked, h.tiled, h.room⟩

theorem Shape.start (h : Shape m cs) (hs : step m .start = some m') : Outcome m .start m' cs := by
  simp only [step] at hs
  split at hs
  · next p a f rest heq =>
    have hacts := h.running (by simp [heq])
    rw [heq] at hacts
    obtain ⟨ds, rfl, rfl, hbelow, ht, hip, hf⟩ := hacts.host_inv
    have hstarted : Acts m.frames (.host (ds.headD 0) a f true :: rest) (a :: ds) := .host hbelow ht hip hf
    have hst := h.toStack.withActs (.host (ds.headD 0) a f true :: rest)
    have hsame : Same m { m with acts := .host (ds.headD 0) a f true :: rest } (a :: ds) := Same.withActs _
    split at hs
    · next hi =>
      cases hs
      exact Outcome.enterNative hst hsame h.linked.1 (.start heq hi) ⟨_, .same hsame, .inl hstarted⟩ fun frames b hc =>
        .nativeOfHost (hstarted.congr hc)
    · next hi =>
      cases hs
      exact ⟨a :: ds, .same (Same.withActs _), .inl (.start hstarted (by simpa using hi))⟩
  · cases hs

theorem Shape.enter (h : Shape m cs) (hs : step m .enter = some m') : Outcome m .enter m' cs := by
  simp only [step] at hs
  split at hs
  · next p p' a f s rest heq =>
    cases hs
    have hacts := h.running (by simp [heq])
    rw [heq] at hacts
    have hacts' := hacts
    cases hacts with
    | start hhost hi =>
      obtain ⟨-, -, -, -, -, -, hf⟩ := hhost.host_inv
      exact Outcome.enterCode h.toStack (Same.withActs m.acts) h.linked.1 (.enter hi hf) hi
        (fun frames b hb hfn hc => .enter (hacts'.congr hc) hb hfn) (.inl hhost)
    | enter _ hb | call _ _ _ hb => exact absurd rfl hb
  · cases hs

theorem Same.sync (a : Nat) (ip : Bool) : Same m (m.setFrame a { m.frames a with ip := ip }) cs := by
  let m' := m.setFrame a { m.frames a with ip := ip }
  have hsame : ∀ b, (m'.frames b).prevFrame = (m.frames b).prevFrame ∧ (m'.frames b).function = (m.frames b).function ∧
      (m'.frames b).size = (m.frames b).size := by
    intro b
    by_cases hab : b = a
    · subst hab
      simp [m', Machine.setFrame]
    · simp [m', Machine.setFrame, hab]
  exact ⟨⟨rfl, rfl, fun b _ => (hsame b).1, fun b _ => (hsame b).2.1, fun b _ => (hsame b).2.2⟩, rfl, rfl, rfl⟩

/-- The calls in progress do not depend on the `ip` of the frame that runs. -/
theorem Acts.sync (h : Acts frames (.code a p :: acts) (a :: cs)) (ha : a ≠ 0) (hn : a ∉ cs) (ip : Bool) :
    Acts (Function.update frames a { frames a with ip := ip }) (.code a p :: acts) (a :: cs) := by
  have hsame : ∀ b ∈ cs, Function.update frames a { frames a with ip := ip } b = frames b := fun b hb =>
    Function.update_of_ne (ne_of_mem_of_not_mem hb hn) ..
  have hsame' : ∀ b ∈ cs, (Function.update frames a { frames a with ip := ip } b).ip = (frames b).ip ∧
      (Function.update frames a { frames a with ip := ip } b).function = (frames b).function := fun b hb => by
    rw [hsame b hb]
    exact ⟨rfl, rfl⟩
  have hcode : IsCode (frames a) → IsCode (Function.update frames a { frames a with ip := ip } a) := by
    rw [Function.update_self]
    exact id
  cases h with
  | start => exact absurd rfl ha
  | resume hb hip hfn => exact .resume hb (by rw [hsame _ List.mem_cons_self, hip]) (hcode hfn)
  | enter h hb hfn => exact .enter (h.congr hsame') hb (hcode hfn)
  | call h ha' hip hb hfn => exact .call (h.congr hsame') ha' (by rw [hsame _ List.mem_cons_self, hip]) hb (hcode hfn)

theorem Shape.call (h : Shape m cs) (hf : f.Fits) (hs : step m (.call f) = some m') : Outcome m (.call f) m' cs := by
  simp only [step] at hs
  split at hs
  · next a p rest heq =>
    split at hs
    · cases hs
    next ha =>
    have hacts := h.running (by simp [heq])
    rw [heq] at hacts
    obtain ⟨ds, rfl, -⟩ := hacts.code_inv ha
    have hsame : Same m (m.setFrame a { m.frames a with ip := true }) (a :: p :: ds) := Same.sync a true
    have hst : Stack (m.setFrame a { m.frames a with ip := true }) (a :: p :: ds) := h.toStack.change (e := .start) (.same hsame)
    have hsynced := hacts.sync ha (List.nodup_cons.1 h.tiled.nodup).1 true
    have hun : Left (Function.update m.frames a { m.frames a with ip := true }) rest (a :: p :: ds) := hsynced.unwind ha
    split at hs
    · next hi =>
      cases hs
      have hexc := hsame.trans (Same.withActs rest)
      refine Outcome.enterNative hst hsame h.linked.1 (.native hi) ⟨_, .same hexc, hun.inProgress⟩ fun frames b hc => ?_
      show Acts frames (.native b a :: m.acts) _
      rw [heq]
      exact .nativeOfCode (hsynced.congr hc) ha
    next hi =>
    cases hs
    have hcode : f.isImportFunc = false := by simpa using hi
    refine Outcome.enterCode hst hsame h.linked.1 (.call hcode hf) hcode (fun frames b hb hfn hc => ?_) hun.inProgress
    refine .call (hsynced.congr hc) ha ?_ hb hfn
    have hip : (Function.update m.frames a { m.frames a with ip := true } a).ip = true := by rw [Function.update_self]
    rw [(hc a List.mem_cons_self).1]
    exact hip
  · cases hs

theorem Change.of_free {inner : List Nat} (hst : Stack m (inner ++ a :: ds)) (hfree : m.freeFrame a = some m')
    (he : inner ≠ [] → e = .hostReturn ∧ ∃ p f s rest, m.acts = .host p a f s :: rest) (acts : List Act) :
    m'.frames = m.frames ∧ Change m e { m' with curFrame := ds.headD 0, acts := acts } (inner ++ a :: ds) ds := by
  obtain ⟨R, hreg, rfl⟩ := Option.map_eq_some_iff.1 hfree
  refine ⟨rfl, .pop ⟨rfl, rfl, fun _ _ => rfl, fun _ _ => rfl, fun _ _ => rfl⟩ rfl he rfl hst.linked.below.headD hreg⟩

theorem Shape.nativeReturn {ok : Bool} (h : Shape m cs) (hs : step m (.nativeReturn ok) = some m') : Outcome m (.nativeReturn ok) m' cs := by
  simp only [step] at hs
  split at hs
  · next a p rest heq =>
    have hacts := h.running (by simp [heq])
    rw [heq] at hacts
    split at hs
    · obtain ⟨ds, rfl, hbelow⟩ := hacts.native_inv
      obtain ⟨m₁, hfree, rfl⟩ := Option.map_eq_some_iff.1 hs
      have hst : Stack m ([] ++ a :: p :: ds) := h.toStack
      obtain ⟨hframes, hchange⟩ := Change.of_free hst hfree (fun hne => absurd rfl hne) rest
      rw [← hframes] at hbelow
      exact ⟨p :: ds, hchange, .inl hbelow⟩
    · cases hs
      exact ⟨cs, .same (Same.withActs _), hacts.unwind_native.inProgress⟩
  · cases hs

theorem Shape.ret (h : Shape m cs) (hs : step m .ret = some m') : Outcome m .ret m' cs := by
  simp only [step] at hs
  split at hs
  · next a p rest heq =>
    split at hs
    · cases hs
    next ha =>
    have hacts := h.running (by simp [heq])
    rw [heq] at hacts
    obtain ⟨ds, rfl, -, hcaller⟩ := hacts.code_inv ha
    obtain ⟨m₁, hfree, rfl⟩ := Option.map_eq_some_iff.1 hs
    have hst : Stack m ([] ++ a :: p :: ds) := h.toStack
    have hfreed := Change.of_free (e := .ret) hst hfree (fun hne => absurd rfl hne)
    rw [← (hfreed rest).1] at hcaller
    refine ⟨p :: ds, ?_⟩
    rcases hcaller with ⟨hip, hne, q, hcode⟩ | ⟨hip, hbelow⟩
    · -- the caller is a wasm function, whose own caller is read from its frame
      obtain ⟨es, hes, -⟩ := hcode.code_inv hne
      cases hes
      have hq : (m₁.frames p).prevFrame = q := by
        rw [(hfreed rest).1]
        exact h.linked.2.2.2.2.1
      simp only [hip, if_true, hq]
      exact ⟨(hfreed _).2, .inl hcode⟩
    · simp only [hip, Bool.false_eq_true, if_false]
      exact ⟨(hfreed rest).2, .inl hbelow⟩
  · cases hs

theorem Shape.trap (h : Shape m cs) (hs : step m .trap = some m') : Outcome m .trap m' cs := by
  simp only [step] at hs
  split at hs
  · next a p rest heq =>
    split at hs
    · cases hs
    next ha =>
    cases hs
    have hacts := h.running (by simp [heq])
    rw [heq] at hacts
    exact ⟨cs, .same (Same.withActs rest), (hacts.unwind ha).inProgress⟩
  · cases hs

theorem Shape.hostReturn (h : Shape m cs) (hs : step m .hostReturn = some m') : Outcome m .hostReturn m' cs := by
  simp only [step] at hs
  split at hs
  · next p a f rest heq =>
    obtain ⟨inner, ds, rfl, hacts⟩ : ∃ inner ds, cs = inner ++ a :: ds ∧ Acts m.frames (.host p a f true :: rest) (a :: ds) := by
      rcases h.acts with ha | ⟨p', a', g, rest', inner, ds, hacts, rfl, -, hbelow⟩
      · rw [heq] at ha
        obtain ⟨ds, rfl, -⟩ := ha.host_inv
        exact ⟨[], ds, rfl, ha⟩
      · rw [heq] at hacts
        cases hacts
        exact ⟨inner, ds, rfl, heq ▸ hbelow⟩
    obtain ⟨es, hes, rfl, hbelow, -⟩ := hacts.host_inv
    cases hes
    obtain ⟨m₁, hfree, rfl⟩ := Option.map_eq_some_iff.1 hs
    obtain ⟨hframes, hchange⟩ := Change.of_free h.toStack hfree (fun _ => ⟨rfl, _, f, true, rest, heq⟩) rest
    rw [← hframes] at hbelow
    exact ⟨ds, hchange, .inl hbelow⟩
  · cases hs

theorem Shape.register {x : PoolInfo} (h : Shape m cs) (hs : step m (.register x) = some m') : Outcome m (.register x) m' cs := by
  simp only [step] at hs
  split at hs
  · cases hs
  next hx =>
  obtain ⟨htype, hout⟩ := not_or.1 hx
  cases hs
  exact ⟨cs, .block ⟨rfl, rfl, fun _ _ => rfl, fun _ _ => rfl, fun _ _ => rfl⟩ rfl rfl (.inl ⟨x, rfl, htype, hout, rfl⟩), h.acts⟩

theorem Shape.free {addr : Nat} (h : Shape m cs) (hs : step m (.free addr) = some m') : Outcome m (.free addr) m' cs := by
  simp only [step] at hs
  split at hs
  · cases hs
  next hout =>
  obtain ⟨R, hreg, rfl⟩ := Option.map_eq_some_iff.1 hs
  exact ⟨cs, .block ⟨rfl, rfl, fun _ _ => rfl, fun _ _ => rfl, fun _ _ => rfl⟩ rfl rfl (.inr ⟨addr, rfl, hout, hreg⟩), h.acts⟩

/-- What a step does, and that the frames and the calls in progress keep their shape. -/
theorem Shape.step (h : Shape m cs) (hf : e.Fits) (hs : Interp.step m e = some m') : ∃ cs', Change m e m' cs cs' ∧ Shape m' cs' := by
  have hout : Outcome m e m' cs := by
    cases e with
    | hostCall f => exact h.hostCall hf hs
    | start => exact h.start hs
    | enter => exact h.enter hs
    | call f => exact h.call hf hs
    | nativeReturn ok => exact h.nativeReturn hs
    | ret => exact h.ret hs
    | trap => exact h.trap hs
    | hostReturn => exact h.hostReturn hs
    | register x => exact h.register hs
    | free addr => exact h.free hs
  obtain ⟨cs', hchange, hacts⟩ := hout
  exact ⟨cs', hchange, h.toStack.change hchange, hacts⟩

end Step

end WamrMigrate.Interp
