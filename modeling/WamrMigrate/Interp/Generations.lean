import WamrMigrate.Image.Nodes
import WamrMigrate.Interp.FrameImage

/-!
# Several migrations, one after the other

A restored process can itself be stopped and restored. Its registry then has entries that `restore_runtime` made, with the offsets of the process
before, entries for the frames, which are on both lists, and those registered since. `abs_translation` sets the offsets, provided that the signal
comes in the resumed call. As long as no exception leaves frames behind, `dump_runtime` sees in any generation the blocks in use and the frames of
the chain, and no operation on the registry reads a node that is gone (`registry_of_lineage`).
-/

namespace WamrMigrate.Interp

open Image

/-- A process: the machine, the nodes of its registry and the blocks in use; `restored` if it goes on with the images of another one. -/
structure World where
  m : Machine
  nodes : Nodes
  live : List Nat
  restored : Bool

/-! ## What happens in a process -/

/-- The address that `free_info` is called with. -/
def freed (m : Machine) : Event → Option Nat
  | .nativeReturn true =>
    match m.acts with
    | .native frame _ :: _ => some frame
    | _ => none
  | .ret =>
    match m.acts with
    | .code frame _ :: _ => if frame = 0 then none else some frame
    | _ => none
  | .hostReturn =>
    match m.acts with
    | .host _ frame _ true :: _ => some frame
    | _ => none
  | .free addr => some addr
  | _ => none

/-- What a step of the machine does to the nodes: `free_info`, a new entry, or nothing. -/
def registryStep (N : Nodes) (m : Machine) (e : Event) (m' : Machine) : Except Fault Nodes :=
  match freed m e, m'.registry.rootInfo with
  | some addr, _ => N.freeInfo addr
  | none, x :: _ => if m'.registry = m.registry then .ok N else .ok (N.add x)
  | none, [] => .ok N

/-- The blocks in use after an event; every block is registered when it has been taken, and removed when it is given back. -/
def liveAfter (live : List Nat) : Event → List Nat
  | .register x => x.pRaw :: live
  | .free addr => live.erase addr
  | _ => live

/-- An event in a process; `none` where the event cannot happen, or an operation on the registry reads a node that is gone. -/
def World.event (w : World) (e : Event) : Option World :=
  match step w.m e with
  | none => none
  | some m' =>
    match registryStep w.nodes w.m e m' with
    | .error _ => none
    | .ok N' => some ⟨m', N', liveAfter w.live e, w.restored⟩

/-- What a program can do: it registers blocks with one of the calls for that, and gives back blocks that are in use. -/
def Event.Allowed (L : Layout) (w : World) : Event → Prop
  | .register x => Registered L w.m.registry.pool x
  | .free addr => addr ∈ w.live
  | _ => True

/-- What `dump_runtime` goes over. `migr_flag` is set in the call that was resumed, which no call from the host is around. -/
def World.dumped (w : World) : Except Fault Nodes := if w.m.acts.length = 1 then w.nodes.absTranslation else .ok w.nodes

/-! ## From one process to the next -/

/-- The process that the images are restored in: the entries it has registered so far with their nodes, where the blocks are that it
takes for the entries of the file, its wasm stack, what `wasm_runtime_init_wasi` registers, and which words of the new stack are not
NULL before something is stored in them. -/
structure Process where
  pool : Nat
  own : List PoolInfo
  nodes : Nodes
  place : Nat → Nat
  start : Nat
  boundary : Nat
  wasi : List PoolInfo
  stale : Nat → Bool

/-- A round of the loop that takes the frames, as it rewrites an entry. -/
def placeFrame (boundary : Nat) (T : Taken) (e : PoolInfo) : Taken × PoolInfo :=
  (T.take boundary e, { e with pRaw := (T.take boundary e).prev })

/-- The fields of the frames that have been taken, before their records are read. -/
def takenFields (T : Taken) (stale : Nat → Bool) (a : Nat) : FrameFields :=
  ⟨(T.frames a).prevFrame, none, stale a, ((T.infos.find? (·.pRaw = a)).map (·.size.toNat)).getD 0⟩

/-- The frame is that of a native function. -/
def FrameFields.isNative (f : FrameFields) : Bool := f.function.any (·.isImportFunc)

/-- What a record sets in the frame `f`: that of a frame without a function ends there. -/
def FrameFields.comeBack (old f : FrameFields) : FrameFields :=
  match old.function with
  | none => { f with function := none }
  | some g => { f with function := some g, ip := old.ip }

/-- The loop that reads the records of the frames, as far as the fields of `FrameFields` go. The record of the frame of a native function
is made from fields that were never set. -/
def restoreFields (infos : List PoolInfo) (old : Nat → FrameFields) : List PoolInfo → (Nat → FrameFields) → Except Fault (Nat → FrameFields)
  | [], frames => .ok frames
  | e :: es, frames =>
    match getFrameInfo infos e.pAbs with
    | .error f => .error f
    | .ok none => .error .invalid
    | .ok (some i) =>
      if i.pRaw = 0 ∨ (old e.pRaw).isNative then .error .invalid
      else restoreFields infos old es (Function.update frames i.pRaw ((old e.pRaw).comeBack (frames i.pRaw)))

/-- The frames as they are dumped, after `SYNC_ALL_TO_FRAME`. -/
def World.synced (w : World) : Nat → FrameFields := (w.m.setFrame w.m.curFrame { w.m.frames w.m.curFrame with ip := true }).frames

/-- A checkpoint in one process and the restore in another. -/
def World.migrate (L : Layout) (w : World) (P : Process) : Except Fault World := do
  let N ← w.dumped
  let es ← N.infos
  let img ← dumpInfos es
  let (s, _) ← restoreInfos L P.place P.own img
  let (_, N) ← (written es).foldlM (loadNode L P.place) (⟨P.own, [], 0⟩, P.nodes)
  let (N, T) ← N.placeFrames (placeFrame P.boundary) ⟨P.start, 0, [], fun _ => blank⟩
  let frames ← restoreFields T.infos w.synced (writtenFrames es) (takenFields T P.stale)
  let N ← (P.wasi.foldr (fun x N => N.add x) N).joinFrames
  return {
    m := {
      bottom := P.start
      topBoundary := P.boundary
      top := T.top
      curFrame := T.prev
      frames := frames
      registry := ⟨P.pool, T.infos ++ (P.wasi ++ s.rootInfo), T.infos⟩
      acts := [.code T.prev (frames T.prev).prevFrame] }
    nodes := N
    live := P.wasi.map (·.pRaw) ++ ((List.range s.blocks).map P.place ++ P.own.map (·.pRaw))
    restored := true }

/-! ## Runs -/

/-- The entries are the blocks in use and the frames of the chain, with their offsets in the pool. -/
structure Exact (w : World) (es : List PoolInfo) : Prop where
  offsets : ∀ e ∈ es, absTranslate w.m.registry.pool e = e
  blocks : ((es.filter (·.type ≠ .wasmInterpFrameT)).map (·.pRaw)).Perm w.live
  frames : ∃ cs, Linked w.m.frames w.m.curFrame cs ∧ cs.Nodup ∧
    ((es.filter (·.type = .wasmInterpFrameT)).map fun e => (e.pRaw, e.size)).Perm
      (cs.map fun a => (a, UInt32.ofNat (w.m.frames a).size))

/-- The blocks of a process are not in its wasm stack, and no frame is among them. -/
def Apart (bottom topBoundary : Nat) (es : List PoolInfo) : Prop :=
  ∀ e ∈ es, e.type ≠ .wasmInterpFrameT ∧ ¬(bottom ≤ e.pRaw ∧ e.pRaw ≤ topBoundary)

/-- The process can be stopped, and what it writes can be restored in `P`: the function on top is a wasm function, in a restored process
that of the call that was resumed; the entries of the registry can be read as they are written; the frames are of wasm functions and of
calls from the host, and lie in the first 2 GiB of the pool; the new stack has the same size, and where nothing is stored in it, it
reads NULL. -/
structure Ready (L : Layout) (w : World) (P : Process) : Prop where
  test : ∃ frame p rest, w.m.acts = .code frame p :: rest ∧ frame ≠ 0
  resumed : w.restored = true → w.m.acts.length = 1
  readable : ∀ e ∈ written w.m.registry.rootInfo, Readable L e
  frames : ∀ cs, Linked w.m.frames w.m.curFrame cs → ∀ a ∈ cs,
    (w.m.registry.pool ≤ a ∧ a < w.m.registry.pool + 2 ^ 31) ∧ ∀ g, (w.m.frames a).function = some g → g.isImportFunc = false
  stackSize : w.m.topBoundary < w.m.bottom + 2 ^ 32
  start : 0 < P.start
  boundary : P.boundary + w.m.bottom = P.start + w.m.topBoundary
  own : Holds P.nodes P.own
  rootFrame : P.nodes.rootFrame = 0
  pool : P.nodes.pool = P.pool
  apart : Apart P.start P.boundary (P.wasi ++ P.own)
  place : ∀ i, ¬(P.start ≤ P.place i ∧ P.place i ≤ P.boundary)
  stale : ∀ a, P.stale a = false

/-- A process before the first call, with its entries as the calls that register blocks made them. -/
structure Fresh (L : Layout) (w : World) : Prop extends Initial w.m where
  holds : Holds w.nodes w.m.registry.rootInfo
  pool : w.nodes.pool = w.m.registry.pool
  registered : ∀ e ∈ w.m.registry.rootInfo, Registered L w.m.registry.pool e
  live : w.live = w.m.registry.rootInfo.map (·.pRaw)
  restored : w.restored = false

/-- The processes that `n` migrations, with any events between them, lead to from `w₀`. -/
inductive Lineage (L : Layout) (w₀ : World) : Nat → World → Prop
  | refl : Lineage L w₀ 0 w₀
  | event {n : Nat} {w w' : World} {e : Event} (h : Lineage L w₀ n w) (he : w.event e = some w') (ha : e.Allowed L w) (ht : Tidy w.m e) :
      Lineage L w₀ n w'
  | migrate {n : Nat} {w w' : World} {P : Process} (h : Lineage L w₀ n w) (hm : w.migrate L P = .ok w') (hr : Ready L w P) :
      Lineage L w₀ (n + 1) w'

/-! ## One process -/

section Nodes
variable {m m' : Machine} {e : Event} {addr : Nat} {N : Nodes}

/-- The registry is as it was or has one entry more. -/
def AtMostOne (R R' : Registry) : Prop := R' = R ∨ ∃ x, R' = { R with rootInfo := x :: R.rootInfo }

theorem atMostOne_enterCode (f : Func) (p : Nat) (rest : List Act) : AtMostOne m.registry (m.enterCode f p rest).registry := by
  unfold Machine.enterCode Machine.allocFrame
  split
  · exact .inl rfl
  split
  · exact .inl rfl
  next heq =>
  split at heq
  · cases heq
  · cases heq
    exact .inr ⟨_, rfl⟩

theorem atMostOne_enterNative {m₁ : Machine} (f : Func) (p : Nat) (h₁ : m₁.registry = m.registry) :
    AtMostOne m.registry ((m.enterNative f p).getD m₁).registry := by
  unfold Machine.enterNative Machine.allocFrame
  split
  · exact .inl h₁
  · exact .inr ⟨_, rfl⟩

/-- What an event does to the registry: it frees an address, or it puts at most one entry in front of `root_info`. -/
theorem registry_of_step (hs : step m e = some m') : match freed m e with
    | some addr => m.registry.freeInfo addr = some m'.registry
    | none => AtMostOne m.registry m'.registry := by
  have frame : ∀ {a : Nat} {g : Machine → Machine}, (m.freeFrame a).map g = some m' → (∀ m, (g m).registry = m.registry) →
      m.registry.freeInfo a = some m'.registry := by
    intro a g h hg
    obtain ⟨m₁, hfree, rfl⟩ := Option.map_eq_some_iff.1 h
    obtain ⟨R, hR, rfl⟩ := Option.map_eq_some_iff.1 hfree
    rw [hR, hg]
  cases e <;> simp only [step] at hs
  case hostCall f =>
    unfold Machine.allocFrame at hs
    split at hs
    case h_3 => cases hs
    all_goals
      split at hs
      · cases hs
        exact .inl rfl
      next heq =>
      split at heq <;> cases heq
      cases hs
      exact .inr ⟨_, rfl⟩
  case start =>
    split at hs
    · split at hs <;> cases hs
      · exact atMostOne_enterNative _ _ rfl
      · exact .inl rfl
    · cases hs
  case enter =>
    split at hs <;> cases hs
    exact atMostOne_enterCode _ _ _
  case call f =>
    split at hs
    · split at hs
      · cases hs
      · split at hs <;> cases hs
        · exact atMostOne_enterNative _ _ rfl
        · exact atMostOne_enterCode _ _ _
    · cases hs
  case nativeReturn ok =>
    split at hs
    · next heq =>
      cases ok with
      | true =>
        simp only [freed, heq]
        exact frame hs fun _ => rfl
      | false =>
        cases hs
        exact .inl rfl
    · cases hs
  case ret =>
    split at hs
    · next heq =>
      split at hs
      · cases hs
      next hne =>
      simp only [freed, heq, if_neg hne]
      refine frame hs fun m => ?_
      split <;> rfl
    · cases hs
  case trap =>
    split at hs
    · split at hs <;> cases hs
      exact .inl rfl
    · cases hs
  case hostReturn =>
    split at hs
    · next heq =>
      simp only [freed, heq]
      exact frame hs fun _ => rfl
    · cases hs
  case register x =>
    split at hs <;> cases hs
    exact .inr ⟨x, rfl⟩
  case free addr =>
    split at hs
    · cases hs
    · obtain ⟨R, hR, rfl⟩ := Option.map_eq_some_iff.1 hs
      exact hR

theorem freed_of_step (hs : step m e = some m') (hf : freed m e = some addr) : m.registry.freeInfo addr = some m'.registry := by
  have h := registry_of_step hs
  rwa [hf] at h

theorem atMostOne_of_step (hs : step m e = some m') (hf : freed m e = none) : AtMostOne m.registry m'.registry := by
  have h := registry_of_step hs
  rwa [hf] at h

/-- The nodes follow the registry, as long as an address that is freed is on the list of `root_info`. -/
theorem Holds.registryStep (h : Holds N m.registry.rootInfo) (hs : step m e = some m')
    (hany : ∀ addr, freed m e = some addr → m.registry.rootInfo.any (·.pRaw == addr) = true) :
    ∃ N', Interp.registryStep N m e m' = .ok N' ∧ Holds N' m'.registry.rootInfo ∧ N'.pool = N.pool := by
  unfold Interp.registryStep
  cases hf : freed m e with
  | some addr =>
    have hreg := freed_of_step hs hf
    rw [Registry.freeInfo, if_pos (hany addr hf)] at hreg
    obtain ⟨N', hfree, hholds, hpool, -⟩ := h.freeInfo (hany addr hf)
    rw [← Option.some.inj hreg]
    exact ⟨N', hfree, hholds, hpool⟩
  | none =>
    rcases atMostOne_of_step hs hf with hreg | ⟨x, hreg⟩
    · refine ⟨N, ?_, by rwa [hreg], rfl⟩
      split
      · next heq => cases heq
      · next heq => rw [if_pos hreg]
      · rfl
    have hne : ¬m'.registry = m.registry := by
      rw [hreg]
      intro heq
      exact List.cons_ne_self _ _ (congrArg Registry.rootInfo heq)
    refine ⟨N.add x, ?_, ?_, rfl⟩
    · rw [hreg] at hne ⊢
      simp only [if_neg hne]
    · rw [hreg]
      exact h.add x

/-- An event of the machine is one of the process, as long as an address that is freed is on the list of `root_info`. -/
theorem World.event_of_step {w : World} (h : Holds w.nodes w.m.registry.rootInfo) (hs : step w.m e = some m')
    (hany : ∀ addr, freed w.m e = some addr → w.m.registry.rootInfo.any (·.pRaw == addr) = true) :
    ∃ N', w.event e = some ⟨m', N', liveAfter w.live e, w.restored⟩ ∧ Holds N' m'.registry.rootInfo ∧ N'.pool = w.nodes.pool := by
  obtain ⟨N', hN', hholds, hpool⟩ := Holds.registryStep h hs hany
  exact ⟨N', by simp only [World.event, hs, hN'], hholds, hpool⟩

end Nodes

/-- The entries of blocks that are no frames. -/
def blockEntries (R : Registry) : List PoolInfo := R.rootInfo.filter (·.type ≠ .wasmInterpFrameT)

/-- What holds in every process of a lineage: the nodes are those of the registry, the frame entries are the frames `cs`, in some order,
the other entries are the blocks in use, and before the first migration the offsets are those in the pool. -/
structure Consistent (w : World) (cs : List Nat) : Prop extends Shape w.m cs where
  holds : Holds w.nodes w.m.registry.rootInfo
  pool : w.nodes.pool = w.m.registry.pool
  frames : ((frameEntries w.m.registry).map fun e => (e.pRaw, e.size)).Perm (cs.map fun a => (a, UInt32.ofNat (w.m.frames a).size))
  outside : ∀ e ∈ w.m.registry.rootInfo, e.type ≠ .wasmInterpFrameT → ¬(w.m.bottom ≤ e.pRaw ∧ e.pRaw ≤ w.m.topBoundary)
  blocks : ((blockEntries w.m.registry).map (·.pRaw)).Perm w.live
  offsets : w.restored = false → ∀ e ∈ w.m.registry.rootInfo, absTranslate w.m.registry.pool e = e

/-- What the calls that register blocks make has its offsets in the pool. -/
theorem translate_registered {L : Layout} {pool : Nat} {e : PoolInfo} (h : Registered L pool e) : absTranslate pool e = e := by
  have elems : ∀ addr t n, ((caseInfos L pool addr t n).map fun x => { x with pAbs := absOf pool x.pRaw }) = caseInfos L pool addr t n := by
    intro addr t n
    rw [caseInfos, List.map_map]
    rfl
  cases h with
  | array ht hn hs | argCells hs => simp only [absTranslate, elems]
  | _ => rfl

section Event
variable {L : Layout} {w : World} {m' : Machine} {e : Event} {cs : List Nat} {a addr : Nat} {x : PoolInfo} {R : Registry}
variable {m : Machine} {cs' : List Nat}

section
variable (h : Consistent w cs)
include h

theorem Consistent.any_frame (ha : a ∈ cs) : w.m.registry.rootInfo.any (·.pRaw == a) = true := by
  have hmem := h.frames.symm.subset (List.mem_map_of_mem ha)
  obtain ⟨x, hx, heq⟩ := List.mem_map.1 hmem
  obtain ⟨hraw, -⟩ := Prod.mk.inj heq
  exact List.any_eq_true.2 ⟨x, (List.mem_filter.1 hx).1, by simpa using hraw⟩

theorem Consistent.any_block (ha : addr ∈ w.live) : w.m.registry.rootInfo.any (·.pRaw == addr) = true := by
  obtain ⟨x, hx, hraw⟩ := List.mem_map.1 (h.blocks.symm.subset ha)
  exact List.any_eq_true.2 ⟨x, (List.mem_filter.1 hx).1, by simpa using hraw⟩

theorem Consistent.mem_of_frame (hx : x ∈ w.m.registry.rootInfo) (ht : x.type = .wasmInterpFrameT) : x.pRaw ∈ cs := by
  have hmem : (x.pRaw, x.size) ∈ (frameEntries w.m.registry).map fun e => (e.pRaw, e.size) :=
    List.mem_map.2 ⟨x, List.mem_filter.2 ⟨hx, by simpa using ht⟩, rfl⟩
  obtain ⟨a, ha, heq⟩ := List.mem_map.1 (h.frames.subset hmem)
  rw [← (Prod.mk.inj heq).1]
  exact ha

/-- An address that is freed is a frame on the chain, or a block that the program gives back. -/
theorem Consistent.freed_mem (hf : freed w.m e = some addr) : e = .free addr ∨ addr ∈ cs := by
  have running := h.toShape.running
  cases e with
  | nativeReturn ok =>
    cases ok with
    | false => cases hf
    | true =>
      simp only [freed] at hf
      split at hf <;> cases hf
      next heq =>
      have hacts := running (by simp [heq])
      rw [heq] at hacts
      obtain ⟨ds, rfl, -⟩ := hacts.native_inv
      exact .inr List.mem_cons_self
  | ret =>
    simp only [freed] at hf
    split at hf
    · next heq =>
      split at hf <;> cases hf
      next hne =>
      have hacts := running (by simp [heq])
      rw [heq] at hacts
      obtain ⟨ds, rfl, -⟩ := hacts.code_inv hne
      exact .inr List.mem_cons_self
    · cases hf
  | hostReturn =>
    simp only [freed] at hf
    split at hf <;> cases hf
    next heq =>
    rcases h.acts with hacts | ⟨p, a, f, rest, inner, ds, hacts, rfl, -⟩
    · rw [heq] at hacts
      obtain ⟨ds, rfl, -⟩ := hacts.host_inv
      exact .inr List.mem_cons_self
    · rw [heq] at hacts
      cases hacts
      exact .inr (List.mem_append_right _ List.mem_cons_self)
  | free a =>
    cases hf
    exact .inl rfl
  | hostCall f | start | enter | call f | trap | register x => cases hf

theorem Consistent.any_freed (ha : e.Allowed L w) (hf : freed w.m e = some addr) : w.m.registry.rootInfo.any (·.pRaw == addr) = true := by
  rcases h.freed_mem hf with rfl | hmem
  · exact h.any_block ha
  · exact h.any_frame hmem

end

/-- `free_info` of the innermost frame removes its entry and no other. -/
theorem Consistent.freeInfo_frame {ds : List Nat} (h : Consistent w (a :: ds)) (hfree : w.m.registry.freeInfo a = some R) :
    ((frameEntries R).map fun e => (e.pRaw, e.size)).Perm (ds.map fun a => (a, UInt32.ofNat (w.m.frames a).size)) ∧
      blockEntries R = blockEntries w.m.registry := by
  -- the blocks that are no frames are elsewhere
  obtain ⟨hframes, hblocks⟩ := frameEntries_freeInfo (h.any_frame List.mem_cons_self)
    (fun x hx ht heq => h.outside x hx ht (heq ▸ h.bounds List.mem_cons_self)) hfree
  refine ⟨?_, hblocks⟩
  have hmap : (((frameEntries w.m.registry).eraseP (·.pRaw == a)).map fun e => (e.pRaw, e.size)) =
      ((frameEntries w.m.registry).map fun e => (e.pRaw, e.size)).eraseP (·.1 == a) := by
    rw [List.eraseP_map]
    rfl
  rw [hframes, hmap]
  -- the frames of the chain are not the same
  have hnodup : ((cs : List Nat) → cs.Nodup → (cs.map fun b => (b, UInt32.ofNat (w.m.frames b).size)).Pairwise
      fun p q => (p.1 == a) = true → (q.1 == a) = true → False) := by
    intro cs hcs
    rw [List.pairwise_map]
    refine hcs.imp fun {b c} hbc hb hc => hbc ?_
    exact (beq_iff_eq.1 hb).trans (beq_iff_eq.1 hc).symm
  have hperm := h.frames.symm.eraseP (·.1 == a) (hnodup _ h.tiled.nodup)
  rw [List.map_cons, List.eraseP_cons_of_pos (by simp)] at hperm
  exact hperm.symm

theorem Consistent.freeInfo_block (h : Consistent w cs) (hlive : addr ∈ w.live) (hfree : w.m.registry.freeInfo addr = some R)
    (hout : ¬(w.m.bottom ≤ addr ∧ addr ≤ w.m.topBoundary)) :
    frameEntries R = frameEntries w.m.registry ∧ ((blockEntries R).map (·.pRaw)).Perm (w.live.erase addr) := by
  have hblock : ∀ x ∈ w.m.registry.rootInfo, x.type = .wasmInterpFrameT → x.pRaw ≠ addr := fun x hx ht heq =>
    hout (heq ▸ h.bounds (h.mem_of_frame hx ht))
  refine ⟨frameEntries_freeInfo_block hblock hfree, ?_⟩
  rw [Registry.freeInfo, if_pos (h.any_block hlive)] at hfree
  cases hfree
  have hfilter : ∀ x ∈ w.m.registry.rootInfo, decide (x.type ≠ .wasmInterpFrameT) = false → (x.pRaw == addr) = false := by
    intro x hx ht
    simpa using hblock x hx (by simpa using ht)
  have herase : blockEntries { w.m.registry with rootInfo := w.m.registry.rootInfo.eraseP (·.pRaw == addr) } =
      (blockEntries w.m.registry).eraseP (·.pRaw == addr) := filter_eraseP hfilter
  have hmap : ((blockEntries w.m.registry).eraseP (·.pRaw == addr)).map (·.pRaw) =
      ((blockEntries w.m.registry).map (·.pRaw)).erase addr := by
    rw [List.erase_eq_eraseP, List.eraseP_map]
    congr 2
    funext x
    exact Bool.beq_comm
  rw [herase, hmap]
  exact h.blocks.erase addr

theorem Keeps.map_sizes (hk : Keeps m m' cs) :
    (cs.map fun a => (a, UInt32.ofNat (m'.frames a).size)) = cs.map fun a => (a, UInt32.ofNat (m.frames a).size) :=
  List.map_congr_left fun a ha => by rw [hk.size a ha]

theorem Consistent.frames_change (h : Consistent w cs) (ha : e.Allowed L w) (ht : Tidy w.m e) (hc : Change w.m e m' cs cs') :
    ((frameEntries m'.registry).map fun e => (e.pRaw, e.size)).Perm (cs'.map fun a => (a, UInt32.ofNat (m'.frames a).size)) := by
  cases hc with
  | same hsame =>
    rw [hsame.registry, hsame.toKeeps.map_sizes]
    exact h.frames
  | @push fn size hk _ _ _ _ hsize _ _ hreg =>
    rw [List.map_cons, hsize, hk.map_sizes, hreg]
    exact h.frames.cons _
  | pop hk hcs he _ _ hreg =>
    subst hcs
    obtain rfl := h.toShape.innermost ht he
    rw [hk.map_sizes]
    exact (h.freeInfo_frame hreg).1
  | block hk _ _ hb =>
    rw [hk.map_sizes]
    rcases hb with ⟨x, rfl, htype, -, hreg⟩ | ⟨addr, rfl, hout, hreg⟩
    · have hsame : frameEntries { w.m.registry with rootInfo := x :: w.m.registry.rootInfo } = frameEntries w.m.registry :=
        List.filter_cons_of_neg (by simpa using htype)
      rw [hreg, hsame]
      exact h.frames
    · rw [(h.freeInfo_block ha hreg hout).1]
      exact h.frames

theorem Consistent.blocks_change (h : Consistent w cs) (ha : e.Allowed L w) (ht : Tidy w.m e)
    (hs : step w.m e = some m') (hc : Change w.m e m' cs cs') : ((blockEntries m'.registry).map (·.pRaw)).Perm (liveAfter w.live e) := by
  -- where no block is registered or freed
  have other : (∀ x, e ≠ .register x) → (∀ addr, e ≠ .free addr) → blockEntries m'.registry = blockEntries w.m.registry := by
    intro hr hf
    cases hc with
    | same hsame => rw [hsame.registry]
    | push _ _ _ _ _ _ _ _ hreg =>
      rw [hreg]
      exact List.filter_cons_of_neg (by simp [frameEntry])
    | pop hk hcs he _ _ hreg =>
      subst hcs
      obtain rfl := h.toShape.innermost ht he
      exact (h.freeInfo_frame hreg).2
    | block _ _ _ hb =>
      rcases hb with ⟨x, rfl, -⟩ | ⟨addr, rfl, -⟩
      · exact absurd rfl (hr x)
      · exact absurd rfl (hf addr)
  cases e with
  | register x =>
    simp only [step] at hs
    split at hs
    · cases hs
    next hx =>
    cases hs
    have hcons : blockEntries { w.m.registry with rootInfo := x :: w.m.registry.rootInfo } = x :: blockEntries w.m.registry :=
      List.filter_cons_of_pos (by simpa using (not_or.1 hx).1)
    show ((blockEntries { w.m.registry with rootInfo := x :: w.m.registry.rootInfo }).map (·.pRaw)).Perm _
    rw [hcons]
    exact h.blocks.cons _
  | free addr =>
    simp only [step] at hs
    split at hs
    · cases hs
    next hout =>
    obtain ⟨R, hreg, rfl⟩ := Option.map_eq_some_iff.1 hs
    exact (h.freeInfo_block ha hreg hout).2
  | _ =>
    rw [other (fun _ => Event.noConfusion) fun _ => Event.noConfusion]
    exact h.blocks

theorem Consistent.event {w' : World} (h : Consistent w cs) (he : w.event e = some w') (ha : e.Allowed L w) (ht : Tidy w.m e) :
    ∃ cs', Consistent w' cs' := by
  obtain ⟨m', hs⟩ : ∃ m', step w.m e = some m' := by
    rw [World.event] at he
    split at he
    · cases he
    · next heq => exact ⟨_, heq⟩
  obtain ⟨cs', hchange, hshape⟩ := h.toShape.step ht.fits hs
  obtain ⟨N', hN', hholds, hpool⟩ := World.event_of_step h.holds hs fun addr hf => h.any_freed ha hf
  obtain rfl := Option.some.inj (hN'.symm.trans he)
  obtain ⟨hbottom, htop, hpool'⟩ := hchange.stack
  refine ⟨cs', hshape, hholds, by rw [hpool, h.pool, hpool'], h.frames_change ha ht hchange, ?_, h.blocks_change ha ht hs hchange, ?_⟩
  · intro x hx htype
    rw [hbottom, htop]
    rcases hchange.entry hx with hold | ⟨a, size, rfl⟩ | ⟨-, hout⟩
    · exact h.outside x hold htype
    · exact absurd rfl htype
    · exact hout
  intro hr x hx
  rw [hpool']
  rcases hchange.entry hx with hold | ⟨a, size, rfl⟩ | ⟨rfl, -⟩
  · exact h.offsets hr x hold
  · rfl
  · exact translate_registered ha

end Event

end WamrMigrate.Interp
