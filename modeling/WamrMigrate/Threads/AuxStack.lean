import WamrMigrate.Interp.ExecEnv
import WamrMigrate.Lib.Words

/-!
# The auxiliary stacks of threads

`wasm_cluster_create` divides the auxiliary stack of a module into segments for the main thread and for each thread that there may be, and
`allocate_aux_stack` and `free_aux_stack` hand the latter out and take them back. The tables have the length that `cluster_max_thread_num` had when
the cluster was created, but the loops over them go up to what it is when they run.
-/

namespace WamrMigrate.Threads

open Interp

/-- `WASMCluster`, as far as the auxiliary stacks are concerned, with what its module says about them and the environment of the main thread. -/
structure Cluster where
  aux : AuxStack
  main : ExecEnv
  stackTops : Option (List UInt32)
  stackSize : UInt32
  segmentOccupied : Option (List Bool)

/-- What `wasm_cluster_create` gets from the system. -/
structure Answers where
  malloc : Bool
  mutexInit : Bool
  mallocTops : Bool
  mallocOccupied : Bool
  listInsert : Bool

/-- `wasm_get_aux_stack`. -/
def getAuxStack (m : AuxStack) : Option (UInt32 × UInt32) := if m.bottom ≠ 0 ∧ m.size ≠ 0 then some (m.bottom, m.size) else none

/-- The top of a segment: `aux_stack_start - stack_size * i`, behind the one of the main thread. -/
def topAt (bottom stackSize : UInt32) (i : Nat) : UInt32 := bottom - stackSize - stackSize * .ofNat i

/-- `wasm_cluster_create`: nothing if it returns NULL. -/
def wasmClusterCreate (maxThreadNum : UInt32) (m : AuxStack) (env : ExecEnv) (ans : Answers) : Except Fault (Option Cluster) :=
  if ¬ (ans.malloc ∧ ans.mutexInit) then .ok none
  else
    match getAuxStack m with
    | none => .ok (if ans.listInsert then some ⟨m, env, none, 0, none⟩ else none)
    | some (auxStackStart, auxStackSize) =>
      -- a division by zero
      if maxThreadNum + 1 = 0 then .error .invalid
      else if auxStackSize / (maxThreadNum + 1) < 256 then .ok none
      else
        let stackSize := auxStackSize / (maxThreadNum + 1) &&& ~~~15
        match env.setAuxStack m auxStackStart stackSize with
        | none => .ok none
        | some env =>
          if maxThreadNum = 0 then .ok (if ans.listInsert then some ⟨m, env, none, stackSize, none⟩ else none)
          else if 2 ^ 32 - 1 ≤ maxThreadNum.toNat * 4 ∨ ¬ (ans.mallocTops ∧ ans.mallocOccupied ∧ ans.listInsert) then .ok none
          else
            .ok (some ⟨m, env, some ((List.range maxThreadNum.toNat).map (topAt auxStackStart stackSize)), stackSize,
              some (List.replicate maxThreadNum.toNat false)⟩)

/-- The loops of `allocate_aux_stack` and `free_aux_stack`: the first index from `i` on, of `n`, whose entry has the property. -/
def scan {α : Type} (p : α → Bool) (xs : List α) : Nat → Nat → Except Fault (Option Nat)
  | 0, _ => .ok none
  | n + 1, i =>
    match xs[i]? with
    | none => .error .invalid
    | some x => if p x then .ok (some i) else scan p xs n (i + 1)

/-- `allocate_aux_stack`, with `start` and `size`. -/
def allocateAuxStack (maxThreadNum : UInt32) (cluster : Cluster) : Except Fault (Option (UInt32 × UInt32) × Cluster) :=
  match cluster.segmentOccupied with
  | none => .ok (none, cluster)
  | some occupied =>
    match scan (! ·) occupied maxThreadNum.toNat 0 with
    | .error f => .error f
    | .ok none => .ok (none, cluster)
    | .ok (some i) =>
      match cluster.stackTops.bind (·[i]?) with
      | none => .error .invalid
      | some top => .ok (some (top, cluster.stackSize), { cluster with segmentOccupied := some (occupied.set i true) })

/-- `free_aux_stack`. -/
def freeAuxStack (maxThreadNum : UInt32) (cluster : Cluster) (start : UInt32) : Except Fault (Bool × Cluster) :=
  match scan (start == ·) (cluster.stackTops.getD []) maxThreadNum.toNat 0 with
  | .error f => .error f
  | .ok none => .ok (false, cluster)
  | .ok (some i) =>
    match cluster.segmentOccupied with
    | none => .error .invalid
    | some occupied =>
      if i < occupied.length then .ok (true, { cluster with segmentOccupied := some (occupied.set i false) }) else .error .invalid

/-! ## Runs -/

/-- A cluster, and the tops of the segments that were handed out and not returned since. -/
structure Tracked where
  cluster : Cluster
  held : List UInt32

/-- `cluster_max_thread_num` and the clusters. -/
structure Manager where
  maxThreadNum : UInt32
  clusters : List Tracked

namespace Tracked

variable (x : Tracked) (maxThreadNum : UInt32)

/-- A free segment is found, or the loop ends with the table. -/
def CanAllocate : Prop :=
  ∀ occupied, x.cluster.segmentOccupied = some occupied → maxThreadNum.toNat ≤ occupied.length ∨ false ∈ occupied

/-- The segment that is returned is found; or nothing that is held is returned, and the loop ends with the table. -/
def CanFree (start : UInt32) : Prop :=
  ∃ tops, x.cluster.stackTops = some tops ∧
    ((∃ i < maxThreadNum.toNat, tops[i]? = some start) ∨ start ∉ x.held ∧ maxThreadNum.toNat ≤ tops.length)

/-- The cluster when a segment has been handed out or returned. -/
def allocated (cluster : Cluster) (start : UInt32) : Tracked := ⟨cluster, start :: x.held⟩

def freed (cluster : Cluster) (start : UInt32) : Tracked := ⟨cluster, x.held.filter (· ≠ start)⟩

end Tracked

/-- The states that come from the first one by the calls, where segments are asked for and returned only if that can be done. -/
inductive Reached : Manager → Prop
  | init : Reached ⟨4, []⟩
  | setMaxThreadNum {s : Manager} (num : UInt32) (run : Reached s) :
      Reached { s with maxThreadNum := if 0 < num then num else s.maxThreadNum }
  | create {s : Manager} {m : AuxStack} {env : ExecEnv} {ans : Answers} {cluster : Cluster} (run : Reached s)
      (created : wasmClusterCreate s.maxThreadNum m env ans = .ok (some cluster)) :
      Reached { s with clusters := s.clusters ++ [⟨cluster, []⟩] }
  | allocate {s : Manager} {c : Nat} {x : Tracked} {start size : UInt32} {cluster : Cluster} (run : Reached s)
      (at_ : s.clusters[c]? = some x) (can : x.CanAllocate s.maxThreadNum)
      (done : allocateAuxStack s.maxThreadNum x.cluster = .ok (some (start, size), cluster)) :
      Reached { s with clusters := s.clusters.set c (x.allocated cluster start) }
  | free {s : Manager} {c : Nat} {x : Tracked} {start : UInt32} {found : Bool} {cluster : Cluster} (run : Reached s)
      (at_ : s.clusters[c]? = some x) (can : x.CanFree s.maxThreadNum start)
      (done : freeAuxStack s.maxThreadNum x.cluster start = .ok (found, cluster)) :
      Reached { s with clusters := s.clusters.set c (x.freed cluster start) }

/-! ## Segments -/

/-- The address is one of the `size` addresses below `top`, modulo 2³². -/
def InSegment (top size a : UInt32) : Prop := top - 1 - a < size

/-- The segments of the main thread and of the threads. -/
def Tracked.segments (x : Tracked) : List (UInt32 × UInt32) :=
  (x.cluster.main.auxStackBottom, x.cluster.main.auxStackBottom - x.cluster.main.auxStackBoundary) ::
    x.held.map fun top => (top, x.cluster.stackSize)

/-- What is wanted of a cluster that has segments. -/
structure Tracked.Good (x : Tracked) (tops : List UInt32) (occupied : List Bool) : Prop where
  /-- The two tables have the same length, and a segment is free if it is not held. -/
  length : occupied.length = tops.length
  occupied_iff : ∀ (i : Nat) top, tops[i]? = some top → (occupied[i]? = some true ↔ top ∈ x.held)
  held : ∀ top ∈ x.held, top ∈ tops
  apart : x.segments.Pairwise fun s t => ∀ a, ¬ (InSegment s.1 s.2 a ∧ InSegment t.1 t.2 a)
  inside : ∀ s ∈ x.segments, ∀ a, InSegment s.1 s.2 a → InSegment x.cluster.aux.bottom x.cluster.aux.size a

/-- The cluster has no segments, and none is held; or its tables are as they should be. -/
def Tracked.Sound (x : Tracked) : Prop :=
  match x.cluster.stackTops, x.cluster.segmentOccupied with
  | none, none => x.held = []
  | some tops, some occupied => x.Good tops occupied
  | _, _ => False

/-! ## Arithmetic -/

section

variable {bottom size stackSize top a : UInt32} {k l n : Nat}

/-- The top of the segment behind `k` others. -/
def topBehind (bottom stackSize : UInt32) (k : Nat) : UInt32 := bottom - stackSize * .ofNat k

theorem topAt_eq (bottom stackSize : UInt32) (i : Nat) : topAt bottom stackSize i = topBehind bottom stackSize (i + 1) := by
  have hsucc : UInt32.ofNat (i + 1) = UInt32.ofNat i + 1 := UInt32.ofNat_add i 1
  rw [topAt, topBehind, hsucc]
  grind

theorem toNat_mul_ofNat (h : stackSize.toNat * (k + 1) < 2 ^ 32) (hpos : 0 < stackSize.toNat) :
    (stackSize * .ofNat k).toNat = stackSize.toNat * k := by
  have hk : k < 2 ^ 32 := Nat.lt_of_lt_of_le (Nat.lt_succ_self k) (Nat.le_trans (Nat.le_mul_of_pos_left (k + 1) hpos) (Nat.le_of_lt h))
  have hmul : stackSize.toNat * k < 2 ^ 32 := Nat.lt_of_le_of_lt (Nat.mul_le_mul_left _ (Nat.le_succ k)) h
  rw [UInt32.toNat_mul, UInt32.toNat_ofNat_of_lt' hk, Nat.mod_eq_of_lt hmul]

/-- A segment, by the distance of its addresses from the top of all of them. -/
theorem inSegment_topBehind (h : stackSize.toNat * (k + 1) < 2 ^ 32) (hpos : 0 < stackSize.toNat) :
    InSegment (topBehind bottom stackSize k) stackSize a ↔
      stackSize.toNat * k ≤ (bottom - 1 - a).toNat ∧ (bottom - 1 - a).toNat < stackSize.toNat * (k + 1) := by
  have hswap : topBehind bottom stackSize k - 1 - a = bottom - 1 - a - stackSize * .ofNat k := by
    unfold topBehind
    grind
  have hd := (bottom - 1 - a).toNat_lt
  rw [InSegment, hswap, UInt32.lt_iff_toNat_lt, UInt32.toNat_sub, toNat_mul_ofNat h hpos]
  rw [Nat.mul_succ] at h ⊢
  omega

theorem toNat_align16 (q : UInt32) : (q &&& ~~~15).toNat = q.toNat / 16 * 16 := Words.toNat_and_not_mask q (k := 4) rfl

theorem stackSize_fits {maxThreadNum : UInt32} (hwrap : maxThreadNum + 1 ≠ 0) (hmin : ¬ size / (maxThreadNum + 1) < 256) :
    0 < (size / (maxThreadNum + 1) &&& ~~~15).toNat ∧ (size / (maxThreadNum + 1) &&& ~~~15).toNat * (maxThreadNum.toNat + 1) ≤ size.toNat := by
  have hsucc : (maxThreadNum + 1).toNat = maxThreadNum.toNat + 1 := by
    have hne : (maxThreadNum + 1).toNat ≠ 0 := fun h0 => hwrap (UInt32.toNat_inj.1 h0)
    have hlt := maxThreadNum.toNat_lt
    have hone : (1 : UInt32).toNat = 1 := rfl
    rw [UInt32.toNat_add, hone] at hne ⊢
    omega
  have h256 : (256 : UInt32).toNat = 256 := rfl
  rw [UInt32.lt_iff_toNat_lt, UInt32.toNat_div, hsucc, h256] at hmin
  rw [toNat_align16, UInt32.toNat_div, hsucc]
  refine ⟨by omega, ?_⟩
  calc size.toNat / (maxThreadNum.toNat + 1) / 16 * 16 * (maxThreadNum.toNat + 1)
      ≤ size.toNat / (maxThreadNum.toNat + 1) * (maxThreadNum.toNat + 1) := Nat.mul_le_mul_right _ (Nat.div_mul_le_self _ 16)
    _ ≤ size.toNat := Nat.div_mul_le_self _ _

section
variable (hfits : stackSize.toNat * (n + 1) ≤ size.toNat) (hpos : 0 < stackSize.toNat) (hk : k ≤ n)
include hfits hpos hk

/-- Segments that have room in `size` addresses are segments of those, -/
theorem inside_of_le (h : InSegment (topBehind bottom stackSize k) stackSize a) : InSegment bottom size a := by
  have hle : stackSize.toNat * (k + 1) ≤ stackSize.toNat * (n + 1) := Nat.mul_le_mul_left _ (Nat.succ_le_succ hk)
  have hsize := size.toNat_lt
  rw [inSegment_topBehind (by omega) hpos] at h
  rw [InSegment, UInt32.lt_iff_toNat_lt]
  omega

theorem apart_of_ne (hl : l ≤ n) (hne : k ≠ l) :
    ¬ (InSegment (topBehind bottom stackSize k) stackSize a ∧ InSegment (topBehind bottom stackSize l) stackSize a) := by
  have hle : ∀ j ≤ n, stackSize.toNat * (j + 1) ≤ stackSize.toNat * (n + 1) := fun j hj => Nat.mul_le_mul_left _ (Nat.succ_le_succ hj)
  have hsize := size.toNat_lt
  have hk' := hle k hk
  have hl' := hle l hl
  rw [inSegment_topBehind (by omega) hpos, inSegment_topBehind (by omega) hpos]
  rintro ⟨⟨h1, h2⟩, h3, h4⟩
  rcases Nat.lt_or_gt_of_ne hne with hlt | hlt
  · have : stackSize.toNat * (k + 1) ≤ stackSize.toNat * l := Nat.mul_le_mul_left _ hlt
    omega
  · have : stackSize.toNat * (l + 1) ≤ stackSize.toNat * k := Nat.mul_le_mul_left _ hlt
    omega

theorem topBehind_inj (hl : l ≤ n) (h : topBehind bottom stackSize k = topBehind bottom stackSize l) : k = l := by
  by_contra hne
  -- the address below the common top would be in both
  have hin : ∀ j, topBehind bottom stackSize j = topBehind bottom stackSize k →
      InSegment (topBehind bottom stackSize j) stackSize (topBehind bottom stackSize k - 1) := by
    intro j hj
    rw [hj, InSegment, UInt32.lt_iff_toNat_lt]
    simpa using hpos
  exact apart_of_ne hfits hpos hk hl hne ⟨hin k rfl, hin l h.symm⟩

end

end

/-! ## What holds of every cluster -/

section

variable {x : Tracked} {cluster : Cluster} {maxThreadNum start size : UInt32} {n : Nat}

/-- The auxiliary stack has been divided into a segment for the main thread and `n` others. -/
structure Tracked.Divided (x : Tracked) (n : Nat) (occupied : List Bool) : Prop where
  tops : x.cluster.stackTops = some ((List.range n).map (topAt x.cluster.aux.bottom x.cluster.stackSize))
  occupied_eq : x.cluster.segmentOccupied = some occupied
  length : occupied.length = n
  fits : x.cluster.stackSize.toNat * (n + 1) ≤ x.cluster.aux.size.toNat
  pos : 0 < x.cluster.stackSize.toNat
  bottom : x.cluster.main.auxStackBottom = x.cluster.aux.bottom
  boundary : x.cluster.main.auxStackBoundary = x.cluster.aux.bottom - x.cluster.stackSize
  occupied_iff : ∀ i < n, (occupied[i]? = some true ↔ topAt x.cluster.aux.bottom x.cluster.stackSize i ∈ x.held)
  held : ∀ top ∈ x.held, ∃ i < n, top = topAt x.cluster.aux.bottom x.cluster.stackSize i
  nodup : x.held.Nodup

/-- There is no auxiliary stack. -/
structure Tracked.Bare (x : Tracked) : Prop where
  tops : x.cluster.stackTops = none
  occupied : x.cluster.segmentOccupied = none
  held : x.held = []

theorem getElem?_tops {bottom stackSize top : UInt32} {i : Nat} :
    ((List.range n).map (topAt bottom stackSize))[i]? = some top ↔ i < n ∧ top = topAt bottom stackSize i := by
  rw [List.getElem?_map, Option.map_eq_some_iff]
  constructor
  · rintro ⟨j, hj, rfl⟩
    obtain ⟨hlt, rfl⟩ := List.getElem?_eq_some_iff.1 hj
    rw [List.getElem_range]
    exact ⟨by simpa using hlt, rfl⟩
  · rintro ⟨hlt, rfl⟩
    exact ⟨i, List.getElem?_range hlt, rfl⟩

namespace Tracked

theorem Divided.segments_eq {occupied : List Bool} (h : x.Divided n occupied) : x.segments =
    (topBehind x.cluster.aux.bottom x.cluster.stackSize 0, x.cluster.stackSize) :: x.held.map fun top => (top, x.cluster.stackSize) := by
  have htop : topBehind x.cluster.aux.bottom x.cluster.stackSize 0 = x.cluster.aux.bottom := by
    unfold topBehind
    simp
  have hsize : x.cluster.aux.bottom - (x.cluster.aux.bottom - x.cluster.stackSize) = x.cluster.stackSize := by grind
  rw [segments, h.bottom, h.boundary, hsize, htop]

theorem Divided.good {occupied : List Bool} (h : x.Divided n occupied) :
    x.Good ((List.range n).map (topAt x.cluster.aux.bottom x.cluster.stackSize)) occupied where
  length := by rw [h.length, List.length_map, List.length_range]
  occupied_iff i top htop := by
    obtain ⟨hlt, rfl⟩ := getElem?_tops.1 htop
    exact h.occupied_iff i hlt
  held top htop := by
    obtain ⟨i, hi, rfl⟩ := h.held top htop
    exact List.mem_map_of_mem (List.mem_range.2 hi)
  apart := by
    rw [h.segments_eq, List.pairwise_cons, List.pairwise_map]
    refine ⟨fun s hs a => ?_, h.nodup.imp_of_mem fun {s t} hs ht hne a => ?_⟩
    · obtain ⟨top, htop, rfl⟩ := List.mem_map.1 hs
      obtain ⟨i, hi, rfl⟩ := h.held top htop
      rw [topAt_eq]
      exact apart_of_ne h.fits h.pos (Nat.zero_le n) hi (Nat.zero_ne_add_one i)
    obtain ⟨i, hi, rfl⟩ := h.held s hs
    obtain ⟨j, hj, rfl⟩ := h.held t ht
    rw [topAt_eq, topAt_eq] at hne ⊢
    exact apart_of_ne h.fits h.pos hi hj fun hij => hne (hij ▸ rfl)
  inside := by
    rw [h.segments_eq]
    intro s hs a ha
    rcases List.mem_cons.1 hs with rfl | hs
    · exact inside_of_le h.fits h.pos (Nat.zero_le n) ha
    obtain ⟨top, htop, rfl⟩ := List.mem_map.1 hs
    obtain ⟨i, hi, rfl⟩ := h.held top htop
    rw [topAt_eq] at ha
    exact inside_of_le h.fits h.pos hi ha

/-- What holds of every cluster. -/
def Inv (x : Tracked) : Prop := x.Bare ∨ ∃ n occupied, x.Divided n occupied

theorem Inv.sound (h : x.Inv) : x.Sound := by
  unfold Sound
  rcases h with h | ⟨n, occupied, h⟩
  · rw [h.tops, h.occupied]
    exact h.held
  · rw [h.tops, h.occupied_eq]
    exact h.good

end Tracked

end

/-! ## The calls -/

section

variable {α : Type} {p : α → Bool} {xs : List α} {x : Tracked} {cluster : Cluster} {maxThreadNum start size : UInt32} {n i : Nat}
variable {m : AuxStack}

/-- What the loops do. -/
inductive Scanned (p : α → Bool) (xs : List α) (n : Nat) : Except Fault (Option Nat) → Prop
  | found {i : Nat} {y : α} (lt : i < n) (at_ : xs[i]? = some y) (has : p y = true) : Scanned p xs n (.ok (some i))
  | ended (le : n ≤ xs.length) (unmet : ∀ i < n, ∀ y, xs[i]? = some y → p y = false) : Scanned p xs n (.ok none)
  | beyond (lt : xs.length < n) (unmet : ∀ y ∈ xs, p y = false) : Scanned p xs n (.error .invalid)

theorem scanned_from (hi : i ≤ xs.length) (hnone : ∀ j < i, ∀ y, xs[j]? = some y → p y = false) : Scanned p xs (i + n) (scan p xs n i) := by
  induction n generalizing i with
  | zero => exact .ended hi hnone
  | succ n ih =>
    unfold scan
    cases hx : xs[i]? with
    | none =>
      have hlen : xs.length ≤ i := List.getElem?_eq_none_iff.1 hx
      refine .beyond (by omega) fun y hy => ?_
      obtain ⟨j, hj, rfl⟩ := List.getElem_of_mem hy
      exact hnone j (by omega) _ (List.getElem?_eq_getElem hj)
    | some y =>
      have hlt : i < xs.length := (List.getElem?_eq_some_iff.1 hx).1
      by_cases hp : p y = true
      · simp only [hp, if_true]
        exact .found (by omega) hx hp
      simp only [hp, if_false, Bool.false_eq_true]
      have hrest := @ih (i + 1) hlt fun j hj z hz => by
        rcases Nat.lt_succ_iff_lt_or_eq.1 hj with hlt | rfl
        · exact hnone j hlt z hz
        · cases hx.symm.trans hz
          exact Bool.eq_false_iff.2 hp
      rwa [Nat.add_right_comm, Nat.add_assoc] at hrest

theorem scanned (p : α → Bool) (xs : List α) (n : Nat) : Scanned p xs n (scan p xs n 0) := by
  have h : Scanned p xs (0 + n) (scan p xs n 0) := scanned_from (Nat.zero_le _) (by omega)
  rwa [Nat.zero_add] at h

theorem getAuxStack_eq {y : UInt32 × UInt32} (h : getAuxStack m = some y) : y = (m.bottom, m.size) := by
  unfold getAuxStack at h
  split at h
  · exact (Option.some.inj h).symm
  · cases h

theorem setAuxStack_limits {env env' : ExecEnv} (h : env.setAuxStack m start size = some env') :
    env'.auxStackBottom = start ∧ env'.auxStackBoundary = start - size := by
  unfold ExecEnv.setAuxStack at h
  simp only at h
  split at h
  · cases h
  split at h
  · cases h
    exact ⟨rfl, rfl⟩
  · cases h

theorem create_inv {env : ExecEnv} {ans : Answers} (hmax : maxThreadNum ≠ 0)
    (h : wasmClusterCreate maxThreadNum m env ans = .ok (some cluster)) : (⟨cluster, []⟩ : Tracked).Inv := by
  unfold wasmClusterCreate at h
  split at h
  · cases h
  split at h
  · split at h
    · cases h
      exact .inl ⟨rfl, rfl, rfl⟩
    · cases h
  next auxStackStart auxStackSize haux =>
  cases getAuxStack_eq haux
  split at h
  · cases h
  next hwrap =>
  split at h
  · cases h
  next hmin =>
  simp only at h
  split at h
  · cases h
  next env' henv =>
  split at h
  · cases h
  cases h
  obtain ⟨hpos, hfits⟩ := stackSize_fits hwrap hmin
  obtain ⟨hbottom, hboundary⟩ := setAuxStack_limits henv
  refine .inr ⟨maxThreadNum.toNat, List.replicate maxThreadNum.toNat false, rfl, rfl, List.length_replicate, hfits, hpos, hbottom,
    hboundary, fun i hi => ?_, nofun, List.nodup_nil⟩
  rw [List.getElem?_replicate, if_pos hi]
  simp

namespace Tracked

variable {occupied : List Bool} {i : Nat}

section
variable (h : x.Divided n occupied) (hi : i < n)
include h hi

theorem Divided.topAt_ne {j : Nat} (hj : j < n) (hne : i ≠ j) :
    topAt x.cluster.aux.bottom x.cluster.stackSize j ≠ topAt x.cluster.aux.bottom x.cluster.stackSize i := by
  rw [topAt_eq, topAt_eq]
  exact fun heq => hne (Nat.succ.inj (topBehind_inj h.fits h.pos hi hj heq.symm))

theorem Divided.top_at : x.cluster.stackTops.bind (·[i]?) = some (topAt x.cluster.aux.bottom x.cluster.stackSize i) := by
  rw [h.tops, Option.bind_some]
  exact getElem?_tops.2 ⟨hi, rfl⟩

/-- The tables when a segment is marked, or its mark is taken away. -/
theorem Divided.set {b : Bool} {held : List UInt32} (hheld : ∀ j < n, (topAt x.cluster.aux.bottom x.cluster.stackSize j ∈ held ↔
      if i = j then b = true else topAt x.cluster.aux.bottom x.cluster.stackSize j ∈ x.held))
    (hmem : ∀ top ∈ held, ∃ j < n, top = topAt x.cluster.aux.bottom x.cluster.stackSize j) (hnodup : held.Nodup) :
    Divided ⟨{ x.cluster with segmentOccupied := some (occupied.set i b) }, held⟩ n (occupied.set i b) where
  tops := h.tops
  occupied_eq := rfl
  length := by rw [List.length_set, h.length]
  fits := h.fits
  pos := h.pos
  bottom := h.bottom
  boundary := h.boundary
  occupied_iff j hj := by
    rw [hheld j hj, List.getElem?_set]
    split
    · next hij =>
      subst hij
      rw [if_pos (h.length.symm ▸ hi), Option.some.injEq]
    · exact h.occupied_iff j hj
  held := hmem
  nodup := hnodup

end

/-- `allocate_aux_stack` reads and writes the tables only if a segment is free or the loop ends with them. -/
theorem Inv.allocate_iff (h : x.Inv) : (∃ r, allocateAuxStack maxThreadNum x.cluster = .ok r) ↔ x.CanAllocate maxThreadNum := by
  unfold allocateAuxStack CanAllocate
  rcases h with h | ⟨n, occupied, h⟩
  · rw [h.occupied]
    exact ⟨nofun, fun _ => ⟨_, rfl⟩⟩
  simp only [h.occupied_eq, Option.some.injEq, forall_eq']
  have hscan := scanned (! ·) occupied maxThreadNum.toNat
  generalize scan (! ·) occupied maxThreadNum.toNat 0 = r at hscan ⊢
  cases hscan with
  | found lt at_ has =>
    obtain ⟨hlt, -⟩ := List.getElem?_eq_some_iff.1 at_
    rw [h.length] at hlt
    have hmem := List.mem_of_getElem? at_
    rw [Bool.not_eq_true'] at has
    rw [has] at hmem
    simp only [h.top_at hlt]
    exact ⟨fun _ => .inr hmem, fun _ => ⟨_, rfl⟩⟩
  | ended le unmet => exact ⟨fun _ => .inl le, fun _ => ⟨_, rfl⟩⟩
  | beyond lt unmet =>
    refine ⟨nofun, fun hcan => ?_⟩
    rcases hcan with hle | hmem
    · omega
    · cases unmet false hmem

theorem Inv.allocate (h : x.Inv) (hdone : allocateAuxStack maxThreadNum x.cluster = .ok (some (start, size), cluster)) :
    start ∉ x.held ∧ (x.allocated cluster start).Inv := by
  unfold allocateAuxStack at hdone
  rcases h with h | ⟨n, occupied, h⟩
  · rw [h.occupied] at hdone
    cases hdone
  simp only [h.occupied_eq] at hdone
  have hscan := scanned (! ·) occupied maxThreadNum.toNat
  generalize scan (! ·) occupied maxThreadNum.toNat 0 = r at hscan hdone
  cases hscan with
  | @found i y lt at_ has =>
    obtain ⟨hlt, -⟩ := List.getElem?_eq_some_iff.1 at_
    rw [h.length] at hlt
    simp only [h.top_at hlt] at hdone
    cases hdone
    have hfree : topAt x.cluster.aux.bottom x.cluster.stackSize i ∉ x.held := by
      rw [← h.occupied_iff i hlt, at_]
      simpa using has
    refine ⟨hfree, .inr ⟨n, occupied.set i true, h.set hlt (fun j hj => ?_) (fun top htop => ?_) (List.nodup_cons.2 ⟨hfree, h.nodup⟩)⟩⟩
    · rw [List.mem_cons]
      split
      · next hij => simp [hij]
      · next hij => simp [h.topAt_ne hlt hj hij]
    · rcases List.mem_cons.1 htop with rfl | htop
      · exact ⟨i, hlt, rfl⟩
      · exact h.held top htop
  | ended le unmet => cases hdone
  | beyond lt unmet => cases hdone

theorem Divided.freed (h : x.Divided n occupied) (hi : i < n) : (x.freed { x.cluster with segmentOccupied := some (occupied.set i false) }
      (topAt x.cluster.aux.bottom x.cluster.stackSize i)).Divided n (occupied.set i false) := by
  refine h.set hi (fun j hj => ?_) (fun top htop => h.held top (List.mem_of_mem_filter htop)) (h.nodup.filter _)
  rw [List.mem_filter]
  split
  · next hij => simp [hij]
  · next hij => simp [h.topAt_ne hi hj hij]

/-- What `free_aux_stack` does: it finds the segment, or it finds none in the table, or it leaves the table. -/
theorem Inv.free_cases (h : x.Inv) (hmax : maxThreadNum ≠ 0) (start : UInt32) :
    (∃ cluster, freeAuxStack maxThreadNum x.cluster start = .ok (true, cluster) ∧ (x.freed cluster start).Inv ∧ x.CanFree maxThreadNum start) ∨
    (freeAuxStack maxThreadNum x.cluster start = .ok (false, x.cluster) ∧ (x.CanFree maxThreadNum start ↔ start ∉ x.held)) ∨
    (∃ f, freeAuxStack maxThreadNum x.cluster start = .error f) ∧ ¬ x.CanFree maxThreadNum start := by
  unfold freeAuxStack
  have hpos : 0 < maxThreadNum.toNat := Nat.pos_of_ne_zero fun h0 => hmax (UInt32.toNat_inj.1 h0)
  rcases h with h | ⟨n, occupied, h⟩
  · have hscan := scanned (start == ·) [] maxThreadNum.toNat
    rw [h.tops, Option.getD_none]
    generalize scan (start == ·) [] maxThreadNum.toNat 0 = r at hscan ⊢
    cases hscan with
    | found lt at_ has => cases at_
    | ended le unmet => exact absurd le (Nat.not_le_of_lt hpos)
    | beyond lt unmet =>
      refine .inr (.inr ⟨⟨_, rfl⟩, ?_⟩)
      rintro ⟨tops, htops, -⟩
      cases h.tops.symm.trans htops
  simp only [CanFree, h.tops, Option.getD_some, Option.some.injEq, exists_eq_left']
  have hscan := scanned (start == ·) ((List.range n).map (topAt x.cluster.aux.bottom x.cluster.stackSize)) maxThreadNum.toNat
  generalize scan (start == ·) _ maxThreadNum.toNat 0 = r at hscan ⊢
  cases hscan with
  | @found i y lt at_ has =>
    obtain ⟨hlt, rfl⟩ := getElem?_tops.1 at_
    obtain rfl := beq_iff_eq.1 has
    simp only [h.occupied_eq, h.length, hlt, if_true]
    refine .inl ⟨_, rfl, .inr ⟨n, occupied.set i false, ?_⟩, .inl ⟨i, lt, at_⟩⟩
    rw [← h.tops]
    exact h.freed hlt
  | ended le unmet =>
    refine .inr (.inl ⟨rfl, ⟨?_, fun hfree => .inr ⟨hfree, le⟩⟩⟩)
    rintro (⟨i, hi, hat⟩ | ⟨hfree, -⟩)
    · have hne := unmet i hi start hat
      simp at hne
    · exact hfree
  | beyond lt unmet =>
    refine .inr (.inr ⟨⟨_, rfl⟩, ?_⟩)
    rintro (⟨i, hi, hat⟩ | ⟨-, hle⟩)
    · have hne := unmet start (List.mem_of_getElem? hat)
      simp at hne
    · omega

theorem freed_of_not_mem (h : start ∉ x.held) : x.freed x.cluster start = x := by
  have hfilter : x.held.filter (· ≠ start) = x.held :=
    List.filter_eq_self.2 fun top htop => decide_eq_true fun heq => h (heq ▸ htop)
  rw [freed, hfilter]

theorem Inv.not_sound (h : x.Inv) (hheld : start ∈ x.held) : ¬ (x.freed x.cluster start).Sound := by
  intro hsound
  rcases h with h | ⟨n, occupied, h⟩
  · rw [h.held] at hheld
    cases hheld
  obtain ⟨i, hi, rfl⟩ := h.held start hheld
  simp only [Sound, freed, h.tops, h.occupied_eq] at hsound
  have hmem := (hsound.occupied_iff i _ (getElem?_tops.2 ⟨hi, rfl⟩)).1 ((h.occupied_iff i hi).2 hheld)
  simp at hmem

/-- A segment that was returned is free, and the others are as they were, exactly if it can be returned. -/
theorem Inv.free_iff (h : x.Inv) (hmax : maxThreadNum ≠ 0) (start : UInt32) :
    (∃ found cluster, freeAuxStack maxThreadNum x.cluster start = .ok (found, cluster) ∧ (x.freed cluster start).Sound) ↔
      x.CanFree maxThreadNum start := by
  rcases h.free_cases hmax start with ⟨cluster, hdone, hinv, hcan⟩ | ⟨hdone, hcan⟩ | ⟨⟨f, hdone⟩, hcan⟩
  · exact ⟨fun _ => hcan, fun _ => ⟨true, cluster, hdone, hinv.sound⟩⟩
  · rw [hcan]
    constructor
    · rintro ⟨found, cluster, hdone', hsound⟩ hheld
      cases hdone.symm.trans hdone'
      exact h.not_sound hheld hsound
    · intro hfree
      exact ⟨false, x.cluster, hdone, (freed_of_not_mem hfree).symm ▸ h.sound⟩
  · refine ⟨?_, fun hcan' => absurd hcan' hcan⟩
    rintro ⟨found, cluster, hdone', -⟩
    cases hdone.symm.trans hdone'

theorem Inv.free (h : x.Inv) (hmax : maxThreadNum ≠ 0) {found : Bool} (hcan : x.CanFree maxThreadNum start)
    (hdone : freeAuxStack maxThreadNum x.cluster start = .ok (found, cluster)) : (x.freed cluster start).Inv := by
  rcases h.free_cases hmax start with ⟨cluster', hdone', hinv, -⟩ | ⟨hdone', hcan'⟩ | ⟨-, hcan'⟩
  · cases hdone'.symm.trans hdone
    exact hinv
  · cases hdone'.symm.trans hdone
    rw [freed_of_not_mem (hcan'.1 hcan)]
    exact h
  · exact absurd hcan hcan'

end Tracked

/-! ## Every run -/

theorem Reached.inv {s : Manager} (h : Reached s) : s.maxThreadNum ≠ 0 ∧ ∀ x ∈ s.clusters, x.Inv := by
  induction h with
  | init => exact ⟨by decide, nofun⟩
  | setMaxThreadNum num _ ih =>
    refine ⟨?_, ih.2⟩
    simp only
    split
    · next hpos => exact fun h0 => absurd (h0 ▸ hpos) (by decide)
    · exact ih.1
  | create _ created ih =>
    refine ⟨ih.1, fun x hx => ?_⟩
    rcases List.mem_append.1 hx with hx | hx
    · exact ih.2 x hx
    · obtain rfl := List.mem_singleton.1 hx
      exact create_inv ih.1 created
  | allocate _ at_ can done ih =>
    refine ⟨ih.1, fun y hy => ?_⟩
    rcases List.mem_or_eq_of_mem_set hy with hy | rfl
    · exact ih.2 y hy
    · exact ((ih.2 _ (List.mem_of_getElem? at_)).allocate done).2
  | free _ at_ can done ih =>
    refine ⟨ih.1, fun y hy => ?_⟩
    rcases List.mem_or_eq_of_mem_set hy with hy | rfl
    · exact ih.2 y hy
    · exact (ih.2 _ (List.mem_of_getElem? at_)).free ih.1 can done

/-- In every state the segments that are held are apart, inside the auxiliary stack of the module and marked, and no others are marked. A segment
that is handed out is free; the tables are left exactly if none is free and they are shorter than `cluster_max_thread_num`; and a segment that
is returned gets free, with no access outside of the tables, exactly if the loop comes to it. -/
theorem auxStack_segments_iff {s : Manager} (h : Reached s) : ∀ x ∈ s.clusters, x.Sound ∧
    ((∃ r, allocateAuxStack s.maxThreadNum x.cluster = .ok r) ↔ x.CanAllocate s.maxThreadNum) ∧
    (∀ start size cluster, allocateAuxStack s.maxThreadNum x.cluster = .ok (some (start, size), cluster) →
      start ∉ x.held ∧ (x.allocated cluster start).Sound) ∧
    ∀ start, (∃ found cluster, freeAuxStack s.maxThreadNum x.cluster start = .ok (found, cluster) ∧ (x.freed cluster start).Sound) ↔
      x.CanFree s.maxThreadNum start := by
  intro x hx
  obtain ⟨hmax, hinv⟩ := h.inv
  have hx := hinv x hx
  refine ⟨hx.sound, hx.allocate_iff, fun start size cluster hdone => ?_, fun start => hx.free_iff hmax start⟩
  obtain ⟨hfree, halloc⟩ := hx.allocate hdone
  exact ⟨hfree, halloc.sound⟩

/-- A module with a stack of 64 KiB before its data, and an environment for its main thread. -/
def stack64K : AuxStack := ⟨70000, 65536, 65536, 0⟩

def granted : Answers := ⟨true, true, true, true, true⟩

/-- The cluster of such a module is made when there may be one thread, then there may be `num`, and a segment is asked for. -/
theorem one_segment {num : UInt32} {k : Nat} (hnum : 0 < num) (hk : num.toNat = k + 1) : ∃ cluster : Cluster,
    cluster.stackTops = some [32768] ∧ cluster.segmentOccupied = some [true] ∧ Reached ⟨num, [⟨cluster, [32768]⟩]⟩ := by
  obtain ⟨cluster, hcreate, htops, hoccupied⟩ : ∃ cluster, wasmClusterCreate 1 stack64K {} granted = .ok (some cluster) ∧
      cluster.stackTops = some [32768] ∧ cluster.segmentOccupied = some [false] := ⟨_, rfl, by decide, by decide⟩
  have hrun : Reached ⟨num, [⟨cluster, []⟩]⟩ := by
    have hset : Reached _ := .setMaxThreadNum num (.create (.setMaxThreadNum 1 .init) hcreate)
    rwa [if_pos hnum] at hset
  have halloc : allocateAuxStack num cluster = .ok (some (32768, cluster.stackSize), { cluster with segmentOccupied := some [true] }) := by
    simp [allocateAuxStack, hoccupied, htops, hk, scan]
  have hcan : (⟨cluster, []⟩ : Tracked).CanAllocate num := by
    intro occupied heq
    cases hoccupied.symm.trans heq
    exact .inr List.mem_cons_self
  exact ⟨{ cluster with segmentOccupied := some [true] }, htops, rfl, hrun.allocate (c := 0) rfl hcan halloc⟩

/-- Where there may be two threads by then, the loop for another segment reads behind the table. -/
theorem more_threads_break : ∃ s x, Reached s ∧ s.clusters = [x] ∧ x.cluster.segmentOccupied = some [true] ∧ s.maxThreadNum = 2 ∧
    allocateAuxStack s.maxThreadNum x.cluster = .error .invalid := by
  obtain ⟨cluster, -, hoccupied, hrun⟩ := one_segment (by decide : (0 : UInt32) < 2) (rfl : (2 : UInt32).toNat = 1 + 1)
  refine ⟨_, _, hrun, rfl, hoccupied, rfl, ?_⟩
  simp [allocateAuxStack, hoccupied, scan]

/-- Where there may still be one thread, the segment is held, no other is handed out, and it is found when it is returned. -/
theorem one_thread_sound : ∃ s x, Reached s ∧ x ∈ s.clusters ∧ x.held = [32768] ∧ x.Sound ∧
    (∃ r, allocateAuxStack s.maxThreadNum x.cluster = .ok r) ∧
    ∃ found cluster, freeAuxStack s.maxThreadNum x.cluster 32768 = .ok (found, cluster) ∧ (x.freed cluster 32768).Sound := by
  obtain ⟨cluster, htops, hoccupied, hrun⟩ := one_segment (by decide : (0 : UInt32) < 1) (rfl : (1 : UInt32).toNat = 0 + 1)
  obtain ⟨hsound, hallocate, -, hfree⟩ := auxStack_segments_iff hrun _ List.mem_cons_self
  refine ⟨_, _, hrun, List.mem_cons_self, rfl, hsound, hallocate.2 fun occupied heq => ?_,
    (hfree 32768).2 ⟨[32768], htops, .inl ⟨0, Nat.one_pos, rfl⟩⟩⟩
  cases hoccupied.symm.trans heq
  exact .inl (Nat.le_refl 1)

end

end WamrMigrate.Threads
