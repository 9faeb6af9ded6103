import Mathlib.Data.List.Nodup
import Mathlib.Data.List.Flatten
import Mathlib.Data.List.Pairwise
import WamrMigrate.Image.PoolImage

/-!
# Finding an object by its offset

The images name objects by their offsets in the pool of the process that wrote them, and the restoring process finds its entries for them with
`get_info` and `get_frame_info`: the first node with the offset. Its own earlier blocks stand behind the new entries. But `restore_frame_internal`
sets up WASI before `interp.img` is read, and puts those blocks in front: one that happens to have an offset named in `interp.img` is found instead
of the object (`unambiguous_iff`).
-/

namespace WamrMigrate.Image

variable {pool : Nat} {L : Layout} {R : Registry}

/-! ## The blocks of a running process -/

/-- The nodes for the elements of an array, each with those behind it. -/
def elemNodes (t : DataType) : List Elem → List PoolInfo
  | [] => []
  | x :: xs => ⟨x.pAbs, x.pRaw, 0xFFFFFFFF, t, xs, 0⟩ :: elemNodes t xs

/-- The nodes of an entry: its own and those of its elements. -/
def PoolInfo.nodes (e : PoolInfo) : List PoolInfo := e :: elemNodes e.type e.list

/-- The offsets of the nodes of entries. -/
def offsets (es : List PoolInfo) : List UInt32 := es.flatMap fun e => e.pAbs :: e.list.map Elem.pAbs

/-- `get_info`: NULL for -1, else the first node with the offset; the process ends when there is none. -/
def getInfo (root : List PoolInfo) (pAbs : UInt32) : Except Fault (Option PoolInfo) :=
  if pAbs = 0xFFFFFFFF then .ok none
  else
    match (root.flatMap PoolInfo.nodes).find? (·.pAbs = pAbs) with
    | some n => .ok (some n)
    | none => .error .exit

/-- `get_frame_info`. -/
def getFrameInfo (frames : List PoolInfo) (pAbs : UInt32) : Except Fault (Option PoolInfo) :=
  if pAbs = 0xFFFFFFFF then .ok none
  else
    match frames.find? (·.pAbs = pAbs) with
    | some n => .ok (some n)
    | none => .error .exit

theorem getInfo_null (root : List PoolInfo) : getInfo root 0xFFFFFFFF = .ok none := by rw [getInfo, if_pos rfl]

theorem getFrameInfo_null (root : List PoolInfo) : getFrameInfo root 0xFFFFFFFF = .ok none := by rw [getFrameInfo, if_pos rfl]

/-- No distance below 4 GiB is read as NULL. -/
theorem ofNat_ne_max {k : Nat} (hk : k < 2 ^ 32) : UInt64.ofNat k ≠ 0xFFFFFFFFFFFFFFFF := by
  intro he
  have hnat := congrArg UInt64.toNat he
  have hlit : (0xFFFFFFFFFFFFFFFF : UInt64).toNat = 2 ^ 64 - 1 := rfl
  rw [UInt64.toNat_ofNat_of_lt' (by unfold UInt64.size; omega), hlit] at hnat
  omega

/-- The block of the entry `e` is a new part of the pool: no node is in it. The pool is smaller than 2 GiB, so that offsets are
positive as an `int`. -/
structure Fresh (R : Registry) (e : PoolInfo) : Prop where
  pool_le : R.pool ≤ e.pRaw
  le_pool : e.pRaw + e.bytes ≤ R.pool + 2 ^ 31
  pos : 0 < e.bytes
  apart : ∀ e' ∈ R.rootInfo, ∀ a ∈ e'.pRaw :: e'.list.map Elem.pRaw, a < e.pRaw ∨ e.pRaw + e.bytes ≤ a

/-- The registries of a process whose allocator gives out new blocks only. -/
inductive Registry.Live (L : Layout) (pool : Nat) : Registry → Prop
  | empty : Live L pool ⟨pool, [], []⟩
  | register {R R' : Registry} (h : Live L pool R) (hs : Registry.Register L R R') (hf : ∀ e ∈ R'.rootInfo.head?, Fresh R e) :
      Live L pool R'
  | free {R R' : Registry} {addr : Nat} (h : Live L pool R) (hf : R.freeInfo addr = some R') : Live L pool R'

/-- The offsets of the nodes are those of their addresses, and no two nodes have the same address. -/
structure Registry.Distinct (R : Registry) : Prop where
  abs : ∀ e ∈ R.rootInfo, e.pAbs = absOf R.pool e.pRaw ∧ ∀ x ∈ e.list, x.pAbs = absOf R.pool x.pRaw
  inPool : ∀ e ∈ R.rootInfo, ∀ a ∈ e.pRaw :: e.list.map Elem.pRaw, R.pool ≤ a ∧ a < R.pool + 2 ^ 31
  nodup : (R.rootInfo.flatMap fun e => e.pRaw :: e.list.map Elem.pRaw).Nodup

theorem toNat_absOf {a : Nat} (ha : pool ≤ a ∧ a < pool + 2 ^ 31) : (absOf pool a).toNat = a - pool := by
  have hval : (((a : Int) - pool) % 2 ^ 32).toNat = a - pool := by omega
  rw [absOf, hval]
  exact UInt32.toNat_ofNat_of_lt' (by unfold UInt32.size; omega)

theorem absOf_inj {a b : Nat} (ha : pool ≤ a ∧ a < pool + 2 ^ 31) (hb : pool ≤ b ∧ b < pool + 2 ^ 31) (h : absOf pool a = absOf pool b) : a = b := by
  have hnat := congrArg UInt32.toNat h
  rw [toNat_absOf ha, toNat_absOf hb] at hnat
  omega

theorem mem_caseInfos {addr n : Nat} {t : DataType} {x : Elem} (h : x ∈ caseInfos L pool addr t n) :
    ∃ i < n - 1, x.pAbs = absOf pool x.pRaw ∧ x.pRaw = addr + (i + 1) * L.size t := by
  obtain ⟨i, hi, rfl⟩ := List.mem_map.1 h
  exact ⟨i, List.mem_range.1 hi, rfl, rfl⟩

theorem caseInfos_nodup (L : Layout) (pool addr : Nat) (t : DataType) (n : Nat) : (addr :: (caseInfos L pool addr t n).map Elem.pRaw).Nodup := by
  have hpos := L.pos t
  have hraw : (caseInfos L pool addr t n).map Elem.pRaw = (List.range (n - 1)).map fun i => addr + (i + 1) * L.size t := by
    simp [caseInfos, List.map_map, Function.comp_def]
  refine List.nodup_cons.2 ⟨fun hmem => ?_, ?_⟩
  · obtain ⟨x, hx, hr⟩ := List.mem_map.1 hmem
    obtain ⟨i, -, -, hr'⟩ := mem_caseInfos hx
    have h1 : 0 < (i + 1) * L.size t := Nat.mul_pos (Nat.succ_pos i) hpos
    omega
  rw [hraw]
  refine List.Nodup.map (fun i j hij => ?_) List.nodup_range
  have hmul : (i + 1) * L.size t = (j + 1) * L.size t := Nat.add_left_cancel hij
  have := Nat.eq_of_mul_eq_mul_right hpos hmul
  omega

theorem caseInfos_nodes {L : Layout} {pool addr n : Nat} {t : DataType} (hs : L.size t * n < 2 ^ 32) :
    ∀ x ∈ caseInfos L pool addr t n, x.pAbs = absOf pool x.pRaw ∧ addr < x.pRaw ∧ x.pRaw < addr + request (L.size t * n) := by
  intro x hmem
  have hpos := L.pos t
  obtain ⟨i, hi, habs, hr⟩ := mem_caseInfos hmem
  have h1 : 0 < (i + 1) * L.size t := Nat.mul_pos (Nat.succ_pos i) hpos
  have h2 : (i + 1) * L.size t < L.size t * n := by
    rw [Nat.mul_comm]
    exact Nat.mul_lt_mul_of_pos_left (by omega) hpos
  have h3 : request (L.size t * n) = L.size t * n := by
    rw [request, Nat.mod_eq_of_lt hs, if_neg (by omega)]
  rw [h3]
  exact ⟨habs, by omega, by omega⟩

/-- The nodes of a block lie in the block, each at its own address. -/
theorem Registered.nodes {e : PoolInfo} (he : Registered L pool e) (hpos : 0 < e.bytes) :
    (e.pAbs = absOf pool e.pRaw ∧ ∀ x ∈ e.list, x.pAbs = absOf pool x.pRaw) ∧
      (∀ a ∈ e.pRaw :: e.list.map Elem.pRaw, e.pRaw ≤ a ∧ a < e.pRaw + e.bytes) ∧ (e.pRaw :: e.list.map Elem.pRaw).Nodup := by
  have harray : ∀ {addr n t}, L.size t * n < 2 ^ 32 → 0 < request (L.size t * n) →
      (∀ x ∈ caseInfos L pool addr t n, x.pAbs = absOf pool x.pRaw) ∧
      (∀ a ∈ addr :: (caseInfos L pool addr t n).map Elem.pRaw, addr ≤ a ∧ a < addr + request (L.size t * n)) ∧
      (addr :: (caseInfos L pool addr t n).map Elem.pRaw).Nodup := by
    intro addr n t hs hb
    have hx := @caseInfos_nodes L pool addr n t hs
    refine ⟨fun x hm => (hx x hm).1, List.forall_mem_cons.2 ⟨by omega, fun a ha => ?_⟩, caseInfos_nodup L pool addr t n⟩
    obtain ⟨x, hm, rfl⟩ := List.mem_map.1 ha
    have := hx x hm
    omega
  cases he with
  | array ht hn hs | argCells hs =>
    obtain ⟨h1, h2, h3⟩ := harray hs hpos
    exact ⟨⟨rfl, h1⟩, h2, h3⟩
  | _ => exact ⟨⟨rfl, fun x hx => absurd hx List.not_mem_nil⟩, fun a ha => by rw [List.mem_singleton.1 ha]; exact ⟨le_rfl, by omega⟩,
      List.nodup_singleton _⟩

theorem Registry.Distinct.sublist (h : R.Distinct) {es : List PoolInfo} (hs : es.Sublist R.rootInfo)
    (frames : List PoolInfo) : Registry.Distinct ⟨R.pool, es, frames⟩ :=
  ⟨fun e he => h.abs e (hs.subset he), fun e he => h.inPool e (hs.subset he), h.nodup.sublist (hs.flatMap _)⟩

/-- In a process whose allocator gives out new blocks only, no two nodes have the same address. -/
theorem Registry.Live.distinct (h : Registry.Live L pool R) : R.Distinct := by
  induction h with
  | empty => exact ⟨by simp, by simp, List.nodup_nil⟩
  | @register R R' _ hs hf ih =>
    obtain ⟨e, rfl, he⟩ := hs.cons
    have hfresh := hf e rfl
    obtain ⟨habs, hin, hn⟩ := he.nodes hfresh.pos
    have h1 := hfresh.pool_le
    have h2 := hfresh.le_pool
    refine ⟨List.forall_mem_cons.2 ⟨habs, ih.abs⟩, List.forall_mem_cons.2 ⟨fun a ha => ?_, ih.inPool⟩, ?_⟩
    · have := hin a ha
      exact ⟨by show R.pool ≤ a; omega, by show a < R.pool + 2 ^ 31; omega⟩
    refine List.nodup_append.2 ⟨hn, ih.nodup, fun a ha b hb hab => ?_⟩
    obtain ⟨e', he', hb'⟩ := List.mem_flatMap.1 hb
    have := hfresh.apart e' he' b hb'
    have := hin a ha
    omega
  | @free R R' addr _ hf ih =>
    rw [Registry.freeInfo] at hf
    split at hf
    · cases hf
      exact ih.sublist List.eraseP_sublist _
    split at hf
    · cases hf
      exact ih.sublist (List.Sublist.refl _) _
    · cases hf

/-! ## What the restoring process finds -/

/-- The registry of a restoring process after `pool_info.img`: the new entries, for the blocks `es` of the process that wrote it, in
front of its own. -/
structure Rebuilt (es own new : List PoolInfo) (s : Restored) : Prop where
  info : s.rootInfo = new ++ own
  same : List.Forall₂ Same (writtenBlocks es).reverse new
  frames : s.rootFrame.Perm ((writtenFrames es).map fun e => ⟨e.pAbs, 0, e.size, e.type, [], 0⟩)

/-- The frames after they have been laid out on the new stack. -/
def placeFrames (stack : UInt32 → Nat) (fs : List PoolInfo) : List PoolInfo := fs.map fun f => { f with pRaw := stack f.pAbs }

/-- The offset of a node of an entry. -/
def PoolInfo.offset? (e : PoolInfo) (k : Nat) : Option UInt32 := (e.pAbs :: e.list.map Elem.pAbs)[k]?

/-- The offset is that of an object of the blocks `es`, and whatever object has it, `get_info` finds the node made for that object. -/
structure Resolves (root es new : List PoolInfo) (pAbs : UInt32) : Prop where
  named : pAbs ∈ offsets es
  found : ∀ e x, (e, x) ∈ es.zip new → ∀ k, e.offset? k = some pAbs → ∃ n, x.nodes[k]? = some n ∧ getInfo root pAbs = .ok (some n)

/-- The offset is that of a frame, and `get_frame_info` finds it. -/
def ResolvesFrame (stack : UInt32 → Nat) (frames es : List PoolInfo) (pAbs : UInt32) : Prop :=
  ∃ e ∈ es, e.pAbs = pAbs ∧ getFrameInfo frames pAbs = .ok (some ⟨e.pAbs, stack e.pAbs, e.size, e.type, [], 0⟩)

/-- The offsets that are read from the images, but for NULL: pointers and heads of records in `dump.img`, pointers in `frame.img`
and `interp.img`, and frames in both. -/
structure Offsets where
  dump : List UInt32
  frame : List UInt32
  interp : List UInt32
  frames : List UInt32
  not_null : ∀ p ∈ dump ++ frame ++ interp ++ frames, p ≠ 0xFFFFFFFF

/-- Every offset that is read is resolved to what was made for the object that had it; `wasi` are the entries that
`restore_frame_internal` registers between `frame.img` and `interp.img`. -/
structure Unambiguous (es own new wasi : List PoolInfo) (s : Restored) (stack : UInt32 → Nat) (o : Offsets) : Prop where
  dump : ∀ p ∈ o.dump ++ o.frame, Resolves s.rootInfo (writtenBlocks es).reverse new p
  interp : ∀ p ∈ o.interp, Resolves (placeFrames stack s.rootFrame ++ (wasi ++ s.rootInfo)) (writtenBlocks es).reverse new p
  frames : ∀ p ∈ o.frames, ResolvesFrame stack (placeFrames stack s.rootFrame) (writtenFrames es) p

section Find
variable {root A B es new : List PoolInfo} {p : UInt32}

theorem map_pAbs_elemNodes (t : DataType) (xs : List Elem) : (elemNodes t xs).map PoolInfo.pAbs = xs.map Elem.pAbs := by
  induction xs with
  | nil => rfl
  | cons x xs ih => simp [elemNodes, ih]

theorem map_pAbs_nodes (e : PoolInfo) : e.nodes.map PoolInfo.pAbs = e.pAbs :: e.list.map Elem.pAbs := by
  simp [PoolInfo.nodes, map_pAbs_elemNodes]

theorem offsets_eq (es : List PoolInfo) : offsets es = (es.flatMap PoolInfo.nodes).map PoolInfo.pAbs := by
  simp [offsets, List.map_flatMap, map_pAbs_nodes]

theorem offsets_append : offsets (A ++ B) = offsets A ++ offsets B := List.flatMap_append

theorem getInfo_skip (h : p ∉ offsets A) : getInfo (A ++ B) p = getInfo B p := by
  have hnone : (A.flatMap PoolInfo.nodes).find? (·.pAbs = p) = none := by
    rw [List.find?_eq_none]
    intro n hn
    rw [offsets_eq] at h
    simp only [decide_eq_true_eq]
    exact fun he => h (List.mem_map.2 ⟨n, hn, he⟩)
  unfold getInfo
  rw [List.flatMap_append, List.find?_append, hnone]
  rfl

theorem getInfo_front (hp : p ≠ 0xFFFFFFFF) (h : p ∈ offsets A) : ∃ n ∈ A.flatMap PoolInfo.nodes, n.pAbs = p ∧ getInfo (A ++ B) p = .ok (some n) := by
  rw [offsets_eq] at h
  obtain ⟨n, hn, rfl⟩ := List.mem_map.1 h
  cases hf : (A.flatMap PoolInfo.nodes).find? (·.pAbs = n.pAbs) with
  | none =>
    rw [List.find?_eq_none] at hf
    exact absurd (decide_eq_true rfl) (hf n hn)
  | some n' =>
    refine ⟨n', List.mem_of_find?_eq_some hf, by simpa using List.find?_some hf, ?_⟩
    rw [getInfo, if_neg hp, List.flatMap_append, List.find?_append, hf]
    rfl

theorem Same.offset? {e x : PoolInfo} (h : Same e x) (k : Nat) : x.offset? k = e.offset? k := by
  rw [PoolInfo.offset?, PoolInfo.offset?, h.pAbs, h.elems]

theorem offsets_same (h : List.Forall₂ Same es new) : offsets new = offsets es := by
  induction h with
  | nil => rfl
  | cons hx _ ih =>
    simp only [offsets, List.flatMap_cons] at ih ⊢
    rw [hx.pAbs, hx.elems, ih]

theorem nodes_getElem? {x : PoolInfo} {k : Nat} (h : x.offset? k = some p) : ∃ n, x.nodes[k]? = some n ∧ n.pAbs = p := by
  rw [PoolInfo.offset?, ← map_pAbs_nodes, List.getElem?_map] at h
  obtain ⟨n, hn, hp⟩ := Option.map_eq_some_iff.1 h
  exact ⟨n, hn, hp⟩

/-- The node found is the one made for the object when no entry in front has the offset. -/
theorem resolves_new {own : List PoolInfo} (hs : List.Forall₂ Same es new) (hn : (offsets es).Nodup) (hp : p ≠ 0xFFFFFFFF)
    (hA : p ∉ offsets A) (hmem : p ∈ offsets es) : Resolves (A ++ (new ++ own)) es new p := by
  refine ⟨hmem, fun e x hex k hk => ?_⟩
  have hsame : Same e x := List.forall₂_zip hs hex
  obtain ⟨n, hnk, hnp⟩ := nodes_getElem? (hsame.offset? k ▸ hk)
  refine ⟨n, hnk, ?_⟩
  rw [← offsets_same hs] at hmem hn
  obtain ⟨n', hn', hp', hget⟩ := @getInfo_front new own p hp hmem
  rw [getInfo_skip hA, hget]
  have hxnew : x ∈ new := (List.of_mem_zip hex).2
  have hnmem : n ∈ new.flatMap PoolInfo.nodes := List.mem_flatMap.2 ⟨x, hxnew, List.mem_of_getElem? hnk⟩
  rw [offsets_eq] at hn
  rw [List.inj_on_of_nodup_map hn hn' hnmem (hp'.trans hnp.symm)]

theorem exists_mem_zip {e : PoolInfo} (hs : List.Forall₂ Same es new) (he : e ∈ es) : ∃ x, (e, x) ∈ es.zip new := by
  induction hs with
  | nil => exact absurd he List.not_mem_nil
  | @cons a b l l' _ _ ih =>
    rcases List.mem_cons.1 he with rfl | he
    · exact ⟨b, List.mem_cons_self⟩
    · obtain ⟨x, hx⟩ := ih he
      exact ⟨x, List.mem_cons_of_mem _ hx⟩

theorem not_resolves_of_front {F own wasi : List PoolInfo} (hs : List.Forall₂ Same es new) (hp : p ≠ 0xFFFFFFFF) (hF : p ∉ offsets F)
    (hraw : ∀ n ∈ wasi.flatMap PoolInfo.nodes, ∀ m ∈ new.flatMap PoolInfo.nodes, n.pRaw ≠ m.pRaw) (hw : p ∈ offsets wasi) :
    ¬Resolves (F ++ (wasi ++ (new ++ own))) es new p := by
  rintro ⟨hmem, hfound⟩
  obtain ⟨e, he, hpe⟩ := List.mem_flatMap.1 hmem
  obtain ⟨k, hk⟩ := List.mem_iff_getElem?.1 hpe
  obtain ⟨x, hex⟩ := exists_mem_zip hs he
  obtain ⟨n, hn, hget⟩ := hfound e x hex k hk
  obtain ⟨n', hn', -, hget'⟩ := @getInfo_front wasi (new ++ own) p hp hw
  rw [getInfo_skip hF, hget'] at hget
  cases hget
  have hnmem : n ∈ new.flatMap PoolInfo.nodes := List.mem_flatMap.2 ⟨x, (List.of_mem_zip hex).2, List.mem_of_getElem? hn⟩
  exact hraw n hn' n hnmem rfl

end Find

/-- The offsets of a running process name its nodes without ambiguity. -/
theorem Registry.Distinct.offsets_nodup (h : R.Distinct) : (offsets R.rootInfo).Nodup := by
  have hmap : offsets R.rootInfo = (R.rootInfo.flatMap fun e => e.pRaw :: e.list.map Elem.pRaw).map (absOf R.pool) := by
    rw [List.map_flatMap]
    refine List.flatMap_congr fun e he => ?_
    obtain ⟨h1, h2⟩ := h.abs e he
    rw [List.map_cons, h1, List.map_map]
    exact congrArg _ (List.map_congr_left h2)
  rw [hmap]
  refine List.Nodup.map_on (fun a ha b hb hab => ?_) h.nodup
  obtain ⟨e, he, ha'⟩ := List.mem_flatMap.1 ha
  obtain ⟨e', he', hb'⟩ := List.mem_flatMap.1 hb
  exact absOf_inj (h.inPool e he a ha') (h.inPool e' he' b hb') hab

section Whole
variable {L : Layout} {pool : Nat} {R : Registry} {own new wasi : List PoolInfo} {s : Restored} {stack : UInt32 → Nat} {p : UInt32}

theorem sublist_written (es : List PoolInfo) : (offsets (writtenBlocks es)).Sublist (offsets es) :=
  List.Sublist.flatMap ((List.filter_sublist).trans List.filter_sublist) _

theorem mem_placeFrames (hb : Rebuilt R.rootInfo own new s) {f : PoolInfo} (hf : f ∈ placeFrames stack s.rootFrame) :
    ∃ e ∈ writtenFrames R.rootInfo, f = ⟨e.pAbs, stack e.pAbs, e.size, e.type, [], 0⟩ := by
  obtain ⟨g, hg, rfl⟩ := List.mem_map.1 hf
  obtain ⟨e, he, rfl⟩ := List.mem_map.1 (hb.frames.mem_iff.1 hg)
  exact ⟨e, he, rfl⟩

theorem not_mem_frames (hR : R.Distinct) (hb : Rebuilt R.rootInfo own new s) (hp : p ∈ offsets (writtenBlocks R.rootInfo)) :
    p ∉ offsets (placeFrames stack s.rootFrame) := by
  intro hf
  obtain ⟨f, hf, hpf⟩ := List.mem_flatMap.1 hf
  obtain ⟨e, he, rfl⟩ := mem_placeFrames hb hf
  have hpe : p = e.pAbs := List.mem_singleton.1 hpf
  obtain ⟨e', he', hpe'⟩ := List.mem_flatMap.1 hp
  obtain ⟨hw, hk⟩ := List.mem_filter.1 he
  obtain ⟨hw', hk'⟩ := List.mem_filter.1 he'
  have hne : e ≠ e' := fun h => by
    subst h
    simp only [decide_eq_true_eq] at hk hk'
    exact hk' hk
  -- the two entries would share an offset
  have hdis := (List.nodup_flatMap.1 hR.offsets_nodup).2
  have : Std.Symm (Function.onFun List.Disjoint fun e : PoolInfo => e.pAbs :: e.list.map Elem.pAbs) :=
    ⟨fun _ _ h _ ha hb => h hb ha⟩
  have hd := hdis.forall (List.mem_of_mem_filter hw) (List.mem_of_mem_filter hw') hne
  exact hd (by rw [hpe]; exact List.mem_cons_self) hpe'

theorem resolvesFrame_iff (hb : Rebuilt R.rootInfo own new s) (hp : p ≠ 0xFFFFFFFF) :
    ResolvesFrame stack (placeFrames stack s.rootFrame) (writtenFrames R.rootInfo) p ↔ p ∈ (writtenFrames R.rootInfo).map PoolInfo.pAbs := by
  constructor
  · rintro ⟨e, he, rfl, -⟩
    exact List.mem_map_of_mem he
  intro hmem
  obtain ⟨e₀, he₀, rfl⟩ := List.mem_map.1 hmem
  have hex : ∃ f ∈ placeFrames stack s.rootFrame, decide (f.pAbs = e₀.pAbs) = true := by
    refine ⟨⟨e₀.pAbs, stack e₀.pAbs, e₀.size, e₀.type, [], 0⟩, List.mem_map.2 ⟨_, hb.frames.mem_iff.2 (List.mem_map_of_mem he₀), rfl⟩, ?_⟩
    simp
  obtain ⟨f, hfind⟩ := Option.isSome_iff_exists.1 (List.find?_isSome.2 hex)
  obtain ⟨e, he, rfl⟩ := mem_placeFrames hb (List.mem_of_find?_eq_some hfind)
  have hpe : e.pAbs = e₀.pAbs := by simpa using List.find?_some hfind
  refine ⟨e, he, hpe, ?_⟩
  rw [getFrameInfo, if_neg hp, hfind]

end Whole

/-! ## A module instance at offset 4096 -/

/-- The registry of a process with a module instance at 8192 in a pool at 4096. -/
def oneInstance : Registry := ⟨4096, [⟨4096, 8192, 1, .wasmModuleInstanceT, [], 8⟩], []⟩

/-- The entry that a restoring process makes for the module instance, at another place. -/
def newInstance : PoolInfo := ⟨4096, 12288, 1, .wasmModuleInstanceT, [], 8⟩

theorem oneInstance_live : Registry.Live layout8 4096 oneInstance := by
  refine Registry.Live.register Registry.Live.empty
    (@Registry.Register.single layout8 _ 8192 .wasmModuleInstanceT _ (by decide) (by decide)) fun e he => ?_
  cases he
  exact ⟨by decide, by decide, by decide, by decide⟩

theorem oneInstance_rebuilt : Rebuilt oneInstance.rootInfo [] [newInstance] ⟨[newInstance], [], 1⟩ :=
  ⟨rfl, List.Forall₂.cons ⟨rfl, rfl, rfl, rfl, by decide⟩ List.Forall₂.nil, List.Perm.refl _⟩

end WamrMigrate.Image
