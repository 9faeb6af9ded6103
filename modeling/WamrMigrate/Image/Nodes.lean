import Mathlib.Data.List.Perm.Subperm
import Mathlib.Data.List.TakeWhile
import WamrMigrate.Image.PoolImage
import WamrMigrate.Lib.Links

/-!
# The nodes of the registry

The registry is two linked lists of nodes, `root_info` and `root_frame`; at the end of `restore_runtime` the second is put in front of the first
without being emptied, so that the two share nodes. An operation here that reads a freed node stops with a fault. As long as the address to be
removed is on the list of `root_info`, the operations stop nowhere and do to it what `Registry` says: `root_frame` is then not read at all.
-/

namespace WamrMigrate.Image

/-- What `abs_translation` does to an entry. -/
def absTranslate (pool : Nat) (e : PoolInfo) : PoolInfo :=
  { e with pAbs := absOf pool e.pRaw, list := e.list.map fun x => { x with pAbs := absOf pool x.pRaw } }

/-- The two lists with their nodes; `made` nodes have been made, and none has the address of another, also after that is freed. -/
structure Nodes where
  pool : Nat
  links : Links PoolInfo
  made : Nat
  rootInfo : Nat
  rootFrame : Nat

namespace Nodes

variable (N : Nodes)

/-- More rounds than a loop over a list can take. -/
def rounds : Nat := N.made + 2

/-- A new entry at the head of `root_info`. -/
def add (e : PoolInfo) : Nodes :=
  { N with
    links := Function.update N.links (N.made + 1) (some ⟨e, N.rootInfo⟩)
    made := N.made + 1
    rootInfo := N.made + 1 }

/-- `free_info`. -/
def freeInfo (addr : Nat) : Except Fault Nodes :=
  match N.links.search (·.pRaw == addr) N.rounds 0 N.rootInfo with
  | .error f => .error f
  | .ok (some (prev, info, n)) =>
    .ok { N with links := (relink N.links prev n.next).free info, rootInfo := reroot N.rootInfo prev n.next }
  | .ok none =>
    match N.links.search (·.pRaw == addr) N.rounds 0 N.rootFrame with
    | .error f => .error f
    | .ok (some (prev, info, n)) =>
      .ok { N with links := (relink N.links prev n.next).free info, rootFrame := reroot N.rootFrame prev n.next }
    | .ok none => .error .exit

/-- `abs_translation`. -/
def absTranslation : Except Fault Nodes :=
  (Links.rewrite (fun _ e => ((), absTranslate N.pool e)) N.links N.rounds () N.rootInfo).map fun r => { N with links := r.1 }

/-- The entries that the loop of `dump_runtime` comes across. -/
def infos : Except Fault (List PoolInfo) :=
  (Links.rewrite (fun acc e => (acc ++ [e], e)) N.links N.rounds [] N.rootInfo).map Prod.snd

/-- A new entry in its place in `root_frame`. -/
def insertFrame (e : PoolInfo) : Except Fault Nodes :=
  (N.links.skip (fun f => decide (toInt e.pAbs > toInt f.pAbs)) N.rounds 0 N.rootFrame).map fun (q, p) =>
    { N with
      links := relink (Function.update N.links (N.made + 1) (some ⟨e, p⟩)) q (N.made + 1)
      made := N.made + 1
      rootFrame := reroot N.rootFrame q (N.made + 1) }

/-- The loop of `restore_frame_internal` over `root_frame`, which writes `p_raw`. -/
def placeFrames {σ : Type} (f : σ → PoolInfo → σ × PoolInfo) (s : σ) : Except Fault (Nodes × σ) :=
  (Links.rewrite f N.links N.rounds s N.rootFrame).map fun r => ({ N with links := r.1 }, r.2)

/-- The end of `restore_runtime`: `root_frame` is put in front of `root_info`. -/
def joinFrames : Except Fault Nodes :=
  if N.rootFrame = 0 then .error .invalid
  else (N.links.last N.rounds N.rootFrame).map fun info => { N with links := N.links.setNext info N.rootInfo, rootInfo := N.rootFrame }

end Nodes

/-- A round of the first loop of `restore_runtime` for an entry that is read as it was written, with the nodes. -/
def loadNode (L : Layout) (place : Nat → Nat) (r : Restored × Nodes) (e : PoolInfo) : Except Fault (Restored × Nodes) :=
  match kind e.type with
  | .frame => (r.2.insertFrame ⟨e.pAbs, 0, e.size, e.type, [], 0⟩).map fun N => (r.1.after L place e, N)
  | .dropped => .ok (r.1, r.2)
  | _ =>
    match (r.1.after L place e).rootInfo with
    | x :: _ => .ok (r.1.after L place e, r.2.add x)
    | [] => .error .invalid

/-- The list of `root_info` has the entries `es`. -/
def Holds (N : Nodes) (es : List PoolInfo) : Prop :=
  ∃ xs, Seg N.links N.rootInfo xs 0 ∧ xs.map Prod.snd = es ∧ (xs.map Prod.fst).Nodup ∧ ∀ i ∈ xs.map Prod.fst, i ≤ N.made

/-- The two lists have the entries `es` and `fs`, and share no node. -/
def Parts (N : Nodes) (es fs : List PoolInfo) : Prop :=
  ∃ xs ys, Seg N.links N.rootInfo xs 0 ∧ Seg N.links N.rootFrame ys 0 ∧ xs.map Prod.snd = es ∧ ys.map Prod.snd = fs ∧
    ((xs ++ ys).map Prod.fst).Nodup ∧ ∀ i ∈ (xs ++ ys).map Prod.fst, i ≤ N.made

section Nodes
variable {N : Nodes} {es fs : List PoolInfo} {e : PoolInfo} {addr : Nat}

theorem length_lt_rounds {xs : List (Nat × PoolInfo)} (hn : (xs.map Prod.fst).Nodup) (hm : ∀ i ∈ xs.map Prod.fst, i ≤ N.made) :
    xs.length < N.rounds := by
  have hsub : xs.map Prod.fst ⊆ List.range (N.made + 1) := fun i hi => List.mem_range.2 (Nat.lt_succ_of_le (hm i hi))
  have hle := (List.subperm_of_subset hn hsub).length_le
  rw [List.length_map, List.length_range] at hle
  exact Nat.lt_succ_of_le hle

theorem Holds.add (h : Holds N es) (e : PoolInfo) : Holds (N.add e) (e :: es) := by
  obtain ⟨xs, hs, rfl, hn, hm⟩ := h
  have hnew : N.made + 1 ∉ xs.map Prod.fst := fun hi => absurd (hm _ hi) (by omega)
  refine ⟨(N.made + 1, e) :: xs, hs.push (by omega) hnew, rfl, List.nodup_cons.2 ⟨hnew, hn⟩, ?_⟩
  exact List.forall_mem_cons.2 ⟨Nat.le_refl _, fun i hi => Nat.le_succ_of_le (hm i hi)⟩

/-- The first entry with an address, and the entries before and after it. -/
theorem exists_first {es : List PoolInfo} (h : es.any (·.pRaw == addr) = true) :
    ∃ as a bs, es = as ++ a :: bs ∧ (∀ x ∈ as, (x.pRaw == addr) = false) ∧ (a.pRaw == addr) = true ∧ es.eraseP (·.pRaw == addr) = as ++ bs := by
  obtain ⟨a, ha, hp⟩ := List.any_eq_true.1 h
  obtain ⟨b, as, bs, hb, hpb, hes, her⟩ := List.exists_of_eraseP (p := (·.pRaw == addr)) ha hp
  exact ⟨as, b, bs, hes, fun x hx => by simpa using hb x hx, hpb, her⟩

/-- An address on the list of `root_info` is removed from it, and `root_frame` is not read. -/
theorem Holds.freeInfo (h : Holds N es) (hany : es.any (·.pRaw == addr) = true) :
    ∃ N', N.freeInfo addr = .ok N' ∧ Holds N' (es.eraseP (·.pRaw == addr)) ∧ N'.pool = N.pool ∧ N'.rootFrame = N.rootFrame := by
  obtain ⟨zs, hs, hes, hn, hm⟩ := h
  obtain ⟨as, a, bs, hsplit, hbefore, hfound, herase⟩ := exists_first hany
  rw [hsplit] at hes
  obtain ⟨xs, ws, rfl, rfl, hws⟩ := List.map_eq_append_iff.1 hes
  obtain ⟨x, ys, rfl, rfl, rfl⟩ := List.map_eq_cons_iff.1 hws
  obtain ⟨i, v⟩ := x
  have hbefore' : ∀ x ∈ xs, (x.2.pRaw == addr) = false := fun x hx => hbefore x.2 (List.mem_map_of_mem hx)
  have hlen := length_lt_rounds hn hm
  have hlt : xs.length < N.rounds := by
    rw [List.length_append] at hlen
    omega
  obtain ⟨next, hsearch, hrest⟩ : ∃ next, N.links.search (·.pRaw == addr) N.rounds 0 N.rootInfo =
      .ok (some (lastId 0 xs, i, ⟨v, next⟩)) ∧ Seg N.links next ys 0 := hs.search hbefore' hfound hlt
  refine ⟨{ N with
    links := (relink N.links (lastId 0 xs) next).free i
    rootInfo := reroot N.rootInfo (lastId 0 xs) next }, by rw [Nodes.freeInfo, hsearch], ⟨xs ++ ys, hs.unlink hn hrest, ?_, ?_, ?_⟩, rfl, rfl⟩
  · rw [herase, List.map_append]
  · rw [List.map_append, List.map_cons] at hn
    rw [List.map_append]
    exact hn.sublist (List.Sublist.append (List.Sublist.refl _) (List.sublist_cons_self _ _))
  intro j hj
  refine hm j ?_
  rw [List.map_append] at hj ⊢
  rcases List.mem_append.1 hj with hj | hj
  · exact List.mem_append_left _ hj
  · exact List.mem_append_right _ (List.mem_cons_of_mem _ hj)

theorem accum_map {α : Type} (f : α → α) (as : List α) : (accum (fun (_ : Unit) a => ((), f a)) () as).2 = as.map f := by
  induction as with
  | nil => rfl
  | cons a as ih =>
    rw [accum, List.map_cons, ← ih]

theorem accum_collect {α : Type} (as acc : List α) : (accum (fun acc a => (acc ++ [a], a)) acc as).1 = acc ++ as := by
  induction as generalizing acc with
  | nil => rw [List.append_nil]; rfl
  | cons a as ih =>
    rw [accum, ih, List.append_assoc]
    rfl

theorem length_accum {α σ : Type} (f : σ → α → σ × α) (s : σ) (as : List α) : (accum f s as).2.length = as.length := by
  induction as generalizing s with
  | nil => rfl
  | cons a as ih => exact congrArg Nat.succ (ih _)

theorem Holds.absTranslation (h : Holds N es) : ∃ N', N.absTranslation = .ok N' ∧ Holds N' (es.map (absTranslate N.pool)) ∧ N'.pool = N.pool := by
  obtain ⟨xs, hs, rfl, hn, hm⟩ := h
  obtain ⟨links, hrun, hseg, -⟩ := hs.rewrite (f := fun (_ : Unit) e => ((), absTranslate N.pool e)) (s := ()) hn (length_lt_rounds hn hm)
  rw [accum_map] at hseg
  have hlen : (xs.map Prod.fst).length ≤ ((xs.map Prod.snd).map (absTranslate N.pool)).length := by simp
  refine ⟨{ N with links := links }, by rw [Nodes.absTranslation, hrun]; rfl, ⟨_, hseg, ?_, ?_, ?_⟩, rfl⟩
  · exact List.map_snd_zip (by simp)
  · rw [List.map_fst_zip hlen]
    exact hn
  · rw [List.map_fst_zip hlen]
    exact hm

theorem Holds.infos (h : Holds N es) : N.infos = .ok es := by
  obtain ⟨xs, hs, rfl, hn, hm⟩ := h
  obtain ⟨links, hrun, -⟩ := @Seg.rewrite _ _ _ _ _ (fun acc e => (acc ++ [e], e)) [] hs hn _ (length_lt_rounds hn hm)
  rw [Nodes.infos, hrun, accum_collect]
  rfl

/-! ## The restoring process -/

theorem Holds.parts (h : Holds N es) (hf : N.rootFrame = 0) : Parts N es [] := by
  obtain ⟨xs, hs, hes, hn, hm⟩ := h
  refine ⟨xs, [], hs, ?_, hes, rfl, by rwa [List.append_nil], by rwa [List.append_nil]⟩
  rw [hf]
  exact .nil

theorem Parts.add (h : Parts N es fs) (e : PoolInfo) : Parts (N.add e) (e :: es) fs := by
  obtain ⟨xs, ys, hx, hy, rfl, rfl, hn, hm⟩ := h
  have hnew : N.made + 1 ∉ (xs ++ ys).map Prod.fst := fun hi => absurd (hm _ hi) (Nat.not_succ_le_self _)
  have hnew' := hnew
  rw [List.map_append] at hnew'
  obtain ⟨hnx, hny⟩ := not_or.1 fun h => hnew' (List.mem_append.2 h)
  refine ⟨(N.made + 1, e) :: xs, ys, hx.push (Nat.succ_ne_zero _) hnx, hy.congr fun j hj => ?_, rfl, rfl, ?_, ?_⟩
  · refine Function.update_of_ne ?_ ..
    rintro rfl
    exact hny hj
  · exact List.nodup_cons.2 ⟨hnew, hn⟩
  · exact List.forall_mem_cons.2 ⟨Nat.le_refl _, fun i hi => Nat.le_succ_of_le (hm i hi)⟩

/-- Several new entries at the head of `root_info`, the last of them first. -/
theorem Parts.addAll (h : Parts N es fs) (xs : List PoolInfo) :
    Parts (xs.foldr (fun x N => N.add x) N) (xs ++ es) fs ∧ (xs.foldr (fun x N => N.add x) N).pool = N.pool := by
  induction xs with
  | nil => exact ⟨h, rfl⟩
  | cons x xs ih => exact ⟨ih.1.add x, ih.2⟩

/-- The place of an entry in `root_frame` is behind the entries with smaller offsets at the front. -/
theorem insertFrame_eq (e : PoolInfo) (fs : List PoolInfo) : insertFrame e fs = fs.takeWhile (fun f => decide (toInt e.pAbs > toInt f.pAbs)) ++
      e :: fs.dropWhile (fun f => decide (toInt e.pAbs > toInt f.pAbs)) := by
  induction fs with
  | nil => rfl
  | cons f fs ih =>
    rw [insertFrame]
    by_cases hlt : toInt e.pAbs > toInt f.pAbs
    · rw [if_pos hlt, List.takeWhile_cons_of_pos (by simpa using hlt), List.dropWhile_cons_of_pos (by simpa using hlt), ih]
      rfl
    · rw [if_neg hlt, List.takeWhile_cons_of_neg (by simpa using hlt), List.dropWhile_cons_of_neg (by simpa using hlt)]
      rfl

theorem Parts.insertFrame (h : Parts N es fs) (e : PoolInfo) :
    ∃ N', N.insertFrame e = .ok N' ∧ Parts N' es (Image.insertFrame e fs) ∧ N'.pool = N.pool := by
  obtain ⟨xs, ys, hx, hy, rfl, rfl, hn, hm⟩ := h
  let goes : PoolInfo → Bool := fun f => decide (toInt e.pAbs > toInt f.pAbs)
  -- the nodes before the place and those behind it
  obtain ⟨as, bs, rfl, has, hbs, hmap⟩ : ∃ as bs, ys = as ++ bs ∧ (∀ a ∈ as, goes a.2 = true) ∧ (∀ b ∈ bs.head?, goes b.2 = false) ∧
      Image.insertFrame e (ys.map Prod.snd) = as.map Prod.snd ++ e :: bs.map Prod.snd := by
    refine ⟨ys.takeWhile (goes ∘ Prod.snd), ys.dropWhile (goes ∘ Prod.snd), List.takeWhile_append_dropWhile.symm,
      fun a ha => ?_, fun b hb => ?_, ?_⟩
    · exact List.mem_takeWhile_imp (p := goes ∘ Prod.snd) ha
    · have := List.head?_dropWhile_not (goes ∘ Prod.snd) ys
      rw [Option.mem_def.1 hb] at this
      simpa using this
    · rw [insertFrame_eq, List.takeWhile_map, List.dropWhile_map]
  have hnew : N.made + 1 ∉ (xs ++ (as ++ bs)).map Prod.fst := fun hi => absurd (hm _ hi) (Nat.not_succ_le_self _)
  have hparts := hn
  rw [List.map_append] at hnew hparts
  obtain ⟨hnx, hny⟩ := not_or.1 fun h => hnew (List.mem_append.2 h)
  obtain ⟨hnodx, hnody, hdis⟩ := List.nodup_append.1 hparts
  have hm' : ∀ i ∈ (as ++ bs).map Prod.fst, i ≤ N.made := fun i hi => hm i (by
    rw [List.map_append]
    exact List.mem_append_right _ hi)
  have hlen : as.length < N.rounds := by
    have := length_lt_rounds hnody hm'
    rw [List.length_append] at this
    omega
  obtain ⟨q, hskip, hseg, hrest⟩ := @Seg.skip _ N.links _ as bs goes hy has hbs N.rounds 0 hlen
  refine ⟨{ N with
      links := relink (Function.update N.links (N.made + 1) (some ⟨e, q⟩)) (lastId 0 as) (N.made + 1)
      made := N.made + 1
      rootFrame := reroot N.rootFrame (lastId 0 as) (N.made + 1) }, ?_, ⟨xs, as ++ (N.made + 1, e) :: bs, ?_, ?_, rfl, ?_, ?_, ?_⟩, rfl⟩
  · rw [Nodes.insertFrame, hskip]
    rfl
  · refine hx.congr fun j hj => ?_
    have hja : j ∉ as.map Prod.fst := fun ha => hdis j hj j (by
      rw [List.map_append]
      exact List.mem_append_left _ ha) rfl
    have hseg' : Seg (Function.update N.links (N.made + 1) (some ⟨e, q⟩)) N.rootFrame as q := hseg.congr fun k hk =>
      Function.update_of_ne (by
        rintro rfl
        exact hny (by rw [List.map_append]; exact List.mem_append_left _ hk)) ..
    show relink (Function.update N.links (N.made + 1) (some ⟨e, q⟩)) (lastId 0 as) (N.made + 1) j = _
    rw [relink_of_not_mem hseg' hja, Function.update_of_ne]
    rintro rfl
    exact hnx hj
  · exact hseg.insert hrest hnody (Nat.succ_ne_zero _) hny
  · rw [hmap, List.map_append, List.map_cons]
  · have hperm : (xs ++ (as ++ (N.made + 1, e) :: bs)).Perm ((N.made + 1, e) :: (xs ++ (as ++ bs))) :=
      (List.perm_middle.append_left xs).trans List.perm_middle
    rw [(hperm.map Prod.fst).nodup_iff, List.map_cons, List.nodup_cons, List.map_append]
    exact ⟨hnew, hparts⟩
  have hperm : (xs ++ (as ++ (N.made + 1, e) :: bs)).Perm ((N.made + 1, e) :: (xs ++ (as ++ bs))) :=
    (List.perm_middle.append_left xs).trans List.perm_middle
  intro i hi
  rcases List.mem_cons.1 ((hperm.map Prod.fst).subset hi) with rfl | hi
  · exact Nat.le_refl _
  · exact Nat.le_succ_of_le (hm i hi)

theorem Parts.placeFrames {σ : Type} (h : Parts N es fs) (f : σ → PoolInfo → σ × PoolInfo) (s : σ) :
    ∃ N', N.placeFrames f s = .ok (N', (accum f s fs).1) ∧ Parts N' es (accum f s fs).2 ∧ N'.pool = N.pool := by
  obtain ⟨xs, ys, hx, hy, rfl, rfl, hn, hm⟩ := h
  have hparts := hn
  rw [List.map_append] at hparts hm
  obtain ⟨hnodx, hnody, hdis⟩ := List.nodup_append.1 hparts
  have hlen := length_lt_rounds hnody fun i hi => hm i (List.mem_append_right _ hi)
  obtain ⟨links, hrun, hseg, hother⟩ := @Seg.rewrite _ _ _ _ _ f s hy hnody _ hlen
  have hlen' : (ys.map Prod.fst).length = (accum f s (ys.map Prod.snd)).2.length := by
    rw [length_accum, List.length_map, List.length_map]
  have hfst : ((ys.map Prod.fst).zip (accum f s (ys.map Prod.snd)).2).map Prod.fst = ys.map Prod.fst :=
    List.map_fst_zip (Nat.le_of_eq hlen')
  refine ⟨{ N with links := links }, by rw [Nodes.placeFrames, hrun]; rfl, ⟨xs, _, ?_, hseg, rfl, ?_, ?_, ?_⟩, rfl⟩
  · exact hx.congr fun j hj => hother j fun hjy => hdis j hj j hjy rfl
  · exact List.map_snd_zip (Nat.le_of_eq hlen'.symm)
  · rw [List.map_append, hfst]
    exact hparts
  · rw [List.map_append, hfst]
    exact hm

theorem Parts.joinFrames (h : Parts N es fs) (hne : fs ≠ []) : ∃ N', N.joinFrames = .ok N' ∧ Holds N' (fs ++ es) ∧ N'.pool = N.pool := by
  obtain ⟨xs, ys, hx, hy, rfl, rfl, hn, hm⟩ := h
  have hys : ys ≠ [] := fun h => hne (by rw [h]; rfl)
  obtain ⟨zs, ⟨i, v⟩, rfl⟩ := (List.eq_nil_or_concat ys).resolve_left hys
  rw [List.concat_eq_append] at *
  have hroot : N.rootFrame ≠ 0 := by
    intro h0
    rw [h0] at hy
    cases zs with
    | nil => exact hy.uncons.2.1 hy.uncons.1.symm
    | cons z zs => exact (Seg.uncons hy).2.1 (Seg.uncons hy).1.symm
  have hparts := hn
  rw [List.map_append] at hparts
  obtain ⟨hnodx, hnody, hdis⟩ := List.nodup_append.1 hparts
  have hm' : ∀ j ∈ (zs ++ [(i, v)]).map Prod.fst, j ≤ N.made := fun j hj => hm j (by
    rw [List.map_append]
    exact List.mem_append_right _ hj)
  have hlen : zs.length < N.rounds := by
    have := length_lt_rounds hnody hm'
    rw [List.length_append] at this
    omega
  have hperm : ((zs ++ [(i, v)]) ++ xs).Perm (xs ++ (zs ++ [(i, v)])) := List.perm_append_comm
  refine ⟨{ N with links := N.links.setNext i N.rootInfo, rootInfo := N.rootFrame }, ?_, ⟨(zs ++ [(i, v)]) ++ xs, ?_, ?_, ?_, ?_⟩, rfl⟩
  · rw [Nodes.joinFrames, if_neg hroot, hy.last hlen]
    rfl
  · refine (hy.setNext_last hnody).append (hx.congr fun j hj => Function.update_of_ne ?_ ..)
    rintro rfl
    exact hdis j hj j (by simp) rfl
  · rw [List.map_append]
  · rw [(hperm.map Prod.fst).nodup_iff]
    exact hn
  · exact fun j hj => hm j ((hperm.map Prod.fst).subset hj)

/-- What an entry adds to `root_info`: nothing, or one entry with the next block. -/
theorem after_rootInfo (L : Layout) (place : Nat → Nat) (s : Restored) (e : PoolInfo) :
    (s.after L place e).rootInfo = s.rootInfo ∧ (s.after L place e).blocks = s.blocks ∧ (kind e.type = .frame ∨ kind e.type = .dropped) ∨
      ∃ x, (s.after L place e).rootInfo = x :: s.rootInfo ∧ (s.after L place e).rootFrame = s.rootFrame ∧
        (s.after L place e).blocks = s.blocks + 1 ∧ x.pRaw = place s.blocks ∧ x.type = e.type ∧ kind e.type ≠ .frame ∧ kind e.type ≠ .dropped := by
  unfold Restored.after
  cases hk : kind e.type with
  | frame => exact .inl ⟨rfl, rfl, .inl rfl⟩
  | dropped => exact .inl ⟨rfl, rfl, .inr rfl⟩
  | tail | plain | objects => exact .inr ⟨_, rfl, rfl, rfl, rfl, rfl, by simp, by simp⟩

theorem Parts.load {L : Layout} {place : Nat → Nat} {ws : List PoolInfo} {s : Restored} (h : Parts N s.rootInfo s.rootFrame) :
    ∃ N', ws.foldlM (loadNode L place) (s, N) = .ok (ws.foldl (Restored.after L place) s, N') ∧
      Parts N' (ws.foldl (Restored.after L place) s).rootInfo (ws.foldl (Restored.after L place) s).rootFrame ∧ N'.pool = N.pool := by
  induction ws generalizing s N with
  | nil => exact ⟨N, rfl, h, rfl⟩
  | cons e ws ih =>
    have hstep : ∃ N₁, loadNode L place (s, N) e = .ok (s.after L place e, N₁) ∧
        Parts N₁ (s.after L place e).rootInfo (s.after L place e).rootFrame ∧ N₁.pool = N.pool := by
      rcases after_rootInfo L place s e with ⟨hinfo, hblocks, hk | hk⟩ | ⟨x, hinfo, hframe, -, -, -, hk, hd⟩
      · obtain ⟨N₁, hins, hparts, hpool⟩ := h.insertFrame ⟨e.pAbs, 0, e.size, e.type, [], 0⟩
        have hafter : (s.after L place e).rootFrame = Image.insertFrame ⟨e.pAbs, 0, e.size, e.type, [], 0⟩ s.rootFrame := by
          rw [Restored.after, hk]
        refine ⟨N₁, ?_, by rw [hinfo, hafter]; exact hparts, hpool⟩
        rw [loadNode, hk, hins]
        rfl
      · have hafter : s.after L place e = s := by rw [Restored.after, hk]
        refine ⟨N, ?_, by rw [hafter]; exact h, rfl⟩
        rw [loadNode, hk, hafter]
      refine ⟨N.add x, ?_, by rw [hinfo, hframe]; exact h.add x, rfl⟩
      unfold loadNode
      split
      · next heq => exact absurd heq hk
      · next heq => exact absurd heq hd
      · rw [hinfo]
    obtain ⟨N₁, hload, hparts, hpool⟩ := hstep
    obtain ⟨N', hrun, hparts', hpool'⟩ := ih hparts
    refine ⟨N', ?_, hparts', hpool'.trans hpool⟩
    rw [List.foldlM_cons, hload, List.foldl_cons, ← hrun]
    rfl

end Nodes

end WamrMigrate.Image
