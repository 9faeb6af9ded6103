import Mathlib.Data.List.Forall2
import WamrMigrate.Image.Registry

/-!
# `pool_info.img`

`dump_runtime` writes for each entry of the registry its offset, type and size, and the offsets of its elements if it has nodes for them. The first
loop of `restore_runtime` takes a new block for each entry; it decides by the type whether offsets of elements follow, while the writer decides by
whether there are nodes. `poolImage_roundTrip_iff` says for which registries of the interpreter build the file is read back.
-/

namespace WamrMigrate.Image

open Reader

/-! ## Writing -/

/-- The value of an `int`. -/
def toInt (w : UInt32) : Int := if w.toNat < 2 ^ 31 then w.toNat else (w.toNat : Int) - 2 ^ 32

/-- The types that `dump_runtime` leaves out. -/
def isSkipped : DataType → Bool
  | .gcHeapT | .wasiContextT | .wasiFileT | .nativeSymbolsNodeT | .fdPrestatsT | .fdTableT | .argvEnvironValuesT => true
  | _ => false

/-- What `dump_runtime` writes for an entry. With too many nodes the process ends, with too few it follows a null pointer. -/
def dumpInfo (e : PoolInfo) : Except Fault (List UInt8) :=
  let head := put32 e.pAbs ++ put32 e.type.code ++ put32 e.size
  let count := (toInt e.size - 1).toNat
  if e.list = [] then .ok head
  else if e.list.length < count then .error .invalid
  else if count < e.list.length then .error .exit
  else .ok (head ++ e.list.flatMap fun x => put32 x.pAbs)

/-- The file that `dump_runtime` writes for the entries from the head of `root_info` on. -/
def dumpInfos : List PoolInfo → Except Fault (List UInt8)
  | [] => .ok []
  | e :: es =>
    if isSkipped e.type then dumpInfos es
    else
      match dumpInfo e with
      | .error f => .error f
      | .ok bs =>
        match dumpInfos es with
        | .error f => .error f
        | .ok bs' => .ok (bs ++ bs')

/-! ## Reading -/

/-- How `restore_runtime` treats the types. -/
inductive Kind where
  /-- A structure that ends with `size` bytes. -/
  | tail
  | frame
  | dropped
  /-- `size` plain values or pointers. -/
  | plain
  /-- An array of `size` objects, with the offsets of all but the first. -/
  | objects
  deriving DecidableEq

/-- The cases of `restore_runtime`. -/
def kind : DataType → Kind
  | .wasmExecEnvT | .wasmTypeT | .wasmTableInstanceT | .stringNodeT | .wasmFunctionT => .tail
  | .wasmInterpFrameT => .frame
  | .gcHeapT | .wasiContextT | .fdTableT | .fdPrestatsT | .argvEnvironValuesT | .wasiFileT => .dropped
  | .charT | .charTT | .uint8T | .uint16T | .uint32T | .uint64T | .wasmFunctionTT | .wasmTypeTT | .wasmDataSegTT
  | .wasmMemoryInstanceTT | .wasmTableInstanceTT => .plain
  | _ => .objects

/-- The types whose size `set_data_size` does not set. -/
def sizeUnset : DataType → Bool
  | .baseAddrT | .wasmThreadArgT | .externRefMapNodeT | .fdTableT | .fdPrestatsT | .argvEnvironValuesT | .uvwasiT | .uvwasiPreopenT
  | .wasmRegisteredModuleT | .loadingModuleT | .branchBlockPatchT | .wasmExportGlobInstanceT | .wasmSubModInstNodeT
  | .wasiFileT => true
  | _ => false

/-- `data_size`. -/
def dataSize (L : Layout) (t : DataType) : Nat := if sizeUnset t then 0 else L.size t

/-- An `int` converted to `size_t`. -/
def toSize (w : UInt32) : Nat := (toInt w % 2 ^ 64).toNat

/-- What the reading loop has built: the new entries, and how many blocks it has taken. -/
structure Restored where
  rootInfo : List PoolInfo
  rootFrame : List PoolInfo
  blocks : Nat
  deriving DecidableEq

/-- The place of an entry in `root_frame`: before the first one whose offset is not less. -/
def insertFrame (e : PoolInfo) : List PoolInfo → List PoolInfo
  | [] => [e]
  | f :: fs => if toInt e.pAbs > toInt f.pAbs then f :: insertFrame e fs else e :: f :: fs

/-- The nodes of the elements of an array at `base`, the first of them with index `i`. -/
def restoreElems (base size : Nat) : Nat → List UInt32 → List Elem
  | _, [] => []
  | i, p :: ps => ⟨p, base + i * size⟩ :: restoreElems base size (i + 1) ps

@[simp] theorem pAbs_restoreElems (base size i : Nat) (ps : List UInt32) : (restoreElems base size i ps).map Elem.pAbs = ps := by
  induction ps generalizing i with
  | nil => rfl
  | cons p ps ih => simp [restoreElems, ih]

/-- A new entry with a new block of `bytes` bytes; `place` says where the blocks of the restoring process are. -/
def Restored.push (s : Restored) (place : Nat → Nat) (pAbs size : UInt32) (t : DataType) (list : List Elem) (bytes : Nat) :
    Restored :=
  { s with rootInfo := ⟨pAbs, place s.blocks, size, t, list, request bytes⟩ :: s.rootInfo, blocks := s.blocks + 1 }

/-- The `switch` of `restore_runtime`. -/
def restoreAs (L : Layout) (place : Nat → Nat) (s : Restored) (pAbs size : UInt32) (t : DataType) : Reader Restored :=
  match kind t with
  | .tail =>
    if (dataSize L t + toSize size) % 2 ^ 64 = 0 then fail .exit
    else return s.push place pAbs size t [] (dataSize L t + toSize size)
  | .frame => return { s with rootFrame := insertFrame ⟨pAbs, 0, size, t, [], 0⟩ s.rootFrame }
  | .dropped => return s
  | .plain => return s.push place pAbs size t [] (dataSize L t * toSize size)
  | .objects =>
    if dataSize L t * toSize size % 2 ^ 64 = 0 then fail .exit
    else do
      let ps ← times u32 (toInt size - 1).toNat
      return s.push place pAbs size t (restoreElems (place s.blocks) (dataSize L t) 1 ps) (dataSize L t * toSize size)

/-- The body of the loop of `restore_runtime` that reads `pool_info.img`. -/
def restoreInfo (L : Layout) (place : Nat → Nat) (s : Restored) (pAbs : UInt32) : Reader Restored := do
  let type ← u32
  let size ← u32
  match DataType.ofCode type with
  | none => fail .invalid
  | some t => restoreAs L place s pAbs size t

/-- The loop of `restore_runtime` that reads `pool_info.img`, in a process with the entries `own`. -/
def restoreInfos (L : Layout) (place : Nat → Nat) (own : List PoolInfo) (img : List UInt8) : Except Fault (Restored × List UInt8) :=
  (whileWords (restoreInfo L place) (img.length + 1) ⟨own, [], 0⟩).run img

/-! ## The round trip -/

/-- The entry `e'` of the restoring process stands for `e`: the same offset, type, size and offsets of elements, and a block that is
large enough. -/
structure Same (e e' : PoolInfo) : Prop where
  pAbs : e'.pAbs = e.pAbs
  type : e'.type = e.type
  size : e'.size = e.size
  elems : e'.list.map Elem.pAbs = e.list.map Elem.pAbs
  bytes : e.bytes ≤ e'.bytes

/-- The entries that are written. -/
def written (es : List PoolInfo) : List PoolInfo := es.filter fun e => !isSkipped e.type

/-- The entries that are written, but for the frames. -/
def writtenBlocks (es : List PoolInfo) : List PoolInfo := (written es).filter fun e => kind e.type ≠ .frame

/-- The frames. -/
def writtenFrames (es : List PoolInfo) : List PoolInfo := (written es).filter fun e => kind e.type = .frame

/-- The file written for the entries `es` is read to its end in a process with the entries `own`, and gives one entry for each
that was written; the frames, whose room is in the block of their execution environment, are put in order of their offsets. -/
def RoundTrip (L : Layout) (place : Nat → Nat) (own es : List PoolInfo) : Prop :=
  ∃ img s new, dumpInfos es = .ok img ∧ restoreInfos L place own img = .ok (s, []) ∧ s.rootInfo = new ++ own ∧
    List.Forall₂ Same (writtenBlocks es).reverse new ∧
    s.rootFrame.Perm ((writtenFrames es).map fun e => ⟨e.pAbs, 0, e.size, e.type, [], 0⟩)

/-- The reader takes for the entry exactly what was written. -/
def Readable (L : Layout) (e : PoolInfo) : Prop :=
  match kind e.type with
  | .tail => e.list = [] ∧ (dataSize L e.type + toSize e.size) % 2 ^ 64 ≠ 0
  | .objects => dataSize L e.type * toSize e.size % 2 ^ 64 ≠ 0 ∧ e.list.length = (toInt e.size - 1).toNat
  | _ => e.list = []

/-- The size of the block that the reader asks for. -/
def newBytes (L : Layout) (t : DataType) (size : UInt32) : Nat :=
  if kind t = .tail then request (dataSize L t + toSize size) else request (dataSize L t * toSize size)

/-- The entry is read as it was written and gets a large enough block; the room of a frame is not in a block of its own. -/
def Restorable (L : Layout) (e : PoolInfo) : Prop := Readable L e ∧ (kind e.type ≠ .frame → e.bytes ≤ newBytes L e.type e.size)

/-- The state after an entry that is read as it was written. -/
def Restored.after (L : Layout) (place : Nat → Nat) (s : Restored) (e : PoolInfo) : Restored :=
  match kind e.type with
  | .frame => { s with rootFrame := insertFrame ⟨e.pAbs, 0, e.size, e.type, [], 0⟩ s.rootFrame }
  | .dropped => s
  | k =>
    let list := restoreElems (place s.blocks) (dataSize L e.type) 1 (e.list.map Elem.pAbs)
    { s with
      rootInfo := ⟨e.pAbs, place s.blocks, e.size, e.type, if k = .objects then list else [], newBytes L e.type e.size⟩ :: s.rootInfo
      blocks := s.blocks + 1 }

section Entry
variable {L : Layout} {place : Nat → Nat} {e : PoolInfo} {s : Restored}

/-- What is written for an entry after its offset. -/
def body (e : PoolInfo) : List UInt8 := put32 e.type.code ++ (put32 e.size ++ e.list.flatMap fun x => put32 x.pAbs)

/-- The process writes an entry if it has no nodes, or as many as its size says. -/
theorem dumpInfo_eq_ok {bs : List UInt8} :
    dumpInfo e = .ok bs ↔ (e.list = [] ∨ e.list.length = (toInt e.size - 1).toNat) ∧ bs = put32 e.pAbs ++ body e := by
  unfold dumpInfo body
  simp only
  split
  · rename_i hl
    simp [hl, eq_comm]
  rename_i hl
  split
  · simp [hl]
    omega
  split
  · simp [hl]
    omega
  · simp [hl, eq_comm]
    omega

theorem readable_dumpInfo (hr : Readable L e) : dumpInfo e = .ok (put32 e.pAbs ++ body e) := by
  refine dumpInfo_eq_ok.2 ⟨?_, rfl⟩
  unfold Readable at hr
  split at hr
  · exact .inl hr.1
  · exact .inr hr.2
  · exact .inl hr

theorem reads_times_u32 (ps : List Elem) : Reads (times u32 ps.length) (ps.flatMap fun x => put32 x.pAbs) (ps.map Elem.pAbs) :=
  reads_times fun x _ => reads_u32 x.pAbs

theorem reads_restoreInfo (hr : Readable L e) : Reads (restoreInfo L place s e.pAbs) (body e) (s.after L place e) := by
  refine (reads_u32 e.type.code).bind ((reads_u32 e.size).bind ?_)
  rw [DataType.ofCode_code]
  unfold Readable at hr
  unfold restoreAs Restored.after newBytes
  cases hk : kind e.type with
  | tail =>
    simp only [hk] at hr ⊢
    rw [hr.1, if_neg hr.2]
    exact reads_pure _
  | frame | dropped | plain =>
    simp only [hk] at hr ⊢
    rw [hr]
    exact reads_pure _
  | objects =>
    simp only [hk] at hr ⊢
    rw [if_neg hr.1, ← hr.2]
    exact (reads_times_u32 e.list).bind_pure

end Entry

/-! ## A whole file -/

section File
variable {L : Layout} {place : Nat → Nat} {own es : List PoolInfo} {s : Restored}
variable {bs rest : List UInt8} {s' : Restored}

/-- The bytes of entries that are all written. -/
def image (ws : List PoolInfo) : List UInt8 := ws.flatMap fun e => put32 e.pAbs ++ body e

theorem written_cons {e : PoolInfo} : written (e :: es) = if isSkipped e.type then written es else e :: written es := by
  cases h : isSkipped e.type <;> simp [written, h]

theorem dumpInfos_eq_ok {img : List UInt8} : dumpInfos es = .ok img ↔
      (∀ e ∈ written es, e.list = [] ∨ e.list.length = (toInt e.size - 1).toNat) ∧ img = image (written es) := by
  induction es generalizing img with
  | nil => simp [dumpInfos, written, image, eq_comm]
  | cons e es ih =>
    rw [dumpInfos, written_cons]
    split
    · exact ih
    simp only [List.forall_mem_cons]
    cases he : dumpInfo e with
    | error f =>
      refine ⟨fun h => (nomatch h), fun h => ?_⟩
      rw [dumpInfo_eq_ok.2 ⟨h.1.1, rfl⟩] at he
      cases he
    | ok bs =>
      obtain ⟨hl, rfl⟩ := dumpInfo_eq_ok.1 he
      cases hes : dumpInfos es with
      | error f =>
        refine ⟨fun h => (nomatch h), fun h => ?_⟩
        rw [ih.2 ⟨h.1.2, rfl⟩] at hes
        cases hes
      | ok bs' =>
        obtain ⟨hls, rfl⟩ := ih.1 hes
        simp only [Except.ok.injEq, image, List.flatMap_cons]
        exact ⟨fun h => ⟨⟨hl, hls⟩, h.symm⟩, fun h => h.2.symm⟩

theorem whileWords_image {ws : List PoolInfo} (hr : ∀ e ∈ ws, Readable L e) (fuel : Nat) (rest : List UInt8) :
    (whileWords (restoreInfo L place) (fuel + ws.length) s).run (image ws ++ rest) =
      (whileWords (restoreInfo L place) fuel (ws.foldl (Restored.after L place) s)).run rest := by
  induction ws generalizing s with
  | nil => rfl
  | cons e ws ih =>
    have hreads : Reads (restoreInfo L place s e.pAbs) (body e) (s.after L place e) := reads_restoreInfo (hr e List.mem_cons_self)
    have himg : image (e :: ws) ++ rest = put32 e.pAbs ++ (body e ++ (image ws ++ rest)) := by
      simp [image, List.append_assoc]
    rw [himg, List.length_cons, ← Nat.add_assoc, whileWords_step hreads, List.foldl_cons]
    exact ih fun e' he' => hr e' (List.mem_cons_of_mem _ he')

theorem length_image_ge (ws : List PoolInfo) : ws.length ≤ (image ws).length := by
  induction ws with
  | nil => exact Nat.zero_le _
  | cons e ws ih =>
    simp only [image, List.flatMap_cons, List.length_append, List.length_cons, put32, length_toBytes] at ih ⊢
    omega

theorem restoreAs_suffix {pAbs size : UInt32} {t : DataType}
    (h : (restoreAs L place s pAbs size t).run bs = .ok (s', rest)) : s.rootInfo <:+ s'.rootInfo := by
  unfold restoreAs at h
  cases hk : kind t <;> simp only [hk] at h
  case tail =>
    split at h
    · cases h
    · cases h
      exact List.suffix_cons _ _
  case frame | dropped =>
    cases h
    exact List.suffix_refl _
  case plain =>
    cases h
    exact List.suffix_cons _ _
  case objects =>
    split at h
    · cases h
    · obtain ⟨ps, bs', -, h⟩ := run_bind_eq_ok h
      cases h
      exact List.suffix_cons _ _

theorem restoreInfo_suffix {pAbs : UInt32} (h : (restoreInfo L place s pAbs).run bs = .ok (s', rest)) : s.rootInfo <:+ s'.rootInfo := by
  obtain ⟨type, bs₁, -, h⟩ := run_bind_eq_ok h
  obtain ⟨size, bs₂, -, h⟩ := run_bind_eq_ok h
  split at h
  · cases h
  · exact restoreAs_suffix h

theorem whileWords_suffix {fuel : Nat} (h : (whileWords (restoreInfo L place) fuel s).run bs = .ok (s', rest)) : s.rootInfo <:+ s'.rootInfo :=
  whileWords_rel (r := fun s s' => s.rootInfo <:+ s'.rootInfo) (fun _ => List.suffix_refl _) (fun _ _ _ => List.IsSuffix.trans)
    (fun _ _ _ _ _ => restoreInfo_suffix) h

theorem run_restoreInfo (e : PoolInfo) (rest : List UInt8) : (restoreInfo L place s e.pAbs).run (body e ++ rest) =
    (restoreAs L place s e.pAbs e.size e.type).run ((e.list.flatMap fun x => put32 x.pAbs) ++ rest) := by
  unfold restoreInfo body
  rw [List.append_assoc, run_bind_ok (reads_u32 e.type.code _), List.append_assoc, run_bind_ok (reads_u32 e.size _),
    DataType.ofCode_code]

/-- An entry that is not readable, or whose block would be too small, ends the process or gives an entry that does not stand for it. -/
theorem restoreInfo_bad {e : PoolInfo} (hk : kind e.type ≠ .frame) (hd : kind e.type ≠ .dropped)
    (hbad : ¬(Readable L e ∧ e.bytes ≤ newBytes L e.type e.size)) (rest : List UInt8) :
    (∃ f, (restoreInfo L place s e.pAbs).run (body e ++ rest) = .error f) ∨
      ∃ x s' rest', (restoreInfo L place s e.pAbs).run (body e ++ rest) = .ok (s', rest') ∧ s'.rootInfo = x :: s.rootInfo ∧ ¬Same e x := by
  rw [run_restoreInfo]
  unfold Readable newBytes at hbad
  unfold restoreAs
  cases hkind : kind e.type with
  | frame => exact absurd hkind hk
  | dropped => exact absurd hkind hd
  | tail =>
    simp only [hkind] at hbad ⊢
    split
    · exact .inl ⟨_, rfl⟩
    · rename_i hpos
      refine Or.inr ⟨_, _, _, rfl, rfl, fun hs => hbad ⟨⟨?_, hpos⟩, hs.bytes⟩⟩
      exact List.map_eq_nil_iff.1 hs.elems.symm
  | plain =>
    simp only [hkind] at hbad ⊢
    refine Or.inr ⟨_, _, _, rfl, rfl, fun hs => hbad ⟨?_, hs.bytes⟩⟩
    exact List.map_eq_nil_iff.1 hs.elems.symm
  | objects =>
    simp only [hkind] at hbad ⊢
    split
    · exact .inl ⟨_, rfl⟩
    rename_i hpos
    cases hps : (times u32 (toInt e.size - 1).toNat).run ((e.list.flatMap fun x => put32 x.pAbs) ++ rest) with
    | error f => exact .inl ⟨f, run_bind_error hps⟩
    | ok p =>
      refine Or.inr ⟨_, _, _, run_bind_ok hps, rfl, fun hs => hbad ⟨⟨hpos, ?_⟩, hs.bytes⟩⟩
      have hlen := congrArg List.length hs.elems
      simp only [pAbs_restoreElems, List.length_map, length_of_times hps] at hlen
      exact hlen.symm

theorem insertFrame_perm (e : PoolInfo) (fs : List PoolInfo) : (insertFrame e fs).Perm (e :: fs) := by
  induction fs with
  | nil => exact List.Perm.refl _
  | cons f fs ih =>
    rw [insertFrame]
    split
    · exact (ih.cons f).trans (List.Perm.swap e f fs)
    · exact List.Perm.refl _

theorem kind_ne_dropped {t : DataType} (h : isSkipped t = false) : kind t ≠ .dropped := by
  revert h
  cases t <;> decide

theorem after_cases (place : Nat → Nat) (s : Restored) (e : PoolInfo) (hd : kind e.type ≠ .dropped) (hr : Readable L e) :
    (kind e.type = .frame ∧ (s.after L place e).rootInfo = s.rootInfo ∧
        (s.after L place e).rootFrame = insertFrame ⟨e.pAbs, 0, e.size, e.type, [], 0⟩ s.rootFrame) ∨
      (kind e.type ≠ .frame ∧ (s.after L place e).rootFrame = s.rootFrame ∧ ∃ x, (s.after L place e).rootInfo = x :: s.rootInfo ∧
        (e.bytes ≤ newBytes L e.type e.size → Same e x)) := by
  unfold Restored.after
  unfold Readable at hr
  cases hk : kind e.type with
  | frame => exact .inl ⟨rfl, rfl, rfl⟩
  | dropped => exact absurd hk hd
  | tail =>
    simp only [hk] at hr
    exact .inr ⟨by simp, rfl, _, rfl, fun hb => ⟨rfl, rfl, rfl, by simp [hr.1], hb⟩⟩
  | plain =>
    simp only [hk] at hr
    exact .inr ⟨by simp, rfl, _, rfl, fun hb => ⟨rfl, rfl, rfl, by simp [hr], hb⟩⟩
  | objects => exact .inr ⟨by simp, rfl, _, rfl, fun hb => ⟨rfl, rfl, rfl, by simp, hb⟩⟩

theorem foldl_after {ws : List PoolInfo} (hd : ∀ e ∈ ws, kind e.type ≠ .dropped) (hr : ∀ e ∈ ws, Readable L e) :
    ∃ new, (ws.foldl (Restored.after L place) s).rootInfo = new ++ s.rootInfo ∧
      List.Forall₂ (fun e x => e.bytes ≤ newBytes L e.type e.size → Same e x) (ws.filter fun e => kind e.type ≠ .frame).reverse new ∧
      (ws.foldl (Restored.after L place) s).rootFrame.Perm
        (((ws.filter fun e => kind e.type = .frame).map fun e => ⟨e.pAbs, 0, e.size, e.type, [], 0⟩) ++ s.rootFrame) := by
  induction ws generalizing s with
  | nil => exact ⟨[], rfl, List.Forall₂.nil, List.Perm.refl _⟩
  | cons e ws ih =>
    obtain ⟨new, hinfo, hnew, hframe⟩ := ih (s := s.after L place e) (fun e' he' => hd e' (List.mem_cons_of_mem _ he'))
      fun e' he' => hr e' (List.mem_cons_of_mem _ he')
    rw [List.foldl_cons]
    rcases after_cases place s e (hd e List.mem_cons_self) (hr e List.mem_cons_self) with ⟨hk, h1, h2⟩ | ⟨hk, h2, x, h1, hx⟩
    · refine ⟨new, by rw [hinfo, h1], ?_, ?_⟩
      · rwa [List.filter_cons_of_neg (by simp [hk])]
      · rw [h2] at hframe
        rw [List.filter_cons_of_pos (by simp [hk]), List.map_cons, List.cons_append]
        exact hframe.trans (((insertFrame_perm _ _).append_left _).trans List.perm_middle)
    refine ⟨new ++ [x], by rw [hinfo, h1, List.append_assoc]; rfl, ?_, ?_⟩
    · rw [List.filter_cons_of_pos (by simp [hk]), List.reverse_cons]
      exact List.rel_append hnew (List.Forall₂.cons hx List.Forall₂.nil)
    · rwa [List.filter_cons_of_neg (by simp [hk]), ← h2]

theorem not_dropped {e : PoolInfo} (he : e ∈ written es) : kind e.type ≠ .dropped :=
  kind_ne_dropped (by simpa using (List.mem_filter.1 he).2)

theorem restoreInfos_image (hr : ∀ e ∈ written es, Readable L e) : dumpInfos es = .ok (image (written es)) ∧
      restoreInfos L place own (image (written es)) = .ok ((written es).foldl (Restored.after L place) ⟨own, [], 0⟩, []) := by
  constructor
  · exact dumpInfos_eq_ok.2 ⟨fun e he => (dumpInfo_eq_ok.1 (readable_dumpInfo (hr e he))).1, rfl⟩
  have hlen := length_image_ge (written es)
  obtain ⟨k, hk⟩ : ∃ k, (image (written es)).length + 1 = k + 1 + (written es).length :=
    ⟨(image (written es)).length - (written es).length, by omega⟩
  have hrun := @whileWords_image L place ⟨own, [], 0⟩ _ hr (k + 1) []
  rw [List.append_nil, whileWords_end] at hrun
  rw [restoreInfos, hk, hrun]

theorem roundTrip_of_restorable (hr : ∀ e ∈ written es, Restorable L e) : RoundTrip L place own es := by
  have hread : ∀ e ∈ written es, Readable L e := fun e he => (hr e he).1
  have hbytes : ∀ e ∈ (writtenBlocks es).reverse, e.bytes ≤ newBytes L e.type e.size := fun e he => by
    obtain ⟨hw, hk⟩ := List.mem_filter.1 (List.mem_reverse.1 he)
    exact (hr e hw).2 (by simpa using hk)
  obtain ⟨new, hinfo, hnew, hframe⟩ := @foldl_after L place ⟨own, [], 0⟩ _ (fun e he => not_dropped he) hread
  obtain ⟨hdump, hrun⟩ := @restoreInfos_image L place own es hread
  refine ⟨image (written es), (written es).foldl (Restored.after L place) ⟨own, [], 0⟩, new, hdump, hrun, hinfo, ?_, ?_⟩
  · exact ((List.forall₂_and_left _ _).2 ⟨hbytes, hnew⟩).imp fun e x h => h.2 h.1
  · rw [List.append_nil] at hframe
    exact hframe

theorem restorable_of_roundTrip (hf : ∀ e ∈ written es, kind e.type = .frame → e.list = []) (h : RoundTrip L place own es) :
    ∀ e ∈ written es, Restorable L e := by
  classical
  by_contra hex
  simp only [not_forall] at hex
  obtain ⟨e₀, he₀, hbad₀⟩ := hex
  -- the first entry of the file for which it fails; up to it the reader is in step
  obtain ⟨e, pre, post, hpre, hbad, hws, -⟩ := List.exists_of_eraseP (p := fun e => decide ¬Restorable L e) he₀ (by simpa using hbad₀)
  have hbad : ¬Restorable L e := of_decide_eq_true hbad
  have hgood : ∀ e ∈ pre, Readable L e := fun e he => (by simpa using hpre e he : Restorable L e).1
  have hmem : ∀ e' ∈ pre ++ e :: post, kind e'.type ≠ .dropped := fun e' he' => not_dropped (hws ▸ he')
  have hk : kind e.type ≠ .frame := fun hk => by
    refine hbad ⟨?_, fun h => absurd hk h⟩
    have hl := hf e (hws ▸ by simp) hk
    unfold Readable
    rw [hk]
    exact hl
  have hbytes : ¬(Readable L e ∧ e.bytes ≤ newBytes L e.type e.size) := fun hg => hbad ⟨hg.1, fun _ => hg.2⟩
  obtain ⟨img, s, new, hdump, hrun, hinfo, hsame, -⟩ := h
  obtain ⟨-, rfl⟩ := dumpInfos_eq_ok.1 hdump
  obtain ⟨new₁, hinfo₁, hnew₁, -⟩ := @foldl_after L place ⟨own, [], 0⟩ _ (fun e' he' => hmem e' (by simp [he'])) hgood
  -- run the reader up to the bad entry
  have hlen := length_image_ge (written es)
  obtain ⟨k, hk'⟩ : ∃ k, (image (written es)).length + 1 = k + 1 + pre.length :=
    ⟨(image (written es)).length - pre.length, by rw [hws] at hlen ⊢; simp only [List.length_append] at hlen; omega⟩
  have himg : image (written es) = image pre ++ (put32 e.pAbs ++ (body e ++ image post)) := by
    rw [hws]
    simp [image, List.append_assoc]
  rw [restoreInfos, hk', himg, whileWords_image hgood, whileWords_word] at hrun
  obtain ⟨s', rest', hstep, hrun⟩ := run_bind_eq_ok hrun
  rcases @restoreInfo_bad L place (pre.foldl (Restored.after L place) ⟨own, [], 0⟩) e hk (hmem e (by simp)) hbytes (image post) with
    ⟨f, herr⟩ | ⟨x, s₁, rest₁, hok, hx, hns⟩
  · rw [herr] at hstep
    cases hstep
  rw [hok] at hstep
  cases hstep
  obtain ⟨t, ht⟩ := whileWords_suffix hrun
  rw [hx, hinfo₁, hinfo] at ht
  -- the entry made for the bad one is the one that should stand for it
  have hrev : (writtenBlocks es).reverse = (post.filter fun e => kind e.type ≠ .frame).reverse ++
      e :: (pre.filter fun e => kind e.type ≠ .frame).reverse := by
    rw [writtenBlocks, hws, List.filter_append, List.filter_cons_of_pos (by simpa using hk)]
    simp
  rw [hrev] at hsame
  have hdrop := List.forall₂_drop_append _ _ _ hsame.flip
  obtain ⟨y, n₂, hy, hn₂, hcons⟩ := List.forall₂_cons_right_iff.1 hdrop
  have hnew : new = new.take ((post.filter fun e => kind e.type ≠ .frame).reverse).length ++ y :: n₂ := by
    rw [← hcons, List.take_append_drop]
  rw [hnew, List.append_assoc] at ht
  have hlens : n₂.length = new₁.length := hn₂.length_eq.trans hnew₁.length_eq
  have htail := (List.append_inj' ht (by simp [hlens])).2
  rw [List.cons_append, List.cons.injEq] at htail
  exact hns (htail.1 ▸ hy)

end File

/-! ## The registries of the interpreter build -/

/-- The entry survives the round trip: it is no hash map, no array without elements, no array of cells with nodes, and its size in
bytes does not wrap round when it is a list of arguments. -/
structure Kept (L : Layout) (e : PoolInfo) : Prop where
  noMap : e.type ≠ .hashMapT
  count : e.type ∈ arrayTypes → e.size ≠ 0
  cells : e.type = .uint64T → e.list = []
  argv : e.type = .charTT → e.bytes ≤ newBytes L .charTT e.size

section Sizes
variable {n a : Nat} {w : UInt32}

theorem toInt_ofNat (h : n < 2 ^ 31) : toInt (UInt32.ofNat n) = n := by
  have hn : (UInt32.ofNat n).toNat = n := UInt32.toNat_ofNat_of_lt' (by unfold UInt32.size; omega)
  rw [toInt, hn, if_pos h]

theorem toSize_ofNat (h : n < 2 ^ 32) : toSize (UInt32.ofNat n) = if n < 2 ^ 31 then n else n + (2 ^ 64 - 2 ^ 32) := by
  have hn : (UInt32.ofNat n).toNat = n := UInt32.toNat_ofNat_of_lt' h
  unfold toSize toInt
  rw [hn]
  split <;> omega

theorem request_add (h : n < 2 ^ 32) : request (a + toSize (UInt32.ofNat n)) = request (a + n) := by
  have hmod : (a + toSize (UInt32.ofNat n)) % 2 ^ 32 = (a + n) % 2 ^ 32 := by
    rw [toSize_ofNat h]
    split <;> omega
  rw [request, request, hmod]

theorem request_mul (h : n < 2 ^ 32) : request (a * toSize (UInt32.ofNat n)) = request (a * n) := by
  have hmod : a * toSize (UInt32.ofNat n) % 2 ^ 32 = a * n % 2 ^ 32 := by
    rw [toSize_ofNat h]
    split
    · rfl
    · rw [Nat.mul_add, show 2 ^ 64 - 2 ^ 32 = 2 ^ 32 * (2 ^ 32 - 1) by norm_num, Nat.mul_left_comm, Nat.add_mul_mod_self_left]
  rw [request, request, hmod]

end Sizes

theorem kind_buf : ∀ t ∈ bufTypes, kind t = .plain ∧ sizeUnset t = false := by decide

theorem kind_ex : ∀ t ∈ exTypes, kind t = .tail ∧ sizeUnset t = false := by decide

theorem kind_array : ∀ t ∈ arrayTypes, kind t = .objects ∧ sizeUnset t = false ∧ t ≠ .hashMapT ∧ t ≠ .uint64T ∧ t ≠ .charTT := by
  decide

theorem kind_single : ∀ t ∈ singleTypes, isSkipped t = false →
    kind t = .objects ∧ sizeUnset t = false ∧ t ≠ .hashMapT ∧ t ≠ .uint64T ∧ t ≠ .charTT := by
  decide

theorem dataSize_eq {L : Layout} {t : DataType} (h : sizeUnset t = false) : dataSize L t = L.size t := by
  rw [dataSize, h]
  rfl

section Registered
variable {L : Layout} {e : PoolInfo}

theorem restorable_plain (hk : kind e.type = .plain) : Restorable L e ↔ e.list = [] ∧ e.bytes ≤ request (dataSize L e.type * toSize e.size) := by
  unfold Restorable Readable newBytes
  simp [hk]

theorem restorable_tail (hk : kind e.type = .tail) : Restorable L e ↔ (e.list = [] ∧ (dataSize L e.type + toSize e.size) % 2 ^ 64 ≠ 0) ∧
      e.bytes ≤ request (dataSize L e.type + toSize e.size) := by
  unfold Restorable Readable newBytes
  simp [hk]

theorem restorable_objects (hk : kind e.type = .objects) :
    Restorable L e ↔ (dataSize L e.type * toSize e.size % 2 ^ 64 ≠ 0 ∧ e.list.length = (toInt e.size - 1).toNat) ∧
      e.bytes ≤ request (dataSize L e.type * toSize e.size) := by
  unfold Restorable Readable newBytes
  simp [hk]

theorem restorable_array {a addr n : Nat} {p : UInt32} {t : DataType} {list : List Elem} (hk : kind t = .objects)
    (hu : sizeUnset t = false) (hn : n < 2 ^ 31) (hs : L.size t * n < 2 ^ 32) (hl : list.length = n - 1) (ha : a = request (L.size t * n)) :
    Restorable L ⟨p, addr, UInt32.ofNat n, t, list, a⟩ ↔ n ≠ 0 := by
  have hn32 : n < 2 ^ 32 := by omega
  have hpos := L.pos t
  rw [restorable_objects hk]
  simp only [dataSize_eq hu, request_mul hn32, toInt_ofNat hn, ha, hl]
  rw [toSize_ofNat hn32, if_pos hn, Nat.mod_eq_of_lt (by omega)]
  refine ⟨fun h h0 => h.1.1 (by rw [h0, Nat.mul_zero]), fun h0 => ⟨⟨?_, by omega⟩, Nat.le_refl _⟩⟩
  exact Nat.ne_of_gt (Nat.mul_pos hpos (Nat.pos_of_ne_zero h0))

theorem length_caseInfos (pool addr : Nat) (t : DataType) (n : Nat) : (caseInfos L pool addr t n).length = n - 1 := by
  simp [caseInfos]

theorem ofNat_ne_zero {n : Nat} (h : n < 2 ^ 31) : UInt32.ofNat n ≠ 0 ↔ n ≠ 0 := by
  have hn : (UInt32.ofNat n).toNat = n := UInt32.toNat_ofNat_of_lt' (by unfold UInt32.size; omega)
  rw [not_iff_not, ← UInt32.toNat_inj, hn]
  rfl

/-- Hash maps and arrays are objects; of the other entries only cells and lists of arguments can fail. -/
theorem kept_of_not_objects (hk : kind e.type ≠ .objects) :
    Kept L e ↔ (e.type = .uint64T → e.list = []) ∧ (e.type = .charTT → e.bytes ≤ newBytes L .charTT e.size) := by
  refine ⟨fun h => ⟨h.cells, h.argv⟩, fun h => ⟨fun ht => ?_, fun ht => absurd (kind_array _ ht).1 hk, h.1, h.2⟩⟩
  rw [ht] at hk
  exact hk rfl

/-- For the entries that the interpreter build registers, `Kept` is the condition for being restored. -/
theorem restorable_iff_kept {pool : Nat} (he : Registered L pool e) (hs : isSkipped e.type = false) : Restorable L e ↔ Kept L e := by
  cases he with
  | single ht =>
    obtain ⟨hk, hu, h1, h2, h3⟩ := kind_single _ ht hs
    have hlt := L.lt
    refine iff_of_true ?_ ⟨h1, fun _ => by simp, fun h => absurd h h2, fun h => absurd h h3⟩
    exact (restorable_array hk hu (n := 1) (by norm_num) (by rw [Nat.mul_one]; exact hlt _) rfl (by rw [Nat.mul_one])).2 one_ne_zero
  | @buf addr n t ht hn =>
    obtain ⟨hk, hu⟩ := kind_buf _ ht
    have hn32 : n < 2 ^ 32 := Nat.lt_of_le_of_lt (Nat.le_mul_of_pos_left n (L.pos t)) hn
    have hr : Restorable L ⟨absOf pool addr, addr, UInt32.ofNat n, t, [], request (L.size t * n)⟩ := by
      rw [restorable_plain hk]
      simp only [dataSize_eq hu, request_mul hn32, le_refl, and_self]
    refine iff_of_true hr ((kept_of_not_objects (by simp [hk])).2 ⟨fun _ => rfl, fun ht' => ?_⟩)
    have hbytes := hr.2 (by simp [hk])
    rw [show t = .charTT from ht'] at hbytes ⊢
    exact hbytes
  | @argv addr n =>
    have hk : kind .charTT = .plain := rfl
    rw [restorable_plain hk, kept_of_not_objects (by simp [hk])]
    exact ⟨fun h => ⟨fun _ => rfl, fun _ => h.2⟩, fun h => ⟨rfl, h.2 rfl⟩⟩
  | @ex addr n t ht hn =>
    obtain ⟨hk, hu⟩ := kind_ex _ ht
    have hpos := L.pos t
    have hn32 : n < 2 ^ 32 := by omega
    rw [restorable_tail hk, kept_of_not_objects (by simp [hk])]
    simp only [dataSize_eq hu, request_add hn32, le_refl, and_true, true_and, implies_true]
    refine iff_of_true ?_ fun ht' => ?_
    · rw [toSize_ofNat hn32]
      split <;> omega
    · rw [ht'] at hk
      cases hk
  | @frame addr n =>
    have hk : kind .wasmInterpFrameT = .frame := rfl
    rw [kept_of_not_objects (by simp [hk])]
    exact iff_of_true ⟨rfl, fun h => absurd hk h⟩ ⟨fun _ => rfl, fun h => nomatch h⟩
  | @hashMap addr n bytes hn h8 =>
    have hk : kind .hashMapT = .objects := rfl
    refine iff_of_false (fun h => ?_) fun h => h.noMap rfl
    obtain ⟨⟨hmul, hlen⟩, -⟩ := (restorable_objects hk).1 h
    simp only [toInt_ofNat hn, List.length_nil] at hlen
    have h0 : n = 0 := by omega
    subst h0
    exact hmul (by simp [toSize, toInt])
  | @array addr n t ht hn hsize =>
    obtain ⟨hk, hu, h1, h2, h3⟩ := kind_array _ ht
    rw [restorable_array hk hu hn hsize (length_caseInfos pool addr t n) rfl]
    refine ⟨fun h0 => ⟨h1, fun _ => (ofNat_ne_zero hn).2 h0, fun h => absurd h h2, fun h => absurd h h3⟩, fun h => ?_⟩
    exact (ofNat_ne_zero hn).1 (h.count ht)
  | @argCells addr n hsize =>
    have hk : kind .uint64T = .plain := rfl
    have hu : sizeUnset .uint64T = false := rfl
    have hn32 : n < 2 ^ 32 := Nat.lt_of_le_of_lt (Nat.le_mul_of_pos_left n (L.pos .uint64T)) hsize
    rw [restorable_plain hk, kept_of_not_objects (by simp [hk])]
    simp only [dataSize_eq hu, request_mul hn32, le_refl, and_true]
    exact ⟨fun h => ⟨fun _ => h, fun h => nomatch h⟩, fun h => h.1 trivial⟩

theorem list_of_frame {pool : Nat} (he : Registered L pool e) (hk : kind e.type = .frame) : e.list = [] := by
  cases he with
  | array ht hn hs =>
    rw [(kind_array _ ht).1] at hk
    cases hk
  | argCells hs => cases hk
  | _ => rfl

end Registered

/-- While a function without parameters is called through `wasm_runtime_call_wasm_v`, its arguments are registered as an array
without elements. The process that restores such a registry ends itself. -/
theorem no_args_fault (L : Layout) (place : Nat → Nat) (own : List PoolInfo) : ∃ R img, Registry.Produced L 4096 R ∧
    dumpInfos R.rootInfo = .ok img ∧ restoreInfos L place own img = .error .exit ∧ ¬RoundTrip L place own R.rootInfo := by
  let e : PoolInfo := ⟨4096, 8192, 0, .wasmValT, [], 1⟩
  have hR : Registry.Produced L 4096 ⟨4096, [e], []⟩ :=
    Registry.Produced.register Registry.Produced.empty
      (@Registry.Register.array L _ 8192 0 .wasmValT _ (by decide) (by decide) (by simp) rfl)
  have hdump : dumpInfos [e] = .ok (put32 4096 ++ body e) := rfl
  have hrun : restoreInfos L place own (put32 4096 ++ body e) = .error .exit := by
    refine whileWords_fault ?_
    have hstep := @run_restoreInfo L place ⟨own, [], 0⟩ e []
    rw [List.append_nil] at hstep
    refine hstep.trans ?_
    simp [restoreAs, e, kind, toSize, toInt, fail]
  refine ⟨_, _, hR, hdump, hrun, ?_⟩
  rintro ⟨img, s, new, hd, hr, -⟩
  rw [hdump] at hd
  cases hd
  rw [hrun] at hr
  cases hr

end WamrMigrate.Image
