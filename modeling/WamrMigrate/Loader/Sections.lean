import WamrMigrate.Loader.FunctionSection
import WamrMigrate.Loader.LebSpec

/-!
# Splitting a module into sections

`create_sections` reads one section after the other: the id, the size and the body, which is copied into a block of its own. The ids other than that
of custom sections come in the order of a table. The binary format says the same by a grammar (`Splits`) and a condition on the ids (`Ordered`).
`bh_memcpy_s` does not copy a body of 2 GiB and more; its block keeps its zeros.
-/

namespace WamrMigrate.Loader

open Leb128

/-! ## The model -/

/-- `WASMSection`. -/
structure WasmSection where
  type : UInt8
  body : List UInt8
  deriving DecidableEq

/-- `section_ids`, in a build with or without bulk memory. -/
def sectionIds (bulk : Bool) : List UInt8 := [0, 1, 2, 3, 4, 5, 6, 7, 8, 9] ++ (if bulk then [12] else []) ++ [10, 11]

/-- `get_section_index`. -/
def getSectionIndex (bulk : Bool) (type : UInt8) : Option Nat := (sectionIds bulk).idxOf? type

/-- The block that the body of a section is copied into. -/
def copyBody (body : List UInt8) : List UInt8 := if 0x7FFFFFFF < body.length then List.replicate body.length 0 else body

/-- `last_section_index` after a section. -/
def nextIndex (type : UInt8) (index : Nat) (last : Option Nat) : Except String (Option Nat) :=
  if type = 0 then .ok last
  else if last.any (index ≤ ·) then .error "junk after last section"
  else .ok (some index)

section
variable (bulk : Bool) (alloc : Nat → Bool) (code : Code) (bufEnd : Nat)

/-- The loop of `create_sections`, with how many allocations it has made. A round takes a byte at least, so that `fuel` does not run out. -/
def createSectionsFrom : Nat → Nat → Option Nat → Nat → Except String (List WasmSection)
  | 0, _, _, _ => .error ""
  | fuel + 1, p, last, k =>
    if p < bufEnd then
      match getSectionIndex bulk (code p) with
      | none => .error "invalid section id"
      | some index => do
        let last ← nextIndex (code p) index last
        failIf (bufEnd < p + 1 + 1) "unexpected end"
        let (size, q) ← readLebUint32 code bufEnd (p + 1)
        failIf (bufEnd < q + size) "unexpected end"
        loaderMalloc (alloc k) 32
        loaderMalloc (alloc (k + 1)) size
        let rest ← createSectionsFrom fuel (q + size) last (k + 2)
        return ⟨code p, copyBody (bytesAt code q size)⟩ :: rest
    else .ok []

end

/-- A module: a header of eight bytes and the rest, with a size of 32 bits. -/
structure ModuleFile where
  header : List UInt8
  rest : List UInt8
  header_len : header.length = 8
  size_lt : (header ++ rest).length < 2 ^ 32

/-- The bytes of a buffer by their position. -/
def codeOf (buf : List UInt8) : Code := fun i => buf.getD i 0

/-- `create_sections`. -/
def createSections (bulk : Bool) (alloc : Nat → Bool) (file : ModuleFile) : Except String (List WasmSection) :=
  let buf := file.header ++ file.rest
  createSectionsFrom bulk alloc (codeOf buf) buf.length (buf.length + 1) 8 none 0

/-! ## The format -/

/-- The bytes are records of an id, a size and a body. -/
inductive Splits : List UInt8 → List WasmSection → Prop
  | nil : Splits [] []
  | cons {type : UInt8} {size body rest : List UInt8} {sections : List WasmSection} (hsize : EncodesU 32 size body.length)
      (hrest : Splits rest sections) : Splits (type :: (size ++ (body ++ rest))) (⟨type, body⟩ :: sections)

theorem Splits.cons_inv {type : UInt8} {bytes : List UInt8} {sections : List WasmSection} (h : Splits (type :: bytes) sections) :
    ∃ size body rest tail, bytes = size ++ (body ++ rest) ∧ EncodesU 32 size body.length ∧ Splits rest tail ∧ sections = ⟨type, body⟩ :: tail := by
  cases h with
  | cons hsize hrest => exact ⟨_, _, _, _, rfl, hsize, hrest, rfl⟩

theorem Splits.unique {bytes : List UInt8} {sections sections' : List WasmSection} (h : Splits bytes sections) (h' : Splits bytes sections') :
    sections = sections' := by
  induction h generalizing sections' with
  | nil => cases h'; rfl
  | cons hsize _ ih =>
    obtain ⟨size', body', rest', tail', heq, hsize', hrest', rfl⟩ := h'.cons_inv
    obtain ⟨-, hlen, heq⟩ := hsize.unique hsize' heq
    obtain ⟨rfl, rfl⟩ := List.append_inj heq hlen
    rw [ih hrest']

/-- The places in the order of those sections that are not custom ones. -/
def places (bulk : Bool) (sections : List WasmSection) : List Nat :=
  sections.filterMap fun s => if s.type = 0 then none else getSectionIndex bulk s.type

/-- The ids are known, and those of sections other than custom ones come once at most and in order. -/
structure Ordered (bulk : Bool) (sections : List WasmSection) : Prop where
  known : ∀ s ∈ sections, (getSectionIndex bulk s.type).isSome
  order : (places bulk sections).Pairwise (· < ·)

/-! ## Bytes of the buffer -/

section Bytes
variable {code : Code} {p n m : Nat} {xs ys : List UInt8}

theorem bytesAt_add (code : Code) (p m n : Nat) : bytesAt code p (m + n) = bytesAt code p m ++ bytesAt code (p + m) n := by
  induction m generalizing p with
  | zero => rw [Nat.zero_add]; rfl
  | succ m ih =>
    rw [Nat.add_right_comm, bytesAt, bytesAt, List.cons_append, ih, Nat.add_right_comm, Nat.add_assoc p m 1]

theorem bytesAt_eq_append (h : bytesAt code p n = xs ++ ys) :
    xs.length ≤ n ∧ xs = bytesAt code p xs.length ∧ ys = bytesAt code (p + xs.length) (n - xs.length) := by
  have hlen : n = xs.length + ys.length := by rw [← length_bytesAt code p n, h, List.length_append]
  have hle : xs.length ≤ n := hlen ▸ Nat.le_add_right _ _
  rw [hlen, bytesAt_add] at h
  obtain ⟨hxs, hys⟩ := List.append_inj h (length_bytesAt code p _)
  refine ⟨hle, hxs.symm, ?_⟩
  rw [hlen, Nat.add_sub_cancel_left, hys]

theorem bytesAt_codeOf (buf : List UInt8) (p : Nat) : bytesAt (codeOf buf) p (buf.length - p) = buf.drop p := by
  induction h : buf.length - p generalizing p with
  | zero => rw [List.drop_eq_nil_of_le (Nat.le_of_sub_eq_zero h)]; rfl
  | succ n ih =>
    have hlt : p < buf.length := by omega
    rw [bytesAt, ih (p + 1) (by omega), List.drop_eq_getElem_cons hlt, codeOf, List.getD_eq_getElem?_getD,
      List.getElem?_eq_getElem hlt, Option.getD_some]

end Bytes

/-! ## The loop -/

section Loop
variable {bulk : Bool} {alloc : Nat → Bool} {code : Code} {bufEnd fuel p k : Nat} {last : Option Nat} {out : List WasmSection}

theorem createSectionsFrom_step (hp : p < bufEnd) (hend : bufEnd < 2 ^ 32) : createSectionsFrom bulk alloc code bufEnd (fuel + 1) p last k = .ok out ↔
      ∃ index last' size q rest, getSectionIndex bulk (code p) = some index ∧ nextIndex (code p) index last = .ok last' ∧
        readLebUint32 code bufEnd (p + 1) = .ok (size, q) ∧ q + size ≤ bufEnd ∧ alloc k = true ∧ alloc (k + 1) = true ∧
        createSectionsFrom bulk alloc code bufEnd fuel (q + size) last' (k + 2) = .ok rest ∧
        out = ⟨code p, copyBody (bytesAt code q size)⟩ :: rest := by
  rw [createSectionsFrom, if_pos hp]
  cases hindex : getSectionIndex bulk (code p) with
  | none =>
    refine iff_of_false nofun ?_
    rintro ⟨index, -, -, -, -, hsome, -⟩
    nomatch hsome
  | some index =>
    simp only [bind_ok_iff, return_ok_iff, Option.some.injEq]
    constructor
    · rintro ⟨last', hlast, _, -, ⟨size, q⟩, hleb, _, hsize, _, halloc, _, halloc', rest, hrest, rfl⟩
      have hle := Nat.not_lt.1 (failIf_ok.1 hsize)
      exact ⟨index, last', size, q, rest, rfl, hlast, hleb, hle, (loaderMalloc_iff.1 halloc).1, (loaderMalloc_iff.1 halloc').1, hrest, rfl⟩
    rintro ⟨index', last', size, q, rest, rfl, hlast, hleb, hle, halloc, halloc', hrest, rfl⟩
    obtain ⟨hpq, hq⟩ := readLebUint32_bounds hleb
    have hsmall : size < 0xFFFFFFFF := by omega
    exact ⟨last', hlast, (), failIf_ok.2 (by omega), (size, q), hleb, (), failIf_ok.2 (Nat.not_lt.2 hle), (),
      loaderMalloc_iff.2 ⟨halloc, by decide⟩, (), loaderMalloc_iff.2 ⟨halloc', hsmall⟩, rest, hrest, rfl⟩

/-- The places of the sections from one on, behind the last one before it. -/
theorem pairwise_places_cons_iff {type : UInt8} {body : List UInt8} {index : Nat} {sections : List WasmSection}
    (hindex : getSectionIndex bulk type = some index) : (last.toList ++ places bulk (⟨type, body⟩ :: sections)).Pairwise (· < ·) ↔
      ∃ last', nextIndex type index last = .ok last' ∧ (last'.toList ++ places bulk sections).Pairwise (· < ·) := by
  unfold nextIndex places
  by_cases htype : type = 0
  · simp only [List.filterMap_cons, if_pos htype, Except.ok.injEq, exists_eq_left']
  simp only [List.filterMap_cons, if_neg htype, hindex]
  cases last with
  | none =>
    rw [if_neg (by simp)]
    simp only [Option.toList_none, List.nil_append, Except.ok.injEq, exists_eq_left', Option.toList_some, List.singleton_append]
  | some l =>
    simp only [Option.any_some, Option.toList_some, List.singleton_append]
    by_cases hle : index ≤ l
    · rw [if_pos (decide_eq_true hle)]
      refine iff_of_false (fun h => ?_) nofun
      exact absurd ((List.pairwise_cons.1 h).1 index List.mem_cons_self) (Nat.not_lt.2 hle)
    rw [if_neg (by simpa using hle)]
    simp only [Except.ok.injEq, exists_eq_left', Option.toList_some, List.singleton_append]
    rw [List.pairwise_cons, and_iff_right_iff_imp]
    intro h x hx
    rcases List.mem_cons.1 hx with rfl | hx
    · exact Nat.lt_of_not_le hle
    · exact Nat.lt_trans (Nat.lt_of_not_le hle) ((List.pairwise_cons.1 h).1 x hx)

/-- The sections that the loop reads, with their bodies as they are copied. -/
theorem createSectionsFrom_ok_iff (hp : p ≤ bufEnd) (hfuel : bufEnd - p < fuel) (hend : bufEnd < 2 ^ 32) :
    createSectionsFrom bulk alloc code bufEnd fuel p last k = .ok out ↔
      ∃ sections, Splits (bytesAt code p (bufEnd - p)) sections ∧ (∀ s ∈ sections, (getSectionIndex bulk s.type).isSome) ∧
        (last.toList ++ places bulk sections).Pairwise (· < ·) ∧ (∀ j, j < 2 * sections.length → alloc (k + j) = true) ∧
        out = sections.map fun s => { s with body := copyBody s.body } := by
  induction fuel generalizing p last k out with
  | zero => exact absurd hfuel (Nat.not_lt_zero _)
  | succ fuel ih =>
    by_cases hlt : p < bufEnd
    · rw [createSectionsFrom_step hlt hend]
      have hbytes : bytesAt code p (bufEnd - p) = code p :: bytesAt code (p + 1) (bufEnd - (p + 1)) := by
        rw [show bufEnd - p = bufEnd - (p + 1) + 1 by omega, bytesAt]
      constructor
      · rintro ⟨index, last', size, q, rest, hindex, hlast, hleb, hle, halloc, halloc', hrest, rfl⟩
        obtain ⟨bs, hbs, hq, rfl, henc⟩ := readLebUint32_ok_iff.1 hleb
        obtain ⟨sections, hsplit, hknown, hpair, hallocs, rfl⟩ := (ih hle (by omega)).1 hrest
        refine ⟨⟨code p, bytesAt code (p + 1 + bs.length) size⟩ :: sections, ?_, ?_, ?_, ?_, rfl⟩
        · have hcut : bytesAt code (p + 1) (bufEnd - (p + 1)) =
              bs ++ (bytesAt code (p + 1 + bs.length) size ++ bytesAt code (p + 1 + bs.length + size) (bufEnd - (p + 1 + bs.length + size))) := by
            rw [show bufEnd - (p + 1) = bs.length + (size + (bufEnd - (p + 1 + bs.length + size))) by omega, bytesAt_add, bytesAt_add, ← hbs]
          rw [hbytes, hcut]
          exact .cons (by rwa [length_bytesAt]) hsplit
        · intro s hs
          rcases List.mem_cons.1 hs with rfl | hs
          · exact Option.isSome_iff_exists.2 ⟨index, hindex⟩
          · exact hknown s hs
        · exact (pairwise_places_cons_iff hindex).2 ⟨last', hlast, hpair⟩
        intro j hj
        rw [List.length_cons] at hj
        rcases j with _ | _ | j
        · exact halloc
        · exact halloc'
        · have := hallocs j (by omega)
          rwa [Nat.add_right_comm, Nat.add_assoc] at this
      · rintro ⟨sections, hsplit, hknown, hpair, hallocs, rfl⟩
        rw [hbytes] at hsplit
        obtain ⟨size, body, rest, tail, hbytes, henc, hrest, rfl⟩ := hsplit.cons_inv
        obtain ⟨hle, hsize, hbytes⟩ := bytesAt_eq_append hbytes
        obtain ⟨hle', hbody, hbytes⟩ := bytesAt_eq_append hbytes.symm
        obtain ⟨index, hindex⟩ := Option.isSome_iff_exists.1 (hknown _ List.mem_cons_self)
        obtain ⟨last', hlast, hpair⟩ := (pairwise_places_cons_iff hindex).1 hpair
        have hq : p + 1 + size.length + body.length ≤ bufEnd := by omega
        have hleb : readLebUint32 code bufEnd (p + 1) = .ok (body.length, p + 1 + size.length) :=
          readLebUint32_ok_iff.2 ⟨size, hsize, by omega, rfl, henc⟩
        refine ⟨index, last', body.length, p + 1 + size.length, _, hindex, hlast, hleb, hq, hallocs 0 (by simp), hallocs 1 (by rw [List.length_cons]; omega),
          (ih hq (by omega)).2 ⟨tail, ?_, fun s hs => hknown s (List.mem_cons_of_mem _ hs), hpair, fun j hj => ?_, rfl⟩, ?_⟩
        · rwa [show bufEnd - (p + 1 + size.length + body.length) = bufEnd - (p + 1) - size.length - body.length by omega, ← hbytes]
        · rw [Nat.add_assoc, Nat.add_comm 2 j]
          exact hallocs (j + 2) (by rw [List.length_cons]; omega)
        · rw [← hbody, List.map_cons]
    · obtain rfl : p = bufEnd := Nat.le_antisymm hp (Nat.not_lt.1 hlt)
      rw [createSectionsFrom, if_neg hlt, Nat.sub_self]
      constructor
      · rintro ⟨⟩
        refine ⟨[], .nil, by simp, ?_, by simp, rfl⟩
        cases last <;> simp [places]
      · rintro ⟨sections, hsplit, -, -, -, rfl⟩
        cases hsplit
        rfl

end Loop

/-! ## The sections of a module -/

theorem copyBody_eq_iff {body : List UInt8} : copyBody body = body ↔ body.length ≤ 0x7FFFFFFF ∨ ∀ b ∈ body, b = 0 := by
  unfold copyBody
  split
  · rename_i hlong
    rw [or_iff_right (Nat.not_le.2 hlong), eq_comm, List.eq_replicate_iff]
    exact and_iff_right rfl
  · rename_i hshort
    exact iff_of_true rfl (.inl (Nat.not_lt.1 hshort))

section Module
variable {bulk : Bool} {alloc : Nat → Bool} {file : ModuleFile}

theorem createSections_ok_iff {out : List WasmSection} : createSections bulk alloc file = .ok out ↔
    ∃ sections, Splits file.rest sections ∧ Ordered bulk sections ∧ (∀ n, n < 2 * sections.length → alloc n = true) ∧
      out = sections.map fun s => { s with body := copyBody s.body } := by
  have hlen : 8 ≤ (file.header ++ file.rest).length := by rw [List.length_append, file.header_len]; exact Nat.le_add_right _ _
  have hrest : (file.header ++ file.rest).drop 8 = file.rest := List.drop_left' file.header_len
  unfold createSections
  rw [createSectionsFrom_ok_iff hlen (Nat.lt_succ_of_le (Nat.sub_le _ _)) file.size_lt, bytesAt_codeOf, hrest]
  simp only [Option.toList_none, List.nil_append, Nat.zero_add]
  constructor
  · rintro ⟨sections, hsplit, hknown, horder, halloc, rfl⟩
    exact ⟨sections, hsplit, ⟨hknown, horder⟩, halloc, rfl⟩
  · rintro ⟨sections, hsplit, ⟨hknown, horder⟩, halloc, rfl⟩
    exact ⟨sections, hsplit, hknown, horder, halloc, rfl⟩

/-- The list of sections is returned exactly for the bytes that are these sections, in order. -/
def SplitsExactly (bulk : Bool) (alloc : Nat → Bool) (file : ModuleFile) : Prop :=
  ∀ sections, createSections bulk alloc file = .ok sections ↔ Splits file.rest sections ∧ Ordered bulk sections

theorem SplitsExactly.fine (h : SplitsExactly bulk alloc file) {sections : List WasmSection} (hsplit : Splits file.rest sections)
    (horder : Ordered bulk sections) : (∀ n, n < 2 * sections.length → alloc n = true) ∧ ∀ s ∈ sections, copyBody s.body = s.body := by
  obtain ⟨read, hread, -, halloc, heq⟩ := createSections_ok_iff.1 ((h sections).2 ⟨hsplit, horder⟩)
  obtain rfl := hread.unique hsplit
  refine ⟨halloc, fun s hs => ?_⟩
  have hcopied := List.map_inj_left.1 (heq.symm.trans (List.map_id read).symm) s hs
  exact congrArg WasmSection.body hcopied

theorem createSections_exact_iff (bulk : Bool) (alloc : Nat → Bool) (file : ModuleFile) : SplitsExactly bulk alloc file ↔
    ∀ sections, Splits file.rest sections → Ordered bulk sections →
      (∀ n, n < 2 * sections.length → alloc n = true) ∧ ∀ s ∈ sections, s.body.length ≤ 0x7FFFFFFF ∨ ∀ b ∈ s.body, b = 0 := by
  constructor
  · intro h sections hsplit horder
    obtain ⟨halloc, hcopied⟩ := h.fine hsplit horder
    exact ⟨halloc, fun s hs => copyBody_eq_iff.1 (hcopied s hs)⟩
  intro h out
  have hcopied {sections : List WasmSection} (hsplit : Splits file.rest sections) (horder : Ordered bulk sections) :
      sections.map (fun s => { s with body := copyBody s.body }) = sections := by
    refine (List.map_inj_left.2 fun s hs => ?_).trans (List.map_id sections)
    rw [copyBody_eq_iff.2 ((h sections hsplit horder).2 s hs), id_eq]
  rw [createSections_ok_iff]
  constructor
  · rintro ⟨sections, hsplit, horder, -, rfl⟩
    rw [hcopied hsplit horder]
    exact ⟨hsplit, horder⟩
  · rintro ⟨hsplit, horder⟩
    exact ⟨out, hsplit, horder, (h out hsplit horder).1, (hcopied hsplit horder).symm⟩

end Module

/-- A module with a custom section of 2 GiB. -/
def hugeFile (body : List UInt8) (h : body.length = 2 ^ 31) : ModuleFile where
  header := [0x00, 0x61, 0x73, 0x6D, 1, 0, 0, 0]
  rest := 0 :: ([0x80, 0x80, 0x80, 0x80, 0x08] ++ (body ++ []))
  header_len := rfl
  size_lt := by
    simp only [List.length_append, List.length_cons, List.length_nil, h]
    omega

theorem hugeFile_splits {body : List UInt8} (h : body.length = 2 ^ 31) : Splits (hugeFile body h).rest [⟨0, body⟩] := by
  refine .cons ?_ .nil
  rw [h, encodesU_iff (by decide)]
  exact ⟨by simp [Terminated], by decide, rfl, by decide⟩

theorem ordered_custom (bulk : Bool) (body : List UInt8) : Ordered bulk [⟨0, body⟩] where
  known s hs := by
    rw [List.mem_singleton.1 hs]
    cases bulk <;> rfl
  order := List.Pairwise.nil

/-- The bytes of the section are lost when one of them is not zero. -/
theorem hugeFile_lost {body : List UInt8} (h : body.length = 2 ^ 31) (hone : 1 ∈ body) : ¬ SplitsExactly false (fun _ => true) (hugeFile body h) := by
  intro hexact
  have hcopied := copyBody_eq_iff.1 ((hexact.fine (hugeFile_splits h) (ordered_custom false body)).2 _ List.mem_cons_self)
  rw [h] at hcopied
  rcases hcopied with hshort | hzero
  · exact absurd hshort (by decide)
  · exact absurd (hzero 1 hone) (by decide)

theorem hugeFile_not_split : ¬ SplitsExactly false (fun _ => true) (hugeFile (List.replicate (2 ^ 31) 1) List.length_replicate) :=
  hugeFile_lost List.length_replicate (List.mem_replicate.2 ⟨by decide, rfl⟩)

end WamrMigrate.Loader
