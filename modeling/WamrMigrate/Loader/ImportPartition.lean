import WamrMigrate.Loader.ImportSection

/-!
# What the import section leaves in a module

Both passes of `load_import_section` read the imports that the format has in the bytes of the section (`Spans`). The array has them by kind and in
the order of the file. Names are read back if they are C strings, and sizes if the loader does not change them.
-/

namespace WamrMigrate.Loader

open Leb128

/-! ## Values in the code -/

section Spans
variable {α β : Type} {code : Code} {bufEnd p q r n : Nat} {E : Grammar α} {F : α → Grammar β} {a : α} {b : β}

/-- The bytes from `p` up to `q` stand for a value. -/
def Spans (code : Code) (E : Grammar α) (p q : Nat) (a : α) : Prop := ∃ bs, E bs a ∧ bs = bytesAt code p bs.length ∧ q = p + bs.length

theorem Spans.pure (a : α) (p : Nat) : Spans code (pure a) p p a := ⟨[], ⟨rfl, rfl⟩, rfl, rfl⟩

theorem Spans.bind (h : Spans code E p q a) (h' : Spans code (F a) q r b) : Spans code (E >>= F) p r b := by
  obtain ⟨x, hx, hxcode, rfl⟩ := h
  obtain ⟨y, hy, hycode, rfl⟩ := h'
  refine ⟨x ++ y, ⟨a, x, y, rfl, hx, hy⟩, ?_, by rw [List.length_append, Nat.add_assoc]⟩
  rw [List.length_append, bytesAt_add, ← hxcode, ← hycode]

theorem Spans.byte (p : Nat) : Spans code .byte p (p + 1) (code p) := ⟨[code p], rfl, rfl, rfl⟩

theorem Spans.bytes (p n : Nat) : Spans code (.bytes n) p (p + n) (bytesAt code p n) :=
  ⟨bytesAt code p n, ⟨rfl, length_bytesAt code p n⟩, by rw [length_bytesAt], by rw [length_bytesAt]⟩

theorem Spans.u32 (h : readLebUint32 code bufEnd p = .ok (n, q)) : Spans code Binary.u32 p q n := by
  obtain ⟨bs, hbs, -, rfl, henc⟩ := readLebUint32_ok_iff.1 h
  exact ⟨bs, henc, hbs, rfl⟩

/-- What is in the code from a position on is determined, and where it ends. -/
theorem Spans.unique {b : α} (hE : E.Unambiguous) (h : Spans code E p q a) (h' : Spans code E p r b) : q = r ∧ a = b := by
  obtain ⟨x, hx, hxcode, rfl⟩ := h
  obtain ⟨y, hy, hycode, rfl⟩ := h'
  have hsame : x ++ bytesAt code (p + x.length) y.length = y ++ bytesAt code (p + y.length) x.length := by
    rw [hxcode, hycode]
    simp only [length_bytesAt]
    rw [← bytesAt_add, ← bytesAt_add, Nat.add_comm]
  obtain ⟨rfl, rfl, -⟩ := hE hx hy hsame
  exact ⟨rfl, rfl⟩

end Spans

namespace Binary

theorem unambiguous_u32 : u32.Unambiguous := fun _ _ _ _ _ _ h h' heq => h.unique h' heq

theorem unambiguous_name : name.Unambiguous := unambiguous_u32.bind Grammar.Unambiguous.bytes

theorem unambiguous_limits : limits.Unambiguous := by
  refine unambiguous_u32.bind fun flags => unambiguous_u32.bind fun min => ?_
  split
  · exact unambiguous_u32.bind fun max => Grammar.Unambiguous.pure _
  · exact Grammar.Unambiguous.pure _

theorem unambiguous_desc (kind : ImportKind) : (desc kind).Unambiguous := by
  cases kind with
  | func => exact unambiguous_u32.bind fun i => Grammar.Unambiguous.pure _
  | table => exact Grammar.Unambiguous.byte.bind fun t => unambiguous_limits.bind fun l => Grammar.Unambiguous.pure _
  | memory => exact unambiguous_limits.bind fun l => Grammar.Unambiguous.pure _
  | global => exact Grammar.Unambiguous.byte.bind fun t => Grammar.Unambiguous.byte.bind fun m => Grammar.Unambiguous.pure _

theorem unambiguous_importDecl : importDecl.Unambiguous := by
  refine unambiguous_name.bind fun m => unambiguous_name.bind fun f => Grammar.Unambiguous.byte.bind fun b => ?_
  split
  · exact (unambiguous_desc _).bind fun d => Grammar.Unambiguous.pure _
  · exact Grammar.Unambiguous.fail

theorem unambiguous_importSection : importSection.Unambiguous := unambiguous_u32.bind unambiguous_importDecl.times

end Binary

/-! ## The parts of an import -/

namespace Spans
variable {code : Code} {p p₁ p₂ q i flags min max : Nat} {l : Limits}

theorem limits_max (hflags : Spans code Binary.u32 p p₁ flags) (hmin : Spans code Binary.u32 p₁ p₂ min) (hodd : flags % 2 = 1)
    (hmax : Spans code Binary.u32 p₂ q max) : Spans code Binary.limits p q ⟨flags, min, some max⟩ := by
  refine hflags.bind (hmin.bind ?_)
  rw [if_pos hodd]
  exact hmax.bind (.pure _ _)

theorem limits_min (hflags : Spans code Binary.u32 p p₁ flags) (hmin : Spans code Binary.u32 p₁ q min) (heven : ¬ flags % 2 = 1) :
    Spans code Binary.limits p q ⟨flags, min, none⟩ := by
  refine hflags.bind (hmin.bind ?_)
  rw [if_neg heven]
  exact .pure _ _

theorem func (h : Spans code Binary.u32 p q i) : Spans code (Binary.desc .func) p q (.func i) := h.bind (.pure _ _)

theorem table (h : Spans code Binary.limits (p + 1) q l) : Spans code (Binary.desc .table) p q (.table (code p) l) :=
  (Spans.byte p).bind (h.bind (.pure _ _))

theorem memory (h : Spans code Binary.limits p q l) : Spans code (Binary.desc .memory) p q (.memory l) := h.bind (.pure _ _)

theorem global (p : Nat) : Spans code (Binary.desc .global) p (p + 2) (.global (code p) (code (p + 1))) :=
  (Spans.byte p).bind ((Spans.byte (p + 1)).bind (.pure _ _))

theorem importDecl {m f : List UInt8} {kind : ImportKind} {d : DeclDesc} (hm : Spans code Binary.name p p₁ m) (hf : Spans code Binary.name p₁ p₂ f)
    (hkind : importKind (code p₂) = some kind) (hd : Spans code (Binary.desc kind) (p₂ + 1) q d) : Spans code Binary.importDecl p q ⟨m, f, d⟩ := by
  refine hm.bind (hf.bind ((Spans.byte p₂).bind ?_))
  rw [hkind]
  exact hd.bind (.pure _ _)

end Spans

/-! ## The first pass -/

/-- The imports of a kind in the order of the file. -/
def ofKind (kind : ImportKind) (decls : List ImportDecl) : List ImportDecl := decls.filter (·.desc.kind = kind)

theorem ofKind_append_singleton {kind : ImportKind} {decls : List ImportDecl} {d : ImportDecl} :
    ofKind kind (decls ++ [d]) = ofKind kind decls ++ if d.desc.kind = kind then [d] else [] := by
  unfold ofKind
  rw [List.filter_append, List.filter_singleton, Bool.cond_decide]

section Scan
variable {env : ImportEnv} {code : Code} {bufEnd n i p q : Nat} {counts counts' : ImportKind → Nat}

theorem inc_eq (counts : ImportKind → Nat) (d : ImportDecl) (kind : ImportKind) :
    inc counts d.desc.kind kind = counts kind + (ofKind kind [d]).length := by
  unfold inc ofKind
  rw [List.filter_singleton]
  by_cases h : kind = d.desc.kind
  · simp [h]
  · simp [h, Ne.symm h]

theorem spans_name (h : skipName code bufEnd p = .ok q) : ∃ str, Spans code Binary.name p q str := by
  simp only [skipName, bind_ok_iff] at h
  obtain ⟨⟨len, p₁⟩, hleb, _, -, h⟩ := h
  obtain rfl := return_ok_iff.1 h
  exact ⟨_, (Spans.u32 hleb).bind (.bytes p₁ len)⟩

theorem spans_limits (h : skipLimits code bufEnd p = .ok q) : ∃ l, Spans code Binary.limits p q l := by
  simp only [skipLimits, bind_ok_iff] at h
  obtain ⟨⟨flags, p₁⟩, hflags, ⟨min, p₂⟩, hmin, h⟩ := h
  split at h
  · rename_i hodd
    simp only [bind_ok_iff, return_ok_iff] at h
    obtain ⟨⟨max, p₃⟩, hmax, rfl⟩ := h
    exact ⟨_, .limits_max (.u32 hflags) (.u32 hmin) hodd (.u32 hmax)⟩
  · rename_i heven
    obtain rfl := return_ok_iff.1 h
    exact ⟨_, .limits_min (.u32 hflags) (.u32 hmin) heven⟩

theorem scanImport_spans (h : scanImport env code bufEnd counts p = .ok (counts', q)) :
    ∃ d, Spans code Binary.importDecl p q d ∧ counts' = inc counts d.desc.kind := by
  simp only [scanImport, bind_ok_iff] at h
  obtain ⟨p₁, hm, p₂, hf, _, -, h⟩ := h
  obtain ⟨m, hm⟩ := spans_name hm
  obtain ⟨f, hf⟩ := spans_name hf
  split at h
  · rename_i hkind
    simp only [bind_ok_iff, return_ok_iff, Prod.mk.injEq] at h
    obtain ⟨⟨i, p₃⟩, hi, rfl, rfl⟩ := h
    exact ⟨_, .importDecl hm hf hkind (.func (.u32 hi)), rfl⟩
  · rename_i hkind
    simp only [bind_ok_iff, return_ok_iff, Prod.mk.injEq] at h
    obtain ⟨_, -, p₃, hl, _, -, rfl, rfl⟩ := h
    obtain ⟨l, hl⟩ := spans_limits hl
    exact ⟨_, .importDecl hm hf hkind (.table hl), rfl⟩
  · rename_i hkind
    simp only [bind_ok_iff, return_ok_iff, Prod.mk.injEq] at h
    obtain ⟨p₃, hl, _, -, rfl, rfl⟩ := h
    obtain ⟨l, hl⟩ := spans_limits hl
    exact ⟨_, .importDecl hm hf hkind (.memory hl), rfl⟩
  · rename_i hkind
    simp only [bind_ok_iff, return_ok_iff, Prod.mk.injEq] at h
    obtain ⟨_, -, rfl, rfl⟩ := h
    exact ⟨_, .importDecl hm hf hkind (.global _), rfl⟩
  · cases h

theorem scanImports_spans (h : scanImports env code bufEnd n counts p = .ok (counts', q)) :
    ∃ decls, Spans code (.times Binary.importDecl n) p q decls ∧ ∀ kind, counts' kind = counts kind + (ofKind kind decls).length := by
  induction n generalizing counts p with
  | zero =>
    cases h
    exact ⟨[], .pure [] _, fun kind => rfl⟩
  | succ n ih =>
    obtain ⟨⟨counts₁, p₁⟩, hstep, hrest⟩ := bind_ok_iff.1 h
    obtain ⟨d, hd, rfl⟩ := scanImport_spans hstep
    obtain ⟨decls, hdecls, hcounts⟩ := ih hrest
    refine ⟨d :: decls, hd.bind (hdecls.bind (.pure _ _)), fun kind => ?_⟩
    have happend : ofKind kind (d :: decls) = ofKind kind [d] ++ ofKind kind decls := List.filter_append [d] decls
    rw [hcounts, inc_eq, happend, List.length_append, Nat.add_assoc]

theorem scanImports_take (h : scanImports env code bufEnd n counts p = .ok (counts', q)) (hi : i ≤ n) :
    ∃ c r, scanImports env code bufEnd i counts p = .ok (c, r) := by
  induction i generalizing n counts p with
  | zero => exact ⟨_, _, rfl⟩
  | succ i ih =>
    obtain ⟨n, rfl⟩ : ∃ m, n = m + 1 := ⟨n - 1, by omega⟩
    obtain ⟨⟨counts₁, p₁⟩, hstep, hrest⟩ := bind_ok_iff.1 h
    obtain ⟨c, r, hok⟩ := ih hrest (Nat.le_of_succ_le_succ hi)
    exact ⟨c, r, bind_ok_iff.2 ⟨_, hstep, hok⟩⟩

end Scan

/-! ## Names -/

/-- How a name is read back: up to its first byte 0, and not at all if it was too long to be copied. -/
def cName (str : List UInt8) : List UInt8 := if str.length < 0x7FFFFFFF then cString str else []

/-- The nodes are numbered as they are made, and none has a string of 2 GiB. -/
structure Numbered (nodes : List StringNode) : Prop where
  lt : ∀ n ∈ nodes, n.ptr < nodes.length
  newest : nodes.Pairwise fun n m => m.ptr < n.ptr
  short : ∀ n ∈ nodes, (cString n.str).length < 0x7FFFFFFF

section Names
variable {nodes nodes' : List StringNode} {n : StringNode} {a : StrArg} {ptr : Nat} {str : List UInt8}

theorem cName_eq_iff : cName str = str ↔ 0 ∉ str ∧ str.length < 0x7FFFFFFF := by
  unfold cName
  split
  · rename_i hshort
    rw [and_iff_left hshort]
    constructor
    · intro h
      rw [← h]
      exact zero_not_mem_cString str
    · exact cString_of_not_mem
  rename_i hlong
  refine iff_of_false ?_ fun h => hlong h.2
  rintro rfl
  exact hlong (by decide)

theorem cString_nodeBytes (str : List UInt8) : cString (nodeBytes str) = cName str := by
  unfold nodeBytes cName
  by_cases h : str.length < 0x7FFFFFFF
  · rw [if_neg (by omega), if_pos h, cString_append_zero]
  · rw [if_pos (by omega), if_neg h]
    rfl

theorem length_cString_le (str : List UInt8) : (cString str).length ≤ str.length := (List.takeWhile_prefix _).length_le

theorem length_cName_lt (str : List UInt8) : (cName str).length < 0x7FFFFFFF := by
  unfold cName
  split
  · rename_i h
    exact Nat.lt_of_le_of_lt (length_cString_le str) h
  · decide

theorem cString_of_isFor (h : n.isFor str) : cString n.str = str := by
  unfold StringNode.isFor at h
  obtain ⟨hlen, htake⟩ := of_decide_eq_true h
  have hprefix : cString n.str <+: n.str := List.takeWhile_prefix _
  rw [List.prefix_iff_eq_take.1 hprefix, hlen, htake]

theorem constStrListInsert_ok (h : constStrListInsert nodes a = .ok (nodes', ptr)) :
    (∃ n ∈ nodes, n.isFor a.str ∧ nodes' = nodes ∧ ptr = n.ptr) ∨ (nodes' = ⟨nodes.length, nodeBytes a.str⟩ :: nodes ∧ ptr = nodes.length) := by
  unfold constStrListInsert at h
  split at h
  · cases h
  split at h
  · rename_i n hfind
    cases h
    exact .inl ⟨n, List.mem_of_find?_eq_some hfind, List.find?_some hfind, rfl, rfl⟩
  · obtain ⟨_, -, h⟩ := bind_ok_iff.1 h
    cases h
    exact .inr ⟨rfl, rfl⟩

theorem find_ptr (h : nodes.Pairwise fun n m => m.ptr < n.ptr) (hn : n ∈ nodes) : nodes.find? (·.ptr = n.ptr) = some n := by
  induction nodes with
  | nil => cases hn
  | cons m nodes ih =>
    obtain ⟨hm, hrest⟩ := List.pairwise_cons.1 h
    rcases List.mem_cons.1 hn with rfl | hn
    · exact List.find?_cons_of_pos (decide_eq_true rfl)
    · rw [List.find?_cons_of_neg (by simpa using Nat.ne_of_gt (hm n hn)), ih hrest hn]

theorem Numbered.nameAt_eq (h : Numbered nodes) (hn : n ∈ nodes) : nameAt nodes n.ptr = cString n.str := by
  unfold nameAt
  rw [find_ptr h.newest hn]
  rfl

theorem Numbered.insert (h : Numbered nodes) (hok : constStrListInsert nodes a = .ok (nodes', ptr)) :
    Numbered nodes' ∧ nodes <:+ nodes' ∧ ∃ n ∈ nodes', n.ptr = ptr ∧ cString n.str = cName a.str := by
  rcases constStrListInsert_ok hok with ⟨n, hn, hfor, rfl, rfl⟩ | ⟨rfl, rfl⟩
  · have hstr := cString_of_isFor hfor
    refine ⟨h, List.suffix_refl _, n, hn, rfl, ?_⟩
    rw [hstr, eq_comm, cName_eq_iff, ← hstr]
    exact ⟨zero_not_mem_cString _, h.short n hn⟩
  refine ⟨⟨?_, ?_, ?_⟩, List.suffix_cons _ _, _, List.mem_cons_self, rfl, cString_nodeBytes a.str⟩
  · intro m hm
    rw [List.length_cons]
    rcases List.mem_cons.1 hm with rfl | hm
    · exact Nat.lt_succ_self _
    · exact Nat.lt_succ_of_lt (h.lt m hm)
  · exact List.pairwise_cons.2 ⟨h.lt, h.newest⟩
  intro m hm
  rcases List.mem_cons.1 hm with rfl | hm
  · rw [cString_nodeBytes]
    exact length_cName_lt _
  · exact h.short m hm

theorem numbered_insertAll (as : List StrArg) {t : StringTable} (h : Numbered t.nodes) : Numbered (t.insertAll as).nodes := by
  unfold StringTable.insertAll
  induction as generalizing t with
  | nil => exact h
  | cons a as ih =>
    refine ih ?_
    unfold StringTable.insert
    split
    · rename_i hok
      exact (h.insert hok).1
    · exact h

theorem numbered_builtinNames {env : ImportEnv} (h : builtinNames env = .ok nodes) : Numbered nodes := by
  simp only [builtinNames, bind_ok_iff, return_ok_iff] at h
  obtain ⟨⟨nodes₁, _⟩, h₁, ⟨nodes₂, _⟩, h₂, ⟨nodes₃, _⟩, h₃, rfl⟩ := h
  have h₀ : Numbered (StringTable.empty.insertAll env.before).nodes := numbered_insertAll _ ⟨nofun, .nil, nofun⟩
  exact (((h₀.insert h₁).1.insert h₂).1.insert h₃).1

end Names

/-! ## The second pass -/

/-- The sizes that are kept for a table. -/
def tableSizes (moduleName : List UInt8) (l : Limits) : Nat × Nat :=
  if moduleName = nameSpectest then (10, 20) else (l.min, adjustTableMaxSize l.min l.flags (l.max.getD 0))

/-- The sizes that are kept for a memory. -/
def memorySizes (env : ImportEnv) (moduleName : List UInt8) (l : Limits) : Nat × Nat :=
  if moduleName = nameSpectest then (1, 2) else (l.min, l.max.elim env.maxPageCount (min · env.maxPageCount))

/-- What is kept for an import, given how its names are read. -/
inductive Loads (env : ImportEnv) (m f : List UInt8) : DeclDesc → ImportDesc → Prop
  | func {i : Nat} {type : WasmType} (htype : env.types[i]? = some type) : Loads env m f (.func i) (.func type (env.resolveSymbol m f type))
  | table (elemType : UInt8) {l : Limits} (hmax : l.max.isSome ↔ l.flags ≠ 0) :
    Loads env m f (.table elemType l) (.table elemType l.flags (tableSizes m l).1 (tableSizes m l).2)
  | memory (l : Limits) : Loads env m f (.memory l) (.memory l.flags (memorySizes env m l).1 (memorySizes env m l).2)
  | global (type isMutable : UInt8) : Loads env m f (.global type isMutable) (.global type (isMutable == 1) (env.builtinGlobal m f))

section Load
variable {env : ImportEnv} {code : Code} {bufEnd n i p q ptr : Nat} {nodes nodes' : List StringNode} {malloc : Bool} {m f : List UInt8} {desc : ImportDesc}
variable {s s' : ImportState} {counts : ImportKind → Nat}

theorem readLebUint32_lt {v : Nat} (h : readLebUint32 code bufEnd p = .ok (v, q)) : v < 2 ^ 32 := by
  obtain ⟨bs, -, -, -, henc⟩ := readLebUint32_ok_iff.1 h
  exact ((encodesU_iff (by decide)).1 henc).2.2.2

theorem loadName_spans (h : loadName code bufEnd nodes malloc p = .ok (ptr, nodes', q)) :
    ∃ a : StrArg, Spans code Binary.name p q a.str ∧ constStrListInsert nodes a = .ok (nodes', ptr) := by
  simp only [loadName, bind_ok_iff, return_ok_iff, Prod.mk.injEq] at h
  obtain ⟨⟨len, p₁⟩, hleb, _, -, ⟨_, _⟩, hok, rfl, rfl, rfl⟩ := h
  refine ⟨_, (Spans.u32 hleb).bind ?_, hok⟩
  have hlen : len % 2 ^ 32 = len := Nat.mod_eq_of_lt (readLebUint32_lt hleb)
  unfold nameArg
  simp only [hlen]
  exact .bytes p₁ len

theorem loadFunctionImport_spans (h : loadFunctionImport env code bufEnd m f p = .ok (desc, q)) :
    ∃ d, d.kind = .func ∧ Spans code (Binary.desc .func) p q d ∧ Loads env m f d desc := by
  simp only [loadFunctionImport, bind_ok_iff, return_ok_iff, Prod.mk.injEq] at h
  obtain ⟨_, -, ⟨i, p₁⟩, hleb, type, htype, rfl, rfl⟩ := h
  refine ⟨.func i, rfl, .func (.u32 hleb), .func ?_⟩
  cases hi : env.types[i]? with
  | none =>
    rw [hi] at htype
    cases htype
  | some t =>
    rw [hi] at htype
    cases htype
    rfl

theorem loadTableMaxSize_spans {flags init max p₁ p₂ : Nat} (hflags : Spans code Binary.u32 p p₁ flags) (hinit : Spans code Binary.u32 p₁ p₂ init)
    (hone : flags ≤ 1) (h : loadTableMaxSize code bufEnd flags init p₂ = .ok (max, q)) :
    ∃ max' : Option Nat, max'.getD 0 = max ∧ (max'.isSome ↔ flags ≠ 0) ∧ Spans code Binary.limits p q ⟨flags, init, max'⟩ := by
  unfold loadTableMaxSize at h
  split at h
  · rename_i hne
    simp only [bind_ok_iff, return_ok_iff, Prod.mk.injEq] at h
    obtain ⟨⟨max', p₃⟩, hleb, _, -, rfl, rfl⟩ := h
    exact ⟨some max', rfl, iff_of_true rfl hne, .limits_max hflags hinit (by omega) (.u32 hleb)⟩
  · rename_i hzero
    cases h
    exact ⟨none, rfl, iff_of_false (by simp) hzero, .limits_min hflags hinit (by omega)⟩

theorem loadTableImport_spans (h : loadTableImport env code bufEnd m f p = .ok (desc, q)) :
    ∃ d, d.kind = .table ∧ Spans code (Binary.desc .table) p q d ∧ Loads env m f d desc := by
  simp only [loadTableImport, bind_ok_iff] at h
  obtain ⟨_, -, _, -, ⟨flags, p₁⟩, hflags, _, hone, ⟨init, p₂⟩, hinit, ⟨max, p₃⟩, hmax, h⟩ := h
  obtain ⟨max', rfl, hsome, hspan⟩ := loadTableMaxSize_spans (.u32 hflags) (.u32 hinit) (Nat.not_lt.1 (failIf_ok.1 hone)) hmax
  have hsizes : (desc, q) = (.table (code p) flags (tableSizes m ⟨flags, init, max'⟩).1 (tableSizes m ⟨flags, init, max'⟩).2, p₃) := by
    unfold tableSizes
    split at h <;> rename_i hname <;> simp only [hname, if_true, if_false, bind_ok_iff, return_ok_iff] at h ⊢
    · obtain ⟨_, -, _, -, heq⟩ := h
      exact heq.symm
    · exact h.symm
  obtain ⟨rfl, rfl⟩ := Prod.mk.inj hsizes
  exact ⟨.table (code p) ⟨flags, init, max'⟩, rfl, .table hspan, .table _ hsome⟩

theorem loadMaxPageCount_spans {flags init max p₁ p₂ : Nat} (hflags : Spans code Binary.u32 p p₁ flags) (hinit : Spans code Binary.u32 p₁ p₂ init)
    (h : loadMaxPageCount env code bufEnd flags init p₂ = .ok (max, q)) :
    ∃ max' : Option Nat, max'.elim env.maxPageCount (min · env.maxPageCount) = max ∧ Spans code Binary.limits p q ⟨flags, init, max'⟩ := by
  unfold loadMaxPageCount at h
  split at h
  · rename_i hodd
    simp only [bind_ok_iff, return_ok_iff, Prod.mk.injEq] at h
    obtain ⟨⟨max', p₃⟩, hleb, _, -, _, -, rfl, rfl⟩ := h
    exact ⟨some max', rfl, .limits_max hflags hinit hodd (.u32 hleb)⟩
  · rename_i heven
    cases h
    exact ⟨none, rfl, .limits_min hflags hinit heven⟩

theorem loadMemoryImport_spans (h : loadMemoryImport env code bufEnd m f p = .ok (desc, q)) :
    ∃ d, d.kind = .memory ∧ Spans code (Binary.desc .memory) p q d ∧ Loads env m f d desc := by
  simp only [loadMemoryImport, bind_ok_iff] at h
  obtain ⟨⟨flags, p₁⟩, hflags, ⟨init, p₂⟩, hinit, _, -, ⟨max, p₃⟩, hmax, h⟩ := h
  obtain ⟨max', rfl, hspan⟩ := loadMaxPageCount_spans (.u32 hflags) (.u32 hinit) hmax
  have hsizes : (desc, q) = (.memory flags (memorySizes env m ⟨flags, init, max'⟩).1 (memorySizes env m ⟨flags, init, max'⟩).2, p₃) := by
    unfold memorySizes
    split at h <;> rename_i hname <;> simp only [hname, if_true, if_false, bind_ok_iff, return_ok_iff] at h ⊢
    · obtain ⟨_, -, _, -, heq⟩ := h
      exact heq.symm
    · exact h.symm
  obtain ⟨rfl, rfl⟩ := Prod.mk.inj hsizes
  exact ⟨.memory ⟨flags, init, max'⟩, rfl, .memory hspan, .memory _⟩

theorem loadGlobalImport_spans (h : loadGlobalImport env code bufEnd m f p = .ok (desc, q)) :
    ∃ d, d.kind = .global ∧ Spans code (Binary.desc .global) p q d ∧ Loads env m f d desc := by
  simp only [loadGlobalImport, bind_ok_iff, return_ok_iff, Prod.mk.injEq] at h
  obtain ⟨_, -, _, -, _, -, rfl, rfl⟩ := h
  exact ⟨.global (code p) (code (p + 1)), rfl, .global p, .global _ _⟩

theorem loadDesc_spans {kind : ImportKind} (h : loadDesc env code bufEnd kind m f p = .ok (desc, q)) :
    ∃ d, d.kind = kind ∧ Spans code (Binary.desc kind) p q d ∧ Loads env m f d desc := by
  cases kind with
  | func => exact loadFunctionImport_spans h
  | table => exact loadTableImport_spans h
  | memory => exact loadMemoryImport_spans h
  | global => exact loadGlobalImport_spans h

/-- An import in the module, as it is kept. -/
structure Stands (env : ImportEnv) (nodes : List StringNode) (d : ImportDecl) (imp : WasmImport) : Prop where
  kind : imp.kind = d.desc.kind
  moduleName : ∃ n ∈ nodes, n.ptr = imp.moduleName ∧ cString n.str = cName d.moduleName
  fieldName : ∃ n ∈ nodes, n.ptr = imp.fieldName ∧ cString n.str = cName d.fieldName
  desc : Loads env (cName d.moduleName) (cName d.fieldName) d.desc imp.desc

theorem Stands.mono {d : ImportDecl} {imp : WasmImport} (h : Stands env nodes d imp) (hsuf : nodes <:+ nodes') : Stands env nodes' d imp where
  kind := h.kind
  moduleName := h.moduleName.imp fun _ hn => ⟨hsuf.subset hn.1, hn.2⟩
  fieldName := h.fieldName.imp fun _ hn => ⟨hsuf.subset hn.1, hn.2⟩
  desc := h.desc

theorem loadImport_spans (hs : Numbered s.nodes) (h : loadImport env code bufEnd s p = .ok (s', q)) :
    ∃ d nodes imp, Spans code Binary.importDecl p q d ∧ s' = s.put nodes imp ∧ Numbered nodes ∧ s.nodes <:+ nodes ∧ Stands env nodes d imp := by
  simp only [loadImport, bind_ok_iff] at h
  obtain ⟨⟨mptr, nodes₁, p₁⟩, hm, ⟨fptr, nodes₂, p₂⟩, hf, _, -, h⟩ := h
  obtain ⟨a, hma, hinsert⟩ := loadName_spans hm
  obtain ⟨b, hfb, hinsert'⟩ := loadName_spans hf
  obtain ⟨h₁, hsuf₁, n₁, hn₁, rfl, hname₁⟩ := hs.insert hinsert
  obtain ⟨h₂, hsuf₂, n₂, hn₂, rfl, hname₂⟩ := h₁.insert hinsert'
  have hn₁' := hsuf₂.subset hn₁
  split at h
  · rename_i kind hkind
    simp only [bind_ok_iff, return_ok_iff, Prod.mk.injEq] at h
    obtain ⟨⟨desc, p₃⟩, hdesc, rfl, rfl⟩ := h
    rw [h₂.nameAt_eq hn₁', h₂.nameAt_eq hn₂, hname₁, hname₂] at hdesc
    obtain ⟨d, rfl, hspan, hloads⟩ := loadDesc_spans hdesc
    exact ⟨⟨a.str, b.str, d⟩, nodes₂, _, .importDecl hma hfb hkind hspan, rfl, h₂, hsuf₁.trans hsuf₂, rfl, ⟨n₁, hn₁', rfl, hname₁⟩,
      ⟨n₂, hn₂, rfl, hname₂⟩, hloads⟩
  · cases h

theorem base_inj {k k' : ImportKind} {j j' : Nat} (hj : j < counts k) (hj' : j' < counts k')
    (h : base counts k + j = base counts k' + j') : k = k' ∧ j = j' := by
  cases k <;> cases k' <;> simp only [base, reduceCtorEq, false_and, true_and] at h ⊢ <;> omega

/-- The array after some imports: each is at its place in the part of its kind. -/
structure Filled (env : ImportEnv) (counts : ImportKind → Nat) (s : ImportState) (decls : List ImportDecl) : Prop where
  numbered : Numbered s.nodes
  next : ∀ k, s.next k = base counts k + (ofKind k decls).length
  slots : ∀ k j d, (ofKind k decls)[j]? = some d → ∃ imp, s.imports (base counts k + j) = some imp ∧ Stands env s.nodes d imp

theorem filled_importState (h : Numbered nodes) : Filled env counts (importState nodes counts) [] :=
  ⟨h, fun _ => rfl, nofun⟩

theorem Filled.put {decls : List ImportDecl} {d : ImportDecl} {imp : WasmImport}
    (h : Filled env counts s decls) (hfit : ∀ k, (ofKind k (decls ++ [d])).length ≤ counts k) (hnodes : Numbered nodes) (hsuf : s.nodes <:+ nodes)
    (himp : Stands env nodes d imp) : Filled env counts (s.put nodes imp) (decls ++ [d]) where
  numbered := hnodes
  next k := by
    have hinc : (s.put nodes imp).next k = inc s.next d.desc.kind k := himp.kind ▸ rfl
    rw [hinc, inc_eq, h.next, Nat.add_assoc, ← List.length_append]
    exact congrArg (base counts k + ·.length) (List.filter_append decls [d]).symm
  slots k j e he := by
    have hplace : s.next imp.kind = base counts d.desc.kind + (ofKind d.desc.kind decls).length := himp.kind ▸ h.next _
    have hroom : (ofKind d.desc.kind decls).length < counts d.desc.kind := by
      have := hfit d.desc.kind
      rw [ofKind_append_singleton, if_pos rfl, List.length_append] at this
      exact this
    show ∃ x, (if base counts k + j = s.next imp.kind then some imp else s.imports (base counts k + j)) = some x ∧ _
    rw [hplace]
    by_cases hnew : k = d.desc.kind ∧ j = (ofKind d.desc.kind decls).length
    · obtain ⟨rfl, rfl⟩ := hnew
      rw [ofKind_append_singleton, if_pos rfl, List.getElem?_concat_length] at he
      cases he
      exact ⟨imp, if_pos rfl, himp⟩
    have hj : j < (ofKind k (decls ++ [d])).length := (List.getElem?_eq_some_iff.1 he).1
    have hold : (ofKind k decls)[j]? = some e := by
      rw [ofKind_append_singleton] at he
      split at he
      · rename_i hk
        rcases Nat.lt_or_ge j (ofKind k decls).length with hlt | hge
        · rwa [List.getElem?_append_left hlt] at he
        · rw [ofKind_append_singleton, if_pos hk, List.length_append, List.length_singleton] at hj
          exact absurd ⟨hk.symm, hk ▸ Nat.le_antisymm (Nat.le_of_lt_succ hj) hge⟩ hnew
      · rwa [List.append_nil] at he
    rw [if_neg fun heq => hnew (base_inj (Nat.lt_of_lt_of_le hj (hfit k)) hroom heq)]
    obtain ⟨x, hx, hstands⟩ := h.slots k j e hold
    exact ⟨x, hx, hstands.mono hsuf⟩

/-- The second pass reads imports and puts them at their places, if there is room for them. -/
theorem loadImports_spans (counts : ImportKind → Nat) (before : List ImportDecl) (hs : Numbered s.nodes)
    (h : loadImports env code bufEnd n s p = .ok (s', q)) : ∃ decls, Spans code (.times Binary.importDecl n) p q decls ∧ (Filled env counts s before →
      (∀ k, (ofKind k (before ++ decls)).length ≤ counts k) → Filled env counts s' (before ++ decls)) := by
  induction n generalizing s p before with
  | zero =>
    cases h
    refine ⟨[], .pure [] _, fun hfilled _ => ?_⟩
    rwa [List.append_nil]
  | succ n ih =>
    obtain ⟨⟨s₁, p₁⟩, hstep, hrest⟩ := bind_ok_iff.1 h
    obtain ⟨d, nodes, imp, hd, rfl, hnodes, hsuf, himp⟩ := loadImport_spans hs hstep
    obtain ⟨decls, hdecls, hrun⟩ := ih (before ++ [d]) hnodes hrest
    refine ⟨d :: decls, hd.bind (hdecls.bind (.pure _ _)), fun hfilled hfit => ?_⟩
    rw [List.append_cons] at hfit ⊢
    refine hrun (hfilled.put (fun k => Nat.le_trans ?_ (hfit k)) hnodes hsuf himp) hfit
    unfold ofKind
    rw [List.filter_append _ decls, List.length_append]
    exact Nat.le_add_right _ _

theorem loadImports_take (h : loadImports env code bufEnd n s p = .ok (s', q)) (hi : i ≤ n) :
    ∃ s₁ r, loadImports env code bufEnd i s p = .ok (s₁, r) := by
  induction i generalizing n s p with
  | zero => exact ⟨_, _, rfl⟩
  | succ i ih =>
    obtain ⟨n, rfl⟩ : ∃ m, n = m + 1 := ⟨n - 1, by omega⟩
    obtain ⟨⟨s₁, p₁⟩, hstep, hrest⟩ := bind_ok_iff.1 h
    obtain ⟨s₂, r, hok⟩ := ih hrest (Nat.le_of_succ_le_succ hi)
    exact ⟨s₂, r, bind_ok_iff.2 ⟨_, hstep, hok⟩⟩

end Load

/-! ## What is kept of an import -/

/-- The sizes of a limit, the largest one only if it is declared. -/
def Limits.KeptAs (l : Limits) (flags min max : Nat) : Prop := flags = l.flags ∧ min = l.min ∧ ∀ x ∈ l.max, max = x

/-- The type that is declared is the one in the module. -/
def HasType (env : ImportEnv) : DeclDesc → ImportDesc → Prop
  | .func i, .func type _ => env.types[i]? = some type
  | .table elemType l, .table elemType' flags min max => elemType' = elemType ∧ l.KeptAs flags min max
  | .memory l, .memory flags min max => l.KeptAs flags min max
  | .global type isMutable, .global type' isMutable' _ => type' = type ∧ isMutable' = (isMutable == 1)
  | _, _ => False

/-- An import is in the module with its kind, its names and its type. -/
structure Declares (env : ImportEnv) (nodes : List StringNode) (d : ImportDecl) (imp : WasmImport) : Prop where
  kind : imp.kind = d.desc.kind
  moduleName : nameAt nodes imp.moduleName = d.moduleName
  fieldName : nameAt nodes imp.fieldName = d.fieldName
  desc : HasType env d.desc imp.desc

/-- The loader keeps the type: it does not lower the largest size of a table or memory, nor replace the sizes of an import from `spectest`. -/
def DeclDesc.TypeKept (env : ImportEnv) (moduleName : List UInt8) : DeclDesc → Prop
  | .table _ l =>
    if moduleName = nameSpectest then l.min = 10 ∧ ∀ x ∈ l.max, x = 20 else ∀ x ∈ l.max, l.min < x → x ≤ defaultMaxSize l.min
  | .memory l => if moduleName = nameSpectest then l.min = 1 ∧ ∀ x ∈ l.max, x = 2 else ∀ x ∈ l.max, x ≤ env.maxPageCount
  | _ => True

/-- The loader keeps the import: its names are C strings of less than 2 GiB, and the type is kept. -/
structure ImportDecl.Kept (env : ImportEnv) (d : ImportDecl) : Prop where
  moduleName : 0 ∉ d.moduleName ∧ d.moduleName.length < 0x7FFFFFFF
  fieldName : 0 ∉ d.fieldName ∧ d.fieldName.length < 0x7FFFFFFF
  desc : d.desc.TypeKept env d.moduleName

section Kept
variable {env : ImportEnv} {m f : List UInt8} {d : DeclDesc} {desc : ImportDesc}

theorem adjustTableMaxSize_eq_iff {min flags x : Nat} (h : flags ≠ 0) : adjustTableMaxSize min flags x = x ↔ (min < x → x ≤ defaultMaxSize min) := by
  unfold adjustTableMaxSize
  rw [if_pos h]
  split
  · rename_i hlt
    rw [min_eq_left_iff, imp_iff_right hlt]
  · rename_i hge
    exact iff_of_true rfl fun hlt => absurd hlt hge

theorem Loads.hasType_iff (h : Loads env m f d desc) : HasType env d desc ↔ d.TypeKept env m := by
  cases h with
  | func htype => exact iff_of_true htype trivial
  | @table elemType l hmax =>
    simp only [HasType, Limits.KeptAs, DeclDesc.TypeKept, tableSizes, true_and]
    split
    · simp only [eq_comm]
    refine ⟨fun h x hx => ?_, fun h => ⟨rfl, fun x hx => ?_⟩⟩
    · have hne := hmax.1 (Option.isSome_of_mem hx)
      have heq := h.2 x hx
      rw [hx, Option.getD_some] at heq
      exact (adjustTableMaxSize_eq_iff hne).1 heq
    · have hne := hmax.1 (Option.isSome_of_mem hx)
      rw [hx, Option.getD_some]
      exact (adjustTableMaxSize_eq_iff hne).2 (h x hx)
  | memory l =>
    simp only [HasType, Limits.KeptAs, DeclDesc.TypeKept, memorySizes, true_and]
    split
    · simp only [eq_comm]
    refine ⟨fun h x hx => ?_, fun h => ⟨rfl, fun x hx => ?_⟩⟩
    · have heq := h.2 x hx
      rw [hx, Option.elim_some] at heq
      exact min_eq_left_iff.1 heq
    · rw [hx, Option.elim_some]
      exact min_eq_left_iff.2 (h x hx)
  | global => exact iff_of_true ⟨rfl, rfl⟩ trivial

/-- An import is in the module as it is declared if the loader keeps it, and only then. -/
theorem Stands.declares_iff {nodes : List StringNode} {d : ImportDecl} {imp : WasmImport} (hnodes : Numbered nodes) (h : Stands env nodes d imp) :
    Declares env nodes d imp ↔ d.Kept env := by
  obtain ⟨n₁, hn₁, hptr₁, hname₁⟩ := h.moduleName
  obtain ⟨n₂, hn₂, hptr₂, hname₂⟩ := h.fieldName
  have hm : nameAt nodes imp.moduleName = cName d.moduleName := by rw [← hptr₁, hnodes.nameAt_eq hn₁, hname₁]
  have hf : nameAt nodes imp.fieldName = cName d.fieldName := by rw [← hptr₂, hnodes.nameAt_eq hn₂, hname₂]
  constructor
  · rintro ⟨-, hmod, hfield, hdesc⟩
    rw [hm] at hmod
    rw [hf] at hfield
    refine ⟨cName_eq_iff.1 hmod, cName_eq_iff.1 hfield, ?_⟩
    rw [← hmod]
    exact h.desc.hasType_iff.1 hdesc
  rintro ⟨hmod, hfield, hdesc⟩
  have hmod := cName_eq_iff.2 hmod
  refine ⟨h.kind, hm.trans hmod, hf.trans (cName_eq_iff.2 hfield), h.desc.hasType_iff.2 ?_⟩
  rwa [hmod]

end Kept

/-! ## The section -/

/-- Both passes are at the same byte after every round, and at the end of the section after the last one. -/
structure Lockstep (env : ImportEnv) (code : Code) (bufEnd buf count : Nat) (counts : ImportKind → Nat) : Prop where
  rounds : ∃ nodes p, builtinNames env = .ok nodes ∧ readLebUint32 code bufEnd buf = .ok (count, p) ∧
    ∀ i ≤ count, ∃ c s q, scanImports env code bufEnd i (fun _ => 0) p = .ok (c, q) ∧
      loadImports env code bufEnd i (importState nodes counts) p = .ok (s, q) ∧ (i = count → q = bufEnd)

/-- The module has the imports of the section: in one array by their kinds, those of a kind in the order of the file, as they are declared. -/
structure Partitioned (env : ImportEnv) (code : Code) (bufEnd buf : Nat) (r : ImportSection) (decls : List ImportDecl) : Prop where
  format : Spans code Binary.importSection buf bufEnd decls
  importCount : r.importCount = decls.length
  counts : ∀ k, r.counts k = (ofKind k decls).length
  total : base r.counts .global + r.counts .global = r.importCount
  slots : ∀ k j d, (ofKind k decls)[j]? = some d → ∃ imp, r.imports (base r.counts k + j) = some imp ∧ Declares env r.nodes d imp
  lockstep : Lockstep env code bufEnd buf r.importCount r.counts

theorem length_ofKind (decls : List ImportDecl) :
    (ofKind .func decls).length + (ofKind .table decls).length + (ofKind .memory decls).length + (ofKind .global decls).length = decls.length := by
  induction decls with
  | nil => rfl
  | cons d decls ih =>
    unfold ofKind at ih ⊢
    rw [List.length_cons, ← ih]
    cases hk : d.desc.kind <;> simp [hk] <;> omega

section Section
variable {env : ImportEnv} {code : Code} {bufEnd buf : Nat} {r : ImportSection} {decls : List ImportDecl}

/-- An accepted section has the format, and its imports are at their places. -/
theorem loadImportSection_spans (h : loadImportSection env code bufEnd buf = .ok r) :
    ∃ decls, Spans code Binary.importSection buf bufEnd decls ∧ r.importCount = decls.length ∧ (∀ k, r.counts k = (ofKind k decls).length) ∧
      Numbered r.nodes ∧ (∀ k j d, (ofKind k decls)[j]? = some d → ∃ imp, r.imports (base r.counts k + j) = some imp ∧ Stands env r.nodes d imp) ∧
      Lockstep env code bufEnd buf r.importCount r.counts := by
  simp only [loadImportSection, bind_ok_iff, return_ok_iff] at h
  obtain ⟨nodes, hnodes, ⟨count, p⟩, hcount, _, -, ⟨counts, q⟩, hscan, ⟨s, q'⟩, hload, _, hend, rfl⟩ := h
  obtain rfl : q' = bufEnd := not_not.1 (failIf_ok.1 hend)
  have hnum := numbered_builtinNames hnodes
  obtain ⟨decls, hdecls, hcounts⟩ := scanImports_spans hscan
  obtain ⟨decls', hdecls', hfilled⟩ := loadImports_spans counts [] hnum hload
  have htimes := Binary.unambiguous_importDecl.times
  obtain ⟨rfl, rfl⟩ := hdecls.unique (htimes count) hdecls'
  have hlen : decls.length = count := by
    obtain ⟨bs, hbs, -⟩ := hdecls
    exact Grammar.length_of_times hbs
  simp only [Nat.zero_add] at hcounts
  have hfilled := hfilled (filled_importState hnum) fun k => Nat.le_of_eq (hcounts k).symm
  refine ⟨decls, (Spans.u32 hcount).bind hdecls, hlen.symm, hcounts, hfilled.numbered, hfilled.slots, nodes, p, hnodes, hcount, fun i hi => ?_⟩
  obtain ⟨c, q₁, hc⟩ := scanImports_take hscan hi
  obtain ⟨s₁, q₂, hs⟩ := loadImports_take hload hi
  obtain ⟨ds, hds, -⟩ := scanImports_spans hc
  obtain ⟨ds', hds', -⟩ := loadImports_spans counts [] hnum hs
  obtain ⟨rfl, -⟩ := hds.unique (htimes i) hds'
  refine ⟨c, s₁, q₁, hc, hs, ?_⟩
  rintro rfl
  rw [hload] at hs
  exact (Prod.mk.inj (Except.ok.inj hs)).2.symm

theorem mem_ofKind {d : ImportDecl} (h : d ∈ decls) : ∃ j : Nat, (ofKind d.desc.kind decls)[j]? = some d :=
  List.mem_iff_getElem?.1 (List.mem_filter.2 ⟨h, decide_eq_true rfl⟩)

theorem Partitioned.kept (h : loadImportSection env code bufEnd buf = .ok r) (hpart : Partitioned env code bufEnd buf r decls) : ∀ d ∈ decls, d.Kept env := by
  intro d hd
  obtain ⟨decls', hspans, -, -, hnum, hslots, -⟩ := loadImportSection_spans h
  obtain ⟨-, rfl⟩ := hspans.unique Binary.unambiguous_importSection hpart.format
  obtain ⟨j, hj⟩ := mem_ofKind hd
  obtain ⟨imp, himp, hdeclares⟩ := hpart.slots _ j d hj
  obtain ⟨imp', himp', hstands⟩ := hslots _ j d hj
  rw [himp] at himp'
  cases himp'
  exact (hstands.declares_iff hnum).1 hdeclares

theorem importSection_partitioned_iff (env : ImportEnv) (code : Code) (bufEnd buf : Nat) :
    (∀ r, loadImportSection env code bufEnd buf = .ok r → ∃ decls, Partitioned env code bufEnd buf r decls) ↔
      ∀ r decls, loadImportSection env code bufEnd buf = .ok r → Spans code Binary.importSection buf bufEnd decls → ∀ d ∈ decls, d.Kept env := by
  constructor
  · intro h r decls hok hspans
    obtain ⟨decls', hpart⟩ := h r hok
    obtain ⟨-, rfl⟩ := hspans.unique Binary.unambiguous_importSection hpart.format
    exact hpart.kept hok
  intro h r hok
  obtain ⟨decls, hspans, hcount, hcounts, hnum, hslots, hlock⟩ := loadImportSection_spans hok
  refine ⟨decls, hspans, hcount, hcounts, ?_, fun k j d hj => ?_, hlock⟩
  · simp only [base, hcounts, hcount]
    exact length_ofKind decls
  · obtain ⟨imp, himp, hstands⟩ := hslots k j d hj
    have hmem : d ∈ decls := (List.mem_filter.1 (List.mem_of_getElem? hj)).1
    exact ⟨imp, himp, (hstands.declares_iff hnum).2 (h r decls hok hspans d hmem)⟩

end Section

/-- A runtime without native symbols, with memory for everything. -/
def plainEnv : ImportEnv where
  types := []
  before := []
  refTypes := none
  maxPageCount := 16384
  resolveSymbol _ _ _ := none
  builtinGlobal _ _ := none
  importsAlloc := true
  strAlloc _ := true

/-- A global of a module whose name has a byte 0 at its end. -/
def zeroName : Code := codeOf [1, 2, 0x61, 0, 1, 0x62, 3, 0x7F, 0]

theorem zeroName_spans : Spans zeroName Binary.importSection 0 9 [⟨[0x61, 0], [0x62], .global 0x7F 0⟩] := by
  have hcount : Spans zeroName Binary.u32 0 1 1 := .u32 (rfl : readLebUint32 zeroName 9 0 = .ok (1, 1))
  have hmodule : Spans zeroName Binary.name 1 4 [0x61, 0] := (Spans.u32 (rfl : readLebUint32 zeroName 9 1 = .ok (2, 2))).bind (.bytes 2 2)
  have hfield : Spans zeroName Binary.name 4 6 [0x62] := (Spans.u32 (rfl : readLebUint32 zeroName 9 4 = .ok (1, 5))).bind (.bytes 5 1)
  have hdecl : Spans zeroName Binary.importDecl 1 9 ⟨[0x61, 0], [0x62], .global 0x7F 0⟩ := .importDecl hmodule hfield rfl (.global 7)
  exact hcount.bind (hdecl.bind ((Spans.pure [] 9).bind (.pure _ _)))

theorem zeroName_not_partitioned :
    ¬ ∀ r, loadImportSection plainEnv zeroName 9 0 = .ok r → ∃ decls, Partitioned plainEnv zeroName 9 0 r decls := by
  intro h
  have hok : (loadImportSection plainEnv zeroName 9 0).isOk = true := by decide +kernel
  cases hr : loadImportSection plainEnv zeroName 9 0 with
  | error e =>
    rw [hr] at hok
    cases hok
  | ok r =>
    obtain ⟨decls, hpart⟩ := h r hr
    obtain ⟨-, rfl⟩ := hpart.format.unique Binary.unambiguous_importSection zeroName_spans
    exact (hpart.kept hr _ List.mem_cons_self).moduleName.1 (by decide)

end WamrMigrate.Loader
