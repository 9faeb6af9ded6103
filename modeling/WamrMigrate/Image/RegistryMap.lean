import WamrMigrate.Image.Nodes
import WamrMigrate.Image.Resolve

/-!
# The registry as a map

What a sequence of calls has registered at an address can be said without the nodes: the last call that registered it counts, unless its entry was
freed since. The lists of nodes implement that map, for every sequence of calls that registers no address twice: `get_raw` looks addresses up, and
`free_info` takes an entry out with its elements.
-/

namespace WamrMigrate.Image

/-! ## The calls -/

/-- A call on the registry. -/
inductive Call where
  | allocInfo (addr : Nat) (type : DataType)
  | allocInfoBuf (addr : Nat) (type : DataType) (bufSize : Nat)
  | allocInfoEx (addr : Nat) (type : DataType) (size : Nat)
  | allocInfos (addr : Nat) (type : DataType) (size : Nat)
  | freeInfo (addr : Nat)
  deriving DecidableEq

namespace Nodes

variable (N : Nodes)

/-- A new node with these fields at the head of `root_info`. The process ends for a NULL address. -/
def register (addr : Nat) (type : DataType) (size : Nat) (list : List Elem) : Except Fault Nodes :=
  if addr = 0 then .error .exit else .ok (N.add ⟨absOf N.pool addr, addr, UInt32.ofNat size, type, list, 0⟩)

/-- Carry out a call. -/
def call (L : Layout) : Call → Except Fault Nodes
  | .allocInfo addr type => N.register addr type 1 []
  | .allocInfoBuf addr type bufSize => N.register addr type bufSize []
  | .allocInfoEx addr type size => N.register addr type size []
  | .allocInfos addr type size => N.register addr type size (if hasCaseInfos type then caseInfos L N.pool addr type size else [])
  | .freeInfo addr => N.freeInfo addr

/-- `get_raw`: NULL for NULL, else the first node with the address, where each entry is followed by its elements. The process ends when there is
none. -/
def getRaw (addr : Nat) : Except Fault (Option PoolInfo) :=
  if addr = 0 then .ok none
  else
    match N.links.search (fun e => e.nodes.any (·.pRaw == addr)) N.rounds 0 N.rootInfo with
    | .error f => .error f
    | .ok (some (_, _, n)) => .ok (n.val.nodes.find? (·.pRaw == addr))
    | .ok none => .error .exit

/-- The registry at the start. -/
def empty (pool : Nat) : Nodes := ⟨pool, fun _ => none, 0, 0, 0⟩

end Nodes

/-! ## The map -/

/-- What is registered at an address: the address of the entry that it belongs to, and type and size as the node has them. -/
structure Registration where
  entry : Nat
  type : DataType
  size : UInt32
  deriving DecidableEq

/-- What a call registers at an address. An array of objects has its elements registered, with the size -1. -/
def Call.registers (L : Layout) (a : Nat) : Call → Option Registration
  | .allocInfo addr type => if a = addr then some ⟨addr, type, 1⟩ else none
  | .allocInfoBuf addr type bufSize => if a = addr then some ⟨addr, type, UInt32.ofNat bufSize⟩ else none
  | .allocInfoEx addr type size => if a = addr then some ⟨addr, type, UInt32.ofNat size⟩ else none
  | .allocInfos addr type size =>
    if a = addr then some ⟨addr, type, UInt32.ofNat size⟩
    else if hasCaseInfos type ∧ ∃ i < size, 0 < i ∧ a = addr + i * L.size type then some ⟨addr, type, 0xFFFFFFFF⟩
    else none
  | .freeInfo _ => none

/-- What was last registered at an address and not freed since. The last call comes first. -/
def lastAt (L : Layout) : List Call → Nat → Option Registration
  | [], _ => none
  | c :: cs, a => (c.registers L a).or ((lastAt L cs a).filter fun r => c ≠ .freeInfo r.entry)

/-- The calls of a process, the last one first, and the registry behind them. No call registers an address that is registered. -/
inductive Calls (L : Layout) (pool : Nat) : List Call → Nodes → Prop
  | nil : Calls L pool [] (.empty pool)
  | cons {cs : List Call} {c : Call} {N N' : Nodes} (calls : Calls L pool cs N)
      (fresh : ∀ a, c.registers L a ≠ none → lastAt L cs a = none) (done : N.call L c = .ok N') : Calls L pool (c :: cs) N'

/-- The registry has the entries `es`, and does what a map with the values `live` does. -/
structure IsMap (pool : Nat) (live : Nat → Option Registration) (N : Nodes) (es : List PoolInfo) : Prop where
  infos : N.infos = .ok es
  null : N.getRaw 0 = .ok none
  found : ∀ a r, live a = some r → ∃ n, N.getRaw a = .ok (some n) ∧ n.pRaw = a ∧ n.type = r.type ∧ n.size = r.size ∧
    ∃ e ∈ es, n ∈ e.nodes ∧ e.pRaw = r.entry
  missing : ∀ a, a ≠ 0 → live a = none → N.getRaw a = .error .exit
  removed : ∀ a r, live a = some r → r.entry = a → ∃ N' as e bs, es = as ++ e :: bs ∧ e.pRaw = a ∧ N.freeInfo a = .ok N' ∧
    N'.infos = .ok (as ++ bs) ∧ ∀ x ∈ as ++ bs, x.pRaw ≠ a
  refused : ∀ a, (∀ r, live a = some r → r.entry ≠ a) → N.freeInfo a = .error .exit
  offsets : ∀ poolSize < 2 ^ 31, (∀ a, live a ≠ none → pool ≤ a ∧ a < pool + poolSize) → ∀ a b n n',
    N.getRaw a = .ok (some n) → N.getRaw b = .ok (some n') → n.pAbs ≠ 0xFFFFFFFF ∧ (a ≠ b → n.pAbs ≠ n'.pAbs)

/-! ## What the entries say -/

section

variable {L : Layout} {pool a : Nat} {cs : List Call} {c : Call} {N N' : Nodes} {e : PoolInfo} {as bs es : List PoolInfo} {r : Registration}

/-- The addresses of the nodes of an entry. -/
def PoolInfo.addrs (e : PoolInfo) : List Nat := e.pRaw :: e.list.map Elem.pRaw

/-- What an entry says of an address. -/
def PoolInfo.describes (e : PoolInfo) (a : Nat) : Option Registration :=
  (e.nodes.find? (·.pRaw == a)).map fun n => ⟨e.pRaw, n.type, n.size⟩

/-- What the entries say of an address. -/
def described (es : List PoolInfo) (a : Nat) : Option Registration := es.findSome? (·.describes a)

theorem mem_elemNodes {t : DataType} {xs : List Elem} {n : PoolInfo} (h : n ∈ elemNodes t xs) :
    n.type = t ∧ n.size = 0xFFFFFFFF ∧ ∃ x ∈ xs, n.pRaw = x.pRaw ∧ n.pAbs = x.pAbs := by
  induction xs with
  | nil => cases h
  | cons x xs ih =>
    rcases List.mem_cons.1 h with rfl | h
    · exact ⟨rfl, rfl, x, List.mem_cons_self, rfl, rfl⟩
    · obtain ⟨htype, hsize, y, hy, hraw⟩ := ih h
      exact ⟨htype, hsize, y, List.mem_cons_of_mem x hy, hraw⟩

theorem map_pRaw_elemNodes (t : DataType) (xs : List Elem) : (elemNodes t xs).map PoolInfo.pRaw = xs.map Elem.pRaw := by
  induction xs with
  | nil => rfl
  | cons x xs ih => rw [elemNodes, List.map_cons, ih, List.map_cons]

theorem map_pRaw_nodes (e : PoolInfo) : e.nodes.map PoolInfo.pRaw = e.addrs := by
  rw [PoolInfo.nodes, List.map_cons, map_pRaw_elemNodes, PoolInfo.addrs]

theorem describes_eq_none : e.describes a = none ↔ a ∉ e.addrs := by
  rw [PoolInfo.describes, Option.map_eq_none_iff, List.find?_eq_none, ← map_pRaw_nodes]
  simp

theorem describes_eq_some (h : e.describes a = some r) : ∃ n, e.nodes.find? (·.pRaw == a) = some n ∧ n ∈ e.nodes ∧ n.pRaw = a ∧
    r = ⟨e.pRaw, n.type, n.size⟩ := by
  obtain ⟨n, hn, rfl⟩ := Option.map_eq_some_iff.1 h
  exact ⟨n, hn, List.mem_of_find?_eq_some hn, by simpa using List.find?_some hn, rfl⟩

theorem describes_eq (e : PoolInfo) (a : Nat) : e.describes a = if a = e.pRaw then some ⟨e.pRaw, e.type, e.size⟩
    else if a ∈ e.list.map Elem.pRaw then some ⟨e.pRaw, e.type, 0xFFFFFFFF⟩ else none := by
  by_cases ha : a = e.pRaw
  · rw [if_pos ha, PoolInfo.describes, PoolInfo.nodes, List.find?_cons_of_pos (by simp [ha])]
    rfl
  rw [if_neg ha]
  by_cases hx : a ∈ e.list.map Elem.pRaw
  · rw [if_pos hx]
    have hne : e.describes a ≠ none := fun hnone => describes_eq_none.1 hnone (List.mem_cons_of_mem _ hx)
    obtain ⟨r, hr⟩ := Option.ne_none_iff_exists'.1 hne
    obtain ⟨n, -, hmem, hraw, rfl⟩ := describes_eq_some hr
    rcases List.mem_cons.1 hmem with rfl | hmem
    · exact absurd hraw.symm ha
    · obtain ⟨htype, hsize, -⟩ := mem_elemNodes hmem
      rw [hr, htype, hsize]
  · rw [if_neg hx, describes_eq_none]
    exact List.not_mem_cons_of_ne_of_not_mem ha hx

theorem described_cons (e : PoolInfo) (es : List PoolInfo) (a : Nat) : described (e :: es) a = (e.describes a).or (described es a) := by
  rw [described, List.findSome?_cons]
  cases e.describes a <;> rfl

theorem described_append (as bs : List PoolInfo) (a : Nat) : described (as ++ bs) a = (described as a).or (described bs a) := by
  rw [described, List.findSome?_append]
  rfl

theorem described_eq_some (h : described es a = some r) : ∃ e ∈ es, e.describes a = some r := List.exists_of_findSome?_eq_some h

theorem described_eq_none : described es a = none ↔ a ∉ es.flatMap PoolInfo.addrs := by
  rw [described, List.findSome?_eq_none_iff, List.mem_flatMap, not_exists]
  exact forall_congr' fun e => by rw [not_and, describes_eq_none]

theorem entry_of_describes (h : e.describes a = some r) : r.entry = e.pRaw := by
  obtain ⟨n, -, -, -, rfl⟩ := describes_eq_some h
  rfl

theorem filter_of_ne {o : Option Registration} {b : Nat} (h : ∀ r, o = some r → r.entry ≠ b) :
    o.filter (fun r => decide (Call.freeInfo b ≠ .freeInfo r.entry)) = o := by
  cases o with
  | none => rfl
  | some r => simpa [Option.filter] using (h r rfl).symm

theorem apart_of_nodup (h : ((as ++ e :: bs).flatMap PoolInfo.addrs).Nodup) : ∀ x ∈ as ++ bs, ∀ b ∈ x.addrs, b ∉ e.addrs := by
  intro x hx b hb hbe
  rw [List.flatMap_append, List.flatMap_cons, List.nodup_append] at h
  obtain ⟨-, htail, has⟩ := h
  rcases List.mem_append.1 hx with hx | hx
  · exact has b (List.mem_flatMap.2 ⟨x, hx, hb⟩) b (List.mem_append_left _ hbe) rfl
  · exact (List.nodup_append.1 htail).2.2 b hbe b (List.mem_flatMap.2 ⟨x, hx, hb⟩) rfl

/-- Without an entry the others say what they said, and what it said is gone. -/
theorem described_remove (hnodup : ((as ++ e :: bs).flatMap PoolInfo.addrs).Nodup) (a : Nat) :
    described (as ++ bs) a = (described (as ++ e :: bs) a).filter fun r => decide (Call.freeInfo e.pRaw ≠ .freeInfo r.entry) := by
  have hapart := apart_of_nodup hnodup
  by_cases ha : a ∈ e.addrs
  · have hothers : described (as ++ bs) a = none := by
      rw [described_eq_none, List.mem_flatMap]
      rintro ⟨x, hx, hax⟩
      exact hapart x hx a hax ha
    rw [hothers]
    rw [described_append, Option.or_eq_none_iff] at hothers
    rw [described_append, described_cons, hothers.1, hothers.2, Option.none_or, Option.or_none]
    cases hr : e.describes a with
    | none => rfl
    | some r => simp [Option.filter, entry_of_describes hr]
  have hsame : described (as ++ e :: bs) a = described (as ++ bs) a := by
    rw [described_append, described_cons, describes_eq_none.2 ha, Option.none_or, described_append]
  rw [hsame, filter_of_ne]
  intro r hr hentry
  obtain ⟨x, hx, hdesc⟩ := described_eq_some hr
  rw [entry_of_describes hdesc] at hentry
  exact hapart x hx x.pRaw List.mem_cons_self (hentry ▸ List.mem_cons_self)

/-! ## Runs -/

/-- What holds behind every sequence of calls: the registry has the entries `es`, with addresses of their own, which say of every address what
was registered there last. -/
structure Implements (L : Layout) (pool : Nat) (cs : List Call) (N : Nodes) (es : List PoolInfo) : Prop where
  holds : Holds N es
  frames : N.rootFrame = 0
  pool_eq : N.pool = pool
  nodup : (es.flatMap PoolInfo.addrs).Nodup
  ne_null : ∀ e ∈ es, ∀ a ∈ e.addrs, a ≠ 0
  abs : ∀ e ∈ es, ∀ n ∈ e.nodes, n.pAbs = absOf pool n.pRaw
  last : ∀ a, lastAt L cs a = described es a

theorem implements_empty (L : Layout) (pool : Nat) : Implements L pool [] (.empty pool) [] where
  holds := ⟨[], .nil, rfl, List.nodup_nil, nofun⟩
  frames := rfl
  pool_eq := rfl
  nodup := List.nodup_nil
  ne_null := nofun
  abs := nofun
  last _ := rfl

theorem Implements.register (h : Implements L pool cs N es) {addr size : Nat} {type : DataType} {list : List Elem}
    (hlist : ∀ x ∈ list, x.pAbs = absOf pool x.pRaw ∧ addr < x.pRaw) (hnodup : (addr :: list.map Elem.pRaw).Nodup)
    (hc : ∀ a, c.registers L a = PoolInfo.describes ⟨absOf pool addr, addr, UInt32.ofNat size, type, list, 0⟩ a)
    (hfree : ∀ b, c ≠ .freeInfo b) (fresh : ∀ a, c.registers L a ≠ none → lastAt L cs a = none)
    (done : N.register addr type size list = .ok N') : ∃ es', Implements L pool (c :: cs) N' es' := by
  unfold Nodes.register at done
  split at done
  · cases done
  next hne =>
  cases done
  rw [h.pool_eq]
  refine ⟨_, h.holds.add _, h.frames, h.pool_eq, ?_, List.forall_mem_cons.2 ⟨?_, h.ne_null⟩, List.forall_mem_cons.2 ⟨?_, h.abs⟩, ?_⟩
  · refine List.nodup_append.2 ⟨hnodup, h.nodup, fun a ha b hb hab => ?_⟩
    subst hab
    have hnone : lastAt L cs a = none := fresh a fun hnone => describes_eq_none.1 (hc a ▸ hnone) ha
    rw [h.last, described_eq_none] at hnone
    exact hnone hb
  · intro a ha
    rcases List.mem_cons.1 ha with rfl | ha
    · exact hne
    · obtain ⟨x, hx, rfl⟩ := List.mem_map.1 ha
      exact Nat.ne_of_gt (Nat.zero_lt_of_lt (hlist x hx).2)
  · intro n hn
    rcases List.mem_cons.1 hn with rfl | hn
    · rfl
    · obtain ⟨-, -, x, hx, hraw, habs⟩ := mem_elemNodes hn
      rw [habs, hraw, (hlist x hx).1]
  intro a
  have hkeep : (lastAt L cs a).filter (fun r => decide (c ≠ .freeInfo r.entry)) = lastAt L cs a := by
    cases lastAt L cs a with
    | none => rfl
    | some r => simp [Option.filter, hfree]
  rw [lastAt, hkeep, hc, h.last, described_cons]

theorem Implements.free (h : Implements L pool cs N es) {addr : Nat} (hany : es.any (·.pRaw == addr) = true) :
    ∃ N' as e bs, N.freeInfo addr = .ok N' ∧ es = as ++ e :: bs ∧ e.pRaw = addr ∧ Implements L pool (.freeInfo addr :: cs) N' (as ++ bs) := by
  obtain ⟨N', hfree, hholds, hpool, hframes⟩ := h.holds.freeInfo hany
  obtain ⟨as, e, bs, rfl, -, haddr, herase⟩ := exists_first hany
  obtain rfl : e.pRaw = addr := by simpa using haddr
  rw [herase] at hholds
  have hsub : (as ++ bs).Sublist (as ++ e :: bs) := List.Sublist.append (List.Sublist.refl as) (List.sublist_cons_self e bs)
  refine ⟨N', as, e, bs, hfree, rfl, rfl, hholds, hframes.trans h.frames, hpool.trans h.pool_eq, h.nodup.sublist (hsub.flatMap _),
    fun x hx => h.ne_null x (hsub.subset hx), fun x hx => h.abs x (hsub.subset hx), fun a => ?_⟩
  rw [lastAt, h.last, described_remove h.nodup]
  rfl

theorem Implements.free_exit (h : Implements L pool cs N es) {addr : Nat} (hany : es.any (·.pRaw == addr) = false) :
    N.freeInfo addr = .error .exit := by
  obtain ⟨xs, hs, rfl, hn, hm⟩ := h.holds
  have hnone : ∀ x ∈ xs, (x.2.pRaw == addr) = false := by
    intro x hx
    rw [List.any_eq_false] at hany
    simpa using hany x.2 (List.mem_map_of_mem hx)
  have hsearch : N.links.search (·.pRaw == addr) N.rounds 0 N.rootInfo = .ok none := hs.search_none hnone (length_lt_rounds hn hm)
  have hframes : N.links.search (·.pRaw == addr) N.rounds 0 N.rootFrame = .ok none := by
    rw [h.frames]
    unfold Links.search
    rw [if_pos rfl]
  rw [Nodes.freeInfo, hsearch, hframes]

theorem mem_map_caseInfos {addr n : Nat} {t : DataType} :
    a ∈ (caseInfos L pool addr t n).map Elem.pRaw ↔ ∃ i < n, 0 < i ∧ a = addr + i * L.size t := by
  constructor
  · intro h
    obtain ⟨x, hx, rfl⟩ := List.mem_map.1 h
    obtain ⟨i, hi, -, hraw⟩ := mem_caseInfos hx
    exact ⟨i + 1, by omega, Nat.succ_pos i, hraw⟩
  · rintro ⟨i, hi, hpos, rfl⟩
    obtain ⟨k, rfl⟩ : ∃ k, i = k + 1 := ⟨i - 1, by omega⟩
    exact List.mem_map.2 ⟨_, List.mem_map_of_mem (List.mem_range.2 (show k < n - 1 by omega)), rfl⟩

theorem Implements.call (h : Implements L pool cs N es) (fresh : ∀ a, c.registers L a ≠ none → lastAt L cs a = none)
    (done : N.call L c = .ok N') : ∃ es', Implements L pool (c :: cs) N' es' := by
  -- an entry without elements
  have hone : ∀ {addr size : Nat} {type : DataType},
      (∀ a, c.registers L a = if a = addr then some ⟨addr, type, UInt32.ofNat size⟩ else none) → (∀ b, c ≠ .freeInfo b) →
      N.register addr type size [] = .ok N' → ∃ es', Implements L pool (c :: cs) N' es' := by
    intro addr size type hc hfree hdone
    refine h.register ?_ ?_ ?_ hfree fresh hdone
    · nofun
    · exact List.nodup_singleton addr
    · intro a
      rw [hc, describes_eq]
      rfl
  cases c with
  | allocInfo addr type | allocInfoBuf addr type bufSize | allocInfoEx addr type size => exact hone (fun a => rfl) nofun done
  | allocInfos addr type size =>
    by_cases hcase : hasCaseInfos type
    · rw [Nodes.call, if_pos hcase, h.pool_eq] at done
      refine h.register (fun x hx => ?_) (caseInfos_nodup L pool addr type size) (fun a => ?_) nofun fresh done
      · obtain ⟨i, -, habs, hraw⟩ := mem_caseInfos hx
        rw [hraw]
        exact ⟨hraw ▸ habs, Nat.lt_add_of_pos_right (Nat.mul_pos (Nat.succ_pos i) (L.pos type))⟩
      · rw [describes_eq]
        simp only [Call.registers, hcase, true_and, mem_map_caseInfos]
    · rw [Nodes.call, if_neg hcase] at done
      refine hone (fun a => ?_) nofun done
      simp only [Call.registers, hcase, Bool.false_eq_true, false_and, if_false]
  | freeInfo addr =>
    by_cases hany : es.any (·.pRaw == addr) = true
    · obtain ⟨N'', as, e, bs, hfree, -, -, himp⟩ := h.free hany
      cases hfree.symm.trans done
      exact ⟨_, himp⟩
    · cases (h.free_exit (Bool.eq_false_iff.2 hany)).symm.trans done

theorem Calls.implements (h : Calls L pool cs N) : ∃ es, Implements L pool cs N es := by
  induction h with
  | nil => exact ⟨[], implements_empty L pool⟩
  | cons _ fresh done ih =>
    obtain ⟨es, hes⟩ := ih
    exact hes.call fresh done

theorem Implements.getRaw (h : Implements L pool cs N es) (ha : a ≠ 0) : (described es a = none → N.getRaw a = .error .exit) ∧
      ∀ r, described es a = some r → ∃ e ∈ es, ∃ n ∈ e.nodes, N.getRaw a = .ok (some n) ∧ n.pRaw = a ∧ r = ⟨e.pRaw, n.type, n.size⟩ := by
  obtain ⟨xs, hs, rfl, hn, hm⟩ := h.holds
  have hfound : ∀ e : PoolInfo, e.nodes.any (·.pRaw == a) = (e.describes a).isSome := by
    intro e
    rw [Bool.eq_iff_iff, PoolInfo.describes, Option.isSome_map, List.find?_isSome, List.any_eq_true]
  refine ⟨fun hnone => ?_, fun r hr => ?_⟩
  · have hsearch : N.links.search (fun e => e.nodes.any (·.pRaw == a)) N.rounds 0 N.rootInfo = .ok none := by
      refine hs.search_none (fun x hx => ?_) (length_lt_rounds hn hm)
      rw [hfound, List.findSome?_eq_none_iff.1 hnone x.2 (List.mem_map_of_mem hx)]
      rfl
    rw [Nodes.getRaw, if_neg ha, hsearch]
  obtain ⟨as, e, bs, hsplit, hdesc, hbefore⟩ := List.findSome?_eq_some_iff.1 hr
  obtain ⟨ys, ws, rfl, rfl, hws⟩ := List.map_eq_append_iff.1 hsplit
  obtain ⟨⟨i, v⟩, zs, rfl, rfl, rfl⟩ := List.map_eq_cons_iff.1 hws
  have hlen := length_lt_rounds hn hm
  have hlt : ys.length < N.rounds := by
    rw [List.length_append] at hlen
    omega
  have hbefore' : ∀ x ∈ ys, x.2.nodes.any (·.pRaw == a) = false := by
    intro x hx
    rw [hfound, hbefore x.2 (List.mem_map_of_mem hx)]
    rfl
  have hv : v.nodes.any (·.pRaw == a) = true := by
    rw [hfound, hdesc]
    rfl
  obtain ⟨next, hsearch, -⟩ : ∃ next, N.links.search (fun e => e.nodes.any (·.pRaw == a)) N.rounds 0 N.rootInfo =
      .ok (some (lastId 0 ys, i, ⟨v, next⟩)) ∧ Seg N.links next zs 0 := hs.search hbefore' hv hlt
  obtain ⟨n, hfind, hmem, hraw, rfl⟩ := describes_eq_some hdesc
  refine ⟨v, List.mem_map_of_mem (List.mem_append_right _ List.mem_cons_self), n, hmem, ?_, hraw, rfl⟩
  rw [Nodes.getRaw, if_neg ha, hsearch]
  exact congrArg Except.ok hfind

theorem Implements.entry (h : Implements L pool cs N es) (hany : es.any (·.pRaw == a) = true) : ∃ r, lastAt L cs a = some r ∧ r.entry = a := by
  obtain ⟨as, e, bs, rfl, -, haddr, -⟩ := exists_first hany
  obtain rfl : e.pRaw = a := by simpa using haddr
  have hbefore : described as e.pRaw = none := by
    rw [described_eq_none, List.mem_flatMap]
    rintro ⟨x, hx, hmem⟩
    exact apart_of_nodup h.nodup x (List.mem_append_left bs hx) e.pRaw hmem List.mem_cons_self
  refine ⟨⟨e.pRaw, e.type, e.size⟩, ?_, rfl⟩
  rw [h.last, described_append, hbefore, Option.none_or, described_cons, describes_eq, if_pos rfl, Option.some_or]

theorem Implements.getRaw_found (h : Implements L pool cs N es) {n : PoolInfo} (hget : N.getRaw a = .ok (some n)) :
    lastAt L cs a ≠ none ∧ n.pAbs = absOf pool a := by
  have ha : a ≠ 0 := by
    rintro rfl
    cases hget
  obtain ⟨hexit, hfound⟩ := h.getRaw ha
  cases hr : described es a with
  | none => cases (hexit hr).symm.trans hget
  | some r =>
    obtain ⟨e, he, n', hn', hget', rfl, -⟩ := hfound r hr
    cases hget'.symm.trans hget
    rw [h.last, hr]
    exact ⟨nofun, h.abs e he n hn'⟩

/-- For every sequence of calls that registers no address twice, the registry is a map from addresses to what was registered there last and not
freed since. -/
theorem registry_isMap (h : Calls L pool cs N) : ∃ es, IsMap pool (lastAt L cs) N es := by
  obtain ⟨es, hes⟩ := h.implements
  have hne : ∀ a r, lastAt L cs a = some r → a ≠ 0 := by
    rintro a r hr rfl
    obtain ⟨e, he, hdesc⟩ := described_eq_some (hes.last 0 ▸ hr)
    have hmem : 0 ∈ e.addrs := by
      by_contra hnot
      cases (describes_eq_none.2 hnot).symm.trans hdesc
    exact hes.ne_null e he 0 hmem rfl
  refine ⟨es, hes.holds.infos, rfl, fun a r hr => ?_, fun a ha hnone => (hes.getRaw ha).1 (hes.last a ▸ hnone), fun a r hr hentry => ?_,
    fun a hnone => hes.free_exit ?_, fun poolSize hsize hpool a b n n' hn hn' => ?_⟩
  · obtain ⟨e, he, n, hn, hget, hraw, rfl⟩ := (hes.getRaw (hne a r hr)).2 r (hes.last a ▸ hr)
    exact ⟨n, hget, hraw, rfl, rfl, e, he, hn, rfl⟩
  · obtain ⟨e, he, hdesc⟩ := described_eq_some (hes.last a ▸ hr)
    rw [entry_of_describes hdesc] at hentry
    have hany : es.any (·.pRaw == a) = true := List.any_eq_true.2 ⟨e, he, by simp [hentry]⟩
    obtain ⟨N', as, x, bs, hfree, rfl, rfl, himp⟩ := hes.free hany
    refine ⟨N', as, x, bs, rfl, rfl, hfree, himp.holds.infos, fun y hy hyx => ?_⟩
    exact apart_of_nodup hes.nodup y hy y.pRaw List.mem_cons_self (hyx ▸ List.mem_cons_self)
  · rw [Bool.eq_false_iff]
    intro hany
    obtain ⟨r, hr, hentry⟩ := hes.entry hany
    exact hnone r hr hentry
  obtain ⟨hlive, habs⟩ := hes.getRaw_found hn
  obtain ⟨hlive', habs'⟩ := hes.getRaw_found hn'
  have hin : ∀ c, lastAt L cs c ≠ none → pool ≤ c ∧ c < pool + 2 ^ 31 := by
    intro c hc
    have := hpool c hc
    omega
  rw [habs, habs']
  refine ⟨fun hminus => ?_, fun hab heq => hab (absOf_inj (hin a hlive) (hin b hlive') heq)⟩
  have hnat := congrArg UInt32.toNat hminus
  rw [toNat_absOf (hin a hlive)] at hnat
  have hlt := hin a hlive
  have hmax : (0xFFFFFFFF : UInt32).toNat = 4294967295 := rfl
  omega

/-- An array of three objects, and a string that was freed. -/
theorem array_isMap : ∃ N es, Calls layout8 4096 [.freeInfo 8192, .allocInfos 12288 .wasmGlobalT 3, .allocInfoBuf 8192 .charT 5] N ∧
    IsMap 4096 (lastAt layout8 [.freeInfo 8192, .allocInfos 12288 .wasmGlobalT 3, .allocInfoBuf 8192 .charT 5]) N es ∧
    lastAt layout8 [.freeInfo 8192, .allocInfos 12288 .wasmGlobalT 3, .allocInfoBuf 8192 .charT 5] 12304 =
      some ⟨12288, .wasmGlobalT, 0xFFFFFFFF⟩ := by
  have hcalls : ∃ N, Calls layout8 4096 [.freeInfo 8192, .allocInfos 12288 .wasmGlobalT 3, .allocInfoBuf 8192 .charT 5] N := by
    refine ⟨_, .cons (.cons (.cons .nil (fun a ha => rfl) rfl) (fun a ha => ?_) rfl) (fun a ha => absurd rfl ha) rfl⟩
    by_cases h : a = 8192
    · subst h
      exact absurd (by decide) ha
    · simp [lastAt, Call.registers, h]
  obtain ⟨N, hN⟩ := hcalls
  obtain ⟨es, hes⟩ := registry_isMap hN
  exact ⟨N, es, hN, hes, by decide⟩

end

end WamrMigrate.Image
