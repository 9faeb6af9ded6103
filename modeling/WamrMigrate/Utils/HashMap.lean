import WamrMigrate.Lib.Links

/-!
# The hash map of the utilities

A map has a fixed number of buckets, each with a chain of nodes, and new nodes come first. With an equality of keys that is an equivalence and that
the hash respects, the chains hold each key at most once, in the bucket of its hash, and the calls are those of a finite map. A traversal reads the
next node before it calls the callback, so a callback may remove the pair it is given.
-/

namespace WamrMigrate.Utils

/-- The functions that a map is made with. -/
structure KeyFuncs (K : Type) where
  hash : K → UInt32
  equal : K → K → Bool
  refl : ∀ a, equal a a = true
  symm : ∀ {a b}, equal a b = true → equal b a = true
  trans : ∀ {a b c}, equal a b = true → equal b c = true → equal a c = true
  hash_eq : ∀ {a b}, equal a b = true → hash a = hash b

theorem KeyFuncs.equal_comm {K : Type} (fns : KeyFuncs K) (a b : K) : fns.equal a b = fns.equal b a := Bool.eq_iff_iff.2 ⟨fns.symm, fns.symm⟩

/-- A map: the first node of each bucket, and the nodes. `allocated` is not in the source: it counts the nodes that were ever made and bounds the loops. -/
structure HashMap (K V : Type) where
  size : Nat
  elements : Nat → Nat
  heap : Links (K × V)
  allocated : Nat

namespace HashMap

variable {K V : Type}

/-! ## The calls -/

section Calls
variable (fns : KeyFuncs K)

/-- `HASH_MAP_MAX_SIZE` -/
def maxSize : Nat := 65536

/-- A block for a map of the largest size has less than `UINT32_MAX` bytes. `malloc` says whether there is memory. -/
def bhHashMapCreate (malloc : Bool) (size : Nat) : Option (HashMap K V) :=
  if size > maxSize then none
  else if malloc then some { size, elements := fun _ => 0, heap := fun _ => none, allocated := 0 }
  else none

def index (map : HashMap K V) (key : K) : Nat := (fns.hash key).toNat % map.size

/-- The loop over the chain of a key, with the node before the one that it finds. -/
def search (map : HashMap K V) (key : K) : Except Fault (Option (Nat × Nat × Link (K × V))) :=
  map.heap.search (fun elem => fns.equal elem.1 key) (map.allocated + 1) (map.elements (map.index fns key)) (map.elements (map.index fns key))

/-- A key may be NULL. `node` is the block that the allocator gives; it is not in use, or the allocator gives none. -/
def bhHashMapInsert (map : HashMap K V) (key : Option K) (value : V) (node : Nat) : Except Fault (Bool × HashMap K V) :=
  match key with
  | none => .ok (false, map)
  | some key =>
    (map.search fns key).bind fun
      | some _ => .ok (false, map)
      | none =>
        if node = 0 ∨ (map.heap node).isSome then .ok (false, map)
        else
          let index := map.index fns key
          .ok (true, { map with
            heap := Function.update map.heap node (some ⟨(key, value), map.elements index⟩)
            elements := Function.update map.elements index node
            allocated := map.allocated + 1 })

/-- The default value stands for NULL. -/
def bhHashMapFind [Inhabited V] (map : HashMap K V) (key : Option K) : Except Fault V :=
  match key with
  | none => .ok default
  | some key => (map.search fns key).map fun found => found.elim default fun (_, _, elem) => elem.val.2

/-- It gives the old value if it returns true. -/
def bhHashMapUpdate (map : HashMap K V) (key : Option K) (value : V) : Except Fault (Option V × HashMap K V) :=
  match key with
  | none => .ok (none, map)
  | some key => (map.search fns key).map fun
    | some (_, elem, n) => (some n.val.2, { map with heap := Function.update map.heap elem (some ⟨(n.val.1, value), n.next⟩) })
    | none => (none, map)

/-- It gives the old key and value if it returns true. -/
def bhHashMapRemove (map : HashMap K V) (key : Option K) : Except Fault (Option (K × V) × HashMap K V) :=
  match key with
  | none => .ok (none, map)
  | some key => (map.search fns key).map fun
    | some (prev, elem, n) =>
      let index := map.index fns key
      if elem = map.elements index then
        (some n.val, { map with elements := Function.update map.elements index n.next, heap := map.heap.free elem })
      else (some n.val, { map with heap := (map.heap.setNext prev n.next).free elem })
    | none => (none, map)

/-- The loop over one chain, with the calls of the callback that were made. The callback may remove the pair it is given, depending on what it was given before. -/
def traverseChain (callback : List (K × V) → K × V → Bool) : Nat → Nat → List (K × V) → HashMap K V → Except Fault (List (K × V) × HashMap K V)
  | fuel, elem, calls, map =>
    if elem = 0 then .ok (calls, map)
    else
      match fuel with
      | 0 => .error .invalid
      | fuel + 1 =>
        match map.heap elem with
        | none => .error .invalid
        | some n =>
          (if callback calls n.val then (map.bhHashMapRemove fns (some n.val.1)).map Prod.snd else .ok map).bind fun map =>
            traverseChain callback fuel n.next (calls ++ [n.val]) map

/-- The loop over the buckets, with the number of those that are left. -/
def traverseBuckets (callback : List (K × V) → K × V → Bool) : Nat → Nat → List (K × V) → HashMap K V → Except Fault (List (K × V) × HashMap K V)
  | 0, _, calls, map => .ok (calls, map)
  | k + 1, index, calls, map =>
    (traverseChain fns callback (map.allocated + 1) (map.elements index) calls map).bind fun (calls, map) =>
      traverseBuckets callback k (index + 1) calls map

/-- It gives the calls of the callback. -/
def bhHashMapTraverse (map : HashMap K V) (callback : List (K × V) → K × V → Bool) : Except Fault (List (K × V) × HashMap K V) :=
  traverseBuckets fns callback map.size 0 [] map

/-- A call of the interface. -/
inductive Op (K V : Type)
  | insert (key : Option K) (value : V) (node : Nat)
  | find (key : Option K)
  | update (key : Option K) (value : V)
  | remove (key : Option K)
  | traverse (callback : List (K × V) → K × V → Bool)

/-- What a call gives back. -/
inductive Reply (K V : Type)
  | inserted (done : Bool)
  | found (value : V)
  | updated (old : Option V)
  | removed (old : Option (K × V))
  | traversed (calls : List (K × V))

def call [Inhabited V] (map : HashMap K V) : Op K V → Except Fault (Reply K V × HashMap K V)
  | .insert key value node => (map.bhHashMapInsert fns key value node).map (Prod.map .inserted id)
  | .find key => (map.bhHashMapFind fns key).map fun value => (.found value, map)
  | .update key value => (map.bhHashMapUpdate fns key value).map (Prod.map .updated id)
  | .remove key => (map.bhHashMapRemove fns key).map (Prod.map .removed id)
  | .traverse callback => (map.bhHashMapTraverse fns callback).map (Prod.map .traversed id)

end Calls

/-! ## Finite maps -/

/-- A map from keys to the key and the value that are stored for them. -/
abbrev Contents (K V : Type) := K → Option (K × V)

namespace Contents

variable (fns : KeyFuncs K)

def insert (c : Contents K V) (key : K) (value : V) : Contents K V := fun k => if fns.equal key k then some (key, value) else c k

def update (c : Contents K V) (key : K) (value : V) : Contents K V := fun k => if fns.equal key k then (c k).map fun p => (p.1, value) else c k

def remove (c : Contents K V) (key : K) : Contents K V := fun k => if fns.equal key k then none else c k

/-- The pairs are those of the map, each of them once. -/
structure Lists (c : Contents K V) (ps : List (K × V)) : Prop where
  distinct : ps.Pairwise fun p q => fns.equal p.1 q.1 = false
  pairs : ∀ k p, c k = some p ↔ p ∈ ps ∧ fns.equal p.1 k = true

end Contents

/-- The pairs that are left when the callback is called for each of them. -/
def kept (callback : List (K × V) → K × V → Bool) : List (K × V) → List (K × V) → List (K × V)
  | _, [] => []
  | calls, p :: ps => (if callback calls p then [] else [p]) ++ kept callback (calls ++ [p]) ps

/-- What a finite map does: an insertion fails for a key that is present, a removal and an update for one that is not, without a change. An insertion may also
fail without memory. A traversal calls the callback once for each pair that is present and takes out what the callback removes. -/
def Behaves [Inhabited V] (fns : KeyFuncs K) (memory : Prop) (c : Contents K V) : Op K V → Reply K V → Contents K V → Prop
  | .insert (some key) value _, .inserted done, c' => (done = true ↔ c key = none ∧ memory) ∧ c' = if done then c.insert fns key value else c
  | .find (some key), .found value, c' => value = (c key).elim default Prod.snd ∧ c' = c
  | .update (some key) value, .updated old, c' => old = (c key).map Prod.snd ∧ c' = c.update fns key value
  | .remove (some key), .removed old, c' => old = c key ∧ c' = c.remove fns key
  | .traverse callback, .traversed calls, c' => c.Lists fns calls ∧ c'.Lists fns (kept callback [] calls)
  | .insert none _ _, .inserted done, c' => done = false ∧ c' = c
  | .find none, .found value, c' => value = default ∧ c' = c
  | .update none _, .updated old, c' => old = none ∧ c' = c
  | .remove none, .removed old, c' => old = none ∧ c' = c
  | _, _, _ => False

/-- The allocator has a block for an insertion. -/
def HasMemory (map : HashMap K V) : Op K V → Prop
  | .insert _ _ node => node ≠ 0 ∧ map.heap node = none
  | _ => True

/-- Every call of a sequence returns, and does what it does to a finite map. -/
def Runs [Inhabited V] (fns : KeyFuncs K) : HashMap K V → Contents K V → List (Op K V) → Prop
  | _, _, [] => True
  | map, c, op :: ops => ∃ reply map' c', map.call fns op = .ok (reply, map') ∧ Behaves fns (map.HasMemory op) c op reply c' ∧ Runs fns map' c' ops

/-! ## The chains -/

section Chains
variable {fns : KeyFuncs K} {map map' : HashMap K V} {chains : Nat → List (Nat × (K × V))} {c c' : Contents K V} {key k : K} {i a : Nat} {p q : K × V}
  {xs ys : List (Nat × (K × V))}

theorem index_eq_of_equal (h : fns.equal key k = true) : map.index fns key = map.index fns k := by
  rw [index, index, fns.hash_eq h]

/-- The chain of a bucket: its nodes have keys of the hash, no two of them equal. -/
structure Chain (fns : KeyFuncs K) (map : HashMap K V) (i : Nat) (xs : List (Nat × (K × V))) : Prop where
  seg : Seg map.heap (map.elements i) xs 0
  hashed : ∀ x ∈ xs, map.index fns x.2.1 = i
  keys : xs.Pairwise fun x y => fns.equal x.2.1 y.2.1 = false
  bound : xs.length ≤ map.allocated

/-- Two entries for one node would have the same key. -/
theorem Chain.nodup (h : Chain fns map i xs) : (xs.map Prod.fst).Nodup := by
  refine List.pairwise_map.2 (h.keys.imp_of_mem fun {x y} hx hy hne heq => ?_)
  obtain ⟨_, hx⟩ := h.seg.node x hx
  obtain ⟨_, hy⟩ := h.seg.node y hy
  have hval : y.2 = x.2 := congrArg Link.val (Option.some.inj (hy.symm.trans (heq ▸ hx)))
  rw [hval, fns.refl] at hne
  cases hne

/-- The chains hold the pairs of the finite map. -/
structure Holds (fns : KeyFuncs K) (map : HashMap K V) (chains : Nat → List (Nat × (K × V))) (c : Contents K V) : Prop where
  pos : 0 < map.size
  chain : ∀ i, i < map.size → Chain fns map i (chains i)
  pairs : ∀ k p, c k = some p ↔ p ∈ (chains (map.index fns k)).map Prod.snd ∧ fns.equal p.1 k = true

theorem Holds.own (h : Holds fns map chains c) (key : K) : Chain fns map (map.index fns key) (chains (map.index fns key)) :=
  h.chain _ (Nat.mod_lt _ h.pos)

/-- The chain of one bucket is replaced by another one. Nodes with keys of other buckets are left alone. -/
theorem Holds.replace (h : Holds fns map chains c) (hsize : map'.size = map.size) (hchain : Chain fns map' (map.index fns key) xs)
    (helems : ∀ j, j ≠ map.index fns key → map'.elements j = map.elements j)
    (hheap : ∀ a n, map.heap a = some n → map.index fns n.val.1 ≠ map.index fns key → map'.heap a = map.heap a)
    (hmono : map.allocated ≤ map'.allocated) (hother : ∀ k, fns.equal key k = false → c' k = c k)
    (hsame : ∀ k, map.index fns k = map.index fns key → ∀ p, c' k = some p ↔ p ∈ xs.map Prod.snd ∧ fns.equal p.1 k = true) :
    Holds fns map' (Function.update chains (map.index fns key) xs) c' := by
  have hindex : ∀ k, map'.index fns k = map.index fns k := fun k => by rw [index, index, hsize]
  refine ⟨hsize ▸ h.pos, ?_, fun k p => ?_⟩
  · refine (Function.forall_update_iff chains fun j ys => j < map'.size → Chain fns map' j ys).2 ⟨fun _ => hchain, fun j hji hj => ?_⟩
    obtain ⟨hseg, hhashed, hkeys, hbound⟩ := h.chain j (hsize ▸ hj)
    refine ⟨?_, fun x hx => (hindex _).trans (hhashed x hx), hkeys, Nat.le_trans hbound hmono⟩
    rw [helems j hji]
    refine hseg.congr fun a ha => ?_
    obtain ⟨x, hx, rfl⟩ := List.mem_map.1 ha
    obtain ⟨next, hn⟩ := hseg.node x hx
    exact hheap x.1 _ hn (by rwa [hhashed x hx])
  rw [hindex]
  by_cases hk : map.index fns k = map.index fns key
  · rw [hk, Function.update_self]
    exact hsame k hk p
  · rw [Function.update_of_ne hk, hother k (Bool.eq_false_iff.2 fun heq => hk (index_eq_of_equal heq).symm)]
    exact h.pairs k p

/-- A list is cut at the first node with a key. -/
theorem exists_split (fns : KeyFuncs K) (key : K) (xs : List (Nat × (K × V))) : (∀ x ∈ xs, fns.equal x.2.1 key = false) ∨
    ∃ ys a p zs, xs = ys ++ (a, p) :: zs ∧ (∀ y ∈ ys, fns.equal y.2.1 key = false) ∧ fns.equal p.1 key = true := by
  cases hfind : xs.find? fun x => fns.equal x.2.1 key with
  | none => exact .inl fun x hx => by simpa using List.find?_eq_none.1 hfind x hx
  | some x =>
    obtain ⟨hx, ys, zs, rfl, hys⟩ := List.find?_eq_some_iff_append.1 hfind
    exact .inr ⟨ys, x.1, x.2, zs, rfl, fun y hy => by simpa using hys y hy, hx⟩

/-- Equal keys have the same pair. -/
theorem Holds.eq_of_equal (h : Holds fns map chains c) (heq : fns.equal key k = true) : c k = c key := by
  apply Option.ext
  intro p
  rw [h.pairs, h.pairs, index_eq_of_equal heq]
  exact and_congr_right fun _ => ⟨fun hp => fns.trans hp (fns.symm heq), fun hp => fns.trans hp heq⟩

/-- The loop over the chain of a key finds the pair that is stored for it. -/
theorem Holds.search (h : Holds fns map chains c) (key : K) :
    (∃ xs a p ys next, chains (map.index fns key) = xs ++ (a, p) :: ys ∧ fns.equal p.1 key = true ∧ c key = some p ∧
      map.search fns key = .ok (some (lastId (map.elements (map.index fns key)) xs, a, ⟨p, next⟩)) ∧ Seg map.heap next ys 0) ∨
    (∀ x ∈ chains (map.index fns key), fns.equal x.2.1 key = false) ∧ c key = none ∧ map.search fns key = .ok none := by
  obtain ⟨hseg, -, -, hbound⟩ := h.own key
  rcases exists_split fns key (chains (map.index fns key)) with hnone | ⟨xs, a, p, ys, hsplit, hxs, hp⟩
  · refine .inr ⟨hnone, Option.eq_none_iff_forall_ne_some.2 fun p hp => ?_, hseg.search_none hnone (Nat.lt_succ_of_le hbound)⟩
    obtain ⟨hmem, heq⟩ := (h.pairs key p).1 hp
    obtain ⟨x, hx, rfl⟩ := List.mem_map.1 hmem
    rw [hnone x hx] at heq
    cases heq
  rw [hsplit] at hseg hbound
  have hlen : xs.length < map.allocated + 1 := by
    rw [List.length_append] at hbound
    omega
  obtain ⟨next, hsearch, hys⟩ := @Seg.search _ _ _ _ _ _ _ (fun e => fns.equal e.1 key) hseg hxs hp _ (map.elements (map.index fns key)) hlen
  refine .inl ⟨xs, a, p, ys, next, hsplit, hp, (h.pairs key p).2 ⟨?_, hp⟩, hsearch, hys⟩
  rw [hsplit]
  simp

theorem Holds.insert [Inhabited V] (h : Holds fns map chains c) (key : K) (value : V) (node : Nat) :
    ∃ done map' chains', map.bhHashMapInsert fns (some key) value node = .ok (done, map') ∧
      Holds fns map' chains' (if done then c.insert fns key value else c) ∧
      (done = true ↔ c key = none ∧ map.HasMemory (.insert (some key) value node)) := by
  obtain ⟨hseg, hhashed, hkeys, hbound⟩ := h.own key
  rw [bhHashMapInsert]
  rcases h.search key with ⟨_, _, p, _, _, -, -, hc, hsearch, -⟩ | ⟨hnone, hc, hsearch⟩
  · rw [hsearch]
    exact ⟨false, map, chains, rfl, h, nofun, fun hnew => by rw [hc] at hnew; cases hnew.1⟩
  rw [hsearch]
  by_cases hnode : node = 0 ∨ (map.heap node).isSome
  · refine ⟨false, map, chains, if_pos hnode, h, nofun, ?_⟩
    rintro ⟨-, hne, hfree⟩
    rw [hfree] at hnode
    exact absurd hnode (by simpa using hne)
  obtain ⟨hne, hfree⟩ := not_or.1 hnode
  have hfree : map.heap node = none := Option.not_isSome_iff_eq_none.1 hfree
  refine ⟨true, _, Function.update chains (map.index fns key) ((node, (key, value)) :: chains (map.index fns key)), if_neg hnode, ?_,
    iff_of_true rfl ⟨hc, hne, hfree⟩⟩
  refine h.replace (by rfl) ⟨?_, List.forall_mem_cons.2 ⟨rfl, hhashed⟩, List.pairwise_cons.2 ⟨fun x hx => ?_, hkeys⟩, Nat.succ_le_succ hbound⟩
    (fun j hj => Function.update_of_ne hj ..) (fun a n hn _ => Function.update_of_ne ?_ ..) (Nat.le_succ _) (fun k hne => ?_) fun k hk p => ?_
  · dsimp only
    rw [Function.update_self]
    refine hseg.push hne fun hmem => ?_
    obtain ⟨x, hx, rfl⟩ := List.mem_map.1 hmem
    obtain ⟨next, hn⟩ := hseg.node x hx
    rw [hfree] at hn
    cases hn
  · rw [fns.equal_comm]
    exact hnone x hx
  · rintro rfl
    rw [hfree] at hn
    cases hn
  · rw [if_pos rfl, Contents.insert, hne, if_neg Bool.false_ne_true]
  rw [if_pos rfl, Contents.insert, List.map_cons, List.mem_cons]
  by_cases heq : fns.equal key k = true
  · rw [if_pos heq]
    constructor
    · intro hp
      obtain rfl := Option.some.inj hp
      exact ⟨.inl rfl, heq⟩
    rintro ⟨rfl | hmem, hpk⟩
    · rfl
    -- an equal key would have been found
    obtain ⟨x, hx, rfl⟩ := List.mem_map.1 hmem
    have := hnone x hx
    rw [fns.trans hpk (fns.symm heq)] at this
    cases this
  rw [if_neg heq, h.pairs, hk]
  refine and_congr_left fun hpk => ⟨.inr, fun hmem => hmem.resolve_left ?_⟩
  rintro rfl
  exact heq hpk

/-- The pairs of a chain are that of one node and those of the others. -/
theorem mem_split : q ∈ (xs ++ (a, p) :: ys).map Prod.snd ↔ q = p ∨ q ∈ (xs ++ ys).map Prod.snd := by
  rw [List.map_append, List.map_cons, List.mem_append, List.mem_cons, List.map_append, List.mem_append]
  tauto

/-- A pair of another node of the chain is not for an equal key. -/
theorem Chain.apart_key (h : Chain fns map i (xs ++ (a, p) :: ys)) (hq : q ∈ (xs ++ ys).map Prod.snd) (hpk : fns.equal p.1 k = true) :
    ¬ fns.equal q.1 k = true := by
  intro hqk
  have hqp := fns.trans hqk (fns.symm hpk)
  obtain ⟨x, hx, rfl⟩ := List.mem_map.1 hq
  obtain ⟨-, hys, hxs⟩ := List.pairwise_append.1 h.keys
  rcases List.mem_append.1 hx with hx | hx
  · rw [hxs x hx (a, p) List.mem_cons_self] at hqp
    cases hqp
  · rw [fns.equal_comm, (List.pairwise_cons.1 hys).1 x hx] at hqp
    cases hqp

theorem Holds.update (h : Holds fns map chains c) (key : K) (value : V) :
    ∃ map' chains', map.bhHashMapUpdate fns (some key) value = .ok ((c key).map Prod.snd, map') ∧ Holds fns map' chains' (c.update fns key value) := by
  rw [bhHashMapUpdate]
  rcases h.search key with ⟨xs, a, p, ys, next, hsplit, hp, hc, hsearch, hys⟩ | ⟨-, hc, hsearch⟩
  swap
  · have hsame : c.update fns key value = c := by
      funext k
      rw [Contents.update]
      split
      · rw [h.eq_of_equal ‹_›, hc]
        rfl
      · rfl
    rw [hsearch, hc, hsame]
    exact ⟨map, chains, rfl, h⟩
  have hown := h.own key
  rw [hsplit] at hown
  have ⟨hseg, hhashed, hkeys, hbound⟩ := hown
  have hindex := hhashed (a, p) (by simp)
  rw [hsearch, hc]
  refine ⟨_, Function.update chains (map.index fns key) (xs ++ (a, (p.1, value)) :: ys), rfl, ?_⟩
  refine h.replace (by rfl) ⟨hseg.setVal hown.nodup hys, fun x hx => ?_, ?_, ?_⟩ (fun _ _ => rfl) (fun b n hn hb => Function.update_of_ne ?_ ..)
    (Nat.le_refl _) (fun k hne => ?_) fun k hk q => ?_
  · rcases List.mem_append.1 hx with hx | hx
    · exact hhashed x (List.mem_append_left _ hx)
    · rcases List.mem_cons.1 hx with rfl | hx
      · exact hindex
      · exact hhashed x (by simp [hx])
  · simpa only [List.pairwise_append, List.pairwise_cons, List.forall_mem_cons] using hkeys
  · rw [List.length_append, List.length_cons] at hbound ⊢
    exact hbound
  · rintro rfl
    obtain ⟨_, hn'⟩ := hseg.node (b, p) (by simp)
    rw [hn] at hn'
    exact hb (by rw [Option.some.inj hn']; exact hindex)
  · rw [Contents.update, hne, if_neg Bool.false_ne_true]
  rw [Contents.update, mem_split]
  by_cases heq : fns.equal key k = true
  · rw [if_pos heq, h.eq_of_equal heq, hc, Option.map_some]
    constructor
    · intro hq
      obtain rfl := Option.some.inj hq
      exact ⟨.inl rfl, fns.trans hp heq⟩
    · rintro ⟨rfl | hq, hqk⟩
      · rfl
      · exact absurd hqk (hown.apart_key hq (fns.trans hp heq))
  have hpk : ¬ fns.equal p.1 k = true := fun hpk => heq (fns.trans (fns.symm hp) hpk)
  rw [if_neg heq, h.pairs, hk, hsplit, mem_split]
  refine and_congr_left fun hqk => or_congr_left ⟨?_, ?_⟩ <;>
    rintro rfl <;> exact absurd hqk hpk

/-- The first node of a list, or another one. -/
theorem lastId_head {h : Links (K × V)} {r : Nat} (hs : Seg h r (xs ++ (a, p) :: ys) 0) (hnodup : ((xs ++ (a, p) :: ys).map Prod.fst).Nodup) :
    (a = r ∧ lastId 0 xs = 0) ∨ (a ≠ r ∧ lastId 0 xs ≠ 0 ∧ lastId r xs = lastId 0 xs) := by
  cases xs with
  | nil =>
    obtain ⟨rfl, -⟩ := hs.uncons
    exact .inl ⟨rfl, rfl⟩
  | cons x xs =>
    obtain ⟨b, w⟩ := x
    obtain ⟨rfl, -⟩ := Seg.uncons hs
    refine .inr ⟨?_, ?_, by rw [lastId_cons, lastId_cons]⟩
    · rintro rfl
      rw [List.map_append, List.map_cons, List.cons_append, List.nodup_cons] at hnodup
      exact hnodup.1 (by simp)
    rw [lastId, List.getLast?_eq_getLast_of_ne_nil (List.cons_ne_nil _ _)]
    apply hs.ne_zero
    rw [List.map_append]
    exact List.mem_append_left _ (List.mem_map_of_mem (List.getLast_mem _))

/-- A node is unlinked and freed, whichever of the two ways the source takes. -/
theorem Holds.remove (h : Holds fns map chains c) (key : K) :
    (∃ xs a p ys map', chains (map.index fns key) = xs ++ (a, p) :: ys ∧ fns.equal p.1 key = true ∧ c key = some p ∧
      map.bhHashMapRemove fns (some key) = .ok (some p, map') ∧ map'.size = map.size ∧
      Holds fns map' (Function.update chains (map.index fns key) (xs ++ ys)) (c.remove fns key)) ∨
    c key = none ∧ map.bhHashMapRemove fns (some key) = .ok (none, map) ∧ c.remove fns key = c := by
  rcases h.search key with ⟨xs, a, p, ys, next, hsplit, hp, hc, hsearch, hys⟩ | ⟨-, hc, hsearch⟩
  swap
  · refine .inr ⟨hc, by rw [bhHashMapRemove, hsearch]; rfl, ?_⟩
    funext k
    rw [Contents.remove]
    split
    · rw [h.eq_of_equal ‹_›, hc]
    · rfl
  have hown := h.own key
  rw [hsplit] at hown
  have ⟨hseg, hhashed, hkeys, hbound⟩ := hown
  have hsub : (xs ++ ys).Sublist (xs ++ (a, p) :: ys) := (List.Sublist.refl xs).append (List.sublist_cons_self _ _)
  obtain ⟨r, hx, -⟩ := hseg.split
  obtain ⟨map', hmap', hsize, halloc, helems, hroot, hheap⟩ : ∃ map', map.bhHashMapRemove fns (some key) = .ok (some p, map') ∧ map'.size = map.size ∧ map'.allocated = map.allocated ∧
      (∀ j, j ≠ map.index fns key → map'.elements j = map.elements j) ∧
      map'.elements (map.index fns key) = reroot (map.elements (map.index fns key)) (lastId 0 xs) next ∧
      map'.heap = (relink map.heap (lastId 0 xs) next).free a := by
    rw [bhHashMapRemove, hsearch, Except.map]
    rcases lastId_head hseg hown.nodup with ⟨hhead, hlast⟩ | ⟨hhead, hlast, hprev⟩
    · simp only [if_pos hhead, hlast, relink, reroot, if_pos]
      exact ⟨_, rfl, rfl, rfl, fun j hj => Function.update_of_ne hj .., Function.update_self .., rfl⟩
    · simp only [if_neg hhead, hprev, relink, reroot, if_neg hlast]
      exact ⟨_, rfl, rfl, rfl, fun _ _ => rfl, rfl, rfl⟩
  refine .inl ⟨xs, a, p, ys, map', hsplit, hp, hc, hmap', hsize, h.replace hsize
    ⟨?_, fun x hx => ?_, hkeys.sublist hsub, halloc ▸ Nat.le_trans hsub.length_le hbound⟩ helems (fun b n hn hb => ?_) (Nat.le_of_eq halloc.symm)
    (fun k hne => ?_) fun k hk q => ?_⟩
  · rw [hroot, hheap]
    exact hseg.unlink hown.nodup hys
  · rw [index, hsize]
    exact hhashed x (hsub.subset hx)
  · -- the nodes that are written are in the chain
    have hnot : b ∉ (xs ++ (a, p) :: ys).map Prod.fst := by
      intro hmem
      obtain ⟨x, hx, rfl⟩ := List.mem_map.1 hmem
      obtain ⟨_, hn'⟩ := hseg.node x hx
      rw [hn] at hn'
      exact hb (by rw [Option.some.inj hn']; exact hhashed x hx)
    rw [List.map_append, List.mem_append, not_or, List.map_cons, List.mem_cons, not_or] at hnot
    rw [hheap, Links.free, Function.update_of_ne hnot.2.1, relink_of_not_mem hx hnot.1]
  · rw [Contents.remove, hne, if_neg Bool.false_ne_true]
  rw [Contents.remove]
  by_cases heq : fns.equal key k = true
  · rw [if_pos heq]
    exact iff_of_false (by simp) fun h => hown.apart_key h.1 (fns.trans hp heq) h.2
  rw [if_neg heq, h.pairs, hk, hsplit, mem_split]
  refine and_congr_left fun hqk => or_iff_right ?_
  rintro rfl
  exact heq (fns.trans (fns.symm hp) hqk)

/-! ## Traversals -/

variable {callback : List (K × V) → K × V → Bool}

theorem kept_append (calls ps qs : List (K × V)) : kept callback calls (ps ++ qs) = kept callback calls ps ++ kept callback (calls ++ ps) qs := by
  induction ps generalizing calls with
  | nil => simp [kept]
  | cons p ps ih => simp [kept, ih]

/-- The node that a callback removes is the one it was called for. -/
theorem Holds.remove_given (h : Holds fns map chains c) (hi : i < map.size) (hsplit : chains i = xs ++ (a, p) :: ys) :
    ∃ map', map.bhHashMapRemove fns (some p.1) = .ok (some p, map') ∧ map'.size = map.size ∧
      Holds fns map' (Function.update chains i (xs ++ ys)) (c.remove fns p.1) := by
  have hindex := (h.chain i hi).hashed (a, p) (by rw [hsplit]; simp)
  rcases h.remove p.1 with ⟨xs', a', p', ys', map', hsplit', hp', -, hremove, hsize, h'⟩ | ⟨hc, -⟩
  · rw [hindex] at hsplit' h'
    have hown := h.chain i hi
    rw [hsplit'] at hown
    have hnot : ∀ zs, zs ⊆ xs' ++ ys' → (a, p) ∉ zs := fun zs hzs hmem =>
      hown.apart_key (List.mem_map_of_mem (hzs hmem)) hp' (fns.refl _)
    obtain ⟨rfl, heq, rfl⟩ := (List.append_cons_inj_of_notMem (hnot xs' (List.subset_append_left _ _)) (hnot ys' (List.subset_append_right _ _))).1
      (hsplit'.symm.trans hsplit)
    cases heq
    exact ⟨map', hremove, hsize, h'⟩
  have hmem : p ∈ (chains (map.index fns p.1)).map Prod.snd := by
    rw [hindex, hsplit]
    simp
  rw [(h.pairs p.1 p).2 ⟨hmem, fns.refl _⟩] at hc
  cases hc

/-- The loop over a chain has gone past the nodes `xs`. The nodes `ys` are still to come, whatever the callback has removed. -/
theorem Holds.traverseChain {fuel elem : Nat} (h : Holds fns map chains c) (calls : List (K × V)) (hi : i < map.size) (hsplit : chains i = xs ++ ys)
    (hseg : Seg map.heap elem ys 0) (hfuel : ys.length < fuel) :
    ∃ map' zs c', HashMap.traverseChain fns callback fuel elem calls map = .ok (calls ++ ys.map Prod.snd, map') ∧
      zs.map Prod.snd = kept callback calls (ys.map Prod.snd) ∧ map'.size = map.size ∧ Holds fns map' (Function.update chains i (xs ++ zs)) c' := by
  induction ys generalizing map chains c fuel elem calls xs with
  | nil =>
    cases hseg
    refine ⟨map, [], c, ?_, rfl, rfl, ?_⟩
    · unfold HashMap.traverseChain
      rw [if_pos rfl, List.map_nil, List.append_nil]
    · rwa [← hsplit, Function.update_eq_self]
  | cons y ys ih =>
    obtain ⟨a, p⟩ := y
    obtain ⟨rfl, hne, next, hn, hrest⟩ := hseg.uncons
    obtain ⟨fuel, rfl⟩ : ∃ k, fuel = k + 1 := ⟨fuel - 1, by omega⟩
    have hfuel : ys.length < fuel := Nat.lt_of_succ_lt_succ hfuel
    rw [HashMap.traverseChain, if_neg hne]
    simp only [hn, List.map_cons, kept]
    by_cases hcall : callback calls p = true
    · obtain ⟨map₁, hremove, hsize, h₁⟩ := h.remove_given hi hsplit
      -- the next node is still where it was
      have hchain := h₁.chain i (hsize ▸ hi)
      rw [Function.update_self] at hchain
      obtain ⟨r, -, hseg₁⟩ := hchain.seg.split
      obtain rfl := hrest.start_unique hseg₁
      obtain ⟨map', zs, c', hrun, hkept, hsize', h'⟩ := ih h₁ (calls ++ [p]) (hsize ▸ hi) (Function.update_self ..) hseg₁ hfuel
      rw [Function.update_idem] at h'
      rw [List.append_assoc] at hrun
      refine ⟨map', zs, c', ?_, ?_, hsize'.trans hsize, h'⟩
      · rw [if_pos hcall, hremove]
        exact hrun
      · rw [if_pos hcall, hkept, List.nil_append]
    · obtain ⟨map', zs, c', hrun, hkept, hsize', h'⟩ := ih h (calls ++ [p]) hi (hsplit.trans (List.append_cons _ _ _)) hrest hfuel
      rw [List.append_assoc] at hrun
      refine ⟨map', (elem, p) :: zs, c', ?_, ?_, hsize', by simpa using h'⟩
      · rw [if_neg hcall]
        exact hrun
      · rw [if_neg hcall, List.map_cons, hkept, List.singleton_append]

/-- The pairs of `k` buckets from one on. -/
def pairsFrom (chains : Nat → List (Nat × (K × V))) (i k : Nat) : List (K × V) := (List.range' i k).flatMap fun j => (chains j).map Prod.snd

theorem pairsFrom_succ (chains : Nat → List (Nat × (K × V))) (i k : Nat) :
    pairsFrom chains i (k + 1) = (chains i).map Prod.snd ++ pairsFrom chains (i + 1) k := by
  rw [pairsFrom, List.range'_succ, List.flatMap_cons]
  rfl

theorem Holds.traverseBuckets {n : Nat} (h : Holds fns map chains c) (calls : List (K × V)) (hi : i + n = map.size) :
    ∃ map' chains' c', HashMap.traverseBuckets fns callback n i calls map = .ok (calls ++ pairsFrom chains i n, map') ∧ Holds fns map' chains' c' ∧
      map'.size = map.size ∧ (∀ j < i, chains' j = chains j) ∧ pairsFrom chains' i n = kept callback calls (pairsFrom chains i n) := by
  induction n generalizing map chains c i calls with
  | zero => exact ⟨map, chains, c, by simp [HashMap.traverseBuckets, pairsFrom], h, rfl, fun _ _ => rfl, rfl⟩
  | succ n ih =>
    have hchain := h.chain i (by omega)
    obtain ⟨map₁, zs, c₁, hrun, hkept, hsize, h₁⟩ := h.traverseChain calls (by omega) (List.nil_append (chains i)).symm hchain.seg
      (Nat.lt_succ_of_le hchain.bound)
    obtain ⟨map', chains', c', hrun', h', hsize', hsame, hkept'⟩ := ih (i := i + 1) h₁ (calls ++ (chains i).map Prod.snd) (by omega)
    have hrest : pairsFrom (Function.update chains i ([] ++ zs)) (i + 1) n = pairsFrom chains (i + 1) n := by
      refine List.flatMap_congr fun j hj => ?_
      rw [Function.update_of_ne (by have := (List.mem_range'_1.1 hj).1; omega)]
    rw [hrest] at hrun' hkept'
    refine ⟨map', chains', c', ?_, h', hsize'.trans hsize, fun j hj => ?_, ?_⟩
    · rw [HashMap.traverseBuckets, hrun, pairsFrom_succ, ← List.append_assoc]
      exact hrun'
    · rw [hsame j (by omega), Function.update_of_ne (by omega)]
    · rw [pairsFrom_succ, pairsFrom_succ, hsame i (by omega), Function.update_self, List.nil_append, hkept, hkept', kept_append]

/-- The buckets together list the pairs of the map. -/
theorem Holds.lists (h : Holds fns map chains c) : c.Lists fns (pairsFrom chains 0 map.size) := by
  have hmem : ∀ {i p}, i ∈ List.range' 0 map.size → p ∈ (chains i).map Prod.snd → map.index fns p.1 = i := by
    intro i p hi hp
    obtain ⟨x, hx, rfl⟩ := List.mem_map.1 hp
    exact (h.chain i (by simpa using hi)).hashed x hx
  refine ⟨List.pairwise_flatMap.2 ⟨fun i hi => List.pairwise_map.2 (h.chain i (by simpa using hi)).keys, ?_⟩, fun k p => ?_⟩
  · have hnodup : (List.range' 0 map.size).Nodup := List.nodup_range'
    refine hnodup.imp_of_mem fun {i j} hi hj hne p hp q hq => Bool.eq_false_iff.2 fun heq => hne ?_
    rw [← hmem hi hp, ← hmem hj hq, index_eq_of_equal heq]
  rw [h.pairs, pairsFrom, List.mem_flatMap]
  refine and_congr_left fun heq => ⟨fun hp => ⟨_, ?_, hp⟩, fun ⟨i, hi, hp⟩ => ?_⟩
  · simpa [index] using Nat.mod_lt _ h.pos
  · rwa [← index_eq_of_equal heq, hmem hi hp]

/-! ## Sequences of calls -/

/-- One call does what it does to a finite map. -/
theorem Holds.call [Inhabited V] (h : Holds fns map chains c) (op : Op K V) :
    ∃ reply map' chains' c', map.call fns op = .ok (reply, map') ∧ Behaves fns (map.HasMemory op) c op reply c' ∧ Holds fns map' chains' c' := by
  cases op with
  | insert key value node =>
    cases key with
    | none => exact ⟨_, map, chains, c, rfl, ⟨rfl, rfl⟩, h⟩
    | some key =>
      obtain ⟨done, map', chains', hcall, h', hdone⟩ := h.insert key value node
      exact ⟨.inserted done, map', chains', _, by rw [HashMap.call, hcall]; rfl, ⟨hdone, rfl⟩, h'⟩
  | find key =>
    cases key with
    | none => exact ⟨_, map, chains, c, rfl, ⟨rfl, rfl⟩, h⟩
    | some key =>
      rcases h.search key with ⟨_, _, p, _, _, -, -, hc, hsearch, -⟩ | ⟨-, hc, hsearch⟩
      · exact ⟨.found p.2, map, chains, c, by rw [HashMap.call, bhHashMapFind, hsearch]; rfl, ⟨by rw [hc]; rfl, rfl⟩, h⟩
      · exact ⟨.found default, map, chains, c, by rw [HashMap.call, bhHashMapFind, hsearch]; rfl, ⟨by rw [hc]; rfl, rfl⟩, h⟩
  | update key value =>
    cases key with
    | none => exact ⟨_, map, chains, c, rfl, ⟨rfl, rfl⟩, h⟩
    | some key =>
      obtain ⟨map', chains', hcall, h'⟩ := h.update key value
      exact ⟨.updated _, map', chains', _, by rw [HashMap.call, hcall]; rfl, ⟨rfl, rfl⟩, h'⟩
  | remove key =>
    cases key with
    | none => exact ⟨_, map, chains, c, rfl, ⟨rfl, rfl⟩, h⟩
    | some key =>
      rcases h.remove key with ⟨_, _, p, _, map', -, -, hc, hcall, -, h'⟩ | ⟨hc, hcall, hsame⟩
      · exact ⟨.removed _, map', _, _, by rw [HashMap.call, hcall]; rfl, ⟨hc.symm, rfl⟩, h'⟩
      · exact ⟨.removed _, map, chains, c, by rw [HashMap.call, hcall]; rfl, ⟨hc.symm, hsame.symm⟩, h⟩
  | traverse callback =>
    obtain ⟨map', chains', c', hcall, h', hsize, -, hkept⟩ := h.traverseBuckets (i := 0) [] (Nat.zero_add _)
    have hlists := h'.lists
    rw [hsize, hkept] at hlists
    exact ⟨.traversed _, map', chains', c', by rw [HashMap.call, bhHashMapTraverse, hcall]; rfl, ⟨h.lists, hlists⟩, h'⟩

theorem Holds.runs [Inhabited V] (h : Holds fns map chains c) (ops : List (Op K V)) : map.Runs fns c ops := by
  induction ops generalizing map chains c with
  | nil => trivial
  | cons op ops ih =>
    obtain ⟨reply, map', chains', c', hcall, hbehaves, h'⟩ := h.call op
    exact ⟨reply, map', c', hcall, hbehaves, ih h'⟩

end Chains

/-- A map that has been created, of any size but 0, is a finite map for every sequence of calls. -/
theorem runs_of_create [Inhabited V] (fns : KeyFuncs K) (malloc : Bool) (size : Nat) {map : HashMap K V} (hcreate : bhHashMapCreate malloc size = some map)
    (hpos : 0 < size) (ops : List (Op K V)) : map.Runs fns (fun _ => none) ops := by
  unfold bhHashMapCreate at hcreate
  split at hcreate
  · cases hcreate
  split at hcreate
  · cases hcreate
    exact @Holds.runs _ _ fns _ (fun _ => []) _ _ ⟨hpos, fun i _ => ⟨.nil, nofun, .nil, Nat.zero_le _⟩, fun k p => by simp⟩ ops
  · cases hcreate

/-- Numbers as keys, with three buckets. -/
def lowKeys : KeyFuncs Nat where
  hash k := .ofNat k
  equal a b := a == b
  refl := by simp
  symm := by simp
  trans := by simp
  hash_eq := by simp

theorem colliding_keys_run : ∃ map : HashMap Nat Nat, bhHashMapCreate true 3 = some map ∧
    map.Runs lowKeys (fun _ => none) [.insert (some 1) 7 16, .insert (some 4) 8 32, .traverse fun _ p => p.1 == 4, .find (some 1)] :=
  ⟨_, rfl, runs_of_create lowKeys true 3 rfl (by decide) _⟩

end HashMap
end WamrMigrate.Utils
