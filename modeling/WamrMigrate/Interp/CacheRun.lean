import WamrMigrate.Interp.ExecEnv

/-!
# The block address cache over runs with migrations

The entries of the cache come from scans, in this process or in one whose image was restored. In the new process the code stands elsewhere, and an
entry is right if its addresses have moved with it. The image cannot say that there is no `else`: `NULL` is written as its distance from the code,
and comes back as an address.
-/

namespace WamrMigrate.Interp

open Image Loader

variable {n n' g g' p q d a : Nat} {code code' : Code} {e e' : Option Nat}

/-! ## Scans of copied code -/

theorem skipLeb_copied {fuel fuel' p' : Nat} (h : skipLeb code fuel p = some q) (hc : Cursor.Copied code code' p q p')
    (hfuel : q ≤ p + fuel') : skipLeb code' fuel' p' = some (p' + (q - p)) := by
  induction fuel generalizing p p' fuel' with
  | zero => cases h
  | succ fuel ih =>
    have hlt : p < q := skipLeb_lt h
    have hp : code' p' = code p := hc 0 hlt
    obtain ⟨fuel', rfl⟩ : ∃ k, fuel' = k + 1 := ⟨fuel' - 1, by omega⟩
    simp only [skipLeb, hp] at h ⊢
    split at h
    · rw [if_pos ‹_›]
      cases h
      rw [Nat.add_sub_cancel_left]
    rw [if_neg ‹_›]
    have hlt' : p + 1 < q := skipLeb_lt h
    have hpos : p' + 1 + (q - (p + 1)) = p' + (q - p) := by omega
    rw [← hpos]
    exact ih h (by simpa using hc.tail (Nat.le_succ p)) (by omega)

theorem skipInt_copies (n n' : Nat) : Cursor.Copies n n' (skipInt n) (skipInt n') where
  copy {code code' p p' a q} h hq hn hc := by
    obtain ⟨q', hq', h⟩ := Option.map_eq_some_iff.1 h
    cases h
    have hlt : p < q := skipLeb_lt hq'
    refine ⟨Nat.le_of_lt hlt, ?_⟩
    have hfuel : q ≤ p + n' := by omega
    simp [skipInt, skipLeb_copied hq' hc hfuel]

theorem checkedByte_copies (n n' : Nat) : Cursor.Copies n n' (checkedByte n) (checkedByte n') where
  copy {code code' p p' a q} h hq hn hc := by
    simp only [checkedByte] at h ⊢
    split at h
    · cases h
    cases h
    have hp : code' p' = code p := hc 0 (Nat.lt_succ_self p)
    refine ⟨Nat.le_succ p, ?_⟩
    rw [if_neg (by omega), hp, Nat.add_sub_cancel_left]

theorem operands_copies (n n' : Nat) (o : Opcode) : Cursor.Copies n n' (operands n o) (operands n' o) := by
  have hskip := skipInt_copies n n'
  have hleb := leb_copies n n'
  have hbyte := checkedByte_copies n n'
  cases o with
  | unreachable | nop | else_ | end_ | return_ | drop | select | drop64 | select64 | numeric => exact .pure ()
  | block => exact Cursor.Copies.byte.bind (fun _ => .pure ()) fun _ => .pure ()
  | brTable =>
    exact hleb.bind (fun count => (hskip.times (skipInt_local n) (count + 1)).bind (fun _ => .pure ()) fun _ => .pure ())
      fun count => ((skipInt_local n).times (count + 1)).bind fun _ => .pure ()
  | callIndirect =>
    exact hskip.bind (fun _ => hbyte.bind (fun _ => .pure ()) fun _ => .pure ()) fun _ => (checkedByte_local n).bind fun _ => .pure ()
  | localFast => exact hbyte.bind (fun _ => .pure ()) fun _ => .pure ()
  | memory => exact hskip.bind (fun _ => hskip) fun _ => skipInt_local n
  | f32Const => exact (Cursor.Copies.byte.times Cursor.Local.byte 4).bind (fun _ => .pure ()) fun _ => .pure ()
  | f64Const => exact (Cursor.Copies.byte.times Cursor.Local.byte 8).bind (fun _ => .pure ()) fun _ => .pure ()
  | miscPrefix =>
    refine hleb.bind (fun v => ?_) fun v => ?_
    · split
      · exact .pure ()
      · exact .fail
    · split
      · exact .pure ()
      · exact .fail
  | _ => exact hskip

theorem skipInstr_copies (n n' : Nat) : Cursor.Copies n n' (skipInstr n) (skipInstr n') := by
  refine Cursor.Copies.byte.bind (fun b => ?_) fun b => ?_
  · split
    · exact (operands_copies n n' _).bind (fun _ => .pure _) fun _ => .pure _
    · exact .fail
  · split
    · exact (operands_local n _).bind fun _ => .pure _
    · exact .fail

theorem scanFrom_inv {label : LabelType} {s : Scan} {r : Found} (h : scanFrom n label code s = some r) :
    s.p < n ∧ ∃ o q, (skipInstr n).run code s.p = some (o, q) := by
  unfold scanFrom at h
  cases hfuel : n - s.p with
  | zero =>
    rw [hfuel] at h
    cases h
  | succ k =>
    refine ⟨by omega, ?_⟩
    rw [hfuel] at h
    simp only [scanLoop, scanStep] at h
    split at h
    · cases hskip : (skipInstr n).run code s.p with
      | none => simp [hskip] at h
      | some x => exact ⟨x.1, x.2, rfl⟩
    · cases h

theorem restOf_inv {x : Option Nat × Nat} (h : restOf n code p d e = some x) : p < n ∧ ∃ o q, (skipInstr n).run code p = some (o, q) := by
  obtain ⟨r, hr, -⟩ := Option.map_eq_some_iff.1 h
  exact scanFrom_inv hr

/-- Where an address of the code at `g` stands in its copy at `g'`. -/
def moved (g g' a : Nat) : Nat := a - g + g'

theorem skipInstr_moved {o : Opcode} (hc : Cursor.Copied code code' g n g') (hroom : n - g + g' ≤ n') (hg : g ≤ p) (hq : q ≤ n)
    (h : (skipInstr n).run code p = some (o, q)) : (skipInstr n').run code' (moved g g' p) = some (o, moved g g' q) := by
  have hlt : p < q := skipInstr_lt h
  have hcopy : Cursor.Copied code code' p q (moved g g' p) := by
    intro k hk
    have hk' := hc (p - g + k) (by omega)
    rwa [show g + (p - g + k) = p + k by omega, show g' + (p - g + k) = moved g g' p + k by unfold moved; omega] at hk'
  have hpos : moved g g' p + (q - p) = moved g g' q := by
    unfold moved
    omega
  rw [← hpos]
  exact ((skipInstr_copies n n').copy h hq (by unfold moved; omega) hcopy).2

/-- Depth and last `else` behind an instruction with such a role at `p`; or what the scan has found there. -/
def after (p d : Nat) (e : Option Nat) : Role → (Nat × Option Nat) ⊕ (Option Nat × Nat)
  | .opens => .inl (d + 1, e)
  | .turns => .inl (d, if d = 1 then some p else e)
  | .closes => if d = 1 then .inr (e, p) else .inl (d - 1, e)
  | .inside => .inl (d, e)

theorem restOf_after {o : Opcode} (h : (skipInstr n).run code p = some (o, q)) (hp : p < n) :
    restOf n code p d e = (after p d e (Role.ofOpcode o)).elim (fun x => restOf n code q x.1 x.2) some := by
  rw [restOf_step h hp]
  cases Role.ofOpcode o with
  | closes =>
    simp only [after]
    split <;> rfl
  | _ => rfl

theorem after_moved (role : Role) : after (moved g g' p) d (e.map (moved g g')) role =
    (after p d e role).map (Prod.map id (Option.map (moved g g'))) (Prod.map (Option.map (moved g g')) (moved g g')) := by
  cases role with
  | closes | turns =>
    simp only [after]
    split <;> rfl
  | _ => rfl

/-- The `else` behind an instruction is the last one, or the instruction. -/
theorem after_else {role : Role} {d₁ : Nat} {e₁ : Option Nat} (h : after p d e role = .inl (d₁, e₁)) : e₁ = e ∨ e₁ = some p := by
  cases role with
  | closes =>
    simp only [after] at h
    split at h
    · cases h
    · cases h
      exact .inl rfl
  | turns =>
    cases h
    split
    · exact .inr rfl
    · exact .inl rfl
  | _ =>
    cases h
    exact .inl rfl

theorem after_found {o : Opcode} {x : Option Nat × Nat} (h : after p d e (Role.ofOpcode o) = .inr x) : o = .end_ ∧ x = (e, p) := by
  cases o with
  | end_ =>
    simp only [after, Role.ofOpcode] at h
    split at h
    · cases h
      exact ⟨rfl, rfl⟩
    · cases h
  | _ => cases h

theorem skipInstr_end (h : (skipInstr n).run code p = some (.end_, q)) : q = p + 1 := by
  rw [skipInstr, Cursor.run_bind Cursor.run_byte] at h
  split at h
  · obtain ⟨u, q', hops, h⟩ := Cursor.run_bind_iff.1 h
    cases h
    cases hops
    rfl
  · cases h

/-- What the rest of a scan finds in the code at `g`, without leaving it, it finds in a copy at the places there. -/
theorem restOf_copied (hc : Cursor.Copied code code' g n g') (hroom : n - g + g' ≤ n') (hg : g ≤ p) (h : restOf n code p d e = some (e', a)) :
    restOf n' code' (moved g g' p) d (e.map (moved g g')) = some (e'.map (moved g g'), moved g g' a) ∧ p ≤ a ∧ a < n ∧
      (∀ x, e' = some x → e = some x ∨ p ≤ x ∧ x < n) := by
  induction hm : n - p using Nat.strong_induction_on generalizing p d e with
  | _ m ih =>
    obtain ⟨hp, o, q, hskip⟩ := restOf_inv h
    have hlt : p < q := skipInstr_lt hskip
    have hp' : moved g g' p < n' := by
      unfold moved
      omega
    rw [restOf_after hskip hp] at h
    cases hafter : after p d e (Role.ofOpcode o) with
    | inl x =>
      obtain ⟨d₁, e₁⟩ := x
      simp only [hafter, Sum.elim_inl] at h
      have hq := (restOf_inv h).1
      obtain ⟨hrun, hqa, han, hx⟩ := ih (n - q) (by omega) (by omega) h rfl
      rw [restOf_after (skipInstr_moved hc hroom hg (Nat.le_of_lt hq) hskip) hp', after_moved, hafter]
      refine ⟨hrun, by omega, han, fun x hx' => ?_⟩
      rcases hx x hx' with hx | hx
      · rcases after_else hafter with rfl | rfl
        · exact .inl hx
        · cases hx
          exact .inr ⟨Nat.le_refl p, hp⟩
      · exact .inr ⟨by omega, hx.2⟩
    | inr x =>
      simp only [hafter, Sum.elim_inr] at h
      obtain ⟨rfl, rfl⟩ := after_found hafter
      cases h
      have hq : q ≤ n := by
        rw [skipInstr_end hskip]
        exact hp
      rw [restOf_after (skipInstr_moved hc hroom hg hq hskip) hp', after_moved, hafter]
      exact ⟨rfl, Nat.le_refl _, hp, fun x hx => .inl hx⟩

theorem skipInstr_wider {o : Opcode} (hn : n ≤ n') (hq : q ≤ n) (h : (skipInstr n).run code p = some (o, q)) :
    (skipInstr n').run code p = some (o, q) := by
  have hlt : p < q := skipInstr_lt h
  have hcopy := ((skipInstr_copies n n').copy h hq (by omega) fun _ _ => rfl).2
  rwa [Nat.add_sub_cancel' (Nat.le_of_lt hlt)] at hcopy

section

variable {label : LabelType} {s : Scan} {r : Found}

theorem advance_found {o : Opcode} (h : s.advance label q (Role.ofOpcode o) = .inr r) : o = .end_ := by
  cases o with
  | end_ => rfl
  | _ => cases h

/-- What a scan finds without leaving the code before `n` it finds with any further end. -/
theorem scanFrom_wider (hn : n ≤ n') (h : scanFrom n label code s = some r) : scanFrom n' label code s = some r := by
  induction hm : n - s.p using Nat.strong_induction_on generalizing s with
  | _ m ih =>
    obtain ⟨hp, o, q, hskip⟩ := scanFrom_inv h
    have hlt : s.p < q := skipInstr_lt hskip
    rw [scanFrom_step hskip hp] at h
    cases hnext : s.advance label q (Role.ofOpcode o) with
    | inl s' =>
      rw [hnext] at h
      have hq : s'.p < n := (scanFrom_inv h).1
      have hs' : s'.p = q := advance_next hnext
      rw [scanFrom_step (skipInstr_wider hn (by omega) hskip) (by omega), hnext]
      exact ih (n - s'.p) (by omega) h rfl
    | inr r' =>
      rw [hnext] at h
      obtain rfl := advance_found hnext
      have hq : q = s.p + 1 := skipInstr_end hskip
      rw [scanFrom_step (skipInstr_wider hn (by omega) hskip) (by omega), hnext]
      exact h

/-- Every block of the stack begins at `g` or behind it. -/
def StartsFrom (g : Nat) (stack : BlockStack) : Prop := ∀ t x, (stack t).startAddr = some x → g ≤ x

theorem StartsFrom.note {stack : BlockStack} {change : BlockAddr → BlockAddr} (h : StartsFrom g stack) (hq : g ≤ q)
    (hchange : ∀ b : BlockAddr, (change b).startAddr = some q ∨ (change b).startAddr = b.startAddr) (d : Nat) :
    StartsFrom g (stack.note d change) := by
  intro t x hx
  by_cases htd : t = d
  · subst htd
    by_cases ht : t < 16
    · rw [BlockStack.note_same ht] at hx
      rcases hchange (stack t) with hstart | hstart
      · cases hstart.symm.trans hx
        exact hq
      · exact h t x (hstart ▸ hx)
    · rw [BlockStack.note_far (Nat.le_of_not_lt ht)] at hx
      exact h t x hx
  · rw [BlockStack.note_ne htd] at hx
    exact h t x hx

theorem advance_starts (label : LabelType) (hs : StartsFrom g s.stack) (hq : g ≤ q) (role : Role) :
    (s.advance label q role).elim (fun s' => StartsFrom g s'.stack) fun r => StartsFrom g r.stack := by
  cases role with
  | inside => exact hs
  | opens => exact hs.note hq (fun _ => .inl rfl) _
  | turns =>
    refine hs.note hq (fun b => ?_) _
    exact .inr rfl
  | closes =>
    have hnote : StartsFrom g (s.stack.note (s.depth - 1) fun b => { b with endAddr := some s.p }) := by
      refine hs.note hq (fun b => ?_) _
      exact .inr rfl
    simp only [Scan.advance]
    split
    · exact hnote
    · exact hnote

theorem scanFrom_starts (hp : g ≤ s.p) (hs : StartsFrom g s.stack) (h : scanFrom n label code s = some r) : StartsFrom g r.stack := by
  induction hm : n - s.p using Nat.strong_induction_on generalizing s with
  | _ m ih =>
    obtain ⟨hlt, o, q, hskip⟩ := scanFrom_inv h
    have hq : s.p < q := skipInstr_lt hskip
    have hstarts := advance_starts label hs (Nat.le_of_lt (Nat.lt_of_le_of_lt hp hq)) (Role.ofOpcode o)
    rw [scanFrom_step hskip hlt] at h
    cases hnext : s.advance label q (Role.ofOpcode o) with
    | inl s' =>
      rw [hnext] at h hstarts
      have hs' : s'.p = q := advance_next hnext
      exact ih (n - s'.p) (by omega) (by omega) hstarts h rfl
    | inr r' =>
      rw [hnext] at h hstarts
      cases h
      exact hstarts

end

/-! ## Runs -/

/-- `(uint8 *)-1`. -/
def memEnd : Nat := 2 ^ 64 - 1

/-- The end of the code of a function. -/
def CodeRange.codeEnd (f : CodeRange) : Nat := f.code + f.codeSize

/-- A process, as far as the cache is concerned: the memory, the functions of its module, and the execution environment. The bodies of the
functions stand apart in the file, and addresses are far from the end of the memory. -/
structure Running where
  code : Code
  funcs : List CodeRange
  env : ExecEnv
  apart : ∀ f ∈ funcs, ∀ f' ∈ funcs, f = f' ∨ f.codeEnd < f'.code ∨ f'.codeEnd < f.code
  room : ∀ f ∈ funcs, 0 < f.code ∧ f.codeSize < 2 ^ 32 ∧ f.code + 2 ^ 32 ≤ memEnd

/-- The instructions that use the cache: a `block` and an `if`, with the address behind the block type, and a branch to a block whose end is
not known, with the address behind its type. -/
inductive Use where
  | block (start : Nat)
  | ite (start : Nat)
  | br (start : Nat)

def Use.start : Use → Nat
  | block start | ite start | br start => start

namespace Running

/-- Store the cache that a scan leaves. -/
def withCache (w : Running) (cache : Cache) : Running := { w with env := { w.env with blockAddrCache := cache } }

/-- What such an instruction gets, and the process behind it. A `block` asks the cache only. -/
def use (w : Running) : Use → Option (Addrs × Running)
  | .block start => some (⟨none, (w.env.blockAddrCache.lookup start).bind (·.endAddr)⟩, w)
  | .ite start =>
    match w.env.blockAddrCache.lookup start with
    | some b => some (⟨some b.elseAddr, b.endAddr⟩, w)
    | none => (findBlockAddr memEnd w.env.blockAddrCache w.code start (.block .ite)).map fun x => (x.1, w.withCache x.2)
  | .br start => (findBlockAddr memEnd w.env.blockAddrCache w.code start (.block .block)).map fun x => (x.1, w.withCache x.2)

/-- Every entry of the cache is free, or what a scan of its own gives. -/
def Valid (w : Running) : Prop := w.env.blockAddrCache.Valid memEnd w.code

/-- Every entry of the cache is free, or has an `else`. -/
def HasElse (w : Running) : Prop :=
  w.env.blockAddrCache.All fun b => b.startAddr ≠ none → b.elseAddr ≠ none

/-- The block at `start` is in the code of a function, with its end. -/
def Encloses (w : Running) (start : Nat) : Prop :=
  ∃ f ∈ w.funcs, f.code ≤ start ∧ (uncached f.codeEnd w.code start).isSome

end Running

/-- A migration: the environment is dumped and restored, and the code of each function stands elsewhere, as it was. -/
structure Migrates (w w' : Running) (base bottom : Nat) (root : List PoolInfo) (place : CodeRange → Nat) (node : ExecEnv) : Prop where
  env : ExecEnv.migrate base w.funcs root bottom node w.env = .ok w'.env
  found : CodeFound base w.funcs root place
  funcs : w'.funcs = w.funcs.map fun f => ⟨place f, f.codeSize⟩
  copied : ∀ f ∈ w.funcs, Cursor.Copied w.code w'.code f.code f.codeEnd (place f)

/-- The processes that come from one whose environment was just created, by instructions that use the cache, for blocks that end in their
functions, and by migrations of processes in which every block of the cache has an `else`. -/
inductive CacheRun : Running → Prop
  | created {w : Running} (free : w.env.blockAddrCache = fun _ _ => {}) : CacheRun w
  | use {w w' : Running} {addrs : Addrs} (u : Use) (run : CacheRun w) (enclosed : w.Encloses u.start)
      (used : w.use u = some (addrs, w')) : CacheRun w'
  | migrate {w w' : Running} {base bottom : Nat} {root : List PoolInfo} {place : CodeRange → Nat} {node : ExecEnv} (run : CacheRun w)
      (hasElse : w.HasElse) (migrates : Migrates w w' base bottom root place node) : CacheRun w'

section

variable {w w' : Running} {base bottom : Nat} {root : List PoolInfo} {place : CodeRange → Nat} {node : ExecEnv} {f : CodeRange}
  {addrs : Addrs} {u : Use} {b : BlockAddr} {start x : Nat}

/-- The entry is free, or what a scan of its own finds in the code of a function. -/
def Running.Held (w : Running) (b : BlockAddr) : Prop :=
  b = {} ∨ ∃ f ∈ w.funcs, ∃ a e n, b = ⟨some a, e, some n⟩ ∧ f.code ≤ a ∧ uncached f.codeEnd w.code a = some (e, n)

theorem uncached_wider (hn : n ≤ n') {y : Option Nat × Nat} (h : uncached n code start = some y) : uncached n' code start = some y := by
  obtain ⟨r, hr, rfl⟩ := Option.map_eq_some_iff.1 h
  exact Option.map_eq_some_iff.2 ⟨r, scanFrom_wider hn hr, rfl⟩

theorem Running.codeEnd_le (w : Running) (hf : f ∈ w.funcs) : f.codeEnd ≤ memEnd := by
  obtain ⟨-, hsize, hroom⟩ := w.room f hf
  unfold CodeRange.codeEnd
  omega

theorem Running.Held.right (h : w.Held b) : Right memEnd w.code b := by
  rcases h with rfl | ⟨f, hf, a, e, n, rfl, -, heq⟩
  · exact .inl rfl
  · exact .inr ⟨a, e, n, rfl, uncached_wider (w.codeEnd_le hf) heq⟩

theorem Running.valid_of_held (h : w.env.blockAddrCache.All w.Held) : w.Valid := fun i j hi hj => (h i j hi hj).right

/-- The scan of a block that ends in its function fills the cache with such blocks. -/
theorem findBlockAddr_held (h : w.env.blockAddrCache.All w.Held) (henc : w.Encloses start) {label : LabelType} {cache : Cache}
    (hfind : findBlockAddr memEnd w.env.blockAddrCache w.code start label = some (addrs, cache)) : cache.All w.Held := by
  obtain ⟨f, hf, hstart, hin⟩ := henc
  unfold findBlockAddr at hfind
  cases hl : w.env.blockAddrCache.lookup start with
  | some b =>
    rw [hl] at hfind
    cases hfind
    exact h
  | none =>
    -- the scan up to the end of the function finds the block, and the scan that is made finds the same
    have hend := scan_end f.codeEnd label w.code start
    obtain ⟨y, hy⟩ := Option.isSome_iff_exists.1 hin
    rw [hy] at hend
    obtain ⟨r, hr, -⟩ := Option.map_eq_some_iff.1 hend
    have hwide : scan memEnd label w.code start = some r := scanFrom_wider (w.codeEnd_le hf) hr
    rw [hl, hwide] at hfind
    cases hfind
    have hstarts : StartsFrom f.code r.stack := by
      refine scanFrom_starts hstart (fun t x hx => ?_) hr
      by_cases ht : t = 0
      · subst ht
        cases hx
        exact hstart
      · simp [ht] at hx
    refine Cache.All.insertFrom (fun t => ?_) h 16
    rcases scanLoop_right (noted_start start) hr t with hfree | ⟨a, e, n, hb, heq⟩
    · exact .inl hfree
    · exact .inr ⟨f, hf, a, e, n, hb, hstarts t a (by rw [hb]), heq⟩

theorem use_held (h : w.env.blockAddrCache.All w.Held) (henc : w.Encloses u.start) (hu : w.use u = some (addrs, w')) :
    w'.env.blockAddrCache.All w'.Held := by
  have hfound : ∀ {label x}, (findBlockAddr memEnd w.env.blockAddrCache w.code u.start label).map (fun x => (x.1, w.withCache x.2)) =
      some x → x.2.env.blockAddrCache.All x.2.Held := by
    intro label x hx
    obtain ⟨⟨addrs', cache⟩, hfind, rfl⟩ := Option.map_eq_some_iff.1 hx
    exact findBlockAddr_held h henc hfind
  cases u with
  | block start =>
    cases hu
    exact h
  | ite start =>
    simp only [Running.use] at hu
    split at hu
    · cases hu
      exact h
    · exact hfound hu
  | br start => exact hfound hu

/-- What the instruction has to get: what the scan without the cache gives. A `block` may go without the end. -/
def Use.Answers (code : Code) : Use → Addrs → Prop
  | .block start, addrs => addrs.endAddr = none ∨ (uncached memEnd code start).map (fun y => some y.2) = some addrs.endAddr
  | .ite start, addrs => (uncached memEnd code start).map (fun y => (some y.1, some y.2)) = some (addrs.elseAddr, addrs.endAddr)
  | .br start, addrs => (uncached memEnd code start).map (fun y => some y.2) = some addrs.endAddr

theorem findBlockAddr_answers (h : w.Valid) {y : Option Nat × Nat} (hy : uncached memEnd w.code start = some y) (label : LabelType) :
    ∃ x, findBlockAddr memEnd w.env.blockAddrCache w.code start label = some x ∧ x.1.endAddr = some y.2 ∧
      (label = .block .ite → x.1.elseAddr = some y.1) := by
  have hvalid := findBlockAddr_valid h start label
  split at hvalid
  · next addrs cache hfind =>
    obtain ⟨-, e, n, heq, hend, helse⟩ := hvalid
    cases heq.symm.trans hy
    exact ⟨_, hfind, hend, helse⟩
  · cases hvalid.symm.trans hy

theorem use_answers (h : w.Valid) (henc : w.Encloses u.start) : ∃ addrs w', w.use u = some (addrs, w') ∧ u.Answers w.code addrs := by
  obtain ⟨f, hf, -, hin⟩ := henc
  obtain ⟨y, hy⟩ := Option.isSome_iff_exists.1 hin
  have hy' := uncached_wider (w.codeEnd_le hf) hy
  cases u with
  | block start =>
    refine ⟨_, w, rfl, ?_⟩
    cases hl : w.env.blockAddrCache.lookup start with
    | none => exact .inl rfl
    | some b =>
      obtain ⟨e, n, rfl, heq⟩ := h.lookup hl
      exact .inr (by simp [heq])
  | ite start =>
    simp only [Use.start] at hy'
    simp only [Running.use]
    cases hl : w.env.blockAddrCache.lookup start with
    | some b =>
      obtain ⟨e, n, rfl, heq⟩ := h.lookup hl
      exact ⟨_, w, rfl, by simp [Use.Answers, heq]⟩
    | none =>
      obtain ⟨x, hfind, hend, helse⟩ := findBlockAddr_answers h hy' (.block .ite)
      refine ⟨x.1, _, by rw [hfind]; rfl, ?_⟩
      rw [Use.Answers, hy', hend, helse rfl]
      rfl
  | br start =>
    simp only [Use.start] at hy'
    obtain ⟨x, hfind, hend, -⟩ := findBlockAddr_answers h hy' (.block .block)
    refine ⟨x.1, _, by rw [Running.use, hfind]; rfl, ?_⟩
    rw [Use.Answers, hy', hend]
    rfl

/-! ## The cache after a migration -/

theorem functionOf_eq (hf : f ∈ w.funcs) (hcode : f.code ≤ x) (hend : x < f.codeEnd) (e n : Option Nat) :
    functionOf w.funcs ⟨some x, e, n⟩ = some f := by
  have hsome : (functionOf w.funcs ⟨some x, e, n⟩).isSome := by
    rw [functionOf, List.find?_isSome]
    refine ⟨f, hf, ?_⟩
    simpa [CodeRange.checkIp] using ⟨hcode, Nat.le_of_lt hend⟩
  obtain ⟨f', hf'⟩ := Option.isSome_iff_exists.1 hsome
  have hcheck := List.find?_some hf'
  simp only [CodeRange.checkIp, Option.getD_some, Bool.and_eq_true, decide_eq_true_eq] at hcheck
  rcases w.apart f hf f' (List.mem_of_find?_eq_some hf') with rfl | hlt | hlt
  · exact hf'
  · omega
  · unfold CodeRange.codeEnd at hlt
    omega

theorem addrAt_moved {p' : Nat} (hpos : 0 < p') (hroom : p' + 2 ^ 32 ≤ memEnd) (hg : g ≤ x) (hx : x < g + 2 ^ 32) :
    addrAt p' (absOf g x) = some (moved g p' x) := by
  have hval : (((x : Int) - g) % 2 ^ 32).toNat = x - g := by omega
  have hnat : (absOf g x).toNat = x - g := by
    rw [absOf, hval]
    exact UInt32.toNat_ofNat_of_lt' (by unfold UInt32.size; omega)
  unfold memEnd at hroom
  have hmod : (x - g + p') % 2 ^ 64 = x - g + p' := Nat.mod_eq_of_lt (by omega)
  rw [addrAt, hnat, hmod, if_neg (by omega), moved]

theorem addrAt_ne_none {p' : Nat} (hpos : 0 < p') (hroom : p' + 2 ^ 32 ≤ memEnd) (ip : UInt32) : addrAt p' ip ≠ none := by
  have hlt : ip.toNat < 2 ^ 32 := ip.toNat_lt
  unfold memEnd at hroom
  have hmod : (ip.toNat + p') % 2 ^ 64 = ip.toNat + p' := Nat.mod_eq_of_lt (by omega)
  rw [addrAt, hmod, if_neg (by omega)]
  nofun

/-- What a block comes back as, and what a scan of its copy finds. -/
theorem carried_held (hm : Migrates w w' base bottom root place node) (hf : f ∈ w.funcs) {a n : Nat} {e : Option Nat} (ha : f.code ≤ a)
    (heq : uncached f.codeEnd w.code a = some (e, n)) : carried w.funcs place ⟨some a, e, some n⟩ =
        ⟨some (moved f.code (place f) a), addrAt (place f) (absOf f.code (e.getD 0)), some (moved f.code (place f) n)⟩ ∧
      uncached (place f + f.codeSize) w'.code (moved f.code (place f) a) = some (e.map (moved f.code (place f)), moved f.code (place f) n) ∧
      (e ≠ none → addrAt (place f) (absOf f.code (e.getD 0)) = e.map (moved f.code (place f))) := by
  have hlen : f.codeEnd - f.code + place f ≤ place f + f.codeSize := by
    unfold CodeRange.codeEnd
    omega
  obtain ⟨hrun, han, hn, he⟩ := restOf_copied (hm.copied f hf) hlen ha heq
  have hmem : ⟨place f, f.codeSize⟩ ∈ w'.funcs := hm.funcs ▸ List.mem_map_of_mem hf
  obtain ⟨hpos, hsize, hroom⟩ : 0 < place f ∧ f.codeSize < 2 ^ 32 ∧ place f + 2 ^ 32 ≤ memEnd := w'.room _ hmem
  have hback : ∀ y, f.code ≤ y → y < f.codeEnd → addrAt (place f) (absOf f.code y) = some (moved f.code (place f) y) := by
    intro y hy hy'
    unfold CodeRange.codeEnd at hy'
    exact addrAt_moved hpos hroom hy (by omega)
  refine ⟨?_, hrun, fun hne => ?_⟩
  · rw [carried, if_neg (by nofun), functionOf_eq hf ha (Nat.lt_of_le_of_lt han hn)]
    simp only [Option.getD_some, hback a ha (Nat.lt_of_le_of_lt han hn), hback n (Nat.le_trans ha han) hn]
  obtain ⟨y, rfl⟩ := Option.ne_none_iff_exists'.1 hne
  rcases he y rfl with hy | ⟨hay, hy⟩
  · cases hy
  · exact hback y (Nat.le_trans ha hay) hy

theorem migrate_held_iff (hm : Migrates w w' base bottom root place node) (h : w.env.blockAddrCache.All w.Held) :
    (w'.Valid ↔ w.HasElse) ∧ (w.HasElse → w'.env.blockAddrCache.All w'.Held) := by
  have hcache := fun i j hi hj => migrate_cache (i := i) (j := j) hm.found hm.env hi hj
  have hback : w.HasElse → w'.env.blockAddrCache.All w'.Held := by
    intro helse i j hi hj
    rw [hcache i j hi hj]
    have hb := helse i j hi hj
    rcases h i j hi hj with hfree | ⟨f, hf, a, e, n, hentry, ha, heq⟩
    · rw [hfree, carried, if_pos rfl]
      exact .inl rfl
    rw [hentry] at hb ⊢
    obtain ⟨hcarried, hscan, hne⟩ := carried_held hm hf ha heq
    have hmem : ⟨place f, f.codeSize⟩ ∈ w'.funcs := hm.funcs ▸ List.mem_map_of_mem hf
    rw [hcarried, hne (hb nofun)]
    exact .inr ⟨_, hmem, _, _, _, rfl, Nat.le_add_left _ _, hscan⟩
  refine ⟨⟨fun hvalid i j hi hj hstart hnone => ?_, fun helse => Running.valid_of_held (hback helse)⟩, hback⟩
  have hright := hvalid i j hi hj
  rw [hcache i j hi hj] at hright
  rcases h i j hi hj with hfree | ⟨f, hf, a, e, n, hentry, ha, heq⟩
  · rw [hfree] at hstart
    exact hstart rfl
  rw [hentry] at hright hnone
  obtain rfl : e = none := hnone
  obtain ⟨hcarried, hscan, -⟩ := carried_held hm hf ha heq
  have hmem : ⟨place f, f.codeSize⟩ ∈ w'.funcs := hm.funcs ▸ List.mem_map_of_mem hf
  obtain ⟨hpos, -, hroom⟩ := w'.room _ hmem
  rw [hcarried] at hright
  rcases hright with hfree | ⟨a', e', n', hb, heq'⟩
  · cases hfree
  · cases hb
    rw [uncached_wider (w'.codeEnd_le hmem) hscan] at heq'
    exact addrAt_ne_none hpos hroom _ (congrArg Prod.fst (Option.some.inj heq')).symm

theorem CacheRun.held (h : CacheRun w) : w.env.blockAddrCache.All w.Held := by
  induction h with
  | created free =>
    intro i j hi hj
    rw [free]
    exact .inl rfl
  | use u run enclosed used ih => exact use_held ih enclosed used
  | migrate run hasElse migrates ih => exact (migrate_held_iff migrates ih).2 hasElse

/-- In every process that a run comes to, the entries of the cache are those of scans of their own, and instructions get what such scans give.
After a migration this is so exactly if every block of the cache has an `else`. -/
theorem cache_transparent_iff (h : CacheRun w) :
    w.Valid ∧ (∀ u : Use, w.Encloses u.start → ∃ addrs w', w.use u = some (addrs, w') ∧ u.Answers w.code addrs) ∧
      ∀ {w' : Running} {base bottom : Nat} {root : List PoolInfo} {place : CodeRange → Nat} {node : ExecEnv},
        Migrates w w' base bottom root place node → (w'.Valid ↔ w.HasElse) := by
  have hvalid : w.Valid := Running.valid_of_held h.held
  exact ⟨hvalid, fun u henc => use_answers hvalid henc, fun hm => (migrate_held_iff hm h.held).1⟩

/-- An environment without pointers is read back if every block of the cache is in a function. -/
theorem migrate_ok_of_held (h : w.env.blockAddrCache.All w.Held) (hfound : CodeFound base w.funcs root place) (hne : w.funcs ≠ [])
    (hptr : w.env.next = 0 ∧ w.env.prev = 0 ∧ w.env.moduleInst = 0 ∧ w.env.attachment = 0) (bottom : Nat) (node : ExecEnv) :
    ∃ env', ExecEnv.migrate base w.funcs root bottom node w.env = .ok env' := by
  refine migrate_ok hfound hne (fun b hb => ?_) hptr
  obtain ⟨k, hk, rfl⟩ := List.mem_map.1 hb
  rw [List.mem_range] at hk
  rcases h (k / 2) (k % 2) (by omega) (by omega) with hfree | ⟨f, hf, a, e, n, hentry, ha, heq⟩
  · exact .inl hfree
  · rw [hentry, functionOf_eq hf ha (restOf_inv heq).1]
    exact .inr rfl

/-- A process with one function, whose code stands at `place`. -/
def Running.single (body : List UInt8) (place : Nat) (env : ExecEnv)
    (room : 0 < place ∧ body.length < 2 ^ 32 ∧ place + 2 ^ 32 ≤ memEnd) : Running where
  code a := body.getD (a - place) 0
  funcs := [⟨place, body.length⟩]
  env
  apart f hf f' hf' := .inl ((List.mem_singleton.1 hf).trans (List.mem_singleton.1 hf').symm)
  room f hf := by
    obtain rfl := List.mem_singleton.1 hf
    exact room

/-- The process with one function at 8192. -/
def Running.before (body : List UInt8) (h : body.length < 2 ^ 32) : Running := .single body 8192 {} ⟨by decide, h, by decide⟩

/-- A run in which the block at `start` is asked for once, and the process in which its function stands at 12288. -/
theorem single_migrates (body : List UInt8) (h : body.length < 2 ^ 32) (start : Nat) (henc : (Running.before body h).Encloses start) :
    ∃ addrs w w', (Running.before body h).use (.ite start) = some (addrs, w) ∧ CacheRun w ∧
      Migrates w w' 4096 0 [⟨4096, 12288, 4, .uint8T, [], 4⟩] (fun _ => 12288) {} ∧ w'.code = fun a => body.getD (a - 12288) 0 := by
  have hrun : CacheRun (Running.before body h) := .created rfl
  obtain ⟨addrs, w, hu, -⟩ := use_answers (u := .ite start) (Running.valid_of_held hrun.held) henc
  have hrun' : CacheRun w := hrun.use (.ite start) henc hu
  have hw : ∃ cache, w = (Running.before body h).withCache cache := by
    simp only [Running.use] at hu
    split at hu
    · cases hu
      exact ⟨_, rfl⟩
    · obtain ⟨x, -, hx⟩ := Option.map_eq_some_iff.1 hu
      cases hx
      exact ⟨_, rfl⟩
  obtain ⟨cache, rfl⟩ := hw
  have hfound : CodeFound 4096 [⟨8192, body.length⟩] [⟨4096, 12288, 4, .uint8T, [], 4⟩] fun _ => 12288 := by
    refine ⟨fun f hf => ?_, fun f hf => ?_⟩
    · obtain rfl := List.mem_singleton.1 hf
      have hne : dumpFramePtr 4096 8192 ≠ 0xFFFFFFFF := by decide
      exact hne
    obtain rfl := List.mem_singleton.1 hf
    have hinfo : getInfo [⟨4096, 12288, 4, .uint8T, [], 4⟩] (dumpFramePtr 4096 8192) =
        .ok (some ⟨4096, 12288, 4, .uint8T, [], 4⟩) := rfl
    exact ⟨_, hinfo, rfl⟩
  obtain ⟨env', henv⟩ := migrate_ok_of_held hrun'.held hfound (by nofun) ⟨rfl, rfl, rfl, rfl⟩ 0 {}
  refine ⟨addrs, _, .single body 12288 env' ⟨by decide, h, by decide⟩, hu, hrun', ⟨henv, hfound, rfl, fun f hf => ?_⟩, rfl⟩
  obtain rfl := List.mem_singleton.1 hf
  intro k hk
  show body.getD (12288 + k - 12288) 0 = body.getD (8192 + k - 8192) 0
  rw [Nat.add_sub_cancel_left, Nat.add_sub_cancel_left]

/-- An `if` without an `else`: after a migration the cache has an `else` for it. -/
theorem missing_else_restored : ∃ addrs w w',
    (Running.before [0x41, 0x00, 0x04, 0x40, 0x0b, 0x0b] (by decide)).use (.ite 8196) = some (addrs, w) ∧
    addrs = ⟨some none, some 8196⟩ ∧ CacheRun w ∧
    Migrates w w' 4096 0 [⟨4096, 12288, 4, .uint8T, [], 4⟩] (fun _ => 12288) {} ∧
    w'.env.blockAddrCache 4 0 = ⟨some 12292, some 4294971392, some 12292⟩ ∧ uncached memEnd w'.code 12292 = some (none, 12292) ∧
    ¬ w'.Valid := by
  obtain ⟨addrs, w, w', hu, hrun, hm, hcode⟩ :=
    single_migrates [0x41, 0x00, 0x04, 0x40, 0x0b, 0x0b] (by decide) 8196
      ⟨_, List.mem_singleton_self _, by decide, by decide +kernel⟩
  have hgot : (some (addrs, w)).map (fun x => (x.1, x.2.env.blockAddrCache 4 0, x.2.funcs)) =
      some (⟨some none, some 8196⟩, ⟨some 8196, none, some 8196⟩, [⟨8192, 6⟩]) := by
    rw [← hu]
    decide +kernel
  simp only [Option.map_some, Option.some.injEq, Prod.mk.injEq] at hgot
  obtain ⟨rfl, hentry, hfuncs⟩ := hgot
  refine ⟨_, w, w', hu, rfl, hrun, hm, ?_, ?_, fun hvalid => ?_⟩
  · rw [migrate_cache hm.found hm.env (by decide) (by decide), hentry, hfuncs]
    decide
  · rw [hcode]
    decide +kernel
  · have helse := (migrate_held_iff hm hrun.held).1.1 hvalid 4 0 (by decide) (by decide)
    rw [hentry] at helse
    exact helse nofun rfl

/-- An `if` with an `else`. -/
theorem else_restored : ∃ addrs w w',
    (Running.before [0x41, 0x00, 0x04, 0x40, 0x05, 0x0b, 0x0b] (by decide)).use (.ite 8196) = some (addrs, w) ∧
    addrs = ⟨some (some 8196), some 8197⟩ ∧
    Migrates w w' 4096 0 [⟨4096, 12288, 4, .uint8T, [], 4⟩] (fun _ => 12288) {} ∧ w.Valid ∧ (w'.Valid ↔ w.HasElse) := by
  obtain ⟨addrs, w, w', hu, hrun, hm, hcode⟩ :=
    single_migrates [0x41, 0x00, 0x04, 0x40, 0x05, 0x0b, 0x0b] (by decide) 8196
      ⟨_, List.mem_singleton_self _, by decide, by decide +kernel⟩
  have hgot : (some (addrs, w)).map Prod.fst = some ⟨some (some 8196), some 8197⟩ := by
    rw [← hu]
    decide +kernel
  obtain ⟨hvalid, -, hiff⟩ := cache_transparent_iff hrun
  exact ⟨addrs, w, w', hu, Option.some.inj hgot, hm, hvalid, hiff hm⟩

end

end WamrMigrate.Interp
