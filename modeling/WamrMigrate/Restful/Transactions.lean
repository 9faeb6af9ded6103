import Mathlib.Data.List.Nodup
import WamrMigrate.Restful.Packet

/-!
# The transactions of an app

An app keeps the requests it has sent in a list until a response or a timeout gives each to its handler, and one timer for the transaction at the
head. Handlers run inside `on_response` and `transaction_timeout_handler` and may send requests themselves. The clock counts milliseconds, and the
app sees its low 32 bits.
-/

namespace WamrMigrate.Restful

/-- `TRANSACTION_TIMEOUT_MS`. -/
def transactionTimeoutMs : UInt32 := 5000

/-- `transaction_t`: which one it is, its mid and the clock when it was sent. -/
structure Transaction where
  id : Nat
  mid : UInt32
  tick : Nat
  deriving DecidableEq, Repr

/-- The start time, as `wasm_get_sys_tick_ms` gives it. -/
def Transaction.time (t : Transaction) : UInt32 := .ofNat t.tick

/-- `struct user_timer` at its address. -/
structure UserTimer where
  addr : Nat
  timerId : UInt32
  deriving DecidableEq, Repr

/-- The globals of the app, and around them the clock, when and for which interval the timer of the transactions was set last, the number of transactions
so far, and the calls of handlers so far. -/
structure App where
  clock : Nat
  sent : Nat
  calls : List (Nat × Option Response)
  transactions : List Transaction
  timers : List UserTimer
  transTimer : Option UserTimer
  set : Option (Nat × UInt32)

/-- A call of `api_send_request`: the mid, whether there is memory for the transaction and whether the request can be packed, what `wasm_create_timer`
returns and where there is memory for the timer; and the time that passes before the clock is read and after it. -/
structure Send where
  mid : UInt32
  malloc : Bool
  packed : Bool
  timerId : UInt32
  timerAddr : Option Nat
  before : Nat
  after : Nat

/-- Why a call does not return: a loop goes on, or a null pointer is followed. -/
inductive Stop where
  | endless
  | null
  deriving DecidableEq, Repr

/-- The loop of `transaction_add` on a list that is not empty. It does not move on from the first transaction. -/
def transactionAddLoop (trans : Transaction) (ts : List Transaction) : Nat → Option (List Transaction)
  | 0 => none
  | n + 1 => if ts.tail = [] then some (ts ++ [trans]) else transactionAddLoop trans ts n

/-- `transaction_add`, with a bound on the passes of its loop. -/
def transactionAdd (n : Nat) (trans : Transaction) (ts : List Transaction) : Option (List Transaction) :=
  if ts = [] then some [trans] else transactionAddLoop trans ts n

/-- `transaction_remove`. -/
def transactionRemove (trans : Transaction) : List Transaction → List Transaction
  | [] => []
  | t :: ts => if t.id = trans.id then ts else t :: transactionRemove trans ts

/-- The time since a transaction was sent, as far as the app can tell. -/
def elapsedMs (now : UInt32) (t : Transaction) : UInt32 := if now < t.time then now + (0xFFFFFFFF - t.time) + 1 else now - t.time

/-- The first loop of `transaction_timeout_handler`: what has expired, the last one first, and what remains. -/
def expireLoop (now : UInt32) : List Transaction → List Transaction → List Transaction × List Transaction
  | expired, [] => (expired, [])
  | expired, t :: ts => if transactionTimeoutMs ≤ elapsedMs now t then expireLoop now (t :: expired) ts else (expired, t :: ts)

namespace App

def init : App := ⟨0, 0, [], [], [], none, none⟩

def wait (a : App) (ms : Nat) : App := { a with clock := a.clock + ms }

/-- `wasm_get_sys_tick_ms`. -/
def sysTickMs (a : App) : UInt32 := .ofNat a.clock

/-- `api_timer_create` for the transactions. The id is that of no timer if `wasm_create_timer` fails. -/
def timerCreate (a : App) (interval : UInt32) (s : Send) : App :=
  let a := if s.timerId = -1 then a else { a with set := some (a.clock, interval) }
  match s.timerAddr with
  | none => a
  | some addr => { a with timers := ⟨addr, s.timerId⟩ :: a.timers, transTimer := some ⟨addr, s.timerId⟩ }

/-- `api_timer_cancel` on the timer of the transactions, which is then forgotten. -/
def timerCancel (a : App) : Except Stop App :=
  match a.transTimer with
  | none => .error .null
  | some t => .ok { a with set := none, timers := a.timers.erase t, transTimer := none }

/-- `api_timer_restart` on the timer of the transactions. -/
def timerRestart (a : App) (interval : UInt32) : Except Stop App :=
  match a.transTimer with
  | none => .error .null
  | some t => .ok (if t.timerId = -1 then a else { a with set := some (a.clock, interval) })

/-- The timer is set for a transaction, with some time between the reading of the clock and the setting. -/
def restartFor (a : App) (t : Transaction) (after : Nat) : Except Stop App :=
  (a.wait after).timerRestart (transactionTimeoutMs - elapsedMs a.sysTickMs t)

/-- `api_send_request`. -/
def sendRequest (n : Nat) (a : App) (s : Send) : Except Stop App :=
  if s.malloc then
    let trans : Transaction := ⟨a.sent, s.mid, a.clock + s.before⟩
    let a := a.wait (s.before + s.after)
    if s.packed then
      match transactionAdd n trans a.transactions with
      | none => .error .endless
      | some ts =>
        let a := { a with transactions := ts, sent := a.sent + 1 }
        .ok (if ts.head? = some trans ∧ a.transTimer = none then a.timerCreate transactionTimeoutMs s else a)
    else .ok a
  else .ok a

/-- A call of a handler, which sends requests. -/
def callHandler (n : Nat) (a : App) (trans : Transaction) (response : Option Response) (sends : List Send) : Except Stop App :=
  sends.foldlM (sendRequest n) { a with calls := a.calls ++ [(trans.id, response)] }

/-- What `on_response` does with the timer: `before` and `after` are the times before and after the clock is read. -/
def updateTimer (a : App) (found : Transaction) (before after : Nat) : Except Stop App :=
  if a.transactions.head? = some found then
    match a.transactions.tail with
    | next :: _ => (a.wait before).restartFor next after
    | [] => a.timerCancel
  else .ok a

/-- `on_response`, after `unpack_response`; `sends` is what the handler does. -/
def onResponse (n : Nat) (a : App) (response : Response) (before after : Nat) (sends : List Send) : Except Stop App :=
  match a.transactions.find? (·.mid = response.mid) with
  | none => .ok a
  | some found => do
    let a ← a.updateTimer found before after
    let a ← a.callHandler n found (some response) sends
    return { a with transactions := transactionRemove found a.transactions }

/-- The second loop of `transaction_timeout_handler`, with what each handler does. -/
def callExpired (n : Nat) : App → List Transaction → List (List Send) → Except Stop App
  | a, [], _ => .ok a
  | a, t :: ts, sends => do
    let a ← a.callHandler n t none (sends.headD [])
    a.callExpired n ts sends.tail

/-- The end of `transaction_timeout_handler`: the timer is set for the transaction that is now the first one, or it is stopped. -/
def finishTimeout (a : App) (after after' : Nat) : Except Stop App :=
  match a.transactions with
  | first :: _ => (a.wait after).restartFor first after'
  | [] => a.timerCancel

/-- `transaction_timeout_handler`. -/
def timeoutHandler (n : Nat) (a : App) (before after after' : Nat) (sends : List (List Send)) : Except Stop App := do
  let a := a.wait before
  let (expired, rest) := expireLoop a.sysTickMs [] a.transactions
  let a ← callExpired n { a with transactions := rest } expired sends
  a.finishTimeout after after'

end App

/-- What happens to an app. -/
inductive AppEvent where
  | send (s : Send)
  | response (r : Response) (before after : Nat) (sends : List Send)
  | timer (timerId : UInt32) (before after after' : Nat) (sends : List (List Send))

namespace App

/-- One event. `on_timer_callback` looks for the timer among those made for the transactions; a timer that goes off is not set any more. -/
def step (n : Nat) (a : App) : AppEvent → Except Stop App
  | .send s => a.sendRequest n s
  | .response r before after sends => a.onResponse n r before after sends
  | .timer timerId before after after' sends =>
    match a.timers.find? (·.timerId = timerId) with
    | none => .ok a
    | some _ => { a with set := none }.timeoutHandler n before after after' sends

end App

/-! ## What calls of `api_send_request` add -/

/-- The call gets as far as `transaction_add`. -/
def Send.Adds (s : Send) : Prop := s.malloc = true ∧ s.packed = true

instance (s : Send) : Decidable s.Adds := inferInstanceAs (Decidable (_ ∧ _))

/-- The time that the call takes. -/
def Send.takes (s : Send) : Nat := if s.malloc then s.before + s.after else 0

/-- The transactions that calls add from a clock and a number of transactions on. -/
def added : Nat → Nat → List Send → List Transaction
  | _, _, [] => []
  | clock, sent, s :: ss =>
    if s.Adds then ⟨sent, s.mid, clock + s.before⟩ :: added (clock + s.takes) (sent + 1) ss else added (clock + s.takes) sent ss

/-- `transaction_add` returns for all of them. -/
def Room (len : Nat) (new : List Transaction) : Prop := new = [] ∨ len + new.length ≤ 2

instance (len : Nat) (new : List Transaction) : Decidable (Room len new) := inferInstanceAs (Decidable (_ ∨ _))

theorem room_append {len : Nat} {new new' : List Transaction} : Room len (new ++ new') ↔ Room len new ∧ Room (len + new.length) new' := by
  simp only [Room, ← List.length_eq_zero_iff, List.length_append]
  omega

theorem room_two {new : List Transaction} (h : Room 2 new) : new = [] := by
  rcases h with h | h
  · exact h
  · exact List.length_eq_zero_iff.1 (by omega)

theorem added_append (clock sent : Nat) (ss ts : List Send) : added clock sent (ss ++ ts) =
      added clock sent ss ++ added (clock + (ss.map Send.takes).sum) (sent + (added clock sent ss).length) ts := by
  induction ss generalizing clock sent with
  | nil => rfl
  | cons s ss ih =>
    rw [List.cons_append, added, added, List.map_cons, List.sum_cons, ← Nat.add_assoc]
    split
    · rw [ih, List.cons_append, List.length_cons, Nat.add_right_comm sent, Nat.add_assoc sent]
    · exact ih _ _

theorem map_id_added (clock sent : Nat) (ss : List Send) :
    (added clock sent ss).map Transaction.id = List.range' sent (added clock sent ss).length := by
  induction ss generalizing clock sent with
  | nil => rfl
  | cons s ss ih =>
    rw [added]
    split
    · rw [List.map_cons, ih, List.length_cons, List.range'_succ]
    · exact ih _ _

theorem transactionAdd_eq (n : Nat) (trans : Transaction) (ts : List Transaction) :
    transactionAdd (n + 1) trans ts = if ts.length ≤ 1 then some (ts ++ [trans]) else none := by
  match ts with
  | [] => rfl
  | [t] => rfl
  | t :: u :: ts =>
    -- no pass changes anything, so none returns
    have endless (n : Nat) : transactionAddLoop trans (t :: u :: ts) n = none := by
      induction n with
      | zero => rfl
      | succ n ih => exact ih
    rw [transactionAdd, if_neg (List.cons_ne_nil _ _), endless, if_neg (by simp only [List.length_cons]; omega)]

namespace App

variable {n : Nat} {a a' : App} {s : Send} {sends : List Send}

/-- The app after calls that add to a list or find a timer that is there. -/
def grown (a : App) (sends : List Send) : App :=
  { a with clock := a.clock + (sends.map Send.takes).sum,
           sent := a.sent + (added a.clock a.sent sends).length,
           transactions := a.transactions ++ added a.clock a.sent sends }

/-- A list that is not empty or a timer: a new transaction starts none. -/
structure Busy (a : App) : Prop where
  busy : a.transactions ≠ [] ∨ a.transTimer ≠ none
  ids : ∀ t ∈ a.transactions, t.id < a.sent

theorem grown_append (a : App) (ss ts : List Send) : a.grown (ss ++ ts) = (a.grown ss).grown ts := by
  simp only [grown, added_append, List.map_append, List.sum_append, List.length_append, List.append_assoc, Nat.add_assoc]

theorem Busy.grown (h : a.Busy) (sends : List Send) : (a.grown sends).Busy where
  busy := h.busy.imp_left fun hne hnil => hne (List.append_eq_nil_iff.1 hnil).1
  ids t ht := by
    rcases List.mem_append.1 ht with ht | ht
    · exact Nat.lt_add_right _ (h.ids t ht)
    · have hid := List.mem_map_of_mem (f := Transaction.id) ht
      rw [map_id_added, List.mem_range'_1] at hid
      exact hid.2

theorem sendRequest_adds (hs : s.Adds) : a.sendRequest (n + 1) s = if a.transactions.length ≤ 1 then
        .ok (if (a.grown [s]).transactions.head? = some ⟨a.sent, s.mid, a.clock + s.before⟩ ∧ a.transTimer = none then
          (a.grown [s]).timerCreate transactionTimeoutMs s else a.grown [s]) else .error .endless := by
  have hadd : added a.clock a.sent [s] = [⟨a.sent, s.mid, a.clock + s.before⟩] := if_pos hs
  have htakes : ([s].map Send.takes).sum = s.before + s.after := if_pos hs.1
  have hts := transactionAdd_eq n ⟨a.sent, s.mid, a.clock + s.before⟩ (a.wait (s.before + s.after)).transactions
  rw [App.sendRequest, if_pos hs.1, if_pos hs.2, App.grown, hadd, htakes]
  by_cases hlen : a.transactions.length ≤ 1
  · rw [hts.trans (if_pos hlen), if_pos hlen]
    rfl
  · rw [hts.trans (if_neg hlen), if_neg hlen]

theorem sendRequest_of_not_adds (hs : ¬ s.Adds) : a.sendRequest n s = .ok (a.grown [s]) := by
  have hadd : added a.clock a.sent [s] = [] := if_neg hs
  rw [App.grown, hadd, App.sendRequest]
  by_cases hm : s.malloc = true
  · have htakes : ([s].map Send.takes).sum = s.before + s.after := if_pos hm
    rw [if_pos hm, if_neg fun hp => hs ⟨hm, hp⟩, htakes, List.append_nil]
    rfl
  · have htakes : ([s].map Send.takes).sum = 0 := if_neg hm
    rw [if_neg hm, htakes, List.append_nil]
    rfl

theorem Busy.sendRequest (h : a.Busy) (s : Send) :
    a.sendRequest (n + 1) s = if Room a.transactions.length (added a.clock a.sent [s]) then .ok (a.grown [s]) else .error .endless := by
  by_cases hs : s.Adds
  · have hadd : added a.clock a.sent [s] = [⟨a.sent, s.mid, a.clock + s.before⟩] := if_pos hs
    have hroom : a.transactions.length ≤ 1 ↔ Room a.transactions.length (added a.clock a.sent [s]) := by
      simp only [Room, hadd, List.cons_ne_nil, false_or, List.length_singleton]
      omega
    rw [sendRequest_adds hs]
    refine ite_congr (propext hroom) (fun _ => ?_) (fun _ => rfl)
    rw [if_neg]
    -- neither is the new transaction the first one nor is there no timer
    rintro ⟨hhead, htimer⟩
    rcases h.busy with hne | hne
    · rw [App.grown, List.head?_append_of_ne_nil _ hne] at hhead
      exact Nat.lt_irrefl _ (h.ids _ (List.mem_of_mem_head? hhead))
    · exact hne htimer
  · have hadd : added a.clock a.sent [s] = [] := if_neg hs
    rw [sendRequest_of_not_adds hs, if_pos (.inl hadd)]

theorem Busy.sendAll (h : a.Busy) (sends : List Send) : sends.foldlM (App.sendRequest (n + 1)) a =
      if Room a.transactions.length (added a.clock a.sent sends) then .ok (a.grown sends) else .error .endless := by
  induction sends generalizing a with
  | nil =>
    rw [if_pos (.inl rfl)]
    simp only [App.grown, added, List.append_nil]
    rfl
  | cons s ss ih =>
    have hcons : s :: ss = [s] ++ ss := rfl
    rw [List.foldlM_cons, h.sendRequest, hcons, added_append, grown_append]
    split
    · rename_i hroom
      have hlen : (a.grown [s]).transactions.length = a.transactions.length + (added a.clock a.sent [s]).length := List.length_append
      have hrest := ih (h.grown [s])
      rw [hlen] at hrest
      exact hrest.trans (ite_congr (propext (room_append.trans (and_iff_right hroom)).symm) (fun _ => rfl) (fun _ => rfl))
    · rename_i hroom
      rw [if_neg fun hall => hroom (room_append.1 hall).1]
      rfl

theorem Busy.callHandler (h : a.Busy) (t : Transaction) (r : Option Response) (sends : List Send) : a.callHandler (n + 1) t r sends =
      if Room a.transactions.length (added a.clock a.sent sends) then .ok { a.grown sends with calls := a.calls ++ [(t.id, r)] }
      else .error .endless :=
  (⟨h.busy, h.ids⟩ : Busy { a with calls := a.calls ++ [(t.id, r)] }).sendAll sends

theorem Busy.callExpired (h : a.Busy) (ts : List Transaction) (sends : List (List Send)) : a.callExpired (n + 1) ts sends =
      if Room a.transactions.length (added a.clock a.sent (sends.take ts.length).flatten) then
        .ok { a.grown (sends.take ts.length).flatten with calls := a.calls ++ ts.map fun t => (t.id, none) }
      else .error .endless := by
  induction ts generalizing a sends with
  | nil =>
    rw [List.length_nil, List.take_zero, List.flatten_nil, if_pos (.inl rfl)]
    simp only [App.grown, added, List.append_nil, List.map_nil]
    rfl
  | cons t ts ih =>
    have hflat : (sends.take (t :: ts).length).flatten = sends.headD [] ++ (sends.tail.take ts.length).flatten := by
      cases sends with
      | nil => simp
      | cons s ss => rfl
    rw [App.callExpired, h.callHandler, hflat, added_append, grown_append]
    split
    · rename_i hroom
      have hbusy : Busy { a.grown (sends.headD []) with calls := a.calls ++ [(t.id, none)] } :=
        ⟨(h.grown _).busy, (h.grown _).ids⟩
      have hlen : (a.grown (sends.headD [])).transactions.length =
          a.transactions.length + (added a.clock a.sent (sends.headD [])).length := List.length_append
      have hrest := ih hbusy sends.tail
      simp only [hlen, List.append_assoc] at hrest
      exact hrest.trans (ite_congr (propext (room_append.trans (and_iff_right hroom)).symm) (fun _ => rfl) (fun _ => rfl))
    · rename_i hroom
      rw [if_neg fun hall => hroom (room_append.1 hall).1]
      rfl

end App

theorem tick_added {clock sent : Nat} {sends : List Send} {t : Transaction} (ht : t ∈ added clock sent sends) :
    clock ≤ t.tick ∧ t.tick ≤ clock + (sends.map Send.takes).sum := by
  induction sends generalizing clock sent with
  | nil => nomatch ht
  | cons s ss ih =>
    rw [List.map_cons, List.sum_cons]
    rw [added] at ht
    split at ht
    · rename_i hs
      have htakes : s.takes = s.before + s.after := if_pos hs.1
      rcases List.mem_cons.1 ht with rfl | ht
      · dsimp only
        omega
      · have := ih ht
        omega
    · have := ih ht
      omega

theorem added_eq_nil_iff {clock sent : Nat} {sends : List Send} : added clock sent sends = [] ↔ ∀ s ∈ sends, ¬ s.Adds := by
  induction sends generalizing clock sent with
  | nil => exact iff_of_true rfl nofun
  | cons s ss ih =>
    rw [added, List.forall_mem_cons]
    split
    · rename_i hs
      exact iff_of_false (List.cons_ne_nil _ _) fun h => h.1 hs
    · rename_i hs
      rw [ih, and_iff_right hs]

theorem expireLoop_eq (now : UInt32) (expired ts : List Transaction) :
    expireLoop now expired ts = ((ts.takeWhile fun t => transactionTimeoutMs ≤ elapsedMs now t).reverse ++ expired,
      ts.dropWhile fun t => transactionTimeoutMs ≤ elapsedMs now t) := by
  induction ts generalizing expired with
  | nil => rfl
  | cons t ts ih =>
    rw [expireLoop, List.takeWhile_cons, List.dropWhile_cons]
    split
    · rename_i ht
      rw [ih, decide_eq_true ht, if_pos rfl, if_pos rfl, List.reverse_cons, List.append_assoc]
      rfl
    · rename_i ht
      rw [decide_eq_false ht]
      rfl

theorem elapsedMs_toNat {now : Nat} {t : Transaction} (h : t.tick ≤ now) : (elapsedMs (.ofNat now) t).toNat = (now - t.tick) % 2 ^ 32 := by
  have hsub : elapsedMs (.ofNat now) t = .ofNat now - t.time := by
    unfold elapsedMs
    split
    · grind
    · rfl
  rw [hsub, UInt32.toNat_sub, Transaction.time, UInt32.toNat_ofNat', UInt32.toNat_ofNat']
  omega

/-! ## What the transactions are for -/

namespace App

/-- The timer goes off within the timeout, and from then on, until the 32 bits of the clock have gone round, the transaction has expired. -/
def ArmedFor (a : App) (first : Transaction) : Prop :=
  ∃ timer start interval, a.transTimer = some timer ∧ timer.timerId ≠ -1 ∧ a.set = some (start, interval) ∧ interval ≤ transactionTimeoutMs ∧
    ∀ now, start + interval.toNat ≤ now → now < first.tick + 2 ^ 32 → transactionTimeoutMs ≤ elapsedMs (.ofNat now) first

/-- If the list is not empty, the timer is set for its first transaction. -/
def Armed (a : App) : Prop := ∀ first ∈ a.transactions.head?, a.ArmedFor first

/-- The list has all transactions whose handler has not been called, in the order in which they were sent. -/
def Outstanding (a : App) : Prop := a.transactions.map Transaction.id = (List.range a.sent).filter fun i => i ∉ a.calls.map Prod.fst

/-- No handler has been called twice. -/
def Once (a : App) : Prop := (a.calls.map Prod.fst).Nodup

/-- The transactions that the app takes for expired. -/
def expired (a : App) (before : Nat) : List Transaction :=
  a.transactions.takeWhile fun t => transactionTimeoutMs ≤ elapsedMs (.ofNat (a.clock + before)) t

def remaining (a : App) (before : Nat) : List Transaction :=
  a.transactions.dropWhile fun t => transactionTimeoutMs ≤ elapsedMs (.ofNat (a.clock + before)) t

/-- The handlers that an event calls: with a response that of the transaction that it is for, with nothing those of the transactions that have expired
when the timer goes off. -/
def Calls (a a' : App) : AppEvent → Prop
  | .send _ => a'.calls = a.calls
  | .response r _ _ _ =>
    match a.transactions.find? (·.mid = r.mid) with
    | some t => a'.calls = a.calls ++ [(t.id, some r)]
    | none => a'.calls = a.calls
  | .timer timerId before _ _ _ =>
    if a.transTimer.map UserTimer.timerId = some timerId then
      a'.calls = a.calls ++ (a.expired before).reverse.map fun t => (t.id, none)
    else a'.calls = a.calls

/-- All events return and do what they are for. -/
def Kept (n : Nat) : App → List AppEvent → Prop
  | _, [] => True
  | a, e :: es => ∃ a', a.step n e = .ok a' ∧ a.Calls a' e ∧ a'.Outstanding ∧ a'.Once ∧ a'.Armed ∧ Kept n a' es

/-- The transactions that the handlers of the expired ones add. -/
def addedBy (a : App) (before : Nat) (sends : List (List Send)) : List Transaction :=
  added (a.clock + before) a.sent (sends.take (a.expired before).length).flatten

/-- The clock when those handlers have run. -/
def clockAfter (a : App) (before : Nat) (sends : List (List Send)) : Nat :=
  a.clock + before + ((sends.take (a.expired before).length).flatten.map Send.takes).sum

/-- What an event must meet. A request is sent while the list has at most one transaction, and there is a timer if it is the first one. The handler
of a transaction that gets its response sends none. And when the timer is set anew, the timeout of the transaction that is now the first one is not over. -/
def Meets (a : App) : AppEvent → Prop
  | .send s => s.Adds → a.transactions.length ≤ 1 ∧ (a.transactions = [] → s.timerId ≠ -1 ∧ s.timerAddr ≠ none)
  | .response r before _ sends =>
    ∀ t ∈ a.transactions.find? (·.mid = r.mid), (∀ s ∈ sends, ¬ s.Adds) ∧
      ∀ next rest, a.transactions = t :: next :: rest → elapsedMs (.ofNat (a.clock + before)) next ≤ transactionTimeoutMs
  | .timer timerId before after _ sends =>
    a.transTimer.map UserTimer.timerId = some timerId →
      Room (a.remaining before).length (a.addedBy before sends) ∧
      ∀ first ∈ (a.remaining before ++ a.addedBy before sends).head?,
        elapsedMs (.ofNat (a.clockAfter before sends + after)) first ≤ transactionTimeoutMs

/-- All events meet it. -/
def AllMeet (n : Nat) : App → List AppEvent → Prop
  | _, [] => True
  | a, e :: es => a.Meets e ∧ ∀ a', a.step n e = .ok a' → AllMeet n a' es

/-- What holds between events. -/
structure Inv (a : App) : Prop where
  outstanding : a.Outstanding
  once : a.Once
  armed : a.Armed
  few : a.transactions.length ≤ 2
  past : ∀ t ∈ a.transactions, t.tick ≤ a.clock
  called : ∀ c ∈ a.calls, c.1 < a.sent
  timers : a.timers = a.transTimer.toList
  idle : a.transactions = [] → a.transTimer = none

variable {n : Nat} {a a' : App}

theorem Inv.ids (h : a.Inv) : ∀ t ∈ a.transactions, t.id < a.sent := by
  intro t ht
  have hid := List.mem_map_of_mem (f := Transaction.id) ht
  rw [h.outstanding] at hid
  exact List.mem_range.1 (List.mem_filter.1 hid).1

theorem Inv.nodup (h : a.Inv) : (a.transactions.map Transaction.id).Nodup := by
  rw [h.outstanding]
  exact List.nodup_range.filter _

theorem Inv.timer (h : a.Inv) {t : Transaction} {ts : List Transaction} (hts : a.transactions = t :: ts) :
    ∃ timer, a.transTimer = some timer ∧ timer.timerId ≠ -1 := by
  obtain ⟨timer, _, _, ht, hid, -⟩ := h.armed t (by rw [hts]; rfl)
  exact ⟨timer, ht, hid⟩

/-- Transactions leave the list as their handlers are called, and new ones come behind. -/
theorem outstanding_step (h : a.Inv) {gone : List Nat} {clock : Nat} {sends : List Send} {ts' : List Transaction}
    (hts' : ts' = a.transactions.filter (fun t => t.id ∉ gone) ++ added clock a.sent sends) (hgone : ∀ i ∈ gone, i < a.sent) :
    ts'.map Transaction.id = (List.range (a.sent + (added clock a.sent sends).length)).filter fun i => i ∉ a.calls.map Prod.fst ++ gone := by
  have hfilter : (a.transactions.filter fun t => t.id ∉ gone).map Transaction.id =
      (List.range a.sent).filter fun i => i ∉ a.calls.map Prod.fst ++ gone := by
    have hmap := List.filter_map (f := Transaction.id) (p := fun i => decide (i ∉ gone)) (l := a.transactions)
    rw [h.outstanding, List.filter_filter] at hmap
    refine hmap.symm.trans (List.filter_congr fun i _ => ?_)
    rw [← Bool.decide_and, decide_eq_decide, List.mem_append, not_or, and_comm]
  have hnew (i : Nat) (hi : i ∈ List.range' a.sent (added clock a.sent sends).length) : i ∉ a.calls.map Prod.fst ++ gone := by
    rw [List.mem_range'_1] at hi
    intro hm
    rcases List.mem_append.1 hm with hm | hm
    · obtain ⟨c, hc, rfl⟩ := List.mem_map.1 hm
      exact Nat.not_lt.2 hi.1 (h.called c hc)
    · exact Nat.not_lt.2 hi.1 (hgone i hm)
  rw [hts', List.map_append, map_id_added, hfilter, List.range_eq_range', List.range_eq_range', ← List.range'_append_1, List.filter_append,
    Nat.zero_add]
  congr 1
  exact (List.filter_eq_self.2 fun i hi => decide_eq_true (hnew i hi)).symm

/-- What is left to show of an event: the order and the number of the calls follow from what leaves the list and what comes behind. -/
theorem Inv.next (h : a.Inv) (gone : List (Nat × Option Response)) (clock : Nat) (sends : List Send)
    (hcalls : a'.calls = a.calls ++ gone) (hsent : a'.sent = a.sent + (added clock a.sent sends).length)
    (hts : a'.transactions = a.transactions.filter (fun t => t.id ∉ gone.map Prod.fst) ++ added clock a.sent sends)
    (hnodup : (gone.map Prod.fst).Nodup) (hgone : ∀ i ∈ gone.map Prod.fst, i ∈ a.transactions.map Transaction.id)
    (hclock : a.clock ≤ clock) (hclock' : clock + (sends.map Send.takes).sum ≤ a'.clock) (hfew : a'.transactions.length ≤ 2)
    (htimers : a'.timers = a'.transTimer.toList) (hidle : a'.transactions = [] → a'.transTimer = none) (harmed : a'.Armed) : a'.Inv := by
  have hlt (i : Nat) (hi : i ∈ gone.map Prod.fst) : i < a.sent := by
    obtain ⟨t, ht, rfl⟩ := List.mem_map.1 (hgone i hi)
    exact h.ids t ht
  refine ⟨?_, ?_, harmed, hfew, ?_, ?_, htimers, hidle⟩
  · rw [Outstanding, hsent, hcalls, List.map_append]
    exact outstanding_step h hts hlt
  · rw [Once, hcalls, List.map_append, List.nodup_append']
    refine ⟨h.once, hnodup, fun i hi hi' => ?_⟩
    have hout := hgone i hi'
    rw [h.outstanding] at hout
    exact of_decide_eq_true (List.mem_filter.1 hout).2 hi
  · intro t ht
    rw [hts] at ht
    rcases List.mem_append.1 ht with ht | ht
    · have := h.past t (List.mem_filter.1 ht).1
      omega
    · have := tick_added ht
      omega
  intro c hc
  rw [hcalls] at hc
  rw [hsent]
  rcases List.mem_append.1 hc with hc | hc
  · exact Nat.lt_add_right _ (h.called c hc)
  · exact Nat.lt_add_right _ (hlt _ (List.mem_map_of_mem hc))

theorem filter_nil (ts : List Transaction) : (ts.filter fun t => t.id ∉ ([] : List (Nat × Option Response)).map Prod.fst) = ts :=
  List.filter_eq_self.2 fun _ _ => rfl

/-! ### Sending -/

theorem Inv.grown (h : a.Inv) {sends : List Send} (hne : a.transactions = [] → added a.clock a.sent sends = [])
    (hroom : Room a.transactions.length (added a.clock a.sent sends)) : (a.grown sends).Inv := by
  refine h.next [] a.clock sends (List.append_nil _).symm rfl ?_ List.nodup_nil nofun (Nat.le_refl _) (Nat.le_refl _) ?_
    h.timers (fun hnil => h.idle (List.append_eq_nil_iff.1 hnil).1) ?_
  · rw [filter_nil]
    rfl
  · have := h.few
    rcases hroom with hnil | hle
    · rwa [App.grown, hnil, List.append_nil]
    · rwa [App.grown, List.length_append]
  intro first hfirst
  refine h.armed first ?_
  by_cases hts : a.transactions = []
  · rwa [App.grown, hne hts, List.append_nil] at hfirst
  · rwa [App.grown, List.head?_append_of_ne_nil _ hts] at hfirst

/-- A timer that is set anew goes off in time exactly if the timeout of the transaction is not over when the clock is read. -/
theorem armedFor_iff (now : Nat) {timer : UserTimer} {t : Transaction} {start : Nat} (htimer : a.transTimer = some timer) (hid : timer.timerId ≠ -1)
    (hset : a.set = some (start, transactionTimeoutMs - elapsedMs (.ofNat now) t)) (ht : t.tick ≤ now) (hnow : now ≤ start) :
    a.ArmedFor t ↔ elapsedMs (.ofNat now) t ≤ transactionTimeoutMs := by
  have helapsed := elapsedMs_toNat ht
  have hmod := Nat.mod_le (now - t.tick) (2 ^ 32)
  have htimeout : transactionTimeoutMs.toNat = 5000 := rfl
  have hlt := (elapsedMs (.ofNat now) t).toNat_lt
  have hsub := UInt32.toNat_sub transactionTimeoutMs (elapsedMs (.ofNat now) t)
  rw [UInt32.le_iff_toNat_le]
  constructor
  · rintro ⟨_, _, interval, -, -, hset', hle, -⟩
    obtain ⟨rfl, rfl⟩ := Prod.mk.inj (Option.some.inj (hset.symm.trans hset'))
    rw [UInt32.le_iff_toNat_le] at hle
    omega
  intro hle
  refine ⟨timer, start, _, htimer, hid, hset, ?_, fun later hlater hround => ?_⟩
  · rw [UInt32.le_iff_toNat_le]
    omega
  · rw [UInt32.le_iff_toNat_le, elapsedMs_toNat (by omega), Nat.mod_eq_of_lt (by omega)]
    omega

theorem timerCreate_transactions (a : App) (interval : UInt32) (s : Send) : (a.timerCreate interval s).transactions = a.transactions := by
  unfold timerCreate
  cases s.timerAddr <;> dsimp only <;> split <;> rfl

theorem timerCreate_transTimer (a : App) (interval : UInt32) (s : Send) :
    (a.timerCreate interval s).transTimer = (s.timerAddr.map fun addr => ⟨addr, s.timerId⟩).or a.transTimer := by
  unfold timerCreate
  cases s.timerAddr with
  | none => dsimp only; split <;> rfl
  | some addr => rfl

/-- The timer that `api_send_request` starts for the first transaction. -/
theorem armed_timerCreate_iff {t : Transaction} {s : Send} (hts : a.transactions = [t]) (htimer : a.transTimer = none) (ht : t.tick ≤ a.clock) :
    (a.timerCreate transactionTimeoutMs s).Armed ↔ s.timerId ≠ -1 ∧ s.timerAddr ≠ none := by
  constructor
  · intro harmed
    obtain ⟨timer, _, _, htimer', hid, -⟩ := harmed t (by rw [timerCreate_transactions, hts]; rfl)
    rw [timerCreate_transTimer, htimer] at htimer'
    cases haddr : s.timerAddr with
    | none =>
      rw [haddr] at htimer'
      nomatch htimer'
    | some addr =>
      rw [haddr] at htimer'
      cases htimer'
      exact ⟨hid, nofun⟩
  rintro ⟨hid, haddr⟩ first hfirst
  obtain ⟨addr, haddr⟩ := Option.ne_none_iff_exists'.1 haddr
  have hcreate : a.timerCreate transactionTimeoutMs s =
      { a with set := some (a.clock, transactionTimeoutMs), timers := ⟨addr, s.timerId⟩ :: a.timers,
               transTimer := some ⟨addr, s.timerId⟩ } := by
    simp only [timerCreate, if_neg hid, haddr]
  rw [hcreate] at hfirst ⊢
  obtain rfl : t = first := Option.some.inj ((congrArg List.head? hts).symm.trans hfirst)
  have hzero : elapsedMs (.ofNat t.tick) t = 0 := by
    rw [← UInt32.toNat_inj, elapsedMs_toNat (Nat.le_refl _), Nat.sub_self]
    rfl
  refine (armedFor_iff t.tick rfl hid ?_ (Nat.le_refl _) ht).2 ?_
  · rw [hzero]
    rfl
  · rw [hzero]
    decide

theorem sendRequest_first {s : Send} (h : a.Inv) (hs : s.Adds) (hts : a.transactions = []) :
    a.sendRequest (n + 1) s = .ok ((a.grown [s]).timerCreate transactionTimeoutMs s) ∧
      (a.grown [s]).transactions = [⟨a.sent, s.mid, a.clock + s.before⟩] := by
  have hadd : added a.clock a.sent [s] = [⟨a.sent, s.mid, a.clock + s.before⟩] := if_pos hs
  have hgrown : (a.grown [s]).transactions = [⟨a.sent, s.mid, a.clock + s.before⟩] := by
    rw [App.grown, hts, hadd]
    rfl
  have hlen : a.transactions.length ≤ 1 := by
    rw [hts]
    exact Nat.zero_le 1
  rw [sendRequest_adds hs, if_pos hlen, hgrown, if_pos ⟨rfl, h.idle hts⟩]
  exact ⟨rfl, rfl⟩

theorem Inv.send {s : Send} (h : a.Inv) (hm : a.Meets (.send s)) : ∃ a', a.sendRequest (n + 1) s = .ok a' ∧ a'.Inv ∧ a'.calls = a.calls := by
  by_cases hs : s.Adds
  · have hadd : added a.clock a.sent [s] = [⟨a.sent, s.mid, a.clock + s.before⟩] := if_pos hs
    have htakes : s.takes = s.before + s.after := if_pos hs.1
    obtain ⟨hlen, hfirst⟩ := hm hs
    by_cases hts : a.transactions = []
    · obtain ⟨hsend, hgrown⟩ := sendRequest_first (n := n) h hs hts
      obtain ⟨hid, haddr⟩ := hfirst hts
      have harmed := (armed_timerCreate_iff hgrown (h.idle hts) (show a.clock + s.before ≤ a.clock + (s.takes + 0) by omega)).2 ⟨hid, haddr⟩
      obtain ⟨addr, haddr⟩ := Option.ne_none_iff_exists'.1 haddr
      simp only [timerCreate, if_neg hid, haddr] at hsend harmed
      refine ⟨_, hsend, ?_, rfl⟩
      refine h.next [] a.clock [s] (List.append_nil _).symm rfl ?_ List.nodup_nil nofun (Nat.le_refl _)
        (Nat.le_refl _) (hgrown ▸ by simp) ?_ (fun hnil => nomatch hgrown.symm.trans hnil) harmed
      · rw [filter_nil]
        rfl
      · simp only [App.grown, h.timers, h.idle hts]
        rfl
    · have hbusy : a.Busy := ⟨.inl hts, h.ids⟩
      have hroom : Room a.transactions.length (added a.clock a.sent [s]) := .inr (by rw [hadd]; exact Nat.succ_le_succ hlen)
      exact ⟨_, (hbusy.sendRequest s).trans (if_pos hroom), h.grown (fun hnil => absurd hnil hts) hroom, rfl⟩
  · have hadd : added a.clock a.sent [s] = [] := if_neg hs
    exact ⟨_, sendRequest_of_not_adds hs, h.grown (fun _ => hadd) (.inl hadd), rfl⟩

theorem Inv.meets_send {s : Send} (h : a.Inv) (hstep : a.sendRequest (n + 1) s = .ok a') (harmed : a'.Armed) : a.Meets (.send s) := by
  intro hs
  have htakes : s.takes = s.before + s.after := if_pos hs.1
  constructor
  · rw [sendRequest_adds hs] at hstep
    split at hstep
    · assumption
    · nomatch hstep
  intro hts
  obtain ⟨hsend, hgrown⟩ := sendRequest_first (n := n) h hs hts
  cases hsend.symm.trans hstep
  exact (armed_timerCreate_iff hgrown (h.idle hts) (show a.clock + s.before ≤ a.clock + (s.takes + 0) by omega)).1 harmed

/-! ### Responses -/

section

variable {r : Response} {before after : Nat} {sends : List Send} {t u : Transaction} {timer : UserTimer}

/-- The handler is called and the transaction leaves the list, to which the handler may have added. -/
theorem onResponse_eq (hfind : a.transactions.find? (·.mid = r.mid) = some t) (hupdate : a.updateTimer t before after = .ok a') (hbusy : a'.Busy) :
    a.onResponse (n + 1) r before after sends = if Room a'.transactions.length (added a'.clock a'.sent sends) then
        .ok { a'.grown sends with calls := a'.calls ++ [(t.id, some r)],
                                  transactions := transactionRemove t (a'.transactions ++ added a'.clock a'.sent sends) }
      else .error .endless := by
  have hcall := hbusy.callHandler (n := n) t (some r) sends
  rw [App.onResponse, hfind]
  dsimp only
  rw [hupdate]
  change a'.callHandler (n + 1) t (some r) sends >>= _ = _
  rw [hcall]
  split <;> rfl

theorem updateTimer_only (h : a.Inv) (hts : a.transactions = [t]) (htimer : a.transTimer = some timer) :
    a.updateTimer t before after = .ok { a with set := none, timers := [], transTimer := none } := by
  have herase : a.timers.erase timer = [] := by
    rw [h.timers, htimer]
    exact List.erase_cons_head timer []
  simp only [updateTimer, hts, List.head?_cons, if_true, List.tail_cons, timerCancel, htimer, herase]

theorem updateTimer_first (hts : a.transactions = [t, u]) (htimer : a.transTimer = some timer) (hid : timer.timerId ≠ -1) :
    a.updateTimer t before after =
      .ok { a with clock := a.clock + before + after,
                   set := some (a.clock + before + after, transactionTimeoutMs - elapsedMs (.ofNat (a.clock + before)) u) } := by
  simp only [updateTimer, hts, List.head?_cons, if_true, List.tail_cons, restartFor, timerRestart, wait, htimer, if_neg hid, sysTickMs]

theorem updateTimer_second (hts : a.transactions = [t, u]) (hne : t.id ≠ u.id) : a.updateTimer u before after = .ok a := by
  rw [updateTimer, hts, if_neg]
  intro hhead
  exact hne (congrArg Transaction.id (Option.some.inj hhead))

/-- A transaction that gets its response is alone, the first of two or the second of two. -/
theorem Inv.find_cases (h : a.Inv) (hfind : a.transactions.find? (·.mid = r.mid) = some t) :
    a.transactions = [t] ∨ (∃ u, a.transactions = [t, u] ∧ t.id ≠ u.id) ∨ ∃ u, a.transactions = [u, t] ∧ u.id ≠ t.id := by
  have hfew := h.few
  have hnodup := h.nodup
  have hmem := List.mem_of_find?_eq_some hfind
  match hts : a.transactions with
  | [] =>
    rw [hts] at hmem
    nomatch hmem
  | [u] =>
    rw [hts] at hmem
    obtain rfl := List.mem_singleton.1 hmem
    exact .inl rfl
  | [u, v] =>
    rw [hts] at hmem hnodup
    have hne : u.id ≠ v.id := by simpa using hnodup
    rcases List.mem_cons.1 hmem with rfl | hmem
    · exact .inr (.inl ⟨v, rfl, hne⟩)
    · obtain rfl := List.mem_singleton.1 hmem
      exact .inr (.inr ⟨u, rfl, hne⟩)
  | u :: v :: w :: ts =>
    rw [hts] at hfew
    simp only [List.length_cons] at hfew
    omega

theorem transactionRemove_eq {ts : List Transaction} (new : List Transaction) (hmem : t ∈ ts) (hnodup : (ts.map Transaction.id).Nodup) :
    transactionRemove t (ts ++ new) = (ts.filter fun u => u.id ∉ [t.id]) ++ new := by
  induction ts with
  | nil => nomatch hmem
  | cons u ts ih =>
    obtain ⟨hu, hnodup⟩ := List.nodup_cons.1 hnodup
    rw [List.cons_append, transactionRemove, List.filter_cons]
    split
    · rename_i heq
      have hrest : (ts.filter fun u => u.id ∉ [t.id]) = ts := by
        refine List.filter_eq_self.2 fun v hv => decide_eq_true fun hvt => hu ?_
        rw [heq, ← List.mem_singleton.1 hvt]
        exact List.mem_map_of_mem hv
      rw [if_neg (by simp [heq]), hrest]
    rename_i hne
    rcases List.mem_cons.1 hmem with rfl | hmem
    · exact absurd rfl hne
    · rw [if_pos (by simp [hne]), ih hmem hnodup, List.cons_append]

/-- A response whose handler sends nothing, after what is done with the timer. -/
theorem Inv.answer (h : a.Inv) (hfind : a.transactions.find? (·.mid = r.mid) = some t) (hupdate : a.updateTimer t before after = .ok a')
    (hts : a'.transactions = a.transactions) (hsent : a'.sent = a.sent) (hcalls : a'.calls = a.calls) (hclock : a.clock ≤ a'.clock)
    (hnone : ∀ s ∈ sends, ¬ s.Adds) (htimers : a'.timers = a'.transTimer.toList)
    (hidle : (a.transactions.filter fun u => u.id ∉ [t.id]) = [] → a'.transTimer = none)
    (harmed : ∀ first ∈ (a.transactions.filter fun u => u.id ∉ [t.id]).head?, a'.ArmedFor first) :
    ∃ b, a.onResponse (n + 1) r before after sends = .ok b ∧ b.Inv ∧ b.calls = a.calls ++ [(t.id, some r)] := by
  have hmem := List.mem_of_find?_eq_some hfind
  have hadd : added a'.clock a'.sent sends = [] := added_eq_nil_iff.2 hnone
  have hbusy : a'.Busy := ⟨.inl (by rw [hts]; exact List.ne_nil_of_mem hmem), by rw [hts, hsent]; exact h.ids⟩
  have hremove := transactionRemove_eq (added a'.clock a'.sent sends) hmem h.nodup
  refine ⟨_, (onResponse_eq hfind hupdate hbusy).trans (if_pos (.inl hadd)), ?_, congrArg (· ++ _) hcalls⟩
  rw [hts, hremove, hadd, List.append_nil]
  refine h.next [(t.id, some r)] a'.clock sends (congrArg (· ++ _) hcalls) ?_ ?_ (List.nodup_singleton _) ?_ hclock
    (Nat.le_refl _) ?_ htimers hidle harmed
  · rw [← hsent]
    rfl
  · rw [← hsent, hadd, List.append_nil]
    rfl
  · intro i hi
    obtain rfl := List.mem_singleton.1 hi
    exact List.mem_map_of_mem hmem
  · exact (List.length_filter_le _ _).trans h.few

theorem filter_only : ([t].filter fun v => v.id ∉ [t.id]) = [] := by simp

theorem filter_first (hne : t.id ≠ u.id) : ([t, u].filter fun v => v.id ∉ [t.id]) = [u] := by simp [Ne.symm hne]

theorem filter_second (hne : u.id ≠ t.id) : ([u, t].filter fun v => v.id ∉ [t.id]) = [u] := by simp [hne]

theorem Inv.response (h : a.Inv) (hm : a.Meets (.response r before after sends)) :
    ∃ b, a.onResponse (n + 1) r before after sends = .ok b ∧ b.Inv ∧ a.Calls b (.response r before after sends) := by
  cases hfind : a.transactions.find? (·.mid = r.mid) with
  | none => exact ⟨a, by rw [App.onResponse, hfind], h, by rw [Calls, hfind]⟩
  | some t =>
    obtain ⟨hnone, hnext⟩ := hm t hfind
    suffices hb : ∃ b, a.onResponse (n + 1) r before after sends = .ok b ∧ b.Inv ∧ b.calls = a.calls ++ [(t.id, some r)] by
      obtain ⟨b, hstep, hinv, hcalls⟩ := hb
      exact ⟨b, hstep, hinv, by rw [Calls, hfind]; exact hcalls⟩
    rcases h.find_cases hfind with hts | ⟨u, hts, hne⟩ | ⟨u, hts, hne⟩
    · obtain ⟨timer, htimer, -⟩ := h.timer hts
      refine h.answer hfind (updateTimer_only h hts htimer) rfl rfl rfl (Nat.le_refl _) hnone rfl (fun _ => rfl) ?_
      rw [hts, filter_only]
      nofun
    · obtain ⟨timer, htimer, hid⟩ := h.timer hts
      have hpast := h.past u (by rw [hts]; simp)
      refine h.answer hfind (updateTimer_first hts htimer hid) rfl rfl rfl ?_ hnone h.timers ?_ ?_
      · exact Nat.le_trans (Nat.le_add_right _ _) (Nat.le_add_right _ _)
      · rw [hts, filter_first hne]
        nofun
      · rw [hts, filter_first hne]
        rintro first ⟨⟩
        exact (armedFor_iff (a.clock + before) (by exact htimer) hid rfl (by omega) (Nat.le_add_right _ _)).2 (hnext u [] hts)
    refine h.answer hfind (updateTimer_second hts hne) rfl rfl rfl (Nat.le_refl _) hnone h.timers ?_ ?_
    · rw [hts, filter_second hne]
      nofun
    · rw [hts, filter_second hne]
      rintro first ⟨⟩
      exact h.armed u (by rw [hts]; rfl)

theorem Inv.meets_response {b : App} (h : a.Inv) (hstep : a.onResponse (n + 1) r before after sends = .ok b) (harmed : b.Armed) :
    a.Meets (.response r before after sends) := by
  intro t hfind
  have hmem := List.mem_of_find?_eq_some hfind
  -- what is known of the app that the handler leaves
  have hleft {a' : App} (hupdate : a.updateTimer t before after = .ok a') (hts : a'.transactions = a.transactions) (hsent : a'.sent = a.sent) :
      Room a.transactions.length (added a'.clock a'.sent sends) ∧ b.transTimer = a'.transTimer ∧ b.set = a'.set ∧
        b.transactions = (a.transactions.filter fun u => u.id ∉ [t.id]) ++ added a'.clock a'.sent sends := by
    have hbusy : a'.Busy := ⟨.inl (by rw [hts]; exact List.ne_nil_of_mem hmem), by rw [hts, hsent]; exact h.ids⟩
    rw [onResponse_eq hfind hupdate hbusy, hts] at hstep
    split at hstep
    · rename_i hroom
      cases hstep
      exact ⟨hroom, rfl, rfl, transactionRemove_eq _ hmem h.nodup⟩
    · nomatch hstep
  rcases h.find_cases hfind with hts | ⟨u, hts, hne⟩ | ⟨u, hts, hne⟩
  · obtain ⟨timer, htimer, -⟩ := h.timer hts
    obtain ⟨-, hnone, -, hb⟩ := hleft (updateTimer_only h hts htimer) rfl rfl
    refine ⟨?_, fun next rest hts' => nomatch hts.symm.trans hts'⟩
    rw [hts, filter_only, List.nil_append] at hb
    rw [← added_eq_nil_iff, ← hb]
    by_contra hne
    obtain ⟨first, ts, hcons⟩ := List.exists_cons_of_ne_nil hne
    obtain ⟨timer, _, _, htimer, -⟩ := harmed first (by rw [hcons]; rfl)
    nomatch hnone.symm.trans htimer
  · obtain ⟨timer, htimer, hid⟩ := h.timer hts
    have hpast := h.past u (by rw [hts]; simp)
    obtain ⟨hroom, htimer', hset, hb⟩ := hleft (updateTimer_first hts htimer hid) rfl rfl
    rw [hts, filter_first hne] at hb
    refine ⟨added_eq_nil_iff.1 (room_two (hts ▸ hroom)), fun next rest hts' => ?_⟩
    cases hts.symm.trans hts'
    have hfor := harmed u (by rw [hb]; rfl)
    exact (armedFor_iff _ (htimer'.trans htimer) hid hset (by omega) (Nat.le_add_right _ _)).1 hfor
  obtain ⟨hroom, -⟩ := hleft (updateTimer_second hts hne) rfl rfl
  refine ⟨added_eq_nil_iff.1 (room_two (hts ▸ hroom)), fun next rest hts' => ?_⟩
  cases hts.symm.trans hts'
  exact absurd rfl hne

end

/-! ### The timer -/

section

variable {timerId : UInt32} {before after after' : Nat} {sends : List (List Send)} {timer : UserTimer}

/-- What the app has done when all handlers of expired transactions have returned. -/
def afterHandlers (a : App) (before : Nat) (sends : List (List Send)) : App :=
  { a with clock := a.clockAfter before sends,
           sent := a.sent + (a.addedBy before sends).length,
           calls := a.calls ++ (a.expired before).reverse.map fun t => (t.id, none),
           transactions := a.remaining before ++ a.addedBy before sends,
           set := none }

theorem timeoutHandler_eq (h : a.Inv) (htimer : a.transTimer = some timer) : { a with set := none }.timeoutHandler (n + 1) before after after' sends =
      if Room (a.remaining before).length (a.addedBy before sends) then (a.afterHandlers before sends).finishTimeout after after'
      else .error .endless := by
  have hbusy : Busy { a with clock := a.clock + before, transactions := a.remaining before, set := none } := by
    refine ⟨.inr (by rw [htimer]; exact Option.some_ne_none timer), fun t ht => h.ids t ?_⟩
    exact (List.dropWhile_sublist _).mem ht
  have hcall : App.callExpired (n + 1) { a with clock := a.clock + before, transactions := a.remaining before, set := none }
      (a.expired before).reverse sends =
        if Room (a.remaining before).length (a.addedBy before sends) then .ok (a.afterHandlers before sends) else .error .endless := by
    have hcall := hbusy.callExpired (n := n) (a.expired before).reverse sends
    rw [List.length_reverse] at hcall
    exact hcall
  rw [timeoutHandler]
  dsimp only [wait, sysTickMs]
  rw [expireLoop_eq, List.append_nil]
  change App.callExpired (n + 1) { a with clock := a.clock + before, transactions := a.remaining before, set := none }
    (a.expired before).reverse sends >>= _ = _
  rw [hcall]
  split <;> rfl

theorem Inv.find_timer (h : a.Inv) :
    a.timers.find? (·.timerId = timerId) = if a.transTimer.map UserTimer.timerId = some timerId then a.transTimer else none := by
  rw [h.timers]
  cases a.transTimer with
  | none => rfl
  | some timer =>
    rw [Option.toList_some, List.find?_singleton]
    exact ite_congr (by simp) (fun _ => rfl) (fun _ => rfl)

theorem expired_ids (before : Nat) : ((a.expired before).reverse.map fun t => (t.id, (none : Option Response))).map Prod.fst =
    ((a.expired before).map Transaction.id).reverse := by
  rw [List.map_map, List.map_reverse]
  rfl

theorem Inv.filter_expired (h : a.Inv) (before : Nat) :
    (a.transactions.filter fun t => t.id ∉ ((a.expired before).reverse.map fun t => (t.id, (none : Option Response))).map Prod.fst) =
      a.remaining before := by
  have hsplit : a.expired before ++ a.remaining before = a.transactions := List.takeWhile_append_dropWhile
  have hnodup := h.nodup
  rw [← hsplit, List.map_append] at hnodup
  rw [expired_ids, ← hsplit, List.filter_append, List.filter_eq_nil_iff.2, List.filter_eq_self.2, List.nil_append]
  · intro t ht
    rw [decide_eq_true_eq, List.mem_reverse]
    exact fun hm => List.disjoint_of_nodup_append hnodup hm (List.mem_map_of_mem ht)
  · intro t ht
    rw [decide_eq_true_eq, List.mem_reverse, not_not]
    exact List.mem_map_of_mem ht

theorem finishTimeout_cons {first : Transaction} {ts : List Transaction} (hts : a.transactions = first :: ts) (htimer : a.transTimer = some timer)
    (hid : timer.timerId ≠ -1) : a.finishTimeout after after' =
      .ok { a with clock := a.clock + after + after',
                   set := some (a.clock + after + after', transactionTimeoutMs - elapsedMs (.ofNat (a.clock + after)) first) } := by
  simp only [finishTimeout, hts, restartFor, timerRestart, wait, htimer, if_neg hid, sysTickMs]

theorem finishTimeout_nil (hts : a.transactions = []) (htimer : a.transTimer = some timer) (htimers : a.timers = [timer]) :
    a.finishTimeout after after' = .ok { a with set := none, timers := [], transTimer := none } := by
  simp only [finishTimeout, hts, timerCancel, htimer, htimers, List.erase_cons_head]

theorem Inv.step_timer (h : a.Inv) (hid : a.transTimer.map UserTimer.timerId = some timerId) (before after after' : Nat) (sends : List (List Send)) :
    ∃ timer, a.transTimer = some timer ∧ timer.timerId ≠ -1 ∧ a.step (n + 1) (.timer timerId before after after' sends) =
        if Room (a.remaining before).length (a.addedBy before sends) then (a.afterHandlers before sends).finishTimeout after after'
        else .error .endless := by
  obtain ⟨timer, htimer, -⟩ := Option.map_eq_some_iff.1 hid
  have hne : a.transactions ≠ [] := fun hnil => nomatch htimer.symm.trans (h.idle hnil)
  obtain ⟨t, ts, hts⟩ := List.exists_cons_of_ne_nil hne
  obtain ⟨timer', htimer', hne⟩ := h.timer hts
  obtain rfl : timer' = timer := Option.some.inj (htimer'.symm.trans htimer)
  refine ⟨timer', htimer, hne, ?_⟩
  have hfind : a.timers.find? (·.timerId = timerId) = some timer' := by rw [h.find_timer, if_pos hid, htimer]
  rw [step, hfind]
  exact timeoutHandler_eq h htimer

theorem Inv.step_otherTimer (h : a.Inv) (hid : a.transTimer.map UserTimer.timerId ≠ some timerId) :
    a.step n (.timer timerId before after after' sends) = .ok a := by
  rw [step, h.find_timer, if_neg hid]

/-- The handlers of the expired transactions are called, and the timer is left as it should be. -/
theorem Inv.expire {b : App} (h : a.Inv) (hroom : Room (a.remaining before).length (a.addedBy before sends))
    (hcalls : b.calls = a.calls ++ (a.expired before).reverse.map fun t => (t.id, none))
    (hsent : b.sent = a.sent + (a.addedBy before sends).length) (hts : b.transactions = a.remaining before ++ a.addedBy before sends)
    (hclock : a.clockAfter before sends ≤ b.clock) (htimers : b.timers = b.transTimer.toList)
    (hidle : b.transactions = [] → b.transTimer = none) (harmed : b.Armed) : b.Inv := by
  have hsub : ((a.expired before).map Transaction.id).Sublist (a.transactions.map Transaction.id) := (List.takeWhile_sublist _).map _
  refine h.next _ (a.clock + before) (sends.take (a.expired before).length).flatten hcalls hsent ?_ ?_ ?_ (Nat.le_add_right _ _) hclock ?_
    htimers hidle harmed
  · rw [h.filter_expired before]
    exact hts
  · rw [expired_ids, List.nodup_reverse]
    exact hsub.nodup h.nodup
  · intro i hi
    rw [expired_ids, List.mem_reverse] at hi
    exact hsub.mem hi
  rw [hts, List.length_append]
  have hremaining : (a.remaining before).length ≤ 2 := (List.dropWhile_sublist _).length_le.trans h.few
  rcases hroom with hnil | hle
  · rwa [hnil, List.length_nil]
  · exact hle

theorem Inv.past_afterHandlers (h : a.Inv) (before : Nat) (sends : List (List Send)) :
    ∀ t ∈ (a.afterHandlers before sends).transactions, t.tick ≤ a.clockAfter before sends := by
  intro t ht
  rcases List.mem_append.1 ht with ht | ht
  · have hpast := h.past t ((List.dropWhile_sublist _).mem ht)
    exact Nat.le_add_right_of_le (Nat.le_add_right_of_le hpast)
  · exact (tick_added ht).2

theorem Inv.timer_event (h : a.Inv) (hm : a.Meets (.timer timerId before after after' sends)) :
    ∃ b, a.step (n + 1) (.timer timerId before after after' sends) = .ok b ∧ b.Inv ∧ a.Calls b (.timer timerId before after after' sends) := by
  by_cases hid : a.transTimer.map UserTimer.timerId = some timerId
  · obtain ⟨timer, htimer, hne, hstep⟩ := h.step_timer (n := n) hid before after after' sends
    obtain ⟨hroom, hfirst⟩ := hm hid
    rw [hstep, if_pos hroom]
    cases hts : (a.afterHandlers before sends).transactions with
    | nil =>
      have htimers : a.timers = [timer] := by
        rw [h.timers, htimer]
        rfl
      rw [finishTimeout_nil hts htimer htimers]
      refine ⟨_, rfl, h.expire hroom rfl rfl rfl (Nat.le_refl _) rfl (fun _ => rfl) ?_, by rw [Calls, if_pos hid]; rfl⟩
      intro first hfirst
      rw [show List.head? _ = none from congrArg List.head? hts] at hfirst
      nomatch hfirst
    | cons first ts =>
      rw [finishTimeout_cons hts htimer hne]
      refine ⟨_, rfl, h.expire hroom rfl rfl rfl ?_ h.timers (fun hnil => nomatch hts.symm.trans hnil) ?_, by rw [Calls, if_pos hid]; rfl⟩
      · exact Nat.le_trans (Nat.le_add_right _ _) (Nat.le_add_right _ _)
      intro first' hfirst'
      obtain rfl : first = first' := Option.some.inj ((congrArg List.head? hts).symm.trans hfirst')
      have hpast := h.past_afterHandlers before sends first (hts ▸ List.mem_cons_self)
      exact (armedFor_iff _ (by exact htimer) hne rfl (Nat.le_add_right_of_le hpast) (Nat.le_add_right _ _)).2
        (hfirst first (congrArg List.head? hts))
  · exact ⟨a, h.step_otherTimer hid, h, by rw [Calls, if_neg hid]⟩

theorem Inv.meets_timer {b : App} (h : a.Inv) (hstep : a.step (n + 1) (.timer timerId before after after' sends) = .ok b) (harmed : b.Armed) :
    a.Meets (.timer timerId before after after' sends) := by
  intro hid
  obtain ⟨timer, htimer, hne, hstep'⟩ := h.step_timer (n := n) hid before after after' sends
  rw [hstep'] at hstep
  split at hstep
  · rename_i hroom
    refine ⟨hroom, fun first hfirst => ?_⟩
    have hpast := h.past_afterHandlers before sends first (List.mem_of_mem_head? hfirst)
    obtain ⟨ts, hts⟩ : ∃ ts, (a.afterHandlers before sends).transactions = first :: ts := List.head?_eq_some_iff.1 hfirst
    rw [finishTimeout_cons hts htimer hne] at hstep
    cases hstep
    exact (armedFor_iff _ (by exact htimer) hne rfl (Nat.le_add_right_of_le hpast) (Nat.le_add_right _ _)).1 (harmed first hfirst)
  · nomatch hstep

end

/-! ### Whole runs -/

theorem Inv.init : App.init.Inv where
  outstanding := rfl
  once := List.nodup_nil
  armed := nofun
  few := Nat.zero_le 2
  past := nofun
  called := nofun
  timers := rfl
  idle _ := rfl

theorem Inv.event {e : AppEvent} (h : a.Inv) (hm : a.Meets e) : ∃ b, a.step (n + 1) e = .ok b ∧ b.Inv ∧ a.Calls b e := by
  cases e with
  | send s => exact h.send hm
  | response r before after sends => exact h.response hm
  | timer timerId before after after' sends => exact h.timer_event hm

theorem Inv.meets {e : AppEvent} {b : App} (h : a.Inv) (hstep : a.step (n + 1) e = .ok b) (harmed : b.Armed) : a.Meets e := by
  cases e with
  | send s => exact h.meets_send hstep harmed
  | response r before after sends => exact h.meets_response hstep harmed
  | timer timerId before after after' sends => exact h.meets_timer hstep harmed

theorem Inv.kept_iff {es : List AppEvent} (h : a.Inv) : Kept (n + 1) a es ↔ AllMeet (n + 1) a es := by
  induction es generalizing a with
  | nil => exact Iff.rfl
  | cons e es ih =>
    constructor
    · rintro ⟨b, hstep, -, -, -, harmed, hrest⟩
      have hm := h.meets hstep harmed
      obtain ⟨b', hstep', hinv, -⟩ := h.event (n := n) hm
      cases hstep.symm.trans hstep'
      refine ⟨hm, fun b' hb' => ?_⟩
      cases hstep.symm.trans hb'
      exact (ih hinv).1 hrest
    · rintro ⟨hm, hrest⟩
      obtain ⟨b, hstep, hinv, hcalls⟩ := h.event (n := n) hm
      exact ⟨b, hstep, hcalls, hinv.outstanding, hinv.once, hinv.armed, (ih hinv).2 (hrest b hstep)⟩

end App

/-- In every sequence of events, from the start on and however often the loop of `transaction_add` may go round: all calls return, the list has the
outstanding transactions in order, handlers are called once and with what they should be, and the timer is set for the first transaction, exactly if
each event meets its condition. -/
theorem transactions_kept_iff (n : Nat) (es : List AppEvent) : App.init.Kept (n + 1) es ↔ App.init.AllMeet (n + 1) es := App.Inv.init.kept_iff

/-- A request for which the app gets all that it asks for, at once. -/
def request (mid : UInt32) : Send := ⟨mid, true, true, 1, some 8, 0, 0⟩

/-- The third of three requests is never sent; and a handler that sends a request as it gets its response leaves a transaction without a timer. -/
theorem third_request_endless :
    (¬ ∃ n, App.init.Kept n ([1, 2, 3].map fun mid => .send (request mid))) ∧
    ∃ a, (App.init.step 1 (.send (request 1)) >>= fun a => a.step 1 (.response ⟨1, 69, 0, [], 0, 0⟩ 0 0 [request 2])) = .ok a ∧
      a.transactions = [⟨1, 2, 0⟩] ∧ a.transTimer = none ∧ a.set = none := by
  constructor
  · rintro ⟨n, hkept⟩
    cases n with
    | zero =>
      obtain ⟨a, ha, -, -, -, -, b, hb, -⟩ := hkept
      cases ha
      nomatch hb
    | succ n =>
      obtain ⟨a, ha, -, -, -, -, b, hb, -, -, -, -, c, hc, -⟩ := hkept
      cases ha
      cases hb
      rw [App.step, App.sendRequest_adds ⟨rfl, rfl⟩, if_neg (by decide)] at hc
      nomatch hc
  · exact ⟨_, rfl, rfl, rfl, rfl⟩

end WamrMigrate.Restful
