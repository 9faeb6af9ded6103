import Mathlib.Data.List.Induction
import Mathlib.Tactic.Ring

/-!
# Polling the sensors

`check_sensor_timers` reads the sensors that are due and says when to call it again. It reads the right sensors, but it keeps the longest of the times
until a sensor is due where it should keep the shortest, with -1 for no time yet and comparisons of signed with unsigned numbers.
-/

namespace WamrMigrate.Sensor

/-- `sensor_client_t`; the callback is the same for every client. -/
structure SensorClient where
  clientId : UInt32
  interval : Int32
  bitCfg : Int32 := 0
  delay : Int32 := 0
  deriving DecidableEq

/-- `sys_sensor_t`, without the description, the lock and the functions of the driver. -/
structure SysSensor where
  name : String
  sensorInstance : Int32
  sensorId : UInt32
  clients : List SensorClient
  lastRead : UInt32
  readInterval : UInt32
  defaultInterval : UInt32
  deriving DecidableEq

/-- `bh_get_elpased_ms` at the time `now`. -/
def bhGetElpasedMs (now last : UInt32) : UInt32 :=
  if now < last then now + (0xFFFFFFFF - last) + 1 else now - last

theorem bhGetElpasedMs_eq (now last : UInt32) : bhGetElpasedMs now last = now - last := by
  unfold bhGetElpasedMs
  split
  · grind
  · rfl

/-- What the caller of `check_sensor_timers` and the drivers see. -/
inductive Event (δ : Type) where
  | read (s : SysSensor)
  | callback (client : SensorClient) (sensorId : UInt32) (data : δ)

/-- The result of `check_sensor_timers`, the sensors after it, and what it has done. -/
structure Poll (δ : Type) where
  msToNextCheck : Int32
  sensors : List SysSensor
  events : List (Event δ)

namespace SysSensor
variable {δ : Type} (now : UInt32) (s : SysSensor)

/-- Read the sensor and call every client with the data, if there is any. -/
def readEvents (read : SysSensor → Option δ) : List (Event δ) :=
  .read s :: match read s with
    | some data => s.clients.map (.callback · s.sensorId data)
    | none => []

/-- A sensor that `check_sensor_timers` does not pass over. -/
def Active : Prop := ¬(s.readInterval ≤ 0 ∨ s.clients = [])
  deriving Decidable

/-- The sensor is read now. -/
def Due : Prop := s.readInterval ≤ bhGetElpasedMs now s.lastRead
  deriving Decidable

/-- The milliseconds from now until the sensor is due the next time, if it is read now when it is due. -/
def untilDue : UInt32 := if s.Due now then s.readInterval else s.readInterval - (now - s.lastRead)

end SysSensor

section Poll
variable {δ : Type} (now : UInt32) (read : SysSensor → Option δ)

/-- The loop of `check_sensor_timers`. An `int` is compared with `read_interval` as an unsigned number, with `remaining` as a signed one. -/
def checkLoop (ms : Int32) : List SysSensor → Poll δ
  | [] => ⟨ms, [], []⟩
  | s :: next =>
    if ¬s.Active then
      let r := checkLoop ms next
      ⟨r.msToNextCheck, s :: r.sensors, r.events⟩
    else if s.Due now then
      let r := checkLoop (if ms = -1 ∨ ms.toUInt32 < s.readInterval then s.readInterval.toInt32 else ms) next
      ⟨r.msToNextCheck, { s with lastRead := now } :: r.sensors, s.readEvents read ++ r.events⟩
    else
      let remaining := (s.readInterval - bhGetElpasedMs now s.lastRead).toInt32
      let r := checkLoop (if ms = -1 ∨ ms < remaining then remaining else ms) next
      ⟨r.msToNextCheck, s :: r.sensors, r.events⟩

/-- `check_sensor_timers`. -/
def checkSensorTimers (sensors : List SysSensor) : Poll δ := checkLoop now read (-1) sensors

/-- The sensors that are polled and due are read, in order, and nothing else happens to any sensor. -/
def Reads (sensors : List SysSensor) (r : Poll δ) : Prop :=
  (r.events = (sensors.filter fun s => s.Active ∧ s.Due now).flatMap (·.readEvents read)) ∧
    r.sensors = sensors.map fun s => if s.Active ∧ s.Due now then { s with lastRead := now } else s

/-- The result is the least time until a sensor that is polled becomes due, or -1 if there is none. -/
def Least (sensors : List SysSensor) (ms : Int32) : Prop :=
  ((∀ s ∈ sensors, ¬s.Active) ∧ ms = -1) ∨
    ∃ s ∈ sensors, s.Active ∧ ms.toInt = (s.untilDue now).toNat ∧ ∀ t ∈ sensors, t.Active → s.untilDue now ≤ t.untilDue now
  deriving Decidable

theorem checkLoop_reads (sensors : List SysSensor) (ms : Int32) : Reads now read sensors (checkLoop now read ms sensors) := by
  induction sensors generalizing ms with
  | nil => exact ⟨rfl, rfl⟩
  | cons s next ih =>
    unfold checkLoop
    by_cases ha : s.Active <;> by_cases hd : s.Due now <;> simp [ha, hd, Reads, (ih _).1, (ih _).2]

/-! ## The result -/

/-- What a sensor that is polled makes of the result so far. -/
def msAfter (ms : Int32) (s : SysSensor) : Int32 :=
  let w := s.untilDue now
  if ms = -1 ∨ (if s.Due now then ms.toUInt32 < w else ms < w.toInt32) then w.toInt32 else ms

theorem checkLoop_ms (sensors : List SysSensor) (ms : Int32) :
    (checkLoop now read ms sensors).msToNextCheck = (sensors.filter fun s => s.Active).foldl (msAfter now) ms := by
  induction sensors generalizing ms with
  | nil => rfl
  | cons s next ih =>
    unfold checkLoop
    by_cases ha : s.Active
    · by_cases hd : s.Due now <;>
        simp [ha, hd, ih, msAfter, SysSensor.untilDue, bhGetElpasedMs_eq]
    · simp [ha, ih]

end Poll

theorem toNat_toUInt32 (m : Int32) : (m.toUInt32.toNat : Int) = m.toInt % 2 ^ 32 := by
  have h : m.toInt = if 2 * m.toUInt32.toNat < 2 ^ 32 then (m.toUInt32.toNat : Int) else m.toUInt32.toNat - 2 ^ 32 :=
    BitVec.toInt_eq_toNat_cond m.toBitVec
  have := m.toUInt32.toNat_lt
  split at h <;> omega

theorem toInt_toInt32 (w : UInt32) : w.toInt32.toInt = if w.toNat < 2 ^ 31 then (w.toNat : Int) else w.toNat - 2 ^ 32 := by
  have h : w.toInt32.toInt = if 2 * w.toNat < 2 ^ 32 then (w.toNat : Int) else w.toNat - 2 ^ 32 := BitVec.toInt_eq_toNat_cond w.toBitVec
  have := w.toNat_lt
  omega

section Result
variable (now : UInt32)

/-- No sensor, or one whose time until it is due is the bit pattern of -1 comes last. -/
def Unset (pre : List SysSensor) : Prop := ∀ s ∈ pre.getLast?, (s.untilDue now).toNat = 2 ^ 32 - 1

/-- Every sensor with a time below `2 ^ 31` is followed by one that is read and has a longer time, or is read itself and does not come
first, nor right behind a time of `2 ^ 32 - 1`. -/
def Negative (pre : List SysSensor) : Prop :=
  ∀ a s b, pre = a ++ s :: b → (s.untilDue now).toNat < 2 ^ 31 →
    (∃ t ∈ b, t.Due now ∧ 2 ^ 31 ≤ (t.untilDue now).toNat) ∨ (s.Due now ∧ ¬Unset now a)

/-- The times until the sensors are due, in the order of the list, are such that the least comes out. -/
def Meets (sensors : List SysSensor) : Prop :=
  ∃ pre least after, sensors = pre ++ least :: after ∧ (∀ s ∈ sensors, least.untilDue now ≤ s.untilDue now) ∧
    (least.untilDue now).toNat < 2 ^ 31 ∧ Negative now pre ∧ (least.Due now → Unset now pre) ∧
    ∀ s ∈ after, s.untilDue now = least.untilDue now ∨ ¬s.Due now ∧ 2 ^ 31 ≤ (s.untilDue now).toNat

/-- The result for these sensors, all of them polled. -/
def msOf (sensors : List SysSensor) : Int := (sensors.foldl (msAfter now) (-1)).toInt

/-- One more sensor; `d` is 1 where it is due. -/
theorem msOf_concat (pre : List SysSensor) (s : SysSensor) : ∃ d : Nat, (s.Due now ↔ d = 1) ∧
    let m := msOf now pre
    let w := (s.untilDue now).toNat
    (d = 1 → w < 2 ^ 31 → msOf now (pre ++ [s]) = if m = -1 ∨ m % 2 ^ 32 < w then (w : Int) else m) ∧
    (d = 1 → 2 ^ 31 ≤ w → msOf now (pre ++ [s]) = if m = -1 ∨ m % 2 ^ 32 < w then (w : Int) - 2 ^ 32 else m) ∧
    (d ≠ 1 → w < 2 ^ 31 → msOf now (pre ++ [s]) = if m = -1 ∨ m < w then (w : Int) else m) ∧
    (d ≠ 1 → 2 ^ 31 ≤ w → msOf now (pre ++ [s]) = if m = -1 ∨ m < w - 2 ^ 32 then (w : Int) - 2 ^ 32 else m) ∧
    w < 2 ^ 32 ∧ -2 ^ 31 ≤ m ∧ m < 2 ^ 31 := by
  have hcmp (m : Int32) : m.toUInt32 < s.untilDue now ↔ m.toInt % 2 ^ 32 < (s.untilDue now).toNat := by
    rw [UInt32.lt_iff_toNat_lt, ← toNat_toUInt32, Int.ofNat_lt]
  have hone : (-1 : Int32).toInt = -1 := rfl
  have hb : (s.untilDue now).toNat < 2 ^ 32 ∧ -2 ^ 31 ≤ msOf now pre ∧ msOf now pre < 2 ^ 31 :=
    ⟨UInt32.toNat_lt _, Int32.le_toInt _, Int32.toInt_lt _⟩
  have hnew : msOf now (pre ++ [s]) = (msAfter now (pre.foldl (msAfter now) (-1)) s).toInt := by simp [msOf]
  simp only [msAfter, apply_ite Int32.toInt, toInt_toInt32, ← Int32.toInt_inj, Int32.lt_iff_toInt_lt, hcmp, hone] at hnew
  change _ = if msOf now pre = -1 ∨ (if s.Due now then msOf now pre % 2 ^ 32 < _ else msOf now pre < _) then _ else msOf now pre at hnew
  rw [hnew]
  by_cases hd : s.Due now
  · refine ⟨1, by simp [hd], ?_⟩
    simp only [if_pos hd]
    refine ⟨fun _ hw => by rw [if_pos hw], fun _ hw => by rw [if_neg (Nat.not_lt.2 hw)], fun h => absurd rfl h, fun h => absurd rfl h, hb⟩
  · refine ⟨0, by simp [hd], ?_⟩
    simp only [if_neg hd]
    refine ⟨nofun, nofun, fun _ hw => by rw [if_pos hw], fun _ hw => by rw [if_neg (Nat.not_lt.2 hw)], hb⟩

variable {now}

theorem negative_concat {pre : List SysSensor} {s : SysSensor} : Negative now (pre ++ [s]) ↔ (s.Due now ∧ 2 ^ 31 ≤ (s.untilDue now).toNat) ∨
      Negative now pre ∧ ((s.untilDue now).toNat < 2 ^ 31 → s.Due now ∧ ¬Unset now pre) := by
  constructor
  · intro h
    by_cases hs : s.Due now ∧ 2 ^ 31 ≤ (s.untilDue now).toNat
    · exact .inl hs
    refine .inr ⟨fun a t b hpre ht => ?_, fun hlt => (h pre s [] rfl hlt).resolve_left (by simp)⟩
    refine (h a t (b ++ [s]) (by simp [hpre]) ht).imp_left ?_
    rintro ⟨u, hu, hud⟩
    rcases List.mem_append.1 hu with hu | hu
    · exact ⟨u, hu, hud⟩
    · exact absurd (List.mem_singleton.1 hu ▸ hud) hs
  intro h a t b hpre ht
  rcases List.eq_nil_or_concat b with rfl | ⟨b, u, rfl⟩
  · obtain ⟨rfl, heq⟩ := List.append_inj' hpre rfl
    cases heq
    exact .inr ((h.resolve_left fun h => by omega).2 ht)
  rw [List.concat_eq_append, ← List.cons_append, ← List.append_assoc] at hpre
  obtain ⟨rfl, heq⟩ := List.append_inj' hpre rfl
  cases heq
  rcases h with hs | ⟨h, -⟩
  · exact .inl ⟨s, by simp, hs⟩
  · exact (h a t b rfl ht).imp_left fun ⟨u, hu, hud⟩ => ⟨u, by simp [hu], hud⟩

/-- When the result so far is negative, and when it is -1. -/
theorem msOf_neg_iff (now : UInt32) (pre : List SysSensor) :
    (msOf now pre < 0 ↔ Negative now pre) ∧ (msOf now pre < 0 → (msOf now pre = -1 ↔ Unset now pre)) := by
  induction pre using List.reverseRecOn with
  | nil => exact ⟨iff_of_true (show (-1 : Int) < 0 by decide) (by simp [Negative]), fun _ => iff_of_true rfl (by simp [Unset])⟩
  | append_singleton pre s ih =>
    have hunset : Unset now (pre ++ [s]) ↔ (s.untilDue now).toNat = 2 ^ 32 - 1 := by simp [Unset]
    obtain ⟨d, hd, hstep⟩ := msOf_concat now pre s
    rw [negative_concat, hunset, hd]
    by_cases hneg : msOf now pre < 0
    · simp only [ih.1.1 hneg, true_and, ← ih.2 hneg]
      omega
    · simp only [mt ih.1.2 hneg, false_and, or_false]
      omega

theorem msOf_mem (pre : List SysSensor) : msOf now pre < 0 ∨ ∃ s ∈ pre, msOf now pre = (s.untilDue now).toNat := by
  induction pre using List.reverseRecOn with
  | nil => exact .inl (show (-1 : Int) < 0 by decide)
  | append_singleton pre s ih =>
    obtain ⟨d, -, hstep⟩ := msOf_concat now pre s
    have hcases : msOf now (pre ++ [s]) = msOf now pre ∨ msOf now (pre ++ [s]) < 0 ∨ msOf now (pre ++ [s]) = (s.untilDue now).toNat := by
      omega
    rcases hcases with h | h | h
    · rw [h]
      exact ih.imp_right fun ⟨t, ht, heq⟩ => ⟨t, by simp [ht], heq⟩
    · exact .inl h
    · exact .inr ⟨s, by simp, h⟩

/-- The least comes out exactly where the list can be cut at it. -/
theorem msOf_least_iff {sensors : List SysSensor} {w : UInt32} (hle : ∀ s ∈ sensors, w ≤ s.untilDue now) :
    msOf now sensors = w.toNat ↔ ∃ pre least after, sensors = pre ++ least :: after ∧ least.untilDue now = w ∧
      w.toNat < 2 ^ 31 ∧ Negative now pre ∧ (least.Due now → Unset now pre) ∧
      ∀ s ∈ after, s.untilDue now = w ∨ ¬s.Due now ∧ 2 ^ 31 ≤ (s.untilDue now).toNat := by
  induction sensors using List.reverseRecOn with
  | nil =>
    have : msOf now [] = -1 := rfl
    simp [this]
  | append_singleton pre s ih =>
    obtain ⟨d, hd, hstep⟩ := msOf_concat now pre s
    have hneg := msOf_neg_iff now pre
    have hs : w.toNat ≤ (s.untilDue now).toNat := UInt32.le_iff_toNat_le.1 (hle s (by simp))
    have hmem : msOf now pre < 0 ∨ (w.toNat : Int) ≤ msOf now pre := by
      refine (msOf_mem pre).imp_right fun ⟨t, ht, heq⟩ => ?_
      have := UInt32.le_iff_toNat_le.1 (hle t (by simp [ht]))
      omega
    specialize ih fun t ht => hle t (by simp [ht])
    constructor
    · intro h
      by_cases hm : msOf now pre = w.toNat
      · -- the result so far is kept
        obtain ⟨p, least, after, rfl, hleast, hsmall, hn, hu, hafter⟩ := ih.1 hm
        refine ⟨p, least, after ++ [s], by simp, hleast, hsmall, hn, hu, fun t ht => ?_⟩
        rcases List.mem_append.1 ht with ht | ht
        · exact hafter t ht
        · rw [List.mem_singleton.1 ht, ← UInt32.toNat_inj, hd]
          omega
      · have hw : s.untilDue now = w := UInt32.toNat_inj.1 (by omega)
        have hn : msOf now pre < 0 := by omega
        exact ⟨pre, s, [], rfl, hw, by omega, hneg.1.1 hn, fun hdue => (hneg.2 hn).1 (by rw [hd] at hdue; omega), by simp⟩
    rintro ⟨p, least, after, hsplit, hleast, hsmall, hn, hu, hafter⟩
    rcases List.eq_nil_or_concat after with rfl | ⟨after, t, rfl⟩
    · obtain ⟨rfl, heq⟩ := List.append_inj' hsplit rfl
      cases heq
      rw [← UInt32.toNat_inj] at hleast
      have hn := hneg.1.2 hn
      rw [hd, ← hneg.2 hn] at hu
      omega
    rw [List.concat_eq_append, ← List.cons_append, ← List.append_assoc] at hsplit
    obtain ⟨rfl, heq⟩ := List.append_inj' hsplit rfl
    cases heq
    have hm := ih.2 ⟨p, least, after, rfl, hleast, hsmall, hn, hu, fun u hu => hafter u (by simp [hu])⟩
    have hafter := hafter s (by simp)
    rw [← UInt32.toNat_inj, hd] at hafter
    omega

end Result

/-- `check_sensor_timers` always reads the right sensors; its result is right exactly where no sensor with clients is polled or the times
until they are due come in such an order. -/
theorem checkSensorTimers_right_iff {δ : Type} (now : UInt32) (read : SysSensor → Option δ) (sensors : List SysSensor) :
    Reads now read sensors (checkSensorTimers now read sensors) ∧ Least now sensors (checkSensorTimers now read sensors).msToNextCheck ↔
      (∀ s ∈ sensors, ¬s.Active) ∨ Meets now (sensors.filter fun s => s.Active) := by
  rw [checkSensorTimers, and_iff_right (checkLoop_reads now read sensors _), checkLoop_ms]
  have hmem {s} : s ∈ sensors.filter (fun s => s.Active) ↔ s ∈ sensors ∧ s.Active := by simp
  constructor
  · rintro (⟨hnone, -⟩ | ⟨s, hs, ha, hms, hle⟩)
    · exact .inl hnone
    · obtain ⟨pre, least, after, hsplit, hw, h⟩ := (msOf_least_iff fun t ht => hle t (hmem.1 ht).1 (hmem.1 ht).2).1 hms
      exact .inr ⟨pre, least, after, hsplit, hw ▸ fun t ht => hle t (hmem.1 ht).1 (hmem.1 ht).2, hw ▸ h⟩
  rintro (hnone | ⟨pre, least, after, hsplit, hle, h⟩)
  · have hnil : sensors.filter (fun s => s.Active) = [] := by simpa using hnone
    exact .inl ⟨hnone, by rw [hnil]; rfl⟩
  · have hl := hmem.1 (by rw [hsplit]; simp : least ∈ _)
    exact .inr ⟨least, hl.1, hl.2, (msOf_least_iff hle).2 ⟨pre, least, after, hsplit, rfl, h⟩, fun t ht ha => hle t (hmem.2 ⟨ht, ha⟩)⟩

/-- A sensor that is read every second is due again before the result says, when another is read every five seconds. -/
theorem longer_interval_wins :
    let sensors := [⟨"a", 0, 1, [⟨7, 1000, 0, 0⟩], 0, 1000, 1000⟩, ⟨"b", 0, 2, [⟨7, 5000, 0, 0⟩], 0, 5000, 5000⟩]
    (checkSensorTimers 5000 (fun _ => some ()) sensors).msToNextCheck = 5000 ∧
      ¬ Least 5000 sensors (checkSensorTimers 5000 (fun _ => some ()) sensors).msToNextCheck := by
  decide

end WamrMigrate.Sensor
