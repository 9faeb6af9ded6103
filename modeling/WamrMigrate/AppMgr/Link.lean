import WamrMigrate.AppMgr.InstallRun

/-!
# The link to the host

`on_imrt_link_byte_arrive` recognises the frames on the link byte by byte: two leading bytes, a type, a size and the payload. The context is not
cleared when `unpack_request` refuses the payload or the payload cannot be allocated; the first type byte of the next frame is then taken for the
second one. Install frames go on to the receiver of install requests, with its own faults (`dispatched_eq_accepted`).
-/

namespace WamrMigrate.AppMgr

/-- `recv_phase_t`. -/
inductive LinkPhase where
  | nonStart | leading | type | size | payload | ignoring
  deriving DecidableEq

/-- `recv_context_t`. `sizeBytes` are the bytes of `payload_size` that have been stored, `payload` those of the payload's block. -/
structure LinkCtx where
  phase : LinkPhase := .nonStart
  messageType : UInt16 := 0
  sizeBytes : List UInt8 := []
  payloadSize : UInt32 := 0
  payload : Option (List UInt8) := none
  sizeInPhase : Nat := 0
  deriving DecidableEq

/-- The two static contexts: of the link, and of the install request. -/
structure LinkState where
  link : LinkCtx := {}
  install : RecvCtx := {}
  deriving DecidableEq

/-- `INSTALL_WASM_APP`. -/
def installWasmApp : UInt16 := 4

/-- `REQUEST_PACKET`. -/
def requestPacket : UInt16 := 2

/-- `ntohs`. -/
def ntohs (w : UInt16) : UInt16 := w <<< 8 ||| w >>> 8

/-- `*received_size` after a call. -/
def receivedSize (ctx : RecvCtx) : Nat := (if ctx.phase = .reqVer then 0 else ctx.totalReceivedSize) + 1

/-- `on_imrt_link_byte_arrive`: whether a complete message has been received, and the contexts. -/
def onImrtLinkByteArrive (cfg : Config) (s : LinkState) (x : Item) : Except Fault (Bool × LinkState) :=
  let c := s.link
  match c.phase with
  | .nonStart =>
    let c : LinkCtx := { c with payloadSize := 0, sizeBytes := [], payload := none }
    .ok (false, { s with link := if x.ch = 0x12 then { c with phase := .leading } else c })
  | .leading => .ok (false, { s with link.phase := if x.ch = 0x34 then .type else .nonStart })
  | .type =>
    if c.sizeInPhase = 0 then .ok (false, { s with link := { c with sizeInPhase := 1, messageType := x.ch.toUInt16 } })
    else .ok (false, { s with link := { c with
      messageType := ntohs (c.messageType ||| x.ch.toUInt16 <<< 8)
      phase := .size
      sizeInPhase := 0 } })
  | .size =>
    let c : LinkCtx := { c with sizeBytes := c.sizeBytes ++ [x.ch], sizeInPhase := c.sizeInPhase + 1 }
    if c.sizeInPhase = 4 then
      let c : LinkCtx := { c with payloadSize := .ofNat (netWord c.sizeBytes), payload := none, phase := .payload }
      if c.payloadSize = 0 then .ok (true, { s with link := { c with phase := .nonStart } })
      else if c.messageType = installWasmApp then .ok (false, { s with link := { c with sizeInPhase := 0 } })
      else if x.malloc then .ok (false, { s with link := { c with payload := some [], sizeInPhase := 0 } })
      -- the payload cannot be allocated: `size_in_phase` stays 4
      else .ok (false, { s with link := { c with phase := .nonStart } })
    else .ok (false, { s with link := c })
  | .payload =>
    let c : LinkCtx := { c with sizeInPhase := c.sizeInPhase + 1 }
    if c.messageType = installWasmApp then
      match byteArrive cfg c.payloadSize.toNat s.install x with
      | .error e => .error e
      | .ok r =>
        if r.ret then
          if receivedSize s.install = c.payloadSize.toNat then .ok (true, ⟨{ c with phase := .nonStart }, r.ctx⟩)
          else .ok (false, ⟨c, r.ctx⟩)
        else if c.sizeInPhase < c.payloadSize.toNat then .ok (false, ⟨{ c with phase := .ignoring }, r.ctx⟩)
        else .ok (false, ⟨{ c with phase := .nonStart, sizeInPhase := 0 }, r.ctx⟩)
    else
      match c.payload with
      | none => .error .invalid
      | some bs =>
        let c : LinkCtx := { c with payload := some (bs ++ [x.ch]) }
        if c.sizeInPhase = c.payloadSize.toNat then .ok (true, { s with link := { c with phase := .nonStart } })
        else .ok (false, { s with link := c })
  | .ignoring =>
    let c : LinkCtx := { c with sizeInPhase := c.sizeInPhase + 1 }
    if c.sizeInPhase = c.payloadSize.toNat then .ok (false, { s with link := {} })
    else .ok (false, { s with link := c })

/-- `request_t`, with the url and the payload as they stand in the packet. The sender is set to `ID_HOST`. -/
structure Request where
  action : UInt8
  fmt : UInt16
  mid : UInt32
  url : List UInt8
  payload : List UInt8
  deriving DecidableEq

/-- `unpack_request`. The lengths are added in 32 bits, and the last byte of the url is read wherever that leads. -/
def unpackRequest (packet : List UInt8) : Except Fault (Option Request) :=
  let field := fun (at_ n : Nat) => netWord ((packet.drop at_).take n)
  if packet.head? ≠ some 1 then .ok none
  else if packet.length < 18 then .ok none
  else
    let urlLen := field 12 2
    let payloadLen := field 14 4
    if packet.length ≠ (18 + urlLen + payloadLen) % 2 ^ 32 then .ok none
    else
      match packet[18 + urlLen - 1]? with
      | none => .error .invalid
      | some b =>
        if b ≠ 0 then .ok none
        else .ok (some ⟨packet.getD 1 0, .ofNat (field 2 2), .ofNat (field 4 4), (packet.drop 18).take urlLen,
          packet.drop (18 + urlLen)⟩)

/-- What `aee_host_msg_callback` does with a complete message: the contexts and the request that is dispatched. -/
def onMessage (s : LinkState) : Except Fault (LinkState × List Request) :=
  match s.link.payload with
  | none => .ok ({ s with link := {} }, [])
  | some packet =>
    if s.link.messageType = requestPacket then
      match unpackRequest packet with
      | .error e => .error e
      -- `continue`: the context is not cleared
      | .ok none => .ok (s, [])
      | .ok (some request) => .ok ({ s with link := {} }, [request])
    else .ok ({ s with link := {} }, [])

/-- The body of the loop of `aee_host_msg_callback`. -/
def onHostByte (cfg : Config) (s : LinkState) (x : Item) : Except Fault (LinkState × List Request) :=
  match onImrtLinkByteArrive cfg s x with
  | .error e => .error e
  | .ok (false, s) => .ok (s, [])
  | .ok (true, s) => onMessage s

/-- `aee_host_msg_callback`: the contexts and the requests dispatched, in order. -/
def aeeHostMsgCallback (cfg : Config) (s : LinkState) : List Item → Except Fault (LinkState × List Request)
  | [] => .ok (s, [])
  | x :: xs =>
    match onHostByte cfg s x with
    | .error e => .error e
    | .ok (s, rs) => (aeeHostMsgCallback cfg s xs).map fun (s', rs') => (s', rs ++ rs')

/-- Calls of `aee_host_msg_callback`, one for each chunk. -/
def callbacks (cfg : Config) (s : LinkState) : List (List Item) → Except Fault (LinkState × List Request)
  | [] => .ok (s, [])
  | chunk :: chunks =>
    match aeeHostMsgCallback cfg s chunk with
    | .error e => .error e
    | .ok (s, rs) => (callbacks cfg s chunks).map fun (s', rs') => (s', rs ++ rs')

/-! ## Frames -/

/-- A frame on the link. `malloc` says whether the allocation of its payload succeeds, if it is made. The size of a payload is an `int`
for the sender. -/
structure Frame where
  type : UInt16
  malloc : Bool
  payload : List Item
  small : payload.length < 2 ^ 31

namespace Frame

variable (f : Frame)

/-- The leading bytes, the type and the size, in network order. -/
def head : List Item :=
  let n := f.payload.length
  [⟨0x12, true, true⟩, ⟨0x34, true, true⟩, ⟨.ofNat (f.type.toNat / 256), true, true⟩, ⟨.ofNat f.type.toNat, true, true⟩,
    ⟨.ofNat (n / 256 / 256 / 256), true, true⟩, ⟨.ofNat (n / 256 / 256), true, true⟩, ⟨.ofNat (n / 256), true, true⟩,
    ⟨.ofNat n, f.malloc, true⟩]

/-- The frame as it is sent. -/
def wire : List Item := f.head ++ f.payload

/-- The install request in the payload. -/
def install : InstallRequest := ⟨f.payload.length, f.payload⟩

/-- The request to be dispatched, if `unpack_request` accepts the payload. -/
def accepted : List Request :=
  if f.type = requestPacket ∧ f.payload ≠ [] then
    match unpackRequest (bytesOf f.payload) with
    | .ok (some r) => [r]
    | _ => []
  else []

/-- The payload can be received: it is allocated, a request has no lengths that wrap around, an install request has no empty part. -/
structure Receivable (cfg : Config) : Prop where
  malloc : f.type ≠ installWasmApp → f.payload ≠ [] → f.malloc
  unpack : f.type = requestPacket → f.payload ≠ [] → ∃ r, unpackRequest (bytesOf f.payload) = .ok r
  install : f.type = installWasmApp → f.payload ≠ [] → 0 ∉ (f.install.parse cfg).lengths

/-- Nothing of the frame is left behind: a request is accepted; an install request is complete and handed over, or refused. -/
structure Settled (cfg : Config) : Prop where
  unpack : f.type = requestPacket → f.payload ≠ [] → ∃ r, unpackRequest (bytesOf f.payload) = .ok (some r)
  install : f.type = installWasmApp → f.payload ≠ [] →
    (f.install.parse cfg).outcome ≠ .pending ∧ ∀ x ∈ f.payload, x.handle

end Frame

/-- Both receivers wait for a first byte. -/
structure Ready (s : LinkState) : Prop where
  phase : s.link.phase = .nonStart
  sizeInPhase : s.link.sizeInPhase = 0
  install : Clean s.install

section Run
variable {cfg : Config} {s s' : LinkState} {rs : List Request} {xs ys : List Item}

/-- What comes after the requests dispatched so far. -/
def after (rs : List Request) (r : LinkState × List Request) : LinkState × List Request := (r.1, rs ++ r.2)

theorem callback_cons {x : Item} (h : onHostByte cfg s x = .ok (s', rs)) :
    aeeHostMsgCallback cfg s (x :: xs) = (aeeHostMsgCallback cfg s' xs).map (after rs) := by
  rw [aeeHostMsgCallback, h]
  rfl

theorem callback_append_eq (s : LinkState) (xs ys : List Item) : aeeHostMsgCallback cfg s (xs ++ ys) =
    (aeeHostMsgCallback cfg s xs).bind fun r => (aeeHostMsgCallback cfg r.1 ys).map (after r.2) := by
  induction xs generalizing s with
  | nil => cases h : aeeHostMsgCallback cfg s ys <;> simp [aeeHostMsgCallback, Except.bind, Except.map, after, h]
  | cons x xs ih =>
    rw [List.cons_append]
    cases h : onHostByte cfg s x with
    | error e => simp [aeeHostMsgCallback, h, Except.bind]
    | ok r =>
      rw [callback_cons h, callback_cons h, ih]
      cases aeeHostMsgCallback cfg r.1 xs with
      | error e => rfl
      | ok r' => cases h' : aeeHostMsgCallback cfg r'.1 ys <;> simp [Except.bind, Except.map, after, h', List.append_assoc]

theorem callback_append (h : aeeHostMsgCallback cfg s xs = .ok (s', rs)) :
    aeeHostMsgCallback cfg s (xs ++ ys) = (aeeHostMsgCallback cfg s' ys).map (after rs) := by
  rw [callback_append_eq, h]
  rfl

theorem callbacks_eq (s : LinkState) (chunks : List (List Item)) : callbacks cfg s chunks = aeeHostMsgCallback cfg s chunks.flatten := by
  induction chunks generalizing s with
  | nil => rfl
  | cons chunk chunks ih =>
    rw [List.flatten_cons, callback_append_eq, callbacks]
    cases aeeHostMsgCallback cfg s chunk with
    | error e => rfl
    | ok r =>
      obtain ⟨s', rs⟩ := r
      show (callbacks cfg s' chunks).map (after rs) = (aeeHostMsgCallback cfg s' chunks.flatten).map (after rs)
      rw [ih]

/-! ## The head of a frame -/

theorem or_shiftLeft_eq {a b : Nat} (ha : a < 256) : a ||| b <<< 8 = a + b * 256 := by
  rw [Nat.or_comm, ← Nat.shiftLeft_add_eq_or_of_lt ha, Nat.shiftLeft_eq, Nat.add_comm]

theorem ntohs_bytes (w : UInt16) : ntohs ((UInt8.ofNat (w.toNat / 256)).toUInt16 ||| (UInt8.ofNat w.toNat).toUInt16 <<< 8) = w := by
  have hw := w.toNat_lt
  apply UInt16.toNat_inj.1
  have hhi : w.toNat / 256 % 256 = w.toNat / 256 := by omega
  have hswap : w.toNat / 256 ||| (w.toNat % 256) <<< 8 % 65536 = w.toNat / 256 + (w.toNat % 256) * 256 := by
    rw [Nat.mod_eq_of_lt (by rw [Nat.shiftLeft_eq]; omega), or_shiftLeft_eq (by omega)]
  have hlow : (w.toNat / 256 + w.toNat % 256 * 256) / 256 = w.toNat % 256 := by omega
  have hback : (w.toNat / 256 + w.toNat % 256 * 256) * 256 % 65536 = (w.toNat / 256) <<< 8 := by
    rw [Nat.shiftLeft_eq]
    omega
  simp only [ntohs, UInt16.toNat_or, UInt16.toNat_shiftLeft, UInt16.toNat_shiftRight, UInt8.toNat_toUInt16, UInt8.toNat_ofNat',
    show (8 : UInt16).toNat = 8 from rfl, Nat.reducePow, Nat.reduceMod]
  rw [hhi, hswap, Nat.shiftLeft_eq, Nat.shiftRight_eq_div_pow, hback, Nat.or_comm, hlow, or_shiftLeft_eq (by omega)]
  omega

/-- The state after the head of a frame whose payload is not empty. -/
def atPayload (f : Frame) (s : LinkState) : LinkState :=
  { s with link := {
    phase := .payload
    messageType := f.type
    sizeBytes := bytesOf (f.head.drop 4)
    payloadSize := .ofNat f.payload.length
    payload := if f.type = installWasmApp then none else some []
    sizeInPhase := 0 } }

theorem netWord_head (f : Frame) : netWord (bytesOf (f.head.drop 4)) = f.payload.length := by
  have hrev : (bytesOf (f.head.drop 4)).reverse = Reader.toBytes 4 f.payload.length := rfl
  have hsmall := f.small
  rw [netWord, hrev, Reader.ofBytes_toBytes_of_lt]
  norm_num
  omega

theorem toNat_length (f : Frame) : (UInt32.ofNat f.payload.length).toNat = f.payload.length := by
  have := f.small
  exact UInt32.toNat_ofNat_of_lt' (by unfold UInt32.size; omega)

theorem callback_head (hs : Ready s) (f : Frame) (hm : f.type ≠ installWasmApp → f.payload ≠ [] → f.malloc) :
    aeeHostMsgCallback cfg s f.head = .ok (if f.payload = [] then { s with link := {} } else atPayload f s, []) := by
  obtain ⟨⟨phase, mt, sb, ps, pl, sz⟩, ic⟩ := s
  obtain rfl : phase = .nonStart := hs.phase
  obtain rfl : sz = 0 := hs.sizeInPhase
  have h1 : aeeHostMsgCallback cfg ⟨⟨.nonStart, mt, sb, ps, pl, 0⟩, ic⟩ (f.head.take 7) =
      .ok (⟨⟨.size, f.type, bytesOf ((f.head.drop 4).take 3), 0, none, 3⟩, ic⟩, []) := by
    have : aeeHostMsgCallback cfg ⟨⟨.nonStart, mt, sb, ps, pl, 0⟩, ic⟩ (f.head.take 7) = .ok (⟨⟨.size,
      ntohs ((UInt8.ofNat (f.type.toNat / 256)).toUInt16 ||| (UInt8.ofNat f.type.toNat).toUInt16 <<< 8),
      bytesOf ((f.head.drop 4).take 3), 0, none, 3⟩, ic⟩, []) := rfl
    rw [this, ntohs_bytes]
  -- the last byte of the size
  have hlast : onImrtLinkByteArrive cfg ⟨⟨.size, f.type, bytesOf ((f.head.drop 4).take 3), 0, none, 3⟩, ic⟩
      ⟨.ofNat f.payload.length, f.malloc, true⟩ = .ok (if f.payload = [] then
        (true, ⟨⟨.nonStart, f.type, bytesOf (f.head.drop 4), 0, none, 4⟩, ic⟩)
        else (false, ⟨⟨.payload, f.type, bytesOf (f.head.drop 4), .ofNat f.payload.length,
          if f.type = installWasmApp then none else some [], 0⟩, ic⟩)) := by
    have hbytes : bytesOf ((f.head.drop 4).take 3) ++ [UInt8.ofNat f.payload.length] = bytesOf (f.head.drop 4) := rfl
    simp only [onImrtLinkByteArrive, hbytes, netWord_head, if_true]
    by_cases hnil : f.payload = []
    · simp [hnil]
    have hne : UInt32.ofNat f.payload.length ≠ 0 := by
      intro h
      have := congrArg UInt32.toNat h
      rw [toNat_length] at this
      exact hnil (List.eq_nil_of_length_eq_zero this)
    rw [if_neg hne, if_neg hnil]
    by_cases ht : f.type = installWasmApp
    · rw [if_pos ht, if_pos ht]
    · rw [if_neg ht, if_neg ht, if_pos (hm ht hnil)]
  rw [← List.take_append_drop 7 f.head, callback_append h1]
  show (aeeHostMsgCallback cfg _ [⟨.ofNat f.payload.length, f.malloc, true⟩]).map (after []) = _
  simp only [aeeHostMsgCallback, onHostByte, hlast]
  by_cases hnil : f.payload = []
  · simp [hnil, onMessage, Except.map, after]
  · simp [hnil, Except.map, after, atPayload]

/-! ## The payload -/

theorem onHostByte_more {x : Item} (h : onImrtLinkByteArrive cfg s x = .ok (false, s')) : onHostByte cfg s x = .ok (s', []) := by
  rw [onHostByte, h]

theorem onHostByte_message {x : Item} (h : onImrtLinkByteArrive cfg s x = .ok (true, s')) : onHostByte cfg s x = onMessage s' := by
  rw [onHostByte, h]

theorem map_after_nil (r : Except Fault (LinkState × List Request)) : r.map (after []) = r := by
  cases r <;> rfl

theorem callback_more {x : Item} (h : onImrtLinkByteArrive cfg s x = .ok (false, s')) :
    aeeHostMsgCallback cfg s (x :: xs) = aeeHostMsgCallback cfg s' xs := by
  rw [callback_cons (onHostByte_more h), map_after_nil]

theorem callback_message {x : Item} (h : onImrtLinkByteArrive cfg s x = .ok (true, s')) : aeeHostMsgCallback cfg s [x] = onMessage s' := by
  rw [aeeHostMsgCallback, onHostByte_message h]
  cases onMessage s' <;> simp [aeeHostMsgCallback, Except.map]

/-- A payload that is not an install request is stored to its end. -/
theorem callback_store {c : LinkCtx} {ic : RecvCtx} {bs : List UInt8} (hp : c.phase = .payload) (ht : c.messageType ≠ installWasmApp)
    (hb : c.payload = some bs) (hsz : c.sizeInPhase = bs.length) (hn : bs.length + xs.length = c.payloadSize.toNat) (hx : xs ≠ []) :
    aeeHostMsgCallback cfg ⟨c, ic⟩ xs =
      onMessage ⟨{ c with phase := .nonStart, payload := some (bs ++ bytesOf xs), sizeInPhase := c.payloadSize.toNat }, ic⟩ := by
  induction xs generalizing c bs with
  | nil => exact absurd rfl hx
  | cons x xs ih =>
    rw [List.length_cons] at hn
    cases xs with
    | nil =>
      have hfull : c.sizeInPhase + 1 = c.payloadSize.toNat := by rw [hsz]; exact hn
      refine callback_message ?_
      simp only [onImrtLinkByteArrive, hp, if_neg ht, hb, if_pos hfull]
      rw [hfull]
      rfl
    | cons y ys =>
      have hnot : c.sizeInPhase + 1 ≠ c.payloadSize.toNat := by
        rw [hsz, ← hn, List.length_cons]
        omega
      have hlen : (bs ++ [x.ch]).length = bs.length + 1 := by simp
      have hstep : onImrtLinkByteArrive cfg ⟨c, ic⟩ x =
          .ok (false, ⟨{ c with sizeInPhase := c.sizeInPhase + 1, payload := some (bs ++ [x.ch]) }, ic⟩) := by
        simp only [onImrtLinkByteArrive, hp, if_neg ht, hb, if_neg hnot]
      rw [callback_more hstep, ih (by exact hp) (by exact ht) rfl (by rw [hsz, hlen]) (by rw [hlen, ← hn]; omega) (by simp)]
      simp [bytesOf]

theorem callback_ignore {c : LinkCtx} {ic : RecvCtx} (hp : c.phase = .ignoring) (hn : c.sizeInPhase + xs.length = c.payloadSize.toNat)
    (hx : xs ≠ []) : aeeHostMsgCallback cfg ⟨c, ic⟩ xs = .ok (⟨{}, ic⟩, []) := by
  induction xs generalizing c with
  | nil => exact absurd rfl hx
  | cons x xs ih =>
    rw [List.length_cons] at hn
    cases xs with
    | nil =>
      have hfull : c.sizeInPhase + 1 = c.payloadSize.toNat := hn
      have hstep : onImrtLinkByteArrive cfg ⟨c, ic⟩ x = .ok (false, ⟨{}, ic⟩) := by
        simp only [onImrtLinkByteArrive, hp, if_pos hfull]
      rw [callback_more hstep]
      rfl
    | cons y ys =>
      have hnot : c.sizeInPhase + 1 ≠ c.payloadSize.toNat := by
        rw [← hn, List.length_cons]
        omega
      have hstep : onImrtLinkByteArrive cfg ⟨c, ic⟩ x = .ok (false, ⟨{ c with sizeInPhase := c.sizeInPhase + 1 }, ic⟩) := by
        simp only [onImrtLinkByteArrive, hp, if_neg hnot]
      rw [callback_more hstep]
      exact ih hp ((Nat.add_right_comm _ _ _).trans hn) (by simp)

theorem counts_byteArrive {total : Nat} {ctx : RecvCtx} {x : Item} {r : Result} (h : byteArrive cfg total ctx x = .ok r) :
    (r.ret → r.handed = none → r.ctx.phase ≠ .reqVer ∧ r.ctx.totalReceivedSize = receivedSize ctx) ∧
      (r.handed ≠ none → r.ret ∧ receivedSize ctx = total) := by
  rw [byteArrive] at h
  have hcounts := counts_byteArrive' _ x r h
  have hsize : (if ctx.phase = .reqVer then { ctx with got := [], totalReceivedSize := 0 } else ctx).totalReceivedSize + 1 =
      receivedSize ctx := by
    unfold receivedSize
    split <;> rfl
  simp only [hsize] at hcounts
  exact hcounts

/-- An install request is received to its end, whatever becomes of it. -/
theorem callback_install {c : LinkCtx} {ic ic' : RecvCtx} {o : Outcome} (hp : c.phase = .payload) (ht : c.messageType = installWasmApp)
    (hpl : c.payload = none) (hcount : receivedSize ic = c.sizeInPhase + 1) (hn : c.sizeInPhase + xs.length = c.payloadSize.toNat)
    (hx : xs ≠ []) (hfeed : feed cfg c.payloadSize.toNat ic xs = .ok (o, ic')) :
    ∃ c', aeeHostMsgCallback cfg ⟨c, ic⟩ xs = .ok (⟨c', ic'⟩, []) ∧ c'.phase = .nonStart ∧ c'.sizeInPhase = 0 := by
  induction xs generalizing c ic with
  | nil => exact absurd rfl hx
  | cons x xs ih =>
    have hrest : c.sizeInPhase + 1 + xs.length = c.payloadSize.toNat := by
      rw [List.length_cons] at hn
      omega
    rw [feed_cons] at hfeed
    cases hb : byteArrive cfg c.payloadSize.toNat ic x with
    | error e =>
      rw [hb] at hfeed
      cases hfeed
    | ok r =>
      obtain ⟨hmore, hdone⟩ := counts_byteArrive hb
      rw [hb] at hfeed
      obtain ⟨ret, ctx, response, handed⟩ := r
      cases ret with
      | true =>
        by_cases hlast : receivedSize ic = c.payloadSize.toNat
        · -- the last byte: the frame is complete
          obtain rfl : xs = [] := List.eq_nil_of_length_eq_zero (by omega)
          have hctx : ctx = ic' := by
            cases handed with
            | some h | none =>
              cases hfeed
              rfl
          have hstep : onImrtLinkByteArrive cfg ⟨c, ic⟩ x =
              .ok (true, ⟨{ c with sizeInPhase := c.sizeInPhase + 1, phase := .nonStart }, ctx⟩) := by
            simp only [onImrtLinkByteArrive, hp, if_pos ht, hb, if_true, if_pos hlast]
          refine ⟨{}, ?_, rfl, rfl⟩
          rw [callback_message hstep, onMessage]
          simp only [hpl, hctx]
        · obtain rfl : handed = none := by
            cases handed with
            | none => rfl
            | some h => exact absurd (hdone (by simp)).2 hlast
          obtain ⟨hphase, htotal⟩ := hmore rfl rfl
          have hstep : onImrtLinkByteArrive cfg ⟨c, ic⟩ x = .ok (false, ⟨{ c with sizeInPhase := c.sizeInPhase + 1 }, ctx⟩) := by
            simp only [onImrtLinkByteArrive, hp, if_pos ht, hb, if_true, if_neg hlast]
          rw [callback_more hstep]
          refine ih (by exact hp) (by exact ht) (by exact hpl) ?_ hrest ?_ hfeed
          · rw [receivedSize, if_neg hphase]
            show ctx.totalReceivedSize + 1 = c.sizeInPhase + 1 + 1
            have : ctx.totalReceivedSize = receivedSize ic := htotal
            omega
          · rintro rfl
            exact hlast (hcount.trans hrest)
      | false =>
        obtain rfl : handed = none := by
          cases handed with
          | none => rfl
          | some h => exact absurd (hdone (by simp)).1 (by simp)
        obtain rfl : ctx = ic' := by
          cases hfeed
          rfl
        by_cases hlt : c.sizeInPhase + 1 < c.payloadSize.toNat
        · have hstep : onImrtLinkByteArrive cfg ⟨c, ic⟩ x =
              .ok (false, ⟨{ c with sizeInPhase := c.sizeInPhase + 1, phase := .ignoring }, ctx⟩) := by
            simp [onImrtLinkByteArrive, hp, ht, hb, hlt]
          refine ⟨{}, ?_, rfl, rfl⟩
          rw [callback_more hstep]
          refine callback_ignore rfl hrest ?_
          rintro rfl
          exact absurd hrest (Nat.ne_of_lt hlt)
        obtain rfl : xs = [] := List.eq_nil_of_length_eq_zero (by omega)
        have hstep : onImrtLinkByteArrive cfg ⟨c, ic⟩ x =
            .ok (false, ⟨{ c with sizeInPhase := 0, phase := .nonStart }, ctx⟩) := by
          simp [onImrtLinkByteArrive, hp, ht, hb, hlt]
        exact ⟨_, by rw [callback_more hstep]; rfl, rfl, rfl⟩

/-! ## Whole frames -/

/-- A frame that can be received dispatches what `unpack_request` accepts of it, and if it is settled nothing of it is left behind. -/
theorem callback_frame (hs : Ready s) {f : Frame} (hf : f.Receivable cfg) :
    ∃ s', aeeHostMsgCallback cfg s f.wire = .ok (s', f.accepted) ∧ (f.Settled cfg → Ready s') := by
  have hhead := @callback_head cfg s hs f hf.malloc
  rw [Frame.wire, callback_append hhead, map_after_nil]
  by_cases hnil : f.payload = []
  · rw [if_pos hnil]
    refine ⟨{ s with link := {} }, ?_, fun _ => ⟨rfl, rfl, hs.install⟩⟩
    simp [hnil, aeeHostMsgCallback, Frame.accepted]
  rw [if_neg hnil]
  by_cases ht : f.type = installWasmApp
  · -- an install request
    obtain ⟨ic, hfeed, hclean⟩ :=
      @agrees_parse cfg f.payload.length (∀ x ∈ f.payload, x.handle) f.payload s.install hs.install id (hf.install ht hnil)
    have hlen : (atPayload f s).link.payloadSize.toNat = f.payload.length := toNat_length f
    have hcount : receivedSize s.install = 1 := by rw [receivedSize, if_pos hs.install.1]
    obtain ⟨c, hrun, hphase, hsize⟩ := @callback_install cfg f.payload (atPayload f s).link s.install ic _ rfl ht (if_pos ht) hcount
      ((Nat.zero_add _).trans hlen.symm) hnil (by rw [hlen]; exact hfeed)
    refine ⟨⟨c, ic⟩, ?_, fun hset => ⟨hphase, hsize, ?_⟩⟩
    · have hnone : f.accepted = [] := by
        rw [Frame.accepted, if_neg]
        rintro ⟨h, -⟩
        rw [ht] at h
        exact absurd h (by decide)
      rw [hnone]
      exact hrun
    · obtain ⟨hpend, hhandle⟩ := hset.install ht hnil
      exact hclean hhandle hpend
  · have hstore := @callback_store cfg f.payload (atPayload f s).link s.install [] rfl ht (if_neg ht) rfl
      ((Nat.zero_add _).trans (toNat_length f).symm) hnil
    rw [show atPayload f s = ⟨(atPayload f s).link, s.install⟩ from rfl, hstore, onMessage]
    simp only [List.nil_append]
    by_cases hreq : f.type = requestPacket
    · obtain ⟨r, hr⟩ := hf.unpack hreq hnil
      have hacc : f.accepted = r.toList := by
        rw [Frame.accepted, if_pos ⟨hreq, hnil⟩, hr]
        cases r <;> rfl
      rw [if_pos (by exact hreq), hr, hacc]
      cases r with
      | none =>
        refine ⟨_, rfl, fun hset => ?_⟩
        obtain ⟨r', hr'⟩ := hset.unpack hreq hnil
        rw [hr] at hr'
        cases hr'
      | some r => exact ⟨_, rfl, fun _ => ⟨rfl, rfl, hs.install⟩⟩
    · rw [if_neg (by exact hreq), Frame.accepted, if_neg fun h => hreq h.1]
      exact ⟨_, rfl, fun _ => ⟨rfl, rfl, hs.install⟩⟩

theorem callback_frames {fs : List Frame} (hs : Ready s) (hf : ∀ f ∈ fs, f.Receivable cfg) (hset : ∀ f ∈ fs.dropLast, f.Settled cfg) :
    ∃ s', aeeHostMsgCallback cfg s (fs.flatMap Frame.wire) = .ok (s', fs.flatMap Frame.accepted) := by
  induction fs generalizing s with
  | nil => exact ⟨s, rfl⟩
  | cons f fs ih =>
    obtain ⟨s₁, h₁, hready⟩ := callback_frame hs (hf f List.mem_cons_self)
    rw [List.flatMap_cons, List.flatMap_cons, callback_append h₁]
    cases fs with
    | nil => exact ⟨s₁, by simp [aeeHostMsgCallback, Except.map, after]⟩
    | cons g gs =>
      have hfset : f.Settled cfg := hset f List.mem_cons_self
      obtain ⟨s₂, h₂⟩ := ih (hready hfset) (fun h hh => hf h (List.mem_cons_of_mem _ hh)) fun h hh => hset h (List.mem_cons_of_mem _ hh)
      rw [h₂]
      exact ⟨s₂, rfl⟩

/-! ## Bounds -/

/-- The next byte goes into the word of the size, or into the block of the payload. -/
def LinkCtx.InBounds (c : LinkCtx) : Prop :=
  (c.phase = .size → c.sizeInPhase < 4) ∧ (c.phase = .payload → c.messageType ≠ installWasmApp →
    c.payload.map List.length = some c.sizeInPhase ∧ c.sizeInPhase < c.payloadSize.toNat)

theorem inBounds_byteArrive {x : Item} {b : Bool} (hs : s.link.InBounds) (h : onImrtLinkByteArrive cfg s x = .ok (b, s')) :
    s'.link.InBounds ∧ s'.link.sizeInPhase ≤ s.link.sizeInPhase + 1 := by
  unfold onImrtLinkByteArrive LinkCtx.InBounds at *
  -- only the size and the payload need what is known
  cases hp : s.link.phase <;> simp only [hp] at h hs <;> repeat' split at h
  all_goals cases h
  all_goals simp [hp, ← UInt32.toNat_inj] at *
  all_goals grind

theorem inBounds_hostByte {x : Item} (hs : s.link.InBounds) (h : onHostByte cfg s x = .ok (s', rs)) :
    s'.link.InBounds ∧ s'.link.sizeInPhase ≤ s.link.sizeInPhase + 1 := by
  unfold onHostByte onMessage at h
  repeat' split at h
  all_goals cases h
  all_goals first | exact inBounds_byteArrive hs ‹_› | simp [LinkCtx.InBounds]

end Run

/-- A frame with a request that has an empty url. -/
def smallRequest : Frame :=
  ⟨requestPacket, true, [1, 1, 0, 0, 0, 0, 0, 7, 0, 0, 0, 0, 0, 1, 0, 0, 0, 0, 0].map (⟨·, true, true⟩), by decide⟩

/-- A frame with an install request that is refused. -/
def refusedInstall : Frame := ⟨installWasmApp, true, wrongVersion.bytes, by decide⟩

/-- A frame with a request of another version, which `unpack_request` does not accept. -/
def otherVersion : Frame := ⟨requestPacket, true, [⟨2, true, true⟩], by decide⟩

end WamrMigrate.AppMgr
