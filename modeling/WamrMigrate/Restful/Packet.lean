import WamrMigrate.AppMgr.Link

/-!
# Packets of requests and responses

`pack_request` and `pack_response` of `restful_utils.c` write a message into a block, and `unpack_request` and `unpack_response` find its parts
again. Action and status have one byte in the packet, the format and the length of the url two, the length of the payload four; the length of the
packet is an `int` on its way. A message comes back exactly if none of these is too narrow for it.
-/

namespace WamrMigrate.Restful

open AppMgr Reader

/-- `request_t`. `url` is the string without its end, `payload` are the bytes that are there. -/
structure Request where
  mid : UInt32
  url : List UInt8
  action : Int
  fmt : Int
  payload : List UInt8
  payloadLen : Int
  sender : UInt32
  deriving DecidableEq

/-- `response_t`. -/
structure Response where
  mid : UInt32
  status : Int
  fmt : Int
  payload : List UInt8
  payloadLen : Int
  reciever : UInt32
  deriving DecidableEq

/-- A number as an `int`. -/
def toInt (v : Int) : Int := (v + 2 ^ 31) % 2 ^ 32 - 2 ^ 31

/-- The `n` bytes of a number in network order. -/
def netBytes (n v : Nat) : List UInt8 := (toBytes n v).reverse

/-! ## Packing -/

/-- The first twelve bytes of a packet: the version, the action or the status, the format, the message and the sender or the receiver. -/
def fixPart (code fmt : Int) (mid id : UInt32) : List UInt8 :=
  [1, UInt8.ofNat (code % 2 ^ 8).toNat] ++ netBytes 2 (fmt % 2 ^ 16).toNat ++ netBytes 4 mid.toNat ++ netBytes 4 id.toNat

/-- `pack_request`, with the packet and its size. The lengths are computed as `int`, and a block is asked for with an `unsigned int`. -/
def packRequest (malloc : Bool) (request : Request) : Except Fault (Option (List UInt8 × Int)) :=
  let urlLen := toInt (request.url.length + 1)
  let len := toInt (18 + urlLen + request.payloadLen)
  let bytes := (len % 2 ^ 32).toNat
  if ¬ malloc then .ok none
  -- `strcpy` writes the url with its end, and `memcpy` the payload at `url_len`
  else if bytes < 18 + (request.url.length + 1) ∨ 18 + urlLen < 0 ∨ bytes < 18 + urlLen + request.payloadLen then .error .invalid
  else
    .ok (some (fixPart request.action request.fmt request.mid request.sender ++ netBytes 2 (urlLen % 2 ^ 16).toNat ++
      netBytes 4 (request.payloadLen % 2 ^ 32).toNat ++ (request.url ++ 0 :: request.payload), len))

/-- `pack_response`. -/
def packResponse (malloc : Bool) (response : Response) : Except Fault (Option (List UInt8 × Int)) :=
  let len := toInt (16 + response.payloadLen)
  let bytes := (len % 2 ^ 32).toNat
  if ¬ malloc then .ok none
  else if bytes < 16 + response.payloadLen then .error .invalid
  else
    .ok (some (fixPart response.status response.fmt response.mid response.reciever ++
      netBytes 4 (response.payloadLen % 2 ^ 32).toNat ++ response.payload, len))

/-! ## Unpacking -/

/-- The number in `n` bytes of a packet. -/
def field (packet : List UInt8) (at_ n : Nat) : Nat := netWord ((packet.drop at_).take n)

/-- `unpack_request`: nothing if it returns NULL. The sum of the lengths is an `unsigned int`. -/
def unpackRequest (packet : List UInt8) (size : Int) : Except Fault (Option Request) :=
  let urlLen := field packet 12 2
  let payloadLen := field packet 14 4
  if packet.head? ≠ some 1 then .ok none
  else if size < 18 then .ok none
  else if size % 2 ^ 32 ≠ ((18 + urlLen + payloadLen : Nat) : Int) % 2 ^ 32 then .ok none
  else
    match packet[18 + urlLen - 1]? with
    | none => .error .invalid
    | some b =>
      if b ≠ 0 then .ok none
      else
        .ok (some {
          action := (packet.getD 1 0).toNat
          fmt := field packet 2 2
          mid := .ofNat (field packet 4 4)
          sender := .ofNat (field packet 8 4)
          payloadLen := toInt payloadLen
          url := (packet.drop 18).takeWhile (· ≠ 0)
          payload := (packet.drop (18 + urlLen)).take payloadLen })

/-- `unpack_response`. -/
def unpackResponse (packet : List UInt8) (size : Int) : Except Fault (Option Response) :=
  let payloadLen := field packet 12 4
  if packet.head? ≠ some 1 then .ok none
  else if size < 16 then .ok none
  else if size % 2 ^ 32 ≠ ((16 + payloadLen : Nat) : Int) % 2 ^ 32 then .ok none
  else
    .ok (some {
      status := (packet.getD 1 0).toNat
      fmt := field packet 2 2
      mid := .ofNat (field packet 4 4)
      reciever := .ofNat (field packet 8 4)
      payloadLen := toInt payloadLen
      payload := (packet.drop 16).take payloadLen })

/-! ## Round trips -/

/-- A url that is a string, and a payload of the length it is said to have, which is an `int`. -/
structure Request.WellFormed (r : Request) : Prop where
  url : ∀ b ∈ r.url, b ≠ 0
  payloadLen : r.payloadLen = r.payload.length
  small : r.payload.length < 2 ^ 31

structure Response.WellFormed (r : Response) : Prop where
  payloadLen : r.payloadLen = r.payload.length
  small : r.payload.length < 2 ^ 31

/-- What the fields of a packet have room for. -/
structure Request.Fits (r : Request) : Prop where
  action : 0 ≤ r.action ∧ r.action < 2 ^ 8
  fmt : 0 ≤ r.fmt ∧ r.fmt < 2 ^ 16
  url : r.url.length + 1 < 2 ^ 16
  packet : 18 + (r.url.length + 1) + r.payload.length < 2 ^ 31

structure Response.Fits (r : Response) : Prop where
  status : 0 ≤ r.status ∧ r.status < 2 ^ 8
  fmt : 0 ≤ r.fmt ∧ r.fmt < 2 ^ 16
  packet : 16 + r.payload.length < 2 ^ 31

section

variable {malloc : Bool} {packet : List UInt8} {size : Int}

theorem netWord_netBytes (n v : Nat) : netWord (netBytes n v) = v % 256 ^ n := by
  rw [netWord, netBytes, List.reverse_reverse, ofBytes_toBytes]

theorem fixPart_fields {code fmt : Int} {mid id : UInt32} {rest : List UInt8} (h : packet = fixPart code fmt mid id ++ rest) :
    packet.head? = some 1 ∧ ((packet.getD 1 0).toNat : Int) = code % 2 ^ 8 ∧ (field packet 2 2 : Int) = fmt % 2 ^ 16 ∧
      UInt32.ofNat (field packet 4 4) = mid ∧ UInt32.ofNat (field packet 8 4) = id := by
  subst h
  have hmid : field (fixPart code fmt mid id ++ rest) 4 4 = netWord (netBytes 4 mid.toNat) := rfl
  have hid : field (fixPart code fmt mid id ++ rest) 8 4 = netWord (netBytes 4 id.toNat) := rfl
  have hfmt : field (fixPart code fmt mid id ++ rest) 2 2 = netWord (netBytes 2 (fmt % 2 ^ 16).toNat) := rfl
  have hcode : (fixPart code fmt mid id ++ rest).getD 1 0 = UInt8.ofNat (code % 2 ^ 8).toNat := rfl
  have hlt : ∀ w : UInt32, w.toNat % 256 ^ 4 = w.toNat := fun w => Nat.mod_eq_of_lt w.toNat_lt
  rw [hmid, hid, hfmt, hcode, netWord_netBytes, netWord_netBytes, netWord_netBytes, hlt, hlt, UInt8.toNat_ofNat']
  exact ⟨rfl, by omega, by omega, UInt32.ofNat_toNat, UInt32.ofNat_toNat⟩

theorem toInt_of_lt {v : Nat} (h : v < 2 ^ 31) : toInt v = v := by
  unfold toInt
  omega

theorem toInt_of_ge {v : Nat} (h : 2 ^ 31 ≤ v) (h' : v < 2 ^ 32) : toInt v = (v : Int) - 2 ^ 32 := by
  unfold toInt
  omega

theorem urlLen_emod (n : Nat) : ((n : Int) + 1) % 2 ^ 16 = ((n + 1) % 2 ^ 16 : Nat) := by omega

theorem payloadLen_toNat {n : Nat} (h : n < 2 ^ 31) : ((n : Int) % 2 ^ 32).toNat = n := by omega

/-- The bytes of a request in a packet. -/
def Request.bytes (r : Request) : List UInt8 :=
  fixPart r.action r.fmt r.mid r.sender ++
    (netBytes 2 ((r.url.length + 1) % 2 ^ 16) ++ (netBytes 4 r.payload.length ++ (r.url ++ 0 :: r.payload)))

/-- The length of its packet. -/
def Request.packetLen (r : Request) : Nat := 18 + (r.url.length + 1) + r.payload.length

/-- A packet that is returned has its parts one after the other, and its length is less than 2³². -/
theorem packRequest_ok {r : Request} (hr : r.WellFormed) (h : packRequest malloc r = .ok (some (packet, size))) :
    packet = r.bytes ∧ size = toInt r.packetLen ∧ r.packetLen < 2 ^ 32 := by
  obtain ⟨-, hlen, hsmall⟩ := hr
  unfold packRequest at h
  simp only [hlen] at h
  split at h
  · cases h
  split at h
  · cases h
  next hfits =>
  simp only [not_or, not_lt] at hfits
  obtain ⟨hurl, hneg, hpayload⟩ := hfits
  cases h
  have hurlLen : toInt (r.url.length + 1) = r.url.length + 1 := by
    unfold toInt at hurl hneg hpayload ⊢
    omega
  rw [hurlLen] at hurl hpayload ⊢
  refine ⟨?_, ?_, ?_⟩
  · rw [urlLen_emod, payloadLen_toNat hsmall, Int.toNat_natCast, Request.bytes, List.append_assoc, List.append_assoc]
  · exact congrArg toInt (by unfold Request.packetLen; omega)
  have hbytes : ∀ v : Int, (v % 2 ^ 32).toNat < 2 ^ 32 := by omega
  have := hbytes (toInt (18 + (r.url.length + 1) + r.payload.length))
  unfold Request.packetLen
  omega

/-- A packet whose length is an `int` is returned if there is memory for it. -/
theorem packRequest_of_lt {r : Request} (hr : r.WellFormed) (h : r.packetLen < 2 ^ 31) :
    packRequest true r = .ok (some (r.bytes, toInt r.packetLen)) := by
  obtain ⟨-, hlen, hsmall⟩ := hr
  unfold Request.packetLen at h
  have hurlLen : toInt (r.url.length + 1) = r.url.length + 1 := toInt_of_lt (v := r.url.length + 1) (by omega)
  have htotal : toInt (18 + (r.url.length + 1) + r.payload.length) = 18 + (r.url.length + 1) + r.payload.length :=
    toInt_of_lt (v := 18 + (r.url.length + 1) + r.payload.length) h
  unfold packRequest
  simp only [hlen, hurlLen, htotal]
  rw [if_neg (by decide), if_neg (by omega), urlLen_emod, payloadLen_toNat hsmall, Int.toNat_natCast, List.append_assoc, List.append_assoc, Request.packetLen,
    toInt_of_lt h]
  push_cast
  rfl

/-- What comes back of a request: nothing if its packet or its url is too long, and the narrowed action and format else. -/
theorem unpackRequest_bytes {r : Request} (hr : r.WellFormed) (hlt : r.packetLen < 2 ^ 32) : unpackRequest r.bytes (toInt r.packetLen) =
      .ok (if r.packetLen < 2 ^ 31 ∧ r.url.length + 1 < 2 ^ 16 then some { r with action := r.action % 2 ^ 8, fmt := r.fmt % 2 ^ 16 }
        else none) := by
  obtain ⟨hurl, hlen, hsmall⟩ := hr
  obtain ⟨hhead, hcode, hfmt, hmid, hid⟩ := fixPart_fields (rfl : r.bytes = _)
  have hurlLen : field r.bytes 12 2 = (r.url.length + 1) % 2 ^ 16 := by
    have hf : field r.bytes 12 2 = netWord (netBytes 2 ((r.url.length + 1) % 2 ^ 16)) := rfl
    rw [hf, netWord_netBytes]
    omega
  have hpayloadLen : field r.bytes 14 4 = r.payload.length := by
    have hf : field r.bytes 14 4 = netWord (netBytes 4 r.payload.length) := rfl
    rw [hf, netWord_netBytes, Nat.mod_eq_of_lt (by omega)]
  have hdrop : ∀ n, r.bytes.drop (18 + n) = (r.url ++ 0 :: r.payload).drop n := by
    intro n
    rw [← List.drop_drop]
    rfl
  have hend : r.bytes[18 + (r.url.length + 1) - 1]? = some 0 := by
    have hget : (r.bytes.drop (18 + 0))[r.url.length]? = r.bytes[18 + r.url.length]? := List.getElem?_drop
    rw [Nat.add_sub_assoc (Nat.le_add_left 1 _), Nat.add_sub_cancel, ← hget, hdrop]
    simp
  have hstring : (r.bytes.drop 18).takeWhile (· ≠ 0) = r.url := by
    have hdrop' : r.bytes.drop 18 = r.url ++ 0 :: r.payload := hdrop 0
    rw [hdrop', List.takeWhile_append_of_pos (by simpa using hurl), List.takeWhile_cons_of_neg (by simp), List.append_nil]
  have hpayload : (r.bytes.drop (18 + (r.url.length + 1))).take r.payload.length = r.payload := by
    rw [hdrop]
    simp
  unfold unpackRequest
  simp only [hurlLen, hpayloadLen]
  rw [if_neg (not_not.2 hhead)]
  by_cases hbig : r.packetLen < 2 ^ 31
  · rw [toInt_of_lt hbig, if_neg (by unfold Request.packetLen; omega)]
    by_cases hu : r.url.length + 1 < 2 ^ 16
    · rw [Nat.mod_eq_of_lt hu, if_neg (by unfold Request.packetLen; omega), hend, if_pos ⟨hbig, hu⟩]
      simp only [hcode, hfmt, hmid, hid, hstring, hpayload, toInt_of_lt hsmall, hlen, ne_eq, not_true_eq_false, if_false]
    · rw [if_pos (by unfold Request.packetLen at hbig ⊢; omega), if_neg (fun h => hu h.2)]
  · rw [toInt_of_ge (Nat.le_of_not_lt hbig) hlt, if_pos (by omega), if_neg (fun h => hbig h.1)]

/-! ### Responses -/

/-- The bytes of a response in a packet. -/
def Response.bytes (r : Response) : List UInt8 :=
  fixPart r.status r.fmt r.mid r.reciever ++ (netBytes 4 r.payload.length ++ r.payload)

theorem packResponse_ok {r : Response} (hr : r.WellFormed) (h : packResponse malloc r = .ok (some (packet, size))) :
    packet = r.bytes ∧ size = toInt (16 + r.payload.length : Nat) := by
  obtain ⟨hlen, hsmall⟩ := hr
  unfold packResponse at h
  simp only [hlen] at h
  split at h
  · cases h
  split at h
  · cases h
  cases h
  rw [payloadLen_toNat hsmall, Response.bytes, List.append_assoc]
  exact ⟨rfl, congrArg toInt (by omega)⟩

theorem unpackResponse_bytes {r : Response} (hr : r.WellFormed) : unpackResponse r.bytes (toInt (16 + r.payload.length : Nat)) =
      .ok (if 16 + r.payload.length < 2 ^ 31 then some { r with status := r.status % 2 ^ 8, fmt := r.fmt % 2 ^ 16 } else none) := by
  obtain ⟨hlen, hsmall⟩ := hr
  obtain ⟨hhead, hcode, hfmt, hmid, hid⟩ := fixPart_fields (rfl : r.bytes = _)
  have hpayloadLen : field r.bytes 12 4 = r.payload.length := by
    have hf : field r.bytes 12 4 = netWord (netBytes 4 r.payload.length) := rfl
    rw [hf, netWord_netBytes, Nat.mod_eq_of_lt (by omega)]
  have hpayload : (r.bytes.drop 16).take r.payload.length = r.payload := by
    have hdrop : r.bytes.drop 16 = r.payload := rfl
    rw [hdrop, List.take_length]
  unfold unpackResponse
  simp only [hpayloadLen]
  rw [if_neg (not_not.2 hhead)]
  by_cases hbig : 16 + r.payload.length < 2 ^ 31
  · rw [toInt_of_lt hbig, if_neg (by omega), if_neg (by omega), if_pos hbig]
    simp only [hcode, hfmt, hmid, hid, hpayload, toInt_of_lt hsmall, hlen]
  · rw [toInt_of_ge (Nat.le_of_not_lt hbig) (by omega), if_pos (by omega), if_neg hbig]

/-! ### The packets that come back -/

theorem mod_eq_self_iff {v m : Int} (hm : 0 < m) : v % m = v ↔ 0 ≤ v ∧ v < m := by
  constructor
  · intro h
    exact h ▸ ⟨Int.emod_nonneg v (Int.ne_of_gt hm), Int.emod_lt_of_pos v hm⟩
  · rintro ⟨h0, hlt⟩
    exact Int.emod_eq_of_lt h0 hlt

/-- A request or a response whose packet is returned comes back as it was exactly if the fields of the packet have room for it. -/
theorem packet_roundTrip_iff (malloc : Bool) (packet : List UInt8) (size : Int) :
    (∀ r : Request, r.WellFormed → packRequest malloc r = .ok (some (packet, size)) →
      (unpackRequest packet size = .ok (some r) ↔ r.Fits)) ∧
    (∀ r : Response, r.WellFormed → packResponse malloc r = .ok (some (packet, size)) →
      (unpackResponse packet size = .ok (some r) ↔ r.Fits)) := by
  refine ⟨fun r hr h => ?_, fun r hr h => ?_⟩
  · obtain ⟨hpacket, hsize, hlt⟩ := packRequest_ok hr h
    rw [hpacket, hsize, unpackRequest_bytes hr hlt]
    constructor
    · intro hback
      split at hback
      · next hfits =>
        have heq := Option.some.inj (Except.ok.inj hback)
        have haction := congrArg Request.action heq
        have hfmt := congrArg Request.fmt heq
        exact ⟨(mod_eq_self_iff (by decide)).1 haction, (mod_eq_self_iff (by decide)).1 hfmt, hfits.2, hfits.1⟩
      · cases hback
    · rintro ⟨haction, hfmt, hurl, hpacket⟩
      rw [if_pos ⟨hpacket, hurl⟩, (mod_eq_self_iff (by decide)).2 haction, (mod_eq_self_iff (by decide)).2 hfmt]
  · obtain ⟨hpacket, hsize⟩ := packResponse_ok hr h
    rw [hpacket, hsize, unpackResponse_bytes hr]
    constructor
    · intro hback
      split at hback
      · next hfits =>
        have heq := Option.some.inj (Except.ok.inj hback)
        have hstatus := congrArg Response.status heq
        have hfmt := congrArg Response.fmt heq
        exact ⟨(mod_eq_self_iff (by decide)).1 hstatus, (mod_eq_self_iff (by decide)).1 hfmt, hfits⟩
      · cases hback
    · rintro ⟨hstatus, hfmt, hpacket⟩
      rw [if_pos hpacket, (mod_eq_self_iff (by decide)).2 hstatus, (mod_eq_self_iff (by decide)).2 hfmt]

/-- A request for a url of so many characters. -/
def longUrl (n : Nat) : Request := ⟨1, List.replicate n 0x61, 1, 0, [], 0, 2⟩

theorem longUrl_wellFormed (n : Nat) : (longUrl n).WellFormed where
  url b hb := by
    rw [List.eq_of_mem_replicate hb]
    decide
  payloadLen := rfl
  small := by simp [longUrl]

/-- The length of a url of 65535 characters is 0 in the packet, which is then refused. -/
theorem long_url_refused : ∃ packet size, packRequest true (longUrl 65535) = .ok (some (packet, size)) ∧
    unpackRequest packet size = .ok none := by
  have hurl : (longUrl 65535).url.length = 65535 := List.length_replicate
  have hlen : (longUrl 65535).packetLen = 65554 := by
    rw [Request.packetLen, hurl]
    rfl
  refine ⟨_, _, packRequest_of_lt (longUrl_wellFormed 65535) (by omega), ?_⟩
  rw [unpackRequest_bytes (longUrl_wellFormed 65535) (by omega), if_neg]
  omega

/-- A request and a response that fit. -/
theorem short_messages_back :
    (∃ packet size, packRequest true (longUrl 3) = .ok (some (packet, size)) ∧ unpackRequest packet size = .ok (some (longUrl 3))) ∧
    ∃ packet size, packResponse true ⟨7, 69, 0x4d, [3, 0, 4], 3, 9⟩ = .ok (some (packet, size)) ∧
      unpackResponse packet size = .ok (some ⟨7, 69, 0x4d, [3, 0, 4], 3, 9⟩) := by
  have hlen : (longUrl 3).packetLen = 22 := rfl
  have hpack := packRequest_of_lt (longUrl_wellFormed 3) (by omega)
  have hresponse : packResponse true ⟨7, 69, 0x4d, [3, 0, 4], 3, 9⟩ =
      .ok (some ((⟨7, 69, 0x4d, [3, 0, 4], 3, 9⟩ : Response).bytes, 19)) := by decide
  refine ⟨⟨_, _, hpack, ?_⟩, _, _, hresponse, ?_⟩
  · exact ((packet_roundTrip_iff _ _ _).1 _ (longUrl_wellFormed 3) hpack).2 ⟨by decide, by decide, by decide, by simp [longUrl]⟩
  · exact ((packet_roundTrip_iff _ _ _).2 _ ⟨rfl, by simp⟩ hresponse).2 ⟨by decide, by decide, by simp⟩

end

end WamrMigrate.Restful
