import WamrMigrate.Restful.Packet

/-!
# What an accepted packet says about itself

`unpack_request` and `unpack_response` of `restful_utils.c` leave pointers into the packet, here offsets into the memory that starts with it;
`behind` are the bytes that follow it. The lengths of a request are added as `unsigned int`, and its last byte of the url is looked at even if the
url has none, so that two kinds of packets are accepted that are none. The sum of a response cannot wrap around for a size that is accepted.
-/

namespace WamrMigrate.Restful

open AppMgr Reader

/-- A request with where its url and its payload are; no payload is NULL. -/
structure RequestParts where
  request : Request
  url : Nat
  payload : Option Nat
  deriving DecidableEq

/-- A response with where its payload is. -/
structure ResponseParts where
  response : Response
  payload : Option Nat
  deriving DecidableEq

/-- The pointer to a payload of a length, if it has one. -/
def payloadAt (offset payloadLen : Nat) : Option Nat := if 0 < payloadLen then some offset else none

/-- `unpack_request`, with the pointers that it leaves. -/
def unpackRequestParts (mem : List UInt8) (size : Int) : Except Fault (Option RequestParts) :=
  (unpackRequest mem size).map (Option.map fun r => ⟨r, 18, payloadAt (18 + field mem 12 2) (field mem 14 4)⟩)

/-- `unpack_response`, with the pointer that it leaves. -/
def unpackResponseParts (mem : List UInt8) (size : Int) : Except Fault (Option ResponseParts) :=
  (unpackResponse mem size).map (Option.map fun r => ⟨r, payloadAt 16 (field mem 12 4)⟩)

/-- The payload of the length `len` is inside the packet and not before `start`. -/
def PayloadInside (packet : List UInt8) (start : Nat) (payload : Option Nat) (len : Int) : Prop :=
  match payload with
  | none => len = 0
  | some q => 0 ≤ len ∧ start ≤ q ∧ q + len ≤ packet.length

/-- The lengths of a request add up to its size, its url ends inside its field, and the payload is behind that. -/
structure RequestParts.Valid (packet : List UInt8) (p : RequestParts) : Prop where
  sum : 18 + field packet 12 2 + field packet 14 4 = packet.length
  url : ∃ n < field packet 12 2, packet[p.url + n]? = some 0
  start : p.url = 18
  payload : PayloadInside packet (18 + field packet 12 2) p.payload p.request.payloadLen

/-- The lengths of a response add up to its size, and the payload is behind the header. -/
structure ResponseParts.Valid (packet : List UInt8) (p : ResponseParts) : Prop where
  sum : 16 + field packet 12 4 = packet.length
  payload : PayloadInside packet 16 p.payload p.response.payloadLen

section

variable {packet behind mem : List UInt8} {size : Int}

theorem field_append {at_ n : Nat} (h : at_ + n ≤ packet.length) : field (packet ++ behind) at_ n = field packet at_ n := by
  unfold field
  rw [List.drop_append_of_le_length (by omega), List.take_append_of_le_length (by rw [List.length_drop]; omega)]

theorem payloadInside_payloadAt {start len : Nat} (hlen : len < 2 ^ 31) (h : start + len = packet.length) :
    PayloadInside packet start (payloadAt start len) (toInt len) := by
  rw [toInt_of_lt hlen]
  unfold payloadAt
  split
  · exact ⟨by omega, Nat.le_refl _, by omega⟩
  · show (len : Int) = 0
    omega

theorem unpackRequestParts_ok {p : RequestParts} (h : unpackRequestParts mem size = .ok (some p)) :
    18 ≤ size ∧ size % 2 ^ 32 = ((18 + field mem 12 2 + field mem 14 4 : Nat) : Int) % 2 ^ 32 ∧
      mem[18 + field mem 12 2 - 1]? = some 0 ∧ p.url = 18 ∧ p.payload = payloadAt (18 + field mem 12 2) (field mem 14 4) ∧
      p.request.payloadLen = toInt (field mem 14 4) := by
  unfold unpackRequestParts unpackRequest at h
  simp only at h
  split at h
  · cases h
  split at h
  · cases h
  split at h
  · cases h
  split at h
  · cases h
  split at h
  · cases h
  rename_i hsize hsum _ b hlast hb
  cases h
  rw [not_not] at hsum hb
  exact ⟨Int.not_lt.1 hsize, hsum, hb ▸ hlast, rfl, rfl, rfl⟩

theorem unpackResponseParts_ok {p : ResponseParts} (h : unpackResponseParts mem size = .ok (some p)) :
    16 ≤ size ∧ size % 2 ^ 32 = ((16 + field mem 12 4 : Nat) : Int) % 2 ^ 32 ∧ p.payload = payloadAt 16 (field mem 12 4) ∧
      p.response.payloadLen = toInt (field mem 12 4) := by
  unfold unpackResponseParts unpackResponse at h
  simp only at h
  split at h
  · cases h
  split at h
  · cases h
  split at h
  · cases h
  rename_i hsize hsum
  cases h
  rw [not_not] at hsum
  exact ⟨Int.not_lt.1 hsize, hsum, rfl, rfl⟩

theorem field_lt (mem : List UInt8) (at_ n : Nat) : field mem at_ n < 256 ^ n := by
  have hlen : ((mem.drop at_).take n).reverse.length ≤ n := by
    rw [List.length_reverse]
    exact List.length_take_le n _
  calc field mem at_ n < 256 ^ ((mem.drop at_).take n).reverse.length := ofBytes_lt _
    _ ≤ 256 ^ n := Nat.pow_le_pow_right (by decide) hlen

/-- An accepted request is valid exactly if its url has a byte and its lengths do not wrap around. -/
theorem RequestParts.valid_iff {p : RequestParts} (hsize : packet.length < 2 ^ 31)
    (h : unpackRequestParts (packet ++ behind) packet.length = .ok (some p)) :
    p.Valid packet ↔ 0 < field packet 12 2 ∧ 18 + field packet 12 2 + field packet 14 4 < 2 ^ 32 := by
  obtain ⟨hmin, hsum, hlast, hurl, hpayload, hlen⟩ := unpackRequestParts_ok h
  have hmin' : 18 ≤ packet.length := by omega
  rw [field_append (by omega)] at hsum hlast hpayload hlen
  rw [field_append (by omega)] at hsum hpayload
  constructor
  · rintro ⟨hadd, ⟨n, hn, -⟩, -, -⟩
    exact ⟨Nat.zero_lt_of_lt hn, by omega⟩
  rintro ⟨hpos, hlt⟩
  have hadd : 18 + field packet 12 2 + field packet 14 4 = packet.length := by omega
  refine ⟨hadd, ⟨field packet 12 2 - 1, by omega, ?_⟩, hurl, ?_⟩
  · rw [hurl, ← Nat.add_sub_assoc hpos, ← hlast, List.getElem?_append_left (by omega)]
  · rw [hpayload, hlen]
    exact payloadInside_payloadAt (by omega) hadd

theorem ResponseParts.valid {p : ResponseParts} (hsize : packet.length < 2 ^ 31)
    (h : unpackResponseParts (packet ++ behind) packet.length = .ok (some p)) : p.Valid packet := by
  obtain ⟨hmin, hsum, hpayload, hlen⟩ := unpackResponseParts_ok h
  have hmin' : 16 ≤ packet.length := by omega
  rw [field_append (by omega)] at hsum hpayload hlen
  have hlt : field packet 12 4 < 256 ^ 4 := field_lt packet 12 4
  -- a sum that wraps around is less than 16
  have hadd : 16 + field packet 12 4 = packet.length := by omega
  refine ⟨hadd, ?_⟩
  rw [hpayload, hlen]
  exact payloadInside_payloadAt (by omega) hadd

end

/-- Whatever stands behind a packet, an accepted request is valid exactly if its url has a byte and its lengths do not wrap around, and an accepted
response is valid. The size is an `int`. -/
theorem accepted_valid_iff (packet behind : List UInt8) (hsize : packet.length < 2 ^ 31) :
    (∀ p, unpackRequestParts (packet ++ behind) packet.length = .ok (some p) →
      (p.Valid packet ↔ 0 < field packet 12 2 ∧ 18 + field packet 12 2 + field packet 14 4 < 2 ^ 32)) ∧
    ∀ p, unpackResponseParts (packet ++ behind) packet.length = .ok (some p) → p.Valid packet :=
  ⟨fun _ h => RequestParts.valid_iff hsize h, fun _ h => ResponseParts.valid hsize h⟩

/-- The header of a request with these lengths. -/
def header (urlLen payloadLen : Nat) : List UInt8 := fixPart 1 0 7 9 ++ netBytes 2 urlLen ++ netBytes 4 payloadLen

/-- A request without a byte of a url is accepted, and so is one of 18 bytes that says that it has a payload of 4294967295. -/
theorem accepted_not_valid :
    (∃ p, unpackRequestParts (header 0 0) 18 = .ok (some p) ∧ ¬ p.Valid (header 0 0)) ∧
    ∃ p, unpackRequestParts (header 1 4294967295 ++ [0]) 18 = .ok (some p) ∧ ¬ p.Valid (header 1 4294967295) := by
  refine ⟨⟨_, rfl, ?_⟩, _, rfl, ?_⟩
  · rintro ⟨-, ⟨n, hn, -⟩, -, -⟩
    exact Nat.not_lt_zero n hn
  · rintro ⟨hsum, -, -, -⟩
    exact absurd hsum (by decide)

/-- A request for the url `a` with two bytes of a payload, and a response with one. -/
theorem accepted_are_valid :
    (∃ p, unpackRequestParts (header 2 2 ++ [0x61, 0, 3, 4]) 22 = .ok (some p) ∧ p.Valid (header 2 2 ++ [0x61, 0, 3, 4])) ∧
    ∃ p, unpackResponseParts (fixPart 69 0 7 9 ++ netBytes 4 1 ++ [5]) 17 = .ok (some p) ∧ p.Valid (fixPart 69 0 7 9 ++ netBytes 4 1 ++ [5]) := by
  refine ⟨⟨_, rfl, ?_⟩, _, rfl, ?_⟩
  · exact ((accepted_valid_iff (header 2 2 ++ [0x61, 0, 3, 4]) [] (by decide)).1 _ rfl).2 ⟨by decide, by decide⟩
  · exact (accepted_valid_iff (fixPart 69 0 7 9 ++ netBytes 4 1 ++ [5]) [] (by decide)).2 _ rfl

end WamrMigrate.Restful
