import WamrMigrate.Lib.Reader

/-!
# Receiving an install request

`wasm_app_module_on_install_request_byte_arrive` takes an install request byte by byte and keeps what it has in a static context. The context is
cleared when the file has been handed over and on the label `fail` only: after any other end, the next request is taken for the rest of this one. A
url or a section of length zero is never seen to be complete (`outcomes_eq_parse`).
-/

namespace WamrMigrate.AppMgr

open Reader (ofBytes)

/-- How the application manager was built: with AOT or not, and `aot_get_plt_table_size`. -/
structure Config where
  aot : Bool
  pltTableSize : UInt32

/-- `wasm_app_install_req_recv_phase_t`. -/
inductive InstallPhase where
  | reqVer | reqAction | reqFmt | reqMid | reqSender | reqUrlLen | reqPayloadLen | reqUrl | appMagic
  | wasmVersion | wasmSectionType | wasmSectionSize | wasmSectionContent
  | aotVersion | aotSectionID | aotSectionSize | aotSectionContent
  deriving DecidableEq

/-- `wasm_section_t`, with the bytes of the body that have been stored. -/
structure Section where
  sectionType : UInt32
  sectionBodySize : UInt32
  sectionBody : List UInt8
  deriving DecidableEq

/-- `wasm_app_file_t`: `sections` are those in front of the last one, `sectionEnd`. -/
structure AppFile where
  magic : UInt32 := 0
  version : UInt32 := 0
  sections : List Section := []
  sectionEnd : Option Section := none
  deriving DecidableEq

/-- `install_wasm_app_msg_t`, with the bytes of the url that have been stored. -/
structure InstallMsg where
  requestAction : UInt8 := 0
  requestFmt : UInt16 := 0
  requestMid : UInt32 := 0
  requestSender : UInt32 := 0
  requestUrlLen : UInt16 := 0
  wasmAppSize : UInt32 := 0
  requestUrl : List UInt8 := []
  appFile : AppFile := {}
  appFileMagic : UInt32 := 0
  deriving DecidableEq

/-- `wasm_app_install_req_recv_ctx_t`. `got` are the bytes stored in this phase, in an integer, the url or a section body: their number
is `size_in_phase`. -/
structure RecvCtx where
  phase : InstallPhase := .reqVer
  got : List UInt8 := []
  message : InstallMsg := {}
  totalReceivedSize : Nat := 0
  deriving DecidableEq

/-- A byte, and what happens while it is handled: whether the allocation succeeds, and whether
`module_wasm_app_handle_install_msg` does, if they are called. -/
structure Item where
  ch : UInt8
  malloc : Bool := true
  handle : Bool := true
  deriving DecidableEq

/-- The request that `module_wasm_app_handle_install_msg` posts. The url is copied as a string, up to its first NUL. -/
structure Handed where
  action : UInt8
  fmt : UInt16
  mid : UInt32
  url : List UInt8
  appFile : AppFile
  deriving DecidableEq

/-- What a call returns and does: the context it leaves, the error response it sends (to the request with this `mid`) and the request
that is handed over. -/
structure Result where
  ret : Bool
  ctx : RecvCtx
  response : Option (UInt32 × String) := none
  handed : Option Handed := none
  deriving DecidableEq

/-- The value of the bytes of a word in network order. -/
def netWord (bs : List UInt8) : Nat := ofBytes bs.reverse

/-- `get_package_type` of a magic number in memory. -/
inductive PackageType where
  | bytecode | aot | unknown
  deriving DecidableEq

def getPackageType (bs : List UInt8) : PackageType :=
  if bs = [0x00, 0x61, 0x73, 0x6D] then .bytecode else if bs = [0x00, 0x61, 0x6F, 0x74] then .aot else .unknown

/-- The message as `module_wasm_app_handle_install_msg` posts it. -/
def InstallMsg.handed (m : InstallMsg) : Handed :=
  ⟨m.requestAction, m.requestFmt, m.requestMid, m.requestUrl.takeWhile (· ≠ 0), m.appFile⟩

namespace RecvCtx

variable (ctx : RecvCtx)

/-- Return true and go on with a context. -/
def more : Except Fault Result := .ok ⟨true, ctx, none, none⟩

/-- Send an error response and go to `fail`, where the context is cleared. -/
def fail (text : String) : Except Fault Result := .ok ⟨false, {}, some (ctx.message.requestMid, text), none⟩

/-- Store a byte and go on with the phase, or leave it once `n` bytes are there. -/
def store (n : Nat) (ch : UInt8) (leave : List UInt8 → Except Fault Result) : Except Fault Result :=
  if (ctx.got ++ [ch]).length = n then leave (ctx.got ++ [ch]) else { ctx with got := ctx.got ++ [ch] }.more

/-- `RECV_INTEGER`. -/
def recvInteger (n : Nat) (ch : UInt8) (set : Nat → InstallMsg) (next : InstallPhase) : Except Fault Result :=
  ctx.store n ch fun bs => { ctx with phase := next, got := [], message := set (netWord bs) }.more

/-- Receive one of the four version bytes. -/
def recvVersion (expected : List UInt8) (ch : UInt8) (error : String) (next : InstallPhase) : Except Fault Result :=
  if expected[ctx.got.length]? = some ch then
    ctx.store 4 ch fun bs =>
      { ctx with phase := next, got := [], message.appFile.version := .ofNat (ofBytes bs) }.more
  else ctx.fail error

/-- Add a section of this type at the end of the list. -/
def addSection (type : UInt32) : AppFile :=
  let file := ctx.message.appFile
  { file with sections := file.sections ++ file.sectionEnd.toList, sectionEnd := some ⟨type, 0, []⟩ }

/-- Replace the last section. -/
def setSection (s : Section) : RecvCtx := { ctx with message.appFile.sectionEnd := some s }

/-- A section is complete: hand the file over when this was the last byte, else go on with the next section. A message that cannot be
handed over leaves the context as it is. -/
def sectionDone (total : Nat) (handle : Bool) (next : InstallPhase) (full : RecvCtx) : Except Fault Result :=
  if full.totalReceivedSize = total then
    if handle then .ok ⟨true, {}, none, some full.message.handed⟩
    else .ok ⟨false, full, some (full.message.requestMid, "Install WASM app failed: handle install message failed"), none⟩
  else { full with phase := next, got := [] }.more

end RecvCtx

/-- `SECTION_TYPE_DATA`, the last section type of a bytecode file without bulk memory. -/
def sectionTypeMax : UInt8 := 11

/-- `AOT_SECTION_TYPE_TEXT`. -/
def aotSectionTypeText : UInt32 := 2

/-- Section types are compared as `int`: below `AOT_SECTION_TYPE_SIGANATURE`, or `AOT_SECTION_TYPE_CUSTOM`. -/
def aotSectionTypeOk (type : UInt32) : Bool := type.toInt32.toInt < 6 || type = 100

/-- The size of the memory for a text section, with the table behind the code. -/
def Config.textSize (cfg : Config) (size : UInt32) : Nat := (size.toNat + cfg.pltTableSize.toNat + 3) / 4 * 4

/-- A complete AOT section: behind the code of a text section stand zeros. -/
def Config.aotSection (cfg : Config) (s : Section) (body : List UInt8) : Section :=
  if s.sectionType = aotSectionTypeText ∧ s.sectionBodySize.toNat < cfg.textSize s.sectionBodySize then
    { s with
      sectionBodySize := .ofNat (cfg.textSize s.sectionBodySize)
      sectionBody := body ++ List.replicate (cfg.textSize s.sectionBodySize - s.sectionBodySize.toNat) 0 }
  else { s with sectionBody := body }

/-- `wasm_app_module_on_install_request_byte_arrive`, after `total_received_size` has been counted up. -/
def byteArrive' (cfg : Config) (total : Nat) (ctx : RecvCtx) (x : Item) : Except Fault Result :=
  let m := ctx.message
  match ctx.phase with
  | .reqVer => if x.ch ≠ 1 then .ok ⟨false, ctx, none, none⟩ else { ctx with phase := .reqAction }.more
  | .reqAction => { ctx with phase := .reqFmt, got := [], message.requestAction := x.ch }.more
  | .reqFmt => ctx.recvInteger 2 x.ch (fun w => { m with requestFmt := .ofNat w }) .reqMid
  | .reqMid => ctx.recvInteger 4 x.ch (fun w => { m with requestMid := .ofNat w }) .reqSender
  | .reqSender => ctx.recvInteger 4 x.ch (fun w => { m with requestSender := .ofNat w }) .reqUrlLen
  | .reqUrlLen => ctx.store 2 x.ch fun bs =>
      if x.malloc then
        { ctx with phase := .reqPayloadLen, got := [], message.requestUrlLen := .ofNat (netWord bs) }.more
      else ctx.fail "Install WASM app failed: allocate memory failed."
  | .reqPayloadLen => ctx.recvInteger 4 x.ch (fun w => { m with wasmAppSize := .ofNat w }) .reqUrl
  | .reqUrl =>
    -- the block for the url has one byte more than the url
    if m.requestUrlLen.toNat < ctx.got.length then .error .invalid
    else ctx.store m.requestUrlLen.toNat x.ch fun bs =>
      { ctx with phase := .appMagic, got := [], message.requestUrl := bs }.more
  | .appMagic => ctx.store 4 x.ch fun bs =>
      let magic := UInt32.ofNat (ofBytes bs)
      let m := { m with appFileMagic := magic }
      match getPackageType bs, cfg.aot with
      | .bytecode, _ => { ctx with phase := .wasmVersion, got := [], message := { m with appFile.magic := magic } }.more
      | .aot, true => { ctx with phase := .aotVersion, got := [], message := { m with appFile.magic := magic } }.more
      | _, _ => ctx.fail "Install WASM app failed: invalid file format."
  | .wasmVersion => ctx.recvVersion [1, 0, 0, 0] x.ch "Install WASM app failed: invalid WASM version." .wasmSectionType
  | .wasmSectionType =>
    if x.ch ≤ sectionTypeMax then
      if x.malloc then
        { ctx with phase := .wasmSectionSize, got := [], message.appFile := ctx.addSection x.ch.toUInt32 }.more
      else ctx.fail "Install WASM app failed: allocate memory failed."
    else ctx.fail ("Install WASM app failed: invalid wasm section type " ++ toString x.ch.toNat)
  | .wasmSectionSize =>
    match m.appFile.sectionEnd with
    | none => .error .invalid
    | some s =>
      let size := s.sectionBodySize ||| (x.ch.toUInt32 &&& 0x7F) <<< UInt32.ofNat (ctx.got.length * 7)
      let ctx : RecvCtx := { ctx.setSection { s with sectionBodySize := size } with got := ctx.got ++ [x.ch] }
      if 5 < ctx.got.length then ctx.fail "Install WASM app failed: LEB overflow when parsing section size"
      else if x.ch &&& 0x80 = 0 then
        if x.malloc then { ctx with phase := .wasmSectionContent, got := [] }.more
        else ctx.fail "Install WASM app failed: allocate memory failed"
      else ctx.more
  | .wasmSectionContent =>
    match m.appFile.sectionEnd with
    | none => .error .invalid
    | some s =>
      -- an allocation of no bytes gives a block of one
      if max 1 s.sectionBodySize.toNat ≤ ctx.got.length then .error .invalid
      else ctx.store s.sectionBodySize.toNat x.ch fun bs =>
        RecvCtx.sectionDone total x.handle .wasmSectionType { ctx.setSection { s with sectionBody := bs } with got := bs }
  | .aotVersion => ctx.recvVersion [3, 0, 0, 0] x.ch "Install WASM app failed: invalid AOT version" .aotSectionID
  | .aotSectionID =>
    let offset := UInt32.ofNat ctx.totalReceivedSize - 1 - 18 - m.requestUrlLen.toUInt32
    if ctx.got = [] then
      -- paddings are skipped
      if offset % 4 ≠ 0 then ctx.more
      else if x.malloc then { ctx with got := [x.ch], message.appFile := ctx.addSection 0 }.more
      else ctx.fail "Install WASM app failed: allocate memory failed"
    else
      match m.appFile.sectionEnd with
      | none => .error .invalid
      | some s => ctx.store 4 x.ch fun bs =>
        let type := UInt32.ofNat (ofBytes bs)
        if aotSectionTypeOk type then
          { ctx.setSection { s with sectionType := type } with phase := .aotSectionSize, got := [] }.more
        else ctx.fail ("Install WASM app failed: invalid AOT section id " ++ toString type.toInt32.toInt)
  | .aotSectionSize =>
    match m.appFile.sectionEnd with
    | none => .error .invalid
    | some s => ctx.store 4 x.ch fun bs =>
      let size := UInt32.ofNat (ofBytes bs)
      let tooLarge : Bool := s.sectionType = aotSectionTypeText ∧ 0xFFFFFFFF ≤ cfg.textSize size
      if size ≠ 0 ∧ (tooLarge ∨ ¬x.malloc) then ctx.fail "Install WASM app failed: allocate memory failed"
      else { ctx.setSection { s with sectionBodySize := size } with phase := .aotSectionContent, got := [] }.more
  | .aotSectionContent =>
    match m.appFile.sectionEnd with
    | none => .error .invalid
    | some s =>
      if s.sectionBodySize.toNat ≤ ctx.got.length then .error .invalid
      else ctx.store s.sectionBodySize.toNat x.ch fun bs =>
        RecvCtx.sectionDone total x.handle .aotSectionID { ctx.setSection (cfg.aotSection s bs) with got := bs }

/-- `wasm_app_module_on_install_request_byte_arrive`: in the first phase the counters start again. -/
def byteArrive (cfg : Config) (total : Nat) (ctx : RecvCtx) (x : Item) : Except Fault Result :=
  let ctx := if ctx.phase = .reqVer then { ctx with got := [], totalReceivedSize := 0 } else ctx
  byteArrive' cfg total { ctx with totalReceivedSize := ctx.totalReceivedSize + 1 } x

/-! ## Requests, fed byte by byte -/

/-- What becomes of a request. -/
inductive Outcome where
  /-- The request is complete and has been handed over. -/
  | handed (h : Handed)
  /-- The request is refused, with the error response that has been sent. -/
  | refused (response : Option (UInt32 × String))
  /-- All its bytes have been taken, and more are expected. -/
  | pending
  deriving DecidableEq

/-- An install request: its bytes, and the size it is announced with. -/
structure InstallRequest where
  total : Nat
  bytes : List Item

section Feed
variable (cfg : Config) (total : Nat)

/-- Feed bytes until the request is complete or refused. -/
def feed (ctx : RecvCtx) : List Item → Except Fault (Outcome × RecvCtx)
  | [] => .ok (.pending, ctx)
  | x :: xs =>
    match byteArrive cfg total ctx x with
    | .error e => .error e
    | .ok ⟨_, ctx', _, some h⟩ => .ok (.handed h, ctx')
    | .ok ⟨true, ctx', _, none⟩ => feed ctx' xs
    | .ok ⟨false, ctx', response, none⟩ => .ok (.refused response, ctx')

/-- Feed requests, one after the other. -/
def feedAll (ctx : RecvCtx) : List InstallRequest → Except Fault (List Outcome)
  | [] => .ok []
  | r :: rs =>
    match feed cfg r.total ctx r.bytes with
    | .error e => .error e
    | .ok (o, ctx') => (feedAll ctx' rs).map (o :: ·)

end Feed

/-! ## What a request says, by its own bytes -/

/-- What the bytes of a request say, with the lengths of the url and of the sections met on the way. -/
structure Parsed where
  outcome : Outcome
  lengths : List Nat := []

/-- Take `n` bytes. -/
def need (n : Nat) (xs : List Item) (k : List Item → List Item → Parsed) : Parsed :=
  if xs.length < n then ⟨.pending, []⟩ else k (xs.take n) (xs.drop n)

/-- Take a part of the request whose length is written before it. -/
def sized (n : Nat) (p : Parsed) : Parsed := ⟨p.outcome, n :: p.lengths⟩

/-- The version bytes are the expected ones. -/
def parseVersion (refused : Parsed) (k : List Item → Parsed) : List UInt8 → List Item → Parsed
  | [], xs => k xs
  | _ :: _, [] => ⟨.pending, []⟩
  | e :: es, x :: xs => if x.ch = e then parseVersion refused k es xs else refused

/-- The bytes of a list of items. -/
def bytesOf (xs : List Item) : List UInt8 := xs.map Item.ch

/-- Add a section at the end of a file. -/
def AppFile.add (f : AppFile) (s : Section) : AppFile :=
  { f with sections := f.sections ++ f.sectionEnd.toList, sectionEnd := some s }

/-- The end of a section: the file is complete, or the next section follows. `last` is the last byte that has been taken. -/
def parseEnd (total used : Nat) (m : InstallMsg) (last : Item) (k : Parsed) : Parsed :=
  if used = total then
    if last.handle then ⟨.handed m.handed, []⟩
    else ⟨.refused (some (m.requestMid, "Install WASM app failed: handle install message failed")), []⟩
  else k

/-- A section size in LEB128, at most five bytes: `i` bytes have been taken, with the value `size`. The last byte is given on. -/
def parseSize (mid : UInt32) (k : UInt32 → Nat → Item → List Item → Parsed) : Nat → UInt32 → List Item → Parsed
  | _, _, [] => ⟨.pending, []⟩
  | i, size, x :: xs =>
    let size := size ||| (x.ch.toUInt32 &&& 0x7F) <<< UInt32.ofNat (i * 7)
    if 5 ≤ i then ⟨.refused (some (mid, "Install WASM app failed: LEB overflow when parsing section size")), []⟩
    else if x.ch &&& 0x80 = 0 then
      if x.malloc then k size (i + 1) x xs
      else ⟨.refused (some (mid, "Install WASM app failed: allocate memory failed")), []⟩
    else parseSize mid k (i + 1) size xs

/-- The sections of a bytecode file, `used` bytes into the request. Each takes at least two bytes. -/
def parseWasmSections (total : Nat) : Nat → Nat → InstallMsg → List Item → Parsed
  | 0, _, _, _ => ⟨.pending, []⟩
  | _ + 1, _, _, [] => ⟨.pending, []⟩
  | fuel + 1, used, m, t :: xs =>
    if t.ch ≤ sectionTypeMax then
      if t.malloc then
        parseSize m.requestMid (fun size n last xs => sized size.toNat <| need size.toNat xs fun body xs =>
          let m := { m with appFile := m.appFile.add ⟨t.ch.toUInt32, size, bytesOf body⟩ }
          let used := used + 1 + n + size.toNat
          parseEnd total used m (body.getLastD last) (parseWasmSections total fuel used m xs)) 0 0 xs
      else ⟨.refused (some (m.requestMid, "Install WASM app failed: allocate memory failed.")), []⟩
    else ⟨.refused (some (m.requestMid, "Install WASM app failed: invalid wasm section type " ++ toString t.ch.toNat)), []⟩

/-- The sections of an AOT file, `used` bytes into the request: each starts at a multiple of four bytes in the file. -/
def parseAotSections (cfg : Config) (total : Nat) : Nat → Nat → InstallMsg → List Item → Parsed
  | 0, _, _, _ => ⟨.pending, []⟩
  | _ + 1, _, _, [] => ⟨.pending, []⟩
  | fuel + 1, used, m, x :: xs =>
    if (UInt32.ofNat used - 18 - m.requestUrlLen.toUInt32) % 4 ≠ 0 then parseAotSections cfg total fuel (used + 1) m xs
    else if ¬x.malloc then ⟨.refused (some (m.requestMid, "Install WASM app failed: allocate memory failed")), []⟩
    else need 3 xs fun typeTail xs =>
      let type := UInt32.ofNat (ofBytes (x.ch :: bytesOf typeTail))
      if ¬aotSectionTypeOk type then
        ⟨.refused (some (m.requestMid, "Install WASM app failed: invalid AOT section id " ++ toString type.toInt32.toInt)), []⟩
      else need 4 xs fun sizeBytes xs =>
        let size := UInt32.ofNat (ofBytes (bytesOf sizeBytes))
        let last := sizeBytes.getLastD x
        if size ≠ 0 ∧ (type = aotSectionTypeText ∧ 0xFFFFFFFF ≤ cfg.textSize size ∨ ¬last.malloc) then
          ⟨.refused (some (m.requestMid, "Install WASM app failed: allocate memory failed")), []⟩
        else sized size.toNat <| need size.toNat xs fun body xs =>
          let m := { m with appFile := m.appFile.add (cfg.aotSection ⟨type, size, []⟩ (bytesOf body)) }
          let used := used + 8 + size.toNat
          parseEnd total used m (body.getLastD last) (parseAotSections cfg total fuel used m xs)

/-- The file, behind the url. -/
def parseFile (cfg : Config) (total used : Nat) (m : InstallMsg) (xs : List Item) : Parsed :=
  need 4 xs fun magicBytes xs =>
    let magic := UInt32.ofNat (ofBytes (bytesOf magicBytes))
    let m := { m with appFileMagic := magic, appFile.magic := magic }
    let refused := fun text => Parsed.mk (.refused (some (m.requestMid, text))) []
    match getPackageType (bytesOf magicBytes), cfg.aot with
    | .bytecode, _ =>
      parseVersion (refused "Install WASM app failed: invalid WASM version.") (fun xs =>
        parseWasmSections total (xs.length + 1) (used + 8) { m with appFile.version := 1 } xs) [1, 0, 0, 0] xs
    | .aot, true =>
      parseVersion (refused "Install WASM app failed: invalid AOT version") (fun xs =>
        parseAotSections cfg total (xs.length + 1) (used + 8) { m with appFile.version := 3 } xs) [3, 0, 0, 0] xs
    | _, _ => refused "Install WASM app failed: invalid file format."

/-- The fixed part of the request and the url, then the file. -/
def parse (cfg : Config) (total : Nat) : List Item → Parsed
  | [] => ⟨.pending, []⟩
  | ver :: xs =>
    if ver.ch ≠ 1 then ⟨.refused none, []⟩
    else need 1 xs fun action xs => need 2 xs fun fmt xs => need 4 xs fun mid xs => need 4 xs fun sender xs =>
      need 2 xs fun urlLen xs =>
        let mid := UInt32.ofNat (netWord (bytesOf mid))
        if ¬(urlLen.getLastD ver).malloc then
          ⟨.refused (some (mid, "Install WASM app failed: allocate memory failed.")), []⟩
        else need 4 xs fun size xs =>
          let n := UInt16.ofNat (netWord (bytesOf urlLen))
          sized n.toNat <| need n.toNat xs fun url xs =>
            parseFile cfg total (18 + n.toNat) {
              requestAction := (bytesOf action).headD 0
              requestFmt := .ofNat (netWord (bytesOf fmt))
              requestMid := mid
              requestSender := .ofNat (netWord (bytesOf sender))
              requestUrlLen := n
              wasmAppSize := .ofNat (netWord (bytesOf size))
              requestUrl := bytesOf url } xs

/-- What a request says. -/
def InstallRequest.parse (cfg : Config) (r : InstallRequest) : Parsed := AppMgr.parse cfg r.total r.bytes

end WamrMigrate.AppMgr
