import WamrMigrate.Lib.Trace
import WamrMigrate.Native.Invoke

/-!
# The wrappers of WASI

The functions of `libc_wasi_wrapper.c`. A wrapper gets addresses for the pointers of the guest, checks those whose size is not in its signature,
hands them to the function `wasmtime_ssp_*` of the same name, and stores for the guest what that returns in a variable of the wrapper. The buffers
of an array are checked and made addresses one by one. A wrapper leaves what it reads and writes in the memory of the guest, and its calls of the
host.
-/

namespace WamrMigrate.Wasi

open Native Traced

/-- The functions that are registered. -/
inductive Function
  | argsGet | argsSizesGet | clockResGet | clockTimeGet | environGet | environSizesGet | fdPrestatGet | fdPrestatDirName | fdClose | fdDatasync | fdPread
  | fdPwrite | fdRead | fdRenumber | fdSeek | fdTell | fdFdstatGet | fdFdstatSetFlags | fdFdstatSetRights | fdSync | fdWrite | fdAdvise | fdAllocate
  | pathCreateDirectory | pathLink | pathOpen | fdReaddir | pathReadlink | pathRename | fdFilestatGet | fdFilestatSetTimes | fdFilestatSetSize
  | pathFilestatGet | pathFilestatSetTimes | pathSymlink | pathUnlinkFile | pathRemoveDirectory | pollOneoff | procExit | procRaise | randomGet | sockRecv
  | sockSend | sockShutdown | schedYield
  deriving DecidableEq

/-- `native_symbols_libc_wasi`. -/
def Function.symbolSignature : Function → String
  | .argsGet => "(**)i"
  | .argsSizesGet => "(**)i"
  | .clockResGet => "(i*)i"
  | .clockTimeGet => "(iI*)i"
  | .environGet => "(**)i"
  | .environSizesGet => "(**)i"
  | .fdPrestatGet => "(i*)i"
  | .fdPrestatDirName => "(i*~)i"
  | .fdClose => "(i)i"
  | .fdDatasync => "(i)i"
  | .fdPread => "(i*iI*)i"
  | .fdPwrite => "(i*iI*)i"
  | .fdRead => "(i*i*)i"
  | .fdRenumber => "(ii)i"
  | .fdSeek => "(iIi*)i"
  | .fdTell => "(i*)i"
  | .fdFdstatGet => "(i*)i"
  | .fdFdstatSetFlags => "(ii)i"
  | .fdFdstatSetRights => "(iII)i"
  | .fdSync => "(i)i"
  | .fdWrite => "(i*i*)i"
  | .fdAdvise => "(iIIi)i"
  | .fdAllocate => "(iII)i"
  | .pathCreateDirectory => "(i*~)i"
  | .pathLink => "(ii*~i*~)i"
  | .pathOpen => "(ii*~iIIi*)i"
  | .fdReaddir => "(i*~I*)i"
  | .pathReadlink => "(i*~*~*)i"
  | .pathRename => "(i*~i*~)i"
  | .fdFilestatGet => "(i*)i"
  | .fdFilestatSetTimes => "(iIIi)i"
  | .fdFilestatSetSize => "(iI)i"
  | .pathFilestatGet => "(ii*~*)i"
  | .pathFilestatSetTimes => "(ii*~IIi)i"
  | .pathSymlink => "(*~i*~)i"
  | .pathUnlinkFile => "(i*~)i"
  | .pathRemoveDirectory => "(i*~)i"
  | .pollOneoff => "(**i*)i"
  | .procExit => "(i)"
  | .procRaise => "(i)i"
  | .randomGet => "(*~)i"
  | .sockRecv => "(i*ii**)i"
  | .sockSend => "(i*ii*)i"
  | .sockShutdown => "(ii)i"
  | .schedYield => "()i"

def Function.signature (f : Function) : List Char := f.symbolSignature.toList

/-! ## What a wrapper does -/

/-- Bytes from an address on. -/
structure Range where
  addr : Nat
  len : Nat
  deriving DecidableEq

/-- An argument for the host: a number, bytes of the guest, or an array of buffers of the guest. The tables of files are the host's own and are left out. -/
inductive SspArg
  | num (n : Nat)
  | range (r : Range)
  | iovecs (rs : List Range)

/-- A call of `wasmtime_ssp_*`. -/
structure SspCall where
  function : Function
  args : List SspArg

/-- What the host answers: the error, and what it leaves in the variables of the wrapper. -/
structure Answer where
  errno : UInt16
  out : Nat → Nat

inductive Event
  | read (r : Range)
  | write (r : Range) (value : Nat)
  | ssp (call : SspCall)
  | exception (message : String)

/-- The strings of the arguments or of the environment: their number, which is given in 32 bits, and the size of them all. -/
structure Strings where
  count : Nat
  bufSize : Nat
  count_lt : count < 2 ^ 32

/-- The context of WASI: `argv_environ`. -/
structure Context where
  args : Strings
  environ : Strings

/-- What a wrapper is run with: the memory, the context, the answers of the host, and whether there is memory for so many bytes. -/
structure Env where
  memory : Option LinearMemory
  context : Option Context
  host : SspCall → Answer
  malloc : Nat → Bool

abbrev Wasi := Traced Event UInt16

/-- `wasm_validate_native_addr`. -/
def validateNativeAddr (memory : Option LinearMemory) (addr size : Nat) : Bool :=
  memory.any fun m => decide (addr ≤ 0xFFFFFFFFFFFFFFFF - size) && decide (m.data ≤ addr) && decide (addr + size ≤ m.data + m.size)

/-- `wasm_addr_native_to_app`. -/
def addrNativeToApp (memory : Option LinearMemory) (addr : Nat) : Nat :=
  memory.elim 0 fun m => if m.data ≤ addr ∧ addr < m.data + m.size then (addr - m.data) % 2 ^ 32 else 0

/-- `(wasi_errno_t)-1`. -/
def errFault : UInt16 := 0xFFFF

/-- The exception of an address that is not in the memory. -/
def outOfBounds {α : Type} : Wasi α := do
  emit (.exception "out of bounds memory access")
  fail errFault

/-- A condition without which the wrapper returns. -/
def need (b : Bool) : Wasi Unit := if b then pure () else fail errFault

section
variable (env : Env)

/-- `get_wasi_ctx`. -/
def wasiCtx : Wasi Context := env.context.elim (fail errFault) pure

/-- `validate_native_addr`. -/
def validate (r : Range) : Wasi Unit := if validateNativeAddr env.memory r.addr r.len then pure () else outOfBounds

/-- A call of the host. -/
def ssp (call : SspCall) : Wasi Answer := do
  emit (.ssp call)
  pure (env.host call)

/-- A call of the host, with whose error the wrapper returns. -/
def sspOk (call : SspCall) : Wasi Answer := do
  let answer ← ssp env call
  if answer.errno = 0 then pure answer else fail answer.errno

/-- A number of 32 bits in the memory. -/
def load32 (memory : Option LinearMemory) (addr : Nat) : Nat := memory.elim 0 fun m => m.bytes.load addr 4

/-- The loop over an array of buffers: `buf_offset` and `buf_len` of each one. -/
def loadIovecs : Nat → Nat → Wasi (List Range)
  | 0, _ => pure []
  | n + 1, iovecApp => do
    emit (.read ⟨iovecApp, 8⟩)
    let bufOffset := load32 env.memory iovecApp
    let bufLen := load32 env.memory (iovecApp + 4)
    if validateAppAddr env.memory bufOffset bufLen then do
      let iovec ← loadIovecs n (iovecApp + 8)
      pure (⟨addrAppToNative env.memory bufOffset, bufLen⟩ :: iovec)
    else outOfBounds

/-! ## Families of wrappers -/

/-- The host is called after the checks, and its error is returned. -/
def handOver (checks : List Range) (call : SspCall) : Wasi UInt16 := do
  each (validate env) checks
  let answer ← ssp env call
  pure answer.errno

def handOverCtx (checks : List Range) (call : SspCall) : Wasi UInt16 := do
  let _ ← wasiCtx env
  handOver env checks call

/-- The host is called after the checks, and what it leaves is stored for the guest. -/
def report (checks : List Range) (call : SspCall) (results : Context → Answer → List (Range × Nat)) : Wasi UInt16 := do
  let ctx ← wasiCtx env
  each (validate env) checks
  let answer ← sspOk env call
  each (fun result => emit (.write result.1 result.2)) (results ctx answer)
  pure 0

/-- The host gets an array of buffers, and returns how many bytes it has read or written. -/
def vectored (checks : List Range) (function : Function) (before : List SspArg) (iovecApp iovsLen : Nat) (behind : List SspArg) (resultApp : Nat) :
    Wasi UInt16 := do
  let _ ← wasiCtx env
  each (validate env) checks
  need (8 * iovsLen < 0xFFFFFFFF)
  validate env ⟨iovecApp, 8 * iovsLen⟩
  need (16 * iovsLen < 0xFFFFFFFF && env.malloc (16 * iovsLen))
  let iovec ← loadIovecs env iovsLen iovecApp
  let answer ← sspOk env ⟨function, before ++ [.iovecs iovec, .num iovsLen] ++ behind⟩
  emit (.write ⟨resultApp, 4⟩ (answer.out 0 % 2 ^ 32))
  pure 0

/-- The host copies strings to the guest; the wrapper stores their offsets. -/
def stringsGet (sizesGet get : Function) (strings : Context → Strings) (offsets buf : Nat) : Wasi UInt16 := do
  let ctx ← wasiCtx env
  let _ ← sspOk env ⟨sizesGet, []⟩
  let count := (strings ctx).count
  let bufSize := (strings ctx).bufSize
  let totalSize := 4 * (count + 1) % 2 ^ 64
  need (totalSize < 0xFFFFFFFF)
  validate env ⟨offsets, totalSize⟩
  need (bufSize < 0xFFFFFFFF)
  validate env ⟨buf, bufSize⟩
  let totalSize := 8 * (count + 1) % 2 ^ 64
  need (totalSize < 0xFFFFFFFF && env.malloc totalSize)
  let answer ← sspOk env ⟨get, [.range ⟨buf, bufSize⟩]⟩
  each (fun i => emit (.write ⟨offsets + 4 * i, 4⟩ (addrNativeToApp env.memory (answer.out i)))) (List.range count)
  emit (.write ⟨offsets + 4 * count, 4⟩ 0)
  pure 0

/-! ## The wrappers -/

def wasiArgsGet (argvOffsets argvBuf : Nat) : Wasi UInt16 := stringsGet env .argsSizesGet .argsGet Context.args argvOffsets argvBuf

def wasiArgsSizesGet (argcApp argvBufSizeApp : Nat) : Wasi UInt16 :=
  report env [⟨argcApp, 4⟩, ⟨argvBufSizeApp, 4⟩] ⟨.argsSizesGet, []⟩ fun ctx _ =>
    [(⟨argcApp, 4⟩, ctx.args.count % 2 ^ 32), (⟨argvBufSizeApp, 4⟩, ctx.args.bufSize % 2 ^ 32)]

def wasiClockResGet (clockId resolution : Nat) : Wasi UInt16 :=
  handOver env [⟨resolution, 8⟩] ⟨.clockResGet, [.num clockId, .range ⟨resolution, 8⟩]⟩

def wasiClockTimeGet (clockId precision time : Nat) : Wasi UInt16 :=
  handOver env [⟨time, 8⟩] ⟨.clockTimeGet, [.num clockId, .num precision, .range ⟨time, 8⟩]⟩

def wasiEnvironGet (environOffsets environBuf : Nat) : Wasi UInt16 :=
  stringsGet env .environSizesGet .environGet Context.environ environOffsets environBuf

def wasiEnvironSizesGet (environCountApp environBufSizeApp : Nat) : Wasi UInt16 :=
  report env [⟨environCountApp, 4⟩, ⟨environBufSizeApp, 4⟩] ⟨.environSizesGet, []⟩ fun ctx _ =>
    [(⟨environCountApp, 4⟩, ctx.environ.count % 2 ^ 32), (⟨environBufSizeApp, 4⟩, ctx.environ.bufSize % 2 ^ 32)]

/-- `pr_type` is a byte, and `pr_name_len` is behind three bytes that are not written. -/
def wasiFdPrestatGet (fd prestatApp : Nat) : Wasi UInt16 :=
  report env [⟨prestatApp, 8⟩] ⟨.fdPrestatGet, [.num fd]⟩ fun _ answer =>
    [(⟨prestatApp, 1⟩, answer.out 0 % 2 ^ 8), (⟨prestatApp + 4, 4⟩, answer.out 1 % 2 ^ 32)]

def wasiFdPrestatDirName (fd path pathLen : Nat) : Wasi UInt16 := handOverCtx env [] ⟨.fdPrestatDirName, [.num fd, .range ⟨path, pathLen⟩]⟩

def wasiFdClose (fd : Nat) : Wasi UInt16 := handOverCtx env [] ⟨.fdClose, [.num fd]⟩

def wasiFdDatasync (fd : Nat) : Wasi UInt16 := handOverCtx env [] ⟨.fdDatasync, [.num fd]⟩

def wasiFdPread (fd iovecApp iovsLen offset nreadApp : Nat) : Wasi UInt16 :=
  vectored env [⟨nreadApp, 4⟩] .fdPread [.num fd] iovecApp iovsLen [.num offset] nreadApp

def wasiFdPwrite (fd iovecApp iovsLen offset nwrittenApp : Nat) : Wasi UInt16 :=
  vectored env [⟨nwrittenApp, 4⟩] .fdPwrite [.num fd] iovecApp iovsLen [.num offset] nwrittenApp

def wasiFdRead (fd iovecApp iovsLen nreadApp : Nat) : Wasi UInt16 := vectored env [⟨nreadApp, 4⟩] .fdRead [.num fd] iovecApp iovsLen [] nreadApp

def wasiFdRenumber (fdFrom fdTo : Nat) : Wasi UInt16 := handOverCtx env [] ⟨.fdRenumber, [.num fdFrom, .num fdTo]⟩

def wasiFdSeek (fd offset whence newoffset : Nat) : Wasi UInt16 :=
  handOverCtx env [⟨newoffset, 8⟩] ⟨.fdSeek, [.num fd, .num offset, .num whence, .range ⟨newoffset, 8⟩]⟩

def wasiFdTell (fd newoffset : Nat) : Wasi UInt16 := handOverCtx env [⟨newoffset, 8⟩] ⟨.fdTell, [.num fd, .range ⟨newoffset, 8⟩]⟩

def wasiFdFdstatGet (fd fdstatApp : Nat) : Wasi UInt16 :=
  report env [⟨fdstatApp, 24⟩] ⟨.fdFdstatGet, [.num fd]⟩ fun _ answer => [(⟨fdstatApp, 24⟩, answer.out 0)]

def wasiFdFdstatSetFlags (fd flags : Nat) : Wasi UInt16 := handOverCtx env [] ⟨.fdFdstatSetFlags, [.num fd, .num flags]⟩

def wasiFdFdstatSetRights (fd fsRightsBase fsRightsInheriting : Nat) : Wasi UInt16 :=
  handOverCtx env [] ⟨.fdFdstatSetRights, [.num fd, .num fsRightsBase, .num fsRightsInheriting]⟩

def wasiFdSync (fd : Nat) : Wasi UInt16 := handOverCtx env [] ⟨.fdSync, [.num fd]⟩

def wasiFdWrite (fd iovecApp iovsLen nwrittenApp : Nat) : Wasi UInt16 := vectored env [⟨nwrittenApp, 4⟩] .fdWrite [.num fd] iovecApp iovsLen [] nwrittenApp

def wasiFdAdvise (fd offset len advice : Nat) : Wasi UInt16 := handOverCtx env [] ⟨.fdAdvise, [.num fd, .num offset, .num len, .num advice]⟩

def wasiFdAllocate (fd offset len : Nat) : Wasi UInt16 := handOverCtx env [] ⟨.fdAllocate, [.num fd, .num offset, .num len]⟩

def wasiPathCreateDirectory (fd path pathLen : Nat) : Wasi UInt16 := handOverCtx env [] ⟨.pathCreateDirectory, [.num fd, .range ⟨path, pathLen⟩]⟩

def wasiPathLink (oldFd oldFlags oldPath oldPathLen newFd newPath newPathLen : Nat) : Wasi UInt16 :=
  handOverCtx env [] ⟨.pathLink, [.num oldFd, .num oldFlags, .range ⟨oldPath, oldPathLen⟩, .num newFd, .range ⟨newPath, newPathLen⟩]⟩

/-- The file is stored also when the host returns an error. -/
def wasiPathOpen (dirfd dirflags path pathLen oflags fsRightsBase fsRightsInheriting fsFlags fdApp : Nat) : Wasi UInt16 := do
  let _ ← wasiCtx env
  validate env ⟨fdApp, 4⟩
  let answer ← ssp env ⟨.pathOpen, [.num dirfd, .num dirflags, .range ⟨path, pathLen⟩, .num oflags, .num fsRightsBase, .num fsRightsInheriting, .num fsFlags]⟩
  emit (.write ⟨fdApp, 4⟩ (answer.out 0))
  pure answer.errno

def wasiFdReaddir (fd buf bufLen cookie bufusedApp : Nat) : Wasi UInt16 :=
  report env [⟨bufusedApp, 4⟩] ⟨.fdReaddir, [.num fd, .range ⟨buf, bufLen⟩, .num cookie]⟩ fun _ answer => [(⟨bufusedApp, 4⟩, answer.out 0 % 2 ^ 32)]

def wasiPathReadlink (fd path pathLen buf bufLen bufusedApp : Nat) : Wasi UInt16 :=
  report env [⟨bufusedApp, 4⟩] ⟨.pathReadlink, [.num fd, .range ⟨path, pathLen⟩, .range ⟨buf, bufLen⟩]⟩ fun _ answer =>
    [(⟨bufusedApp, 4⟩, answer.out 0 % 2 ^ 32)]

def wasiPathRename (oldFd oldPath oldPathLen newFd newPath newPathLen : Nat) : Wasi UInt16 :=
  handOverCtx env [] ⟨.pathRename, [.num oldFd, .range ⟨oldPath, oldPathLen⟩, .num newFd, .range ⟨newPath, newPathLen⟩]⟩

def wasiFdFilestatGet (fd filestat : Nat) : Wasi UInt16 := handOverCtx env [⟨filestat, 56⟩] ⟨.fdFilestatGet, [.num fd, .range ⟨filestat, 56⟩]⟩

def wasiFdFilestatSetTimes (fd stAtim stMtim fstflags : Nat) : Wasi UInt16 :=
  handOverCtx env [] ⟨.fdFilestatSetTimes, [.num fd, .num stAtim, .num stMtim, .num fstflags]⟩

def wasiFdFilestatSetSize (fd stSize : Nat) : Wasi UInt16 := handOverCtx env [] ⟨.fdFilestatSetSize, [.num fd, .num stSize]⟩

def wasiPathFilestatGet (fd flags path pathLen filestat : Nat) : Wasi UInt16 :=
  handOverCtx env [⟨filestat, 56⟩] ⟨.pathFilestatGet, [.num fd, .num flags, .range ⟨path, pathLen⟩, .range ⟨filestat, 56⟩]⟩

def wasiPathFilestatSetTimes (fd flags path pathLen stAtim stMtim fstflags : Nat) : Wasi UInt16 :=
  handOverCtx env [] ⟨.pathFilestatSetTimes, [.num fd, .num flags, .range ⟨path, pathLen⟩, .num stAtim, .num stMtim, .num fstflags]⟩

def wasiPathSymlink (oldPath oldPathLen fd newPath newPathLen : Nat) : Wasi UInt16 :=
  handOverCtx env [] ⟨.pathSymlink, [.range ⟨oldPath, oldPathLen⟩, .num fd, .range ⟨newPath, newPathLen⟩]⟩

def wasiPathUnlinkFile (fd path pathLen : Nat) : Wasi UInt16 := handOverCtx env [] ⟨.pathUnlinkFile, [.num fd, .range ⟨path, pathLen⟩]⟩

def wasiPathRemoveDirectory (fd path pathLen : Nat) : Wasi UInt16 := handOverCtx env [] ⟨.pathRemoveDirectory, [.num fd, .range ⟨path, pathLen⟩]⟩

/-- The host gets arrays of `nsubscriptions` elements; the first element of each one is checked. -/
def wasiPollOneoff (inApp out nsubscriptions neventsApp : Nat) : Wasi UInt16 :=
  report env [⟨inApp, 56⟩, ⟨out, 32⟩, ⟨neventsApp, 4⟩]
    ⟨.pollOneoff, [.range ⟨inApp, 56 * nsubscriptions⟩, .range ⟨out, 32 * nsubscriptions⟩, .num nsubscriptions]⟩ fun _ answer =>
    [(⟨neventsApp, 4⟩, answer.out 0 % 2 ^ 32)]

def wasiProcExit (_rval : Nat) : Wasi UInt16 := do
  emit (.exception "wasi proc exit")
  pure 0

def wasiProcRaise (sig : Nat) : Wasi UInt16 := do
  emit (.exception ("wasi proc raise " ++ toString sig))
  pure 0

def wasiRandomGet (buf bufLen : Nat) : Wasi UInt16 := handOver env [] ⟨.randomGet, [.range ⟨buf, bufLen⟩]⟩

def wasiSockRecv (sock riData riDataLen riFlags roDatalenApp roFlags : Nat) : Wasi UInt16 :=
  vectored env [⟨roDatalenApp, 4⟩, ⟨roFlags, 2⟩] .sockRecv [.num sock] riData riDataLen [.num riFlags, .range ⟨roFlags, 2⟩] roDatalenApp

def wasiSockSend (sock siData siDataLen siFlags soDatalenApp : Nat) : Wasi UInt16 :=
  vectored env [⟨soDatalenApp, 4⟩] .sockSend [.num sock] siData siDataLen [.num siFlags] soDatalenApp

def wasiSockShutdown (sock how : Nat) : Wasi UInt16 := handOverCtx env [] ⟨.sockShutdown, [.num sock, .num how]⟩

def wasiSchedYield : Wasi UInt16 := handOver env [] ⟨.schedYield, []⟩

/-- The wrapper of a function, for what is in the registers and on the stack for its parameters. Pointers and 64-bit numbers are taken whole, the other
parameters in as many bits as their types have. -/
def Function.wrapper (f : Function) (a : Nat → Nat) : Wasi UInt16 :=
  let u32 (k : Nat) : Nat := a k % 2 ^ 32
  let u16 (k : Nat) : Nat := a k % 2 ^ 16
  let u8 (k : Nat) : Nat := a k % 2 ^ 8
  match f with
  | .argsGet => wasiArgsGet env (a 0) (a 1)
  | .argsSizesGet => wasiArgsSizesGet env (a 0) (a 1)
  | .clockResGet => wasiClockResGet env (u32 0) (a 1)
  | .clockTimeGet => wasiClockTimeGet env (u32 0) (a 1) (a 2)
  | .environGet => wasiEnvironGet env (a 0) (a 1)
  | .environSizesGet => wasiEnvironSizesGet env (a 0) (a 1)
  | .fdPrestatGet => wasiFdPrestatGet env (u32 0) (a 1)
  | .fdPrestatDirName => wasiFdPrestatDirName env (u32 0) (a 1) (u32 2)
  | .fdClose => wasiFdClose env (u32 0)
  | .fdDatasync => wasiFdDatasync env (u32 0)
  | .fdPread => wasiFdPread env (u32 0) (a 1) (u32 2) (a 3) (a 4)
  | .fdPwrite => wasiFdPwrite env (u32 0) (a 1) (u32 2) (a 3) (a 4)
  | .fdRead => wasiFdRead env (u32 0) (a 1) (u32 2) (a 3)
  | .fdRenumber => wasiFdRenumber env (u32 0) (u32 1)
  | .fdSeek => wasiFdSeek env (u32 0) (a 1) (u8 2) (a 3)
  | .fdTell => wasiFdTell env (u32 0) (a 1)
  | .fdFdstatGet => wasiFdFdstatGet env (u32 0) (a 1)
  | .fdFdstatSetFlags => wasiFdFdstatSetFlags env (u32 0) (u16 1)
  | .fdFdstatSetRights => wasiFdFdstatSetRights env (u32 0) (a 1) (a 2)
  | .fdSync => wasiFdSync env (u32 0)
  | .fdWrite => wasiFdWrite env (u32 0) (a 1) (u32 2) (a 3)
  | .fdAdvise => wasiFdAdvise env (u32 0) (a 1) (a 2) (u8 3)
  | .fdAllocate => wasiFdAllocate env (u32 0) (a 1) (a 2)
  | .pathCreateDirectory => wasiPathCreateDirectory env (u32 0) (a 1) (u32 2)
  | .pathLink => wasiPathLink env (u32 0) (u32 1) (a 2) (u32 3) (u32 4) (a 5) (u32 6)
  | .pathOpen => wasiPathOpen env (u32 0) (u32 1) (a 2) (u32 3) (u16 4) (a 5) (a 6) (u16 7) (a 8)
  | .fdReaddir => wasiFdReaddir env (u32 0) (a 1) (u32 2) (a 3) (a 4)
  | .pathReadlink => wasiPathReadlink env (u32 0) (a 1) (u32 2) (a 3) (u32 4) (a 5)
  | .pathRename => wasiPathRename env (u32 0) (a 1) (u32 2) (u32 3) (a 4) (u32 5)
  | .fdFilestatGet => wasiFdFilestatGet env (u32 0) (a 1)
  | .fdFilestatSetTimes => wasiFdFilestatSetTimes env (u32 0) (a 1) (a 2) (u16 3)
  | .fdFilestatSetSize => wasiFdFilestatSetSize env (u32 0) (a 1)
  | .pathFilestatGet => wasiPathFilestatGet env (u32 0) (u32 1) (a 2) (u32 3) (a 4)
  | .pathFilestatSetTimes => wasiPathFilestatSetTimes env (u32 0) (u32 1) (a 2) (u32 3) (a 4) (a 5) (u16 6)
  | .pathSymlink => wasiPathSymlink env (a 0) (u32 1) (u32 2) (a 3) (u32 4)
  | .pathUnlinkFile => wasiPathUnlinkFile env (u32 0) (a 1) (u32 2)
  | .pathRemoveDirectory => wasiPathRemoveDirectory env (u32 0) (a 1) (u32 2)
  | .pollOneoff => wasiPollOneoff env (a 0) (a 1) (u32 2) (a 3)
  | .procExit => wasiProcExit (u32 0)
  | .procRaise => wasiProcRaise (u8 0)
  | .randomGet => wasiRandomGet env (a 0) (u32 1)
  | .sockRecv => wasiSockRecv env (u32 0) (a 1) (u32 2) (u16 3) (a 4) (a 5)
  | .sockSend => wasiSockSend env (u32 0) (a 1) (u32 2) (u16 3) (a 4)
  | .sockShutdown => wasiSockShutdown env (u32 0) (u8 1)
  | .schedYield => wasiSchedYield env

end

/-! ## Calls of the guest -/

/-- A call of a function by the guest: it goes through `wasm_runtime_invoke_native` with the signature of the function. -/
structure Call where
  function : Function
  inv : Invocation
  signature_eq : inv.signature = function.signature
  context : Option Context
  host : SspCall → Answer
  malloc : Nat → Bool

/-- What is passed for a parameter behind the environment; all parameters of these functions are integers. -/
def parameter (regs : Registers) (k : Nat) : Nat := (regs.at (systemV.place (List.replicate (k + 1) .integer) .integer)).getD 0

/-- The value that a wrapper returns. -/
def errnoOf (x : Wasi UInt16) : UInt16 :=
  match x.result with
  | .ok errno => errno
  | .error errno => errno

def Event.isException : Event → Bool
  | .exception _ => true
  | _ => false

namespace Call
variable (c : Call)

def env : Env := ⟨c.inv.memory, c.context, c.host, c.malloc⟩

/-- The wrapper as it is entered. -/
def run (regs : Registers) : Wasi UInt16 := c.function.wrapper c.env (parameter regs)

/-- The registers and the stack when the wrapper is entered, if it is. -/
def entry : Option Registers :=
  (runtimeInvokeNative c.inv fun regs => ⟨(errnoOf (c.run regs)).toNat, 0, (c.run regs).events.any Event.isException⟩).call

/-- What the call does in the memory, and its calls of the host. -/
def events : List Event := c.entry.elim [] fun regs => (c.run regs).events

/-- The wrapper is not entered, or returns an error. -/
def Failed : Prop := ∀ regs ∈ c.entry, errnoOf (c.run regs) ≠ 0

end Call

/-! ## The sandbox -/

/-- Each byte is one of the memory. -/
def Range.Inside (memory : Option LinearMemory) (r : Range) : Prop :=
  ∀ a, r.addr ≤ a → a < r.addr + r.len → ∃ m ∈ memory, m.data ≤ a ∧ a < m.data + m.size

def SspArg.ranges : SspArg → List Range
  | .num _ => []
  | .range r => [r]
  | .iovecs rs => rs

/-- What the host gets of the guest. -/
def SspCall.ranges (c : SspCall) : List Range := c.args.flatMap SspArg.ranges

def Event.Inside (memory : Option LinearMemory) : Event → Prop
  | .read r => r.Inside memory
  | .write r _ => r.Inside memory
  | .ssp call => ∀ r ∈ call.ranges, r.Inside memory
  | .exception _ => True

def Event.IsSsp : Event → Prop
  | .ssp _ => True
  | _ => False

/-- What a function needs of the memory, by the numbers of its parameters. -/
inductive Need
  /-- So many bytes. -/
  | fixed (k len : Nat)
  /-- As many bytes as the next parameter says. -/
  | sized (k : Nat)
  /-- As many elements of a size as another parameter says. -/
  | array (k n size : Nat)
  /-- An array of buffers, as many as another parameter says. -/
  | iovecs (k n : Nat)
  /-- Offsets of strings, and the strings. -/
  | strings (k : Nat) (sel : Context → Strings)

/-- What each function needs. -/
def Function.needs : Function → List Need
  | .argsGet => [.strings 0 Context.args]
  | .argsSizesGet => [.fixed 0 4, .fixed 1 4]
  | .clockResGet => [.fixed 1 8]
  | .clockTimeGet => [.fixed 2 8]
  | .environGet => [.strings 0 Context.environ]
  | .environSizesGet => [.fixed 0 4, .fixed 1 4]
  | .fdPrestatGet => [.fixed 1 8]
  | .fdPrestatDirName => [.sized 1]
  | .fdClose => []
  | .fdDatasync => []
  | .fdPread => [.iovecs 1 2, .fixed 4 4]
  | .fdPwrite => [.iovecs 1 2, .fixed 4 4]
  | .fdRead => [.iovecs 1 2, .fixed 3 4]
  | .fdRenumber => []
  | .fdSeek => [.fixed 3 8]
  | .fdTell => [.fixed 1 8]
  | .fdFdstatGet => [.fixed 1 24]
  | .fdFdstatSetFlags => []
  | .fdFdstatSetRights => []
  | .fdSync => []
  | .fdWrite => [.iovecs 1 2, .fixed 3 4]
  | .fdAdvise => []
  | .fdAllocate => []
  | .pathCreateDirectory => [.sized 1]
  | .pathLink => [.sized 2, .sized 5]
  | .pathOpen => [.sized 2, .fixed 8 4]
  | .fdReaddir => [.sized 1, .fixed 4 4]
  | .pathReadlink => [.sized 1, .sized 3, .fixed 5 4]
  | .pathRename => [.sized 1, .sized 4]
  | .fdFilestatGet => [.fixed 1 56]
  | .fdFilestatSetTimes => []
  | .fdFilestatSetSize => []
  | .pathFilestatGet => [.sized 2, .fixed 4 56]
  | .pathFilestatSetTimes => [.sized 2]
  | .pathSymlink => [.sized 0, .sized 3]
  | .pathUnlinkFile => [.sized 1]
  | .pathRemoveDirectory => [.sized 1]
  | .pollOneoff => [.array 0 2 56, .array 1 2 32, .fixed 3 4]
  | .procExit => []
  | .procRaise => []
  | .randomGet => [.sized 0]
  | .sockRecv => [.iovecs 1 2, .fixed 4 4, .fixed 5 2]
  | .sockSend => [.iovecs 1 2, .fixed 4 4]
  | .sockShutdown => []
  | .schedYield => []

/-- The address of an offset. -/
def address (memory : Option LinearMemory) (offset : Nat) : Nat := memory.elim 0 LinearMemory.data + offset

/-- The buffers of an array. -/
def buffers (memory : Option LinearMemory) (addr n : Nat) : List Range :=
  (List.range n).map fun i => ⟨address memory (load32 memory (addr + 8 * i)), load32 memory (addr + 8 * i + 4)⟩

/-- What is needed, for the addresses of the pointers and the other numbers. -/
def Need.ranges (memory : Option LinearMemory) (ctx : Option Context) (addr num : Nat → Nat) : Need → List Range
  | .fixed k len => [⟨addr k, len⟩]
  | .sized k => [⟨addr k, num (k + 1)⟩]
  | .array k n size => [⟨addr k, size * num n⟩]
  | .iovecs k n => ⟨addr k, 8 * num n⟩ :: buffers memory (addr k) (num n)
  | .strings k sel => ctx.elim [] fun ctx => [⟨addr k, 4 * ((sel ctx).count + 1)⟩, ⟨addr (k + 1), (sel ctx).bufSize⟩]

namespace Call
variable (c : Call)

/-- The number that the guest gives for a parameter. -/
def guestArg (k : Nat) : Nat := (c.inv.params[k]?).elim 0 c.inv.value

/-- All that the call needs of the memory. -/
def needed : List Range :=
  c.function.needs.flatMap (Need.ranges c.inv.memory c.context (fun k => address c.inv.memory (c.guestArg k)) c.guestArg)

/-- The call stays in the memory. If it needs what is not there, it fails and the host is not called. -/
structure Sandboxed : Prop where
  inside : ∀ e ∈ c.events, e.Inside c.inv.memory
  refused : (∃ r ∈ c.needed, ¬ r.Inside c.inv.memory) → c.Failed ∧ ∀ e ∈ c.events, ¬ e.IsSsp

end Call

end WamrMigrate.Wasi
