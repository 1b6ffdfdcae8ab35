import LuaApr.Apr

/-!
# `lua_apr_dir_remove_recursive` as a machine

The function in `io_dir.c` is a loop of APR calls. Here it stops at every call
whose status it reads, waits for the answer, and runs the C code from that
answer to its next such call. Every file system, every order of entries and
every pattern of failures is then a sequence of answers. The pool calls, which
return nothing, and every other call go into a log, newest first.
-/

namespace LuaApr.RemoveRecursive

/-- The three pools of the function: `outer_pool` holds the two stacks and the
directory paths, `middle_pool` the directory handle, `inner_pool` the paths of
entries that are not directories. -/
inductive Pool
  | outer | middle | inner
  deriving DecidableEq, Repr

/-- Where a string lives: in the Lua argument, or in a pool, together with the
number of clears of that pool before the string was allocated. -/
inductive Owner
  | lua
  | pool (p : Pool) (epoch : ℕ)
  deriving DecidableEq, Repr

/-- A value with the place it lives. -/
structure Tagged (α : Type) where
  val : α
  owner : Owner
  deriving DecidableEq, Repr

/-- The APR calls of the function, with the strings and handles they read. -/
inductive Call
  | poolCreate (pool : Pool)
  | poolClear (pool : Pool)
  | poolDestroy (pool : Pool)
  | dirOpen (path : Tagged Path)
  | dirRead (handle : ℕ)
  | filepathMerge (base : Tagged Path) (name : Tagged String) (pool : Pool)
  | fileRemove (path : Tagged Path)
  | dirClose (handle : ℕ)
  | dirRemove (path : Tagged Path)
  deriving DecidableEq, Repr

/-- A call together with its answer. -/
structure Event where
  call : Call
  response : Response
  deriving DecidableEq, Repr

/-- How often a log clears pool `p`. -/
def clears (p : Pool) (log : List Event) : ℕ :=
  log.countP (·.call == .poolClear p)

/-- The points of the function at which it waits for the status of a call. -/
inductive Pc
  | createOuter | createMiddle | createInner
  | openDir | readDir | mergeDir | mergeFile | removeFile | closeDir
  | removeDir | cleanupClose
  | returned
  deriving DecidableEq, Repr

/-- The local variables of `lua_apr_dir_remove_recursive`, the point it waits
at, and the log of its calls. A directory handle is named by the length of the
log when it was opened, so that every handle has its own name. -/
structure Mach where
  pc : Pc
  status : Status
  outerPool : Bool
  middlePool : Bool
  innerPool : Bool
  todo : List (Tagged Path)
  done : List (Tagged Path)
  directory : Option ℕ
  filepath : Tagged Path
  name : Tagged String
  filetype : Filetype
  tmp : Tagged Path
  counter : ℕ
  log : List Event

namespace Mach

/-- Log a call with its answer. -/
def emit (m : Mach) (c : Call) (r : Response) : Mach :=
  { m with log := ⟨c, r⟩ :: m.log }

/-- The allocation of `val` in pool `p` at the pool's current epoch. -/
def alloc {α : Type} (m : Mach) (p : Pool) (val : α) : Tagged α :=
  ⟨val, .pool p (clears p m.log)⟩

/-- The tail of the `cleanup` label: destroy the pools that were created and
return `status`. -/
def destroyPools (m : Mach) : Mach :=
  let m := if m.innerPool then m.emit (.poolDestroy .inner) .ok else m
  let m := if m.middlePool then m.emit (.poolDestroy .middle) .ok else m
  let m := if m.outerPool then m.emit (.poolDestroy .outer) .ok else m
  { m with pc := .returned }

/-- `goto cleanup`: close a directory that is still open, then destroy the pools. -/
def cleanup (m : Mach) : Mach :=
  if m.directory.isSome then { m with pc := .cleanupClose } else m.destroyPools

/-- The head of the removal loop, `while ((top = apr_array_pop(done)))`, which
clears `middle_pool` every hundredth time. -/
def nextDone (m : Mach) : Mach :=
  match m.done with
  | [] => m.cleanup
  | top :: rest =>
    let m := if m.counter % 100 = 0 then m.emit (.poolClear .middle) .ok else m
    { m with done := rest, filepath := top, counter := m.counter + 1, pc := .removeDir }

/-- The head of the enumeration loop, `while ((top = apr_array_pop(todo)))`. -/
def nextDir (m : Mach) : Mach :=
  match m.todo with
  | [] => m.nextDone
  | top :: rest =>
    { m.emit (.poolClear .middle) .ok with todo := rest, filepath := top, pc := .openDir }

/-- The head of the entry loop, which clears `inner_pool` while the counter is a
multiple of 1000. -/
def nextEntry (m : Mach) : Mach :=
  let m := if m.counter % 1000 = 0 then m.emit (.poolClear .inner) .ok else m
  { m with pc := .readDir }

/-- The call the machine waits for. -/
def pending (m : Mach) : Option Call :=
  match m.pc with
  | .createOuter => some (.poolCreate .outer)
  | .createMiddle => some (.poolCreate .middle)
  | .createInner => some (.poolCreate .inner)
  | .openDir => some (.dirOpen m.filepath)
  | .readDir => some (.dirRead (m.directory.getD 0))
  | .mergeDir => some (.filepathMerge m.filepath m.name .outer)
  | .mergeFile => some (.filepathMerge m.filepath m.name .inner)
  | .removeFile => some (.fileRemove m.tmp)
  | .closeDir => some (.dirClose (m.directory.getD 0))
  | .removeDir => some (.dirRemove m.filepath)
  | .cleanupClose => some (.dirClose (m.directory.getD 0))
  | .returned => none

/-- One answer to the pending call: log it, and run the C code up to the next
call. The status of the close in `cleanup` is dropped, as in the source. -/
def step (m : Mach) (r : Response) : Mach :=
  let ok := r.status = .success
  match m.pc with
  | .createOuter =>
    let m := { m.emit (.poolCreate .outer) r with status := r.status, outerPool := ok }
    if ok then { m with pc := .createMiddle } else m.cleanup
  | .createMiddle =>
    let m := { m.emit (.poolCreate .middle) r with status := r.status, middlePool := ok }
    if ok then { m with pc := .createInner } else m.cleanup
  | .createInner =>
    let m := { m.emit (.poolCreate .inner) r with status := r.status, innerPool := ok }
    if ok then { m with todo := [m.filepath], done := [] }.nextDir else m.cleanup
  | .openDir =>
    let m := { m.emit (.dirOpen m.filepath) r with status := r.status }
    if ok then { m with directory := some m.log.length }.nextEntry
    else { m with directory := none }.cleanup
  | .readDir =>
    let m := { m.emit (.dirRead (m.directory.getD 0)) r with status := r.status }
    if r.status = .enoent then { m with pc := .closeDir }
    else if r.status ≠ .success ∧ r.status ≠ .incomplete then m.cleanup
    else
      let m : Mach := { m with
        name := m.alloc .middle r.info.name, filetype := r.info.filetype.getD m.filetype }
      if filenameSymbolic m.name.val then m.nextEntry
      else if m.filetype = .dir then { m with pc := .mergeDir }
      else { m with pc := .mergeFile }
  | .mergeDir =>
    let tmp := m.alloc .outer (m.filepath.val ++ [m.name.val])
    let m := { m.emit (.filepathMerge m.filepath m.name .outer) r with status := r.status }
    if ok then { m with tmp := tmp, todo := tmp :: m.todo }.nextEntry else m.cleanup
  | .mergeFile =>
    let tmp := m.alloc .inner (m.filepath.val ++ [m.name.val])
    let m := { m.emit (.filepathMerge m.filepath m.name .inner) r with
      status := r.status, counter := m.counter + 1 }
    if ok then { m with tmp := tmp, pc := .removeFile } else m.cleanup
  | .removeFile =>
    let m := { m.emit (.fileRemove m.tmp) r with status := r.status }
    if ok then m.nextEntry else m.cleanup
  | .closeDir =>
    let m := { m.emit (.dirClose (m.directory.getD 0)) r with
      status := r.status, directory := none }
    if ok then { m with done := m.filepath :: m.done }.nextDir else m.cleanup
  | .removeDir =>
    let m := { m.emit (.dirRemove m.filepath) r with status := r.status }
    if ok then m.nextDone else m.cleanup
  | .cleanupClose => (m.emit (.dirClose (m.directory.getD 0)) r).destroyPools
  | .returned => m

/-- The machine after a sequence of answers. -/
def run (m : Mach) : List Response → Mach
  | [] => m
  | r :: rs => (m.step r).run rs

/-- The machine on entry, for the path argument `root`. The local `info` is not
initialised in the source, so its file type is a parameter; the other
uninitialised locals are written before they are read. -/
def init (root : Path) (filetype : Filetype) : Mach where
  pc := .createOuter
  status := .success
  outerPool := false
  middlePool := false
  innerPool := false
  todo := []
  done := []
  directory := none
  filepath := ⟨root, .lua⟩
  name := ⟨"", .lua⟩
  filetype := filetype
  tmp := ⟨[], .lua⟩
  counter := 0
  log := []

end Mach

/-- The states `lua_apr_dir_remove_recursive` reaches from its entry, under
any answers of APR. -/
inductive Reachable (root : Path) : Mach → Prop
  | init (filetype : Filetype) : Reachable root (Mach.init root filetype)
  | step {m : Mach} (r : Response) : Reachable root m → Reachable root (m.step r)

end LuaApr.RemoveRecursive
