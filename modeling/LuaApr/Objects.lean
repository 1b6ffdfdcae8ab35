import LuaApr.Apr

/-!
# Directory and file objects

`apr.dir_open` and `apr.file_open` give Lua an object that owns a memory pool
and an APR handle. Its methods raise an error once the handle is closed; its
`__gc` releases what is left. This file follows, over every sequence of method
calls, what each object does to its pool and its handle.
-/

namespace LuaApr

/-- What was done to the pool and the handle of one object. -/
structure Ledger where
  poolCreated : Bool
  poolDestroys : ℕ
  handleOpened : Bool
  handleCloses : ℕ
  deriving DecidableEq, Repr

/-- One more `apr_dir_close` or `apr_file_close` on the handle. -/
def Ledger.close (l : Ledger) : Ledger := { l with handleCloses := l.handleCloses + 1 }

/-- One more `apr_pool_destroy` on the pool. -/
def Ledger.destroy (l : Ledger) : Ledger := { l with poolDestroys := l.poolDestroys + 1 }

/-- A `lua_apr_dir`: whether `handle` is non-`NULL`, and its ledger. -/
structure LuaDir where
  handle : Bool
  ledger : Ledger
  deriving DecidableEq, Repr

/-- The methods of a directory object besides `__gc`. -/
inductive DirMethod
  | entries | read | rewind | tostring | close
  deriving DecidableEq, Repr

/-- `lua_apr_dir_open`: create the pool, open the handle, and on a failed open
destroy the pool again. The error carries the pool's ledger. -/
def luaAprDirOpen (poolStatus openStatus : Status) : Except (Status × Ledger) LuaDir :=
  if poolStatus ≠ .success then .error (poolStatus, ⟨false, 0, false, 0⟩)
  else if openStatus ≠ .success then .error (openStatus, ⟨true, 1, false, 0⟩)
  else .ok ⟨true, ⟨true, 0, true, 0⟩⟩

/-- `checkdir`: with `checkOpen`, a closed directory raises. -/
def checkdir (d : LuaDir) (checkOpen : Bool) : Except String LuaDir :=
  if checkOpen && !d.handle then .error "attempt to use a closed directory" else .ok d

/-- `dir_close`: close the handle and set it to `NULL`; the pool stays. -/
def dirClose (d : LuaDir) : Except String LuaDir := do
  let d ← checkdir d true
  pure ⟨false, d.ledger.close⟩

/-- One method call. `entries`, `read` and `rewind` use the open handle and
leave the ledger alone. -/
def dirMethod : DirMethod → LuaDir → Except String LuaDir
  | .entries, d | .read, d | .rewind, d => checkdir d true
  | .tostring, d => checkdir d false
  | .close, d => dirClose d

/-- A sequence of method calls. A call that raises changes nothing, and the
caller may go on. -/
def LuaDir.run (d : LuaDir) : List DirMethod → LuaDir
  | [] => d
  | m :: ms => ((dirMethod m d).toOption.getD d).run ms

/-- `dir_gc`: a handle that is still open is closed, and only then is the pool
destroyed. -/
def dirGc (d : LuaDir) : LuaDir :=
  if d.handle then ⟨false, d.ledger.close.destroy⟩ else d

/-- After any sequence of method calls on an opened directory, the handle was
closed exactly when `close` was called, and the pool was never destroyed. -/
theorem LuaDir.run_opened (ms : List DirMethod) :
    (LuaDir.run ⟨true, ⟨true, 0, true, 0⟩⟩ ms) =
      if DirMethod.close ∈ ms then ⟨false, ⟨true, 0, true, 1⟩⟩ else ⟨true, ⟨true, 0, true, 0⟩⟩ := by
  suffices h : ∀ d : LuaDir, (d = ⟨true, ⟨true, 0, true, 0⟩⟩ ∨ d = ⟨false, ⟨true, 0, true, 1⟩⟩) →
      d.run ms = if DirMethod.close ∈ ms then ⟨false, ⟨true, 0, true, 1⟩⟩ else d by
    simpa using h _ (.inl rfl)
  induction ms with
  | nil => simp [LuaDir.run]
  | cons m ms ih =>
    rintro d (rfl | rfl) <;> cases m <;>
      simp [LuaDir.run, dirMethod, dirClose, checkdir, Ledger.close, ih, Except.toOption,
        bind, Except.bind, pure, Except.pure]

/-- With `close` called, `__gc` finds the handle `NULL` and never destroys the
pool; without it, `__gc` closes the handle and destroys the pool. -/
theorem dirGc_run_opened (ms : List DirMethod) :
    (dirGc (LuaDir.run ⟨true, ⟨true, 0, true, 0⟩⟩ ms)).ledger =
      ⟨true, if DirMethod.close ∈ ms then 0 else 1, true, 1⟩ := by
  rw [LuaDir.run_opened]
  split <;> rfl

/-- `apr.dir_open` succeeds, then `close`, then `__gc`: the handle is closed
once and the pool is never destroyed. -/
theorem dir_close_then_gc_keeps_pool :
    (luaAprDirOpen .success .success).map (fun d => (dirGc (d.run [.close])).ledger) =
      .ok ⟨true, 0, true, 1⟩ :=
  rfl

/-- The `APR_FOPEN_*` flags that `lua_apr_file_open` passes to `apr_file_open`. -/
structure OpenFlags where
  read : Bool := false
  write : Bool := false
  create : Bool := false
  truncate : Bool := false
  append : Bool := false
  binary : Bool := false
  deriving DecidableEq, Repr

/-- The characters after the mode letter: a `+` adds `extra`, then a `b` adds
`APR_FOPEN_BINARY`, then a `+` adds `extra` again. -/
def modeSuffix (extra : OpenFlags → OpenFlags) (flags : OpenFlags) (mode : List Char) : OpenFlags :=
  let (flags, mode) := match mode with
    | '+' :: rest => (extra flags, rest)
    | _ => (flags, mode)
  let (flags, mode) := match mode with
    | 'b' :: rest => ({ flags with binary := true }, rest)
    | _ => (flags, mode)
  match mode with
  | '+' :: _ => extra flags
  | _ => flags

/-- The mode parser of `lua_apr_file_open`, which defaults to reading, as Lua
does, when no mode letter asked for writing. -/
def parseMode (mode : List Char) : OpenFlags :=
  let flags : OpenFlags := match mode with
    | 'r' :: rest => modeSuffix (fun f => { f with write := true }) { read := true } rest
    | 'w' :: rest =>
      modeSuffix (fun f => { f with read := true }) { write := true, create := true, truncate := true } rest
    | 'a' :: rest =>
      modeSuffix (fun f => { f with read := true }) { write := true, create := true, append := true } rest
    | _ => {}
  if flags.write then flags else { flags with read := true }

/-- Every mode string opens the file for reading or for writing. -/
theorem parseMode_read_or_write (mode : List Char) : (parseMode mode).read ∨ (parseMode mode).write := by
  unfold parseMode
  dsimp only
  split_ifs with h <;> simp [h]

example : parseMode "rb+".toList = { read := true, write := true, binary := true } := by decide

/-- A `lua_apr_file`: whether `handle` is non-`NULL`, and its ledger. -/
structure LuaFile where
  handle : Bool
  ledger : Ledger
  deriving DecidableEq, Repr

/-- Modelled from the spec: `new_object` (in `lua_apr.c`, not under src/) hands
back the new userdatum zero-filled, so the handle and the pool start `NULL`. -/
def newFile : LuaFile := ⟨false, ⟨false, 0, false, 0⟩⟩

/-- How `lua_apr_file_open` ends, with the object it created in every case. -/
inductive FileOpenResult
  /-- `apr_pool_create` failed and the status was raised. -/
  | raised (status : Status) (file : LuaFile)
  /-- `apr_file_open` failed: `nil` and the error are returned to Lua, and the
  object is left to the collector. -/
  | failed (status : Status) (flags : OpenFlags) (file : LuaFile)
  | opened (flags : OpenFlags) (file : LuaFile)
  deriving DecidableEq, Repr

/-- `lua_apr_file_open` on the mode argument, given the statuses of
`apr_pool_create` and `apr_file_open`. -/
def luaAprFileOpen (mode : Option String) (poolStatus openStatus : Status) : FileOpenResult :=
  let flags := parseMode (mode.getD "r").toList
  if poolStatus ≠ .success then .raised poolStatus newFile
  else if openStatus ≠ .success then .failed openStatus flags ⟨false, ⟨true, 0, false, 0⟩⟩
  else .opened flags ⟨true, ⟨true, 0, true, 0⟩⟩

/-- `file_check`: when asked to check that the file is open, a closed file raises. -/
def fileCheck (f : LuaFile) (checkOpen : Bool) : Except String LuaFile :=
  if checkOpen && !f.handle then .error "attempt to use a closed file" else .ok f

/-- `file_close_real`: an open handle is closed, its pool destroyed, and the
handle set to `NULL`. -/
def fileCloseReal (f : LuaFile) : LuaFile :=
  if f.handle then ⟨false, f.ledger.close.destroy⟩ else f

/-- The methods of a file object besides `__gc`. -/
inductive FileMethod
  | close | read | write | seek | tostring
  deriving DecidableEq, Repr

/-- One method call. `read`, `write` and `seek` use the open handle and leave the
ledger alone. -/
def fileMethod : FileMethod → LuaFile → Except String LuaFile
  | .read, f | .write, f | .seek, f => fileCheck f true
  | .tostring, f => fileCheck f false
  | .close, f => do
    let f ← fileCheck f true
    pure (fileCloseReal f)

/-- A sequence of method calls; a call that raises changes nothing. -/
def LuaFile.run (f : LuaFile) : List FileMethod → LuaFile
  | [] => f
  | m :: ms => ((fileMethod m f).toOption.getD f).run ms

/-- `file_gc`. -/
def fileGc (f : LuaFile) : LuaFile := fileCloseReal f

/-- After any sequence of method calls on an opened file, the handle was closed
and the pool destroyed, once each, exactly when `close` was called. -/
theorem LuaFile.run_opened (ms : List FileMethod) :
    (LuaFile.run ⟨true, ⟨true, 0, true, 0⟩⟩ ms) =
      if FileMethod.close ∈ ms then ⟨false, ⟨true, 1, true, 1⟩⟩ else ⟨true, ⟨true, 0, true, 0⟩⟩ := by
  suffices h : ∀ f : LuaFile, (f = ⟨true, ⟨true, 0, true, 0⟩⟩ ∨ f = ⟨false, ⟨true, 1, true, 1⟩⟩) →
      f.run ms = if FileMethod.close ∈ ms then ⟨false, ⟨true, 1, true, 1⟩⟩ else f by
    simpa using h _ (.inl rfl)
  induction ms with
  | nil => simp [LuaFile.run]
  | cons m ms ih =>
    rintro f (rfl | rfl) <;> cases m <;>
      simp [LuaFile.run, fileMethod, fileCloseReal, fileCheck, Ledger.close, Ledger.destroy, ih,
        Except.toOption, bind, Except.bind, pure, Except.pure]

/-- A file that opened: whatever methods are called, after `__gc` its handle
has been closed once and its pool destroyed once. -/
theorem fileGc_run_opened (ms : List FileMethod) :
    (fileGc (LuaFile.run ⟨true, ⟨true, 0, true, 0⟩⟩ ms)).ledger = ⟨true, 1, true, 1⟩ := by
  rw [LuaFile.run_opened]
  split <;> rfl

/-- `apr.file_open` of a missing file in mode `r`: the object it leaves has a
created pool behind a `NULL` handle, and `__gc` never destroys that pool. -/
theorem failed_open_gc_keeps_pool :
    luaAprFileOpen (some "r") .success .enoent =
        .failed .enoent { read := true } ⟨false, ⟨true, 0, false, 0⟩⟩ ∧
      (fileGc ⟨false, ⟨true, 0, false, 0⟩⟩).ledger.poolDestroys = 0 :=
  ⟨rfl, rfl⟩

end LuaApr
