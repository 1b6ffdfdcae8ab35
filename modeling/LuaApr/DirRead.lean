import LuaApr.Objects

/-!
# Reading a directory object

`directory:read()` and the iterator that `directory:entries()` returns are one
C function, `dir_read`. It calls `apr_dir_read` until an answer is not a self
or parent marker, and gives Lua that entry, nothing at the end of the
directory, or the error. A handle hands out one answer per call, from the
first again after `apr_dir_rewind`. This file follows a directory object, with
its handle, over every sequence of method calls: its reads are those of a
cursor over the results of the directory's answers, markers left out, and what
it does to the handle and the pool is what `LuaDir.run` says.
-/

namespace LuaApr

/-- One answer of `apr_dir_read` as `dir_read` reads it: the status, the entry,
and whether `APR_FINFO_NAME` is set in the entry's `valid` mask. -/
structure DirAnswer where
  status : Status
  info : Finfo
  nameValid : Bool
  deriving DecidableEq, Repr

/-- What one call of `dir_read` hands back. -/
inductive ReadResult
  /-- `push_stat_results`: the requested properties of the entry. -/
  | entry (info : Finfo)
  /-- `return 0`: no value, the end of the directory. -/
  | nothing
  /-- `raise_error_status`. -/
  | raised (status : Status)
  deriving DecidableEq, Repr

/-- The loop of `dir_read` over the answers the handle has still to give. At
the end of the directory `apr_dir_read` answers `APR_ENOENT`, and keeps doing
so. The result comes with the answers left. -/
def dirRead : List DirAnswer → ReadResult × List DirAnswer
  | [] => (.nothing, [])
  | a :: rest =>
    if a.status = .success ∨ a.status = .incomplete then
      if !(a.nameValid && filenameSymbolic a.info.name) then (.entry a.info, rest)
      else dirRead rest
    else if a.status = .enoent then (.nothing, rest)
    else (.raised a.status, rest)

/-- What an answer stands for: the result it gives Lua, or `none` for a marker
with a valid name, which is no entry of the directory. -/
def DirAnswer.outcome (a : DirAnswer) : Option ReadResult :=
  match a.status with
  | .success | .incomplete =>
    if a.nameValid && filenameSymbolic a.info.name then none else some (.entry a.info)
  | .enoent => some .nothing
  | status => some (.raised status)

/-- The results a list of answers stands for, in order. -/
def outcomes (answers : List DirAnswer) : List ReadResult := answers.filterMap DirAnswer.outcome

/-- A cursor over results: a read takes the next one, and a cursor at its end
gives `nothing`. -/
def Cursor.read : List ReadResult → ReadResult × List ReadResult
  | [] => (.nothing, [])
  | r :: rs => (r, rs)

/-- One call of `dir_read`, on any answers, consumes them up to the first that
is not a self or parent marker with a valid name, and gives that answer's
result: the entry, nothing at `APR_ENOENT` or at the end, or the raised error.
It is a read of the cursor over the outcomes of the answers. -/
theorem dirRead_outcomes (answers : List DirAnswer) :
    ((dirRead answers).1, outcomes (dirRead answers).2) = Cursor.read (outcomes answers) := by
  induction answers with
  | nil => rfl
  | cons a rest ih =>
    obtain ⟨status, info, nameValid⟩ := a
    simp only [outcomes] at ih ⊢
    cases status <;> cases hskip : (nameValid && filenameSymbolic info.name) <;>
      simp [dirRead, DirAnswer.outcome, Cursor.read, hskip, ih]

/-- An open handle: the answers `apr_dir_read` gives from the start of the
directory, the answers still to come, and the status `apr_dir_close` answers. -/
structure DirHandle where
  answers : List DirAnswer
  rest : List DirAnswer
  closeStatus : Status
  deriving DecidableEq, Repr

/-- A `lua_apr_dir`: its handle (`none` for `NULL`), the path it was opened on,
and its ledger. -/
structure DirObject where
  handle : Option DirHandle
  filepath : String
  ledger : Ledger
  deriving DecidableEq, Repr

/-- What a method call gives back to Lua. -/
inductive DirOutput
  /-- `luaL_error` with the message. -/
  | error (msg : String)
  /-- `dir_entries`: the iterator `dir_read` and the object. -/
  | iterator
  /-- `dir_read`. -/
  | read (result : ReadResult)
  /-- `push_status`: `true` for `APR_SUCCESS`, otherwise `nil` and the error. -/
  | status (s : Status)
  /-- `dir_tostring`. -/
  | text (s : String)
  deriving DecidableEq, Repr

/-- The message of `checkdir` for a closed directory. -/
def closedDirectory : String := "attempt to use a closed directory"

/-- `dir_tostring`: `closed ` before the text once the handle is `NULL`. -/
def dirTostring (d : DirObject) : String :=
  (if d.handle.isNone then "closed " else "") ++ "directory (" ++ d.filepath ++ ")"

/-- `checkdir` with `check_open`: on a `NULL` handle it raises and the method
stops, changing nothing; otherwise the method goes on with the open handle. -/
def DirObject.checkdir (d : DirObject) (k : DirHandle → DirOutput × DirObject) :
    DirOutput × DirObject :=
  match d.handle with
  | none => (.error closedDirectory, d)
  | some h => k h

/-- One method call on a directory object. `entries` hands out the iterator,
`read` runs the loop of `dir_read`, `rewind` starts the handle over
(`apr_dir_rewind` answers `APR_SUCCESS`), and `close` sets the handle to `NULL`
whatever `apr_dir_close` answers. -/
def dirObjectMethod : DirMethod → DirObject → DirOutput × DirObject
  | .entries, d => d.checkdir fun _ => (.iterator, d)
  | .read, d => d.checkdir fun h =>
    (.read (dirRead h.rest).1, { d with handle := some { h with rest := (dirRead h.rest).2 } })
  | .rewind, d => d.checkdir fun h =>
    (.status .success, { d with handle := some { h with rest := h.answers } })
  | .tostring, d => (.text (dirTostring d), d)
  | .close, d => d.checkdir fun h =>
    (.status h.closeStatus, { d with handle := none, ledger := d.ledger.close })

/-- A sequence of method calls, with what each gave back. A call that raises
leaves the object as the call left it, and the caller may go on. -/
def DirObject.run (d : DirObject) : List DirMethod → List DirOutput × DirObject
  | [] => ([], d)
  | m :: ms =>
    let call := dirObjectMethod m d
    let next := call.2.run ms
    (call.1 :: next.1, next.2)

/-- `dir_gc`: a handle that is still open is closed, its status dropped, and
then the pool destroyed. -/
def dirObjectGc (d : DirObject) : DirObject :=
  if d.handle.isSome then { d with handle := none, ledger := d.ledger.close.destroy } else d

/-- The object model below: whether the handle is open, and the ledger. -/
def DirObject.toLuaDir (d : DirObject) : LuaDir := ⟨d.handle.isSome, d.ledger⟩

/-- A method call does to the handle and the pool what `dirMethod` says. -/
theorem toLuaDir_dirObjectMethod (m : DirMethod) (d : DirObject) :
    (dirObjectMethod m d).2.toLuaDir = ((dirMethod m d.toLuaDir).toOption.getD d.toLuaDir) := by
  obtain ⟨_ | h, filepath, ledger⟩ := d <;> cases m <;> rfl

/-- Over every sequence of method calls, the directory object with its handle
does to the handle and the pool what the object model `LuaDir.run` says, and
its `__gc` what `dirGc` says. -/
theorem toLuaDir_run (d : DirObject) (ms : List DirMethod) :
    (d.run ms).2.toLuaDir = d.toLuaDir.run ms ∧
      (dirObjectGc (d.run ms).2).toLuaDir = dirGc (d.toLuaDir.run ms) := by
  have hrun : ∀ d : DirObject, (d.run ms).2.toLuaDir = d.toLuaDir.run ms := by
    induction ms with
    | nil => intro d; rfl
    | cons m ms ih =>
      intro d
      simp only [DirObject.run, LuaDir.run, ← toLuaDir_dirObjectMethod, ih]
  refine ⟨hrun d, ?_⟩
  rw [← hrun d]
  obtain ⟨_ | h, filepath, ledger⟩ := (d.run ms).2 <;> rfl

/-- A directory that opened, whatever its answers: after any sequence of method
calls and `__gc`, its handle has been closed once, and its pool destroyed once
exactly when `close` was never called. -/
theorem dirObjectGc_run_opened (h : DirHandle) (filepath : String) (ms : List DirMethod) :
    (dirObjectGc (DirObject.run ⟨some h, filepath, ⟨true, 0, true, 0⟩⟩ ms).2).ledger =
      ⟨true, if DirMethod.close ∈ ms then 0 else 1, true, 1⟩ :=
  (congrArg LuaDir.ledger (toLuaDir_run ⟨some h, filepath, ⟨true, 0, true, 0⟩⟩ ms).2).trans
    (dirGc_run_opened ms)

/-! ## The cursor the object implements -/

/-- What a directory object is for: a cursor over the results of its
directory, back at the start after `rewind`, gone after `close`. An open
cursor holds all results, those still to come, and the status of closing. -/
structure DirCursor where
  results : Option (List ReadResult × List ReadResult × Status)
  filepath : String
  ledger : Ledger
  deriving DecidableEq, Repr

/-- A method call on a closed cursor raises; otherwise it goes on with the
results. -/
def DirCursor.checkOpen (c : DirCursor)
    (k : List ReadResult → List ReadResult → Status → DirOutput × DirCursor) : DirOutput × DirCursor :=
  match c.results with
  | none => (.error closedDirectory, c)
  | some (all, rest, closeStatus) => k all rest closeStatus

/-- One method call on the cursor. -/
def cursorMethod : DirMethod → DirCursor → DirOutput × DirCursor
  | .entries, c => c.checkOpen fun _ _ _ => (.iterator, c)
  | .read, c => c.checkOpen fun all rest closeStatus =>
    (.read (Cursor.read rest).1, { c with results := some (all, (Cursor.read rest).2, closeStatus) })
  | .rewind, c => c.checkOpen fun all _ closeStatus =>
    (.status .success, { c with results := some (all, all, closeStatus) })
  | .tostring, c =>
    (.text ((if c.results.isNone then "closed " else "") ++ "directory (" ++ c.filepath ++ ")"), c)
  | .close, c => c.checkOpen fun _ _ closeStatus =>
    (.status closeStatus, { c with results := none, ledger := c.ledger.close })

/-- A sequence of method calls on the cursor. -/
def DirCursor.run (c : DirCursor) : List DirMethod → List DirOutput × DirCursor
  | [] => ([], c)
  | m :: ms =>
    let call := cursorMethod m c
    let next := call.2.run ms
    (call.1 :: next.1, next.2)

/-- The cursor a directory object implements: the outcomes of its handle's answers. -/
def DirObject.cursor (d : DirObject) : DirCursor :=
  ⟨d.handle.map fun h => (outcomes h.answers, outcomes h.rest, h.closeStatus), d.filepath, d.ledger⟩

end LuaApr
