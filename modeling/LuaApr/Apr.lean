import Mathlib.Data.List.Basic

/-!
# The APR vocabulary of the binding

The Lua/APR binding drives the Apache Portable Runtime through status codes,
file types and directory entries. This file fixes the part of that vocabulary
which the modelled functions of `io_dir.c` and `io_file.c` read, and the answer
an APR call hands back to them.
-/

namespace LuaApr

/-- The values of `apr_status_t` that the modelled code tells apart. Every
status other than `success` is an error, except that `apr_dir_read` also
reports `incomplete` (some fields missing) and `enoent` (no more entries). -/
inductive Status
  | success
  | incomplete
  | enoent
  | enomem
  | other (code : ℕ)
  deriving DecidableEq, Repr

/-- `apr_filetype_e`, the type `lstat` reports for a node. -/
inductive Filetype
  | nofile | reg | dir | chr | blk | pipe | lnk | sock | unkfile
  deriving DecidableEq, Repr

/-- A path as its list of components. Merging a base with an entry name, as
`apr_filepath_merge` does with flags `0` for a name without separators, appends
the name. -/
abbrev Path := List String

/-- Modelled from the spec: `filename_symbolic`, a macro of `lua_apr.h` (not
under src/), tells the self and parent markers `.` and `..` apart from the
entries a directory really holds. -/
def filenameSymbolic (name : String) : Bool :=
  name == "." || name == ".."

/-- The fields of `apr_finfo_t` the binding reads after `apr_dir_read`. The
file type is `none` when `APR_FINFO_TYPE` is missing from the `valid` mask;
`apr_dir_read` then leaves `info.filetype` as it was. -/
structure Finfo where
  name : String
  filetype : Option Filetype
  deriving DecidableEq, Repr

/-- The answer of an APR call: its status, and for `apr_dir_read` the entry it
filled in. Calls that fill in no entry leave `info` at its default. -/
structure Response where
  status : Status
  info : Finfo := ⟨"", none⟩
  deriving DecidableEq, Repr

/-- The answer of a call that succeeds and fills in nothing. -/
def Response.ok : Response := ⟨.success, ⟨"", none⟩⟩

/-- Modelled from the spec: `push_status` (in `lua_apr.c`, not under src/)
returns `true` to Lua for `APR_SUCCESS`, and otherwise `nil` followed by the
error. -/
def pushStatus (status : Status) : Except Status Bool :=
  if status = .success then .ok true else .error status

end LuaApr
