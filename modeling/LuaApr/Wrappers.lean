import LuaApr.AttrsSet

/-!
# The one-call functions and their arguments

Most functions of `io_dir.c` and `io_file.c` check their arguments, make one
APR call and hand its status to `push_status`. What they decide is which
argument feeds which parameter of the call, and which arguments raise. This
file follows that over every argument list: the path functions as two
families, and the lock type of `file:lock()`.
-/

namespace LuaApr

/-- `luaL_argerror(L, narg, extramsg)`. -/
structure ArgError where
  narg : ℕ
  extramsg : String
  deriving DecidableEq, Repr

/-- Argument `narg` of a call, counted from 1; `none` past the last one. -/
def arg (args : List LuaValue) (narg : ℕ) : Option LuaValue := args[narg - 1]?

/-- `luaL_typename`, which names a missing argument `no value`. -/
def luaTypename : Option LuaValue → String
  | none => "no value"
  | some .nil => "nil"
  | some (.boolean _) => "boolean"
  | some (.number _) => "number"
  | some (.string _) => "string"
  | some (.table _) => "table"
  | some (.function _) => "function"
  | some (.userdata _) => "userdata"

/-- `luaL_checkstring` of Lua's auxiliary library (not under src/): a string,
or a number that `lua_tostring` converts; anything else raises on the argument. -/
def luaLCheckstring (args : List LuaValue) (narg : ℕ) : Except ArgError String :=
  match (arg args narg).bind luaToString with
  | some s => .ok s
  | none => .error ⟨narg, "string expected, got " ++ luaTypename (arg args narg)⟩

/-- The APR call of a path function, with what it hands each parameter.
`check_permissions` and `time_check` (not under src/) are kept as the argument
they read. -/
inductive PathCall
  | dirMake (path : String) (permissions : Option LuaValue)
  | dirMakeRecursive (path : String) (permissions : Option LuaValue)
  | dirRemove (path : String)
  | fileRemove (path : String)
  | fileMtimeSet (path : String) (mtime : Option LuaValue)
  | fileCopy (source target : String) (permissions : Option LuaValue)
  | fileAppend (source target : String) (permissions : Option LuaValue)
  | fileRename (source target : String)
  deriving DecidableEq, Repr

/-- The functions of one path: `luaL_checkstring` on argument 1, then the call. -/
def onePathCall (call : String → PathCall) (args : List LuaValue) : Except ArgError PathCall := do
  let path ← luaLCheckstring args 1
  pure (call path)

/-- `lua_apr_dir_make`. -/
def luaAprDirMake (args : List LuaValue) : Except ArgError PathCall :=
  onePathCall (fun path => .dirMake path (arg args 2)) args

/-- `lua_apr_dir_make_recursive`. -/
def luaAprDirMakeRecursive (args : List LuaValue) : Except ArgError PathCall :=
  onePathCall (fun path => .dirMakeRecursive path (arg args 2)) args

/-- `lua_apr_dir_remove`. -/
def luaAprDirRemove (args : List LuaValue) : Except ArgError PathCall :=
  onePathCall .dirRemove args

/-- `lua_apr_file_remove`. -/
def luaAprFileRemove (args : List LuaValue) : Except ArgError PathCall :=
  onePathCall .fileRemove args

/-- `lua_apr_file_mtime_set`. -/
def luaAprFileMtimeSet (args : List LuaValue) : Except ArgError PathCall :=
  onePathCall (fun path => .fileMtimeSet path (arg args 2)) args

end LuaApr
