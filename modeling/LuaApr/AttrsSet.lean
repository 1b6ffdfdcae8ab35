import LuaApr.Apr

/-!
# `apr.file_attrs_set`

`lua_apr_file_attrs_set` walks the attribute table with `lua_next`, turns each
key into a string with `lua_tostring` and compares it with the three attribute
names. This file runs that loop over every traversal of every table, and
follows what happens to a key that `lua_tostring` cannot convert.
-/

namespace LuaApr

/-- The Lua values a table can hold. Numbers are kept to their integral values,
whose `lua_tostring` form is their decimal digits. -/
inductive LuaValue
  | nil
  | boolean (b : Bool)
  | number (n : ℤ)
  | string (s : String)
  | table (id : ℕ)
  | function (id : ℕ)
  | userdata (id : ℕ)
  deriving DecidableEq, Repr

/-- `lua_tostring`: strings and numbers convert, every other value gives `NULL`. -/
def luaToString : LuaValue → Option String
  | .string s => some s
  | .number n => some (toString n)
  | _ => none

/-- `lua_toboolean`: only `nil` and `false` are false. -/
def luaToBoolean : LuaValue → Bool
  | .nil => false
  | .boolean b => b
  | _ => true

/-- `APR_FILE_ATTR_READONLY` of `apr_file_info.h`. -/
def attrReadonly : ℕ := 1

/-- `APR_FILE_ATTR_EXECUTABLE` of `apr_file_info.h`. -/
def attrExecutable : ℕ := 2

/-- `APR_FILE_ATTR_HIDDEN` of `apr_file_info.h`. -/
def attrHidden : ℕ := 4

/-- How `lua_apr_file_attrs_set` ends, once its path and table arguments are checked. -/
inductive AttrsSetResult
  /-- `apr_file_attrs_set` is called with `attributes` and `valid`. -/
  | call (attributes valid : ℕ)
  /-- `luaL_argerror` on argument `arg` with message `msg`. -/
  | argError (arg : ℕ) (msg : String)
  /-- `strcmp` is reached with the `NULL` key of `lua_tostring`: undefined behaviour. -/
  | strcmpNull
  deriving DecidableEq, Repr

/-- One recognised key: its bit joins `valid`, and joins `attributes` when the
value is true. -/
def setAttr (bit : ℕ) (value : LuaValue) (acc : ℕ × ℕ) : ℕ × ℕ :=
  (if luaToBoolean value then acc.1 ||| bit else acc.1, acc.2 ||| bit)

/-- The `lua_next` loop over the key/value pairs in traversal order, from the
accumulated `(attributes, valid)`. -/
def attrsSetLoop (acc : ℕ × ℕ) : List (LuaValue × LuaValue) → AttrsSetResult
  | [] => .call acc.1 acc.2
  | (k, v) :: rest =>
    match luaToString k with
    | none => .strcmpNull
    | some key =>
      if key = "readonly" then attrsSetLoop (setAttr attrReadonly v acc) rest
      else if key = "hidden" then attrsSetLoop (setAttr attrHidden v acc) rest
      else if key = "executable" then attrsSetLoop (setAttr attrExecutable v acc) rest
      else .argError 2 ("invalid key '" ++ key ++ "'")

/-- `lua_apr_file_attrs_set` on a table traversed in the order of `pairs`. -/
def luaAprFileAttrsSet (pairs : List (LuaValue × LuaValue)) : AttrsSetResult :=
  attrsSetLoop (0, 0) pairs

/-- A table with the single entry `[true] = true`: the loop hands `strcmp` the
`NULL` that `lua_tostring` returns for a boolean key. -/
theorem attrs_set_boolean_key_strcmp_null :
    luaAprFileAttrsSet [(.boolean true, .boolean true)] = .strcmpNull :=
  rfl

end LuaApr
