import LuaApr.Apr

/-!
# `file:seek()` over the read buffer

A file object reads ahead into a buffer, so the operating system's cursor
stands `limit - index` bytes past the position Lua sees. `file_seek` asks APR
for the cursor, computes where the buffer starts, seeks, and then either keeps
the buffer with a new index or drops it. This file follows that arithmetic on
a file opened without `APR_FOPEN_BUFFERED`, where `apr_file_seek` is an `lseek`.
-/

namespace LuaApr

/-- `apr_seek_where_t`, after `luaL_checkoption` has mapped `"set"`, `"cur"` and
`"end"` to it. -/
inductive SeekWhere
  | aprSet | aprCur | aprEnd
  deriving DecidableEq, Repr

/-- `apr_file_seek` on an unbuffered file of `size` bytes whose cursor is at
`pos`: the cursor moves to the target, and a negative target fails with
`EINVAL` as `lseek` does. On success the target is returned. -/
def aprFileSeek (size : ℕ) (pos : ℤ) (where_ : SeekWhere) (offset : ℤ) : Except Status ℤ :=
  let target := match where_ with
    | .aprSet => offset
    | .aprCur => pos + offset
    | .aprEnd => size + offset
  if target < 0 then .error (.other 22) else .ok target

/-- A file object as `file_seek` sees it: the bytes of the file, the operating
system's cursor, the `limit` valid bytes of the buffer and the buffer's `index`. -/
structure SeekFile where
  content : List UInt8
  pos : ℤ
  data : List UInt8
  index : ℕ
  deriving DecidableEq, Repr

namespace SeekFile

/-- The position Lua sees: the start of the buffer plus its index. -/
def logical (f : SeekFile) : ℤ := f.pos - f.data.length + f.index

/-- The buffer window: the index lies in the buffer, and the buffer holds the
bytes of the file just before the cursor. -/
def Window (f : SeekFile) : Prop :=
  f.index ≤ f.data.length ∧ (f.data.length : ℤ) ≤ f.pos ∧
    f.data = (f.content.drop (f.pos - f.data.length).toNat).take f.data.length

instance (f : SeekFile) : Decidable f.Window := inferInstanceAs (Decidable (_ ∧ _ ∧ _))

end SeekFile

/-- `file_seek` on an open file: the result Lua gets, with the file after the
call. A failed `apr_file_seek` returns its status and leaves the file as it was. -/
def fileSeek (f : SeekFile) (where_ : SeekWhere) (offset : ℤ) : Except Status (ℤ × SeekFile) := do
  let endOfBuf ← aprFileSeek f.content.length f.pos .aprCur 0
  let startOfBuf := endOfBuf - f.data.length
  let (where_, offset) :=
    if where_ = .aprCur then (SeekWhere.aprSet, offset + (startOfBuf + f.index)) else (where_, offset)
  let offset ← aprFileSeek f.content.length f.pos where_ offset
  let f := { f with pos := offset }
  if startOfBuf ≤ offset ∧ offset ≤ endOfBuf then
    pure (offset, { f with index := (offset - startOfBuf).toNat })
  else
    pure (offset, { f with index := 0, data := [] })

/-- A 10-byte file read four bytes in, with the whole file in the buffer: the
cursor stands at 10, and `seek('set', 8)` returns 8 but leaves the cursor at 8
with `limit` still 10, so the next `seek('cur', 0)` returns 6. -/
theorem seek_into_buffer_then_cur :
    (⟨[0, 1, 2, 3, 4, 5, 6, 7, 8, 9], 10, [0, 1, 2, 3, 4, 5, 6, 7, 8, 9], 4⟩ : SeekFile).Window ∧
      fileSeek ⟨[0, 1, 2, 3, 4, 5, 6, 7, 8, 9], 10, [0, 1, 2, 3, 4, 5, 6, 7, 8, 9], 4⟩ .aprSet 8 =
        .ok (8, ⟨[0, 1, 2, 3, 4, 5, 6, 7, 8, 9], 8, [0, 1, 2, 3, 4, 5, 6, 7, 8, 9], 8⟩) ∧
      (fileSeek ⟨[0, 1, 2, 3, 4, 5, 6, 7, 8, 9], 8, [0, 1, 2, 3, 4, 5, 6, 7, 8, 9], 8⟩ .aprCur 0).map
        Prod.fst = .ok 6 :=
  ⟨by decide, rfl, rfl⟩

namespace SeekFile

/-- Modelled from the spec: reading to the end of the file (`read_buffer` of
`buffer.c`, not under src/, with the format `*a`) hands out the bytes of the
buffer from its index, then the bytes of the file from the operating system's
cursor on. -/
def readAll (f : SeekFile) : List UInt8 := f.data.drop f.index ++ f.content.drop f.pos.toNat

/-- Within a buffer window, reading to the end gives the file from the position
Lua sees. -/
theorem Window.readAll_eq {f : SeekFile} (hw : f.Window) :
    f.readAll = f.content.drop f.logical.toNat := by
  obtain ⟨hidx, hlen, hdata⟩ := hw
  have hpos : f.pos.toNat = (f.pos - f.data.length).toNat + f.index + (f.data.length - f.index) := by
    omega
  have hlog : f.logical.toNat = (f.pos - f.data.length).toNat + f.index := by
    simp only [logical]
    omega
  rw [readAll, hlog, show f.data.drop f.index = _ from congrArg (List.drop f.index) hdata,
    List.drop_take, List.drop_drop, hpos, ← List.drop_drop (f.data.length - f.index),
    List.take_append_drop]

end SeekFile

end LuaApr
