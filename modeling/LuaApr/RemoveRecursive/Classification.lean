import LuaApr.RemoveRecursive.Machine

/-!
# How an entry is classified

After `apr_dir_read` the loop skips `.` and `..`, pushes an entry typed
`APR_DIR` onto `todo` and removes every other entry. It reads `info.filetype`
without looking at `info.valid`, so an `APR_INCOMPLETE` result without
`APR_FINFO_TYPE` is classified by the type of the entry read before it, where
`dir_read` of the same file checks the `valid` mask first.
-/

namespace LuaApr.RemoveRecursive

/-- A successful or incomplete read of a named entry that reports its type `t`
sends the entry to the merge of its own kind. -/
theorem step_readDir_typed {m : Mach} (hpc : m.pc = .readDir) {r : Response}
    (hst : r.status = .success ∨ r.status = .incomplete) {t : Filetype}
    (ht : r.info.filetype = some t) (hn : filenameSymbolic r.info.name = false) :
    (m.step r).pc = (if t = .dir then .mergeDir else .mergeFile) ∧ (m.step r).name.val = r.info.name ∧
      (m.step r).filetype = t := by
  have h1 : r.status ≠ .enoent := by rcases hst with h | h <;> simp [h]
  have h2 : ¬(r.status ≠ .success ∧ r.status ≠ .incomplete) := by tauto
  simp only [Mach.step, hpc, Mach.emit, h1, h2, Mach.alloc, ht, Option.getD_some, hn, if_false,
    Bool.false_eq_true]
  split_ifs <;> simp_all

/-- On `d` holding the directory `a` and then an entry `b` whose read is
incomplete and carries no type, `b` is pushed onto `todo` as a directory: its
class is the type left over from `a`. -/
theorem untyped_entry_pushed_as_directory :
    ((Mach.init ["d"] .reg).run [.ok, .ok, .ok, .ok, ⟨.success, ⟨"a", some .dir⟩⟩, .ok,
      ⟨.incomplete, ⟨"b", none⟩⟩, .ok]).todo.map (·.val) = [["d", "b"], ["d", "a"]] :=
  rfl

end LuaApr.RemoveRecursive
