import LuaApr.RemoveRecursive.Steps

/-!
# The file system under the removal

A file system is a finite list of paths with their `lstat` types. The answers
it can give to `lua_apr_dir_remove_recursive` are those in which every entry
read from a directory is `.`, `..` or a node of that directory, reported with
its `lstat` type; any call may fail. The nodes below a root are those reached
through directories only, by names other than `.` and `..`.
-/

namespace LuaApr.RemoveRecursive

/-- A file system: the `lstat` type of every node, one entry per path. -/
structure Fs where
  entries : List (Path × Filetype)
  deriving DecidableEq, Repr

/-- The `lstat` type of a path, `none` where nothing exists. -/
def Fs.kind (fs : Fs) (p : Path) : Option Filetype := fs.entries.lookup p

/-- The nodes reachable from `root` through entries other than `.` and `..`,
passing through directories only, never through a symbolic link. -/
inductive Below (fs : Fs) (root : Path) : Path → Prop
  | root : Below fs root root
  | child {p : Path} {n : String} {t : Filetype} : Below fs root p → fs.kind p = some .dir →
      filenameSymbolic n = false → fs.kind (p ++ [n]) = some t → Below fs root (p ++ [n])

/-- Whether `fs` can give answer `r` to the call `m` waits for: an entry read
from the directory `filepath` is `.`, `..` or one of its nodes with its type. -/
def Mach.answers (fs : Fs) (m : Mach) (r : Response) : Bool :=
  !(m.pc == .readDir && (r.status == .success || r.status == .incomplete)) ||
    filenameSymbolic r.info.name ||
    (r.info.filetype.isSome && fs.kind (m.filepath.val ++ [r.info.name]) == r.info.filetype)

/-- The states the function reaches on `fs` from its entry for `root`. -/
inductive ReachableOn (fs : Fs) (root : Path) : Mach → Prop
  | init (filetype : Filetype) : ReachableOn fs root (Mach.init root filetype)
  | step {m : Mach} (r : Response) : ReachableOn fs root m → m.answers fs r →
      ReachableOn fs root (m.step r)

/-- Whether every answer of a sequence is one `fs` can give where it is given. -/
def Mach.answersAll (fs : Fs) (m : Mach) : List Response → Bool
  | [] => true
  | r :: rs => m.answers fs r && (m.step r).answersAll fs rs

theorem ReachableOn.run {fs : Fs} {root : Path} {m : Mach} (h : ReachableOn fs root m) :
    ∀ rs : List Response, m.answersAll fs rs → ReachableOn fs root (m.run rs)
  | [], _ => h
  | r :: rs, hrs => by
    simp only [Mach.answersAll, Bool.and_eq_true] at hrs
    exact (h.step r hrs.1).run rs hrs.2

theorem ReachableOn.reachable {fs : Fs} {root : Path} {m : Mach} (h : ReachableOn fs root m) :
    Reachable root m := by
  induction h with
  | init filetype => exact .init filetype
  | step r _ _ ih => exact ih.step r

/-- An answered read of a named entry reports the entry's own type. -/
theorem Mach.answers_read {fs : Fs} {m : Mach} {r : Response} (h : m.answers fs r)
    (hpc : m.pc = .readDir) (hst : r.status = .success ∨ r.status = .incomplete)
    (hn : filenameSymbolic r.info.name = false) :
    ∃ t, r.info.filetype = some t ∧ fs.kind (m.filepath.val ++ [r.info.name]) = some t := by
  simp only [Mach.answers, hpc, hn, beq_self_eq_true, Bool.true_and, Bool.false_or, Bool.or_eq_true,
    Bool.not_eq_true', Bool.and_eq_true, beq_iff_eq, Option.isSome_iff_exists] at h
  rcases h with h | ⟨⟨t, ht⟩, hk⟩
  · rcases hst with hst | hst <;> simp [hst] at h
  · exact ⟨t, ht, hk.trans ht⟩

end LuaApr.RemoveRecursive
