import LuaApr.RemoveRecursive.World
import Mathlib.Data.List.Nodup

/-!
# Directory trees and their listings

The removal is meant for a file system whose nodes below the root form a tree:
each of them is an entry, other than `.` and `..`, of a directory. What
`apr_dir_read` hands out for a directory is its entries in any order, each
once, with `.` and `..` anywhere or not at all. Both conditions are decidable,
so that they can be checked on a concrete tree.
-/

namespace LuaApr.RemoveRecursive

/-- `fs` is a tree at `root`: `root` is a directory, no path has two entries,
and every node strictly below `root` is an entry of a directory, named by
something other than `.` and `..`. -/
structure Fs.TreeAt (fs : Fs) (root : Path) : Prop where
  rootDir : fs.kind root = some .dir
  nodup : (fs.entries.map Prod.fst).Nodup
  parent : ∀ e ∈ fs.entries, root <+: e.1 → e.1 ≠ root →
    fs.kind e.1.dropLast = some .dir ∧ ∀ n ∈ e.1.getLast?, filenameSymbolic n = false

instance (fs : Fs) (root : Path) : Decidable (fs.TreeAt root) :=
  decidable_of_iff (_ ∧ _ ∧ _) ⟨fun ⟨a, b, c⟩ => ⟨a, b, c⟩, fun ⟨a, b, c⟩ => ⟨a, b, c⟩⟩

/-- The names of the entries of the directory `p`. -/
def Fs.names (fs : Fs) (p : Path) : List String :=
  (fs.entries.map Prod.fst).filterMap fun q => if childOf p q then q.getLast? else none

/-- `order` lists the directories of the tree at `root`: the names other than
`.` and `..` that it hands out for a directory are the directory's entries,
each once, in any order. -/
def Listings (fs : Fs) (root : Path) (order : Path → List String) : Prop :=
  ∀ e ∈ fs.entries, root <+: e.1 → e.2 = .dir →
    ((order e.1).filter fun n => !filenameSymbolic n).Perm (fs.names e.1)

instance (fs : Fs) (root : Path) (order : Path → List String) :
    Decidable (Listings fs root order) :=
  inferInstanceAs (Decidable (∀ e ∈ fs.entries, _))

/-- A directory of the subtree at `root`, `root` included. -/
def Fs.SubDir (fs : Fs) (root q : Path) : Prop := root <+: q ∧ fs.kind q = some .dir

section Paths

variable {p q root : Path}

theorem childOf_iff : childOf p q ↔ ∃ n, q = p ++ [n] := by
  constructor
  · simp only [childOf, Bool.and_eq_true, beq_iff_eq, List.isPrefixOf_iff_prefix]
    rintro ⟨hlen, t, rfl⟩
    obtain ⟨n, rfl⟩ := List.length_eq_one.mp (by simpa using hlen)
    exact ⟨n, rfl⟩
  · rintro ⟨n, rfl⟩
    simp [childOf]

@[simp] theorem childOf_append (p : Path) (n : String) : childOf p (p ++ [n]) :=
  childOf_iff.mpr ⟨n, rfl⟩

theorem prefix_of_childOf (h : childOf p q) : p <+: q := by
  obtain ⟨n, rfl⟩ := childOf_iff.mp h
  exact List.prefix_append p [n]

theorem length_of_childOf (h : childOf p q) : q.length = p.length + 1 := by
  obtain ⟨n, rfl⟩ := childOf_iff.mp h
  simp

/-- A node is an entry of one directory only. -/
theorem eq_dropLast_of_childOf (h : childOf p q) : p = q.dropLast := by
  obtain ⟨n, rfl⟩ := childOf_iff.mp h
  simp

/-- A path strictly below `root` is an entry of a directory that is below `root`. -/
theorem prefix_dropLast (h : root <+: q) (hne : q ≠ root) : root <+: q.dropLast := by
  have hlen : root.length < q.length := lt_of_le_of_ne h.length_le fun hl => hne (h.eq_of_length hl).symm
  exact List.prefix_of_prefix_length_le h (List.dropLast_prefix q) (by simp; omega)

theorem childOf_dropLast (hne : q ≠ []) : childOf q.dropLast q := by
  rw [childOf_iff]
  exact ⟨q.getLast hne, (List.dropLast_append_getLast hne).symm⟩

end Paths

section Lookup

variable {fs : Fs} {q : Path} {t : Filetype}

theorem Fs.mem_names {p : Path} {n : String} : n ∈ fs.names p ↔ fs.kind (p ++ [n]) ≠ none := by
  simp only [Fs.names, List.mem_filterMap, Fs.kind_ne_none_iff]
  constructor
  · rintro ⟨q, hq, h⟩
    split at h
    · obtain ⟨m, rfl⟩ := childOf_iff.mp ‹_›
      obtain rfl : m = n := by simpa using h
      exact hq
    · cases h
  · intro h
    exact ⟨p ++ [n], h, by simp⟩

theorem Fs.names_nodup (hnd : (fs.entries.map Prod.fst).Nodup) (p : Path) : (fs.names p).Nodup := by
  refine hnd.filterMap fun q q' n hq hq' => ?_
  have hchild : ∀ {q}, n ∈ (if childOf p q then q.getLast? else none) → q = p ++ [n] := by
    intro q h
    split at h
    · obtain ⟨m, rfl⟩ := childOf_iff.mp ‹_›
      simp_all
    · cases h
  rw [hchild hq, hchild hq']

end Lookup

namespace Fs.TreeAt

variable {fs : Fs} {root : Path}

/-- Below `root`, a directory that is not `p` but lies under the directory `p`
lies under a directory entry of `p`. -/
theorem child_toward (ht : fs.TreeAt root) {p : Path} (hp : root <+: p) :
    ∀ (k : ℕ) (q : Path), q.length = p.length + k + 1 → p <+: q → fs.kind q = some .dir →
      ∃ c, childOf p c ∧ fs.kind c = some .dir ∧ c <+: q
  | 0, q, hlen, hpq, hq => ⟨q, by simp [childOf, hlen, List.isPrefixOf_iff_prefix.mpr hpq], hq,
      List.prefix_refl q⟩
  | k + 1, q, hlen, hpq, hq => by
    have hne : q ≠ root := by
      rintro rfl
      have := hp.length_le
      omega
    have hd := (ht.parent _ (Fs.mem_of_kind hq) (hp.trans hpq) hne).1
    have hpd : p <+: q.dropLast :=
      List.prefix_of_prefix_length_le hpq (List.dropLast_prefix q) (by simp; omega)
    obtain ⟨c, hc, hcd, hcq⟩ := child_toward ht hp k q.dropLast (by simp; omega) hpd hd
    exact ⟨c, hc, hcd, hcq.trans (List.dropLast_prefix q)⟩

/-- A node strictly below `root` is an entry of a directory of the subtree. -/
theorem parent_subDir (ht : fs.TreeAt root) {q : Path} {k : Filetype} (hk : fs.kind q = some k)
    (hq : root <+: q) (hne : q ≠ root) : fs.SubDir root q.dropLast ∧ childOf q.dropLast q :=
  ⟨⟨prefix_dropLast hq hne, (ht.parent _ (Fs.mem_of_kind hk) hq hne).1⟩,
    childOf_dropLast (by rintro rfl; exact hne (List.prefix_nil.mp hq).symm)⟩

/-- The names a listing hands out for a directory of the tree, other than `.`
and `..`, are each handed out once. -/
theorem listing_nodup (ht : fs.TreeAt root) {order : Path → List String}
    (hl : Listings fs root order) {p : Path} (hp : fs.SubDir root p) :
    ((order p).filter fun n => !filenameSymbolic n).Nodup :=
  (hl _ (Fs.mem_of_kind hp.2) hp.1 rfl).nodup_iff.mpr (Fs.names_nodup ht.nodup p)

end Fs.TreeAt

/-- A listing of a directory of the tree hands out exactly the names of its entries. -/
theorem Listings.mem {fs : Fs} {root : Path} {order : Path → List String} (hl : Listings fs root order)
    {p : Path} (hp : fs.SubDir root p) {n : String} (hn : filenameSymbolic n = false) :
    n ∈ order p ↔ fs.kind (p ++ [n]) ≠ none := by
  have h : n ∈ (order p).filter (fun n => !filenameSymbolic n) ↔ n ∈ fs.names p :=
    (hl _ (Fs.mem_of_kind hp.2) hp.1 rfl).mem_iff
  simpa [hn, Fs.mem_names] using h


end LuaApr.RemoveRecursive
