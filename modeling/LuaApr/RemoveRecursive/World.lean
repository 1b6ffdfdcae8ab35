import LuaApr.RemoveRecursive.FileSystem

/-!
# The removal against a file system

Here the answers come from a file system that nothing else changes. It opens a
directory by taking the list of its entries, in an order given per directory,
and hands them out one read at a time with their `lstat` types; it unlinks a
node that is not a directory and removes a directory that has no entries. The
function and the file system then run together, one call at a time.
-/

namespace LuaApr.RemoveRecursive

/-- The file system without the node at `p`. -/
def Fs.erase (fs : Fs) (p : Path) : Fs := ⟨fs.entries.filter fun e => e.1 != p⟩

/-- Whether `q` names an entry of the directory `p`. -/
def childOf (p q : Path) : Bool := q.length == p.length + 1 && p.isPrefixOf q

/-- Whether the directory `p` has an entry in `fs`. -/
def Fs.hasEntry (fs : Fs) (p : Path) : Bool := fs.entries.any fun e => childOf p e.1

/-- The file system's side of a run: its nodes, and the directory it has open
with the entries still to be read. -/
structure World where
  fs : Fs
  cursor : Option (Path × List String)
  deriving DecidableEq, Repr

/-- The answer of the file system to a call, and the file system after it.
`order p` is the order in which `apr_dir_read` hands out the entries of `p`. -/
def World.answer (order : Path → List String) (w : World) : Call → Response × World
  | .dirOpen p =>
    match w.fs.kind p.val with
    | some .dir => (.ok, { w with cursor := some (p.val, order p.val) })
    | some _ => (⟨.other 20, ⟨"", none⟩⟩, w)
    | none => (⟨.enoent, ⟨"", none⟩⟩, w)
  | .dirRead _ =>
    match w.cursor with
    | some (p, n :: rest) =>
      (⟨.success, ⟨n, if filenameSymbolic n then some .dir else w.fs.kind (p ++ [n])⟩⟩,
        { w with cursor := some (p, rest) })
    | _ => (⟨.enoent, ⟨"", none⟩⟩, w)
  | .fileRemove p =>
    match w.fs.kind p.val with
    | some .dir => (⟨.other 21, ⟨"", none⟩⟩, w)
    | some _ => (.ok, { w with fs := w.fs.erase p.val })
    | none => (⟨.enoent, ⟨"", none⟩⟩, w)
  | .dirClose _ => (.ok, { w with cursor := none })
  | .dirRemove p =>
    if w.fs.kind p.val = some .dir ∧ w.fs.hasEntry p.val = false then
      (.ok, { w with fs := w.fs.erase p.val })
    else (⟨.other 39, ⟨"", none⟩⟩, w)
  | _ => (.ok, w)

/-- The function and the file system together. -/
structure Sys where
  mach : Mach
  world : World

/-- One call: the function's pending call is answered by the file system. -/
def Sys.step (order : Path → List String) (s : Sys) : Sys :=
  match s.mach.pending with
  | some c => ⟨s.mach.step (s.world.answer order c).1, (s.world.answer order c).2⟩
  | none => s

/-- `n` calls. -/
def Sys.run (order : Path → List String) : ℕ → Sys → Sys
  | 0, s => s
  | n + 1, s => (s.step order).run order n

/-- The run of `lua_apr_dir_remove_recursive root` on `fs`. -/
def Sys.init (fs : Fs) (root : Path) (filetype : Filetype) : Sys :=
  ⟨Mach.init root filetype, ⟨fs, none⟩⟩

theorem Sys.run_add (order : Path → List String) (a b : ℕ) (s : Sys) :
    s.run order (a + b) = (s.run order a).run order b := by
  induction a generalizing s with
  | zero => rw [Nat.zero_add]; rfl
  | succ a ih => rw [Nat.add_right_comm]; exact ih _

/-- Once the function has returned, further calls change nothing. -/
theorem Sys.run_of_returned (order : Path → List String) {s : Sys} (h : s.mach.pc = .returned) :
    ∀ n, s.run order n = s
  | 0 => rfl
  | n + 1 => by
    have hstep : s.step order = s := by simp [Sys.step, Mach.pending, h]
    rw [Sys.run, hstep, Sys.run_of_returned order h n]

/-- The path a call removes. -/
def Call.removedPath : Call → Option Path
  | .fileRemove p | .dirRemove p => some p.val
  | _ => none

/-- Whether a log removed the node at `q` by a successful call. -/
def removed (q : Path) (log : List Event) : Bool :=
  log.any fun e => decide (e.response.status = .success ∧ e.call.removedPath = some q)

/-- Every successful `apr_dir_remove` of the log comes after the removal of
every node the directory had in `fs₀`. -/
def EntriesFirst (fs₀ : Fs) : List Event → Prop
  | [] => True
  | e :: log => EntriesFirst fs₀ log ∧ ∀ p, e.call = .dirRemove p → e.response.status = .success →
      ∀ q, childOf p.val q → fs₀.kind q ≠ none → removed q log

section Lookup

variable {fs : Fs} {p q : Path}

theorem Fs.kind_erase : (fs.erase p).kind q = if q = p then none else fs.kind q := by
  obtain ⟨entries⟩ := fs
  simp only [Fs.erase, Fs.kind]
  induction entries with
  | nil => split <;> rfl
  | cons e entries ih =>
    obtain ⟨k, b⟩ := e
    by_cases hk : k = p
    · subst hk
      rw [List.filter_cons_of_neg (by simp), ih]
      by_cases hq : q = k
      · simp [hq]
      · simp [hq, List.lookup_cons, show (q == k) = false by simpa using hq]
    · rw [List.filter_cons_of_pos (by simpa using hk)]
      by_cases hq : q = k
      · subst hq
        simp [hk]
      · simp [List.lookup_cons, show (q == k) = false by simpa using hq, ih]

theorem Fs.mem_of_kind {t : Filetype} (h : fs.kind q = some t) : (q, t) ∈ fs.entries := by
  obtain ⟨l₁, l₂, hl, -⟩ := List.lookup_eq_some_iff.mp h
  rw [hl]
  exact List.mem_append_right l₁ (List.mem_cons_self _ _)

theorem Fs.kind_ne_none_iff : fs.kind q ≠ none ↔ q ∈ fs.entries.map Prod.fst := by
  rw [Fs.kind, Ne, List.lookup_eq_none_iff, List.mem_map]
  constructor
  · intro h
    by_contra hn
    exact h fun e he => bne_iff_ne.mpr fun hq => hn ⟨e, he, hq.symm⟩
  · rintro ⟨e, he, rfl⟩ h
    exact bne_iff_ne.mp (h e he) rfl

theorem Fs.kind_of_mem {t : Filetype} (hnd : (fs.entries.map Prod.fst).Nodup) (h : (q, t) ∈ fs.entries) :
    fs.kind q = some t := by
  obtain ⟨entries⟩ := fs
  simp only [Fs.kind] at hnd ⊢
  induction entries with
  | nil => simp at h
  | cons e entries ih =>
    obtain ⟨k, b⟩ := e
    simp only [List.map_cons, List.nodup_cons] at hnd
    rcases List.mem_cons.mp h with he | h
    · cases he
      exact List.lookup_cons_self
    · have hq : q ≠ k := fun hq => hnd.1 (hq ▸ List.mem_map_of_mem Prod.fst h)
      rw [List.lookup_cons, show (q == k) = false by simpa using hq]
      exact ih hnd.2 h

theorem Fs.kind_none_of_hasEntry (h : fs.hasEntry p = false) (hq : childOf p q) : fs.kind q = none := by
  by_contra hk
  obtain ⟨e, he, rfl⟩ := List.mem_map.mp (Fs.kind_ne_none_iff.mp hk)
  have := List.any_eq_false.mp h e he
  simp_all

end Lookup

/-- The answer removes exactly the node its call removes when it succeeds. -/
theorem World.answer_kind (order : Path → List String) (w : World) (c : Call) (q : Path) :
    (w.answer order c).2.fs.kind q =
      if (w.answer order c).1.status = .success ∧ c.removedPath = some q then none else w.fs.kind q := by
  have herase : ∀ p : Path, (w.fs.erase p).kind q = if p = q then none else w.fs.kind q := fun p => by
    rw [Fs.kind_erase]
    by_cases hq : q = p <;> simp [hq, Ne.symm]
  cases c with
  | fileRemove p =>
    simp only [World.answer, Call.removedPath, Option.some.injEq]
    cases hk : w.fs.kind p.val with
    | none => simp
    | some t => cases t <;> simp [herase, Response.ok]
  | dirRemove p =>
    simp only [World.answer, Call.removedPath, Option.some.injEq]
    by_cases hc : w.fs.kind p.val = some .dir ∧ w.fs.hasEntry p.val = false
    · simp [hc, herase, Response.ok]
    · simp [hc]
  | dirOpen p =>
    simp only [World.answer, Call.removedPath, reduceCtorEq, and_false, if_false]
    split <;> rfl
  | dirRead h =>
    simp only [World.answer, Call.removedPath, reduceCtorEq, and_false, if_false]
    split <;> rfl
  | _ => simp [World.answer, Call.removedPath]

/-- A successful `apr_dir_remove` found its directory without entries. -/
theorem World.answer_dirRemove (order : Path → List String) (w : World) (p : Tagged Path)
    (h : (w.answer order (.dirRemove p)).1.status = .success) : w.fs.hasEntry p.val = false := by
  simp only [World.answer] at h
  split at h
  · simp_all
  · simp at h

theorem removed_cons (q : Path) (e : Event) (log : List Event) :
    removed q (e :: log) = ((e.response.status = .success ∧ e.call.removedPath = some q : Prop) || removed q log) := by
  simp [removed]

theorem removed_append_void {q : Path} {hs log : List Event} (hv : ∀ e ∈ hs, e.IsVoid) :
    removed q (hs ++ log) = removed q log := by
  induction hs with
  | nil => rfl
  | cons e hs ih =>
    obtain ⟨_, hc⟩ := hv e (by simp)
    rw [List.cons_append, removed_cons, ih fun e he => hv e (by simp [he])]
    revert hc
    cases e.call <;> simp [Call.removedPath]

theorem EntriesFirst.append_void {fs₀ : Fs} {hs log : List Event} (h : EntriesFirst fs₀ log)
    (hv : ∀ e ∈ hs, e.IsVoid) : EntriesFirst fs₀ (hs ++ log) := by
  induction hs with
  | nil => exact h
  | cons e hs ih =>
    obtain ⟨_, hc⟩ := hv e (by simp)
    refine ⟨ih fun e he => hv e (by simp [he]), fun p hp => ?_⟩
    rw [hp] at hc
    exact hc.elim

/-- The file system's side of every run from `fs₀`: its nodes are those of
`fs₀` that no successful call removed, and every successful `apr_dir_remove`
came after the removal of every node of its directory. -/
structure WorldInv (fs₀ : Fs) (s : Sys) : Prop where
  fsRemoved : ∀ q, s.world.fs.kind q = if removed q s.mach.log then none else fs₀.kind q
  entriesFirst : EntriesFirst fs₀ s.mach.log

theorem WorldInv.step {fs₀ : Fs} {s : Sys} (h : WorldInv fs₀ s) (order : Path → List String) :
    WorldInv fs₀ (s.step order) := by
  unfold Sys.step
  cases hp : s.mach.pending with
  | none => exact h
  | some c =>
    obtain ⟨hs, hv, hlog⟩ := s.mach.step_log hp (s.world.answer order c).1
    simp only [Mach.emit_log] at hlog
    refine ⟨fun q => ?_, ?_⟩
    · simp only [hlog, removed_append_void hv, removed_cons, World.answer_kind, h.fsRemoved q]
      by_cases h1 : (s.world.answer order c).1.status = .success ∧ c.removedPath = some q <;>
        simp [h1]
    · rw [hlog]
      refine EntriesFirst.append_void ⟨h.entriesFirst, fun p hc hst q hq hk => ?_⟩ hv
      subst hc
      have hnone := Fs.kind_none_of_hasEntry (World.answer_dirRemove order s.world p hst) hq
      rw [h.fsRemoved q] at hnone
      by_contra hr
      simp [hr, hk] at hnone

theorem WorldInv.init (fs₀ : Fs) (root : Path) (filetype : Filetype) :
    WorldInv fs₀ (Sys.init fs₀ root filetype) :=
  ⟨fun q => by simp [Sys.init, Mach.init, removed], trivial⟩

theorem WorldInv.run {fs₀ : Fs} {s : Sys} (h : WorldInv fs₀ s) (order : Path → List String) :
    ∀ n, WorldInv fs₀ (s.run order n)
  | 0 => h
  | n + 1 => (h.step order).run order n

end LuaApr.RemoveRecursive
