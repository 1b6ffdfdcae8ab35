import LuaApr.RemoveRecursive.World

/-!
# The removal returns on every file system

The correctness theorem runs the removal on a tree with right listings. Here
the file system and its listings are anything: a listing may hand out a name
twice, hand out a name that has no node, or leave an entry out, and an entry
whose type the file system cannot tell keeps the type of the entry before it.
The removal still returns, within a number of calls that the listings bound
down to the depth of the file system. The bound is a rank of the joint state
that every call lowers.
-/

namespace LuaApr.RemoveRecursive

/-- The calls the removal spends on the directory `p` with `k` levels below it:
its `apr_dir_open`, one read and at most two more calls per name, the read past
the last name, the close and the two calls of its `apr_dir_remove`, and what it
spends on every name it may push. Below `k` levels an open can only fail. -/
def budget (order : Path → List String) : ℕ → Path → ℕ
  | 0, _ => 1
  | k + 1, p => 5 + (order p).foldr (fun n spent => 3 + budget order k (p ++ [n]) + spent) 0

/-- A bound on the number of components of every path of the file system. -/
def Fs.depth (fs : Fs) : ℕ := fs.entries.foldr (fun e d => e.1.length + 1 + d) 0

section Rank

variable (order : Path → List String) (D : ℕ)

/-- The budget of the directory `p` in a file system of depth `D`. -/
def weight (p : Path) : ℕ := budget order (D - p.length) p

/-- The budgets of the directories on `todo`. -/
def todoWeight (m : Mach) : ℕ := m.todo.foldr (fun t spent => weight order D t.val + spent) 0

/-- What the directories on `todo` and on `done` still cost. -/
def queued (m : Mach) : ℕ := todoWeight order D m + 2 * m.done.length

/-- What the names the open directory has still to hand out may cost. -/
def cursorWeight (m : Mach) (w : World) : ℕ :=
  match w.cursor with
  | some (_, rest) => rest.foldr (fun n spent => 3 + weight order D (m.filepath.val ++ [n]) + spent) 0
  | none => 0

/-- The rank of a joint state: an upper bound on the calls before the return. -/
def rank (s : Sys) : ℕ :=
  match s.mach.pc with
  | .createOuter => weight order D s.mach.filepath.val + 3
  | .createMiddle => weight order D s.mach.filepath.val + 2
  | .createInner => weight order D s.mach.filepath.val + 1
  | .openDir => queued order D s.mach + weight order D s.mach.filepath.val
  | .readDir => queued order D s.mach + 4 + cursorWeight order D s.mach s.world
  | .mergeDir => queued order D s.mach + 5 + cursorWeight order D s.mach s.world +
      weight order D (s.mach.filepath.val ++ [s.mach.name.val])
  | .mergeFile => queued order D s.mach + 6 + cursorWeight order D s.mach s.world
  | .removeFile => queued order D s.mach + 5 + cursorWeight order D s.mach s.world
  | .closeDir => queued order D s.mach + 3
  | .removeDir => queued order D s.mach + 2
  | .cleanupClose => 1
  | .returned => 0

variable {order D}

theorem weight_pos (p : Path) : 0 < weight order D p := by
  unfold weight
  cases D - p.length <;> simp only [budget] <;> omega

/-- Above the depth, a directory costs its open, its names and the rest. -/
theorem weight_of_lt {p : Path} (h : p.length < D) :
    weight order D p = 5 + (order p).foldr (fun n spent => 3 + weight order D (p ++ [n]) + spent) 0 := by
  unfold weight
  obtain ⟨k, hk⟩ : ∃ k, D - p.length = k + 1 := ⟨D - p.length - 1, by omega⟩
  have hchild : ∀ n : String, D - (p ++ [n]).length = k := fun n => by simp; omega
  simp only [hk, budget, hchild]

end Rank

section Labels

variable (order : Path → List String) (D : ℕ) (m : Mach) (w : World)

theorem cursorWeight_congr {m' : Mach} (h : m'.filepath = m.filepath) {w' : World}
    (hw : w'.cursor = w.cursor) : cursorWeight order D m' w' = cursorWeight order D m w := by
  simp only [cursorWeight, h, hw]

theorem rank_destroyPools : rank order D ⟨m.destroyPools, w⟩ = 0 := by
  rw [Mach.destroyPools_eq]
  rfl

theorem rank_cleanup : rank order D ⟨m.cleanup, w⟩ ≤ 1 := by
  rw [Mach.cleanup_eq]
  split
  · exact le_rfl
  · exact (rank_destroyPools order D m w).trans_le (Nat.zero_le 1)

theorem rank_nextEntry :
    rank order D ⟨m.nextEntry, w⟩ = queued order D m + 4 + cursorWeight order D m w := by
  rw [Mach.nextEntry_eq]
  rfl

theorem rank_nextDone : rank order D ⟨m.nextDone, w⟩ ≤ max 1 (queued order D m) := by
  cases h : m.done with
  | nil => rw [Mach.nextDone_nil m h]; exact (rank_cleanup order D m w).trans (le_max_left _ _)
  | cons top rest =>
    rw [Mach.nextDone_cons m h]
    simp only [rank, queued, todoWeight, h, List.length_cons]
    omega

theorem rank_nextDir : rank order D ⟨m.nextDir, w⟩ ≤ max 1 (queued order D m) := by
  cases h : m.todo with
  | nil =>
    rw [Mach.nextDir_nil m h]
    exact (rank_nextDone order D m w).trans (by simp [queued, todoWeight, h])
  | cons top rest =>
    rw [Mach.nextDir_cons m h]
    simp only [rank, queued, todoWeight, h, List.foldr_cons]
    omega

end Labels

section Calls

/-! Each call lowers the rank, whatever its answer: one lemma per program point,
with what the file system's answer does to the cursor where the rank reads it. -/

variable (order : Path → List String) (D : ℕ) {m : Mach} {w : World} (r : Response) (w' : World)

theorem rank_step_createOuter (hpc : m.pc = .createOuter) :
    rank order D ⟨m.step r, w'⟩ < rank order D ⟨m, w⟩ := by
  simp only [Mach.step, hpc]
  split_ifs
  · simp [rank, hpc, Mach.emit]
  · exact (rank_cleanup order D _ w').trans_lt (by simp [rank, hpc])

theorem rank_step_createMiddle (hpc : m.pc = .createMiddle) :
    rank order D ⟨m.step r, w'⟩ < rank order D ⟨m, w⟩ := by
  simp only [Mach.step, hpc]
  split_ifs
  · simp [rank, hpc, Mach.emit]
  · exact (rank_cleanup order D _ w').trans_lt (by simp [rank, hpc])

theorem rank_step_createInner (hpc : m.pc = .createInner) :
    rank order D ⟨m.step r, w'⟩ < rank order D ⟨m, w⟩ := by
  have hw : 0 < weight order D m.filepath.val := weight_pos _
  simp only [Mach.step, hpc]
  split_ifs
  · refine (rank_nextDir order D _ w').trans_lt ?_
    simp only [rank, hpc, queued, todoWeight, Mach.emit, List.foldr_cons, List.foldr_nil, List.length_cons, List.length_nil]
    omega
  · exact (rank_cleanup order D _ w').trans_lt (by simp only [rank, hpc]; omega)

/-- An open that succeeds hands out the listing of the directory, which lies
above the depth. -/
theorem rank_step_openDir (hpc : m.pc = .openDir)
    (hok : r.status = .success →
      w'.cursor = some (m.filepath.val, order m.filepath.val) ∧ m.filepath.val.length < D) :
    rank order D ⟨m.step r, w'⟩ < rank order D ⟨m, w⟩ := by
  simp only [Mach.step, hpc]
  split_ifs with h
  · obtain ⟨hcur, hlen⟩ := hok h
    rw [rank_nextEntry]
    simp [rank, hpc, queued, todoWeight, cursorWeight, hcur, weight_of_lt hlen, Mach.emit]
    omega
  · rw [Mach.cleanup_eq, if_neg (by simp), rank_destroyPools]
    simp only [rank, hpc]
    have : 0 < weight order D m.filepath.val := weight_pos _
    omega

theorem rank_step_mergeDir (hpc : m.pc = .mergeDir) (hw : w'.cursor = w.cursor) :
    rank order D ⟨m.step r, w'⟩ < rank order D ⟨m, w⟩ := by
  simp only [Mach.step, hpc]
  split_ifs
  · rw [rank_nextEntry]
    simp [rank, hpc, queued, todoWeight, Mach.alloc, Mach.emit, cursorWeight_congr order D m w, hw]
    omega
  · exact (rank_cleanup order D _ w').trans_lt (by simp only [rank, hpc]; omega)

theorem rank_step_mergeFile (hpc : m.pc = .mergeFile) (hw : w'.cursor = w.cursor) :
    rank order D ⟨m.step r, w'⟩ < rank order D ⟨m, w⟩ := by
  simp only [Mach.step, hpc]
  split_ifs
  · simp [rank, hpc, queued, todoWeight, Mach.emit, cursorWeight_congr order D m w, hw]
  · exact (rank_cleanup order D _ w').trans_lt (by simp only [rank, hpc]; omega)

theorem rank_step_removeFile (hpc : m.pc = .removeFile) (hw : w'.cursor = w.cursor) :
    rank order D ⟨m.step r, w'⟩ < rank order D ⟨m, w⟩ := by
  simp only [Mach.step, hpc]
  split_ifs
  · rw [rank_nextEntry]
    simp [rank, hpc, queued, todoWeight, Mach.emit, cursorWeight_congr order D m w, hw]
  · exact (rank_cleanup order D _ w').trans_lt (by simp only [rank, hpc]; omega)

theorem rank_step_closeDir (hpc : m.pc = .closeDir) :
    rank order D ⟨m.step r, w'⟩ < rank order D ⟨m, w⟩ := by
  simp only [Mach.step, hpc]
  split_ifs
  · refine (rank_nextDir order D _ w').trans_lt ?_
    simp only [rank, hpc, queued, todoWeight, Mach.emit, List.foldr_cons, List.foldr_nil, List.length_cons, List.length_nil]
    omega
  · exact (rank_cleanup order D _ w').trans_lt (by simp only [rank, hpc]; omega)

theorem rank_step_removeDir (hpc : m.pc = .removeDir) :
    rank order D ⟨m.step r, w'⟩ < rank order D ⟨m, w⟩ := by
  simp only [Mach.step, hpc]
  split_ifs
  · refine (rank_nextDone order D _ w').trans_lt ?_
    simp only [rank, hpc, queued, todoWeight, Mach.emit, List.foldr_cons, List.foldr_nil, List.length_cons, List.length_nil]
    omega
  · exact (rank_cleanup order D _ w').trans_lt (by simp only [rank, hpc]; omega)

theorem rank_step_cleanupClose (hpc : m.pc = .cleanupClose) :
    rank order D ⟨m.step r, w'⟩ < rank order D ⟨m, w⟩ := by
  simp only [Mach.step, hpc, rank_destroyPools]
  simp [rank, hpc]

/-- A read that hands out the name `n` of the cursor. -/
theorem rank_step_readDir_name (hpc : m.pc = .readDir) {p : Path} {n : String} {rest : List String}
    (hcur : w.cursor = some (p, n :: rest)) (hr : r.status = .success ∧ r.info.name = n)
    (hw : w'.cursor = some (p, rest)) :
    rank order D ⟨m.step r, w'⟩ < rank order D ⟨m, w⟩ := by
  have hW : 0 < weight order D (m.filepath.val ++ [n]) := weight_pos _
  simp only [Mach.step, hpc, hr.1, reduceCtorEq, if_false, ne_eq, not_true_eq_false, false_and]
  split_ifs
  · rw [rank_nextEntry]
    simp only [rank, hpc, queued, todoWeight, cursorWeight, hcur, hw, Mach.emit, List.foldr_cons]
    omega
  · simp only [rank, hpc, queued, todoWeight, cursorWeight, hcur, hw, Mach.emit, Mach.alloc, hr.2,
      List.foldr_cons]
    omega
  · simp only [rank, hpc, queued, todoWeight, cursorWeight, hcur, hw, Mach.emit, List.foldr_cons]
    omega

/-- The read past the last name leads to the close. -/
theorem rank_step_readDir_end (hpc : m.pc = .readDir) (hr : r.status = .enoent) :
    rank order D ⟨m.step r, w'⟩ < rank order D ⟨m, w⟩ := by
  simp only [Mach.step, hpc, hr, if_true]
  simp only [rank, hpc, queued, todoWeight, Mach.emit]
  omega

end Calls

section Run

variable (order : Path → List String) {D : ℕ}

/-- An open succeeds only on a directory of the file system, whose listing it
then hands out. -/
theorem World.answer_dirOpen_ok {w : World} {p : Tagged Path}
    (h : (w.answer order (.dirOpen p)).1.status = .success) :
    w.fs.kind p.val = some .dir ∧ (w.answer order (.dirOpen p)).2.cursor = some (p.val, order p.val) := by
  simp only [World.answer] at h ⊢
  split at h <;> simp_all

theorem World.answer_fileRemove_cursor (w : World) (p : Tagged Path) :
    (w.answer order (.fileRemove p)).2.cursor = w.cursor := by
  simp only [World.answer]
  split <;> rfl

/-- Every call before the return lowers the rank, on a file system whose paths
are shorter than `D`. -/
theorem rank_step {s : Sys} (hD : ∀ q, s.world.fs.kind q ≠ none → q.length < D)
    (hpc : s.mach.pc ≠ .returned) : rank order D (s.step order) < rank order D s := by
  obtain ⟨m, w⟩ := s
  cases hp : m.pc
  case returned => exact absurd hp hpc
  all_goals simp only [Sys.step, Mach.pending, hp]
  case readDir =>
    match hcur : w.cursor with
    | some (p, n :: rest) =>
      exact rank_step_readDir_name order D _ _ hp hcur (by simp [World.answer, hcur])
        (by simp [World.answer, hcur])
    | some (p, []) | none => exact rank_step_readDir_end order D _ _ hp (by simp [World.answer, hcur])
  case createOuter => exact rank_step_createOuter order D _ _ hp
  case createMiddle => exact rank_step_createMiddle order D _ _ hp
  case createInner => exact rank_step_createInner order D _ _ hp
  case openDir =>
    refine rank_step_openDir order D _ _ hp fun h => ?_
    obtain ⟨hk, hcur⟩ := World.answer_dirOpen_ok order h
    exact ⟨hcur, hD _ (by simp [hk])⟩
  case mergeDir => exact rank_step_mergeDir order D _ _ hp rfl
  case mergeFile => exact rank_step_mergeFile order D _ _ hp rfl
  case removeFile => exact rank_step_removeFile order D _ _ hp (World.answer_fileRemove_cursor order w _)
  case closeDir => exact rank_step_closeDir order D _ _ hp
  case removeDir => exact rank_step_removeDir order D _ _ hp
  case cleanupClose => exact rank_step_cleanupClose order D _ _ hp

theorem rank_pos {s : Sys} (h : s.mach.pc ≠ .returned) : 0 < rank order D s := by
  obtain ⟨m, w⟩ := s
  have : 0 < weight order D m.filepath.val := weight_pos _
  cases hp : m.pc <;> simp only [rank, hp] <;> first | omega | exact absurd hp h

/-- From a state of rank at most `n`, `n` calls reach the return. -/
theorem run_returned_of_rank {fs₀ : Fs} (hD : ∀ q, fs₀.kind q ≠ none → q.length < D) :
    ∀ (n : ℕ) (s : Sys), WorldInv fs₀ s → rank order D s ≤ n → (s.run order n).mach.pc = .returned
  | 0, s, _, hr => by
    by_contra h
    have hpos : 0 < rank order D s := rank_pos order h
    omega
  | n + 1, s, hinv, hr => by
    by_cases h : s.mach.pc = .returned
    · rw [Sys.run_of_returned order h]
      exact h
    · have hlt : rank order D (s.step order) < rank order D s :=
        rank_step order (fun q hq => hD q fun h0 => hq (by simp [hinv.fsRemoved q, h0])) h
      exact run_returned_of_rank hD n _ (hinv.step order) (by omega)

/-- Every path of a file system is shorter than its depth. -/
theorem Fs.length_lt_depth {fs : Fs} {q : Path} (h : fs.kind q ≠ none) : q.length < fs.depth := by
  obtain ⟨e, he, rfl⟩ := List.mem_map.mp (Fs.kind_ne_none_iff.mp h)
  obtain ⟨entries⟩ := fs
  simp only [Fs.depth]
  clear h
  induction entries with
  | nil => cases he
  | cons e' entries ih =>
    rcases List.mem_cons.mp he with rfl | he
    · simp only [List.foldr_cons]
      omega
    · have := ih he
      simp only [List.foldr_cons]
      omega

end Run

/-- On every file system, whatever the order and the contents of its listings,
and whatever the uninitialised `info` holds, the removal returns: it has
reached `return status` after at most the budget of the root plus the three
pool creations, counted in calls. -/
theorem remove_recursive_returns (fs : Fs) (root : Path) (order : Path → List String)
    (filetype : Filetype) :
    ((Sys.init fs root filetype).run order (weight order fs.depth root + 3)).mach.pc = .returned :=
  run_returned_of_rank order (fun _ => Fs.length_lt_depth) _ _ (WorldInv.init fs root filetype) le_rfl

end LuaApr.RemoveRecursive
