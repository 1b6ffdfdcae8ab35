import LuaApr.RemoveRecursive.FileSystem

/-!
# The removal stays below its root

On a file system whose entries are read with their `lstat` types, every path
`lua_apr_dir_remove_recursive` opens or removes is the root or a node below it,
reached through directories only. Directories are opened and removed as
directories, and everything else, symbolic links included, is only unlinked.
This holds under every pattern of failures, since failures only cut runs short.
-/

namespace LuaApr.RemoveRecursive

variable {fs : Fs} {root : Path}

/-- A directory below the root. -/
def DirBelow (fs : Fs) (root : Path) (p : Path) : Prop :=
  Below fs root p ∧ fs.kind p = some .dir

/-- What the function may do to a path: open or remove a directory below the
root, or unlink a node below the root that is not a directory. -/
def Event.Safe (fs : Fs) (root : Path) (e : Event) : Prop :=
  match e.call with
  | .dirOpen p | .dirRemove p => DirBelow fs root p.val
  | .fileRemove p => Below fs root p.val ∧ ∃ t, fs.kind p.val = some t ∧ t ≠ .dir
  | _ => True

theorem Event.IsVoid.safe {e : Event} (h : e.IsVoid) : e.Safe fs root := by
  obtain ⟨_, hc⟩ := h
  unfold Event.Safe
  split <;> simp_all

/-- The part of the safety invariant that every label keeps. -/
structure SafeCore (fs : Fs) (root : Path) (m : Mach) : Prop where
  stackDirs : ∀ t ∈ m.todo ++ m.done, DirBelow fs root t.val
  filepath : DirBelow fs root m.filepath.val
  log : ∀ e ∈ m.log, e.Safe fs root

/-- The safety invariant of every state reached on `fs`: the entry about to be
merged is a node of the directory being read, of the type the branch assumes,
and the path about to be unlinked is a node below the root that is not a
directory. -/
structure SafeInv (fs : Fs) (root : Path) (m : Mach) extends SafeCore fs root m : Prop where
  entry : m.pc = .mergeDir ∨ m.pc = .mergeFile →
    filenameSymbolic m.name.val = false ∧ fs.kind (m.filepath.val ++ [m.name.val]) = some m.filetype ∧
      (m.pc = .mergeDir ↔ m.filetype = .dir)
  tmp : m.pc = .removeFile → Below fs root m.tmp.val ∧ ∃ t, fs.kind m.tmp.val = some t ∧ t ≠ .dir

theorem SafeCore.cons {m m' : Mach} (h : SafeCore fs root m) {e : Event} (he : e.Safe fs root)
    (hlog : m'.log = e :: m.log) (hstacks : ∀ t ∈ m'.todo ++ m'.done, DirBelow fs root t.val)
    (hfp : DirBelow fs root m'.filepath.val) : SafeCore fs root m' := by
  refine ⟨hstacks, hfp, ?_⟩
  rw [hlog]
  intro e' he'
  rcases List.mem_cons.mp he' with rfl | he'
  exacts [he, h.log e' he']

theorem SafeCore.append_void {m m' : Mach} (h : SafeCore fs root m) {hs : List Event}
    (hv : ∀ e ∈ hs, e.IsVoid) (hlog : m'.log = hs ++ m.log)
    (hstacks : ∀ t ∈ m'.todo ++ m'.done, t ∈ m.todo ++ m.done) (hfp : DirBelow fs root m'.filepath.val) :
    SafeCore fs root m' := by
  refine ⟨fun t ht => h.stackDirs t (hstacks t ht), hfp, ?_⟩
  rw [hlog]
  intro e he
  rcases List.mem_append.mp he with he | he
  exacts [(hv e he).safe, h.log e he]

namespace SafeInv

variable {m : Mach}

theorem of_core (h : SafeCore fs root m) (hpc : m.pc ≠ .mergeDir ∧ m.pc ≠ .mergeFile ∧ m.pc ≠ .removeFile) :
    SafeInv fs root m :=
  ⟨h, fun h' => by rcases h' with h' | h' <;> simp_all, fun h' => (hpc.2.2 h').elim⟩

theorem destroyPools (h : SafeCore fs root m) : SafeInv fs root m.destroyPools := by
  obtain ⟨hs, hv, hl⟩ := Mach.voidExt_destroyPools m
  refine of_core (h.append_void hv hl ?_ ?_) ?_ <;> rw [Mach.destroyPools_eq]
  · exact fun t ht => ht
  · exact h.filepath
  · simp

theorem cleanup (h : SafeCore fs root m) : SafeInv fs root m.cleanup := by
  rw [Mach.cleanup_eq]
  split
  · exact of_core ⟨h.stackDirs, h.filepath, h.log⟩ (by simp)
  · exact destroyPools h

theorem nextEntry (h : SafeCore fs root m) : SafeInv fs root m.nextEntry := by
  rw [Mach.nextEntry_eq]
  exact of_core (h.append_void (Mach.voidExt_clearIf _ _) rfl (fun t ht => ht) h.filepath) (by simp)

theorem nextDone (h : SafeCore fs root m) : SafeInv fs root m.nextDone := by
  cases hdone : m.done with
  | nil => rw [Mach.nextDone_nil m hdone]; exact cleanup h
  | cons top rest =>
    rw [Mach.nextDone_cons m hdone]
    refine of_core (h.append_void (Mach.voidExt_clearIf _ _) rfl (fun t ht => ?_)
      (h.stackDirs top (by simp [hdone]))) (by simp)
    simp only [List.mem_append, hdone, List.mem_cons] at ht ⊢
    tauto

theorem nextDir (h : SafeCore fs root m) : SafeInv fs root m.nextDir := by
  cases htodo : m.todo with
  | nil => rw [Mach.nextDir_nil m htodo]; exact nextDone h
  | cons top rest =>
    rw [Mach.nextDir_cons m htodo]
    refine of_core (h.append_void
      (show ∀ e ∈ [voidEvent (.poolClear .middle)], e.IsVoid by simp [Event.IsVoid, voidEvent]) rfl
      (fun t ht => ?_)
      (h.stackDirs top (by simp [htodo]))) (by simp)
    simp only [List.mem_append, htodo, List.mem_cons] at ht ⊢
    tauto

theorem step (h : SafeInv fs root m) {r : Response} (hr : m.answers fs r) :
    SafeInv fs root (m.step r) := by
  have hc := h.toSafeCore
  cases hpc : m.pc with
  | returned => rw [Mach.step_returned m hpc]; exact h
  | cleanupClose =>
    simp only [Mach.step, hpc]
    exact destroyPools (hc.cons (by simp [Event.Safe]) rfl hc.stackDirs hc.filepath)
  | createOuter | createMiddle =>
    simp only [Mach.step, hpc, Mach.emit]
    split_ifs
    · exact of_core (hc.cons (by simp [Event.Safe]) rfl hc.stackDirs hc.filepath) (by simp)
    · exact cleanup (hc.cons (by simp [Event.Safe]) rfl hc.stackDirs hc.filepath)
  | createInner =>
    simp only [Mach.step, hpc, Mach.emit]
    split_ifs
    · exact nextDir (hc.cons (by simp [Event.Safe]) rfl (by simpa using hc.filepath) hc.filepath)
    · exact cleanup (hc.cons (by simp [Event.Safe]) rfl hc.stackDirs hc.filepath)
  | openDir =>
    simp only [Mach.step, hpc, Mach.emit]
    split_ifs
    · exact nextEntry (hc.cons (by exact hc.filepath) rfl hc.stackDirs hc.filepath)
    · exact cleanup (hc.cons (by exact hc.filepath) rfl hc.stackDirs hc.filepath)
  | readDir =>
    have hc₁ : SafeCore fs root { m with
        pc := .readDir, status := r.status, log := ⟨.dirRead (m.directory.getD 0), r⟩ :: m.log } :=
      hc.cons (by simp [Event.Safe]) rfl hc.stackDirs hc.filepath
    simp only [Mach.step, hpc, Mach.emit]
    split_ifs with h1 h2 h3 h4
    · exact of_core ⟨hc₁.1, hc₁.2, hc₁.3⟩ (by simp)
    · exact cleanup hc₁
    · exact nextEntry ⟨hc₁.1, hc₁.2, hc₁.3⟩
    all_goals
      have hn : filenameSymbolic r.info.name = false := by simpa [Mach.alloc] using h3
      obtain ⟨t, ht, hk⟩ := Mach.answers_read hr hpc (by tauto) hn
      refine ⟨⟨hc₁.1, hc₁.2, hc₁.3⟩, fun _ => ?_, fun h => by simp at h⟩
      simp only [Mach.alloc, ht, Option.getD_some] at h4 ⊢
      simp [hn, hk, h4]
  | mergeDir =>
    obtain ⟨hn, hk, hiff⟩ := h.entry (.inl hpc)
    have hdir : m.filetype = .dir := hiff.mp hpc
    simp only [Mach.step, hpc, Mach.emit]
    split_ifs
    · refine nextEntry (hc.cons (by simp [Event.Safe]) rfl (fun t ht => ?_) hc.filepath)
      rcases List.mem_cons.mp ht with rfl | ht
      · exact ⟨.child hc.filepath.1 hc.filepath.2 hn hk, hdir ▸ hk⟩
      · exact hc.stackDirs t ht
    · exact cleanup (hc.cons (by simp [Event.Safe]) rfl hc.stackDirs hc.filepath)
  | mergeFile =>
    obtain ⟨hn, hk, hiff⟩ := h.entry (.inr hpc)
    have hfile : m.filetype ≠ .dir := fun hd => by simpa [hpc] using hiff.mpr hd
    simp only [Mach.step, hpc, Mach.emit]
    split_ifs
    · exact ⟨hc.cons (by simp [Event.Safe]) rfl hc.stackDirs hc.filepath, fun h => by simp at h,
        fun _ => ⟨.child hc.filepath.1 hc.filepath.2 hn hk, _, hk, hfile⟩⟩
    · exact cleanup (hc.cons (by simp [Event.Safe]) rfl hc.stackDirs hc.filepath)
  | removeFile =>
    simp only [Mach.step, hpc, Mach.emit]
    split_ifs
    · exact nextEntry (hc.cons (by exact h.tmp hpc) rfl hc.stackDirs hc.filepath)
    · exact cleanup (hc.cons (by exact h.tmp hpc) rfl hc.stackDirs hc.filepath)
  | closeDir =>
    simp only [Mach.step, hpc, Mach.emit]
    split_ifs
    · refine nextDir (hc.cons (by simp [Event.Safe]) rfl (fun t ht => ?_) hc.filepath)
      simp only [List.mem_append, List.mem_cons] at ht
      rcases ht with ht | rfl | ht
      · exact hc.stackDirs t (by simp [ht])
      · exact hc.filepath
      · exact hc.stackDirs t (by simp [ht])
    · exact cleanup (hc.cons (by simp [Event.Safe]) rfl hc.stackDirs hc.filepath)
  | removeDir =>
    simp only [Mach.step, hpc, Mach.emit]
    split_ifs
    · exact nextDone (hc.cons (by exact hc.filepath) rfl hc.stackDirs hc.filepath)
    · exact cleanup (hc.cons (by exact hc.filepath) rfl hc.stackDirs hc.filepath)

theorem init (hroot : fs.kind root = some .dir) (filetype : Filetype) :
    SafeInv fs root (Mach.init root filetype) :=
  of_core ⟨by simp [Mach.init], ⟨.root, hroot⟩, by simp [Mach.init]⟩ (by simp [Mach.init])

end SafeInv

theorem ReachableOn.safeInv (hroot : fs.kind root = some .dir) {m : Mach} (h : ReachableOn fs root m) :
    SafeInv fs root m := by
  induction h with
  | init filetype => exact SafeInv.init hroot filetype
  | step r _ hr ih => exact ih.step hr

/-- On a file system whose root is a directory and whose entries are read with
their `lstat` types, every directory the function opens or removes is below
the root, reached through directories only, and every other path it removes
is a node below the root that is not a directory, under every failure pattern. -/
theorem removal_stays_below_root (hroot : fs.kind root = some .dir) {m : Mach}
    (h : ReachableOn fs root m) : ∀ e ∈ m.log, e.Safe fs root :=
  (h.safeInv hroot).log

/-- The law on `d` holding a file `a`, a symbolic link `l` and an empty directory
`s`, read in the order `.`, `l`, `s`, `a`: the link is unlinked, not opened. -/
theorem removal_stays_below_root_link :
    let fs : Fs := ⟨[(["d"], .dir), (["d", "a"], .reg), (["d", "l"], .lnk), (["d", "s"], .dir)]⟩
    let rs : List Response := [.ok, .ok, .ok, .ok, ⟨.success, ⟨".", some .dir⟩⟩,
      ⟨.success, ⟨"l", some .lnk⟩⟩, .ok, .ok, ⟨.success, ⟨"s", some .dir⟩⟩, .ok,
      ⟨.success, ⟨"a", some .reg⟩⟩, .ok, .ok, ⟨.enoent, ⟨"", none⟩⟩, .ok, .ok,
      ⟨.enoent, ⟨"", none⟩⟩, .ok, .ok, .ok]
    fs.kind ["d"] = some .dir ∧ ReachableOn fs ["d"] ((Mach.init ["d"] .reg).run rs) ∧
      ∀ e ∈ ((Mach.init ["d"] .reg).run rs).log, e.Safe fs ["d"] :=
  ⟨rfl, ReachableOn.run (.init .reg) _ rfl,
    removal_stays_below_root (by rfl) (ReachableOn.run (.init .reg) _ rfl)⟩

end LuaApr.RemoveRecursive
