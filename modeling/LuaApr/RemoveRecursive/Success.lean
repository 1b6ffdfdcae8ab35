import LuaApr.RemoveRecursive.FailFast
import LuaApr.RemoveRecursive.Tree

/-!
# What a `true` return means

The correctness theorem needs listings that hand out every entry once. Here
the listings are anything, and the conclusion is drawn from the return alone:
whenever the removal returns `true` on a tree, the whole subtree at the root is
gone and nothing outside it was touched. It gets there because the root is the
first directory on `todo` and the last one off `done`, because every path it
holds extends the root, and because `apr_dir_remove` succeeds only on a
directory without entries.
-/

namespace LuaApr.RemoveRecursive

/-- A successful `apr_dir_remove` of `root` in the log. -/
def RootRemoved (root : Path) (log : List Event) : Prop :=
  ∃ p r, (⟨.dirRemove p, r⟩ : Event) ∈ log ∧ p.val = root ∧ r.status = .success

/-- `root` is still to be worked on: it is on a stack, or it is the directory at hand. -/
def Pending (root : Path) (m : Mach) : Prop :=
  root ∈ (m.todo ++ m.done).map (·.val) ∨ m.filepath.val = root

/-- Every removal of a log is of a path that extends `root`. -/
def RemovalsUnder (root : Path) (log : List Event) : Prop :=
  ∀ e ∈ log, ∀ q, e.call.removedPath = some q → root <+: q

section Logs

variable {root : Path} {log : List Event}

theorem RootRemoved.append (h : RootRemoved root log) (hs : List Event) :
    RootRemoved root (hs ++ log) := by
  obtain ⟨p, r, hmem, hp, hr⟩ := h
  exact ⟨p, r, List.mem_append_right hs hmem, hp, hr⟩

theorem RemovalsUnder.append_void (h : RemovalsUnder root log) {hs : List Event}
    (hv : ∀ e ∈ hs, e.IsVoid) : RemovalsUnder root (hs ++ log) := by
  intro e he q hq
  rcases List.mem_append.mp he with he | he
  · obtain ⟨_, hc⟩ := hv e he
    revert hc hq
    cases e.call <;> simp [Call.removedPath]
  · exact h e he q hq

theorem RemovalsUnder.cons (h : RemovalsUnder root log) {e : Event}
    (he : ∀ q, e.call.removedPath = some q → root <+: q) : RemovalsUnder root (e :: log) := by
  intro e' he' q hq
  rcases List.mem_cons.mp he' with rfl | he'
  · exact he q hq
  · exact h e' he' q hq

theorem firstFailure_append_void {hs : List Event} (hv : ∀ e ∈ hs, e.IsVoid) :
    firstFailure (hs ++ log) = firstFailure log :=
  firstFailure_append_quiet (fun e he => (hv e he).quiet) log

theorem firstFailure_cons_of_not_failed {e : Event} (he : e.failed = false) :
    firstFailure (e :: log) = firstFailure log := by
  simp only [firstFailure, he]
  split <;> simp_all

theorem firstFailure_cons_ne_none {e : Event} (he : e.failed = true) : firstFailure (e :: log) ≠ none := by
  simp only [firstFailure, he, if_true]
  split <;> simp

theorem firstFailure_cons_ne_none_of_log (h : firstFailure log ≠ none) (e : Event) :
    firstFailure (e :: log) ≠ none := by
  simp only [firstFailure]
  split <;> simp_all

end Logs

/-- What the labels of the function carry from a state to the next: the paths
on the stacks and at hand extend `root`, so do the removed ones, and while no
call failed, `root` is pending or removed. -/
structure Carried (root : Path) (m : Mach) : Prop where
  stackPaths : ∀ t ∈ m.todo ++ m.done, root <+: t.val
  filepath : root <+: m.filepath.val
  removals : RemovalsUnder root m.log
  tracked : firstFailure m.log = none → Pending root m ∨ RootRemoved root m.log

/-- The invariant behind a `true` return, over every sequence of answers.
While the pools are created the path at hand is `root`; the removal phase runs
with `todo` empty; and on a return with no failed call, `root` was removed. -/
structure RootInv (root : Path) (m : Mach) : Prop where
  stackPaths : ∀ t ∈ m.todo ++ m.done, root <+: t.val
  filepath : root <+: m.filepath.val
  tmp : m.pc = .removeFile → root <+: m.tmp.val
  removals : RemovalsUnder root m.log
  creating : m.pc.creating → m.filepath.val = root
  phase2 : m.pc = .removeDir → m.todo = []
  tracked : firstFailure m.log = none → (m.pc ≠ .returned ∧ Pending root m) ∨ RootRemoved root m.log

namespace Carried

variable {root : Path} {m m' : Mach}

/-- A call that neither fails nor removes outside `root`, logged without
touching the stacks or the path at hand. -/
theorem emit (h : Carried root m) {e : Event} (htodo : m'.todo = m.todo) (hdone : m'.done = m.done)
    (hfp : m'.filepath = m.filepath) (hlog : m'.log = e :: m.log) (hfail : e.failed = false)
    (hrem : ∀ q, e.call.removedPath = some q → root <+: q) : Carried root m' := by
  refine ⟨htodo ▸ hdone ▸ h.stackPaths, hfp ▸ h.filepath, hlog ▸ h.removals.cons hrem, fun hff => ?_⟩
  rw [hlog, firstFailure_cons_of_not_failed hfail] at hff
  rcases h.tracked hff with hp | hr
  · exact .inl (by rwa [Pending, htodo, hdone, hfp])
  · exact .inr (hlog ▸ hr.append [e])

/-- A call that fails: from then on no `true` return is possible. -/
theorem emit_failed (h : Carried root m) {e : Event} (htodo : m'.todo = m.todo)
    (hdone : m'.done = m.done) (hfp : m'.filepath = m.filepath) (hlog : m'.log = e :: m.log)
    (hfail : e.failed = true) (hrem : ∀ q, e.call.removedPath = some q → root <+: q) :
    Carried root m' ∧ firstFailure m'.log ≠ none :=
  ⟨⟨htodo ▸ hdone ▸ h.stackPaths, hfp ▸ h.filepath, hlog ▸ h.removals.cons hrem,
    fun hff => absurd hff (hlog ▸ firstFailure_cons_ne_none hfail)⟩,
    hlog ▸ firstFailure_cons_ne_none hfail⟩

/-- A directory pushed on `todo` by a call that does not fail. -/
theorem push (h : Carried root m) {e : Event} {t : Tagged Path} (htodo : m'.todo = t :: m.todo)
    (hdone : m'.done = m.done) (hfp : m'.filepath = m.filepath) (hlog : m'.log = e :: m.log)
    (hfail : e.failed = false) (hrem : ∀ q, e.call.removedPath = some q → root <+: q)
    (ht : root <+: t.val) : Carried root m' := by
  refine ⟨fun u hu => ?_, hfp ▸ h.filepath, hlog ▸ h.removals.cons hrem, fun hff => ?_⟩
  · rw [htodo, hdone, List.cons_append, List.mem_cons] at hu
    rcases hu with rfl | hu
    · exact ht
    · exact h.stackPaths u hu
  · rw [hlog, firstFailure_cons_of_not_failed hfail] at hff
    rcases h.tracked hff with hp | hr
    · refine .inl ?_
      rw [Pending, htodo, hdone, hfp]
      rcases hp with hp | hp
      · exact .inl (by simp only [List.cons_append, List.map_cons, List.mem_cons]; exact .inr hp)
      · exact .inr hp
    · exact .inr (hlog ▸ hr.append [e])

end Carried

namespace RootInv

variable {root : Path} {m : Mach}

theorem of_carried (hc : Carried root m) (hret : m.pc ≠ .returned)
    (htmp : m.pc = .removeFile → root <+: m.tmp.val) (hcr : m.pc.creating → m.filepath.val = root)
    (h2 : m.pc = .removeDir → m.todo = []) : RootInv root m :=
  ⟨hc.stackPaths, hc.filepath, htmp, hc.removals, hcr, h2,
    fun hff => (hc.tracked hff).imp (fun hp => ⟨hret, hp⟩) id⟩

theorem carried (h : RootInv root m) : Carried root m :=
  ⟨h.stackPaths, h.filepath, h.removals, fun hff => (h.tracked hff).imp (fun h => h.2) id⟩

theorem destroyPools (hc : Carried root m) (hr : firstFailure m.log = none → RootRemoved root m.log) :
    RootInv root m.destroyPools := by
  have hv := m.destroyEvents_void
  rw [Mach.destroyPools_eq]
  refine ⟨hc.stackPaths, hc.filepath, nofun, hc.removals.append_void hv, nofun, nofun, fun hff => ?_⟩
  rw [firstFailure_append_void hv] at hff
  exact .inr ((hr hff).append _)

theorem cleanup (hc : Carried root m) (hr : firstFailure m.log = none → RootRemoved root m.log) :
    RootInv root m.cleanup := by
  rw [Mach.cleanup_eq]
  split
  · exact ⟨hc.stackPaths, hc.filepath, nofun, hc.removals, nofun, nofun,
      fun hff => .inr (hr hff)⟩
  · exact destroyPools hc hr

theorem nextEntry (hc : Carried root m) : RootInv root m.nextEntry := by
  have hv := Mach.voidExt_clearIf (m.counter % 1000 = 0) .inner
  rw [Mach.nextEntry_eq]
  refine ⟨hc.stackPaths, hc.filepath, nofun, hc.removals.append_void hv, nofun, nofun, fun hff => ?_⟩
  rw [firstFailure_append_void hv] at hff
  exact (hc.tracked hff).imp (fun hp => ⟨nofun, hp⟩) fun hr => hr.append _

theorem nextDone (hc : Carried root m) (htodo : m.todo = [])
    (hr : firstFailure m.log = none → root ∈ m.done.map (·.val) ∨ RootRemoved root m.log) :
    RootInv root m.nextDone := by
  cases hdone : m.done with
  | nil =>
    rw [Mach.nextDone_nil m hdone]
    exact cleanup hc fun hff => (hr hff).resolve_left (by simp [hdone])
  | cons top rest =>
    have hv := Mach.voidExt_clearIf (m.counter % 100 = 0) .middle
    have hstacks := hc.stackPaths
    rw [htodo, hdone] at hstacks
    rw [Mach.nextDone_cons m hdone]
    refine ⟨fun t ht => hstacks t (by simp_all), hstacks top (by simp), nofun,
      hc.removals.append_void hv, nofun, fun _ => htodo, fun hff => ?_⟩
    rw [firstFailure_append_void hv] at hff
    rcases hr hff with hp | hp
    · rw [hdone, List.map_cons, List.mem_cons] at hp
      refine .inl ⟨nofun, ?_⟩
      rcases hp with hp | hp
      · exact .inr hp.symm
      · exact .inl (by simp [htodo, hp])
    · exact .inr (hp.append _)

theorem nextDir (hc : Carried root m)
    (hr : firstFailure m.log = none → root ∈ (m.todo ++ m.done).map (·.val) ∨ RootRemoved root m.log) :
    RootInv root m.nextDir := by
  cases htodo : m.todo with
  | nil =>
    rw [Mach.nextDir_nil m htodo]
    exact nextDone hc htodo fun hff => by simpa [htodo] using hr hff
  | cons top rest =>
    have hstacks := hc.stackPaths
    rw [htodo] at hstacks
    rw [Mach.nextDir_cons m htodo]
    refine ⟨fun t ht => hstacks t (by simp_all), hstacks top (by simp), nofun,
      hc.removals.cons (by simp [voidEvent, Call.removedPath]), nofun, nofun, fun hff => ?_⟩
    rw [firstFailure_cons_of_not_failed (show (voidEvent (.poolClear .middle)).failed = false from rfl)]
      at hff
    rcases hr hff with hp | hp
    · rw [htodo, List.cons_append, List.map_cons, List.mem_cons] at hp
      refine .inl ⟨nofun, ?_⟩
      rcases hp with hp | hp
      · exact .inr hp.symm
      · exact .inl hp
    · exact .inr (hp.append [_])

/-- A failed call goes to `cleanup`, after which no `true` return is possible. -/
theorem cleanup_failed (hc : Carried root m) {m' : Mach} {e : Event} (htodo : m'.todo = m.todo)
    (hdone : m'.done = m.done) (hfp : m'.filepath = m.filepath) (hlog : m'.log = e :: m.log)
    (hfail : e.failed = true) (hrem : ∀ q, e.call.removedPath = some q → root <+: q) :
    RootInv root m'.cleanup :=
  have h := hc.emit_failed htodo hdone hfp hlog hfail hrem
  cleanup h.1 fun hff => absurd hff h.2

theorem step (h : RootInv root m) (hff : FailFast m) (r : Response) : RootInv root (m.step r) := by
  have hc := h.carried
  have hnone : ∀ c : Call, c.removedPath = none → ∀ q, c.removedPath = some q → root <+: q :=
    fun c hc q hq => by rw [hc] at hq; cases hq
  cases hpc : m.pc with
  | returned => rw [Mach.step_returned m hpc]; exact h
  | cleanupClose =>
    have hfail : firstFailure m.log ≠ none := by
      rw [hff.stopped (.inl hpc)]
      simp [failureOf, hff.closing hpc]
    simp only [Mach.step, hpc]
    exact destroyPools ⟨hc.stackPaths, hc.filepath, hc.removals.cons (hnone _ rfl),
      fun hff => absurd hff (firstFailure_cons_ne_none_of_log hfail _)⟩
      fun hff => absurd hff (firstFailure_cons_ne_none_of_log hfail _)
  | createOuter | createMiddle =>
    simp only [Mach.step, hpc]
    split_ifs with hok
    all_goals first
      | exact of_carried (hc.emit rfl rfl rfl rfl (by simp [Event.failed, hok]) (hnone _ rfl)) nofun
          nofun (fun _ => h.creating (by simp [hpc, Pc.creating])) nofun
      | exact cleanup_failed hc rfl rfl rfl rfl (by simp [Event.failed, hok]) (hnone _ rfl)
  | createInner =>
    have hroot := h.creating (by simp [hpc, Pc.creating])
    simp only [Mach.step, hpc]
    split_ifs with hok
    · have hfail : (⟨.poolCreate .inner, r⟩ : Event).failed = false := by simp [Event.failed, hok]
      refine nextDir ⟨fun t ht => ?_, hc.filepath, hc.removals.cons (hnone _ rfl), fun _ => ?_⟩
        fun _ => .inl (by simp [Mach.emit, hroot])
      · simp only [Mach.emit, List.nil_append, List.append_nil, List.mem_singleton] at ht
        exact ht ▸ hc.filepath
      · exact .inl (.inl (by simp [Mach.emit, hroot]))
    · exact cleanup_failed hc rfl rfl rfl rfl (by simp [Event.failed, hok]) (hnone _ rfl)
  | openDir =>
    simp only [Mach.step, hpc]
    split_ifs with hok
    · exact nextEntry (hc.emit rfl rfl rfl rfl (by simp [Event.failed, hok]) (hnone _ rfl))
    · exact cleanup_failed hc rfl rfl rfl rfl (by simp [Event.failed, hok]) (hnone _ rfl)
  | readDir =>
    have hf : ¬(r.status ≠ .success ∧ r.status ≠ .incomplete) →
        (⟨.dirRead (m.directory.getD 0), r⟩ : Event).failed = false := fun h => by
      rw [not_and_or, not_not, not_not] at h
      rcases h with h | h <;> simp [Event.failed, h]
    simp only [Mach.step, hpc]
    split_ifs with h1 h2 h3 h4
    · exact of_carried (hc.emit rfl rfl rfl rfl (by simp [Event.failed, h1]) (hnone _ rfl)) nofun
        nofun nofun nofun
    · exact cleanup_failed hc rfl rfl rfl rfl (by simp [Event.failed, h1, h2]) (hnone _ rfl)
    · exact nextEntry (hc.emit rfl rfl rfl rfl (hf h2) (hnone _ rfl))
    all_goals exact of_carried (hc.emit rfl rfl rfl rfl (hf h2) (hnone _ rfl)) nofun nofun nofun nofun
  | mergeDir =>
    simp only [Mach.step, hpc]
    split_ifs with hok
    · exact nextEntry (hc.push rfl rfl rfl rfl (by simp [Event.failed, hok]) (hnone _ rfl)
        (by simpa [Mach.alloc] using hc.filepath.trans (List.prefix_append _ _)))
    · exact cleanup_failed hc rfl rfl rfl rfl (by simp [Event.failed, hok]) (hnone _ rfl)
  | mergeFile =>
    simp only [Mach.step, hpc]
    split_ifs with hok
    · exact of_carried (hc.emit rfl rfl rfl rfl (by simp [Event.failed, hok]) (hnone _ rfl)) nofun
        (fun _ => by simpa [Mach.alloc] using hc.filepath.trans (List.prefix_append _ _)) nofun nofun
    · exact cleanup_failed hc rfl rfl rfl rfl (by simp [Event.failed, hok]) (hnone _ rfl)
  | removeFile =>
    have hrem : ∀ q, (Call.fileRemove m.tmp).removedPath = some q → root <+: q := by
      intro q hq
      cases hq
      exact h.tmp hpc
    simp only [Mach.step, hpc]
    split_ifs with hok
    · exact nextEntry (hc.emit rfl rfl rfl rfl (by simp [Event.failed, hok]) hrem)
    · exact cleanup_failed hc rfl rfl rfl rfl (by simp [Event.failed, hok]) hrem
  | closeDir =>
    simp only [Mach.step, hpc]
    split_ifs with hok
    · have hfail : (⟨.dirClose (m.directory.getD 0), r⟩ : Event).failed = false := by
        simp [Event.failed, hok]
      refine nextDir ⟨fun t ht => ?_, hc.filepath, hc.removals.cons (hnone _ rfl), fun hff => ?_⟩
        fun hff => ?_
      · simp only [Mach.emit, List.mem_append, List.mem_cons] at ht
        rcases ht with ht | rfl | ht
        · exact hc.stackPaths t (List.mem_append_left _ ht)
        · exact hc.filepath
        · exact hc.stackPaths t (List.mem_append_right _ ht)
      all_goals
        simp only [Mach.emit, firstFailure_cons_of_not_failed hfail] at hff
        rcases hc.tracked hff with hp | hr
        · refine .inl ?_
          simp only [Pending, Mach.emit, List.map_append, List.map_cons, List.mem_append,
            List.mem_cons] at hp ⊢
          tauto
        · exact .inr (hr.append [_])
    · exact cleanup_failed hc rfl rfl rfl rfl (by simp [Event.failed, hok]) (hnone _ rfl)
  | removeDir =>
    have htodo := h.phase2 hpc
    have hrem : ∀ q, (Call.dirRemove m.filepath).removedPath = some q → root <+: q := by
      intro q hq
      cases hq
      exact hc.filepath
    simp only [Mach.step, hpc]
    split_ifs with hok
    · refine nextDone (hc.emit rfl rfl rfl rfl (by simp [Event.failed, hok]) hrem) htodo fun hff => ?_
      simp only [Mach.emit, firstFailure_cons_of_not_failed (show (⟨.dirRemove m.filepath, r⟩ : Event).failed = false by simp [Event.failed, hok])] at hff
      rcases hc.tracked hff with (hp | hp) | hr
      · simp only [htodo, List.nil_append] at hp
        exact .inl hp
      · exact .inr ⟨m.filepath, r, List.mem_cons_self _ _, hp, hok⟩
      · exact .inr (hr.append [_])
    · exact cleanup_failed hc rfl rfl rfl rfl (by simp [Event.failed, hok]) hrem

theorem init (root : Path) (filetype : Filetype) : RootInv root (Mach.init root filetype) :=
  ⟨by simp [Mach.init], List.prefix_refl root, nofun, by simp [RemovalsUnder, Mach.init], fun _ => rfl,
    nofun, fun _ => .inl ⟨nofun, .inr rfl⟩⟩

end RootInv

theorem Reachable.rootInv {root : Path} {m : Mach} (h : Reachable root m) : RootInv root m := by
  induction h with
  | init filetype => exact RootInv.init root filetype
  | step r hr ih => exact ih.step hr.failFast r

/-! ## The file system after a `true` return -/

/-- Every successful `apr_file_remove` of a log was of a node that is not a
directory in `fs₀`. -/
def UnlinksFiles (fs₀ : Fs) (log : List Event) : Prop :=
  ∀ e ∈ log, ∀ p, e.call = .fileRemove p → e.response.status = .success → fs₀.kind p.val ≠ some .dir

/-- `apr_file_remove` succeeds only on a node that is not a directory. -/
theorem World.answer_fileRemove_ok (order : Path → List String) {w : World} {p : Tagged Path}
    (h : (w.answer order (.fileRemove p)).1.status = .success) : ∃ t, w.fs.kind p.val = some t ∧ t ≠ .dir := by
  simp only [World.answer] at h
  split at h
  · simp at h
  · exact ⟨_, ‹_›, ‹_›⟩
  · simp at h

theorem Sys.reachable_step {root : Path} {s : Sys} (h : Reachable root s.mach) (order : Path → List String) :
    Reachable root (s.step order).mach := by
  unfold Sys.step
  split
  · exact h.step _
  · exact h

theorem UnlinksFiles.step {fs₀ : Fs} {s : Sys} (hw : WorldInv fs₀ s) (h : UnlinksFiles fs₀ s.mach.log)
    (order : Path → List String) : UnlinksFiles fs₀ (s.step order).mach.log := by
  unfold Sys.step
  cases hp : s.mach.pending with
  | none => exact h
  | some c =>
    obtain ⟨hs, hv, hlog⟩ := s.mach.step_log hp (s.world.answer order c).1
    simp only [Mach.emit_log] at hlog
    intro e he p hc hok
    rw [hlog] at he
    rcases List.mem_append.mp he with he | he
    · obtain ⟨_, hcv⟩ := hv e he
      rw [hc] at hcv
      exact hcv.elim
    rcases List.mem_cons.mp he with rfl | he
    · subst hc
      obtain ⟨t, hk, hne⟩ := World.answer_fileRemove_ok order hok
      rw [hw.fsRemoved] at hk
      split_ifs at hk
      simp [hk, hne]
    · exact h e he p hc hok

theorem Sys.run_invariants {fs₀ : Fs} {root : Path} (order : Path → List String) :
    ∀ (n : ℕ) (s : Sys), Reachable root s.mach → WorldInv fs₀ s → UnlinksFiles fs₀ s.mach.log →
      Reachable root (s.run order n).mach ∧ UnlinksFiles fs₀ (s.run order n).mach.log
  | 0, _, hr, _, hu => ⟨hr, hu⟩
  | n + 1, _, hr, hw, hu => Sys.run_invariants order n _ (Sys.reachable_step hr order) (hw.step order)
      (hu.step hw order)

section Subtree

variable {fs₀ : Fs} {root : Path} {log : List Event}

theorem removed_cons_of_removed {q : Path} (h : removed q log) (e : Event) : removed q (e :: log) := by
  rw [removed_cons, h, Bool.or_true]

/-- After a successful `apr_dir_remove` of a directory, every node it had in
`fs₀` is removed. -/
theorem EntriesFirst.children (h : EntriesFirst fs₀ log) {p : Tagged Path} {r : Response}
    (hmem : (⟨.dirRemove p, r⟩ : Event) ∈ log) (hr : r.status = .success) {q : Path}
    (hq : childOf p.val q) (hk : fs₀.kind q ≠ none) : removed q log := by
  induction log with
  | nil => cases hmem
  | cons e log ih =>
    rcases List.mem_cons.mp hmem with rfl | hmem
    · exact removed_cons_of_removed (h.2 p rfl hr q hq hk) _
    · exact removed_cons_of_removed (ih h.1 hmem) e

/-- A directory of `fs₀` that is removed was removed by `apr_dir_remove`. -/
theorem UnlinksFiles.dirRemoved (hu : UnlinksFiles fs₀ log) {q : Path} (hrem : removed q log)
    (hk : fs₀.kind q = some .dir) :
    ∃ p r, (⟨.dirRemove p, r⟩ : Event) ∈ log ∧ p.val = q ∧ r.status = .success := by
  obtain ⟨⟨c, r⟩, he, hsel⟩ := List.any_eq_true.mp hrem
  simp only [decide_eq_true_eq] at hsel
  obtain ⟨hok, hc⟩ := hsel
  cases c with
  | fileRemove p =>
    cases hc
    exact absurd hk (hu _ he p rfl hok)
  | dirRemove p =>
    cases hc
    exact ⟨p, r, he, rfl, hok⟩
  | _ => cases hc

/-- Once `root` is removed, so is every node of the tree below it. -/
theorem removed_subtree (ht : fs₀.TreeAt root) (hef : EntriesFirst fs₀ log) (hu : UnlinksFiles fs₀ log)
    (hroot : RootRemoved root log) :
    ∀ (k : ℕ) (q : Path), q.length = root.length + k → root <+: q → fs₀.kind q ≠ none → removed q log
  | 0, q, hlen, hq, _ => by
    obtain rfl := (hq.eq_of_length hlen.symm).symm
    obtain ⟨p, r, hmem, hp, hr⟩ := hroot
    exact List.any_eq_true.mpr ⟨_, hmem, by simp [hr, hp, Call.removedPath]⟩
  | k + 1, q, hlen, hq, hk => by
    obtain ⟨t, ht'⟩ := Option.ne_none_iff_exists'.mp hk
    have hne : q ≠ root := by rintro rfl; omega
    obtain ⟨hsub, hchild⟩ := ht.parent_subDir ht' hq hne
    have hparent := removed_subtree ht hef hu hroot k q.dropLast (by simp; omega) hsub.1 (by simp [hsub.2])
    obtain ⟨p, r, hmem, hp, hr⟩ := hu.dirRemoved hparent hsub.2
    exact hef.children hmem hr (hp ▸ hchild) hk

end Subtree

/-- On a tree, whatever the listings hand out (a name twice, a name with no
node, an entry left out) and whatever the uninitialised `info` holds, a return
of `true` means that the whole subtree at `root`, `root` included, is gone,
and that every node outside it is as it was. -/
theorem remove_recursive_true_removes_subtree {fs₀ : Fs} {root : Path} (htree : fs₀.TreeAt root)
    (order : Path → List String) (filetype : Filetype) (n : ℕ)
    (hret : ((Sys.init fs₀ root filetype).run order n).mach.pc = .returned)
    (hok : ((Sys.init fs₀ root filetype).run order n).mach.status = .success) (q : Path) :
    ((Sys.init fs₀ root filetype).run order n).world.fs.kind q =
      if root <+: q then none else fs₀.kind q := by
  obtain ⟨hreach, hu⟩ := Sys.run_invariants order n (Sys.init fs₀ root filetype)
    (Reachable.init filetype) (WorldInv.init fs₀ root filetype) (by simp [UnlinksFiles, Sys.init, Mach.init])
  have hw := (WorldInv.init fs₀ root filetype).run order n
  have hinv := hreach.rootInv
  have hnone : firstFailure ((Sys.init fs₀ root filetype).run order n).mach.log = none := by
    rw [hreach.failFast.stopped (.inr hret), hok]
    rfl
  have hroot := (hinv.tracked hnone).resolve_left fun h => h.1 hret
  rw [hw.fsRemoved q]
  by_cases hrem : removed q ((Sys.init fs₀ root filetype).run order n).mach.log
  · obtain ⟨e, he, hsel⟩ := List.any_eq_true.mp hrem
    simp only [decide_eq_true_eq] at hsel
    simp [hrem, hinv.removals e he q hsel.2]
  · by_cases hq : root <+: q
    · have hk : fs₀.kind q = none := by
        by_contra hk
        exact hrem (removed_subtree htree hw.entriesFirst hu hroot (q.length - root.length) q
          (by have := hq.length_le; omega) hq hk)
      simp [hrem, hq, hk]
    · simp [hrem, hq]

/-- A directory with one file, listed once: after ten calls the removal has
returned `true`, and the directory and its file are gone. -/
theorem remove_recursive_true_removes_subtree_file :
    (⟨[(["d"], .dir), (["d", "a"], .reg)]⟩ : Fs).TreeAt ["d"] ∧
      ((Sys.init ⟨[(["d"], .dir), (["d", "a"], .reg)]⟩ ["d"] .reg).run (fun _ => ["a"]) 10).mach.pc =
        .returned ∧
      ((Sys.init ⟨[(["d"], .dir), (["d", "a"], .reg)]⟩ ["d"] .reg).run (fun _ => ["a"]) 10).mach.status =
        .success ∧
      ((Sys.init ⟨[(["d"], .dir), (["d", "a"], .reg)]⟩ ["d"] .reg).run (fun _ => ["a"]) 10).world.fs.kind
        ["d", "a"] = if ["d"] <+: ["d", "a"] then none else (⟨[(["d"], .dir), (["d", "a"], .reg)]⟩ : Fs).kind ["d", "a"] :=
  ⟨by decide, by decide, by decide,
    remove_recursive_true_removes_subtree (by decide) _ _ 10 (by decide) (by decide) ["d", "a"]⟩

end LuaApr.RemoveRecursive
