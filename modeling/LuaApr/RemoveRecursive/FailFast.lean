import LuaApr.RemoveRecursive.Steps

/-!
# The first failure decides the result

`lua_apr_dir_remove_recursive` jumps to `cleanup` at the first call that
fails and returns that call's status. The close in `cleanup` drops its own
status, and the status variable shared by the ENOENT break, the close and the
removal loop is always rewritten before it is read again. This file proves
that, over every sequence of answers, the returned status is the status of the
oldest failed call, and that nothing is removed after it.
-/

namespace LuaApr.RemoveRecursive

/-- Whether an event is a failed call: `apr_dir_read` fails with any status but
success, `APR_INCOMPLETE` and the end of the directory; the pool calls that
return nothing never fail; any other call fails with any status but success. -/
def Event.failed (e : Event) : Bool :=
  match e.call with
  | .poolClear _ | .poolDestroy _ => false
  | .dirRead _ => !(e.response.status == .success || e.response.status == .incomplete ||
      e.response.status == .enoent)
  | _ => e.response.status != .success

/-- The status of the oldest failed call of a log. -/
def firstFailure : List Event → Option Status
  | [] => none
  | e :: log =>
    match firstFailure log with
    | some s => some s
    | none => if e.failed then some e.response.status else none

/-- Whether an event removes a node of the file system. -/
def Event.removes (e : Event) : Bool :=
  match e.call with
  | .fileRemove _ | .dirRemove _ => true
  | _ => false

/-- No removal comes after a failed call. -/
def NoRemovalAfterFailure : List Event → Prop
  | [] => True
  | e :: log => NoRemovalAfterFailure log ∧ (e.removes → firstFailure log = none)

/-- The failure a status reports, if it reports one. -/
def failureOf (s : Status) : Option Status := if s = .success then none else some s

/-- An event that neither fails nor removes anything. -/
def Event.Quiet (e : Event) : Prop := e.failed = false ∧ e.removes = false

theorem firstFailure_cons_quiet {e : Event} (he : e.Quiet) (log : List Event) :
    firstFailure (e :: log) = firstFailure log := by
  simp only [firstFailure, he.1]
  split <;> simp_all

theorem firstFailure_cons_failed {e : Event} {log : List Event} (he : e.failed = true)
    (hlog : firstFailure log = none) : firstFailure (e :: log) = some e.response.status := by
  simp [firstFailure, hlog, he]

theorem firstFailure_append_quiet {hs : List Event} (hq : ∀ e ∈ hs, e.Quiet)
    (log : List Event) : firstFailure (hs ++ log) = firstFailure log := by
  induction hs with
  | nil => rfl
  | cons e hs ih =>
    rw [List.cons_append, firstFailure_cons_quiet (hq e (by simp)),
      ih fun e he => hq e (by simp [he])]

theorem noRemoval_append_quiet {hs : List Event} (hq : ∀ e ∈ hs, e.Quiet) {log : List Event}
    (h : NoRemovalAfterFailure log) : NoRemovalAfterFailure (hs ++ log) := by
  induction hs with
  | nil => exact h
  | cons e hs ih =>
    exact ⟨ih fun e he => hq e (by simp [he]), by simp [(hq e (by simp)).2]⟩

/-- Pool clears and destructions neither fail nor remove. -/
theorem Event.IsVoid.quiet {e : Event} (h : e.IsVoid) : e.Quiet := by
  obtain ⟨c, r⟩ := e
  obtain ⟨hr, hc⟩ := h
  cases c <;> simp_all [Event.Quiet, Event.failed, Event.removes, Response.ok]

theorem quiet_voidEvent_clear (p : Pool) : (voidEvent (.poolClear p)).Quiet := ⟨rfl, rfl⟩

theorem quiet_clearIf (b : Prop) [Decidable b] (p : Pool) : ∀ e ∈ clearIf b p, e.Quiet :=
  fun e he => (Mach.voidExt_clearIf b p e he).quiet

theorem quiet_destroyEvents (m : Mach) : ∀ e ∈ m.destroyEvents, e.Quiet :=
  fun e he => (m.destroyEvents_void e he).quiet

theorem firstFailure_cons_of_none {log : List Event} (h : firstFailure log = none) (e : Event) :
    firstFailure (e :: log) = if e.failed then some e.response.status else none := by
  simp [firstFailure, h]

theorem noRemoval_cons_of_none {log : List Event} (hrem : NoRemovalAfterFailure log)
    (h : firstFailure log = none) (e : Event) : NoRemovalAfterFailure (e :: log) :=
  ⟨hrem, fun _ => h⟩

theorem Event.status_ne_success_of_failed {e : Event} (h : e.failed) :
    e.response.status ≠ .success := by
  intro hs
  unfold Event.failed at h
  split at h <;> simp_all

/-- The invariant of every reachable state behind fail-fast: the handle is held
exactly at the points of the entry loop, no call has failed while the function
still runs, and once it is in `cleanup` the status variable holds the oldest
failure. -/
structure FailFast (m : Mach) : Prop where
  holdsDir : m.pc ≠ .returned → (m.directory.isSome ↔ m.pc.holdsDir)
  running : m.pc ≠ .cleanupClose → m.pc ≠ .returned → firstFailure m.log = none
  stopped : m.pc = .cleanupClose ∨ m.pc = .returned → firstFailure m.log = failureOf m.status
  closing : m.pc = .cleanupClose → m.status ≠ .success
  noRemoval : NoRemovalAfterFailure m.log

namespace FailFast

variable {m : Mach}

/-- A state that still runs and has seen no failure. -/
theorem of_running (hpc : m.pc ≠ .cleanupClose) (hret : m.pc ≠ .returned)
    (hdir : m.directory.isSome ↔ m.pc.holdsDir) (hff : firstFailure m.log = none)
    (hrem : NoRemovalAfterFailure m.log) : FailFast m :=
  ⟨fun _ => hdir, fun _ _ => hff, fun h => (h.elim hpc hret).elim, fun h => (hpc h).elim, hrem⟩

/-- `goto cleanup` with the oldest failure in the status variable. -/
theorem cleanup (hff : firstFailure m.log = failureOf m.status)
    (hdir : m.directory.isSome → m.status ≠ .success) (hrem : NoRemovalAfterFailure m.log) :
    FailFast m.cleanup := by
  rw [Mach.cleanup_eq]
  split
  · exact ⟨by simp_all [Pc.holdsDir], fun h => (h rfl).elim, fun _ => hff, fun _ => hdir ‹_›, hrem⟩
  · rw [Mach.destroyPools_eq]
    refine ⟨fun h => (h rfl).elim, fun _ h => (h rfl).elim, fun _ => ?_, (fun h => nomatch h),
      noRemoval_append_quiet (quiet_destroyEvents m) hrem⟩
    rwa [firstFailure_append_quiet (quiet_destroyEvents m)]

/-- A call that failed from a running state leads into `cleanup` correctly. -/
theorem cleanup_of_failed {e : Event} {log : List Event} (hlog : m.log = e :: log)
    (hff : firstFailure log = none) (hrem : NoRemovalAfterFailure log) (hfail : e.failed)
    (hst : m.status = e.response.status) : FailFast m.cleanup := by
  have hne := Event.status_ne_success_of_failed hfail
  refine cleanup ?_ (fun _ => hst ▸ hne) (hlog ▸ noRemoval_cons_of_none hrem hff e)
  rw [hlog, firstFailure_cons_of_none hff, if_pos hfail, failureOf, if_neg (hst ▸ hne), hst]

theorem nextEntry (hdir : m.directory.isSome) (hff : firstFailure m.log = none)
    (hrem : NoRemovalAfterFailure m.log) : FailFast m.nextEntry := by
  rw [Mach.nextEntry_eq]
  exact of_running (by simp) (by simp) (by simp [hdir, Pc.holdsDir])
    (by rw [firstFailure_append_quiet (quiet_clearIf _ _)]; exact hff)
    (noRemoval_append_quiet (quiet_clearIf _ _) hrem)

theorem nextDone (hdir : m.directory = none) (hst : m.status = .success)
    (hff : firstFailure m.log = none) (hrem : NoRemovalAfterFailure m.log) :
    FailFast m.nextDone := by
  cases hdone : m.done with
  | nil =>
    rw [Mach.nextDone_nil _ hdone]
    exact cleanup (by simp [hff, hst, failureOf]) (by simp [hdir]) hrem
  | cons top rest =>
    rw [Mach.nextDone_cons _ hdone]
    exact of_running (by simp) (by simp) (by simp [hdir, Pc.holdsDir])
      (by rw [firstFailure_append_quiet (quiet_clearIf _ _)]; exact hff)
      (noRemoval_append_quiet (quiet_clearIf _ _) hrem)

theorem nextDir (hdir : m.directory = none) (hst : m.status = .success)
    (hff : firstFailure m.log = none) (hrem : NoRemovalAfterFailure m.log) :
    FailFast m.nextDir := by
  cases htodo : m.todo with
  | nil =>
    rw [Mach.nextDir_nil _ htodo]
    exact nextDone hdir hst hff hrem
  | cons top rest =>
    rw [Mach.nextDir_cons _ htodo]
    exact of_running (by simp) (by simp) (by simp [hdir, Pc.holdsDir])
      (by rw [firstFailure_cons_quiet (quiet_voidEvent_clear _)]; exact hff)
      ⟨hrem, fun h => absurd h (by simp [voidEvent, Event.removes])⟩

theorem step (h : FailFast m) (r : Response) : FailFast (m.step r) := by
  by_cases hstop : m.pc = .cleanupClose ∨ m.pc = .returned
  · rcases hstop with hpc | hpc
    · have hs := h.stopped (.inl hpc)
      have hne := h.closing hpc
      simp only [failureOf, if_neg hne] at hs
      simp only [Mach.step, hpc, Mach.destroyPools_eq, Mach.emit_log]
      refine ⟨fun h => (h rfl).elim, fun _ h => (h rfl).elim, fun _ => ?_, (fun h => nomatch h),
        noRemoval_append_quiet (quiet_destroyEvents _) ⟨h.noRemoval, fun h => nomatch h⟩⟩
      simp [firstFailure_append_quiet (quiet_destroyEvents _), firstFailure, hs, failureOf, hne,
        Mach.emit]
    · simpa only [Mach.step, hpc] using h
  have hff := h.running (fun hc => hstop (.inl hc)) (fun hc => hstop (.inr hc))
  have hdir := h.holdsDir (fun hc => hstop (.inr hc))
  have hrem := h.noRemoval
  have hok_ff : ∀ e : Event, e.failed = false → firstFailure (e :: m.log) = none := fun e he => by
    rw [firstFailure_cons_of_none hff, he]; rfl
  have hrem' := noRemoval_cons_of_none hrem hff
  cases hpc : m.pc with
  | createOuter | createMiddle | mergeFile =>
    simp [hpc, Pc.holdsDir] at hdir
    simp only [Mach.step, hpc, Mach.emit]
    split_ifs with hok
    all_goals first
      | exact cleanup_of_failed rfl hff hrem (by simp [Event.failed, hok]) rfl
      | exact of_running (by simp) (by simp) (by simp [hdir, Pc.holdsDir])
          (hok_ff _ (by simp [Event.failed, hok])) (hrem' _)
  | createInner =>
    simp [hpc, Pc.holdsDir] at hdir
    simp only [Mach.step, hpc, Mach.emit]
    split_ifs with hok
    · exact nextDir hdir hok (hok_ff _ (by simp [Event.failed, hok])) (hrem' _)
    · exact cleanup_of_failed rfl hff hrem (by simp [Event.failed, hok]) rfl
  | removeFile =>
    simp [hpc, Pc.holdsDir] at hdir
    simp only [Mach.step, hpc, Mach.emit]
    split_ifs with hok
    · exact nextEntry (by simpa using hdir) (hok_ff _ (by simp [Event.failed, hok])) (hrem' _)
    · exact cleanup_of_failed rfl hff hrem (by simp [Event.failed, hok]) rfl
  | removeDir =>
    simp [hpc, Pc.holdsDir] at hdir
    simp only [Mach.step, hpc, Mach.emit]
    split_ifs with hok
    · exact nextDone hdir hok (hok_ff _ (by simp [Event.failed, hok])) (hrem' _)
    · exact cleanup_of_failed rfl hff hrem (by simp [Event.failed, hok]) rfl
  | openDir =>
    simp [hpc, Pc.holdsDir] at hdir
    simp only [Mach.step, hpc, Mach.emit]
    split_ifs with hok
    · exact nextEntry (by simp) (hok_ff _ (by simp [Event.failed, hok])) (hrem' _)
    · exact cleanup_of_failed rfl hff hrem (by simp [Event.failed, hok]) rfl
  | readDir =>
    simp [hpc, Pc.holdsDir] at hdir
    simp only [Mach.step, hpc, Mach.emit]
    have hnf (hfail : ¬(r.status ≠ .success ∧ r.status ≠ .incomplete)) :
        Event.failed ⟨.dirRead (m.directory.getD 0), r⟩ = false := by
      rcases not_and_or.mp hfail with h | h <;> simp_all [Event.failed]
    split_ifs with henoent hfail hsym hdirty
    · exact of_running (by simp) (by simp) (by simpa [Pc.holdsDir] using hdir)
        (hok_ff _ (by simp [Event.failed, henoent])) (hrem' _)
    · exact cleanup_of_failed rfl hff hrem (by simp [Event.failed, henoent, hfail]) rfl
    · exact nextEntry (by simpa using hdir) (hok_ff _ (hnf hfail)) (hrem' _)
    all_goals
      refine of_running ?_ ?_ ?_ (hok_ff _ (hnf hfail)) (hrem' _) <;> simp [Pc.holdsDir, hdir]
  | mergeDir =>
    simp [hpc, Pc.holdsDir] at hdir
    simp only [Mach.step, hpc, Mach.emit]
    split_ifs with hok
    · exact nextEntry (by simpa using hdir) (hok_ff _ (by simp [Event.failed, hok])) (hrem' _)
    · exact cleanup_of_failed rfl hff hrem (by simp [Event.failed, hok]) rfl
  | closeDir =>
    simp [hpc, Pc.holdsDir] at hdir
    simp only [Mach.step, hpc, Mach.emit]
    split_ifs with hok
    · exact nextDir rfl hok (hok_ff _ (by simp [Event.failed, hok])) (hrem' _)
    · exact cleanup_of_failed rfl hff hrem (by simp [Event.failed, hok]) rfl
  | cleanupClose | returned => simp [hpc] at hstop

theorem init (root : Path) (filetype : Filetype) : FailFast (Mach.init root filetype) :=
  of_running (by simp [Mach.init]) (by simp [Mach.init]) (by simp [Mach.init, Pc.holdsDir])
    rfl trivial

end FailFast

theorem Reachable.failFast {root : Path} {m : Mach} (h : Reachable root m) : FailFast m := by
  induction h with
  | init filetype => exact FailFast.init root filetype
  | step r _ ih => exact ih.step r

/-- Whether a call creates a pool. -/
def Call.isPoolCreate : Call → Bool
  | .poolCreate _ => true
  | _ => false

theorem firstFailure_eq_none_iff {log : List Event} :
    firstFailure log = none ↔ ∀ e ∈ log, e.failed = false := by
  induction log with
  | nil => simp [firstFailure]
  | cons e log ih =>
    simp only [firstFailure, List.mem_cons, forall_eq_or_imp, ← ih]
    split <;> simp_all

theorem Mach.creating_of_pending {m : Mach} {c : Call} (hc : m.pending = some c)
    (hp : c.isPoolCreate) : m.pc.creating := by
  cases hpc : m.pc <;> simp only [Mach.pending, hpc, Option.some.injEq, reduceCtorEq] at hc <;>
    subst hc <;> simp_all [Call.isPoolCreate, Pc.creating]

theorem Mach.pending_of_creating {m : Mach} (hc : m.pc.creating) :
    ∃ p, m.pending = some (.poolCreate p) := by
  cases hpc : m.pc <;> simp_all [Mach.pending, Pc.creating]

theorem Event.removes_of_isPoolCreate {e : Event} (h : e.call.isPoolCreate) : e.removes = false := by
  obtain ⟨c, r⟩ := e
  cases c <;> simp_all [Call.isPoolCreate, Event.removes]

theorem Event.not_isPoolCreate_of_isVoid {e : Event} (h : e.IsVoid) : e.call.isPoolCreate = false := by
  obtain ⟨c, r⟩ := e
  obtain ⟨_, hc⟩ := h
  cases c <;> simp_all [Call.isPoolCreate]

/-- While the pools are being created, nothing has been removed. -/
theorem Reachable.no_removal_of_creating {root : Path} {m : Mach} (h : Reachable root m)
    (hc : m.pc.creating) : ∀ e ∈ m.log, e.removes = false := by
  induction h with
  | init filetype => simp [Mach.init]
  | @step m r _ ih =>
    have hc' := Mach.creating_of_step m hc
    obtain ⟨p, hp⟩ := Mach.pending_of_creating hc'
    obtain ⟨hs, hv, hlog⟩ := Mach.step_log m hp r
    rw [hlog, Mach.emit_log]
    intro e he
    rcases List.mem_append.mp he with he | he
    · exact (hv e he).quiet.2
    · rcases List.mem_cons.mp he with rfl | he
      · rfl
      · exact ih hc' e he

/-- After a pool creation fails, nothing is ever removed: the pools are created
before any other call. -/
theorem Reachable.no_removal_of_pool_failure {root : Path} {m : Mach} (h : Reachable root m)
    (hf : ∃ e ∈ m.log, e.call.isPoolCreate ∧ e.failed) : ∀ e ∈ m.log, e.removes = false := by
  induction h with
  | init filetype => simp [Mach.init] at hf
  | @step m r hm ih =>
    cases hpend : m.pending with
    | none =>
      have hret : m.pc = .returned := by
        cases hpc : m.pc <;> simp only [Mach.pending, hpc, reduceCtorEq] at hpend ⊢
      rw [Mach.step_returned m hret] at hf ⊢
      exact ih hf
    | some c =>
      obtain ⟨hs, hv, hlog⟩ := Mach.step_log m hpend r
      rw [hlog, Mach.emit_log] at hf ⊢
      obtain ⟨e₀, he₀, hcreate, hfail⟩ := hf
      have hquiet : ∀ e ∈ hs, e.removes = false := fun e he => (hv e he).quiet.2
      rcases List.mem_append.mp he₀ with he₀ | he₀
      · simp [Event.not_isPoolCreate_of_isVoid (hv e₀ he₀)] at hcreate
      rcases List.mem_cons.mp he₀ with rfl | he₀
      · have hold := hm.no_removal_of_creating (Mach.creating_of_pending hpend hcreate)
        intro e he
        rcases List.mem_append.mp he with he | he
        · exact hquiet e he
        rcases List.mem_cons.mp he with rfl | he
        · exact Event.removes_of_isPoolCreate hcreate
        · exact hold e he
      · have hold := ih ⟨e₀, he₀, hcreate, hfail⟩
        have hstop : m.pc = .cleanupClose ∨ m.pc = .returned := by
          by_contra hrun
          have hnone := hm.failFast.running (fun h => hrun (.inl h)) (fun h => hrun (.inr h))
          rw [firstFailure_eq_none_iff] at hnone
          simp [hnone e₀ he₀] at hfail
        intro e he
        rcases List.mem_append.mp he with he | he
        · exact hquiet e he
        rcases List.mem_cons.mp he with rfl | he
        · rcases hstop with hpc | hpc <;> simp only [Mach.pending, hpc, Option.some.injEq,
            reduceCtorEq] at hpend
          subst hpend
          rfl
        · exact hold e he

/-- `lua_apr_dir_remove_recursive` is fail-fast. Whenever it returns, it returns
`true` exactly when no APR call failed, and otherwise the status of the oldest
failed call; no `apr_file_remove` or `apr_dir_remove` follows a failed call, and
after a failed `apr_pool_create` nothing is removed at all. -/
theorem returned_status_first_failure {root : Path} {m : Mach} (h : Reachable root m)
    (hret : m.pc = .returned) :
    (pushStatus m.status = .ok true ↔ ∀ e ∈ m.log, e.failed = false) ∧
    (∀ s, firstFailure m.log = some s → pushStatus m.status = .error s) ∧
    NoRemovalAfterFailure m.log ∧
    ((∃ e ∈ m.log, e.call.isPoolCreate ∧ e.failed) → ∀ e ∈ m.log, e.removes = false) := by
  have hff := h.failFast
  have hst := hff.stopped (.inr hret)
  refine ⟨?_, fun s hs => ?_, hff.noRemoval, h.no_removal_of_pool_failure⟩
  · rw [← firstFailure_eq_none_iff, hst]
    unfold failureOf pushStatus
    split <;> simp_all
  · rw [hst] at hs
    unfold failureOf at hs
    split at hs <;> simp_all [pushStatus]

/-- The fail-fast law on a run whose removal of the file `d/a` is refused with
`EACCES`: the result is that status. -/
theorem returned_status_first_failure_refused_file :
    let m := (Mach.init ["d"] .reg).run [.ok, .ok, .ok, .ok, ⟨.success, ⟨"a", some .reg⟩⟩,
      .ok, ⟨.other 13, ⟨"", none⟩⟩, .ok]
    Reachable ["d"] m ∧ m.pc = .returned ∧
    ((pushStatus m.status = .ok true ↔ ∀ e ∈ m.log, e.failed = false) ∧
      (∀ s, firstFailure m.log = some s → pushStatus m.status = .error s) ∧
      NoRemovalAfterFailure m.log ∧
      ((∃ e ∈ m.log, e.call.isPoolCreate ∧ e.failed) → ∀ e ∈ m.log, e.removes = false)) :=
  ⟨(Reachable.init .reg).run _, by decide,
    returned_status_first_failure ((Reachable.init .reg).run _) (by decide)⟩

end LuaApr.RemoveRecursive
