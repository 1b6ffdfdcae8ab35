import LuaApr.RemoveRecursive.FailFast

/-!
# Handles, pools and the strings that live in them

Every exit of `lua_apr_dir_remove_recursive` goes through `cleanup`, which
closes a handle that is still open and destroys the pools that were created.
This file proves, over every sequence of answers, that each handle from a
successful `apr_dir_open` is closed once, that `middle_pool` is never cleared
or destroyed under an open handle, that every string is read while its pool
still holds it, and that on return exactly the created pools are destroyed,
each once.
-/

namespace LuaApr.RemoveRecursive

/-- Whether a call opens a directory. -/
def Call.isDirOpen : Call → Bool
  | .dirOpen _ => true
  | _ => false

/-- The handles a log obtained, newest first. A successful `apr_dir_open` names
its handle by the length of the log it ends, as `Mach.step` does. -/
def openedHandles : List Event → List ℕ
  | [] => []
  | e :: log =>
    if e.call.isDirOpen ∧ e.response.status = .success then (log.length + 1) :: openedHandles log
    else openedHandles log

/-- How often a log closes handle `h`. -/
def closes (h : ℕ) (log : List Event) : ℕ :=
  log.countP (·.call == .dirClose h)

/-- Every handle of the log is closed. -/
def AllClosed (log : List Event) : Prop :=
  ∀ h ∈ openedHandles log, 0 < closes h log

/-- `middle_pool`, which holds the directory handles, is cleared and destroyed
only when every handle has been closed. -/
def MiddleReleased : List Event → Prop
  | [] => True
  | e :: log =>
    MiddleReleased log ∧ (e.call = .poolClear .middle ∨ e.call = .poolDestroy .middle → AllClosed log)

/-- A string may be read: it is the Lua argument, or its pool has been neither
cleared nor destroyed since the string was allocated. -/
def Owner.Live (log : List Event) : Owner → Prop
  | .lua => True
  | .pool p k => clears p log = k ∧ ∀ e ∈ log, e.call ≠ .poolDestroy p

/-- The places of the strings a call reads. -/
def Call.reads : Call → List Owner
  | .dirOpen path | .fileRemove path | .dirRemove path => [path.owner]
  | .filepathMerge base name _ => [base.owner, name.owner]
  | _ => []

/-- Every call of the log reads only live strings. -/
def ReadsLive : List Event → Prop
  | [] => True
  | e :: log => ReadsLive log ∧ ∀ o ∈ e.call.reads, o.Live log

/-- Whether a log creates pool `p`. -/
def created (p : Pool) (log : List Event) : Bool :=
  log.any fun e => e.call == .poolCreate p && e.response.status == .success

/-- How often a log destroys pool `p`. -/
def destroys (p : Pool) (log : List Event) : ℕ :=
  log.countP (·.call == .poolDestroy p)

/-- The pointer variable of pool `p` is not `NULL`. -/
def Mach.poolSet (m : Mach) : Pool → Bool
  | .outer => m.outerPool
  | .middle => m.middlePool
  | .inner => m.innerPool

/-- A string in `outer_pool`, which is never cleared, or the Lua argument. -/
def Owner.InOuter (o : Owner) : Prop := o = .lua ∨ o = .pool .outer 0

/-- A clear or destruction changes neither the handles nor the pools created. -/
theorem Event.IsVoid.facts {e : Event} (h : e.IsVoid) :
    e.call.isDirOpen = false ∧ (∀ k, e.call ≠ .dirClose k) ∧ (∀ p, e.call ≠ .poolCreate p) ∧
      e.call.reads = [] := by
  obtain ⟨_, hc⟩ := h
  revert hc
  cases e.call <;> simp [Call.isDirOpen, Call.reads]

section Log

variable {hs log : List Event}

theorem openedHandles_append_void (hv : ∀ e ∈ hs, e.IsVoid) :
    openedHandles (hs ++ log) = openedHandles log := by
  induction hs with
  | nil => rfl
  | cons e hs ih =>
    simp [openedHandles, (hv e (by simp)).facts.1, ih fun e he => hv e (by simp [he])]

theorem closes_append_void (hv : ∀ e ∈ hs, e.IsVoid) (k : ℕ) :
    closes k (hs ++ log) = closes k log := by
  induction hs with
  | nil => rfl
  | cons e hs ih =>
    have := (hv e (by simp)).facts.2.1 k
    simp_all [closes]

theorem created_append_void (hv : ∀ e ∈ hs, e.IsVoid) (p : Pool) :
    created p (hs ++ log) = created p log := by
  induction hs with
  | nil => rfl
  | cons e hs ih =>
    have := (hv e (by simp)).facts.2.2.1 p
    rw [List.cons_append, created, List.any_cons, ← created, ih fun e he => hv e (by simp [he])]
    simp [this]

theorem readsLive_append_void (hv : ∀ e ∈ hs, e.IsVoid) (h : ReadsLive log) :
    ReadsLive (hs ++ log) := by
  induction hs with
  | nil => exact h
  | cons e hs ih =>
    exact ⟨ih fun e he => hv e (by simp [he]), by simp [(hv e (by simp)).facts.2.2.2]⟩

theorem closes_cons (k : ℕ) (e : Event) :
    closes k (e :: log) = closes k log + if e.call = .dirClose k then 1 else 0 := by
  simp [closes, List.countP_cons]

theorem created_cons (p : Pool) (e : Event) :
    created p (e :: log) =
      ((e.call == .poolCreate p && e.response.status == .success) || created p log) := by
  simp [created]

theorem destroys_cons (p : Pool) (e : Event) :
    destroys p (e :: log) = destroys p log + if e.call = .poolDestroy p then 1 else 0 := by
  simp [destroys, List.countP_cons]

theorem countP_destroyIf (b : Bool) (q p : Pool) :
    ((if b then [voidEvent (.poolDestroy q)] else []) : List Event).countP
      (·.call == .poolDestroy p) = (b && decide (q = p)).toNat := by
  cases b <;> by_cases h : q = p <;> simp [voidEvent, h]

/-- The `cleanup` label destroys each pool once if it was set. -/
theorem destroys_destroyEvents (m : Mach) (p : Pool) :
    destroys p (m.destroyEvents ++ log) = (m.poolSet p).toNat + destroys p log := by
  unfold destroys Mach.destroyEvents
  rw [List.countP_append, List.countP_append, List.countP_append, countP_destroyIf, countP_destroyIf,
    countP_destroyIf]
  cases p <;> simp [Mach.poolSet]

end Log

/-- What the log of a running function satisfies: every close is of an opened
handle and happens once, handle names are fresh, `middle_pool` is released only
without open handles, strings are read live, `outer_pool` is never cleared and
no pool is destroyed yet. -/
structure LogOk (log : List Event) : Prop where
  closesOpened : ∀ k, 0 < closes k log → k ∈ openedHandles log
  bounded : ∀ k ∈ openedHandles log, k ≤ log.length
  closedOnce : ∀ k, closes k log ≤ 1
  middle : MiddleReleased log
  reads : ReadsLive log
  outerKept : clears .outer log = 0
  undestroyed : ∀ p, destroys p log = 0

/-- A call that is neither a pool call nor a close. -/
def Call.Plain (c : Call) : Prop :=
  (∀ p, c ≠ .poolClear p) ∧ (∀ p, c ≠ .poolDestroy p) ∧ ∀ k, c ≠ .dirClose k

namespace LogOk

variable {log : List Event}

theorem nil : LogOk [] :=
  ⟨by simp [closes], by simp [openedHandles], by simp [closes], trivial, trivial, rfl,
    by simp [destroys]⟩

theorem cons_plain (h : LogOk log) {c : Call} (hc : c.Plain) (r : Response)
    (hreads : ∀ o ∈ c.reads, o.Live log) : LogOk (⟨c, r⟩ :: log) := by
  obtain ⟨hclear, hdestroy, hclose⟩ := hc
  have hcl : ∀ k, closes k (⟨c, r⟩ :: log) = closes k log := fun k => by
    simp [closes_cons, hclose k]
  have hsub : ∀ k ∈ openedHandles log, k ∈ openedHandles (⟨c, r⟩ :: log) := fun k hk => by
    unfold openedHandles; split <;> simp [hk]
  refine ⟨fun k hk => hsub k (h.closesOpened k (by rwa [← hcl])), fun k hk => ?_,
    fun k => hcl k ▸ h.closedOnce k, ⟨h.middle, by simp [hclear, hdestroy]⟩, ⟨h.reads, hreads⟩,
    by simpa [clears, List.countP_cons, hclear] using h.outerKept,
    fun p => by simp [destroys_cons, hdestroy, h.undestroyed]⟩
  unfold openedHandles at hk
  split at hk
  · rcases List.mem_cons.mp hk with rfl | hk
    · simp
    · exact (h.bounded k hk).trans (by simp)
  · exact (h.bounded k hk).trans (by simp)

theorem cons_close (h : LogOk log) {k : ℕ} (hk : k ∈ openedHandles log) (h0 : closes k log = 0)
    (r : Response) : LogOk (⟨.dirClose k, r⟩ :: log) := by
  have hop : openedHandles (⟨.dirClose k, r⟩ :: log) = openedHandles log := by
    simp [openedHandles, Call.isDirOpen]
  refine ⟨fun j hj => ?_, fun j hj => ?_, fun j => ?_, ⟨h.middle, by simp⟩, ⟨h.reads, by simp [Call.reads]⟩,
    by simpa [clears, List.countP_cons] using h.outerKept,
    fun p => by simp [destroys_cons, h.undestroyed]⟩
  · rw [hop]
    rw [closes_cons] at hj
    by_cases hjk : j = k
    · exact hjk ▸ hk
    · exact h.closesOpened j (by simpa [Ne.symm hjk] using hj)
  · rw [hop] at hj
    exact (h.bounded j hj).trans (by simp)
  · rw [closes_cons]
    by_cases hjk : j = k
    · subst hjk; simp [h0]
    · simpa [Ne.symm hjk] using h.closedOnce j

theorem append_clearIf (h : LogOk log) (b : Prop) [Decidable b] {p : Pool} (hp : p ≠ .outer)
    (hm : p = .middle → AllClosed log) : LogOk (clearIf b p ++ log) := by
  unfold clearIf
  split
  · have hv : ∀ e ∈ [voidEvent (.poolClear p)], e.IsVoid := by simp [Event.IsVoid, voidEvent]
    refine ⟨fun k hk => ?_, fun k hk => ?_, fun k => ?_, ⟨h.middle, ?_⟩,
      readsLive_append_void hv h.reads, by simpa [clears, voidEvent, hp] using h.outerKept,
      fun q => by simpa [destroys, voidEvent] using h.undestroyed q⟩
    · rw [openedHandles_append_void hv]
      exact h.closesOpened k (by rwa [closes_append_void hv] at hk)
    · rw [openedHandles_append_void hv] at hk
      exact (h.bounded k hk).trans (by simp)
    · rw [closes_append_void hv]; exact h.closedOnce k
    · intro hc
      simp only [voidEvent, Call.poolClear.injEq, reduceCtorEq, or_false] at hc
      exact hm hc
  · exact h

end LogOk

/-- The part of the resource invariant that holds at every point where the
function has not yet returned, whatever label it is at. -/
structure Settled (m : Mach) : Prop where
  log : LogOk m.log
  poolSet : ∀ p, m.poolSet p = created p m.log
  stackPaths : ∀ t ∈ m.todo ++ m.done, t.owner.InOuter
  filepath : m.filepath.owner.InOuter

/-- The handles opened and not yet closed are exactly the one in `directory`. -/
def OpenNow (m : Mach) : Prop :=
  ∀ k, (k ∈ openedHandles m.log ∧ closes k m.log = 0) ↔ m.directory = some k

/-- What holds on return. -/
structure Released (m : Mach) : Prop where
  destroyedOnce : ∀ p, destroys p m.log = (created p m.log).toNat
  allClosed : AllClosed m.log
  closesOpened : ∀ k, 0 < closes k m.log → k ∈ openedHandles m.log
  closedOnce : ∀ k, closes k m.log ≤ 1
  middle : MiddleReleased m.log
  reads : ReadsLive m.log

/-- The resource invariant of every reachable state. -/
structure Resources (m : Mach) : Prop where
  settled : m.pc ≠ .returned → Settled m
  openNow : m.pc ≠ .returned → OpenNow m
  unset : ∀ p, m.pc = .createOuter ∨ (m.pc = .createMiddle ∧ p ≠ .outer) ∨
    (m.pc = .createInner ∧ p = .inner) → m.poolSet p = false
  name : m.pc = .mergeDir ∨ m.pc = .mergeFile → m.name.owner = .pool .middle (clears .middle m.log)
  tmp : m.pc = .removeFile → m.tmp.owner = .pool .inner (clears .inner m.log)
  released : m.pc = .returned → Released m

theorem OpenNow.allClosed {m : Mach} (ho : OpenNow m) (hd : m.directory = none) :
    AllClosed m.log := fun k hk => Nat.pos_of_ne_zero fun h0 => by
  simpa [hd] using (ho k).mp ⟨hk, h0⟩

theorem AllClosed.append_void {hs log : List Event} (h : AllClosed log)
    (hv : ∀ e ∈ hs, e.IsVoid) : AllClosed (hs ++ log) := by
  intro k hk
  rw [openedHandles_append_void hv] at hk
  rw [closes_append_void hv]
  exact h k hk

theorem MiddleReleased.append_void {hs log : List Event} (h : MiddleReleased log)
    (hv : ∀ e ∈ hs, e.IsVoid) (hall : AllClosed log) : MiddleReleased (hs ++ log) := by
  induction hs with
  | nil => exact h
  | cons e hs ih =>
    have hv' : ∀ e ∈ hs, e.IsVoid := fun e he => hv e (by simp [he])
    exact ⟨ih hv', fun _ => hall.append_void hv'⟩

theorem OpenNow.of_log {m m' : Mach} (ho : OpenNow m) (hop : openedHandles m'.log = openedHandles m.log)
    (hcl : ∀ k, closes k m'.log = closes k m.log) (hd : m'.directory = m.directory) : OpenNow m' := by
  intro k
  rw [hop, hcl, hd]
  exact ho k

theorem live_pool_current (p : Pool) {log : List Event} (hl : LogOk log) :
    (Owner.pool p (clears p log)).Live log := by
  refine ⟨rfl, fun e he hd => ?_⟩
  have := hl.undestroyed p
  simp only [destroys, List.countP_eq_zero] at this
  simpa [hd] using this e he

theorem Owner.InOuter.live {o : Owner} {log : List Event} (h : o.InOuter) (hl : LogOk log) :
    o.Live log := by
  rcases h with rfl | rfl
  · trivial
  · have h := live_pool_current .outer hl
    rwa [hl.outerKept] at h

theorem created_cons_of_ne {log : List Event} {c : Call} (hc : ∀ q, c ≠ .poolCreate q)
    (r : Response) (p : Pool) : created p (⟨c, r⟩ :: log) = created p log := by
  simp [created_cons, hc p]

/-- A plain call that is not a pool creation keeps `Settled` when it leaves the
pools and the two stackPaths as they were. -/
theorem Settled.cons_same {m m' : Mach} (hs : Settled m) {c : Call} (hc : c.Plain)
    (hcr : ∀ q, c ≠ .poolCreate q) {r : Response} (hreads : ∀ o ∈ c.reads, o.Live m.log)
    (hlog : m'.log = ⟨c, r⟩ :: m.log) (hpool : m'.poolSet = m.poolSet)
    (hstacks : ∀ t ∈ m'.todo ++ m'.done, t.owner.InOuter) (hfp : m'.filepath.owner.InOuter) :
    Settled m' :=
  ⟨hlog ▸ hs.log.cons_plain hc r hreads,
    fun p => by rw [hpool, hlog, created_cons_of_ne hcr, hs.poolSet], hstacks, hfp⟩

theorem OpenNow.cons_same {m m' : Mach} (ho : OpenNow m) {c : Call} (hc : c.Plain)
    (hopen : c.isDirOpen = false) {r : Response} (hlog : m'.log = ⟨c, r⟩ :: m.log)
    (hd : m'.directory = m.directory) : OpenNow m' :=
  ho.of_log (by simp [hlog, openedHandles, hopen]) (fun k => by simp [hlog, closes_cons, hc.2.2 k])
    hd

/-- A pool creation keeps `Settled`: the created pool's variable is set exactly
when the creation succeeded. -/
theorem Settled.create {m m' : Mach} (hs : Settled m) {q : Pool} (hq : m.poolSet q = false)
    {r : Response} (hlog : m'.log = ⟨.poolCreate q, r⟩ :: m.log)
    (hset : m'.poolSet q = decide (r.status = .success))
    (hother : ∀ p, p ≠ q → m'.poolSet p = m.poolSet p)
    (hstacks : ∀ t ∈ m'.todo ++ m'.done, t.owner.InOuter) (hfp : m'.filepath.owner.InOuter) :
    Settled m' := by
  refine ⟨hlog ▸ hs.log.cons_plain (by simp [Call.Plain]) r (by simp [Call.reads]),
    fun p => ?_, hstacks, hfp⟩
  rw [hlog, created_cons]
  by_cases hp : p = q
  · subst hp
    rw [hset, ← hs.poolSet, hq]
    simp [Bool.beq_eq_decide_eq]
  · rw [hother p hp, hs.poolSet p]
    simp [Ne.symm hp]

theorem OpenNow.create {m m' : Mach} (ho : OpenNow m) {q : Pool} {r : Response}
    (hlog : m'.log = ⟨.poolCreate q, r⟩ :: m.log) (hd : m'.directory = m.directory) :
    OpenNow m' := by
  refine ho.cons_same ?_ ?_ hlog hd <;> simp [Call.Plain, Call.isDirOpen]

/-- A successful open names a handle that no earlier call closed. -/
theorem LogOk.closes_fresh {log : List Event} (hl : LogOk log) : closes (log.length + 1) log = 0 := by
  by_contra h
  have := hl.bounded _ (hl.closesOpened _ (Nat.pos_of_ne_zero h))
  omega

/-- After the close of the one open handle, no handle is open. -/
theorem OpenNow.close {m : Mach} (ho : OpenNow m) {k : ℕ} (hk : m.directory = some k)
    (r : Response) (j : ℕ) :
    ¬(j ∈ openedHandles (⟨.dirClose k, r⟩ :: m.log) ∧ closes j (⟨.dirClose k, r⟩ :: m.log) = 0) := by
  simp only [openedHandles, Call.isDirOpen, Bool.false_eq_true, false_and, ite_false, closes_cons]
  rintro ⟨hj, h0⟩
  by_cases hjk : j = k
  · simp [hjk] at h0
  · have := (ho j).mp.mt (by simp [hk, Ne.symm hjk])
    simp_all

namespace Resources

variable {m : Mach}

/-- A state that has not returned and is not creating pools. -/
theorem of_running (hret : m.pc ≠ .returned) (hc : m.pc.creating = false) (hs : Settled m)
    (ho : OpenNow m)
    (hname : m.pc = .mergeDir ∨ m.pc = .mergeFile →
      m.name.owner = .pool .middle (clears .middle m.log))
    (htmp : m.pc = .removeFile → m.tmp.owner = .pool .inner (clears .inner m.log)) :
    Resources m := by
  refine ⟨fun _ => hs, fun _ => ho, fun p hp => ?_, hname, htmp, fun h => (hret h).elim⟩
  rcases hp with hp | ⟨hp, _⟩ | ⟨hp, _⟩ <;> simp [hp, Pc.creating] at hc

theorem destroyPools (hl : LogOk m.log) (hpool : ∀ p, m.poolSet p = created p m.log)
    (hall : AllClosed m.log) : Resources m.destroyPools := by
  have hv := m.destroyEvents_void
  rw [Mach.destroyPools_eq]
  refine ⟨fun h => (h rfl).elim, fun h => (h rfl).elim, fun p hp => by simp at hp,
    fun h => by simp at h, fun h => by simp at h, fun _ => ⟨fun p => ?_, hall.append_void hv,
      fun k hk => ?_, fun k => ?_, hl.middle.append_void hv hall, readsLive_append_void hv hl.reads⟩⟩
  · rw [created_append_void hv, ← hpool p, destroys_destroyEvents, hl.undestroyed p, Nat.add_zero]
  · rw [openedHandles_append_void hv]
    exact hl.closesOpened k (by rwa [closes_append_void hv] at hk)
  · rw [closes_append_void hv]; exact hl.closedOnce k

theorem cleanup (hs : Settled m) (ho : OpenNow m) : Resources m.cleanup := by
  rw [Mach.cleanup_eq]
  split_ifs with hd
  · exact of_running (by simp) rfl ⟨hs.log, hs.poolSet, hs.stackPaths, hs.filepath⟩ ho (by simp)
      (by simp)
  · exact destroyPools hs.log hs.poolSet (ho.allClosed (by simpa using hd))

theorem nextEntry (hs : Settled m) (ho : OpenNow m) : Resources m.nextEntry := by
  have hv := Mach.voidExt_clearIf (m.counter % 1000 = 0) .inner
  rw [Mach.nextEntry_eq]
  refine of_running (by simp) rfl ⟨hs.log.append_clearIf _ (by simp) (by simp), fun p => ?_,
    hs.stackPaths, hs.filepath⟩ (ho.of_log (openedHandles_append_void hv)
      (fun k => closes_append_void hv k) rfl) (by simp) (by simp)
  rw [created_append_void hv, ← hs.poolSet p]
  cases p <;> rfl

theorem nextDone (hs : Settled m) (ho : OpenNow m) (hd : m.directory = none) :
    Resources m.nextDone := by
  cases hdone : m.done with
  | nil => rw [Mach.nextDone_nil _ hdone]; exact cleanup hs ho
  | cons top rest =>
    have hv := Mach.voidExt_clearIf (m.counter % 100 = 0) .middle
    rw [Mach.nextDone_cons _ hdone]
    refine of_running (by simp) rfl ⟨hs.log.append_clearIf _ (by simp)
      (fun _ => ho.allClosed hd), fun p => ?_, fun t ht => hs.stackPaths t ?_,
      hs.stackPaths top (by simp [hdone])⟩ (ho.of_log (openedHandles_append_void hv)
        (fun k => closes_append_void hv k) rfl) (by simp) (by simp)
    · rw [created_append_void hv, ← hs.poolSet p]
      cases p <;> rfl
    · simp only [List.mem_append, hdone, List.mem_cons] at ht ⊢
      tauto

theorem nextDir (hs : Settled m) (ho : OpenNow m) (hd : m.directory = none) :
    Resources m.nextDir := by
  cases htodo : m.todo with
  | nil => rw [Mach.nextDir_nil _ htodo]; exact nextDone hs ho hd
  | cons top rest =>
    have hv := Mach.voidExt_clearIf True .middle
    have hlog : voidEvent (.poolClear .middle) :: m.log = clearIf True .middle ++ m.log := rfl
    have hl : LogOk (voidEvent (.poolClear .middle) :: m.log) := by
      simpa only [hlog] using hs.log.append_clearIf True (by simp) (fun _ => ho.allClosed hd)
    have hop : openedHandles (voidEvent (.poolClear .middle) :: m.log) = openedHandles m.log := by
      simpa only [hlog] using openedHandles_append_void hv
    have hcl : ∀ k, closes k (voidEvent (.poolClear .middle) :: m.log) = closes k m.log := by
      simpa only [hlog] using closes_append_void hv
    rw [Mach.nextDir_cons _ htodo]
    refine of_running (by simp) rfl ⟨hl, fun p => ?_, fun t ht => hs.stackPaths t ?_,
      hs.stackPaths top (by simp [htodo])⟩ (ho.of_log hop hcl rfl) (by simp) (by simp)
    · rw [hlog, created_append_void hv, ← hs.poolSet p]
      cases p <;> rfl
    · simp only [List.mem_append, htodo, List.mem_cons] at ht ⊢
      tauto

theorem step (h : Resources m) (hf : FailFast m) (r : Response) : Resources (m.step r) := by
  by_cases hret : m.pc = .returned
  · rw [Mach.step_returned m hret]; exact h
  have hs := h.settled hret
  have ho := h.openNow hret
  have hdir := hf.holdsDir hret
  have hpool : ∀ m' : Mach, m'.outerPool = m.outerPool → m'.middlePool = m.middlePool →
      m'.innerPool = m.innerPool → m'.poolSet = m.poolSet := fun m' h1 h2 h3 => by
    funext p; cases p <;> assumption
  cases hpc : m.pc with
  | returned => exact (hret hpc).elim
  | cleanupClose =>
    obtain ⟨k, hk⟩ := Option.isSome_iff_exists.mp (hdir.mpr (by simp [hpc, Pc.holdsDir]))
    have hkc := (ho k).mpr hk
    simp only [Mach.step, hpc, Mach.emit, hk, Option.getD_some]
    refine destroyPools (hs.log.cons_close hkc.1 hkc.2 r) (fun p => ?_)
      (fun j hj => Nat.pos_of_ne_zero fun h0 => ho.close hk r j ⟨hj, h0⟩)
    rw [created_cons_of_ne (by simp), ← hs.poolSet p]; cases p <;> rfl
  | createOuter =>
    have hu := h.unset
    simp only [hpc, true_or, forall_const] at hu
    have hs₁ : Settled { m with
        pc := .createOuter, status := r.status, outerPool := decide (r.status = .success),
        log := ⟨.poolCreate .outer, r⟩ :: m.log } :=
      hs.create (hu .outer) rfl rfl (fun p hp => by cases p <;> first | rfl | exact absurd rfl hp)
        hs.stackPaths hs.filepath
    simp only [Mach.step, hpc, Mach.emit]
    split_ifs with hok
    · refine ⟨fun _ => ⟨hs₁.log, hs₁.poolSet, hs₁.stackPaths, hs₁.filepath⟩,
        fun _ => ho.create rfl rfl, fun p hp => ?_, by simp, by simp, by simp⟩
      rcases hp with hp | ⟨_, hp⟩ | hp <;> simp at hp
      cases p
      · exact absurd rfl hp
      · exact hu .middle
      · exact hu .inner
    · exact cleanup hs₁ (ho.create rfl rfl)
  | createMiddle =>
    have hu := h.unset
    simp only [hpc, reduceCtorEq, true_and, false_and, false_or, or_false] at hu
    have hs₁ : Settled { m with
        pc := .createMiddle, status := r.status, middlePool := decide (r.status = .success),
        log := ⟨.poolCreate .middle, r⟩ :: m.log } :=
      hs.create (hu .middle (by simp)) rfl rfl
        (fun p hp => by cases p <;> first | rfl | exact absurd rfl hp) hs.stackPaths hs.filepath
    simp only [Mach.step, hpc, Mach.emit]
    split_ifs with hok
    · refine ⟨fun _ => ⟨hs₁.log, hs₁.poolSet, hs₁.stackPaths, hs₁.filepath⟩,
        fun _ => ho.create rfl rfl, fun p hp => ?_, by simp, by simp, by simp⟩
      simp only [reduceCtorEq, false_and, false_or, true_and] at hp
      subst hp
      exact hu .inner (by simp)
    · exact cleanup hs₁ (ho.create rfl rfl)
  | createInner =>
    have hu := h.unset
    simp only [hpc, reduceCtorEq, false_and, false_or, true_and] at hu
    have hd : m.directory = none := by simpa [hpc, Pc.holdsDir] using hdir
    have hs₁ : Settled { m with
        pc := .createInner, status := r.status, innerPool := decide (r.status = .success),
        log := ⟨.poolCreate .inner, r⟩ :: m.log } :=
      hs.create (hu .inner rfl) rfl rfl
        (fun p hp => by cases p <;> first | rfl | exact absurd rfl hp) hs.stackPaths hs.filepath
    simp only [Mach.step, hpc, Mach.emit]
    split_ifs with hok
    · exact nextDir ⟨hs₁.log, hs₁.poolSet, by simpa using hs.filepath, hs.filepath⟩
        (ho.create rfl rfl) hd
    · exact cleanup hs₁ (ho.create rfl rfl)
  | openDir =>
    have hd : m.directory = none := by simpa [hpc, Pc.holdsDir] using hdir
    have hs₁ : Settled { m with pc := .openDir, status := r.status, log := ⟨.dirOpen m.filepath, r⟩ :: m.log } :=
      hs.cons_same (by simp [Call.Plain]) (by simp) (by simp [Call.reads, hs.filepath.live hs.log])
        rfl (hpool _ rfl rfl rfl) hs.stackPaths hs.filepath
    simp only [Mach.step, hpc, Mach.emit]
    split_ifs with hok
    · refine nextEntry ⟨hs₁.log, hs₁.poolSet, hs₁.stackPaths, hs₁.filepath⟩ fun k => ?_
      have hfresh := hs.log.closes_fresh
      have hnone := fun k => (ho k).mp.mt (by simp [hd] : m.directory ≠ some k)
      simp only [openedHandles, Call.isDirOpen, hok, and_self, ite_true, List.mem_cons, closes_cons,
        reduceCtorEq, ite_false, Nat.add_zero, List.length_cons, Option.some.injEq]
      constructor
      · rintro ⟨rfl | hk, h0⟩
        · rfl
        · exact (hnone k ⟨hk, h0⟩).elim
      · rintro rfl
        exact ⟨.inl rfl, hfresh⟩
    · refine cleanup ⟨hs₁.log, hs₁.poolSet, hs₁.stackPaths, hs₁.filepath⟩
        (ho.of_log (by simp [openedHandles, hok]) (fun k => by simp [closes_cons]) (by simp [hd]))
  | readDir =>
    have hs₁ : Settled { m with
        pc := .readDir, status := r.status,
        log := ⟨.dirRead (m.directory.getD 0), r⟩ :: m.log } :=
      hs.cons_same (by simp [Call.Plain]) (by simp) (by simp [Call.reads]) rfl
        (hpool _ rfl rfl rfl) hs.stackPaths hs.filepath
    have ho₁ : OpenNow { m with
        pc := .readDir, status := r.status,
        log := ⟨.dirRead (m.directory.getD 0), r⟩ :: m.log } :=
      ho.cons_same (by simp [Call.Plain]) (by rfl) rfl rfl
    simp only [Mach.step, hpc, Mach.emit]
    split_ifs with h1 h2 h3 h4
    · exact of_running (by simp) rfl ⟨hs₁.log, hs₁.poolSet, hs₁.stackPaths, hs₁.filepath⟩ ho₁ (by simp) (by simp)
    · exact cleanup hs₁ ho₁
    · exact nextEntry ⟨hs₁.log, hs₁.poolSet, hs₁.stackPaths, hs₁.filepath⟩ ho₁
    · exact of_running (by simp) rfl ⟨hs₁.log, hs₁.poolSet, hs₁.stackPaths, hs₁.filepath⟩ ho₁ (fun _ => rfl) (by simp)
    · exact of_running (by simp) rfl ⟨hs₁.log, hs₁.poolSet, hs₁.stackPaths, hs₁.filepath⟩ ho₁ (fun _ => rfl) (by simp)
  | mergeDir =>
    have hname := h.name (.inl hpc)
    have hs₁ : Settled { m with
        pc := .mergeDir, status := r.status,
        log := ⟨.filepathMerge m.filepath m.name .outer, r⟩ :: m.log } :=
      hs.cons_same (by simp [Call.Plain]) (by simp) (by
        simp [Call.reads, hs.filepath.live hs.log, hname, live_pool_current .middle hs.log])
        rfl (hpool _ rfl rfl rfl) hs.stackPaths hs.filepath
    have ho₁ : OpenNow { m with
        pc := .mergeDir, status := r.status,
        log := ⟨.filepathMerge m.filepath m.name .outer, r⟩ :: m.log } :=
      ho.cons_same (by simp [Call.Plain]) (by rfl) rfl rfl
    simp only [Mach.step, hpc, Mach.emit]
    split_ifs with hok
    · refine nextEntry ⟨hs₁.log, hs₁.poolSet, fun t ht => ?_, hs₁.filepath⟩ ho₁
      simp only [List.cons_append, List.mem_cons] at ht
      rcases ht with rfl | ht
      · exact .inr (by simp [Mach.alloc, hs.log.outerKept])
      · exact hs.stackPaths t ht
    · exact cleanup hs₁ ho₁
  | mergeFile =>
    have hname := h.name (.inr hpc)
    have hs₁ : Settled { m with
        pc := .mergeFile, status := r.status, counter := m.counter + 1,
        log := ⟨.filepathMerge m.filepath m.name .inner, r⟩ :: m.log } :=
      hs.cons_same (by simp [Call.Plain]) (by simp) (by
        simp [Call.reads, hs.filepath.live hs.log, hname, live_pool_current .middle hs.log])
        rfl (hpool _ rfl rfl rfl) hs.stackPaths hs.filepath
    have ho₁ : OpenNow { m with
        pc := .mergeFile, status := r.status, counter := m.counter + 1,
        log := ⟨.filepathMerge m.filepath m.name .inner, r⟩ :: m.log } :=
      ho.cons_same (by simp [Call.Plain]) (by rfl) rfl rfl
    simp only [Mach.step, hpc, Mach.emit]
    split_ifs with hok
    · exact of_running (by simp) rfl ⟨hs₁.log, hs₁.poolSet, hs₁.stackPaths, hs₁.filepath⟩ ho₁
        (by simp) (fun _ => by simp [Mach.alloc, clears, List.countP_cons])
    · exact cleanup hs₁ ho₁
  | removeFile =>
    have htmp := h.tmp hpc
    have hs₁ : Settled { m with pc := .removeFile, status := r.status, log := ⟨.fileRemove m.tmp, r⟩ :: m.log } :=
      hs.cons_same (by simp [Call.Plain]) (by simp) (by
        simp [Call.reads, htmp, live_pool_current .inner hs.log])
        rfl (hpool _ rfl rfl rfl) hs.stackPaths hs.filepath
    have ho₁ : OpenNow { m with pc := .removeFile, status := r.status, log := ⟨.fileRemove m.tmp, r⟩ :: m.log } :=
      ho.cons_same (by simp [Call.Plain]) (by rfl) rfl rfl
    simp only [Mach.step, hpc, Mach.emit]
    split_ifs with hok
    · exact nextEntry ⟨hs₁.log, hs₁.poolSet, hs₁.stackPaths, hs₁.filepath⟩ ho₁
    · exact cleanup hs₁ ho₁
  | closeDir =>
    obtain ⟨k, hk⟩ := Option.isSome_iff_exists.mp (hdir.mpr (by simp [hpc, Pc.holdsDir]))
    have hkc := (ho k).mpr hk
    have hs₁ : Settled { m with
        pc := .closeDir, status := r.status, directory := none,
        log := ⟨.dirClose k, r⟩ :: m.log } :=
      ⟨hs.log.cons_close hkc.1 hkc.2 r, fun p => by
        rw [created_cons_of_ne (by simp), ← hs.poolSet p]; cases p <;> rfl, hs.stackPaths, hs.filepath⟩
    have ho₁ : OpenNow { m with
        pc := .closeDir, status := r.status, directory := none,
        log := ⟨.dirClose k, r⟩ :: m.log } := fun j =>
      iff_of_false (ho.close hk r j) (by simp)
    simp only [Mach.step, hpc, Mach.emit, hk, Option.getD_some]
    split_ifs with hok
    · refine nextDir ⟨hs₁.log, hs₁.poolSet, fun t ht => ?_, hs₁.filepath⟩ ho₁ rfl
      simp only [List.mem_append, List.mem_cons] at ht
      rcases ht with ht | rfl | ht
      · exact hs.stackPaths t (by simp [ht])
      · exact hs.filepath
      · exact hs.stackPaths t (by simp [ht])
    · exact cleanup hs₁ ho₁
  | removeDir =>
    have hd : m.directory = none := by simpa [hpc, Pc.holdsDir] using hdir
    have hs₁ : Settled { m with pc := .removeDir, status := r.status, log := ⟨.dirRemove m.filepath, r⟩ :: m.log } :=
      hs.cons_same (by simp [Call.Plain]) (by simp) (by simp [Call.reads, hs.filepath.live hs.log])
        rfl (hpool _ rfl rfl rfl) hs.stackPaths hs.filepath
    have ho₁ : OpenNow { m with pc := .removeDir, status := r.status, log := ⟨.dirRemove m.filepath, r⟩ :: m.log } :=
      ho.cons_same (by simp [Call.Plain]) (by rfl) rfl rfl
    simp only [Mach.step, hpc, Mach.emit]
    split_ifs with hok
    · exact nextDone ⟨hs₁.log, hs₁.poolSet, hs₁.stackPaths, hs₁.filepath⟩ ho₁ hd
    · exact cleanup hs₁ ho₁

theorem init (root : Path) (filetype : Filetype) : Resources (Mach.init root filetype) where
  settled _ := ⟨LogOk.nil, fun p => by cases p <;> rfl, by simp [Mach.init], .inl rfl⟩
  openNow _ k := by simp [Mach.init, openedHandles]
  unset p _ := by cases p <;> rfl
  name h := by simp [Mach.init] at h
  tmp h := by simp [Mach.init] at h
  released h := by simp [Mach.init] at h

end Resources

theorem Reachable.resources {root : Path} {m : Mach} (h : Reachable root m) : Resources m := by
  induction h with
  | init filetype => exact Resources.init root filetype
  | step r hr ih => exact ih.step hr.failFast r

/-- Along every run, `middle_pool` is released only without open handles, every
string is read while its pool holds it, and no handle is closed twice or without
having been opened. On return every opened handle has been closed exactly once,
and each pool has been destroyed once if it was created and never otherwise. -/
theorem handles_closed_pools_released {root : Path} {m : Mach} (h : Reachable root m) :
    MiddleReleased m.log ∧ ReadsLive m.log ∧ (∀ k, closes k m.log ≤ 1) ∧
    (∀ k, 0 < closes k m.log → k ∈ openedHandles m.log) ∧
    (m.pc = .returned → (∀ k ∈ openedHandles m.log, closes k m.log = 1) ∧
      ∀ p, destroys p m.log = (created p m.log).toNat) := by
  have hr := h.resources
  by_cases hret : m.pc = .returned
  · have hrel := hr.released hret
    exact ⟨hrel.middle, hrel.reads, hrel.closedOnce, hrel.closesOpened,
      fun _ => ⟨fun k hk => le_antisymm (hrel.closedOnce k) (hrel.allClosed k hk), hrel.destroyedOnce⟩⟩
  · have hl := (hr.settled hret).log
    exact ⟨hl.middle, hl.reads, hl.closedOnce, hl.closesOpened, fun h => (hret h).elim⟩

/-- The resource laws on the run that removes the file `d/a` and then fails to
remove the directory `d`. -/
theorem handles_closed_pools_released_failed_rmdir :
    let m := (Mach.init ["d"] .reg).run [.ok, .ok, .ok, .ok, ⟨.success, ⟨"a", some .reg⟩⟩,
      .ok, .ok, ⟨.enoent, ⟨"", none⟩⟩, .ok, ⟨.other 39, ⟨"", none⟩⟩]
    Reachable ["d"] m ∧
    (MiddleReleased m.log ∧ ReadsLive m.log ∧ (∀ k, closes k m.log ≤ 1) ∧
      (∀ k, 0 < closes k m.log → k ∈ openedHandles m.log) ∧
      (m.pc = .returned → (∀ k ∈ openedHandles m.log, closes k m.log = 1) ∧
        ∀ p, destroys p m.log = (created p m.log).toNat)) :=
  ⟨(Reachable.init .reg).run _, handles_closed_pools_released ((Reachable.init .reg).run _)⟩

end LuaApr.RemoveRecursive
