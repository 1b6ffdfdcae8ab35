import LuaApr.RemoveRecursive.Machine

/-!
# What one answer does

Each label the machine jumps to between two calls is a record update with a
few pool calls put in front of the log. These equations say so once, so that
the invariants of the later files never unfold the labels again.
-/

namespace LuaApr.RemoveRecursive

/-- Which program points hold an open directory handle. -/
def Pc.holdsDir : Pc → Bool
  | .readDir | .mergeDir | .mergeFile | .removeFile | .closeDir | .cleanupClose => true
  | _ => false

/-- The program points of the enumeration phase, pool creation included. -/
def Pc.enumerating : Pc → Bool
  | .createOuter | .createMiddle | .createInner | .openDir | .readDir | .mergeDir
  | .mergeFile | .removeFile | .closeDir => true
  | _ => false

/-- The program points that create the pools. -/
def Pc.creating : Pc → Bool
  | .createOuter | .createMiddle | .createInner => true
  | _ => false

/-- A call without a status, logged with the answer `ok`. -/
def voidEvent (c : Call) : Event := ⟨c, .ok⟩

/-- A clear of pool `p` when `b` holds. -/
def clearIf (b : Prop) [Decidable b] (p : Pool) : List Event :=
  if b then [voidEvent (.poolClear p)] else []

/-- A clear or a destruction of a pool. -/
def Event.IsVoid (e : Event) : Prop :=
  e.response = .ok ∧
    match e.call with
    | .poolClear _ | .poolDestroy _ => True
    | _ => False

/-- The destructions of the `cleanup` label, newest first. -/
def Mach.destroyEvents (m : Mach) : List Event :=
  (if m.outerPool then [voidEvent (.poolDestroy .outer)] else []) ++
  (if m.middlePool then [voidEvent (.poolDestroy .middle)] else []) ++
  (if m.innerPool then [voidEvent (.poolDestroy .inner)] else [])

namespace Mach

variable (m : Mach)

@[simp] theorem emit_log (c : Call) (r : Response) : (m.emit c r).log = ⟨c, r⟩ :: m.log := rfl

theorem destroyPools_eq :
    m.destroyPools = { m with pc := .returned, log := m.destroyEvents ++ m.log } := by
  obtain ⟨_, _, outer, middle, inner, _⟩ := m
  cases outer <;> cases middle <;> cases inner <;> rfl

theorem cleanup_eq : m.cleanup =
    if m.directory.isSome then { m with pc := .cleanupClose } else m.destroyPools := rfl

theorem nextEntry_eq : m.nextEntry =
    { m with pc := .readDir, log := clearIf (m.counter % 1000 = 0) .inner ++ m.log } := by
  unfold nextEntry clearIf
  split <;> rfl

theorem nextDir_nil (h : m.todo = []) : m.nextDir = m.nextDone := by
  simp [nextDir, h]

theorem nextDir_cons {top : Tagged Path} {rest : List (Tagged Path)} (h : m.todo = top :: rest) :
    m.nextDir = { m with
      todo := rest, filepath := top, pc := .openDir,
      log := voidEvent (.poolClear .middle) :: m.log } := by
  simp [nextDir, h, emit, voidEvent]

theorem nextDone_nil (h : m.done = []) : m.nextDone = m.cleanup := by
  simp [nextDone, h]

theorem nextDone_cons {top : Tagged Path} {rest : List (Tagged Path)} (h : m.done = top :: rest) :
    m.nextDone = { m with
      done := rest, filepath := top, counter := m.counter + 1, pc := .removeDir,
      log := clearIf (m.counter % 100 = 0) .middle ++ m.log } := by
  unfold nextDone clearIf
  simp only [h]
  split <;> rfl

/-- `m'` is `m` with only pool clears and destructions put in front of its log. -/
def VoidExt (m' m : Mach) : Prop :=
  ∃ hs : List Event, (∀ e ∈ hs, e.IsVoid) ∧ m'.log = hs ++ m.log

theorem voidExt_clearIf (b : Prop) [Decidable b] (p : Pool) : ∀ e ∈ clearIf b p, e.IsVoid := by
  unfold clearIf
  split <;> simp [Event.IsVoid, voidEvent]

theorem destroyEvents_void : ∀ e ∈ m.destroyEvents, e.IsVoid := by
  unfold destroyEvents
  intro e he
  simp only [List.mem_append] at he
  rcases he with (he | he) | he <;> split at he <;> simp_all [Event.IsVoid, voidEvent]

theorem voidExt_destroyPools : VoidExt m.destroyPools m :=
  ⟨m.destroyEvents, m.destroyEvents_void, by rw [destroyPools_eq]⟩

theorem voidExt_cleanup : VoidExt m.cleanup m := by
  rw [cleanup_eq]
  split
  · exact ⟨[], by simp, rfl⟩
  · exact voidExt_destroyPools m

theorem voidExt_nextEntry : VoidExt m.nextEntry m :=
  ⟨_, voidExt_clearIf _ _, by rw [nextEntry_eq]⟩

theorem voidExt_nextDone : VoidExt m.nextDone m := by
  cases h : m.done with
  | nil => rw [nextDone_nil m h]; exact voidExt_cleanup m
  | cons top rest => exact ⟨_, voidExt_clearIf _ _, by rw [nextDone_cons m h]⟩

theorem voidExt_nextDir : VoidExt m.nextDir m := by
  cases h : m.todo with
  | nil => rw [nextDir_nil m h]; exact voidExt_nextDone m
  | cons top rest => exact ⟨[voidEvent (.poolClear .middle)], by simp [Event.IsVoid, voidEvent],
      by rw [nextDir_cons m h]; rfl⟩

theorem VoidExt.of_log {m' m₁ m₂ : Mach} (h : VoidExt m' m₁) (hl : m₁.log = m₂.log) :
    VoidExt m' m₂ := by
  obtain ⟨hs, hv, h⟩ := h
  exact ⟨hs, hv, hl ▸ h⟩

/-- An answer logs the pending call with it, then only pool clears and destructions. -/
theorem step_log {c : Call} (hc : m.pending = some c) (r : Response) :
    VoidExt (m.step r) (m.emit c r) := by
  cases hpc : m.pc <;> simp only [pending, hpc, Option.some.injEq, reduceCtorEq] at hc <;>
    subst hc <;> simp only [step, hpc, emit] <;> try split_ifs
  all_goals first
    | exact ⟨[], by simp, rfl⟩
    | exact (voidExt_nextEntry _).of_log rfl
    | exact (voidExt_nextDir _).of_log rfl
    | exact (voidExt_nextDone _).of_log rfl
    | exact (voidExt_cleanup _).of_log rfl
    | exact (voidExt_destroyPools _).of_log rfl

theorem creating_cleanup : m.cleanup.pc.creating = false := by
  rw [cleanup_eq, destroyPools_eq]
  split <;> rfl

theorem creating_nextDone : m.nextDone.pc.creating = false := by
  cases h : m.done with
  | nil => rw [nextDone_nil m h]; exact creating_cleanup m
  | cons top rest => rw [nextDone_cons m h]; rfl

theorem creating_nextDir : m.nextDir.pc.creating = false := by
  cases h : m.todo with
  | nil => rw [nextDir_nil m h]; exact creating_nextDone m
  | cons top rest => rw [nextDir_cons m h]; rfl

/-- The function never goes back to creating pools. -/
theorem creating_of_step {r : Response} (h : (m.step r).pc.creating) : m.pc.creating := by
  cases hpc : m.pc <;> simp only [step, hpc, emit] at h <;> try split_ifs at h
  all_goals
    try simp only [nextEntry_eq, destroyPools_eq, creating_nextDir, creating_nextDone,
      creating_cleanup] at h
    simp_all [Pc.creating]

theorem step_returned (h : m.pc = .returned) (r : Response) : m.step r = m := by
  simp [step, h]

end Mach

/-- Every run of answers from a reachable state stays reachable. -/
theorem Reachable.run {root : Path} {m : Mach} (h : Reachable root m) :
    ∀ rs : List Response, Reachable root (m.run rs)
  | [] => h
  | r :: rs => (h.step r).run rs

end LuaApr.RemoveRecursive
