import LuaApr.RemoveRecursive.Steps

/-!
# `allocation_counter`

The function bounds two pools with one counter: `inner_pool` is cleared at the
head of the entry loop whenever the counter is a multiple of 1000, and
`middle_pool` at the head of the removal loop whenever it is a multiple of 100.
The counter counts the paths allocated in `inner_pool` and the directories
popped for removal. This file proves both bounds over every run, and that an
`int` counter overflows on a directory of 2^31 files.
-/

namespace LuaApr.RemoveRecursive

/-- Whether a call allocates a path in `inner_pool`. -/
def Call.isInnerMerge : Call → Bool
  | .filepathMerge _ _ .inner => true
  | _ => false

/-- Whether a call is an `apr_dir_remove`. -/
def Call.isDirRemove : Call → Bool
  | .dirRemove _ => true
  | _ => false

/-- How many calls of a log satisfy `f`. -/
def countCalls (f : Call → Bool) (log : List Event) : ℕ :=
  log.countP (f ·.call)

/-- How many calls satisfying `f` a newest-first log made since its last clear
of pool `p`. -/
def sinceClear (p : Pool) (f : Call → Bool) : List Event → ℕ
  | [] => 0
  | e :: log => if e.call = .poolClear p then 0 else sinceClear p f log + (f e.call).toNat

section Tally

variable {f : Call → Bool} {p : Pool} {hs log : List Event}

theorem countCalls_cons (e : Event) :
    countCalls f (e :: log) = countCalls f log + (f e.call).toNat := by
  cases h : f e.call <;> simp [countCalls, List.countP_cons, h]

theorem countCalls_append_of_false (hf : ∀ e ∈ hs, f e.call = false) :
    countCalls f (hs ++ log) = countCalls f log := by
  induction hs with
  | nil => rfl
  | cons e hs ih =>
    rw [List.cons_append, countCalls_cons, ih fun e he => hf e (by simp [he]), hf e (by simp)]
    rfl

theorem sinceClear_append_le (hf : ∀ e ∈ hs, f e.call = false) :
    sinceClear p f (hs ++ log) ≤ sinceClear p f log := by
  induction hs with
  | nil => exact le_rfl
  | cons e hs ih =>
    have ih := ih fun e he => hf e (by simp [he])
    simp only [List.cons_append, sinceClear, hf e (by simp)]
    split <;> simp [ih]

theorem sinceClear_le_countCalls : sinceClear p f log ≤ countCalls f log := by
  induction log with
  | nil => exact le_rfl
  | cons e log ih =>
    rw [countCalls_cons, sinceClear]
    split <;> omega

end Tally

/-- Pool calls allocate nothing and remove nothing. -/
theorem Event.IsVoid.untallied {e : Event} (h : e.IsVoid) :
    e.call.isInnerMerge = false ∧ e.call.isDirRemove = false := by
  obtain ⟨_, hc⟩ := h
  revert hc
  cases e.call <;> simp [Call.isInnerMerge, Call.isDirRemove]

/-- A call that allocates no path in `inner_pool`, removes no directory and
does not clear `inner_pool`. -/
def Call.Neutral (c : Call) : Prop :=
  c.isInnerMerge = false ∧ c.isDirRemove = false ∧ c ≠ .poolClear .inner

theorem Call.Neutral.sinceClear_inner {c : Call} (hc : c.Neutral) (r : Response)
    (log : List Event) :
    sinceClear .inner Call.isInnerMerge (⟨c, r⟩ :: log) = sinceClear .inner Call.isInnerMerge log := by
  simp [sinceClear, hc.1, hc.2.2]

/-- The tallies of a log with counter value `counter`, between two calls of the
removal loop: the counter counts the inner allocations and the directory
removals, and each pool bound holds. -/
structure Counted (counter : ℕ) (log : List Event) : Prop where
  count : counter = countCalls Call.isInnerMerge log + countCalls Call.isDirRemove log
  inner : sinceClear .inner Call.isInnerMerge log ≤ 1000
  middle : sinceClear .middle Call.isDirRemove log ≤ 100

/-- The tallies during the enumeration: the inner allocations since the last
clear follow the counter modulo 1000, and no directory has been removed. -/
structure Enumerating (counter : ℕ) (log : List Event) : Prop where
  counted : Counted counter log
  innerMod : sinceClear .inner Call.isInnerMerge log % 1000 = counter % 1000
  noRemove : countCalls Call.isDirRemove log = 0

theorem Counted.append_void {n : ℕ} {hs log : List Event} (h : Counted n log)
    (hv : ∀ e ∈ hs, e.IsVoid) : Counted n (hs ++ log) := by
  have hi : ∀ e ∈ hs, e.call.isInnerMerge = false := fun e he => (hv e he).untallied.1
  have hd : ∀ e ∈ hs, e.call.isDirRemove = false := fun e he => (hv e he).untallied.2
  exact ⟨by rw [countCalls_append_of_false hi, countCalls_append_of_false hd]; exact h.count,
    (sinceClear_append_le hi).trans h.inner, (sinceClear_append_le hd).trans h.middle⟩

theorem Counted.cons_neutral {n : ℕ} {log : List Event} (h : Counted n log) {c : Call}
    (hc : c.Neutral) (r : Response) : Counted n (⟨c, r⟩ :: log) := by
  obtain ⟨hi, hd, hcl⟩ := hc
  refine ⟨?_, ?_, ?_⟩ <;> simp only [countCalls_cons, sinceClear, hi, hd, hcl, if_false]
  · simpa using h.count
  · simpa using h.inner
  · split <;> simp [h.middle]

theorem Enumerating.cons_neutral {n : ℕ} {log : List Event} (h : Enumerating n log) {c : Call}
    (hc : c.Neutral) (r : Response) : Enumerating n (⟨c, r⟩ :: log) := by
  refine ⟨h.counted.cons_neutral hc r, ?_, ?_⟩ <;>
    simp only [countCalls_cons, sinceClear, hc.1, hc.2.1, hc.2.2, if_false, Bool.toNat_false,
      Nat.add_zero]
  · exact h.innerMod
  · exact h.noRemove

/-- An allocation in `inner_pool`, with the counter's increment beside it. -/
theorem Enumerating.cons_merge {n : ℕ} {log : List Event} (h : Enumerating n log)
    (hlt : sinceClear .inner Call.isInnerMerge log < 1000) (base : Tagged Path)
    (name : Tagged String) (r : Response) :
    Enumerating (n + 1) (⟨.filepathMerge base name .inner, r⟩ :: log) := by
  have hc := h.counted
  have hm := h.innerMod
  refine ⟨⟨?_, ?_, ?_⟩, ?_, ?_⟩ <;>
    simp only [countCalls_cons, sinceClear, Call.isInnerMerge, Call.isDirRemove, reduceCtorEq,
      if_false, Bool.toNat_true, Bool.toNat_false, Nat.add_zero]
  · rw [hc.count]; omega
  · omega
  · exact hc.middle
  · omega
  · exact h.noRemove

/-- A directory removal, already counted by the counter: the tallies count it,
and the removal loop's next head sees at most as many removals since the last
clear of `middle_pool` as the counter's residue modulo 100. -/
theorem Counted.cons_remove {n : ℕ} {log : List Event} (hc : Counted (n - 1) log) (hpos : 0 < n)
    (hb : sinceClear .middle Call.isDirRemove log ≤ (n - 1) % 100) (path : Tagged Path)
    (r : Response) :
    Counted n (⟨.dirRemove path, r⟩ :: log) ∧
      (n % 100 ≠ 0 → sinceClear .middle Call.isDirRemove (⟨.dirRemove path, r⟩ :: log) ≤ n % 100) := by
  have := hc.count
  have := hc.inner
  refine ⟨⟨?_, ?_, ?_⟩, fun _ => ?_⟩ <;>
    simp only [sinceClear, countCalls_cons, Call.isInnerMerge, Call.isDirRemove, reduceCtorEq,
      if_false, Bool.toNat_true, Bool.toNat_false, Nat.add_zero] <;> omega

/-- The counter invariant of every reachable state. While a directory removal is
pending, the counter already counts it. -/
structure CounterInv (m : Mach) : Prop where
  counted : m.pc ≠ .removeDir → Counted m.counter m.log
  enumerating : m.pc.enumerating → Enumerating m.counter m.log
  entry : m.pc = .readDir ∨ m.pc = .mergeDir ∨ m.pc = .mergeFile →
    sinceClear .inner Call.isInnerMerge m.log < 1000
  removing : m.pc = .removeDir → Counted (m.counter - 1) m.log ∧ 0 < m.counter ∧
    sinceClear .middle Call.isDirRemove m.log ≤ (m.counter - 1) % 100

namespace CounterInv

variable {m : Mach}

theorem of_enumerating (hpc : m.pc.enumerating) (he : Enumerating m.counter m.log)
    (hentry : m.pc = .readDir ∨ m.pc = .mergeDir ∨ m.pc = .mergeFile →
      sinceClear .inner Call.isInnerMerge m.log < 1000) : CounterInv m :=
  ⟨fun _ => he.counted, fun _ => he, hentry, fun h => by simp [h, Pc.enumerating] at hpc⟩

theorem of_stopped (hpc : m.pc = .cleanupClose ∨ m.pc = .returned) (hc : Counted m.counter m.log) :
    CounterInv m := by
  refine ⟨fun _ => hc, fun h => ?_, fun h => ?_, fun h => ?_⟩ <;>
    rcases hpc with hpc | hpc <;> simp_all [Pc.enumerating]

theorem destroyPools (hc : Counted m.counter m.log) : CounterInv m.destroyPools := by
  obtain ⟨hs, hv, hl⟩ := Mach.voidExt_destroyPools m
  rw [Mach.destroyPools_eq] at hl ⊢
  exact of_stopped (.inr rfl) (hl ▸ hc.append_void hv)

theorem cleanup (hc : Counted m.counter m.log) : CounterInv m.cleanup := by
  rw [Mach.cleanup_eq]
  split
  · exact of_stopped (.inl rfl) hc
  · exact destroyPools hc

theorem nextEntry (he : Enumerating m.counter m.log) : CounterInv m.nextEntry := by
  rw [Mach.nextEntry_eq]
  refine of_enumerating rfl ?_ fun _ => ?_ <;> unfold clearIf <;> split_ifs with h0
  · have hc := he.counted
    refine ⟨⟨?_, ?_, ?_⟩, ?_, ?_⟩ <;>
      simp only [voidEvent, List.singleton_append, countCalls_cons, sinceClear, Call.isInnerMerge,
        Call.isDirRemove, Pool.inner, reduceCtorEq, if_true, if_false, Bool.toNat_false,
        Nat.add_zero]
    · exact hc.count
    · omega
    · exact hc.middle
    · omega
    · exact he.noRemove
  · exact he
  · simp [voidEvent, sinceClear]
  · have := he.innerMod
    have := he.counted.inner
    simp only [List.nil_append]
    omega

theorem nextDone (hc : Counted m.counter m.log)
    (hb : m.counter % 100 ≠ 0 → sinceClear .middle Call.isDirRemove m.log ≤ m.counter % 100) :
    CounterInv m.nextDone := by
  cases hdone : m.done with
  | nil => rw [Mach.nextDone_nil m hdone]; exact cleanup hc
  | cons top rest =>
    rw [Mach.nextDone_cons m hdone]
    have hv := Mach.voidExt_clearIf (m.counter % 100 = 0) .middle
    refine ⟨fun h => (h rfl).elim, fun h => by simp [Pc.enumerating] at h,
      fun h => by simp at h, fun _ => ⟨hc.append_void hv, Nat.succ_pos _, ?_⟩⟩
    unfold clearIf
    split_ifs with h0
    · simp [voidEvent, sinceClear]
    · simpa using hb h0

theorem nextDir (he : Enumerating m.counter m.log) : CounterInv m.nextDir := by
  cases htodo : m.todo with
  | nil =>
    rw [Mach.nextDir_nil m htodo]
    have h0 : sinceClear .middle Call.isDirRemove m.log ≤ countCalls Call.isDirRemove m.log :=
      sinceClear_le_countCalls
    exact nextDone he.counted fun _ => by rw [he.noRemove] at h0; omega
  | cons top rest =>
    rw [Mach.nextDir_cons m htodo]
    exact of_enumerating rfl (he.cons_neutral ⟨by rfl, by rfl, by simp [voidEvent]⟩ _) (by simp)

theorem step (h : CounterInv m) (r : Response) : CounterInv (m.step r) := by
  cases hpc : m.pc with
  | returned => rw [Mach.step_returned m hpc]; exact h
  | cleanupClose =>
    simp only [Mach.step, hpc]
    exact destroyPools ((h.counted (by simp [hpc])).cons_neutral ⟨by rfl, by rfl, by simp⟩ r)
  | removeDir =>
    obtain ⟨hc, hpos, hb⟩ := h.removing hpc
    obtain ⟨hc', hb'⟩ := hc.cons_remove hpos hb m.filepath r
    simp only [Mach.step, hpc, Mach.emit]
    split_ifs
    · exact nextDone hc' hb'
    · exact cleanup hc'
  | createOuter | createMiddle | createInner | openDir | mergeDir | removeFile | closeDir =>
    have he := h.enumerating (by simp [hpc, Pc.enumerating])
    have hc : ∀ c : Call, c.isInnerMerge = false → c.isDirRemove = false →
        c ≠ .poolClear .inner → Enumerating m.counter (⟨c, r⟩ :: m.log) :=
      fun c h1 h2 h3 => he.cons_neutral ⟨h1, h2, h3⟩ r
    simp only [Mach.step, hpc, Mach.emit]
    split_ifs
    all_goals first
      | exact cleanup (hc _ (by rfl) (by rfl) (by simp)).counted
      | exact nextEntry (hc _ (by rfl) (by rfl) (by simp))
      | exact nextDir (hc _ (by rfl) (by rfl) (by simp))
      | exact of_enumerating rfl (hc _ (by rfl) (by rfl) (by simp)) (by simp)
  | readDir =>
    have hc : Call.Neutral (.dirRead (m.directory.getD 0)) := ⟨rfl, rfl, by simp⟩
    have he := (h.enumerating (by simp [hpc, Pc.enumerating])).cons_neutral hc r
    have hlt := hc.sinceClear_inner r m.log ▸ h.entry (.inl hpc)
    simp only [Mach.step, hpc, Mach.emit]
    split_ifs
    · exact of_enumerating rfl he (by simp)
    · exact cleanup he.counted
    · exact nextEntry he
    · exact of_enumerating rfl he fun _ => hlt
    · exact of_enumerating rfl he fun _ => hlt
  | mergeFile =>
    have he := (h.enumerating (by simp [hpc, Pc.enumerating])).cons_merge
      (h.entry (.inr (.inr hpc))) m.filepath m.name r
    simp only [Mach.step, hpc, Mach.emit]
    split_ifs
    · exact of_enumerating rfl he (by simp)
    · exact cleanup he.counted

theorem init (root : Path) (filetype : Filetype) : CounterInv (Mach.init root filetype) :=
  of_enumerating rfl ⟨⟨rfl, by simp [sinceClear], by simp [sinceClear]⟩, rfl, rfl⟩ (by simp [Mach.init])

end CounterInv

end LuaApr.RemoveRecursive
