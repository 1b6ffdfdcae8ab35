import LuaApr.RemoveRecursive.World

/-!
# The removal in blocks

On a file system that answers every call, the removal runs in blocks between
the heads of its loops: one entry of a directory, one directory from its
`apr_dir_open` to its `apr_dir_close`, one `apr_dir_remove`. Each block is
stated here as "some number of calls leads from one head to the next", with
what the block does to the stacks, the log and the file system.
-/

namespace LuaApr.RemoveRecursive

/-- The directory a call opens. -/
def Call.openedPath : Call → Option Path
  | .dirOpen p => some p.val
  | _ => none

/-- How often a log opens the directory `q`. -/
def opens (q : Path) (log : List Event) : ℕ :=
  log.countP fun e => decide (e.call.openedPath = some q)

@[simp] theorem opens_nil (q : Path) : opens q [] = 0 := rfl

@[simp] theorem opens_cons (q : Path) (e : Event) (log : List Event) :
    opens q (e :: log) = opens q log + if e.call.openedPath = some q then 1 else 0 := by
  simp only [opens, List.countP_cons, decide_eq_true_eq]

@[simp] theorem opens_clearIf (q : Path) (b : Prop) [Decidable b] (p : Pool) (log : List Event) :
    opens q (clearIf b p ++ log) = opens q log := by
  unfold clearIf
  split <;> simp [voidEvent, Call.openedPath]

theorem opens_destroyEvents (q : Path) (m : Mach) (log : List Event) :
    opens q (m.destroyEvents ++ log) = opens q log := by
  unfold Mach.destroyEvents
  split_ifs <;> simp [voidEvent, Call.openedPath]

/-- The function waits for `apr_dir_read` on the directory `P`, which the file
system has open with the names `rest` still to hand out; every call so far
succeeded. -/
structure AtRead (P : Path) (rest : List String) (fs : Fs) (s : Sys) : Prop where
  pc : s.mach.pc = .readDir
  status : s.mach.status = .success
  filepath : s.mach.filepath.val = P
  world : s.world = ⟨fs, some (P, rest)⟩

/-- The head of the enumeration loop: `X` is about to pop `todo`, with no
directory open and every call so far successful. -/
structure LoopHead (X : Mach) (fs : Fs) (s : Sys) : Prop where
  eq : s = ⟨X.nextDir, ⟨fs, none⟩⟩
  status : X.status = .success
  closed : X.directory = none

/-- The head of the removal loop: `Z` is about to pop `done`. -/
structure DoneHead (Z : Mach) (fs : Fs) (s : Sys) : Prop where
  eq : s = ⟨Z.nextDone, ⟨fs, none⟩⟩
  status : Z.status = .success
  closed : Z.directory = none

/-- The paths of the directories among the names `rest` of `P`. -/
def dirEntries (fs : Fs) (P : Path) (rest : List String) : List Path :=
  (rest.filter fun n => !filenameSymbolic n && fs.kind (P ++ [n]) == some .dir).map (P ++ [·])

/-- The paths of the other nodes among the names `rest` of `P`. -/
def fileEntries (fs : Fs) (P : Path) (rest : List String) : List Path :=
  (rest.filter fun n => !filenameSymbolic n && fs.kind (P ++ [n]) != some .dir).map (P ++ [·])

@[simp] theorem Mach.alloc_val {α : Type} (m : Mach) (p : Pool) (v : α) : (m.alloc p v).val = v := rfl

section Entry

variable (order : Path → List String) {P : Path} {n : String} {rest : List String} {fs : Fs} {s : Sys}


/-- The read of `.` or `..` is skipped. -/
theorem AtRead.symbolic (h : AtRead P (n :: rest) fs s) (hn : filenameSymbolic n = true) :
    AtRead P rest fs (s.run order 1) ∧ (s.run order 1).mach.todo = s.mach.todo ∧
      (s.run order 1).mach.done = s.mach.done ∧
      ∀ q, opens q (s.run order 1).mach.log = opens q s.mach.log := by
  obtain ⟨m, w⟩ := s
  obtain ⟨hpc, hst, hfp, hw⟩ := h
  dsimp only at hpc hst hfp hw
  subst hw
  refine ⟨⟨?_, ?_, ?_, ?_⟩, ?_, ?_, fun q => ?_⟩ <;>
    simp [Sys.run, Sys.step, Mach.pending, hpc, World.answer, hn, Mach.step, Mach.emit,
      Mach.nextEntry_eq, hfp, Call.openedPath]

/-- A directory entry is pushed on `todo` once its path is merged. -/
theorem AtRead.directory (h : AtRead P (n :: rest) fs s) (hn : filenameSymbolic n = false)
    (hk : fs.kind (P ++ [n]) = some .dir) :
    AtRead P rest fs (s.run order 2) ∧
      (s.run order 2).mach.todo.map (·.val) = (P ++ [n]) :: s.mach.todo.map (·.val) ∧
      (s.run order 2).mach.done = s.mach.done ∧
      ∀ q, opens q (s.run order 2).mach.log = opens q s.mach.log := by
  obtain ⟨m, w⟩ := s
  obtain ⟨hpc, hst, hfp, hw⟩ := h
  dsimp only at hpc hst hfp hw
  subst hw
  refine ⟨⟨?_, ?_, ?_, ?_⟩, ?_, ?_, fun q => ?_⟩ <;>
    simp [Sys.run, Sys.step, Mach.pending, hpc, World.answer, hn, hk, Mach.step, Mach.emit,
      Mach.nextEntry_eq, hfp, Call.openedPath, Response.ok]

/-- Any other entry is unlinked once its path is merged. -/
theorem AtRead.file (h : AtRead P (n :: rest) fs s) (hn : filenameSymbolic n = false)
    {t : Filetype} (hk : fs.kind (P ++ [n]) = some t) (ht : t ≠ .dir) :
    AtRead P rest (fs.erase (P ++ [n])) (s.run order 3) ∧
      (s.run order 3).mach.todo = s.mach.todo ∧ (s.run order 3).mach.done = s.mach.done ∧
      ∀ q, opens q (s.run order 3).mach.log = opens q s.mach.log := by
  obtain ⟨m, w⟩ := s
  obtain ⟨hpc, hst, hfp, hw⟩ := h
  dsimp only at hpc hst hfp hw
  subst hw
  have hrm : ∀ w : World, w.fs = fs → ∀ p : Tagged Path, p.val = P ++ [n] →
      w.answer order (.fileRemove p) = (.ok, { w with fs := fs.erase (P ++ [n]) }) := by
    rintro w rfl p hp
    cases t <;> simp_all [World.answer]
  refine ⟨⟨?_, ?_, ?_, ?_⟩, ?_, ?_, fun q => ?_⟩ <;>
    simp [Sys.run, Sys.step, Mach.pending, hpc, World.answer, hn, hk, ht, Mach.step, Mach.emit,
      Mach.nextEntry_eq, hfp, Call.openedPath, Response.ok, hrm]

/-- The read past the last entry leads to the close. -/
theorem AtRead.finish (h : AtRead P [] fs s) :
    (s.run order 1).mach.pc = .closeDir ∧ (s.run order 1).world.fs = fs ∧
      (s.run order 1).mach.filepath = s.mach.filepath ∧ (s.run order 1).mach.todo = s.mach.todo ∧
      (s.run order 1).mach.done = s.mach.done ∧
      ∀ q, opens q (s.run order 1).mach.log = opens q s.mach.log := by
  obtain ⟨m, w⟩ := s
  obtain ⟨hpc, hst, hfp, hw⟩ := h
  dsimp only at hpc hst hfp hw
  subst hw
  refine ⟨?_, ?_, ?_, ?_, ?_, fun q => ?_⟩ <;>
    simp [Sys.run, Sys.step, Mach.pending, hpc, World.answer, Mach.step, Mach.emit, Call.openedPath]

/-- The close pushes the directory on `done` and goes back to the head of the
enumeration loop. -/
theorem Sys.closeDir (hpc : s.mach.pc = .closeDir) :
    ∃ X, LoopHead X s.world.fs (s.run order 1) ∧ X.todo = s.mach.todo ∧
      X.done = s.mach.filepath :: s.mach.done ∧ ∀ q, opens q X.log = opens q s.mach.log := by
  obtain ⟨m, w⟩ := s
  dsimp only at hpc
  simp only [Sys.run, Sys.step, Mach.pending, hpc, World.answer, Mach.step]
  exact ⟨_, ⟨rfl, rfl, rfl⟩, rfl, rfl, fun q => by simp [Call.openedPath]⟩

/-- The read past the last entry closes the directory and pushes it on `done`. -/
theorem AtRead.close (h : AtRead P [] fs s) :
    ∃ X, LoopHead X fs (s.run order 2) ∧ X.todo = s.mach.todo ∧
      X.done.map (·.val) = P :: s.mach.done.map (·.val) ∧
      ∀ q, opens q X.log = opens q s.mach.log := by
  obtain ⟨hpc, hfs, hfp, htodo, hdone, hop⟩ := h.finish order
  obtain ⟨X, hX, hXtodo, hXdone, hXop⟩ := Sys.closeDir order hpc
  rw [hfs, ← Sys.run_add] at hX
  exact ⟨X, hX, hXtodo.trans htodo, by simp [hXdone, hfp, hdone, h.filepath],
    fun q => (hXop q).trans (hop q)⟩

end Entry

section Heads

variable (order : Path → List String) {fs : Fs} {s : Sys}

/-- The run starts with the three pools created and the root on `todo`. -/
theorem Sys.init_loopHead (fs : Fs) (root : Path) (filetype : Filetype) :
    ∃ X, LoopHead X fs ((Sys.init fs root filetype).run order 3) ∧ X.todo.map (·.val) = [root] ∧
      X.done = [] ∧ ∀ q, opens q X.log = 0 := by
  simp only [Sys.init, Sys.run, Sys.step, Mach.init, Mach.pending, World.answer, Mach.step,
    Mach.emit, Response.ok, if_true]
  exact ⟨_, ⟨rfl, rfl, rfl⟩, rfl, rfl, fun q => by simp [Call.openedPath]⟩

/-- Popping a directory opens it. -/
theorem LoopHead.openDir {X : Mach} (h : LoopHead X fs s) {top : Tagged Path} {T : List (Tagged Path)}
    (htodo : X.todo = top :: T) (hk : fs.kind top.val = some .dir) :
    AtRead top.val (order top.val) fs (s.run order 1) ∧ (s.run order 1).mach.todo = T ∧
      (s.run order 1).mach.done = X.done ∧
      ∀ q, opens q (s.run order 1).mach.log = opens q X.log + if q = top.val then 1 else 0 := by
  obtain ⟨rfl, hst, hdir⟩ := h
  rw [Mach.nextDir_cons X htodo]
  refine ⟨⟨?_, ?_, ?_, ?_⟩, ?_, ?_, fun q => ?_⟩ <;>
    simp [Sys.run, Sys.step, Mach.pending, World.answer, hk, Mach.step, Mach.emit,
      Mach.nextEntry_eq, Call.openedPath, Response.ok, voidEvent, eq_comm]

/-- Once `todo` is empty, the removal loop starts. -/
theorem LoopHead.doneHead {X : Mach} (h : LoopHead X fs s) (htodo : X.todo = []) :
    DoneHead X fs s :=
  ⟨by rw [h.eq, Mach.nextDir_nil X htodo], h.status, h.closed⟩

/-- Popping a directory without entries removes it. -/
theorem DoneHead.removeDir {Z : Mach} (h : DoneHead Z fs s) {top : Tagged Path}
    {D : List (Tagged Path)} (hdone : Z.done = top :: D) (hk : fs.kind top.val = some .dir)
    (hempty : fs.hasEntry top.val = false) :
    ∃ Z', DoneHead Z' (fs.erase top.val) (s.run order 1) ∧ Z'.done = D ∧
      ∀ q, opens q Z'.log = opens q Z.log := by
  obtain ⟨rfl, hst, hdir⟩ := h
  rw [Mach.nextDone_cons Z hdone]
  simp only [Sys.run, Sys.step, Mach.pending, World.answer, hk, hempty, and_self, if_true,
    Mach.step, Mach.emit, Response.ok]
  exact ⟨_, ⟨rfl, rfl, hdir⟩, rfl, fun q => by simp [Call.openedPath]⟩

/-- With `done` empty, the function returns its status. -/
theorem DoneHead.returned {Z : Mach} (h : DoneHead Z fs s) (hdone : Z.done = []) :
    s.mach.pc = .returned ∧ s.mach.status = .success ∧ s.world.fs = fs ∧
      ∀ q, opens q s.mach.log = opens q Z.log := by
  obtain ⟨rfl, hst, hdir⟩ := h
  rw [Mach.nextDone_nil Z hdone, Mach.cleanup_eq, if_neg (by simp [hdir]), Mach.destroyPools_eq]
  exact ⟨rfl, hst, rfl, fun q => opens_destroyEvents q Z Z.log⟩

end Heads

section Loop

variable {order : Path → List String} {P : Path}

theorem dirEntries_congr {fs fs' : Fs} {rest : List String}
    (h : ∀ n ∈ rest, filenameSymbolic n = false → fs'.kind (P ++ [n]) = fs.kind (P ++ [n])) :
    dirEntries fs' P rest = dirEntries fs P rest ∧ fileEntries fs' P rest = fileEntries fs P rest := by
  simp only [dirEntries, fileEntries]
  constructor <;> (congr 1; apply List.filter_congr; intro n hn)
  all_goals
    cases hs : filenameSymbolic n
    · simp [hs, h n hn hs]
    · simp [hs]

theorem dirEntries_cons (fs : Fs) (n : String) (rest : List String) :
    dirEntries fs P (n :: rest) =
      if filenameSymbolic n = false ∧ fs.kind (P ++ [n]) = some .dir then
        (P ++ [n]) :: dirEntries fs P rest
      else dirEntries fs P rest := by
  unfold dirEntries
  cases hs : filenameSymbolic n <;> by_cases hk : fs.kind (P ++ [n]) = some .dir <;>
    simp [List.filter_cons, hs, hk]

theorem fileEntries_cons (fs : Fs) (n : String) (rest : List String) :
    fileEntries fs P (n :: rest) =
      if filenameSymbolic n = false ∧ fs.kind (P ++ [n]) ≠ some .dir then
        (P ++ [n]) :: fileEntries fs P rest
      else fileEntries fs P rest := by
  unfold fileEntries
  cases hs : filenameSymbolic n <;> by_cases hk : fs.kind (P ++ [n]) = some .dir <;>
    simp [List.filter_cons, hs, hk]

/-- The entry loop over the names `rest` still to be read: every directory among
them is pushed on `todo`, every other node is unlinked, and then `P` is closed
and pushed on `done`. -/
theorem AtRead.loop : ∀ (rest : List String) (fs : Fs) (s : Sys), AtRead P rest fs s →
    (∀ n ∈ rest, filenameSymbolic n = false → fs.kind (P ++ [n]) ≠ none) →
    (rest.filter fun n => !filenameSymbolic n).Nodup →
    ∃ k X fs', LoopHead X fs' (s.run order k) ∧
      X.todo.map (·.val) = (dirEntries fs P rest).reverse ++ s.mach.todo.map (·.val) ∧
      X.done.map (·.val) = P :: s.mach.done.map (·.val) ∧
      (∀ q, opens q X.log = opens q s.mach.log) ∧
      ∀ q, fs'.kind q = if q ∈ fileEntries fs P rest then none else fs.kind q
  | [], fs, s, h, _, _ => by
    obtain ⟨X, hX, htodo, hdone, hop⟩ := h.close order
    exact ⟨2, X, fs, hX, by simp [htodo, dirEntries], hdone, hop, fun q => by simp [fileEntries]⟩
  | n :: rest, fs, s, h, hpresent, hnodup => by
    have hpresent' : ∀ n ∈ rest, filenameSymbolic n = false → fs.kind (P ++ [n]) ≠ none :=
      fun n' hn' => hpresent n' (List.mem_cons_of_mem n hn')
    cases hs : filenameSymbolic n with
    | true =>
      obtain ⟨h₁, htodo, hdone, hop⟩ := h.symbolic order hs
      obtain ⟨k, X, fs', hX, hXtodo, hXdone, hXop, hfs⟩ :=
        AtRead.loop rest fs _ h₁ hpresent' (by simpa [hs] using hnodup)
      refine ⟨1 + k, X, fs', by rwa [Sys.run_add], ?_, ?_, fun q => ?_, fun q => ?_⟩
      · rw [hXtodo, htodo, dirEntries_cons, if_neg (by simp [hs])]
      · rw [hXdone, hdone]
      · rw [hXop, hop]
      · rw [hfs q, fileEntries_cons,
          if_neg (show ¬(filenameSymbolic n = false ∧ fs.kind (P ++ [n]) ≠ some .dir) by simp [hs])]
    | false =>
      have hnd : n ∉ rest.filter (fun n => !filenameSymbolic n) ∧
          (rest.filter fun n => !filenameSymbolic n).Nodup := by
        simpa [hs] using hnodup
      obtain ⟨t, hk⟩ := Option.ne_none_iff_exists'.mp (hpresent n (List.mem_cons_self n rest) hs)
      by_cases ht : t = .dir
      · subst ht
        obtain ⟨h₁, htodo, hdone, hop⟩ := h.directory order hs hk
        obtain ⟨k, X, fs', hX, hXtodo, hXdone, hXop, hfs⟩ :=
          AtRead.loop rest fs _ h₁ hpresent' hnd.2
        refine ⟨2 + k, X, fs', by rwa [Sys.run_add], ?_, ?_, fun q => ?_, fun q => ?_⟩
        · rw [hXtodo, htodo, dirEntries_cons, if_pos ⟨hs, hk⟩]
          simp
        · rw [hXdone, hdone]
        · rw [hXop, hop]
        · rw [hfs q, fileEntries_cons,
            if_neg (show ¬(filenameSymbolic n = false ∧ fs.kind (P ++ [n]) ≠ some .dir) by simp [hk])]
      · obtain ⟨h₁, htodo, hdone, hop⟩ := h.file order hs hk ht
        have hsame : ∀ n' ∈ rest, filenameSymbolic n' = false →
            (fs.erase (P ++ [n])).kind (P ++ [n']) = fs.kind (P ++ [n']) := by
          intro n' hn' hs'
          have hne : n' ≠ n := by
            rintro rfl
            exact hnd.1 (by simp [hn', hs'])
          simp [Fs.kind_erase, hne]
        obtain ⟨k, X, fs', hX, hXtodo, hXdone, hXop, hfs⟩ := AtRead.loop rest _ _ h₁
          (fun n' hn' hs' => hsame n' hn' hs' ▸ hpresent' n' hn' hs') hnd.2
        obtain ⟨hdirs, hfiles⟩ := dirEntries_congr hsame
        refine ⟨3 + k, X, fs', by rwa [Sys.run_add], ?_, ?_, fun q => ?_, fun q => ?_⟩
        · rw [hXtodo, hdirs, htodo, dirEntries_cons, if_neg (by simp [hk, ht])]
        · rw [hXdone, hdone]
        · rw [hXop, hop]
        · rw [hfs q, hfiles, Fs.kind_erase, fileEntries_cons,
            if_pos (show filenameSymbolic n = false ∧ fs.kind (P ++ [n]) ≠ some .dir by simp [hs, hk, ht])]
          by_cases hq : q = P ++ [n] <;> simp [hq]

/-- One directory, from its `apr_dir_open` to its `apr_dir_close`, when the file
system hands out its entries, each once, as `order`. -/
theorem LoopHead.directory (order : Path → List String) {fs : Fs} {s : Sys} {X : Mach} (h : LoopHead X fs s) {top : Tagged Path}
    {T : List (Tagged Path)} (htodo : X.todo = top :: T) (hk : fs.kind top.val = some .dir)
    (hpresent : ∀ n ∈ order top.val, filenameSymbolic n = false → fs.kind (top.val ++ [n]) ≠ none)
    (hnodup : ((order top.val).filter fun n => !filenameSymbolic n).Nodup) :
    ∃ k Y fs', LoopHead Y fs' (s.run order k) ∧
      Y.todo.map (·.val) = (dirEntries fs top.val (order top.val)).reverse ++ T.map (·.val) ∧
      Y.done.map (·.val) = top.val :: X.done.map (·.val) ∧
      (∀ q, opens q Y.log = opens q X.log + if q = top.val then 1 else 0) ∧
      ∀ q, fs'.kind q = if q ∈ fileEntries fs top.val (order top.val) then none else fs.kind q := by
  obtain ⟨h₁, htodo₁, hdone₁, hop₁⟩ := h.openDir order htodo hk
  obtain ⟨k, Y, fs', hY, hYtodo, hYdone, hYop, hfs⟩ := AtRead.loop _ _ _ h₁ hpresent hnodup
  refine ⟨1 + k, Y, fs', by rwa [Sys.run_add], ?_, ?_, fun q => ?_, hfs⟩
  · rw [hYtodo, htodo₁]
  · rw [hYdone, hdone₁]
  · rw [hYop, hop₁]

end Loop

end LuaApr.RemoveRecursive
