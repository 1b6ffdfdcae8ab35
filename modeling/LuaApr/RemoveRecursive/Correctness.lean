import LuaApr.RemoveRecursive.Blocks
import LuaApr.RemoveRecursive.Tree

/-!
# The removal of a whole tree

On a file system whose subtree at `root` is a tree, with listings that hand out
every entry of a directory once and calls that all succeed, the removal returns
`true` and takes exactly the subtree away. The enumeration loop keeps the
directories on `todo` apart from each other and from those on `done`, and
every directory on `done` comes before its parent and has lost its other
nodes; the removal loop then finds every directory empty when it pops it.
-/

namespace LuaApr.RemoveRecursive

section Paths

variable {P c t : Path}

theorem not_prefix_of_childOf (h : childOf P c) : ¬c <+: P := fun hc => by
  have := hc.length_le
  have := length_of_childOf h
  omega

/-- Two entries of one directory are apart unless they are the same. -/
theorem eq_of_prefix_of_childOf {a b : Path} (ha : childOf P a) (hb : childOf P b) (hab : a <+: b) :
    a = b :=
  hab.eq_of_length (by rw [length_of_childOf ha, length_of_childOf hb])

/-- What lies over an entry of `P` is the entry itself or lies over `P`. -/
theorem prefix_of_childOf_of_ne (h : childOf P c) (ht : t <+: c) (hne : t ≠ c) : t <+: P := by
  have hlen : t.length < c.length := lt_of_le_of_ne ht.length_le fun hl => hne (ht.eq_of_length hl)
  exact List.prefix_of_prefix_length_le ht (prefix_of_childOf h) (by rw [length_of_childOf h] at hlen; omega)

/-- An entry of `P` lies apart from what lies apart from `P`. -/
theorem apart_of_childOf {b : Path} (h : childOf P c) (hb : ¬P <+: b ∧ ¬b <+: P) :
    ¬c <+: b ∧ ¬b <+: c := by
  refine ⟨fun hcb => hb.1 ((prefix_of_childOf h).trans hcb), fun hbc => ?_⟩
  by_cases hne : b = c
  · exact hb.1 (hne ▸ prefix_of_childOf h)
  · exact hb.2 (prefix_of_childOf_of_ne h hbc hne)

/-- Two distinct entries of one directory lie apart. -/
theorem apart_of_childOf_childOf {a b : Path} (ha : childOf P a) (hb : childOf P b) (hne : a ≠ b) :
    ¬a <+: b ∧ ¬b <+: a :=
  ⟨fun h => hne (eq_of_prefix_of_childOf ha hb h), fun h => hne (eq_of_prefix_of_childOf hb ha h).symm⟩

end Paths

section Directory

variable {fs₀ fs : Fs} {root P : Path} {order : Path → List String}

/-- The entries of a directory of the tree are named by neither `.` nor `..`. -/
theorem Fs.TreeAt.name_of_child (ht : fs₀.TreeAt root) (hP : root <+: P) {n : String} {k : Filetype}
    (hk : fs₀.kind (P ++ [n]) = some k) : filenameSymbolic n = false := by
  have hne : P ++ [n] ≠ root := by
    rintro h
    have := hP.length_le
    rw [← h, List.length_append, List.length_singleton] at this
    omega
  exact (ht.parent _ (Fs.mem_of_kind hk) (hP.trans (List.prefix_append P [n])) hne).2 n (by simp)

variable (ht : fs₀.TreeAt root) (hl : Listings fs₀ root order) (hP : fs₀.SubDir root P)
include ht hl hP

theorem dirEntries_nodup : (dirEntries fs P (order P)).Nodup := by
  have hsub : ((order P).filter fun n => !filenameSymbolic n && fs.kind (P ++ [n]) == some .dir) =
      (((order P).filter fun n => !filenameSymbolic n).filter
        fun n => !filenameSymbolic n && fs.kind (P ++ [n]) == some .dir) := by
    rw [List.filter_filter]
    congr 1
    funext n
    cases filenameSymbolic n <;> simp
  unfold dirEntries
  rw [hsub]
  exact ((ht.listing_nodup hl hP).filter _).map fun a b h => by simpa using h

variable (hsame : ∀ n, fs.kind (P ++ [n]) = fs₀.kind (P ++ [n]))
include hsame

/-- Over an untouched directory of the tree, the entry loop pushes exactly its
subdirectories. -/
theorem mem_dirEntries {c : Path} :
    c ∈ dirEntries fs P (order P) ↔ childOf P c ∧ fs₀.kind c = some .dir := by
  simp only [dirEntries, List.mem_map, List.mem_filter, Bool.and_eq_true, Bool.not_eq_true',
    beq_iff_eq, hsame]
  constructor
  · rintro ⟨n, ⟨-, -, hk⟩, rfl⟩
    exact ⟨childOf_append P n, hk⟩
  · rintro ⟨hc, hk⟩
    obtain ⟨n, rfl⟩ := childOf_iff.mp hc
    have hs := ht.name_of_child hP.1 hk
    exact ⟨n, ⟨(hl.mem hP hs).mpr (by simp [hk]), hs, hk⟩, rfl⟩

/-- Over an untouched directory of the tree, the entry loop unlinks exactly its
nodes that are not directories. -/
theorem mem_fileEntries {q : Path} :
    q ∈ fileEntries fs P (order P) ↔ childOf P q ∧ fs₀.kind q ≠ none ∧ fs₀.kind q ≠ some .dir := by
  simp only [fileEntries, List.mem_map, List.mem_filter, Bool.and_eq_true, Bool.not_eq_true',
    bne_iff_ne, ne_eq, hsame]
  constructor
  · rintro ⟨n, ⟨hn, hs, hk⟩, rfl⟩
    exact ⟨childOf_append P n, (hl.mem hP hs).mp hn, hk⟩
  · rintro ⟨hc, hnone, hk⟩
    obtain ⟨n, rfl⟩ := childOf_iff.mp hc
    obtain ⟨k, hk'⟩ := Option.ne_none_iff_exists'.mp hnone
    have hs := ht.name_of_child hP.1 hk'
    exact ⟨n, ⟨(hl.mem hP hs).mpr hnone, hs, hk⟩, rfl⟩

end Directory

section Enumeration

variable (fs₀ : Fs) (root : Path)

/-- The invariant of the enumeration loop, over the paths `T` on `todo` and `D`
on `done`, the file system `fs` and the number `opened` of opens of each path:
every directory of the subtree is on `done` or under one on `todo`; the
directories on `todo` lie apart from each other and from those on `done`; no
directory on `done` comes before one of its entries; the directories on `done`
have lost their other nodes; and they are the directories opened, once each. -/
structure Enumerated (T D : List Path) (fs : Fs) (opened : Path → ℕ) : Prop where
  todoSub : ∀ t ∈ T, fs₀.SubDir root t
  doneSub : ∀ d ∈ D, fs₀.SubDir root d
  covered : ∀ q, fs₀.SubDir root q → q ∈ D ∨ ∃ t ∈ T, t <+: q
  todoApart : T.Pairwise fun a b => ¬a <+: b ∧ ¬b <+: a
  doneApart : ∀ d ∈ D, ∀ t ∈ T, ¬t <+: d
  doneNodup : D.Nodup
  childrenFirst : D.Pairwise fun a b => childOf a b = false
  files : ∀ q, fs.kind q =
    if (∃ d ∈ D, childOf d q) ∧ fs₀.kind q ≠ some .dir then none else fs₀.kind q
  opensOnce : ∀ q, opened q = if q ∈ D then 1 else 0

variable {fs₀ root} {order : Path → List String} {P : Path} {T D : List Path} {fs : Fs}
  {opened : Path → ℕ}

theorem Enumerated.init (ht : fs₀.TreeAt root) : Enumerated fs₀ root [root] [] fs₀ fun _ => 0 where
  todoSub t h := by
    rw [List.mem_singleton.mp h]
    exact ⟨List.prefix_refl root, ht.rootDir⟩
  doneSub d h := (List.not_mem_nil d h).elim
  covered q h := .inr ⟨root, List.mem_singleton_self root, h.1⟩
  todoApart := List.pairwise_singleton _ root
  doneApart d h := (List.not_mem_nil d h).elim
  doneNodup := List.nodup_nil
  childrenFirst := List.Pairwise.nil
  files q := by simp
  opensOnce q := by simp

theorem Enumerated.head_not_done (h : Enumerated fs₀ root (P :: T) D fs opened) : P ∉ D :=
  fun hP => h.doneApart P hP P (List.mem_cons_self P T) (List.prefix_refl P)

/-- The directory on top of `todo` still has all its entries. -/
theorem Enumerated.head_untouched (h : Enumerated fs₀ root (P :: T) D fs opened) (n : String) :
    fs.kind (P ++ [n]) = fs₀.kind (P ++ [n]) := by
  rw [h.files]
  refine if_neg fun ⟨⟨d, hd, hc⟩, _⟩ => h.head_not_done ?_
  rwa [show P = d by simpa using (eq_dropLast_of_childOf hc).symm]

/-- One directory keeps the invariant: its subdirectories replace it on `todo`,
it goes on `done` and its other nodes go. -/
theorem Enumerated.step (ht : fs₀.TreeAt root) (hl : Listings fs₀ root order)
    (h : Enumerated fs₀ root (P :: T) D fs opened) {fs' : Fs} {opened' : Path → ℕ}
    (hfs : ∀ q, fs'.kind q = if q ∈ fileEntries fs P (order P) then none else fs.kind q)
    (hop : ∀ q, opened' q = opened q + if q = P then 1 else 0) :
    Enumerated fs₀ root ((dirEntries fs P (order P)).reverse ++ T) (P :: D) fs' opened' := by
  have hP := h.todoSub P (List.mem_cons_self P T)
  have hC : ∀ c, c ∈ dirEntries fs P (order P) ↔ childOf P c ∧ fs₀.kind c = some .dir :=
    fun c => mem_dirEntries ht hl hP h.head_untouched
  have hC' : ∀ c, c ∈ (dirEntries fs P (order P)).reverse → childOf P c ∧ fs₀.kind c = some .dir :=
    fun c hc => (hC c).mp (List.mem_reverse.mp hc)
  obtain ⟨hPT, hT⟩ := List.pairwise_cons.mp h.todoApart
  have hnotD := h.head_not_done
  refine ⟨?todoSub, ?doneSub, ?covered, ?todoApart, ?doneApart, ?doneNodup, ?childrenFirst, ?files,
    ?opensOnce⟩
  case todoSub =>
    intro t ht'
    rcases List.mem_append.mp ht' with hc | hc
    · exact ⟨hP.1.trans (prefix_of_childOf (hC' t hc).1), (hC' t hc).2⟩
    · exact h.todoSub t (List.mem_cons_of_mem P hc)
  case doneSub =>
    intro d hd
    rcases List.mem_cons.mp hd with rfl | hd
    · exact hP
    · exact h.doneSub d hd
  case covered =>
    intro q hq
    rcases h.covered q hq with hd | ⟨t, htT, htq⟩
    · exact .inl (List.mem_cons_of_mem P hd)
    rcases List.mem_cons.mp htT with rfl | htT
    · by_cases hqt : q = t
      · exact .inl (hqt ▸ List.mem_cons_self q D)
      have hlen : q.length = t.length + (q.length - t.length - 1) + 1 := by
        have := htq.length_le
        have : q.length ≠ t.length := fun hl => hqt (htq.eq_of_length hl.symm).symm
        omega
      obtain ⟨c, hc, hk, hcq⟩ := ht.child_toward hP.1 _ q hlen htq hq.2
      exact .inr ⟨c, List.mem_append_left _ (List.mem_reverse.mpr ((hC c).mpr ⟨hc, hk⟩)), hcq⟩
    · exact .inr ⟨t, List.mem_append_right _ htT, htq⟩
  case todoApart =>
    refine List.pairwise_append.mpr ⟨List.pairwise_reverse.mpr ((dirEntries_nodup ht hl hP).imp_of_mem
      fun ha hb hab => apart_of_childOf_childOf ((hC _).mp hb).1 ((hC _).mp ha).1 (Ne.symm hab)),
      hT, fun a ha b hb => apart_of_childOf (hC' a ha).1 (hPT b hb)⟩
  case doneApart =>
    intro d hd t' ht'
    rcases List.mem_cons.mp hd with rfl | hd <;> rcases List.mem_append.mp ht' with hc | hc
    · exact not_prefix_of_childOf (hC' t' hc).1
    · exact (hPT t' hc).2
    · exact fun htd => h.doneApart d hd _ (List.mem_cons_self _ T)
        ((prefix_of_childOf (hC' t' hc).1).trans htd)
    · exact h.doneApart d hd t' (List.mem_cons_of_mem _ hc)
  case doneNodup => exact List.nodup_cons.mpr ⟨hnotD, h.doneNodup⟩
  case childrenFirst =>
    refine List.pairwise_cons.mpr ⟨fun d hd => ?_, h.childrenFirst⟩
    by_contra hc
    exact h.doneApart d hd P (List.mem_cons_self _ _) (prefix_of_childOf (by simpa using hc))
  case files =>
    intro q
    have hmem : q ∈ fileEntries fs P (order P) ↔ _ := mem_fileEntries ht hl hP h.head_untouched
    rw [hfs q, h.files q]
    by_cases hq : childOf P q
    · have hnot : ¬∃ d ∈ D, childOf d q := fun ⟨d, hd, hdq⟩ => hnotD (by
        rwa [(eq_dropLast_of_childOf hq).trans (eq_dropLast_of_childOf hdq).symm])
      have hyes : ∃ d ∈ P :: D, childOf d q := ⟨P, List.mem_cons_self _ _, hq⟩
      by_cases hk : fs₀.kind q = none <;> by_cases hd : fs₀.kind q = some .dir <;>
        simp [hmem, hq, hnot, hyes, hk, hd]
    · have hiff : (∃ d ∈ P :: D, childOf d q) ↔ ∃ d ∈ D, childOf d q := by simp [hq]
      simp [hmem, hq, hiff]
  case opensOnce =>
    intro q
    rw [hop q, h.opensOnce q]
    by_cases hq : q = P
    · subst hq
      simp [hnotD]
    · simp [hq]

/-- At most as many directories are done as the file system has nodes. -/
theorem Enumerated.done_length_le (h : Enumerated fs₀ root T D fs opened) :
    D.length ≤ (fs₀.entries.map Prod.fst).length :=
  (List.subperm_of_subset h.doneNodup fun d hd =>
    Fs.kind_ne_none_iff.mp (by simp [(h.doneSub d hd).2])).length_le

/-- The loop over `todo`, from any head where the invariant holds, ends with
`todo` empty, after at most one directory per node of the file system. -/
theorem LoopHead.enumerate (ht : fs₀.TreeAt root) (hl : Listings fs₀ root order) (N : ℕ) :
    ∀ (X : Mach) (fs : Fs) (s : Sys), (fs₀.entries.map Prod.fst).length < N + X.done.length →
      LoopHead X fs s →
      Enumerated fs₀ root (X.todo.map (·.val)) (X.done.map (·.val)) fs (opens · X.log) →
      ∃ k Y fs', LoopHead Y fs' (s.run order k) ∧ Y.todo = [] ∧
        Enumerated fs₀ root [] (Y.done.map (·.val)) fs' (opens · Y.log) := by
  induction N with
  | zero =>
    intro X fs s hN hX hinv
    have := hinv.done_length_le
    simp only [List.length_map] at this hN
    omega
  | succ N ih =>
    intro X fs s hN hX hinv
    cases htodo : X.todo with
    | nil => exact ⟨0, X, fs, hX, htodo, by simpa [htodo] using hinv⟩
    | cons top T =>
      rw [htodo, List.map_cons] at hinv
      have hP := hinv.todoSub _ (List.mem_cons_self _ _)
      obtain ⟨k, Y, fs', hY, hYtodo, hYdone, hYop, hfs⟩ := hX.directory order htodo
        (by rw [hinv.files]; simp [hP.2])
        (fun n hn hs => by rw [hinv.head_untouched n]; exact (hl.mem hP hs).mp hn)
        (ht.listing_nodup hl hP)
      have hinv' : Enumerated fs₀ root (Y.todo.map (·.val)) (Y.done.map (·.val)) fs' (opens · Y.log) := by
        rw [hYtodo, hYdone]
        exact hinv.step ht hl hfs hYop
      have hlen : Y.done.length = X.done.length + 1 := by simpa using congrArg List.length hYdone
      obtain ⟨k', Z, fs'', hZ, hZtodo, hZinv⟩ := ih Y fs' _ (by omega) hY hinv'
      exact ⟨k + k', Z, fs'', by rwa [Sys.run_add], hZtodo, hZinv⟩

end Enumeration

section Removal

variable (fs₀ : Fs) (root : Path)

/-- The invariant of the loop over `done`, over the paths `D` still on it and
the file system `fs`: they are distinct directories of the subtree, none before
one of its entries, and the rest of the subtree is gone. -/
structure Removing (D : List Path) (fs : Fs) : Prop where
  doneSub : ∀ d ∈ D, fs₀.SubDir root d
  doneNodup : D.Nodup
  childrenFirst : D.Pairwise fun a b => childOf a b = false
  gone : ∀ q, fs.kind q = if root <+: q ∧ (fs₀.kind q ≠ some .dir ∨ q ∉ D) then none else fs₀.kind q

variable {fs₀ root} {d : Path} {D : List Path} {fs : Fs} {opened : Path → ℕ}

/-- With `todo` empty, every directory of the subtree is on `done`. -/
theorem Enumerated.mem_done (h : Enumerated fs₀ root [] D fs opened) {q : Path}
    (hq : fs₀.SubDir root q) : q ∈ D := by
  simpa using h.covered q hq

/-- When `todo` runs empty, every directory of the subtree is on `done` and every
other node of the subtree is gone. -/
theorem Enumerated.removing (ht : fs₀.TreeAt root) (h : Enumerated fs₀ root [] D fs opened) :
    Removing fs₀ root D fs := by
  refine ⟨h.doneSub, h.doneNodup, h.childrenFirst, fun q => ?_⟩
  rw [h.files q]
  cases hk : fs₀.kind q with
  | none => simp
  | some k =>
    by_cases hkd : k = .dir
    · subst hkd
      by_cases hq : root <+: q
      · simp [hq, h.mem_done ⟨hq, hk⟩]
      · simp [hq]
    · have hiff : (∃ d ∈ D, childOf d q) ↔ root <+: q := by
        refine ⟨fun ⟨d, hd, hdq⟩ => (h.doneSub d hd).1.trans (prefix_of_childOf hdq), fun hq => ?_⟩
        have hne : q ≠ root := by
          rintro rfl
          rw [ht.rootDir] at hk
          exact hkd (Option.some.inj hk).symm
        obtain ⟨hpar, hchild⟩ := ht.parent_subDir hk hq hne
        exact ⟨_, h.mem_done hpar, hchild⟩
      simp [hiff, hkd]

/-- The directory on top of `done` exists and has no entries left. -/
theorem Removing.top (h : Removing fs₀ root (d :: D) fs) :
    fs.kind d = some .dir ∧ fs.hasEntry d = false := by
  have hd := h.doneSub d (List.mem_cons_self d D)
  refine ⟨by simp [h.gone d, hd.1, hd.2], List.any_eq_false.mpr fun e he hc => ?_⟩
  have hsome : fs.kind e.1 ≠ none := Fs.kind_ne_none_iff.mpr (List.mem_map_of_mem _ he)
  rw [h.gone e.1] at hsome
  have hroot : root <+: e.1 := hd.1.trans (prefix_of_childOf hc)
  have hin : fs₀.kind e.1 = some .dir ∧ e.1 ∈ d :: D := by
    by_contra hn
    exact hsome (if_pos ⟨hroot, by tauto⟩)
  rcases List.mem_cons.mp hin.2 with heq | hmem
  · exact not_prefix_of_childOf hc (heq ▸ List.prefix_refl d)
  · have := List.rel_of_pairwise_cons h.childrenFirst hmem
    simp_all

/-- Removing the directory on top of `done` keeps the invariant for the rest. -/
theorem Removing.pop (h : Removing fs₀ root (d :: D) fs) : Removing fs₀ root D (fs.erase d) := by
  obtain ⟨hnd, hnodup⟩ := List.nodup_cons.mp h.doneNodup
  refine ⟨fun d' hd' => h.doneSub d' (List.mem_cons_of_mem d hd'), hnodup,
    (List.pairwise_cons.mp h.childrenFirst).2, fun q => ?_⟩
  rw [Fs.kind_erase, h.gone q]
  by_cases hq : q = d
  · subst hq
    simp [hnd, (h.doneSub q (List.mem_cons_self q D)).1]
  · simp [hq]

/-- The loop over `done`, from any head where the invariant holds, removes every
directory on it and returns successfully. -/
theorem DoneHead.removeAll (order : Path → List String) : ∀ (D : List Path) (Z : Mach) (fs : Fs) (s : Sys), DoneHead Z fs s →
    Z.done.map (·.val) = D → Removing fs₀ root D fs →
    ∃ k, (s.run order k).mach.pc = .returned ∧ (s.run order k).mach.status = .success ∧
      (∀ q, (s.run order k).world.fs.kind q = if root <+: q then none else fs₀.kind q) ∧
      ∀ q, opens q (s.run order k).mach.log = opens q Z.log
  | [], Z, fs, s, hZ, hdone, hinv => by
    obtain ⟨hpc, hst, hfs, hop⟩ := hZ.returned (List.map_eq_nil_iff.mp hdone)
    exact ⟨0, hpc, hst, fun q => by simp [Sys.run, hfs, hinv.gone q], hop⟩
  | d :: D, Z, fs, s, hZ, hdone, hinv => by
    obtain ⟨top, rest, htop, hd, hrest⟩ := List.map_eq_cons_iff.mp hdone
    obtain ⟨hk, hempty⟩ := hinv.top
    obtain ⟨Z', hZ', hZ'done, hop⟩ := hZ.removeDir order htop (hd ▸ hk) (hd ▸ hempty)
    obtain ⟨k, hpc, hst, hfs, hop'⟩ := DoneHead.removeAll order D Z' _ _ hZ' (by rw [hZ'done, hrest])
      (hd ▸ hinv.pop)
    exact ⟨1 + k, by rwa [Sys.run_add], by rwa [Sys.run_add], by rwa [Sys.run_add],
      fun q => by rw [Sys.run_add, hop', hop]⟩

end Removal

section Main

/-- What the removal of `root` from `fs₀` achieves: the function has returned
`true`, the subtree at `root` is gone and nothing else changed, every directory
of the subtree was opened once and nothing else was, and every successful
`apr_dir_remove` came after the removal of every node its directory had. -/
structure RemovedTree (fs₀ : Fs) (root : Path) (s : Sys) : Prop where
  returned : s.mach.pc = .returned
  result : pushStatus s.mach.status = .ok true
  subtreeGone : ∀ q, s.world.fs.kind q = if root <+: q then none else fs₀.kind q
  openedOnce : ∀ q, opens q s.mach.log = if root <+: q ∧ fs₀.kind q = some .dir then 1 else 0
  entriesFirst : EntriesFirst fs₀ s.mach.log

/-- On a tree at `root`, with any listings that hand out each entry of a
directory once and a file system that answers every call, the removal of `root`
returns `true` after removing exactly the subtree, directories after their
entries, and opens every directory of the subtree once. -/
theorem remove_recursive_removes_tree {fs₀ : Fs} {root : Path} {order : Path → List String}
    (htree : fs₀.TreeAt root) (hlist : Listings fs₀ root order) (filetype : Filetype) :
    ∃ n, RemovedTree fs₀ root ((Sys.init fs₀ root filetype).run order n) := by
  obtain ⟨X, hX, hXtodo, hXdone, hXop⟩ := Sys.init_loopHead order fs₀ root filetype
  have hinv : Enumerated fs₀ root (X.todo.map (·.val)) (X.done.map (·.val)) fs₀ (opens · X.log) := by
    rw [hXtodo, hXdone, show (opens · X.log) = fun _ => 0 from funext hXop]
    exact Enumerated.init htree
  obtain ⟨k₁, Y, fs₁, hY, hYtodo, hYinv⟩ :=
    LoopHead.enumerate htree hlist ((fs₀.entries.map Prod.fst).length + 1) X fs₀ _ (by omega) hX hinv
  obtain ⟨k₂, hpc, hst, hfs, hop⟩ :=
    DoneHead.removeAll order _ Y fs₁ _ (hY.doneHead hYtodo) rfl (hYinv.removing htree)
  have hworld := (WorldInv.init fs₀ root filetype).run order (3 + k₁ + k₂)
  have hdone : ∀ q, q ∈ Y.done.map (·.val) ↔ root <+: q ∧ fs₀.kind q = some .dir := fun q =>
    ⟨fun hq => hYinv.doneSub q hq, hYinv.mem_done⟩
  refine ⟨3 + k₁ + k₂, ?_⟩
  rw [Sys.run_add, Sys.run_add] at hworld ⊢
  refine ⟨hpc, by simp [pushStatus, hst], hfs, fun q => ?_, hworld.entriesFirst⟩
  rw [hop, hYinv.opensOnce q]
  simp only [hdone]

/-- A root with a file, a symbolic link and a subdirectory holding a file, next
to a file outside the root; the listings put `.` and `..` among the entries. -/
theorem remove_recursive_removes_tree_link_and_subdir :
    (⟨[(["d"], .dir), (["d", "a"], .reg), (["d", "l"], .lnk), (["d", "s"], .dir),
      (["d", "s", "x"], .reg), (["e"], .reg)]⟩ : Fs).TreeAt ["d"] ∧
    Listings ⟨[(["d"], .dir), (["d", "a"], .reg), (["d", "l"], .lnk), (["d", "s"], .dir),
        (["d", "s", "x"], .reg), (["e"], .reg)]⟩ ["d"]
      (fun p => if p = ["d"] then [".", "s", "a", "..", "l"] else ["x", "."]) ∧
    ∃ n, RemovedTree ⟨[(["d"], .dir), (["d", "a"], .reg), (["d", "l"], .lnk), (["d", "s"], .dir),
        (["d", "s", "x"], .reg), (["e"], .reg)]⟩ ["d"]
      ((Sys.init ⟨[(["d"], .dir), (["d", "a"], .reg), (["d", "l"], .lnk), (["d", "s"], .dir),
        (["d", "s", "x"], .reg), (["e"], .reg)]⟩ ["d"] .reg).run
        (fun p => if p = ["d"] then [".", "s", "a", "..", "l"] else ["x", "."]) n) :=
  ⟨by decide, by decide, remove_recursive_removes_tree (by decide) (by decide) .reg⟩

end Main

end LuaApr.RemoveRecursive
