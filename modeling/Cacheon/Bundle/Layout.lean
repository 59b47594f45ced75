import Cacheon.Bundle.Extract
import Mathlib.Algebra.Order.BigOperators.Group.List

/-!
# The layout of an extracted bundle

The extraction of an archive of plain files never fails once its files are within the bounds, and
this module says what it leaves: the files, the directories above them, and the permission bits of
both.  The bits of a directory depend on which file made it: the directory of a file is made
private, the ones further up are made with the bits that the process leaves.

* `Laid` : what the files written so far leave.
* `laid_extractMember` : one more file.
* `extractMembers_files` : all files.
-/

namespace Cacheon

open Fallible BundleFault List Assoc Cacheon.Tree Function

/-- The first file below the directory lies directly in it. -/
def firstDirect (files : Files) (d : RelativePath) : Bool :=
  (files.find? fun f => d ∈ ancestors f.1).any fun f => f.1.dropLast = d

/-- The bits that a directory is made with. -/
def requestedMode (files : Files) (d : RelativePath) : ℕ :=
  if firstDirect files d then 0o700 else 0o777

/-- The process can write into the directories that it makes. -/
def Process.Works (proc : Process) : Prop :=
  proc.permits (proc.created 0o700) 0o300 ∧ proc.permits (proc.created 0o777) 0o300

/-- What the files written so far leave under a root with the bits. -/
structure Laid (proc : Process) (bits : ℕ) (written : Files) (t : Tree) : Prop where
  root : t.mode = bits
  shaped : t.Shaped
  files : t.files = written
  dirs : ∀ d, d ∈ t.dirs ↔ ∃ f ∈ written, d ∈ ancestors f.1
  dirModes : ∀ d mode, (d, Node.dir mode) ∈ t.entries →
    mode = proc.created (requestedMode written d)
  fileModes : ∀ p mode bytes, (p, Node.file mode bytes) ∈ t.entries → mode = proc.created 0o600

namespace Tree

/-- The tree with those of some directories that it lacks. -/
def withDirs (t : Tree) (bits : ℕ) (ds : List RelativePath) : Tree :=
  { t with entries := t.entries ++ (ds.filter (· ∉ t.dirs)).map fun d => (d, .dir bits) }

variable {t : Tree} {bits : ℕ} {ds : List RelativePath} {d q : RelativePath}

@[simp] theorem files_withDirs : (t.withDirs bits ds).files = t.files := by
  simp [files, withDirs, filter_map, comp_def, Node.isFile]

theorem dirs_withDirs : (t.withDirs bits ds).dirs = t.dirs ++ ds.filter (· ∉ t.dirs) := by
  simp [dirs, withDirs, filter_map, comp_def, Node.isFile]

theorem mem_dirs_withDirs : d ∈ (t.withDirs bits ds).dirs ↔ d ∈ t.dirs ∨ d ∈ ds := by
  rw [dirs_withDirs, mem_append, mem_filter, decide_eq_true_iff]
  tauto

theorem withDirs_withDirs (h : q ∉ ds) :
    (t.withDirs bits ds).withDirs bits [q] = t.withDirs bits (ds ++ [q]) := by
  have hiff : q ∉ (t.withDirs bits ds).dirs ↔ q ∉ t.dirs := by
    rw [mem_dirs_withDirs]
    tauto
  rw [withDirs]
  simp only [filter_cons, filter_nil, hiff]
  simp only [withDirs, filter_append, filter_cons, filter_nil, map_append, append_assoc]

theorem mem_entries_withDirs {e : RelativePath × Node} :
    e ∈ (t.withDirs bits ds).entries ↔ e ∈ t.entries ∨ e.1 ∈ ds ∧ e.1 ∉ t.dirs ∧
      e.2 = .dir bits := by
  rw [withDirs, mem_append, mem_map]
  refine or_congr_right ⟨?_, ?_⟩
  · rintro ⟨d, hd, rfl⟩
    obtain ⟨hmem, hnew⟩ := mem_filter.1 hd
    exact ⟨hmem, of_decide_eq_true hnew, rfl⟩
  · rintro ⟨hmem, hnew, hnode⟩
    exact ⟨e.1, mem_filter.2 ⟨hmem, decide_eq_true hnew⟩, Prod.ext rfl hnode.symm⟩

theorem Shaped.dirMode (h : t.Shaped) {mode : ℕ} (hd : (d, Node.dir mode) ∈ t.entries) :
    t.dirMode d = some mode := by
  rw [Tree.dirMode, if_neg (h.paths _ hd).1, (Assoc.lookup_eq_some h.distinct).2 hd]

end Tree

variable {proc : Process} {t t' : Tree} {mode : ℕ} {p q : RelativePath}

/-- A directory can be made if no file is in its place and its parent can be written. -/
theorem ensureDir_of_parent (ht : t.Shaped) (hfree : ∀ f ∈ t.files, f.1 ≠ q)
    (hpar : checkParent proc t q = .ok ()) :
    ensureDir proc mode t q = .ok (t.withDirs (proc.created mode) [q]) := by
  rw [ensureDir_ok]
  by_cases hq : q ∈ t.dirs
  · obtain ⟨bits, hmem⟩ := mem_dirs.1 hq
    refine .inl ⟨⟨bits, (lookup_eq_some ht.distinct).2 hmem⟩, ?_⟩
    simp [withDirs, hq]
  · refine .inr ⟨?_, hpar, by simp [withDirs, add, hq]⟩
    rw [lookup_eq_none]
    intro hmem
    obtain ⟨⟨_, node⟩, he, rfl⟩ := mem_map.1 hmem
    cases node with
    | dir bits => exact hq (mem_dirs.2 ⟨bits, he⟩)
    | file bits bytes => exact hfree (_, bytes) (mem_files.2 ⟨bits, he⟩) rfl

/-- All directories of the tree, and its root, can be written. -/
def Writable (proc : Process) (t : Tree) : Prop :=
  proc.permits t.mode 0o300 ∧ ∀ d mode, (d, Node.dir mode) ∈ t.entries → proc.permits mode 0o300

theorem parent_of_writable (ht : t.Shaped) (hw : Writable proc t)
    (hq : q.dropLast = [] ∨ q.dropLast ∈ t.dirs) : checkParent proc t q = .ok () := by
  simp only [checkParent, bind_ok, get_ok, check_ok]
  rcases hq with hnil | hmem
  · exact ⟨t.mode, by rw [hnil, dirMode, if_pos rfl], hw.1⟩
  · obtain ⟨mode, he⟩ := mem_dirs.1 hmem
    exact ⟨mode, ht.dirMode he, hw.2 _ _ he⟩

theorem Writable.withDirs {bits : ℕ} {ds : List RelativePath} (hw : Writable proc t)
    (hbits : proc.permits bits 0o300) : Writable proc (t.withDirs bits ds) := by
  refine ⟨hw.1, fun d mode hmem => ?_⟩
  rcases mem_entries_withDirs.1 hmem with hmem | ⟨-, -, hnode⟩
  · exact hw.2 d mode hmem
  · cases hnode
    exact hbits

/-- The directories along a path can be made one after the other. -/
theorem ensureDirs_along (ht : t.Shaped) (hp : IsPath p) (hw : Writable proc t)
    (hbits : proc.permits (proc.created mode) 0o300) (hfree : ∀ f ∈ t.files, ¬ f.1 <+: p) {k : ℕ}
    (hk : k ≤ p.length) :
    ((List.range k).map fun i => p.take (i + 1)).foldlM (ensureDir proc mode) t =
      .ok (t.withDirs (proc.created mode) ((List.range k).map fun i => p.take (i + 1))) := by
  induction k with
  | zero => simp [withDirs]; rfl
  | succ k ih =>
    have ih := ih (Nat.le_of_succ_le hk)
    have hlen : (p.take (k + 1)).length = k + 1 := by
      rw [length_take]
      omega
    have hpaths : ∀ q ∈ (List.range k).map fun i => p.take (i + 1), IsPath q ∧ q.length ≤ k := by
      intro q hq
      obtain ⟨i, hi, rfl⟩ := mem_map.1 hq
      have hi := mem_range.1 hi
      refine ⟨hp.of_prefix ?_ (List.take_prefix _ _), ?_⟩
      · rw [ne_eq, take_eq_nil_iff]
        exact fun h => h.elim (Nat.succ_ne_zero i) hp.1
      · rw [length_take]
        omega
    have hnew : p.take (k + 1) ∉ (List.range k).map fun i => p.take (i + 1) := by
      intro hmem
      have hle := (hpaths _ hmem).2
      omega
    obtain ⟨hshaped, -, -⟩ := ensureDirs_spec ih ht fun q hq => (hpaths q hq).1
    have hpar : (p.take (k + 1)).dropLast = [] ∨ (p.take (k + 1)).dropLast ∈
        (t.withDirs (proc.created mode) ((List.range k).map fun i => p.take (i + 1))).dirs := by
      rw [dropLast_eq_take, hlen, Nat.add_sub_cancel, take_take, Nat.min_eq_left (Nat.le_succ k)]
      cases k with
      | zero => exact .inl rfl
      | succ k =>
        refine .inr (mem_dirs_withDirs.2 (.inr ?_))
        exact mem_map.2 ⟨k, mem_range.2 (Nat.lt_succ_self k), rfl⟩
    have hlast : ensureDir proc mode
        (t.withDirs (proc.created mode) ((List.range k).map fun i => p.take (i + 1)))
        (p.take (k + 1)) = .ok (t.withDirs (proc.created mode)
            ((List.range k).map (fun i => p.take (i + 1)) ++ [p.take (k + 1)])) := by
      rw [← withDirs_withDirs hnew]
      refine ensureDir_of_parent hshaped (fun f hf heq => ?_)
        (parent_of_writable hshaped (hw.withDirs hbits) hpar)
      rw [files_withDirs] at hf
      exact hfree f hf (heq ▸ take_prefix _ _)
    rw [range_succ, map_append, map_singleton, foldlM_append, ih]
    change (ensureDir proc mode _ _ >>= pure) = _
    rw [hlast]
    rfl

/-- The directories that a path needs: its parent and those above. -/
theorem mem_ancestors_iff {d : RelativePath} (hp : p ≠ []) :
    d ∈ ancestors p ↔ d ∈ ancestors p.dropLast ∨ d = p.dropLast ∧ p.dropLast ≠ [] := by
  refine ⟨fun h => ?_, mem_ancestors_dropLast hp⟩
  obtain ⟨hne, hbegins, hprop⟩ := mem_ancestors.1 h
  have hdrop : d <+: p.dropLast := by
    obtain ⟨rest, rfl⟩ := hbegins
    have hrest : rest ≠ [] := fun hnil => hprop (by rw [hnil, append_nil])
    rw [dropLast_append_of_ne_nil hrest]
    exact prefix_append _ _
  by_cases heq : d = p.dropLast
  · exact .inr ⟨heq, heq ▸ hne⟩
  · exact .inl (mem_ancestors.2 ⟨hne, hdrop, heq⟩)

/-- A directory with those above it can be made if no file is in the way. -/
theorem makeDirs_of_free (ht : t.Shaped) (hp : p = [] ∨ IsPath p) (hw : Writable proc t)
    (hworks : proc.Works) (hfree : ∀ f ∈ t.files, ¬ f.1 <+: p) :
    makeDirs proc t p = .ok ((t.withDirs (proc.created 0o777) (ancestors p)).withDirs
      (proc.created 0o700) (if p = [] then [] else [p])) := by
  rw [makeDirs]
  by_cases hnil : p = []
  · subst hnil
    simp [withDirs, ancestors]
  · have hp := hp.resolve_left hnil
    have habove := ensureDirs_along ht hp hw hworks.2 hfree (Nat.sub_le p.length 1)
    change (ancestors p).foldlM _ t = Except.ok (t.withDirs _ (ancestors p)) at habove
    have hpaths : ∀ q ∈ ancestors p, IsPath q := by
      intro q hq
      obtain ⟨hne, hbegins, -⟩ := mem_ancestors.1 hq
      exact hp.of_prefix hne hbegins
    obtain ⟨hshaped, -, -⟩ := ensureDirs_spec habove ht hpaths
    rw [if_neg hnil, if_neg hnil, habove]
    refine ensureDir_of_parent hshaped (fun f hf heq => ?_)
      (parent_of_writable hshaped (hw.withDirs hworks.2) ?_)
    · rw [files_withDirs] at hf
      exact hfree f hf (heq ▸ prefix_refl _)
    · by_cases hpar : p.dropLast = []
      · exact .inl hpar
      · refine .inr (mem_dirs_withDirs.2 (.inr ?_))
        exact (mem_ancestors_iff hp.1).2 (.inr ⟨rfl, hpar⟩)

/-! ### One more file -/

section File

variable {done : Files} {f : RelativePath × Bytes} {d : RelativePath}

theorem requestedMode_of_mem (h : ∃ g ∈ done, d ∈ ancestors g.1) :
    requestedMode (done ++ [f]) d = requestedMode done d := by
  have hsome : (done.find? fun g => d ∈ ancestors g.1).isSome := by
    simpa using h
  obtain ⟨g, hg⟩ := Option.isSome_iff_exists.1 hsome
  rw [requestedMode, requestedMode, firstDirect, firstDirect, find?_append, hg, Option.some_or]

theorem requestedMode_of_new (h : ∀ g ∈ done, d ∉ ancestors g.1) (hf : d ∈ ancestors f.1) :
    requestedMode (done ++ [f]) d = if f.1.dropLast = d then 0o700 else 0o777 := by
  have hnone : (done.find? fun g => d ∈ ancestors g.1) = none := by
    rw [List.find?_eq_none]
    simpa using h
  rw [requestedMode, firstDirect, find?_append, hnone, Option.none_or,
    find?_cons_of_pos (by simpa using hf), Option.any_some]
  simp only [decide_eq_true_eq]

theorem Laid.writable (hlaid : Laid proc (proc.created 0o700) done t) (hworks : proc.Works) :
    Writable proc t := by
  refine ⟨hlaid.root ▸ hworks.1, fun d mode hmem => ?_⟩
  rw [hlaid.dirModes d mode hmem, requestedMode]
  split_ifs
  · exact hworks.1
  · exact hworks.2

/-- The directories above a file can be made, each with the bits that its first file gives it. -/
theorem makeDirs_parent (ht : t.Shaped) (hw : Writable proc t) (hworks : proc.Works)
    (hpath : IsPath f.1) (hfree : ∀ g ∈ t.files, g.1 ∉ ancestors f.1) :
    ∃ t₁, makeDirs proc t f.1.dropLast = .ok t₁ ∧ t₁.mode = t.mode ∧ t₁.Shaped ∧
      Writable proc t₁ ∧ t₁.files = t.files ∧
      (∀ d, d ∈ t₁.dirs ↔ d ∈ t.dirs ∨ d ∈ ancestors f.1) ∧
      ∀ e ∈ t₁.entries, e ∈ t.entries ∨ e.1 ∉ t.dirs ∧ e.1 ∈ ancestors f.1 ∧
        e.2 = .dir (proc.created (if f.1.dropLast = e.1 then 0o700 else 0o777)) := by
  have hpar : f.1.dropLast = [] ∨ IsPath f.1.dropLast := by
    by_cases hnil : f.1.dropLast = []
    · exact .inl hnil
    · exact .inr (hpath.of_prefix hnil (List.dropLast_prefix f.1))
  have hfree' : ∀ g ∈ t.files, ¬ g.1 <+: f.1.dropLast := by
    intro g hg hbegins
    have hgpath : IsPath g.1 := by
      obtain ⟨mode, hmem⟩ := mem_files.1 hg
      exact ht.paths _ hmem
    refine hfree g hg ((mem_ancestors_iff hpath.1).2 ?_)
    by_cases heq : g.1 = f.1.dropLast
    · exact .inr ⟨heq, heq ▸ hgpath.1⟩
    · exact .inl (mem_ancestors.2 ⟨hgpath.1, hbegins, heq⟩)
  have hleaf : ∀ d, d ∈ (if f.1.dropLast = [] then [] else [f.1.dropLast]) ↔
      d = f.1.dropLast ∧ f.1.dropLast ≠ [] := by
    split_ifs with hnil <;> simp [hnil]
  have hmake := makeDirs_of_free ht hpar hw hworks hfree'
  obtain ⟨hshaped, hfiles, -⟩ := makeDirs_spec hmake ht hpar
  refine ⟨_, hmake, rfl, hshaped, (hw.withDirs hworks.2).withDirs hworks.1, hfiles, ?_, ?_⟩
  · intro d
    rw [mem_dirs_withDirs, mem_dirs_withDirs, hleaf, mem_ancestors_iff hpath.1, or_assoc]
  · intro e hmem
    rcases mem_entries_withDirs.1 hmem with hmem | ⟨hd, hnew, hnode⟩
    · rcases mem_entries_withDirs.1 hmem with hmem | ⟨hd, hnew, hnode⟩
      · exact .inl hmem
      · have hne : f.1.dropLast ≠ e.1 := fun heq => (mem_ancestors.1 hd).2.2 heq.symm
        rw [if_neg hne]
        exact .inr ⟨hnew, (mem_ancestors_iff hpath.1).2 (.inl hd), hnode⟩
    · obtain ⟨heq, hne⟩ := (hleaf e.1).1 hd
      rw [mem_dirs_withDirs, not_or] at hnew
      rw [if_pos heq.symm]
      exact .inr ⟨hnew.1, (mem_ancestors_iff hpath.1).2 (.inr ⟨heq, hne⟩), hnode⟩

/-- The files and directories after one more file. -/
theorem laid_add (hlaid : Laid proc (proc.created 0o700) done t) (hworks : proc.Works)
    (hpath : IsPath f.1) (hdist : ∀ g ∈ done, g.1 ≠ f.1) (habove : ∀ g ∈ done, f.1 ∉ ancestors g.1)
    (hbelow : ∀ g ∈ done, g.1 ∉ ancestors f.1) :
    ∃ t₁ t₂, makeDirs proc t f.1.dropLast = .ok t₁ ∧ writeFile proc t₁ f.1 f.2 = .ok t₂ ∧
      Laid proc (proc.created 0o700) (done ++ [f]) t₂ := by
  obtain ⟨t₁, hmake, hroot, hshaped, hw, hfiles, hdirs, hents⟩ :=
    makeDirs_parent hlaid.shaped (hlaid.writable hworks) hworks hpath
      fun g hg => hbelow g (hlaid.files ▸ hg)
  have hself : f.1 ∉ ancestors f.1 := fun h => (mem_ancestors.1 h).2.2 rfl
  have hlook : t₁.entries.lookup f.1 = none := by
    rw [lookup_eq_none]
    intro hmem
    obtain ⟨⟨p, node⟩, he, heq⟩ := mem_map.1 hmem
    subst heq
    cases node with
    | dir mode =>
      rcases (hdirs _).1 (mem_dirs.2 ⟨mode, he⟩) with hd | hd
      · obtain ⟨g, hg, hd⟩ := (hlaid.dirs _).1 hd
        exact habove g hg hd
      · exact hself hd
    | file mode bytes =>
      have hold : (f.1, bytes) ∈ t.files := hfiles ▸ mem_files.2 ⟨mode, he⟩
      rw [hlaid.files] at hold
      exact hdist (f.1, bytes) hold rfl
  have hpar : f.1.dropLast = [] ∨ f.1.dropLast ∈ t₁.dirs := by
    by_cases hnil : f.1.dropLast = []
    · exact .inl hnil
    · exact .inr ((hdirs _).2 (.inr ((mem_ancestors_iff hpath.1).2 (.inr ⟨rfl, hnil⟩))))
  have hwrite : writeFile proc t₁ f.1 f.2 = .ok (t₁.add f.1 (.file (proc.created 0o600) f.2)) :=
    writeFile_ok.2 ⟨hlook, parent_of_writable hshaped hw hpar, rfl⟩
  refine ⟨t₁, _, hmake, hwrite, ?_⟩
  refine ⟨hroot.trans hlaid.root, hshaped.add hpath hlook hpar, ?_, ?_, ?_, ?_⟩
  · rw [files_add_file, hfiles, hlaid.files]
  · intro d
    rw [dirs_add_file, hdirs, hlaid.dirs]
    simp only [mem_append, mem_singleton, or_and_right, exists_or, exists_eq_left]
  · intro d mode hmem
    have hmem : (d, Node.dir mode) ∈ t₁.entries := by simpa [add] using hmem
    rcases hents _ hmem with hold | ⟨hnew, hd, hnode⟩
    · have hex := (hlaid.dirs d).1 (mem_dirs.2 ⟨mode, hold⟩)
      rw [requestedMode_of_mem hex]
      exact hlaid.dirModes d mode hold
    · rw [Node.dir.inj hnode,
        requestedMode_of_new (fun g hg hd => hnew ((hlaid.dirs d).2 ⟨g, hg, hd⟩)) hd]
  · intro p mode bytes hmem
    rcases mem_append.1 hmem with hmem | hmem
    · rcases hents _ hmem with hold | ⟨-, -, hnode⟩
      · exact hlaid.fileModes p mode bytes hold
      · cases hnode
    · cases mem_singleton.1 hmem
      rfl

end File

/-! ### All files -/

/-- Files that an archive may have. -/
structure Extractable (files : Files) : Prop where
  paths : ∀ f ∈ files, IsPath f.1 ∧ memberPath f.1.posix = .ok f.1
  distinct : (files.map (·.1)).Nodup
  apart : ∀ f ∈ files, ∀ g ∈ files, f.1 ∉ ancestors g.1
  count : files.length ≤ maxMembers
  sizes : ∀ f ∈ files, f.2.length ≤ maxFileBytes
  total : (files.map (·.2.length)).sum ≤ maxExtractedBytes
  inspectable : ∀ f ∈ files, inspectableSize f.1 f.2.length ≤ maxInspectableFileBytes
  inspectableTotal : (files.map fun f => inspectableSize f.1 f.2.length).sum ≤ maxInspectableBytes

/-- The member of a file. -/
def fileMember (f : RelativePath × Bytes) : TarType × LogicalMember :=
  (.regular, ⟨f.1.posix, f.2.length, f.2⟩)

/-- An extraction after some files. -/
structure Filled (proc : Process) (done : Files) (s : Extraction) : Prop where
  tree : Laid proc (proc.created 0o700) done s.tree
  seen : s.seen = done.map fun f => (f.1, .file)
  budget : s.budget = maxExtractedBytes - (done.map (·.2.length)).sum
  inspectableBudget : s.inspectableBudget =
    maxInspectableBytes - (done.map fun f => inspectableSize f.1 f.2.length).sum
  count : s.count = done.length

theorem filled_fresh : Filled proc [] { tree := freshDirectory proc } := by
  refine ⟨⟨rfl, ⟨?_, nodup_nil, ?_⟩, rfl, ?_, ?_, ?_⟩, rfl, by simp, by simp, rfl⟩
  all_goals simp [freshDirectory, dirs]

theorem inspectableSize_nonneg (p : RelativePath) (n : ℕ) : 0 ≤ inspectableSize p n := by
  rw [inspectableSize]
  split_ifs <;> omega

/-- A file within the bounds is extracted. -/
theorem filled_extractMember {done rest : Files} {f : RelativePath × Bytes}
    {s : Extraction} (hfiles : Extractable (done ++ f :: rest)) (hworks : proc.Works)
    (hs : Filled proc done s) :
    ∃ s', extractMember proc s (fileMember f).1 (fileMember f).2 = .ok s' ∧
      Filled proc (done ++ [f]) s' := by
  have hmem : f ∈ done ++ f :: rest := mem_append_right _ (.head _)
  have hdone : ∀ g ∈ done, g ∈ done ++ f :: rest := fun g hg => mem_append_left _ hg
  obtain ⟨hpath, hname⟩ := hfiles.paths f hmem
  have hdist : ∀ g ∈ done, g.1 ≠ f.1 := by
    intro g hg heq
    have hnodup := hfiles.distinct
    rw [map_append, nodup_append] at hnodup
    exact hnodup.2.2 g.1 (mem_map_of_mem hg) f.1 (.head _) heq
  have hcount : done.length + 1 ≤ maxMembers := by
    have hlen := hfiles.count
    rw [length_append, length_cons] at hlen
    omega
  have htotal := hfiles.total
  have hinsp := hfiles.inspectableTotal
  have hsize := hfiles.sizes f hmem
  rw [map_append, sum_append, map_cons, sum_cons] at htotal hinsp
  have hrest : 0 ≤ (rest.map fun f => inspectableSize f.1 f.2.length).sum :=
    sum_nonneg fun n hn => by
      obtain ⟨g, -, rfl⟩ := mem_map.1 hn
      exact inspectableSize_nonneg _ _
  obtain ⟨t₁, t₂, hmake, hwrite, hlaid⟩ := laid_add hs.tree hworks hpath hdist
    (fun g hg => hfiles.apart f hmem g (hdone g hg))
    (fun g hg => hfiles.apart g (hdone g hg) f hmem)
  refine ⟨⟨t₂, s.seen ++ [(f.1, .file)], s.budget - f.2.length,
    s.inspectableBudget - inspectableSize f.1 f.2.length, s.count + 1⟩, ?_, ?_⟩
  · have hregular : ¬ TarType.regular = .directory := nofun
    change extractMember proc s .regular ⟨f.1.posix, f.2.length, f.2⟩ = _
    simp only [extractMember, bind_ok, exists_check]
    refine ⟨hs.count ▸ hcount, f.1, hname, ?_, ?_, ?_⟩
    · rw [hs.seen, map_map]
      intro hin
      obtain ⟨g, hg, heq⟩ := mem_map.1 hin
      exact hdist g hg heq
    · intro a ha hseen
      have hin := mem_of_lookup hseen
      rw [hs.seen] at hin
      obtain ⟨g, hg, heq⟩ := mem_map.1 hin
      cases heq
      exact hfiles.apart g (hdone g hg) f hmem ha
    rw [if_neg hregular]
    simp only [bind_ok, exists_check]
    refine ⟨rfl, ?_, by omega, by exact_mod_cast hsize, hfiles.inspectable f hmem, ?_, ?_, t₁,
      hmake, t₂, hwrite, le_refl _, le_refl _, rfl⟩
    · rw [hs.seen]
      intro prior hprior
      obtain ⟨g, hg, rfl⟩ := mem_map.1 hprior
      exact hfiles.apart f hmem g (hdone g hg)
    · rw [hs.inspectableBudget]
      omega
    · rw [hs.budget]
      omega
  · refine ⟨hlaid, ?_, ?_, ?_, ?_⟩
    · rw [hs.seen, map_append, map_singleton]
    · rw [hs.budget, map_append, sum_append]
      simp
      omega
    · rw [hs.inspectableBudget, map_append, sum_append]
      simp
      omega
    · rw [hs.count, length_append, length_singleton]

theorem filled_extract {done rest : Files} {s : Extraction}
    (hfiles : Extractable (done ++ rest)) (hworks : proc.Works) (hs : Filled proc done s) :
    ∃ s', (rest.map fileMember).foldlM (fun s m => extractMember proc s m.1 m.2) s = .ok s' ∧
      Filled proc (done ++ rest) s' := by
  induction rest generalizing done s with
  | nil => exact ⟨s, rfl, by rwa [append_nil]⟩
  | cons f rest ih =>
    obtain ⟨s₁, hfirst, hs₁⟩ := filled_extractMember hfiles hworks hs
    have happend : done ++ f :: rest = done ++ [f] ++ rest := by
      rw [append_assoc, singleton_append]
    rw [happend] at hfiles ⊢
    obtain ⟨s', hrest, hs'⟩ := ih hfiles hs₁
    refine ⟨s', ?_, hs'⟩
    rw [map_cons, foldlM_cons, hfirst]
    exact hrest

/-- **Files within the bounds are extracted, each with its directories.** -/
theorem extractMembers_files {files : Files} (hfiles : Extractable files)
    (hne : files ≠ []) (hworks : proc.Works) :
    ∃ t, extractMembers proc (files.map fileMember) = .ok t ∧
      Laid proc (proc.created 0o700) files t := by
  obtain ⟨s, hfold, hs⟩ := @filled_extract proc [] files _ hfiles hworks filled_fresh
  rw [nil_append] at hs
  have hpaths : s.filePaths = files.map (·.1) := by
    rw [Extraction.filePaths, hs.seen]
    simp [filter_map, comp_def]
  have hdirectories : s.directories = [] := by
    rw [Extraction.directories, hs.seen]
    simp [filter_map, comp_def]
  refine ⟨s.tree, ?_, hs.tree⟩
  simp only [extractMembers, bind_ok, exists_check]
  refine ⟨s, hfold, ?_, ?_, rfl⟩
  · rw [hpaths]
    exact fun hnil => hne (map_eq_nil_iff.1 hnil)
  · rw [hdirectories]
    exact forall_mem_nil _

/-! ### What an extraction needs of the process -/

/-- Whatever is in the tree, the root of the tree had to be written for it. -/
def RootUsed (proc : Process) (t : Tree) : Prop :=
  t.mode = proc.created 0o700 ∧ (t.entries ≠ [] → proc.permits t.mode 0o300)

theorem rootUsed_add {node : Node} (h : RootUsed proc t) (hpar : checkParent proc t p = .ok ()) :
    RootUsed proc (t.add p node) := by
  refine ⟨h.1, fun _ => ?_⟩
  by_cases hempty : t.entries = []
  · -- the first entry stands directly in the root
    simp only [checkParent, bind_ok, get_ok, check_ok] at hpar
    obtain ⟨mode, hmode, hpermits⟩ := hpar
    rw [dirMode, hempty] at hmode
    split_ifs at hmode with hnil
    · cases hmode
      exact hpermits
    · cases hmode
  · exact h.2 hempty

theorem rootUsed_ensureDir (h : ensureDir proc mode t p = .ok t') (ht : RootUsed proc t) :
    RootUsed proc t' := by
  obtain ⟨-, rfl⟩ | ⟨-, hpar, rfl⟩ := ensureDir_ok.1 h
  · exact ht
  · exact rootUsed_add ht hpar

theorem rootUsed_makeDirs (h : makeDirs proc t p = .ok t') (ht : RootUsed proc t) :
    RootUsed proc t' := by
  rw [makeDirs] at h
  split_ifs at h
  · cases h
    exact ht
  · rw [bind_ok] at h
    obtain ⟨t₁, habove, hlast⟩ := h
    exact rootUsed_ensureDir hlast
      (foldlM_invariant habove ht fun _ _ _ _ hstep => rootUsed_ensureDir hstep)

theorem rootUsed_extractMember {s s' : Extraction} {type : TarType} {m : LogicalMember}
    (h : extractMember proc s type m = .ok s') (hs : RootUsed proc s.tree) :
    RootUsed proc s'.tree := by
  obtain ⟨name, -, -, -, ⟨-, htree, -⟩ | ⟨-, -, -, -, -, -, t, htree, hwrite⟩⟩ :=
    extractMember_spec h
  · exact rootUsed_makeDirs htree hs
  · obtain ⟨-, hpar, heq⟩ := writeFile_ok.1 hwrite
    rw [heq]
    exact rootUsed_add (rootUsed_makeDirs htree hs) hpar

theorem rootUsed_extractMembers {members : List (TarType × LogicalMember)}
    (h : extractMembers proc members = .ok t) : RootUsed proc t := by
  simp only [extractMembers, bind_ok, exists_check] at h
  obtain ⟨s, hfold, -, -, hreturn⟩ := h
  cases hreturn
  exact foldlM_invariant (I := fun s => RootUsed proc s.tree) hfold
    ⟨rfl, fun hne => absurd rfl hne⟩ fun _ _ _ _ hstep => rootUsed_extractMember hstep

end Cacheon
