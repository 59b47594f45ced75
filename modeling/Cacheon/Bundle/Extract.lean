import Cacheon.Bundle.TarStream
import Cacheon.Lib.Assoc

/-!
# Extraction of archives

An archive is extracted member by member into a fresh private directory.  Every member is checked
against the members before it and against the bounds on numbers and sizes.

* `Process` : the process that creates files: its mask for permission bits.
* `makeDirs`, `writeFile` : the two ways in which the directory grows.
* `safeExtract` : the extraction; `bundleRoot` — the directory that is taken for the bundle.
* `safeExtract_contained` : what an extraction leaves, and that the identity covers all of it.

Deadlines are not modelled: they only add refusals.
-/

namespace Cacheon

open Fallible BundleFault List Cacheon.Tree

/-! ### The file system -/

/-- The process that creates files and directories. -/
structure Process where
  /-- The permission bits that no new file gets. -/
  umask : Fin 0o1000
  /-- Permission bits do not bind the process. -/
  privileged : Bool
deriving DecidableEq

namespace Process

variable (proc : Process)

/-- The permission bits of a new file or directory. -/
def created (mode : ℕ) : ℕ := mode &&& (0o777 ^^^ proc.umask.val)

/-- The owner may use a directory with these bits so. -/
def permits (mode bits : ℕ) : Prop := proc.privileged = true ∨ mode &&& bits = bits

instance (mode bits : ℕ) : Decidable (proc.permits mode bits) := inferInstanceAs (Decidable (_ ∨ _))

end Process

/-- An operation that the operating system refuses. -/
def osError : BundleFault := fetch "corrupt archive"

namespace Tree

/-- The permission bits of a directory of the tree, or of its root. -/
def dirMode (t : Tree) (p : RelativePath) : Option ℕ :=
  if p = [] then some t.mode
  else match t.entries.lookup p with
    | some (.dir mode) => some mode
    | _ => none

/-- The tree with one more entry. -/
def add (t : Tree) (p : RelativePath) (node : Node) : Tree :=
  { t with entries := t.entries ++ [(p, node)] }

end Tree

variable (proc : Process)

variable (t : Tree)

/-- A new entry needs a directory that may be searched and written. -/
def checkParent (p : RelativePath) : BundleM Unit := do
  let mode ← get osError (t.dirMode p.dropLast)
  check (proc.permits mode 0o300) osError

/-- A directory, unless it exists. -/
def ensureDir (mode : ℕ) (t : Tree) (p : RelativePath) : BundleM Tree :=
  match t.entries.lookup p with
  | some (.dir _) => .ok t
  | some (.file _ _) => .error osError
  | none => do
    checkParent proc t p
    return t.add p (.dir (proc.created mode))

/-- A directory with those above it.  Only the directory itself gets the private mode. -/
def makeDirs (p : RelativePath) : BundleM Tree :=
  if p = [] then .ok t
  else do
    let t ← (ancestors p).foldlM (ensureDir proc 0o777) t
    ensureDir proc 0o700 t p

/-- A new file. -/
def writeFile (p : RelativePath) (bytes : Bytes) : BundleM Tree := do
  check (t.entries.lookup p = none) osError
  checkParent proc t p
  return t.add p (.file (proc.created 0o600) bytes)

/-! ### The extraction -/

def maxFileBytes : ℕ := 16 * 1024 * 1024

def maxInspectableFileBytes : ℕ := 8 * 1024 * 1024

def maxInspectableBytes : ℕ := 32 * 1024 * 1024

/-- The suffixes of files that are read before they are run. -/
def inspectableSuffixes : List String := [".py", ".cu", ".cuh", ".patch", ".diff", ".toml", ".json"]

/-- What a member was. -/
inductive MemberKind where
  | dir
  | file
deriving DecidableEq

/-- An extraction in progress. -/
structure Extraction where
  tree : Tree
  seen : List (RelativePath × MemberKind) := []
  budget : ℤ := maxExtractedBytes
  inspectableBudget : ℤ := maxInspectableBytes
  count : ℕ := 0

namespace Extraction

variable (s : Extraction)

/-- The directories that are members. -/
def directories : List RelativePath := (s.seen.filter (·.2 = .dir)).map (·.1)

/-- The files that are members. -/
def filePaths : List RelativePath := (s.seen.filter (·.2 = .file)).map (·.1)

end Extraction

/-- The member is a regular file. -/
def TarType.isReg : TarType → Bool
  | regular | sparse => true
  | _ => false

/-- The bytes that a file takes of the budget of the inspectable files. -/
def inspectableSize (name : RelativePath) (size : ℤ) : ℤ :=
  if inspectableSuffixes.contains (suffix (fileName name)) then size else 0

/-- One member of an archive. -/
def extractMember (s : Extraction) (type : TarType) (m : LogicalMember) :
    BundleM Extraction := do
  check (s.count + 1 ≤ maxMembers) (fetch "archive has more than 4096 members")
  let name ← memberPath m.name
  check (name ∉ s.seen.map (·.1)) (named (fetch "archive contains duplicate member path: ") m.name)
  check (∀ a ∈ ancestors name, s.seen.lookup a ≠ some .file)
    (named (fetch "archive path conflicts with earlier file ")
      (((ancestors name).reverse.find? fun a => s.seen.lookup a = some .file).getD []).posix)
  if type = .directory then
    let tree ← makeDirs proc s.tree name
    return { s with tree, seen := s.seen ++ [(name, .dir)], count := s.count + 1 }
  check type.isReg (named (fetch "archive member is not a regular file: ") m.name)
  check (∀ prior ∈ s.seen, name ∉ ancestors prior.1)
    (named (fetch "archive file conflicts with an earlier child: ") m.name)
  check (0 ≤ m.size) (named (fetch "archive member has an invalid size: ") m.name)
  check (m.size ≤ maxFileBytes)
    (named (fetch "archive member exceeds the 16777216-byte per-file budget: ") m.name)
  check (inspectableSize name m.size ≤ maxInspectableFileBytes)
    (named (fetch "inspectable archive member exceeds its per-file budget: ") m.name)
  let inspectableBudget := s.inspectableBudget - inspectableSize name m.size
  check (0 ≤ inspectableBudget) (fetch "inspectable archive members exceed their aggregate budget")
  let budget := s.budget - m.size
  check (0 ≤ budget) (fetch "extracted size exceeds 268435456 bytes")
  let tree ← makeDirs proc s.tree name.dropLast
  let tree ← writeFile proc tree name m.data
  check (m.size ≤ m.data.length) (named (fetch "archive member was truncated: ") m.name)
  check (m.data.length ≤ m.size)
    (named (fetch "archive member exceeded its declared size: ") m.name)
  return ⟨tree, s.seen ++ [(name, .file)], budget, inspectableBudget, s.count + 1⟩

/-- The members that `tarfile` yields. -/
def membersOf (visits : List Visit) : List (TarType × LogicalMember) :=
  visits.filterMap fun v => v.member.map fun m => (v.header.type, m)

/-- A fresh private directory. -/
def freshDirectory : Tree := ⟨proc.created 0o700, []⟩

/-- All members, and the checks after the last one. -/
def extractMembers (members : List (TarType × LogicalMember)) : BundleM Tree := do
  let s ← members.foldlM (fun s m => extractMember proc s m.1 m.2) { tree := freshDirectory proc }
  check (s.filePaths ≠ []) (fetch "archive contains no identity-bearing files")
  check (∀ d ∈ s.directories, d ∈ s.filePaths.flatMap ancestors)
    (fetch "archive contains identity-excluded empty directories")
  return s.tree

/-- Extract an archive into a fresh directory. -/
def safeExtract (fmt : TarFormat) (archive : Bytes) : BundleM Tree := do
  let _ ← preflightTarStream fmt archive
  let tree ← extractMembers proc (membersOf (walkTar fmt archive).1)
  check ((walkTar fmt archive).2 = .stopped) osError
  return tree

/-! ### The root of the bundle -/

/-- What stands directly in a directory. -/
def Tree.top : List (RelativePath × Node) := t.entries.filter (·.1.length = 1)

/-- An entry below a directory, seen from there. -/
def entryBelow (name : String) : RelativePath × Node → Option (RelativePath × Node)
  | (first :: second :: rest, node) =>
    if first = name then some (second :: rest, node) else none
  | _ => none

/-- A directory of a tree as a tree. -/
def Tree.below (name : String) (mode : ℕ) : Tree :=
  ⟨mode, t.entries.filterMap (entryBelow name)⟩

/-- The directory that is taken for the bundle: the only directory, or the whole. -/
def bundleRoot : BundleM (RelativePath × Tree) := do
  check (proc.permits t.mode 0o500) (os "permission denied")
  return match t.top with
    | [([name], .dir mode)] => ([name], t.below name mode)
    | _ => ([], t)

/-! ### How the directory grows -/

/-- The directories above a path are its proper beginnings. -/
theorem mem_ancestors {d p : RelativePath} : d ∈ ancestors p ↔ d ≠ [] ∧ d <+: p ∧ d ≠ p := by
  simp only [ancestors, mem_map, mem_range]
  constructor
  · rintro ⟨i, hi, rfl⟩
    have hlen : (p.take (i + 1)).length = i + 1 := by
      rw [length_take]
      omega
    refine ⟨?_, take_prefix _ _, fun heq => ?_⟩
    · rw [← length_pos_iff]
      omega
    · rw [heq] at hlen
      omega
  · rintro ⟨hne, hbegins, hprop⟩
    have hpos := length_pos_iff.2 hne
    have hlt : d.length < p.length :=
      lt_of_le_of_ne hbegins.length_le fun heq => hprop (hbegins.eq_of_length heq)
    refine ⟨d.length - 1, by omega, ?_⟩
    rw [Nat.sub_add_cancel hpos]
    exact (prefix_iff_eq_take.1 hbegins).symm

theorem IsPath.of_prefix {d p : RelativePath} (h : IsPath p) (hne : d ≠ []) (hd : d <+: p) :
    IsPath d :=
  ⟨hne, fun c hc => h.2 c (hd.subset hc)⟩

namespace Tree

variable {t : Tree} {p : RelativePath} {mode : ℕ} {bytes : Bytes}

@[simp] theorem files_add_dir : (t.add p (.dir mode)).files = t.files := by
  simp [files, add, Node.isFile]

@[simp] theorem files_add_file : (t.add p (.file mode bytes)).files = t.files ++ [(p, bytes)] := by
  simp [files, add, Node.isFile, Node.bytes]

@[simp] theorem dirs_add_dir : (t.add p (.dir mode)).dirs = t.dirs ++ [p] := by
  simp [dirs, add, Node.isFile]

@[simp] theorem dirs_add_file : (t.add p (.file mode bytes)).dirs = t.dirs := by
  simp [dirs, add, Node.isFile]

/-- What every file system keeps: one entry for each path, below directories. -/
structure Shaped (t : Tree) : Prop where
  paths : ∀ e ∈ t.entries, IsPath e.1
  distinct : (t.entries.map (·.1)).Nodup
  parents : ∀ e ∈ t.entries, e.1.dropLast = [] ∨ e.1.dropLast ∈ t.dirs

theorem mem_dirs_of_dirMode (h : t.dirMode p = some mode) : p = [] ∨ p ∈ t.dirs := by
  rw [dirMode] at h
  split_ifs at h with hp
  · exact .inl hp
  · split at h
    · rename_i mode' hlook
      exact .inr (mem_dirs.2 ⟨mode', Assoc.mem_of_lookup hlook⟩)
    · cases h

theorem Shaped.add {node : Node} (h : t.Shaped) (hp : IsPath p) (hnew : t.entries.lookup p = none)
    (hpar : p.dropLast = [] ∨ p.dropLast ∈ t.dirs) : (t.add p node).Shaped := by
  have hdirs : ∀ d ∈ t.dirs, d ∈ (t.add p node).dirs := by
    intro d hd
    cases node with
    | dir mode => rw [dirs_add_dir]; exact mem_append_left _ hd
    | file mode bytes => rwa [dirs_add_file]
  refine ⟨?_, ?_, ?_⟩
  · exact forall_mem_append.2 ⟨h.paths, forall_mem_singleton.2 hp⟩
  · rw [Tree.add, map_append, nodup_append]
    refine ⟨h.distinct, nodup_singleton _, ?_⟩
    rintro q hq _ hr rfl
    rw [mem_singleton.1 hr] at hq
    exact Assoc.lookup_eq_none.1 hnew hq
  · exact forall_mem_append.2 ⟨fun e he => (h.parents e he).imp_right (hdirs _),
      forall_mem_singleton.2 (hpar.imp_right (hdirs _))⟩

end Tree

variable {proc : Process} {t t' : Tree} {p : RelativePath} {mode : ℕ}

theorem parent_of_checkParent (h : checkParent proc t p = .ok ()) :
    p.dropLast = [] ∨ p.dropLast ∈ t.dirs := by
  simp only [checkParent, bind_ok, get_ok, check_ok] at h
  obtain ⟨mode, hmode, -⟩ := h
  exact mem_dirs_of_dirMode hmode

/-- A directory is there, or is added. -/
theorem ensureDir_ok : ensureDir proc mode t p = .ok t' ↔
    (∃ mode', t.entries.lookup p = some (.dir mode')) ∧ t' = t ∨
    t.entries.lookup p = none ∧ checkParent proc t p = .ok () ∧
      t' = t.add p (.dir (proc.created mode)) := by
  rw [ensureDir]
  cases t.entries.lookup p with
  | none =>
    simp only [bind_ok, reduceCtorEq, exists_false, false_and, false_or, true_and]
    constructor
    · rintro ⟨⟨⟩, hpar, hreturn⟩
      cases hreturn
      exact ⟨hpar, rfl⟩
    · rintro ⟨hpar, rfl⟩
      exact ⟨(), hpar, rfl⟩
  | some node =>
    cases node with
    | dir mode' => simp [eq_comm]
    | file mode' bytes => simp

/-- What the creation of directories leaves alone. -/
theorem ensureDir_spec (h : ensureDir proc mode t p = .ok t') (ht : t.Shaped) (hp : IsPath p) :
    t'.Shaped ∧ t'.files = t.files ∧ ∀ d ∈ t'.dirs, d ∈ t.dirs ∨ d = p := by
  obtain ⟨-, rfl⟩ | ⟨hnew, hpar, rfl⟩ := ensureDir_ok.1 h
  · exact ⟨ht, rfl, fun d hd => .inl hd⟩
  · refine ⟨ht.add hp hnew (parent_of_checkParent hpar), files_add_dir, ?_⟩
    simp

theorem ensureDirs_spec {paths : List RelativePath}
    (h : paths.foldlM (ensureDir proc mode) t = .ok t') (ht : t.Shaped)
    (hp : ∀ p ∈ paths, IsPath p) :
    t'.Shaped ∧ t'.files = t.files ∧ ∀ d ∈ t'.dirs, d ∈ t.dirs ∨ d ∈ paths := by
  induction paths generalizing t with
  | nil =>
    cases h
    exact ⟨ht, rfl, fun d hd => .inl hd⟩
  | cons p paths ih =>
    rw [foldlM_cons, bind_ok] at h
    obtain ⟨t₁, hfirst, hrest⟩ := h
    obtain ⟨hshaped, hfiles, hdirs⟩ := ensureDir_spec hfirst ht (hp p (.head _))
    obtain ⟨hshaped', hfiles', hdirs'⟩ := ih hrest hshaped fun q hq => hp q (.tail _ hq)
    refine ⟨hshaped', hfiles'.trans hfiles, fun d hd => ?_⟩
    rcases hdirs' d hd with hd | hd
    · rcases hdirs d hd with hd | rfl
      · exact .inl hd
      · exact .inr (.head _)
    · exact .inr (.tail _ hd)

theorem makeDirs_spec (h : makeDirs proc t p = .ok t') (ht : t.Shaped) (hp : p = [] ∨ IsPath p) :
    t'.Shaped ∧ t'.files = t.files ∧
      ∀ d ∈ t'.dirs, d ∈ t.dirs ∨ d ∈ ancestors p ∨ d = p ∧ p ≠ [] := by
  rw [makeDirs] at h
  split_ifs at h with hnil
  · cases h
    exact ⟨ht, rfl, fun d hd => .inl hd⟩
  · have hp := hp.resolve_left hnil
    rw [bind_ok] at h
    obtain ⟨t₁, habove, hlast⟩ := h
    have hancestors : ∀ q ∈ ancestors p, IsPath q := by
      intro q hq
      obtain ⟨hne, hbegins, -⟩ := mem_ancestors.1 hq
      exact hp.of_prefix hne hbegins
    obtain ⟨hshaped, hfiles, hdirs⟩ := ensureDirs_spec habove ht hancestors
    obtain ⟨hshaped', hfiles', hdirs'⟩ := ensureDir_spec hlast hshaped hp
    refine ⟨hshaped', hfiles'.trans hfiles, fun d hd => ?_⟩
    rcases hdirs' d hd with hd | rfl
    · exact (hdirs d hd).imp_right .inl
    · exact .inr (.inr ⟨rfl, hnil⟩)

theorem writeFile_ok {bytes : Bytes} : writeFile proc t p bytes = .ok t' ↔
    t.entries.lookup p = none ∧ checkParent proc t p = .ok () ∧
      t' = t.add p (.file (proc.created 0o600) bytes) := by
  simp only [writeFile, bind_ok, exists_check]
  constructor
  · rintro ⟨hnew, ⟨⟩, hpar, hreturn⟩
    cases hreturn
    exact ⟨hnew, hpar, rfl⟩
  · rintro ⟨hnew, hpar, rfl⟩
    exact ⟨hnew, (), hpar, rfl⟩

/-! ### What an extraction leaves -/

section Members

variable {s s' : Extraction} {type : TarType} {m : LogicalMember}
  {done : List (TarType × LogicalMember)}

/-- What one member does: a directory is made, or a file is written with all its bytes. -/
theorem extractMember_spec (h : extractMember proc s type m = .ok s') :
    ∃ name, memberPath m.name = .ok name ∧ s.count + 1 ≤ maxMembers ∧ s'.count = s.count + 1 ∧
      (type = .directory ∧ makeDirs proc s.tree name = .ok s'.tree ∧
          s'.seen = s.seen ++ [(name, .dir)] ∧ s'.budget = s.budget ∨
        type.isReg = true ∧ (m.data.length : ℤ) = m.size ∧ m.size ≤ maxFileBytes ∧
          s'.seen = s.seen ++ [(name, .file)] ∧ s'.budget = s.budget - m.size ∧ 0 ≤ s'.budget ∧
          ∃ t, makeDirs proc s.tree name.dropLast = .ok t ∧
            writeFile proc t name m.data = .ok s'.tree) := by
  simp only [extractMember, bind_ok, exists_check] at h
  obtain ⟨hcount, name, hname, -, -, h⟩ := h
  refine ⟨name, hname, hcount, ?_⟩
  split_ifs at h with htype
  · simp only [bind_ok] at h
    obtain ⟨tree, htree, hreturn⟩ := h
    cases hreturn
    exact ⟨rfl, .inl ⟨htype, htree, rfl, rfl⟩⟩
  · simp only [bind_ok, exists_check] at h
    obtain ⟨hreg, -, -, hmax, -, -, hbudget, tree, htree, tree', hwrite, hle, hge, hreturn⟩ := h
    cases hreturn
    exact ⟨rfl, .inr ⟨hreg, le_antisymm hge hle, hmax, rfl, rfl, hbudget, tree, htree, hwrite⟩⟩

/-- The file that a member stands for. -/
def regularFile (m : TarType × LogicalMember) : Option (RelativePath × Bytes) :=
  if m.1.isReg then some (purePosixParts m.2.name, m.2.data) else none

theorem purePosixParts_of_memberPath {raw : String} (h : memberPath raw = .ok p) :
    p = purePosixParts raw := by
  simp only [memberPath, bind_ok, exists_check] at h
  obtain ⟨-, -, hreturn⟩ := h
  cases hreturn
  rfl

/-- What holds after some members. -/
structure Extraction.Valid (done : List (TarType × LogicalMember)) (s : Extraction) : Prop where
  shaped : s.tree.Shaped
  files : s.tree.files = done.filterMap regularFile
  filePaths : s.filePaths = s.tree.files.map (·.1)
  kinds : ∀ m ∈ done, m.1 = .directory ∨ m.1.isReg = true
  count : s.count = done.length
  bound : s.count ≤ maxMembers
  sizes : ∀ f ∈ s.tree.files, f.2.length ≤ maxFileBytes
  total : s.budget + (s.tree.files.map (·.2.length)).sum = maxExtractedBytes
  budget : 0 ≤ s.budget
  covered : ∀ f ∈ s.tree.files, isCovered f.1 = true
  dirs : ∀ d ∈ s.tree.dirs, d ∈ s.directories ∨ ∃ e ∈ s.seen, d ∈ ancestors e.1

theorem mem_ancestors_dropLast {d : RelativePath} (hp : p ≠ [])
    (h : d ∈ ancestors p.dropLast ∨ d = p.dropLast ∧ p.dropLast ≠ []) : d ∈ ancestors p := by
  have hlt : p.dropLast.length < p.length := by
    rw [length_dropLast]
    exact Nat.sub_lt (length_pos_iff.2 hp) Nat.one_pos
  have hprop : ∀ {d : RelativePath}, d <+: p.dropLast → d ≠ p := by
    rintro d hbegins rfl
    exact absurd hbegins.length_le (not_le.2 hlt)
  rcases h with h | ⟨rfl, hne⟩
  · obtain ⟨hne, hbegins, -⟩ := mem_ancestors.1 h
    exact mem_ancestors.2 ⟨hne, hbegins.trans (List.dropLast_prefix p), hprop hbegins⟩
  · exact mem_ancestors.2 ⟨hne, dropLast_prefix p, hprop (prefix_refl _)⟩

/-- One more member. -/
theorem valid_extractMember (hs : s.Valid done) (h : extractMember proc s type m = .ok s') :
    s'.Valid (done ++ [(type, m)]) := by
  obtain ⟨name, hname, hcount, hcount', hmember⟩ := extractMember_spec h
  obtain ⟨hpath, hcov⟩ := of_memberPath hname
  have hlen : s'.count = (done ++ [(type, m)]).length := by
    rw [hcount', hs.count, length_append, length_singleton]
  have hbound : s'.count ≤ maxMembers := hcount' ▸ hcount
  have hkinds (hnew : type = .directory ∨ type.isReg = true) :
      ∀ m' ∈ done ++ [(type, m)], m'.1 = .directory ∨ m'.1.isReg = true :=
    forall_mem_append.2 ⟨hs.kinds, forall_mem_singleton.2 hnew⟩
  -- A directory that was accounted for still is.
  have hkept {new : List (RelativePath × MemberKind)} (hseen : s'.seen = s.seen ++ new)
      (d : RelativePath) (hd : d ∈ s.directories ∨ ∃ e ∈ s.seen, d ∈ ancestors e.1) :
      d ∈ s'.directories ∨ ∃ e ∈ s'.seen, d ∈ ancestors e.1 := by
    rcases hd with hd | ⟨e, he, hd⟩
    · refine .inl ?_
      rw [Extraction.directories, hseen, filter_append, map_append]
      exact mem_append_left _ hd
    · exact .inr ⟨e, hseen ▸ mem_append_left _ he, hd⟩
  obtain ⟨rfl, htree, hseen, hbudget⟩ |
    ⟨hreg, hsize, hmax, hseen, hbudget, hnonneg, t, htree, hwrite⟩ := hmember
  · obtain ⟨hshaped, hfiles, hdirs⟩ := makeDirs_spec htree hs.shaped (.inr hpath)
    refine ⟨hshaped, ?_, ?_, ?_, hlen, hbound, ?_, ?_, ?_, ?_, ?_⟩
    · rw [hfiles, hs.files, filterMap_append]
      simp [regularFile, TarType.isReg]
    · rw [hfiles, ← hs.filePaths, Extraction.filePaths, hseen]
      simp [Extraction.filePaths]
    · exact hkinds (.inl rfl)
    · exact hfiles ▸ hs.sizes
    · rw [hfiles, hbudget, hs.total]
    · exact hbudget ▸ hs.budget
    · exact hfiles ▸ hs.covered
    · intro d hd
      have hnew : (name, MemberKind.dir) ∈ s'.seen := by simp [hseen]
      rcases hdirs d hd with hd | hd | ⟨rfl, -⟩
      · exact hkept hseen d (hs.dirs d hd)
      · exact .inr ⟨_, hnew, hd⟩
      · exact .inl (mem_map.2 ⟨_, mem_filter.2 ⟨hnew, rfl⟩, rfl⟩)
  · have hpar : name.dropLast = [] ∨ IsPath name.dropLast := by
      by_cases hnil : name.dropLast = []
      · exact .inl hnil
      · exact .inr (hpath.of_prefix hnil (List.dropLast_prefix name))
    obtain ⟨hshaped, hfiles, hdirs⟩ := makeDirs_spec htree hs.shaped hpar
    obtain ⟨hnew, hcheck, htree'⟩ := writeFile_ok.1 hwrite
    have hfiles' : s'.tree.files = s.tree.files ++ [(name, m.data)] := by
      rw [htree', files_add_file, hfiles]
    have hdata : (m.data.length : ℤ) ≤ maxFileBytes := hsize ▸ hmax
    refine ⟨?_, ?_, ?_, ?_, hlen, hbound, ?_, ?_, hnonneg, ?_, ?_⟩
    · rw [htree']
      exact hshaped.add hpath hnew (parent_of_checkParent hcheck)
    · rw [hfiles', hs.files, filterMap_append]
      simp [regularFile, hreg, purePosixParts_of_memberPath hname]
    · rw [hfiles', map_append, ← hs.filePaths, Extraction.filePaths, hseen]
      simp [Extraction.filePaths]
    · exact hkinds (.inr hreg)
    · rw [hfiles']
      exact forall_mem_append.2 ⟨hs.sizes, forall_mem_singleton.2 (mod_cast hdata)⟩
    · rw [hfiles', hbudget, map_append, sum_append, ← hs.total, ← hsize]
      simp
    · rw [hfiles']
      exact forall_mem_append.2 ⟨hs.covered, forall_mem_singleton.2 hcov⟩
    · intro d hd
      rw [htree', dirs_add_file] at hd
      rcases hdirs d hd with hd | hd
      · exact hkept hseen d (hs.dirs d hd)
      · refine .inr ⟨(name, .file), ?_, mem_ancestors_dropLast hpath.1 hd⟩
        rw [hseen]
        exact mem_append_right _ (.head _)

/-- All members. -/
theorem valid_extract {members : List (TarType × LogicalMember)} (hs : s.Valid done)
    (h : members.foldlM (fun s m => extractMember proc s m.1 m.2) s = .ok s') :
    s'.Valid (done ++ members) := by
  induction members generalizing s done with
  | nil =>
    cases h
    rwa [append_nil]
  | cons m members ih =>
    rw [foldlM_cons, bind_ok] at h
    obtain ⟨s₁, hfirst, hrest⟩ := h
    have hvalid := ih (valid_extractMember hs hfirst) hrest
    rwa [append_assoc, singleton_append] at hvalid

theorem valid_fresh : Extraction.Valid [] { tree := freshDirectory proc } := by
  constructor <;> simp [freshDirectory, files, dirs, Extraction.filePaths]
  constructor <;> simp

end Members

/-- What an extraction may leave. -/
structure Contained (members : List (TarType × LogicalMember)) (t : Tree) : Prop where
  /-- One file for each regular member, with its bytes. -/
  files : t.files = members.filterMap regularFile
  /-- No links or special files. -/
  kinds : ∀ m ∈ members, m.1 = .directory ∨ m.1.isReg = true
  /-- Everything is strictly below the destination, at one path. -/
  shaped : t.Shaped
  count : members.length ≤ maxMembers
  sizes : ∀ f ∈ t.files, f.2.length ≤ maxFileBytes
  total : (t.files.map (·.2.length)).sum ≤ maxExtractedBytes
  /-- Every directory is above a file. -/
  directories : ∀ d ∈ t.dirs, d ∈ t.requiredDirectories
  covered : ∀ f ∈ t.files, isCovered f.1 = true

theorem contained_of_extract {members : List (TarType × LogicalMember)}
    (h : extractMembers proc members = .ok t) : Contained members t := by
  simp only [extractMembers, bind_ok, exists_check] at h
  obtain ⟨s, hs, -, hextra, hreturn⟩ := h
  cases hreturn
  have hvalid : s.Valid members := by
    have hrun := valid_extract valid_fresh hs
    rwa [nil_append] at hrun
  have hrequired : ∀ d, d ∈ s.filePaths.flatMap ancestors ↔ d ∈ s.tree.requiredDirectories := by
    intro d
    rw [hvalid.filePaths, requiredDirectories, flatMap_map]
  refine ⟨hvalid.files, hvalid.kinds, hvalid.shaped, hvalid.count ▸ hvalid.bound, hvalid.sizes, ?_,
    fun d hd => ?_, hvalid.covered⟩
  · have htotal := hvalid.total
    have hbudget := hvalid.budget
    omega
  · -- a member directory is above a file, and so is everything above it
    have hdirectory : ∀ {e}, e ∈ s.directories → e ∈ s.tree.requiredDirectories :=
      fun {e} he => (hrequired e).1 (hextra e he)
    rcases hvalid.dirs d hd with hd | ⟨⟨path, kind⟩, he, hd⟩
    · exact hdirectory hd
    · cases kind with
      | file =>
        rw [← hrequired, mem_flatMap]
        exact ⟨path, mem_map.2 ⟨_, mem_filter.2 ⟨he, rfl⟩, rfl⟩, hd⟩
      | dir =>
        have hpath : path ∈ s.tree.requiredDirectories :=
          hdirectory (mem_map.2 ⟨_, mem_filter.2 ⟨he, rfl⟩, rfl⟩)
        rw [requiredDirectories, mem_flatMap] at hpath ⊢
        obtain ⟨f, hf, habove⟩ := hpath
        obtain ⟨hne, hbegins, hprop⟩ := mem_ancestors.1 hd
        obtain ⟨-, hbegins', hprop'⟩ := mem_ancestors.1 habove
        refine ⟨f, hf, mem_ancestors.2 ⟨hne, hbegins.trans hbegins', ?_⟩⟩
        rintro rfl
        exact hprop' (hbegins'.eq_of_length_le hbegins.length_le)

/-! ### The identity covers everything -/

theorem isCovered_of_cons {c : String} (hp : p ≠ []) (h : isCovered (c :: p) = true) :
    isCovered p = true := by
  have hname : fileName (c :: p) = fileName p := by
    obtain ⟨d, rest, rfl⟩ := exists_cons_of_ne_nil hp
    rfl
  rw [isCovered, hname] at h
  rw [isCovered]
  simp_all

/-- Every path of a tree begins with something that stands directly in it; whatever is deeper
begins with a directory. -/
theorem Tree.Shaped.exists_top (h : t.Shaped) {e : RelativePath × Node} (he : e ∈ t.entries) :
    ∃ c rest, e.1 = c :: rest ∧
      ∃ node, ([c], node) ∈ t.top ∧ (rest ≠ [] → node.isFile = false) := by
  obtain ⟨path, node⟩ := e
  -- by induction on the path from its end: its parent is a directory of the tree
  induction path using List.reverseRecOn generalizing node with
  | nil => exact absurd rfl (h.paths _ he).1
  | append_singleton parent last ih =>
    rcases parent with _ | ⟨c, rest⟩
    · refine ⟨last, [], rfl, node, mem_filter.2 ⟨he, rfl⟩, fun hne => absurd rfl hne⟩
    · have hpar : c :: rest ∈ t.dirs := by
        have hdrop := h.parents _ he
        rw [dropLast_concat] at hdrop
        exact hdrop.resolve_left (cons_ne_nil _ _)
      obtain ⟨mode, hmem⟩ := mem_dirs.1 hpar
      refine ⟨c, rest ++ [last], rfl, ?_⟩
      by_cases hrest : rest = []
      · subst hrest
        exact ⟨.dir mode, mem_filter.2 ⟨hmem, rfl⟩, fun _ => rfl⟩
      · obtain ⟨c', rest', hpath, node', htop, hdir⟩ := ih _ hmem
        cases hpath
        exact ⟨node', htop, fun _ => hdir hrest⟩

theorem mem_iterFiles {f : RelativePath × Bytes} (hf : f ∈ t.files) (hcov : isCovered f.1 = true) :
    f ∈ t.iterFiles := by
  rw [iterFiles_eq]
  exact mem_filter.2 ⟨Keyed.mem_sortBy.2 hf, hcov⟩

/-- No file of an extracted tree is outside the identity of the directory taken for the bundle. -/
theorem covered_of_bundleRoot {root : RelativePath × Tree} (hshaped : t.Shaped)
    (hcov : ∀ f ∈ t.files, isCovered f.1 = true) (h : bundleRoot proc t = .ok root) :
    ∀ f ∈ t.files, ∃ g ∈ root.2.iterFiles, f = (root.1 ++ g.1, g.2) := by
  intro f hf
  simp only [bundleRoot, bind_ok, exists_check] at h
  obtain ⟨-, hreturn⟩ := h
  split at hreturn
  · rename_i name mode htop
    cases hreturn
    obtain ⟨fileMode, hmem⟩ := mem_files.1 hf
    obtain ⟨c, rest, hpath, node, hnode, -⟩ := hshaped.exists_top hmem
    rw [htop, mem_singleton] at hnode
    cases hnode
    have hpath' : f.1 = name :: rest := hpath
    -- the only thing directly in the directory is not a file
    have hrest : rest ≠ [] := by
      rintro rfl
      have hfile : (f.1, Node.file fileMode f.2) ∈ t.top := mem_filter.2 ⟨hmem, by simp [hpath']⟩
      rw [htop, mem_singleton] at hfile
      cases (Prod.mk.inj hfile).2
    have hbelow : (rest, f.2) ∈ (t.below name mode).files := by
      refine mem_files.2 ⟨fileMode, mem_filterMap.2 ⟨_, hmem, ?_⟩⟩
      obtain ⟨d, rest', rfl⟩ := exists_cons_of_ne_nil hrest
      rw [hpath', entryBelow, if_pos rfl]
    have hrestCovered : isCovered rest = true := isCovered_of_cons hrest (hpath' ▸ hcov f hf)
    exact ⟨_, mem_iterFiles hbelow hrestCovered, Prod.ext hpath' rfl⟩
  · cases hreturn
    exact ⟨f, mem_iterFiles hf (hcov f hf), rfl⟩

/-- **An extraction leaves the files of the archive inside its bounds, and the identity of the
bundle covers all of them.** -/
theorem safeExtract_contained {fmt : TarFormat} {archive : Bytes}
    (h : safeExtract proc fmt archive = .ok t) :
    Contained (membersOf (walkTar fmt archive).1) t ∧ ∀ root, bundleRoot proc t = .ok root →
        ∀ f ∈ t.files, ∃ g ∈ root.2.iterFiles, f = (root.1 ++ g.1, g.2) := by
  simp only [safeExtract, bind_ok, exists_check] at h
  obtain ⟨-, -, tree, htree, -, hreturn⟩ := h
  cases hreturn
  have hcont := contained_of_extract htree
  exact ⟨hcont, fun root => covered_of_bundleRoot hcont.shaped hcont.covered⟩

namespace ExtractSample

def process : Process := ⟨0o022, false⟩

/-- A directory with one file in it and one further down. -/
def archive : Bytes :=
  TarSample.archive [TarSample.header "b/" '5' 0, TarSample.header "b/k.py" '0' 2, padded [97, 10],
    TarSample.header "b/c/m.cu" '0' 1, padded [98]]

def tree : Tree :=
  ⟨0o700, [(["b"], .dir 0o700), (["b", "k.py"], .file 0o600 [97, 10]), (["b", "c"], .dir 0o700),
    (["b", "c", "m.cu"], .file 0o600 [98])]⟩

theorem safeExtract_contained_sample :
    Contained (membersOf (walkTar TarSample.format archive).1) tree ∧
      ∀ root, bundleRoot process tree = .ok root →
        ∀ f ∈ tree.files, ∃ g ∈ root.2.iterFiles, f = (root.1 ++ g.1, g.2) :=
  safeExtract_contained (by decide +kernel)

end ExtractSample

end Cacheon
