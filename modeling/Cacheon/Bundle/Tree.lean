import Cacheon.Identity
import Cacheon.Lib.Fallible
import Cacheon.Lib.Framing
import Cacheon.Lib.Keyed
import Cacheon.Lib.RelativePath

/-!
# Bundles on disk

A bundle is a directory of regular files.  Its identity is one digest over the paths and bytes of
its files.

* `Tree` : a directory with everything below it.
* `memberPath` : the paths that an archive, and a cached bundle, may have.
* `Tree.contentHash` : the identity of a bundle.
* `Tree.validatePrivateTree` : the check on a cached bundle.
-/

namespace Cacheon

open Fallible RelativePath List Keyed

/-- How the handling of a bundle fails. -/
inductive BundleFault where
  /-- The archive or the cached bundle is refused. -/
  | fetch (message : String)
  /-- The transfer may be tried again. -/
  | transient (message : String)
  /-- The directory has no identity. -/
  | value (message : String)
  /-- The immutable copy is refused. -/
  | native (message : String)
  /-- The publication is refused. -/
  | publication (message : String)
  /-- The submitted paths cannot be published. -/
  | source (message : String)
  /-- The operating system refuses. -/
  | os (message : String)
  /-- The message goes on with a name, as `repr` prints it. -/
  | named (fault : BundleFault) (name : String)
deriving DecidableEq

/-- A failure of the publication, with the message of another one after its own. -/
def BundleFault.published (text : String) : BundleFault → BundleFault
  | .fetch message | .transient message | .value message | .native message
  | .publication message | .source message | .os message => .publication (text ++ message)
  | .named fault name => .named (fault.published text) name

open BundleFault

abbrev BundleM := Except BundleFault

/-- Files under their paths. -/
abbrev Files := List (RelativePath × Bytes)

/-- What stands at a path. -/
inductive Node where
  | dir (mode : ℕ)
  | file (mode : ℕ) (bytes : Bytes)
deriving DecidableEq

namespace Node

/-- A regular file. -/
def isFile : Node → Bool
  | file _ _ => true
  | dir _ => false

/-- The contents of a file. -/
def bytes : Node → Bytes
  | file _ bytes => bytes
  | dir _ => []

/-- The permission bits. -/
def mode : Node → ℕ
  | file mode _ => mode
  | dir mode => mode

end Node

/-! ### Paths -/

/-- The directories that are not part of the identity. -/
def skipDirs : List String := ["__pycache__", ".git"]

/-- The suffixes of files that are not part of the identity. -/
def skipSuffixes : List String := [".pyc", ".pyo"]

variable (p : RelativePath)

/-- The last component of a path. -/
def fileName : String := p.getLastD ""

/-- The suffix of a name: from its last dot, if that is not its first or last character. -/
def suffix (name : String) : String :=
  let extension := (name.toList.reverse.takeWhile (· ≠ '.')).reverse
  let stem := (name.toList.reverse.dropWhile (· ≠ '.')).tail
  if stem ≠ [] ∧ extension ≠ [] then String.ofList ('.' :: extension) else ""

/-- The name begins as the files that some editors and file systems leave behind. -/
def isNoise (name : String) : Bool := name.toList.take 2 = ['.', '_']

/-- The file at this path is part of the identity. -/
def isCovered : Bool :=
  !p.any (skipDirs.contains ·) && !skipSuffixes.contains (suffix (fileName p)) &&
    !isNoise (fileName p)

/-- The components of a text, as a pure path reads them. -/
def purePosixParts (raw : String) : RelativePath :=
  ((splitSlash raw.toList).map String.ofList).filter fun c => c ≠ "" ∧ c ≠ "."

/-- A text without the slashes at its end. -/
def stripSlashes (raw : String) : String :=
  String.ofList (raw.toList.reverse.dropWhile (· = '/')).reverse

/-- A character that no path may have: a control character or a backslash. -/
def isUnsafe (c : Char) : Bool := c = '\\' || c.toNat < 32 || c.toNat = 127

/-- The path of an archive member. -/
def memberPath (raw : String) : BundleM RelativePath := do
  let path := purePosixParts raw
  check (raw ≠ "" ∧ !raw.toList.any isUnsafe ∧ raw.toList.head? ≠ some '/' ∧ path ≠ [] ∧
      ".." ∉ path ∧ path.posix = stripSlashes raw)
    (named (fetch "archive member escapes destination: ") raw)
  check (isCovered path) (named (fetch "archive member is excluded from bundle identity: ") raw)
  return path

/-- A component of a path on disk. -/
def IsComponent (c : String) : Prop := IsName c ∧ c ≠ "." ∧ c ≠ ".."

instance : DecidablePred IsComponent := fun _ => instDecidableAnd

/-- A path on disk. -/
def IsPath : Prop := p ≠ [] ∧ ∀ c ∈ p, IsComponent c

instance : DecidablePred IsPath := fun _ => instDecidableAnd

/-- The directories above a path, without the root. -/
def ancestors : List RelativePath :=
  (List.range (p.length - 1)).map fun i => p.take (i + 1)

/-- The bytes of a path's text. -/
def pathBytes : Bytes := p.posix.toUTF8.data.toList

variable {p : RelativePath}

/-- A path that is accepted stays below its directory and is part of the identity. -/
theorem of_memberPath {raw : String} (h : memberPath raw = .ok p) :
    IsPath p ∧ isCovered p = true := by
  simp only [memberPath, bind_ok, exists_check] at h
  obtain ⟨⟨-, -, -, hne, hup, -⟩, hcov, hreturn⟩ := h
  cases hreturn
  refine ⟨⟨hne, fun c hc => ?_⟩, hcov⟩
  obtain ⟨hmem, hfilter⟩ := mem_filter.1 hc
  obtain ⟨part, hpart, rfl⟩ := mem_map.1 hmem
  obtain ⟨hempty, hdot⟩ := of_decide_eq_true hfilter
  refine ⟨⟨?_, ?_⟩, hdot, fun heq => hup (heq ▸ hc)⟩
  · intro hnil
    exact hempty (String.toList_inj.1 hnil)
  · rw [String.toList_ofList]
    exact not_mem_of_mem_splitOn (splitSlash_eq _ ▸ hpart)

theorem purePosixParts_posix (h : IsPath p) : purePosixParts p.posix = p := by
  have hmap : (p.map String.toList).map String.ofList = p := by
    rw [map_map]
    exact (map_congr_left fun c _ => String.ofList_toList).trans (map_id p)
  rw [purePosixParts, toList_posix, splitSlash_chars h.1 fun c hc => (h.2 c hc).1, hmap]
  refine filter_eq_self.2 fun c hc => decide_eq_true ⟨?_, (h.2 c hc).2.1⟩
  rintro rfl
  exact (h.2 "" hc).1.1 rfl

theorem chars_ne_nil (h : IsPath p) : p.chars ≠ [] := by
  obtain ⟨c, rest, rfl⟩ := exists_cons_of_ne_nil h.1
  obtain ⟨u, hu⟩ := exists_chars_cons c rest
  rw [hu]
  exact append_ne_nil_of_left_ne_nil (h.2 c (.head _)).1.1 u

/-- The text of a path begins and ends inside a component. -/
theorem chars_ends (h : IsPath p) : p.chars.head? ≠ some '/' ∧ p.chars.getLast? ≠ some '/' := by
  constructor
  · obtain ⟨c, rest, rfl⟩ := exists_cons_of_ne_nil h.1
    obtain ⟨u, hu⟩ := exists_chars_cons c rest
    obtain ⟨hne, hslash⟩ := (h.2 c (.head _)).1
    rw [hu, head?_append_of_ne_nil _ hne]
    exact fun hhead => hslash (mem_of_head? hhead)
  · obtain ⟨hne, hcompo⟩ := h
    induction p with
    | nil => exact absurd rfl hne
    | cons c rest ih =>
      obtain ⟨hcne, hslash⟩ := (hcompo c (.head _)).1
      cases rest with
      | nil => exact fun hlast => hslash (mem_of_getLast? hlast)
      | cons d rest =>
        have hrest : IsPath (d :: rest) := ⟨by simp, fun e he => hcompo e (.tail _ he)⟩
        rw [chars_cons hrest.1, getLast?_append_of_ne_nil _ (by simp),
          getLast?_cons_of_ne_nil (chars_ne_nil hrest)]
        exact ih hrest.1 hrest.2

theorem stripSlashes_posix (h : IsPath p) : stripSlashes p.posix = p.posix := by
  have hlast := (chars_ends h).2
  rw [stripSlashes, toList_posix]
  have hdrop : p.chars.reverse.dropWhile (· = '/') = p.chars.reverse := by
    cases hrev : p.chars.reverse with
    | nil => rfl
    | cons c rest =>
      refine dropWhile_cons_of_neg ?_
      rintro hc
      rw [← head?_reverse, hrev] at hlast
      exact hlast (congrArg some (of_decide_eq_true hc))
  rw [hdrop, reverse_reverse, posix]

/-- Which paths on disk are accepted. -/
theorem memberPath_posix {p q : RelativePath} (h : IsPath p) : memberPath p.posix = .ok q ↔
      q = p ∧ p.chars.any isUnsafe = false ∧ isCovered p = true := by
  have hup : ".." ∉ p := fun hmem => (h.2 _ hmem).2.2 rfl
  have hempty : p.posix ≠ "" := fun heq => chars_ne_nil h (by rw [← toList_posix, heq]; rfl)
  simp only [memberPath, purePosixParts_posix h, stripSlashes_posix h, toList_posix, bind_ok,
    exists_check]
  constructor
  · rintro ⟨⟨-, hsafe, -⟩, hcov, hreturn⟩
    cases hreturn
    exact ⟨rfl, by simpa using hsafe, hcov⟩
  · rintro ⟨rfl, hsafe, hcov⟩
    exact ⟨⟨hempty, by simp [hsafe], (chars_ends h).1, h.1, hup, trivial⟩, hcov, rfl⟩

/-! ### Trees -/

/-- A directory with everything below it. -/
structure Tree where
  mode : ℕ
  entries : List (RelativePath × Node)
deriving DecidableEq

namespace Tree

variable (t : Tree)

/-- The regular files with their contents. -/
def files : Files :=
  (t.entries.filter (·.2.isFile)).map fun e => (e.1, e.2.bytes)

/-- The directories. -/
def dirs : List RelativePath := (t.entries.filter (!·.2.isFile)).map (·.1)

/-- What every file system keeps: one entry for each path, below directories, and sizes that are
signed 64-bit numbers. -/
structure WellFormed : Prop where
  paths : ∀ e ∈ t.entries, IsPath e.1
  distinct : (t.entries.map (·.1)).Nodup
  parents : ∀ e ∈ t.entries, e.1.dropLast = [] ∨ e.1.dropLast ∈ t.dirs
  sizes : ∀ f ∈ t.files, (pathBytes f.1).length < 2 ^ 32 ∧ f.2.length < 2 ^ 63

/-- The files of the identity, in the order of their paths. -/
def iterFiles : Files :=
  (((sortBy Prod.fst t.entries).filter (·.2.isFile)).map fun e => (e.1, e.2.bytes)).filter
    fun f => isCovered f.1

/-- A file as a record of the identity. -/
def record (f : RelativePath × Bytes) : Bytes × Bytes := (pathBytes f.1, f.2)

/-- The bytes under the digest of some files. -/
def preimage (files : Files) : Bytes := Framing.frames (files.map record)

/-- The identity of a bundle. -/
def contentHash (sha256 : Bytes → Digest) : BundleM Digest := do
  check (t.iterFiles ≠ []) (value "bundle dir has no files to hash")
  return sha256 (preimage t.iterFiles)

/-- One entry of a cached bundle: a private directory or file. -/
def checkPrivateEntry (e : RelativePath × Node) : BundleM Unit := do
  let _ ← memberPath e.1.posix
  check (¬ e.2.isFile → e.2.mode = 0o700) (fetch "cached bundle contains an unsafe directory")
  check (e.2.isFile → e.2.mode = 0o600) (fetch "cached bundle contains an unsafe regular file")

/-- The directories that the files need. -/
def requiredDirectories : List RelativePath := t.files.flatMap fun f => ancestors f.1

/-- The check on a cached bundle. -/
def validatePrivateTree : BundleM Unit := do
  check (t.mode = 0o700) (fetch "cached bundle root is not owner-private")
  forM t.entries checkPrivateEntry
  check (t.files ≠ [] ∧ (∀ d ∈ t.dirs, d ∈ t.requiredDirectories) ∧
      ∀ d ∈ t.requiredDirectories, d ∈ t.dirs)
    (fetch "cached bundle contains identity-excluded directory state")

variable {t} {f : RelativePath × Bytes}

theorem mem_files : f ∈ t.files ↔ ∃ mode, (f.1, Node.file mode f.2) ∈ t.entries := by
  simp only [files, mem_map, mem_filter]
  constructor
  · rintro ⟨⟨p, node⟩, ⟨hmem, hfile⟩, rfl⟩
    cases node with
    | dir mode => cases hfile
    | file mode bytes => exact ⟨mode, hmem⟩
  · rintro ⟨mode, hmem⟩
    exact ⟨(f.1, .file mode f.2), ⟨hmem, rfl⟩, rfl⟩

theorem mem_dirs {d : RelativePath} : d ∈ t.dirs ↔ ∃ mode, (d, Node.dir mode) ∈ t.entries := by
  simp only [dirs, mem_map, mem_filter]
  constructor
  · rintro ⟨⟨p, node⟩, ⟨hmem, hdir⟩, rfl⟩
    cases node with
    | dir mode => exact ⟨mode, hmem⟩
    | file mode bytes => cases hdir
  · rintro ⟨mode, hmem⟩
    exact ⟨(d, .dir mode), ⟨hmem, rfl⟩, rfl⟩

theorem WellFormed.isPath_of_mem_files (h : t.WellFormed) (hf : f ∈ t.files) : IsPath f.1 := by
  obtain ⟨mode, hmem⟩ := mem_files.1 hf
  exact h.paths _ hmem

theorem WellFormed.files_nodup (h : t.WellFormed) : (t.files.map (·.1)).Nodup := by
  rw [files, map_map]
  exact h.distinct.sublist (filter_sublist.map _)

/-- What a cached bundle is. -/
theorem privateTree_ok (h : t.WellFormed) : t.validatePrivateTree = .ok () ↔ t.mode = 0o700 ∧
    (∀ e ∈ t.entries, (e.1.chars.any isUnsafe = false ∧ isCovered e.1 = true) ∧
      e.2.mode = if e.2.isFile then 0o600 else 0o700) ∧
    t.files ≠ [] ∧ (∀ d ∈ t.dirs, d ∈ t.requiredDirectories) ∧
    ∀ d ∈ t.requiredDirectories, d ∈ t.dirs := by
  simp only [validatePrivateTree, bind_ok, check_ok, exists_const, exists_forM]
  refine and_congr_right fun _ => and_congr_left fun _ => forall₂_congr fun e he => ?_
  simp only [checkPrivateEntry, bind_ok, exists_check, memberPath_posix (h.paths e he)]
  cases e.2 <;> simp [Node.isFile]

theorem iterFiles_eq : t.iterFiles = (sortBy Prod.fst t.files).filter fun f => isCovered f.1 := by
  rw [iterFiles, filter_sortBy]
  congr 1
  exact map_sortBy fun _ => rfl

/-- Where every file is part of the identity, the identity is over all files. -/
theorem iterFiles_of_covered (h : ∀ f ∈ t.files, isCovered f.1 = true) :
    t.iterFiles = sortBy Prod.fst t.files := by
  rw [iterFiles_eq]
  exact filter_eq_self.2 fun f hf => h f (mem_sortBy.1 hf)

/-- The path and the lengths of a file fit a record. -/
def Recordable (f : RelativePath × Bytes) : Prop :=
  IsPath f.1 ∧ (pathBytes f.1).length < 2 ^ 32 ∧ f.2.length < 2 ^ 63

theorem WellFormed.recordable (h : t.WellFormed) (hf : f ∈ t.files) : Recordable f :=
  ⟨h.isPath_of_mem_files hf, h.sizes f hf⟩

theorem Recordable.fits (h : Recordable f) : Framing.Fits (record f) :=
  ⟨by simpa [record] using h.2.1, lt_of_lt_of_le h.2.2 (by norm_num)⟩

theorem Recordable.record_inj {g : RelativePath × Bytes} (hf : Recordable f) (hg : Recordable g)
    (h : record f = record g) : f = g := by
  obtain ⟨hpath, hbytes⟩ := Prod.mk.inj h
  have htext : f.1.posix = g.1.posix := by
    have hdata : f.1.posix.toUTF8.data = g.1.posix.toUTF8.data := Array.toList_inj.1 hpath
    exact String.toByteArray_inj.1 (ByteArray.ext hdata)
  exact Prod.ext (posix_inj hf.1.1 hg.1.1 (fun c hc => (hf.1.2 c hc).1)
    (fun c hc => (hg.1.2 c hc).1) htext) hbytes

/-- The bytes under a digest determine the files. -/
theorem preimage_inj {files files' : Files} (hf : ∀ f ∈ files, Recordable f)
    (hf' : ∀ f ∈ files', Recordable f) (h : preimage files = preimage files') : files = files' := by
  have hrecs : files.map record = files'.map record := by
    refine Framing.frames_inj (fun a ha => ?_) (fun a ha => ?_) h
    · obtain ⟨f, hmem, rfl⟩ := mem_map.1 ha
      exact (hf f hmem).fits
    · obtain ⟨f, hmem, rfl⟩ := mem_map.1 ha
      exact (hf' f hmem).fits
  exact eq_of_map_eq (fun f hmem g hmem' => (hf f hmem).record_inj (hf' g hmem')) hrecs

end Tree

/-! ### Directories with other entries -/

/-- What may stand at a path of a directory. -/
inductive DirEntry where
  | file (bytes : Bytes)
  | dir
  | symlink
  | special
deriving DecidableEq

/-- A directory at its resolved path, with what is below it in the order it is enumerated. -/
structure BundleDir where
  root : RelativePath
  entries : List (RelativePath × DirEntry)
  paths : ∀ e ∈ entries, IsPath e.1
  distinct : (entries.map (·.1)).Nodup
  sizes : ∀ p bytes, (p, .file bytes) ∈ entries → bytes.length < 2 ^ 63

namespace BundleDir

variable (d : BundleDir) (sha256 : Bytes → Digest)

/-- The file that an entry adds to the identity. -/
def identityFile (e : RelativePath × DirEntry) : Option (RelativePath × Bytes) :=
  match e.2 with
  | .file bytes => if isCovered e.1 then some (e.1, bytes) else none
  | _ => none

/-- The files of the identity, in the order of their absolute paths. -/
def iterFiles : Files :=
  (sortBy (fun e => d.root ++ e.1) d.entries).filterMap identityFile

/-- The identity of a directory. -/
def contentHash : BundleM Digest := do
  check (d.iterFiles ≠ []) (value ("bundle dir has no files to hash: /" ++ d.root.posix))
  return sha256 (Tree.preimage d.iterFiles)

/-- The regular files outside the skipped directories, with neither a skipped suffix nor a name
that begins with `._`. -/
def covered : Set (RelativePath × Bytes) :=
  {f | (f.1, .file f.2) ∈ d.entries ∧ (∀ c ∈ f.1, c ∉ skipDirs) ∧
    suffix (fileName f.1) ∉ skipSuffixes ∧ isNoise (fileName f.1) = false}

variable {d sha256} {d' : BundleDir} {f : RelativePath × Bytes} {e : RelativePath × DirEntry}

theorem identityFile_eq_some :
    identityFile e = some f ↔ e = (f.1, .file f.2) ∧ isCovered f.1 = true := by
  obtain ⟨p, entry⟩ := e
  obtain ⟨q, bytes⟩ := f
  cases entry with
  | file data =>
    simp only [identityFile, Option.ite_none_right_eq_some, Option.some.injEq, Prod.mk.injEq,
      DirEntry.file.injEq]
    constructor
    · rintro ⟨hp, rfl, rfl⟩
      exact ⟨⟨rfl, rfl⟩, hp⟩
    · rintro ⟨⟨rfl, rfl⟩, hp⟩
      exact ⟨hp, rfl, rfl⟩
  | _ => simp [identityFile]

theorem mem_iterFiles : f ∈ d.iterFiles ↔ f ∈ d.covered := by
  have hcov : isCovered f.1 = true ↔ (∀ c ∈ f.1, c ∉ skipDirs) ∧
      suffix (fileName f.1) ∉ skipSuffixes ∧ isNoise (fileName f.1) = false := by
    simp [isCovered, and_assoc]
  simp only [iterFiles, mem_filterMap, mem_sortBy, identityFile_eq_some]
  refine Iff.trans ?_ (and_congr_right fun _ => hcov)
  constructor
  · rintro ⟨e, hmem, rfl, hp⟩
    exact ⟨hmem, hp⟩
  · rintro ⟨hmem, hp⟩
    exact ⟨_, hmem, rfl, hp⟩

/-- The order of the absolute paths is the order of the paths below the directory. -/
theorem iterFiles_sorted : Keyed.Sorted Prod.fst d.iterFiles := by
  have hnodup : ((sortBy (fun e => d.root ++ e.1) d.entries).map (·.1)).Nodup :=
    (sortBy_perm.map _).nodup_iff.2 d.distinct
  refine Pairwise.filterMap _ ?_ (sortBy_sorted.and (pairwise_map.1 hnodup))
  intro a b ⟨hle, hne⟩ x hx y hy
  obtain ⟨rfl, -⟩ := identityFile_eq_some.1 hx
  obtain ⟨rfl, -⟩ := identityFile_eq_some.1 hy
  exact lt_of_le_of_ne (not_lt.1 fun hlt => hle.not_gt (append_left_lt hlt)) hne

/-- The same files are hashed in the same order wherever the directories are. -/
theorem iterFiles_eq_iff : d.iterFiles = d'.iterFiles ↔ d.covered = d'.covered := by
  have hmem : d.covered = d'.covered ↔ ∀ f, f ∈ d.iterFiles ↔ f ∈ d'.iterFiles := by
    simp only [Set.ext_iff, mem_iterFiles]
  rw [hmem]
  refine ⟨fun h f => by rw [h], fun h => iterFiles_sorted.eq_of_perm iterFiles_sorted ?_⟩
  exact (perm_ext_iff_of_nodup iterFiles_sorted.nodup.of_map iterFiles_sorted.nodup.of_map).2 h

theorem contentHash_ok {identity : Digest} : d.contentHash sha256 = .ok identity ↔
    d.iterFiles ≠ [] ∧ sha256 (Tree.preimage d.iterFiles) = identity := by
  simp only [contentHash, bind_ok, exists_check]
  exact and_congr_right fun _ => ⟨fun h => by cases h; rfl, fun h => by rw [h]; rfl⟩

/-- **The identity is the set of files.**  A directory has an identity if it has a file to hash,
and two directories with files have the same one if and only if they have the same files with the
same bytes, wherever they are and whatever else is in them. -/
theorem contentHash_eq_iff (sha256 : Bytes → Digest) (d d' : BundleDir)
    (hpaths : ∀ f ∈ d.covered ∪ d'.covered, (pathBytes f.1).length < 2 ^ 32)
    (hsha : sha256 (Tree.preimage d.iterFiles) = sha256 (Tree.preimage d'.iterFiles) →
      Tree.preimage d.iterFiles = Tree.preimage d'.iterFiles) :
    ((∃ identity, d.contentHash sha256 = .ok identity) ↔ d.covered.Nonempty) ∧
      ∀ identity identity', d.contentHash sha256 = .ok identity →
        d'.contentHash sha256 = .ok identity' →
        (identity = identity' ↔ d.covered = d'.covered) := by
  have hrecordable {d₁ : BundleDir} (hsub : d₁.covered ⊆ d.covered ∪ d'.covered) :
      ∀ f ∈ d₁.iterFiles, Tree.Recordable f := fun f hf =>
    have hf := mem_iterFiles.1 hf
    ⟨d₁.paths _ hf.1, hpaths f (hsub hf), d₁.sizes _ _ hf.1⟩
  constructor
  · simp only [contentHash_ok, exists_and_left, exists_eq', and_true]
    constructor
    · intro hne
      obtain ⟨f, hf⟩ := exists_mem_of_ne_nil _ hne
      exact ⟨f, mem_iterFiles.1 hf⟩
    · rintro ⟨f, hf⟩
      exact ne_nil_of_mem (mem_iterFiles.2 hf)
  · intro identity identity' h h'
    obtain ⟨-, rfl⟩ := contentHash_ok.1 h
    obtain ⟨-, rfl⟩ := contentHash_ok.1 h'
    rw [← iterFiles_eq_iff]
    refine ⟨fun heq => ?_, fun heq => by rw [heq]⟩
    exact Tree.preimage_inj (hrecordable Set.subset_union_left)
      (hrecordable Set.subset_union_right) (hsha heq)

/-- A directory with one file to hash, a compiled one and a link. -/
def sample (root : String) : BundleDir where
  root := [root]
  entries := [(["m.pyc"], .file [2]), (["link"], .symlink), (["m.py"], .file [1])]
  paths := by decide
  distinct := by decide
  sizes p bytes h := by
    simp only [mem_cons, Prod.mk.injEq, DirEntry.file.injEq, reduceCtorEq, and_false,
      not_mem_nil, or_false, false_or] at h
    rcases h with ⟨-, rfl⟩ | ⟨-, rfl⟩ <;> decide

theorem contentHash_eq_iff_sample : (sample "a").iterFiles = (sample "b").iterFiles ∧
    ∃ identity, (sample "a").contentHash (fun bytes => .ofNat bytes.length) = .ok identity := by
  have ha : (sample "a").iterFiles = [(["m.py"], [1])] := by decide
  have hb : (sample "b").iterFiles = [(["m.py"], [1])] := by decide
  have hfile : (["m.py"], [1]) ∈ (sample "a").covered := mem_iterFiles.1 (by simp [ha])
  refine ⟨ha.trans hb.symm, (contentHash_eq_iff _ (sample "a") (sample "b") ?_ fun _ => ?_).1.2
    ⟨_, hfile⟩⟩
  · rintro f (hf | hf)
    · rw [← mem_iterFiles, ha] at hf
      rw [mem_singleton.1 hf]
      decide
    · rw [← mem_iterFiles, hb] at hf
      rw [mem_singleton.1 hf]
      decide
  · rw [ha, hb]

end BundleDir

end Cacheon
