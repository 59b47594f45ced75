import Cacheon.Bundle.Tree
import Cacheon.Lib.Assoc
import Mathlib.Data.List.Dedup

/-!
# Immutable copies of bundles

A bundle is copied into a read-only tree under an address, together with a manifest of its files,
and reopened from there: every byte is read again and compared with the manifest.

* `Published` : a sealed tree with its manifest; the permission bits are those of the sealing.
* `publishNativeArtifact`, `reopenNativeArtifact` : the two operations.
* `reopen_of_publish` : what was published can be reopened.
-/

namespace Cacheon

open Fallible RelativePath BundleFault Keyed

/-- The bounds of one artifact tree. -/
structure NativeArtifactLimits where
  maxFiles : ℕ := 4096
  maxDirectories : ℕ := 4096
  maxFileBytes : ℕ := 2 ^ 30
  maxTotalBytes : ℕ := 2 ^ 33
  maxDepth : ℕ := 32
  maxPathBytes : ℕ := 1024
  maxManifestBytes : ℕ := 2 ^ 24
deriving DecidableEq

/-- One file of an inventory. -/
structure NativeArtifactFile where
  path : String
  sha256 : Digest
  size : ℕ
deriving DecidableEq

/-! ### Paths of artifacts -/

/-- `[A-Za-z0-9][A-Za-z0-9._+@=,\-\[\] ]{0,254}`. -/
def isArtifactComponent (component : String) : Bool :=
  isNameOver Char.isAlphanum "._+@=,-[] " 254 component.toList

/-- `_{1,2}[A-Za-z][A-Za-z0-9_]*`. -/
def isPrivateStem (stem : List Char) : Bool :=
  let underscores := stem.takeWhile (· = '_')
  let rest := stem.dropWhile (· = '_')
  decide (1 ≤ underscores.length ∧ underscores.length ≤ 2) &&
    (rest.head?.any Char.isAlpha) && rest.all fun c => c.isAlphanum || c = '_'

/-- `_{1,2}[A-Za-z][A-Za-z0-9_]*(?:\.[A-Za-z0-9_+-]+)*\.(?:py|so)`. -/
def isPrivatePythonModule (component : String) : Bool :=
  match component.toList.splitOn '.' with
  | stem :: middle@(_ :: _) => isPrivateStem stem &&
      (middle.dropLast.all fun part => !part.isEmpty &&
        part.all fun c => c.isAlphanum || c = '_' || c = '+' || c = '-') &&
      (middle.getLast? = some ['p', 'y'] || middle.getLast? = some ['s', 'o'])
  | _ => false

/-- A component of an artifact path; a module with a private name only as a file. -/
def validateComponent (allowPythonModule : Bool) (component : String) : BundleM Unit :=
  check ((allowPythonModule ∧ isPrivatePythonModule component) ∨ isArtifactComponent component)
    (named (native "native artifact path component is unsafe: ") component)

/-- A path of an artifact. -/
def validateRelativePath (limits : NativeArtifactLimits) (allowPythonLeaf : Bool)
    (path : String) : BundleM Unit := do
  check (path ≠ "" ∧ path.toList.head? ≠ some '/' ∧ '\\' ∉ path.toList)
    (named (native "native artifact path is not canonical: ") path)
  let parts := (splitSlash path.toList).map String.ofList
  check (parts.length ≤ limits.maxDepth)
    (named (native "native artifact path exceeds depth bound: ") path)
  forM parts.dropLast (validateComponent false)
  validateComponent allowPythonLeaf (parts.getLastD "")
  check (path.toList.length ≤ limits.maxPathBytes)
    (named (native "native artifact path exceeds byte bound: ") path)

/-- A row of an inventory, if its path is one of an artifact. -/
def nativeArtifactFile (path : String) (sha256 : Digest) (size : ℕ) :
    BundleM NativeArtifactFile := do
  validateRelativePath {} true path
  return ⟨path, sha256, size⟩

/-- The directories above the files of an inventory, in order. -/
def requiredDirectoryTexts (paths : List String) : List String :=
  sortBy id (paths.flatMap fun path =>
    (ancestors ((splitSlash path.toList).map String.ofList)).map posix).dedup

/-! ### Publications -/

/-- The digests of the publication code. -/
structure ArtifactHashes where
  sha256 : Bytes → Digest
  /-- The identity of a published tree: its address, directories and files. -/
  publication : Digest → List String → List NativeArtifactFile → Digest
  /-- The address of a bundle: its identity, directories and files. -/
  address : Digest → List String → List NativeArtifactFile → Digest
  /-- The size of the text of a manifest. -/
  manifestSize : Digest → List String → List NativeArtifactFile → ℕ

/-- The manifest of a published tree. -/
structure ArtifactManifest where
  buildSpecDigest : Digest
  publicationDigest : Digest
  directories : List String
  files : List NativeArtifactFile
deriving DecidableEq

/-- A sealed tree: its files with their contents, its directories and its manifest. -/
structure Published where
  manifest : ArtifactManifest
  directories : List String
  contents : List (String × Bytes)
deriving DecidableEq

/-- The published trees by their addresses. -/
abbrev PublicationRoot := List (Digest × Published)

/-- A reopened publication. -/
structure NativeArtifactPublication where
  published : Published
  buildSpecDigest : Digest
  publicationDigest : Digest
  directories : List String
  files : List NativeArtifactFile
  reused : Bool
deriving DecidableEq

variable (H : ArtifactHashes) (limits : NativeArtifactLimits)

/-- One entry of the tree to copy. -/
def copyEntry (e : RelativePath × Node) : BundleM Unit := do
  check (e.1 ≠ [".cacheon-native-artifact.json"])
    (native "native artifact stage contains the reserved host manifest")
  validateComponent e.2.isFile (fileName e.1)
  validateRelativePath limits e.2.isFile e.1.posix
  check (e.2.isFile → e.2.bytes.length ≤ limits.maxFileBytes)
    (native ("native artifact file exceeds its hard bound: " ++ e.1.posix))

/-- The row of a file. -/
def fileRow (f : RelativePath × Bytes) : BundleM NativeArtifactFile :=
  nativeArtifactFile f.1.posix (H.sha256 f.2) f.2.length

/-- The total size of some files. -/
def totalBytes (sizes : List ℕ) : ℕ := sizes.sum

/-- The bounds on numbers and sizes. -/
def withinLimits (directories : ℕ) (sizes : List ℕ) : Prop :=
  directories ≤ limits.maxDirectories ∧ sizes.length ≤ limits.maxFiles ∧
    totalBytes sizes ≤ limits.maxTotalBytes

instance (directories : ℕ) (sizes : List ℕ) : Decidable (withinLimits limits directories sizes) :=
  inferInstanceAs (Decidable (_ ∧ _ ∧ _))

/-- Copy a tree: the directories and files of its inventory. -/
def copyStage (t : Tree) : BundleM (List String × List NativeArtifactFile) := do
  forM t.entries (copyEntry limits)
  let rows ← t.files.mapM (fileRow H)
  check (withinLimits limits t.dirs.length (rows.map (·.size)))
    (native "native artifact exceeds its bounds")
  check (rows ≠ []) (native "native artifact stage must contain at least one file")
  let files := sortBy NativeArtifactFile.path rows
  let directories := sortBy id (t.dirs.map posix)
  check (directories = requiredDirectoryTexts (files.map (·.path)))
    (native "native artifact stage contains an empty directory")
  return (directories, files)

/-- One row of a manifest. -/
def checkManifestFile (row : NativeArtifactFile) : BundleM Unit := do
  validateRelativePath limits true row.path
  check (row.size ≤ limits.maxFileBytes)
    (native "native artifact manifest file exceeds its hard bound")
  validateRelativePath {} true row.path

/-- Read a manifest. -/
def parseManifest (m : ArtifactManifest) : BundleM Unit := do
  check (H.manifestSize m.buildSpecDigest m.directories m.files ≤ limits.maxManifestBytes)
    (native "native artifact file has an unsafe shape: .cacheon-native-artifact.json")
  forM m.directories (validateRelativePath limits false)
  forM m.files (checkManifestFile limits)
  check (Keyed.Sorted id m.directories)
    (native "native artifact manifest directories are not canonical")
  check (Keyed.Sorted NativeArtifactFile.path m.files)
    (native "native artifact manifest files are not canonical")
  check (withinLimits limits m.directories.length (m.files.map (·.size)))
    (native "native artifact manifest exceeds its count bounds")
  check (m.files ≠ [] ∧ m.directories = requiredDirectoryTexts (m.files.map (·.path)))
    (native "native artifact manifest has empty/unmanifested directories")
  check (H.publication m.buildSpecDigest m.directories m.files = m.publicationDigest)
    (native "native artifact manifest publication digest mismatch")

/-- One published file, hashed again. -/
def hashRegular (f : String × Bytes) : BundleM NativeArtifactFile := do
  validateRelativePath limits true f.1
  check (f.2.length ≤ limits.maxFileBytes)
    (native ("published native artifact file has an unsafe shape: " ++ f.1))
  nativeArtifactFile f.1 (H.sha256 f.2) f.2.length

/-- Reopen a published tree. -/
def reopenNativeArtifact (buildSpecDigest : Digest)
    (expectedPublicationDigest : Option Digest) (p : Published) :
    BundleM NativeArtifactPublication := do
  parseManifest H limits p.manifest
  check (p.manifest.buildSpecDigest = buildSpecDigest)
    (native "native artifact manifest names another build spec")
  check (∀ expected ∈ expectedPublicationDigest, p.manifest.publicationDigest = expected)
    (native "native artifact publication digest differs from expected bytes")
  forM p.directories (validateRelativePath limits false)
  let observed ← p.contents.mapM (hashRegular H limits)
  check (withinLimits limits p.directories.length (observed.map (·.size)))
    (native "published native artifact exceeds its bounds")
  check (sortBy id p.directories = p.manifest.directories ∧
      sortBy NativeArtifactFile.path observed = p.manifest.files)
    (native "native artifact publication inventory differs from its manifest")
  return ⟨p, buildSpecDigest, p.manifest.publicationDigest, p.manifest.directories,
    p.manifest.files, false⟩

/-- The sealed copy of a tree. -/
def sealedCopy (buildSpecDigest publication : Digest)
    (inventory : List String × List NativeArtifactFile)
    (t : Tree) : Published :=
  ⟨⟨buildSpecDigest, publication, inventory.1, inventory.2⟩, t.dirs.map posix,
    t.files.map fun f => (f.1.posix, f.2)⟩

/-- Copy, seal and publish a tree at its address. -/
def publishNativeArtifact (buildSpecDigest : Digest) (t : Tree) (root : PublicationRoot) :
    BundleM (NativeArtifactPublication × PublicationRoot) := do
  let inventory ← copyStage H limits t
  let directories := inventory.1
  let files := inventory.2
  let publication := H.publication buildSpecDigest directories files
  check (H.manifestSize buildSpecDigest directories files ≤ limits.maxManifestBytes)
    (native "native artifact manifest exceeds its hard bound")
  match root.lookup buildSpecDigest with
  | some existing => do
    let reopened ← reopenNativeArtifact H limits buildSpecDigest (some publication) existing
    return ({ reopened with reused := true }, root)
  | none => do
    let published := sealedCopy buildSpecDigest publication inventory t
    let reopened ← reopenNativeArtifact H limits buildSpecDigest (some publication) published
    check (reopened.directories = directories ∧ reopened.files = files)
      (native "native artifact changed across atomic publication")
    return (reopened, (buildSpecDigest, published) :: root)

/-! ### What is published can be reopened -/

variable {H limits} {buildSpecDigest : Digest} {t : Tree}
  {root root' : PublicationRoot} {artifact : NativeArtifactPublication} {expected : Option Digest}
  {p : Published}

/-- What a reopened publication is. -/
theorem reopenArtifact_ok
    (h : reopenNativeArtifact H limits buildSpecDigest expected p = .ok artifact) :
    (∃ obs, p.contents.mapM (hashRegular H limits) = .ok obs ∧
      sortBy NativeArtifactFile.path obs = p.manifest.files) ∧
    Keyed.Sorted NativeArtifactFile.path p.manifest.files ∧
    (∀ digest ∈ expected, p.manifest.publicationDigest = digest) ∧
    artifact = ⟨p, buildSpecDigest, p.manifest.publicationDigest, p.manifest.directories,
      p.manifest.files, false⟩ := by
  simp only [reopenNativeArtifact, bind_ok, exists_check] at h
  obtain ⟨⟨⟩, hman, -, hexpect, -, -, obs, hobserved, -, ⟨-, hfiles⟩, hreturn⟩ := h
  cases hreturn
  simp only [parseManifest, bind_ok, exists_check] at hman
  obtain ⟨-, -, -, -, -, -, hsort, -⟩ := hman
  exact ⟨⟨obs, hobserved, hfiles⟩, hsort, hexpect, rfl⟩

/-- The contents that a publication may read: those of the bundle and those published before. -/
def Readable (t : Tree) (root : PublicationRoot) : Set Bytes :=
  {bytes | (∃ f ∈ t.files, f.2 = bytes) ∨ ∃ e ∈ root, ∃ c ∈ e.2.contents, c.2 = bytes}

/-- What a publication leaves under its address. -/
theorem reopen_of_publish
    (h : publishNativeArtifact H limits buildSpecDigest t root = .ok (artifact, root')) :
    ∃ p reopened, root'.lookup buildSpecDigest = some p ∧ reopened.published = p ∧
      artifact = { reopened with reused := artifact.reused } ∧
      (∀ c ∈ p.contents, c.2 ∈ Readable t root) ∧
      reopenNativeArtifact H limits buildSpecDigest (some reopened.publicationDigest) p =
        .ok reopened := by
  -- in both branches the result is the published tree reopened under its own digest
  have hsame : ∀ {p : Published} {digest : Digest} {reopened : NativeArtifactPublication},
      reopenNativeArtifact H limits buildSpecDigest (some digest) p = .ok reopened →
        reopened.published = p ∧ reopened.publicationDigest = digest := by
    intro p digest reopened hreop
    obtain ⟨-, -, hexpect, rfl⟩ := reopenArtifact_ok hreop
    exact ⟨rfl, hexpect digest rfl⟩
  simp only [publishNativeArtifact, bind_ok, exists_check] at h
  obtain ⟨inv, -, -, h⟩ := h
  split at h
  · rename_i existing hlook
    simp only [bind_ok] at h
    obtain ⟨reopened, hreop, hreturn⟩ := h
    cases hreturn
    obtain ⟨hpub, hdig⟩ := hsame hreop
    have hmem : (buildSpecDigest, existing) ∈ root := Assoc.mem_of_lookup hlook
    exact ⟨existing, reopened, hlook, hpub, rfl,
      fun c hc => .inr ⟨_, hmem, c, hc, rfl⟩, by rw [hdig, hreop]⟩
  · simp only [bind_ok, exists_check] at h
    obtain ⟨reopened, hreop, -, hreturn⟩ := h
    cases hreturn
    obtain ⟨hpub, hdig⟩ := hsame hreop
    refine ⟨_, artifact, List.lookup_cons_self, hpub, rfl, fun c hc => ?_, by rw [hdig, hreop]⟩
    obtain ⟨f, hf, rfl⟩ := List.mem_map.1 hc
    exact .inl ⟨f, hf, rfl⟩

/-- The row of a file. -/
def rowOf (H : ArtifactHashes) (path : String) (bytes : Bytes) : NativeArtifactFile :=
  ⟨path, H.sha256 bytes, bytes.length⟩

theorem nativeArtifactFile_ok {path : String} {sha : Digest} {size : ℕ}
    {row : NativeArtifactFile} : nativeArtifactFile path sha size = .ok row ↔
      validateRelativePath {} true path = .ok () ∧ row = ⟨path, sha, size⟩ := by
  simp only [nativeArtifactFile, bind_ok]
  constructor
  · rintro ⟨⟨⟩, hvalid, hreturn⟩
    cases hreturn
    exact ⟨hvalid, rfl⟩
  · rintro ⟨hvalid, rfl⟩
    exact ⟨(), hvalid, rfl⟩

/-- The inventory of a reopened tree is that of its contents. -/
theorem files_of_reopen
    (h : reopenNativeArtifact H limits buildSpecDigest expected p = .ok artifact) :
    (p.contents.map (·.1)).Nodup ∧
      ∀ row ∈ artifact.files, ∃ c ∈ p.contents, row = rowOf H c.1 c.2 := by
  obtain ⟨⟨observed, hobserved, hfiles⟩, hsort, -, rfl⟩ := reopenArtifact_ok h
  have hrow : ∀ c row, hashRegular H limits c = .ok row → row = rowOf H c.1 c.2 := by
    intro c row hrow
    simp only [hashRegular, bind_ok, exists_check, nativeArtifactFile_ok] at hrow
    obtain ⟨-, -, -, -, hrow⟩ := hrow
    exact hrow
  constructor
  · have hpaths : observed.map (·.path) = p.contents.map (·.1) :=
      map_eq_of_mapM (fun c row hr => by rw [hrow c row hr]; rfl) hobserved
    have hnodup : (p.manifest.files.map (·.path)).Nodup := hsort.nodup
    rw [← hfiles] at hnodup
    rw [← hpaths]
    exact (sortBy_perm.map _).nodup_iff.1 hnodup
  · intro row hmem
    have hmem' : row ∈ sortBy NativeArtifactFile.path observed := by
      rw [hfiles]
      exact hmem
    obtain ⟨c, hc, hread⟩ := exists_of_mapM hobserved (mem_sortBy.1 hmem')
    exact ⟨c, hc, hrow c row hread⟩

end Cacheon
