import Cacheon.Bundle.NativeArtifact

/-!
# Publication of bundles

A fetched bundle is published for the workers.  The publication computes the identity of the
bundle twice more: over the private tree before it is copied, and over the copy.

* `sourceInventory`, `publishedContentHash` : the two computations.
* `publishWorkerBundle`, `reopenWorkerBundle` : publish a bundle under its identity, reopen it.
* `identities_agree_iff` : the three identities agree exactly on bundles without clashing names.
-/

namespace Cacheon

open Fallible RelativePath BundleFault List Keyed Except Cacheon.Tree

/-- The path is not part of the committed identity. -/
def excluded (p : RelativePath) : Bool :=
  p.any (skipDirs.contains ·) || skipSuffixes.contains (suffix (fileName p)) || isNoise (fileName p)

theorem excluded_eq (p : RelativePath) : excluded p = !isCovered p := by
  simp [excluded, isCovered, Bool.not_and, Bool.not_not]

variable (H : ArtifactHashes)

/-- One entry of a private bundle. -/
def checkSourceEntry (e : RelativePath × Node) : BundleM Unit := do
  check (¬ excluded e.1)
    (publication ("bundle contains bytes excluded from committed identity: " ++ e.1.posix))
  check (¬ e.2.isFile → e.2.mode &&& 0o077 = 0 ∧ e.2.mode &&& 0o500 = 0o500)
    (publication ("private bundle directory has unsafe ownership/mode: " ++ e.1.posix))
  check (e.2.isFile → e.2.mode &&& 0o077 = 0 ∧ e.2.mode &&& 0o400 ≠ 0)
    (publication ("private bundle file has unsafe ownership/mode/link shape: " ++ e.1.posix))

/-- The row of a private file. -/
def sourceRow (f : RelativePath × Bytes) : BundleM NativeArtifactFile :=
  (fileRow H f).mapError fun _ => source "private bundle path is not publishable"

/-- The files of a tree in the order of their texts. -/
def Tree.textFiles (t : Tree) : Files := sortBy (fun f => f.1.posix) t.files

/-- The directories, files and identity of a private bundle. -/
structure SourceInventory where
  directories : List String
  files : List NativeArtifactFile
  contentHash : Digest
deriving DecidableEq

/-- The inventory of a private bundle; the identity is over the files in the order of their
texts. -/
def sourceInventory (t : Tree) : BundleM SourceInventory := do
  forM t.entries checkSourceEntry
  check (t.files ≠ []) (publication "private bundle contains no committed files")
  let files ← t.textFiles.mapM (sourceRow H)
  return ⟨sortBy id (t.dirs.map posix), files, H.sha256 (preimage t.textFiles)⟩

/-- One published file as a record of the identity. -/
def publishedRecord (p : Published) (row : NativeArtifactFile) : BundleM (Bytes × Bytes) := do
  let bytes ← get (publication ("cannot read immutable worker file " ++ row.path))
    (p.contents.lookup row.path)
  check (bytes.length = row.size ∧ H.sha256 bytes = row.sha256)
    (publication ("immutable worker file differs from publication inventory: " ++ row.path))
  return (row.path.toUTF8.data.toList, bytes)

/-- The identity of a published tree. -/
def publishedContentHash (artifact : NativeArtifactPublication) : BundleM Digest := do
  let records ← artifact.files.mapM (publishedRecord H artifact.published)
  return H.sha256 (Framing.frames records)

/-- A published bundle. -/
structure WorkerBundlePublication where
  contentHash : Digest
  addressDigest : Digest
  publicationDigest : Digest
  directories : List String
  files : List NativeArtifactFile
  reused : Bool
deriving DecidableEq

/-- The checks of a published bundle's constructor. -/
def WorkerBundlePublication.postInit (w : WorkerBundlePublication) : BundleM Unit := do
  check (Keyed.Sorted id w.directories)
    (publication "worker publication directory inventory is not canonical")
  check (Keyed.Sorted NativeArtifactFile.path w.files)
    (publication "worker publication file inventory is not canonical")
  check (w.files ≠ []) (publication "worker publication file inventory is empty or ambiguous")
  check (w.directories = requiredDirectoryTexts (w.files.map (·.path)))
    (publication "worker publication contains empty or unmanifested directories")
  check (w.addressDigest = H.address w.contentHash w.directories w.files)
    (publication "worker publication address differs from its exact inventory")

/-- How a private bundle is refused that is not the committed one. -/
def sourceDiffers : BundleFault :=
  publication "private bundle differs from its committed content hash"

/-- How a published tree is refused that is not the committed one. -/
def publishedDiffers : BundleFault :=
  publication "immutable worker tree differs from the committed content hash"

/-- A reopened tree as a published bundle. -/
def wrapPublication (artifact : NativeArtifactPublication) (expected : Digest) :
    BundleM WorkerBundlePublication := do
  let actual ← publishedContentHash H artifact
  check (actual = expected) publishedDiffers
  let address := H.address expected artifact.directories artifact.files
  check (artifact.buildSpecDigest = address)
    (publication "native carrier address differs from worker bundle identity")
  let w : WorkerBundlePublication := ⟨expected, address, artifact.publicationDigest,
    artifact.directories, artifact.files, artifact.reused⟩
  w.postInit H
  return w

/-- A failed copy is a failed publication. -/
def publicationFailed (fault : BundleFault) : BundleFault :=
  fault.published "worker bundle publication failed: "

/-- A failed reopening is a failed publication. -/
def reopenFailed (fault : BundleFault) : BundleFault :=
  fault.published "worker bundle reopen failed: "

/-- Publish a private bundle under its committed identity. -/
def publishWorkerBundle (limits : NativeArtifactLimits) (expected : Digest) (t : Tree)
    (root : PublicationRoot) : BundleM (WorkerBundlePublication × PublicationRoot) := do
  check (t.mode &&& 0o077 = 0 ∧ t.mode &&& 0o700 = 0o700)
    (publication "private bundle root must be a validator-owned mode-0700-style directory")
  let inventory ← sourceInventory H t
  check (inventory.contentHash = expected) sourceDiffers
  let address := H.address expected inventory.directories inventory.files
  let published ← (publishNativeArtifact H limits address t root).mapError publicationFailed
  check (published.1.directories = inventory.directories ∧ published.1.files = inventory.files)
    (publication "private bundle changed across immutable publication")
  let w ← wrapPublication H published.1 expected
  return (w, published.2)

/-- Reopen the bundle published at an address. -/
def reopenWorkerBundle (limits : NativeArtifactLimits) (address expected : Digest)
    (expectedPublication : Option Digest) (root : PublicationRoot) :
    BundleM WorkerBundlePublication := do
  let p ← get (reopenFailed (native "native artifact publication is unavailable"))
    (root.lookup address)
  let artifact ← (reopenNativeArtifact H limits address expectedPublication p).mapError reopenFailed
  wrapPublication H artifact expected

/-! ### The three identities -/

/-- Every path can be published. -/
def Tree.Publishable (t : Tree) : Prop :=
  ∀ f ∈ t.files, validateRelativePath {} true f.1.posix = .ok ()

instance : DecidablePred Tree.Publishable := fun t =>
  inferInstanceAs (Decidable (∀ f ∈ t.files, _))

/-- The files in the order of their paths. -/
def Tree.pathFiles (t : Tree) : Files := sortBy Prod.fst t.files

variable {H} {t : Tree} {limits : NativeArtifactLimits} {root root' : PublicationRoot}
  {expected : Digest} {f : RelativePath × Bytes}

/-- The bytes under the two digests are the same only if the two orders are. -/
theorem preimage_inj (hwf : t.WellFormed)
    (h : preimage t.pathFiles = preimage t.textFiles) : t.pathFiles = t.textFiles :=
  Tree.preimage_inj (fun _ hf => hwf.recordable (mem_sortBy.1 hf))
    (fun _ hf => hwf.recordable (mem_sortBy.1 hf)) h

/-- No directory's name, followed by a character below the slash, begins the name of a sibling. -/
def Tree.NoClash (t : Tree) : Prop := ∀ f ∈ t.files, ∀ g ∈ t.files, ¬ Clash f.1 g.1

/-- The two orders are the same exactly if no names clash. -/
theorem pathFiles_eq_textFiles_iff (hwf : t.WellFormed) :
    t.pathFiles = t.textFiles ↔ t.NoClash := by
  have hpath : ∀ f ∈ t.files, ∀ c ∈ f.1, IsName c := fun f hf c hc =>
    ((hwf.isPath_of_mem_files hf).2 c hc).1
  constructor
  · intro h f hf g hg hclash
    have hlt := hclash.lt
    have hposix : g.1.posix < f.1.posix := by
      rw [String.lt_iff_toList_lt, toList_posix, toList_posix]
      exact hlt.2
    have hboth : t.pathFiles.Pairwise fun a b => a.1 ≤ b.1 ∧ a.1.posix ≤ b.1.posix := by
      have hsort : t.pathFiles.Pairwise fun a b => a.1 ≤ b.1 := sortBy_sorted
      have hsort' : t.textFiles.Pairwise fun a b => a.1.posix ≤ b.1.posix := sortBy_sorted
      exact hsort.and (h ▸ hsort')
    have hne : f ≠ g := by
      rintro rfl
      exact lt_irrefl _ hposix
    rcases rel_or_rel hboth (mem_sortBy.2 hf) (mem_sortBy.2 hg) hne with hfg | hgf
    · exact absurd hfg.2 (not_le.2 hposix)
    · exact absurd hgf.1 (not_le.2 hlt.1)
  · intro h
    have hsort : t.pathFiles.Pairwise fun a b => a.1.posix ≤ b.1.posix := by
      have hsort : t.pathFiles.Pairwise fun a b => a.1 ≤ b.1 := sortBy_sorted
      refine hsort.imp_of_mem fun {f g} hf hg hfg => ?_
      have hf := mem_sortBy.1 hf
      have hg := mem_sortBy.1 hg
      rcases hfg.lt_or_eq with hlt | heq
      · exact ((posix_lt_iff (hpath f hf) (hpath g hg) (h f hf g hg) (h g hg f hf)).2 hlt).le
      · rw [heq]
    have hinj : ∀ f ∈ t.pathFiles, ∀ g ∈ t.pathFiles, f.1.posix = g.1.posix → f = g := by
      intro f hf g hg hfg
      have hf := mem_sortBy.1 hf
      have hg := mem_sortBy.1 hg
      refine inj_on_of_nodup_map hwf.files_nodup hf hg ?_
      exact posix_inj (hwf.isPath_of_mem_files hf).1 (hwf.isPath_of_mem_files hg).1 (hpath f hf)
        (hpath g hg) hfg
    have hresort : sortBy (fun f => f.1.posix) t.pathFiles = t.textFiles :=
      sortBy_eq_of_perm hinj sortBy_perm
    rw [← hresort, sortBy_eq_self hsort]

/-- The identity of a cached bundle is over all its files. -/
theorem contentHash_of_validated (hwf : t.WellFormed) (h : t.validatePrivateTree = .ok ()) :
    t.contentHash H.sha256 = .ok (H.sha256 (preimage t.pathFiles)) := by
  obtain ⟨-, hents, hne, -⟩ := (privateTree_ok hwf).1 h
  have hcov : ∀ f ∈ t.files, isCovered f.1 = true := by
    intro f hf
    obtain ⟨mode, hmem⟩ := mem_files.1 hf
    exact (hents _ hmem).1.2
  have hiter := iterFiles_of_covered hcov
  have hiterNe : t.iterFiles ≠ [] := by
    rw [hiter]
    intro hnil
    exact hne (Perm.nil_eq (hnil ▸ sortBy_perm)).symm
  rw [contentHash, check_of hiterNe, hiter]
  rfl

/-- The row of a file. -/
def treeRow (H : ArtifactHashes) (f : RelativePath × Bytes) : NativeArtifactFile :=
  rowOf H f.1.posix f.2

/-- The inventory of a cached bundle. -/
theorem sourceInventory_of_validated (hwf : t.WellFormed) (h : t.validatePrivateTree = .ok ())
    (hpublishable : t.Publishable) : sourceInventory H t =
      .ok ⟨sortBy id (t.dirs.map posix), t.textFiles.map (treeRow H),
        H.sha256 (preimage t.textFiles)⟩ := by
  obtain ⟨-, hents, hne, -⟩ := (privateTree_ok hwf).1 h
  have hchecked : forM t.entries checkSourceEntry = .ok () := by
    refine forM_ok.2 fun e he => ?_
    obtain ⟨⟨-, hcov⟩, hmode⟩ := hents e he
    simp only [checkSourceEntry, bind_ok, check_ok, exists_const, excluded_eq, hcov, hmode]
    cases e.2.isFile <;> decide
  have hrows : t.textFiles.mapM (sourceRow H) = .ok (t.textFiles.map (treeRow H)) := by
    refine mapM_of_forall₂ (forall₂_map_right_iff.2 (forall₂_same.2 fun f hf => ?_))
    rw [sourceRow, mapError_ok, fileRow, nativeArtifactFile_ok]
    exact ⟨hpublishable f (mem_sortBy.1 hf), rfl⟩
  simp only [sourceInventory, hchecked, check_of hne, hrows]
  rfl

variable {artifact : NativeArtifactPublication}

/-- A published tree with the inventory of the bundle has its identity. -/
theorem contentHash_of_publish {addr : Digest} (hsha : Set.InjOn H.sha256 (Readable t root))
    (h : publishNativeArtifact H limits addr t root = .ok (artifact, root'))
    (hfiles : artifact.files = t.textFiles.map (treeRow H)) :
    publishedContentHash H artifact = .ok (H.sha256 (preimage t.textFiles)) := by
  obtain ⟨p, reop, -, hpub, hart, hreadable, hreopen⟩ := reopen_of_publish h
  obtain ⟨hnodup, hrows⟩ := files_of_reopen hreopen
  have hp : artifact.published = p := by rw [hart, ← hpub]
  have hsame : reop.files = artifact.files := by rw [hart]
  have hread : ∀ f ∈ t.textFiles,
      publishedRecord H artifact.published (treeRow H f) = .ok (record f) := by
    intro f hf
    obtain ⟨c, hc, hrow⟩ := hrows (treeRow H f) (by
      rw [hsame, hfiles]
      exact mem_map_of_mem hf)
    obtain ⟨hpath, hdig, -⟩ := NativeArtifactFile.mk.inj hrow
    have hbytes : f.2 = c.2 := hsha (.inl ⟨f, mem_sortBy.1 hf, rfl⟩) (hreadable c hc) hdig
    have hlook : p.contents.lookup (treeRow H f).path = some f.2 := by
      rw [Assoc.lookup_eq_some hnodup]
      have hpair : c = ((treeRow H f).path, f.2) := Prod.ext hpath.symm hbytes.symm
      rwa [hpair] at hc
    simp only [publishedRecord, bind_ok, get_ok, exists_check]
    exact ⟨f.2, by rw [hp, hlook], ⟨rfl, rfl⟩, rfl⟩
  have hmapM : artifact.files.mapM (publishedRecord H artifact.published) =
      .ok (t.textFiles.map record) := by
    rw [hfiles]
    refine mapM_of_forall₂ ?_
    rw [forall₂_map_left_iff, forall₂_map_right_iff, forall₂_same]
    exact hread
  rw [publishedContentHash, hmapM]
  rfl

/-- The three computations give one identity, a publication under it is not refused as another
bundle's, and what was published can be reopened. -/
structure IdentitiesAgree (H : ArtifactHashes) (limits : NativeArtifactLimits) (t : Tree)
    (root : PublicationRoot) (identity : Digest) : Prop where
  content : t.contentHash H.sha256 = .ok identity
  inventory : ∃ inventory, sourceInventory H t = .ok inventory ∧ inventory.contentHash = identity ∧
    ∀ address artifact root',
      publishNativeArtifact H limits address t root = .ok (artifact, root') →
      artifact.files = inventory.files → publishedContentHash H artifact = .ok identity
  source : publishWorkerBundle H limits identity t root ≠ .error sourceDiffers
  published : publishWorkerBundle H limits identity t root ≠ .error publishedDiffers
  reopens : ∀ w root', publishWorkerBundle H limits identity t root = .ok (w, root') →
    reopenWorkerBundle H limits w.addressDigest identity (some w.publicationDigest) root' =
      .ok { w with reused := false }

variable {w : WorkerBundlePublication}

/-- What a wrapped publication is. -/
theorem wrapPublication_ok : wrapPublication H artifact expected = .ok w ↔
      publishedContentHash H artifact = .ok expected ∧
      artifact.buildSpecDigest = H.address expected artifact.directories artifact.files ∧
      w.postInit H = .ok () ∧
      w = ⟨expected, artifact.buildSpecDigest, artifact.publicationDigest, artifact.directories,
        artifact.files, artifact.reused⟩ := by
  simp only [wrapPublication, bind_ok, exists_check]
  constructor
  · rintro ⟨actual, hactual, rfl, haddr, ⟨⟩, hpost, hreturn⟩
    cases hreturn
    exact ⟨hactual, haddr, hpost, by rw [haddr]⟩
  · rintro ⟨hactual, haddr, hpost, rfl⟩
    rw [← haddr]
    exact ⟨expected, hactual, rfl, rfl, (), hpost, rfl⟩

/-- The refusal says that a bundle is not the committed one. -/
def Differs (fault : BundleFault) : Prop := fault = sourceDiffers ∨ fault = publishedDiffers

instance : DecidablePred Differs := fun fault =>
  inferInstanceAs (Decidable (fault = sourceDiffers ∨ fault = publishedDiffers))

theorem not_differs_publicationFailed (fault : BundleFault) :
    ¬ Differs (publicationFailed fault) := by
  -- the texts differ in their first character
  have hhead : ∀ text : String, text.toList.head? ≠ some 'w' →
      publicationFailed fault ≠ publication text := by
    intro text htext h
    cases fault
    case named => cases h
    all_goals
      apply htext
      rw [← BundleFault.publication.inj h, String.toList_append]
      rfl
  rintro (h | h)
  · exact hhead _ (by decide) h
  · exact hhead _ (by decide) h

variable {fault : BundleFault}

theorem not_differs_postInit (h : w.postInit H = .error fault) : ¬ Differs fault := by
  simp only [WorkerBundlePublication.postInit, bind_eq_error, check_eq_error, exists_check] at h
  rcases h with ⟨-, rfl⟩ | ⟨-, ⟨-, rfl⟩ | ⟨-, ⟨-, rfl⟩ | ⟨-, ⟨-, rfl⟩ | ⟨-, -, rfl⟩⟩⟩⟩ <;> decide

/-- A published tree with the right identity is not refused as another bundle's. -/
theorem not_differs_wrapPublication (hhash : publishedContentHash H artifact = .ok expected)
    (h : wrapPublication H artifact expected = .error fault) : ¬ Differs fault := by
  simp only [wrapPublication, hhash, bind_eq_error, check_eq_error, check_ok, reduceCtorEq,
    false_or, ok.injEq, exists_eq_left', not_true_eq_false, false_and, exists_const] at h
  obtain ⟨-, ⟨-, rfl⟩ | ⟨-, hpost | ⟨-, -, hreturn⟩⟩⟩ := h
  · decide
  · exact not_differs_postInit hpost
  · cases hreturn

/-- A publication under the identity of the inventory is not refused as another bundle's. -/
theorem not_differs_publish {inv : SourceInventory}
    (hinventory : sourceInventory H t = .ok inv) (hhash : ∀ addr artifact root',
      publishNativeArtifact H limits addr t root = .ok (artifact, root') →
        artifact.files = inv.files → publishedContentHash H artifact = .ok inv.contentHash)
    (h : publishWorkerBundle H limits inv.contentHash t root = .error fault) :
    ¬ Differs fault := by
  simp only [publishWorkerBundle, hinventory, bind_eq_error, check_eq_error, check_ok,
    mapError_eq_error, mapError_ok, reduceCtorEq, false_or, ok.injEq, exists_eq_left',
    not_true_eq_false, false_and, exists_const, true_and] at h
  obtain ⟨-, rfl⟩ | ⟨-, ⟨native, -, rfl⟩ | ⟨published, hpub, h⟩⟩ := h
  · decide
  · exact not_differs_publicationFailed native
  · obtain ⟨-, rfl⟩ | ⟨⟨-, hfiles⟩, hwrap | ⟨w, -, hreturn⟩⟩ := h
    · decide
    · exact not_differs_wrapPublication (hhash _ _ _ hpub hfiles) hwrap
    · cases hreturn

/-- What was published can be reopened. -/
theorem reopen_of_publishWorkerBundle
    (h : publishWorkerBundle H limits expected t root = .ok (w, root')) :
    reopenWorkerBundle H limits w.addressDigest expected (some w.publicationDigest) root' =
      .ok { w with reused := false } := by
  simp only [publishWorkerBundle, bind_ok, exists_check, mapError_ok] at h
  obtain ⟨-, inv, -, -, ⟨artifact, root''⟩, hpub, -, w', hwrap, hreturn⟩ := h
  cases hreturn
  obtain ⟨p, reop, hlook, -, hart, -, hreopen⟩ := reopen_of_publish hpub
  obtain ⟨hhash, haddr, hpost, hw⟩ := wrapPublication_ok.1 hwrap
  obtain ⟨-, -, -, hreop⟩ := reopenArtifact_ok hreopen
  -- the flag is all that the publication changed in the reopened tree
  obtain ⟨reused, rfl⟩ : ∃ reused, artifact = { reop with reused := reused } := ⟨_, hart⟩
  have hspec : w.addressDigest = H.address expected inv.directories inv.files := by
    rw [hw, hreop]
  have hdig : w.publicationDigest = reop.publicationDigest := by rw [hw]
  simp only [reopenWorkerBundle, bind_ok, get_ok, mapError_ok]
  refine ⟨p, hspec ▸ hlook, reop, by rw [hspec, hdig, hreopen], ?_⟩
  rw [wrapPublication_ok]
  refine ⟨hhash, haddr, hpost, ?_⟩
  rw [hw, hreop]

/-- **The three identities of a bundle agree exactly if no names clash.** -/
theorem identities_agree_iff (hwf : t.WellFormed) (hprivate : t.validatePrivateTree = .ok ())
    (hpublishable : t.Publishable) (hsha : Set.InjOn H.sha256
      (Readable t root ∪ {preimage t.pathFiles, preimage t.textFiles})) :
    (∃ identity, IdentitiesAgree H limits t root identity) ↔ t.NoClash := by
  have hcontent := contentHash_of_validated (H := H) hwf hprivate
  have hsrc := sourceInventory_of_validated (H := H) hwf hprivate hpublishable
  rw [← pathFiles_eq_textFiles_iff hwf]
  constructor
  · rintro ⟨identity, hagree⟩
    obtain ⟨inventory, hinventory, hident, -⟩ := hagree.inventory
    have hpath : identity = H.sha256 (preimage t.pathFiles) :=
      ok.inj (hagree.content.symm.trans hcontent)
    have htext : identity = H.sha256 (preimage t.textFiles) := by
      rw [← hident, ok.inj (hinventory.symm.trans hsrc)]
    exact preimage_inj hwf (hsha (.inr (.inl rfl)) (.inr (.inr rfl)) (hpath.symm.trans htext))
  · intro horders
    rw [horders] at hcontent
    have hpub : ∀ address artifact root',
        publishNativeArtifact H limits address t root = .ok (artifact, root') →
          artifact.files = t.textFiles.map (treeRow H) →
            publishedContentHash H artifact = .ok (H.sha256 (preimage t.textFiles)) :=
      fun address artifact root' => contentHash_of_publish (hsha.mono Set.subset_union_left)
    have hne : ∀ fault, publishWorkerBundle H limits (H.sha256 (preimage t.textFiles)) t root =
        .error fault → ¬ Differs fault :=
      fun fault => not_differs_publish hsrc hpub
    exact ⟨_, hcontent, ⟨_, hsrc, rfl, hpub⟩, fun h => hne _ h (.inl rfl),
      fun h => hne _ h (.inr rfl), fun w root' => reopen_of_publishWorkerBundle⟩

namespace BundleSample

/-- A polynomial in the bytes, as a digest. -/
def polynomial (bytes : Bytes) : Digest :=
  ⟨bytes.foldl (fun n b => n * 257 + b.toNat + 1) 1 % 2 ^ 255 + 1, by
    have hlt := Nat.mod_lt (bytes.foldl (fun n b => n * 257 + b.toNat + 1) 1)
      (show 0 < 2 ^ 255 by norm_num)
    omega⟩

def hashes : ArtifactHashes where
  sha256 := polynomial
  publication digest _ _ := digest
  address digest _ _ := digest
  manifestSize _ _ _ := 0

/-- A module beside the package of the same name. -/
def tree : Tree :=
  ⟨0o700, [(["a.py"], .file 0o600 [97]), (["a"], .dir 0o700), (["a", "b.py"], .file 0o600 [98])]⟩

def treeHash : Digest := polynomial (preimage tree.pathFiles)

theorem tree_accepted : tree.WellFormed ∧ tree.validatePrivateTree = .ok () ∧ tree.Publishable := by
  refine ⟨⟨?_, ?_, ?_, ?_⟩, ?_, ?_⟩ <;> decide

/-- A private bundle is refused as differing from its own committed content hash. -/
theorem publish_refuses_committed_tree :
    (tree.WellFormed ∧ tree.validatePrivateTree = .ok () ∧ tree.Publishable) ∧
      tree.contentHash polynomial = .ok treeHash ∧
      (sourceInventory hashes tree).toOption.map (·.contentHash) ≠ some treeHash ∧
      publishWorkerBundle hashes {} treeHash tree [] = .error sourceDiffers := by
  refine ⟨tree_accepted, ?_, ?_, ?_⟩ <;> decide

def hashed : List Bytes := [[97], [98], preimage tree.pathFiles, preimage tree.textFiles]

theorem hashed_injOn : Set.InjOn hashes.sha256
    (Readable tree [] ∪ {preimage tree.pathFiles, preimage tree.textFiles}) := by
  have hlist : ∀ a ∈ hashed, ∀ b ∈ hashed, hashes.sha256 a = hashes.sha256 b → a = b := by
    decide
  have hmem : ∀ a ∈ Readable tree [] ∪ {preimage tree.pathFiles, preimage tree.textFiles},
      a ∈ hashed := by
    have hfiles : ∀ f ∈ tree.files, f.2 ∈ hashed := by decide
    rintro a ((⟨f, hf, rfl⟩ | ⟨e, he, -⟩) | rfl | rfl)
    · exact hfiles f hf
    · cases he
    · simp [hashed]
    · simp [hashed]
  exact fun a ha b hb => hlist a (hmem a ha) b (hmem b hb)

theorem identities_agree_iff_sample :
    (∃ identity, IdentitiesAgree hashes {} tree [] identity) ↔ tree.NoClash :=
  identities_agree_iff tree_accepted.1 tree_accepted.2.1 tree_accepted.2.2 hashed_injOn

end BundleSample

end Cacheon
