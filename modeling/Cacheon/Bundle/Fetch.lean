import Cacheon.Bundle.Layout
import Cacheon.Bundle.Package

/-!
# From a bundle directory to the validator's cache

A bundle is packaged on one machine and fetched on another: its archive is extracted, the single
directory in it is taken for the bundle, its identity is compared with the committed one, and it is
moved into the cache and checked there.

* `packageBundle` : the archive of a bundle directory.
* `fetchBundle` : the validator's side, with its cache.
* `fetch_package_iff` : for which directories and processes the two fit together.

Transfer, decryption and deadlines are not modelled.
-/

namespace Cacheon

open Fallible RelativePath BundleFault List Keyed Cacheon.Tree

/-! ### Packaging -/

/-- The members of the archive of a bundle.  A file that is a hard link of an earlier one is
archived as a link. -/
def packageMembers (name : String) (inode : RelativePath → ℕ) : Files → List ℕ → List Packaged
  | [], _ => []
  | f :: files, inodes =>
    (if inode f.1 ∈ inodes then ⟨.special, posix (name :: f.1), []⟩
      else ⟨.regular, posix (name :: f.1), f.2⟩) ::
        packageMembers name inode files (inode f.1 :: inodes)

/-- The members of the archive of all its files. -/
abbrev Tree.packaged (t : Tree) (name : String) (inode : RelativePath → ℕ) : List Packaged :=
  packageMembers name inode t.iterFiles []

/-- Package exactly the regular files covered by the identity. -/
def packageBundle (w : TarWriter) (sha256 : Bytes → Digest) (name : String)
    (inode : RelativePath → ℕ) (t : Tree) : BundleM (Bytes × Digest) := do
  let identity ← t.contentHash sha256
  return (w.archive (t.packaged name inode), identity)

/-! ### Fetching -/

/-- The cached bundles by their identities. -/
abbrev BundleCache := List (Digest × Tree)

variable (proc : Process) (fmt : TarFormat) (sha256 : Bytes → Digest)

/-- A bundle that is in the cache. -/
def openCached (expected : Digest) (final : Tree) : BundleM Tree := do
  final.validatePrivateTree
  let actual ← final.contentHash sha256
  check (actual = expected)
    (fetch "cached bundle re-hashes to another identity; remove it manually")
  return final

/-- The bundle in an archive.  Only its root is given the private mode. -/
def extractBundle (expected : Digest) (archive : Bytes) : BundleM Tree := do
  let t ← safeExtract proc fmt archive
  let root ← bundleRoot proc t
  let proposal : Tree := { root.2 with mode := 0o700 }
  let actual ← (proposal.contentHash sha256).mapError fun _ =>
    fetch "extracted archive is not a bundle"
  check (actual = expected) (fetch "content hash mismatch")
  return proposal

/-- Fetch a bundle.  It is moved into the cache before it is checked there. -/
def fetchBundle (expected : Digest) (archive : Bytes) (cache : BundleCache) :
    BundleM Tree × BundleCache :=
  match cache.lookup expected with
  | some final => (openCached sha256 expected final, cache)
  | none =>
    match extractBundle proc fmt sha256 expected archive with
    | .error fault => (.error fault, cache)
    | .ok final => (final.validatePrivateTree.map fun _ => final, (expected, final) :: cache)

/-! ### Bundles within the limits -/

/-- The files of a bundle respect the limits and the path rules of the fetch. -/
structure Fetchable (name : String) (t : Tree) : Prop where
  count : t.iterFiles.length ≤ maxMembers
  paths : ∀ f ∈ t.iterFiles, ∃ p, memberPath (posix (name :: f.1)) = .ok p
  sizes : ∀ f ∈ t.iterFiles, f.2.length ≤ maxFileBytes
  total : (t.iterFiles.map (·.2.length)).sum ≤ maxExtractedBytes
  inspectable : ∀ f ∈ t.iterFiles, inspectableSize f.1 f.2.length ≤ maxInspectableFileBytes
  inspectableTotal : (t.iterFiles.map fun f => inspectableSize f.1 f.2.length).sum ≤
    maxInspectableBytes

/-- The permission bits that the process leaves are private where the check wants them to be. -/
structure Process.Keeps (files : Files) : Prop where
  /-- Files keep the bits for reading and writing. -/
  file : proc.umask.val &&& 0o600 = 0
  /-- The process can use the directories that it makes. -/
  owner : proc.privileged = true ∨ proc.umask.val &&& 0o700 = 0
  /-- A directory is made for a file in it, or nobody else gets any bits. -/
  dir : ∀ f ∈ files, ∀ d ∈ ancestors f.1, proc.umask.val &&& 0o700 = 0 ∧
    (firstDirect files d = true ∨ proc.umask.val &&& 0o077 = 0o077)

/-- The bundle goes through the archive into the cache and is found there again. -/
structure RoundTrips (identity : Digest) (archive : Bytes) (cache : BundleCache)
    (files : Files) (final : Tree) : Prop where
  first : fetchBundle proc fmt sha256 identity archive cache =
    (.ok final, (identity, final) :: cache)
  files : final.files = files
  again : ∀ proc' archive',
    fetchBundle proc' fmt sha256 identity archive' ((identity, final) :: cache) =
      (.ok final, (identity, final) :: cache)

variable {proc fmt sha256}

/-! ### The members of the archive -/

section Members

variable {name : String} {inode : RelativePath → ℕ}

/-- A file below a directory. -/
def fileIn (name : String) (f : RelativePath × Bytes) : RelativePath × Bytes := (name :: f.1, f.2)

variable {files : Files} {inodes : List ℕ}

theorem packageMembers_types : ∀ m ∈ packageMembers name inode files inodes,
      m.type = .regular ∨ m.type = .special ∧ m.data = [] := by
  induction files generalizing inodes with
  | nil => exact forall_mem_nil _
  | cons f files ih =>
    refine forall_mem_cons.2 ⟨?_, ih⟩
    split_ifs
    · exact .inr ⟨rfl, rfl⟩
    · exact .inl rfl

/-- Without hard links all members are files; of two hard links to one file, one is archived as a
link. -/
theorem packageMembers_links :
    ((files.map fun f => inode f.1).Nodup ∧ (∀ f ∈ files, inode f.1 ∉ inodes) →
      (packageMembers name inode files inodes).map (fun m => (m.type, m.logical)) =
        (files.map (fileIn name)).map fileMember) ∧
    (¬ ((files.map fun f => inode f.1).Nodup ∧ ∀ f ∈ files, inode f.1 ∉ inodes) →
      ∃ m ∈ packageMembers name inode files inodes, m.type = .special) := by
  induction files generalizing inodes with
  | nil => exact ⟨fun _ => rfl, fun h => absurd ⟨nodup_nil, by simp⟩ h⟩
  | cons f files ih =>
    rw [packageMembers]
    by_cases hf : inode f.1 ∈ inodes
    · exact ⟨fun h => absurd hf (h.2 f (.head _)), fun _ => ⟨_, .head _, by rw [if_pos hf]⟩⟩
    · have hiff : (((f :: files).map fun f => inode f.1).Nodup ∧
          ∀ g ∈ f :: files, inode g.1 ∉ inodes) ↔ (files.map fun f => inode f.1).Nodup ∧
            ∀ g ∈ files, inode g.1 ∉ inode f.1 :: inodes := by
        grind
      rw [hiff, if_neg hf]
      refine ⟨fun h => by rw [map_cons, ih.1 h]; rfl, fun h => ?_⟩
      obtain ⟨m, hm, htype⟩ := ih.2 h
      exact ⟨m, .tail _ hm, htype⟩

end Members

/-! ### The files of a tree -/

section Files

variable {t : Tree} {f : RelativePath × Bytes}

theorem Tree.WellFormed.shaped (h : t.WellFormed) : t.Shaped := ⟨h.paths, h.distinct, h.parents⟩

/-- Everything above an entry is a directory of the tree. -/
theorem Tree.Shaped.mem_dirs_of_ancestor (h : t.Shaped) {e : RelativePath × Node}
    (he : e ∈ t.entries) {d : RelativePath} (hd : d ∈ ancestors e.1) : d ∈ t.dirs := by
  obtain ⟨path, node⟩ := e
  induction path using List.reverseRecOn generalizing node with
  | nil => exact absurd rfl (h.paths _ he).1
  | append_singleton parent last ih =>
    have hne : parent ++ [last] ≠ [] := append_ne_nil_of_right_ne_nil _ (cons_ne_nil _ _)
    have hpar := h.parents _ he
    rw [dropLast_concat] at hpar
    rw [mem_ancestors_iff hne, dropLast_concat] at hd
    rcases hd with hd | ⟨rfl, hnil⟩
    · have hpar' : parent ≠ [] := by
        rintro rfl
        exact (mem_ancestors.1 hd).1 (prefix_nil.1 (mem_ancestors.1 hd).2.1)
      obtain ⟨mode, hentry⟩ := mem_dirs.1 (hpar.resolve_left hpar')
      exact ih _ hentry hd
    · exact hpar.resolve_left hnil

theorem mem_files_of_iter (h : f ∈ t.iterFiles) : f ∈ t.files ∧ isCovered f.1 = true := by
  rw [iterFiles_eq, mem_filter, mem_sortBy] at h
  exact h

theorem iterFiles_nodup (h : t.WellFormed) : (t.iterFiles.map (·.1)).Nodup := by
  rw [iterFiles_eq]
  refine Nodup.sublist (filter_sublist.map _) ?_
  exact ((sortBy_perm.map _).nodup_iff).2 h.files_nodup

/-- No file of a tree is above another. -/
theorem files_apart (h : t.WellFormed) {g : RelativePath × Bytes} (hf : f ∈ t.files)
    (hg : g ∈ t.files) : f.1 ∉ ancestors g.1 := by
  intro habove
  obtain ⟨mode, hgentry⟩ := mem_files.1 hg
  obtain ⟨mode', hfentry⟩ := mem_files.1 hf
  obtain ⟨mode'', hdir⟩ := mem_dirs.1 (h.shaped.mem_dirs_of_ancestor hgentry habove)
  have heq := inj_on_of_nodup_map h.distinct hfentry hdir rfl
  cases (Prod.mk.inj heq).2

end Files

/-! ### The extracted bundle -/

section Bundle

variable {t : Tree} {name : String} {inode : RelativePath → ℕ} {w : TarWriter} {p d : RelativePath}

theorem mem_ancestors_cons {c : String} (hp : p ≠ []) :
    d ∈ ancestors (c :: p) ↔ d = [c] ∨ ∃ d' ∈ ancestors p, d = c :: d' := by
  rw [mem_ancestors]
  constructor
  · rintro ⟨hne, hbegins, hprop⟩
    rcases prefix_cons_iff.1 hbegins with hnil | ⟨d', rfl, hrest⟩
    · exact absurd hnil hne
    · by_cases hnil : d' = []
      · exact .inl (by rw [hnil])
      · refine .inr ⟨d', mem_ancestors.2 ⟨hnil, hrest, ?_⟩, rfl⟩
        rintro rfl
        exact hprop rfl
  · rintro (rfl | ⟨d', hd', rfl⟩)
    · refine ⟨cons_ne_nil _ _, prefix_cons_iff.2 (.inr ⟨[], rfl, nil_prefix⟩), ?_⟩
      rintro heq
      exact hp (cons.inj heq).2.symm
    · obtain ⟨-, hbegins, hprop⟩ := mem_ancestors.1 hd'
      refine ⟨cons_ne_nil _ _, prefix_cons_iff.2 (.inr ⟨d', rfl, hbegins⟩), fun heq => ?_⟩
      exact hprop (cons.inj heq).2

theorem isPath_cons (hname : IsComponent name) (hp : IsPath p) : IsPath (name :: p) :=
  ⟨cons_ne_nil _ _, forall_mem_cons.2 ⟨hname, hp.2⟩⟩

theorem inspectableSize_cons {size : ℤ} (hp : p ≠ []) :
    inspectableSize (name :: p) size = inspectableSize p size := by
  obtain ⟨d, rest, rfl⟩ := exists_cons_of_ne_nil hp
  rfl

variable {files : Files} {mode bits : ℕ} {e : RelativePath × Node}

theorem length_packageMembers {inodes : List ℕ} :
    (packageMembers name inode files inodes).length = files.length := by
  induction files generalizing inodes with
  | nil => rfl
  | cons f files ih => rw [packageMembers, length_cons, ih, length_cons]

/-- The packaged files can be extracted. -/
theorem extractable_of_fetchable (hwf : t.WellFormed) (hname : IsComponent name)
    (h : Fetchable name t) : Extractable (t.iterFiles.map (fileIn name)) := by
  have hpath : ∀ f ∈ t.iterFiles, IsPath f.1 := fun f hf =>
    hwf.isPath_of_mem_files (mem_files_of_iter hf).1
  have hinsp : (t.iterFiles.map (fileIn name)).map (fun f => inspectableSize f.1 f.2.length) =
        t.iterFiles.map fun f => inspectableSize f.1 f.2.length := by
    rw [map_map]
    exact map_congr_left fun f hf => inspectableSize_cons (hpath f hf).1
  refine ⟨?_, ?_, ?_, ?_, ?_, ?_, ?_, hinsp ▸ h.inspectableTotal⟩
  · intro g hg
    obtain ⟨f, hf, rfl⟩ := mem_map.1 hg
    have hfull := isPath_cons hname (hpath f hf)
    obtain ⟨p, hp⟩ := h.paths f hf
    refine ⟨hfull, ?_⟩
    obtain ⟨rfl, -⟩ := (memberPath_posix hfull).1 hp
    exact hp
  · rw [map_map]
    have hcons : ((t.iterFiles.map (·.1)).map (name :: ·)).Nodup :=
      (iterFiles_nodup hwf).map fun p q heq => (cons.inj heq).2
    rwa [map_map] at hcons
  · intro f' hf' g' hg' habove
    obtain ⟨f, hf, rfl⟩ := mem_map.1 hf'
    obtain ⟨g, hg, rfl⟩ := mem_map.1 hg'
    rcases (mem_ancestors_cons (hpath g hg).1).1 habove with heq | ⟨d, hd, heq⟩
    · exact (hpath f hf).1 (cons.inj heq).2
    · rw [← (cons.inj heq).2] at hd
      exact files_apart hwf (mem_files_of_iter hf).1 (mem_files_of_iter hg).1 hd
  · rw [length_map]
    exact h.count
  · intro g hg
    obtain ⟨f, hf, rfl⟩ := mem_map.1 hg
    exact h.sizes f hf
  · rw [map_map]
    exact h.total
  · intro g hg
    obtain ⟨f, hf, rfl⟩ := mem_map.1 hg
    rw [fileIn, inspectableSize_cons (hpath f hf).1]
    exact h.inspectable f hf

theorem entryBelow_eq_some {e' : RelativePath × Node} :
    entryBelow name e = some e' ↔ e'.1 ≠ [] ∧ e = (name :: e'.1, e'.2) := by
  constructor
  · intro hbelow
    obtain ⟨path, node⟩ := e
    rcases path with _ | ⟨first, _ | ⟨second, rest⟩⟩
    · cases hbelow
    · cases hbelow
    · rw [entryBelow] at hbelow
      split_ifs at hbelow with hfirst
      cases hbelow
      exact ⟨cons_ne_nil _ _, by rw [hfirst]⟩
  · rintro ⟨hne, rfl⟩
    obtain ⟨path, node⟩ := e'
    obtain ⟨second, rest, rfl⟩ := exists_cons_of_ne_nil hne
    rw [entryBelow, if_pos rfl]

theorem mem_below :
    e ∈ (t.below name mode).entries ↔ e.1 ≠ [] ∧ (name :: e.1, e.2) ∈ t.entries := by
  rw [below, mem_filterMap]
  simp only [entryBelow_eq_some]
  constructor
  · rintro ⟨_, hmem, hne, rfl⟩
    exact ⟨hne, hmem⟩
  · rintro ⟨hne, hmem⟩
    exact ⟨_, hmem, hne, rfl⟩

/-- The files below a directory, if all files are there. -/
theorem files_below (h : t.files = files.map (fileIn name)) (hne : ∀ f ∈ files, f.1 ≠ []) :
    (t.below name mode).files = files := by
  -- by induction on the entries: a directory adds no file, and a file is one of the files
  obtain ⟨rootMode, entries⟩ := t
  simp only [Tree.files, Tree.below] at h ⊢
  induction entries generalizing files with
  | nil => exact (map_eq_nil_iff.1 h.symm).symm
  | cons e entries ih =>
    obtain ⟨path, node⟩ := e
    cases node with
    | dir bits =>
      rw [filterMap_cons]
      have hrest := ih hne h
      rcases path with _ | ⟨first, _ | ⟨second, rest⟩⟩
      · exact hrest
      · exact hrest
      · simp only [entryBelow]
        split_ifs
        · rw [filter_cons_of_neg (by simp [Node.isFile])]
          exact hrest
        · exact hrest
    | file bits bytes =>
      rcases files with _ | ⟨f, files⟩
      · cases h
      · rw [map_cons] at h
        obtain ⟨hfirst, hrest⟩ := cons.inj h
        obtain ⟨hpath, hbytes⟩ := Prod.mk.inj hfirst
        change path = name :: f.1 at hpath
        change bytes = f.2 at hbytes
        have hf := hne f (.head _)
        obtain ⟨second, rest, hsecond⟩ := exists_cons_of_ne_nil hf
        rw [filterMap_cons, hpath, hsecond, entryBelow, if_pos rfl,
          filter_cons_of_pos (by simp [Node.isFile]), map_cons,
          ih (fun g hg => hne g (.tail _ hg)) hrest, ← hsecond, hbytes]
        rfl

theorem requestedMode_fileIn (hne : ∀ f ∈ files, f.1 ≠ []) (hd : d ≠ []) :
    requestedMode (files.map (fileIn name)) (name :: d) = requestedMode files d := by
  have hfirst : firstDirect (files.map (fileIn name)) (name :: d) = firstDirect files d := by
    induction files with
    | nil => rfl
    | cons f files ih =>
      have hf := hne f (.head _)
      have hiff : name :: d ∈ ancestors (fileIn name f).1 ↔ d ∈ ancestors f.1 := by
        rw [fileIn, mem_ancestors_cons hf]
        constructor
        · rintro (heq | ⟨d', hd', heq⟩)
          · exact absurd (cons.inj heq).2 hd
          · rwa [(cons.inj heq).2]
        · exact fun h => .inr ⟨d, h, rfl⟩
      have hdrop : (fileIn name f).1.dropLast = name :: f.1.dropLast := dropLast_cons_of_ne_nil hf
      rw [firstDirect, firstDirect] at ih ⊢
      rw [map_cons]
      by_cases hmem : d ∈ ancestors f.1
      · rw [find?_cons_of_pos (by simpa using hiff.2 hmem),
          find?_cons_of_pos (by simpa using hmem), Option.any_some, Option.any_some, hdrop]
        simp
      · rw [find?_cons_of_neg (by simpa using fun h => hmem (hiff.1 h)),
          find?_cons_of_neg (by simpa using hmem)]
        exact ih fun g hg => hne g (.tail _ hg)
  rw [requestedMode, requestedMode, hfirst]

/-- A list whose items have one key and distinct keys is one item. -/
theorem eq_singleton_of_key {α β : Type} {l : List (α × β)} {k : α} (hkey : ∀ e ∈ l, e.1 = k)
    (hnodup : (l.map (·.1)).Nodup) (hne : l ≠ []) : ∃ b, l = [(k, b)] := by
  obtain ⟨⟨a, b⟩, rest, rfl⟩ := exists_cons_of_ne_nil hne
  obtain rfl : a = k := hkey _ (.head _)
  rcases rest with _ | ⟨⟨a', b'⟩, rest⟩
  · exact ⟨b, rfl⟩
  · obtain rfl : a' = a := hkey _ (.tail _ (.head _))
    rw [map_cons, nodup_cons] at hnodup
    exact absurd (.head _) hnodup.1

/-- The directory with the bundle's name is all that stands in the destination. -/
theorem top_of_laid (hlaid : Laid proc bits (files.map (fileIn name)) t) (hfiles : files ≠ [])
    (hne : ∀ f ∈ files, f.1 ≠ []) : ∃ mode, t.top = [([name], .dir mode)] := by
  have hdir : [name] ∈ t.dirs := by
    obtain ⟨f, rest, rfl⟩ := exists_cons_of_ne_nil hfiles
    refine (hlaid.dirs _).2 ⟨fileIn name f, .head _, ?_⟩
    exact (mem_ancestors_cons (hne f (.head _))).2 (.inl rfl)
  have hkey : ∀ e ∈ t.top, e.1 = [name] := by
    rintro ⟨path, node⟩ he
    obtain ⟨hmem, hlen⟩ := mem_filter.1 he
    have hlen := of_decide_eq_true hlen
    cases node with
    | dir bits =>
      obtain ⟨g, hg, habove⟩ := (hlaid.dirs path).1 (mem_dirs.2 ⟨bits, hmem⟩)
      obtain ⟨f, hf, rfl⟩ := mem_map.1 hg
      rcases (mem_ancestors_cons (hne f hf)).1 habove with heq | ⟨d', hd', heq⟩
      · exact heq
      · have hd := length_pos_iff.2 (mem_ancestors.1 hd').1
        rw [heq, length_cons] at hlen
        omega
    | file bits bytes =>
      have hfile : (path, bytes) ∈ t.files := mem_files.2 ⟨bits, hmem⟩
      rw [hlaid.files] at hfile
      obtain ⟨f, hf, heq⟩ := mem_map.1 hfile
      have hpos := length_pos_iff.2 (hne f hf)
      rw [← (Prod.mk.inj heq).1, length_cons] at hlen
      omega
  obtain ⟨bits, hentry⟩ := mem_dirs.1 hdir
  have htop : ([name], Node.dir bits) ∈ t.top := mem_filter.2 ⟨hentry, rfl⟩
  have hnodup : (t.top.map (·.1)).Nodup := hlaid.shaped.distinct.sublist (filter_sublist.map _)
  obtain ⟨node, hsingle⟩ := eq_singleton_of_key hkey hnodup (ne_nil_of_mem htop)
  rw [hsingle, mem_singleton] at htop
  exact ⟨bits, by rw [hsingle, htop]⟩

variable {written : Files} {identity : Digest}

/-- The bundle in an extracted tree. -/
theorem laid_below (hlaid : Laid proc bits (written.map (fileIn name)) t)
    (hne : ∀ f ∈ written, f.1 ≠ []) :
    Laid proc 0o700 written { t.below name mode with mode := 0o700 } := by
  have hdirs : ∀ d, d ∈ (t.below name mode).dirs ↔ d ≠ [] ∧ name :: d ∈ t.dirs := by
    intro d
    rw [mem_dirs, mem_dirs]
    simp only [mem_below, exists_and_left]
  refine ⟨rfl, ⟨?_, ?_, ?_⟩, files_below hlaid.files hne, ?_, ?_, ?_⟩
  · intro e he
    obtain ⟨hnil, hmem⟩ := mem_below.1 he
    exact ⟨hnil, fun c hc => (hlaid.shaped.paths _ hmem).2 c (.tail _ hc)⟩
  · have hdist := hlaid.shaped.distinct
    rw [List.Nodup, pairwise_map] at hdist ⊢
    refine Pairwise.filterMap _ (fun a a' hne b hb b' hb' heq => hne ?_) hdist
    rw [(entryBelow_eq_some.1 hb).2, (entryBelow_eq_some.1 hb').2, heq]
  · intro e he
    obtain ⟨hnil, hmem⟩ := mem_below.1 he
    have hpar := hlaid.shaped.parents _ hmem
    rw [dropLast_cons_of_ne_nil hnil] at hpar
    by_cases hlast : e.1.dropLast = []
    · exact .inl hlast
    · exact .inr ((hdirs _).2 ⟨hlast, hpar.resolve_left (cons_ne_nil _ _)⟩)
  · intro d
    refine (hdirs d).trans ⟨?_, ?_⟩
    · rintro ⟨hnil, hd⟩
      obtain ⟨g, hg, habove⟩ := (hlaid.dirs _).1 hd
      obtain ⟨f, hf, rfl⟩ := mem_map.1 hg
      rcases (mem_ancestors_cons (hne f hf)).1 habove with heq | ⟨d', hd', heq⟩
      · exact absurd (cons.inj heq).2 hnil
      · exact ⟨f, hf, (cons.inj heq).2 ▸ hd'⟩
    · rintro ⟨f, hf, habove⟩
      refine ⟨(mem_ancestors.1 habove).1, (hlaid.dirs _).2 ⟨_, mem_map_of_mem hf, ?_⟩⟩
      exact (mem_ancestors_cons (hne f hf)).2 (.inr ⟨d, habove, rfl⟩)
  · intro d mode' he
    obtain ⟨hnil, hmem⟩ := mem_below.1 he
    rw [hlaid.dirModes _ _ hmem, requestedMode_fileIn hne hnil]
  · intro p mode' bytes he
    exact hlaid.fileModes _ _ _ (mem_below.1 he).2

/-- The text of a directory begins the text of what is below it. -/
theorem chars_of_ancestor (h : d ∈ ancestors p) : d.chars <+: p.chars := by
  obtain ⟨hne, ⟨rest, rfl⟩, hprop⟩ := mem_ancestors.1 h
  have hrest : rest ≠ [] := fun hnil => hprop (by rw [hnil, append_nil])
  clear h hprop
  induction d with
  | nil => exact absurd rfl hne
  | cons c d ih =>
    by_cases hd : d = []
    · subst hd
      rw [singleton_append, chars_cons hrest]
      exact prefix_append _ _
    · rw [cons_append, chars_cons hd, chars_cons (append_ne_nil_of_left_ne_nil hd _)]
      exact (prefix_append_right_inj _).2 ((prefix_cons_inj _).2 (ih hd))

/-- What the check of the cache asks of the bits and of the names of directories. -/
theorem validate_bundle (hb : Laid proc 0o700 written t) (hwf : t.WellFormed) (hne : written ≠ [])
    (hpaths : ∀ f ∈ written, f.1.chars.any isUnsafe = false ∧ isCovered f.1 = true) :
    t.validatePrivateTree = .ok () ↔ proc.created 0o600 = 0o600 ∧
      ∀ f ∈ written, ∀ d ∈ ancestors f.1,
        isCovered d = true ∧ proc.created (requestedMode written d) = 0o700 := by
  rw [privateTree_ok hwf]
  have hmemDirs : ∀ {f d}, f ∈ written → d ∈ ancestors f.1 →
      (d, Node.dir (proc.created (requestedMode written d))) ∈ t.entries := by
    intro f d hf hd
    obtain ⟨mode, hmem⟩ := mem_dirs.1 ((hb.dirs d).2 ⟨f, hf, hd⟩)
    rwa [← hb.dirModes d mode hmem]
  constructor
  · rintro ⟨-, hents, -⟩
    constructor
    · obtain ⟨f, rest, hcons⟩ := exists_cons_of_ne_nil hne
      have hf : f ∈ t.files := by rw [hb.files, hcons]; exact .head _
      obtain ⟨mode, hmem⟩ := mem_files.1 hf
      rw [← hb.fileModes _ _ _ hmem]
      exact (hents _ hmem).2
    · intro f hf d hd
      obtain ⟨⟨-, hcov⟩, hmode⟩ := hents _ (hmemDirs hf hd)
      exact ⟨hcov, hmode⟩
  · rintro ⟨hfile, hdir⟩
    refine ⟨hb.root, ?_, by rwa [hb.files], ?_, ?_⟩
    · rintro ⟨p, node⟩ hmem
      cases node with
      | file mode bytes =>
        have hf : (p, bytes) ∈ written := hb.files ▸ mem_files.2 ⟨mode, hmem⟩
        refine ⟨hpaths _ hf, ?_⟩
        rw [hb.fileModes _ _ _ hmem, hfile]
        rfl
      | dir mode =>
        obtain ⟨f, hf, hd⟩ := (hb.dirs p).1 (mem_dirs.2 ⟨mode, hmem⟩)
        obtain ⟨hcov, hmode⟩ := hdir f hf p hd
        refine ⟨⟨?_, hcov⟩, ?_⟩
        · obtain ⟨u, hu⟩ := chars_of_ancestor hd
          have hsafe := (hpaths f hf).1
          rw [← hu, any_append, Bool.or_eq_false_iff] at hsafe
          exact hsafe.1
        · rw [hb.dirModes _ _ hmem, hmode]
          rfl
    · intro d hd
      rw [requiredDirectories, hb.files, mem_flatMap]
      exact (hb.dirs d).1 hd
    · intro d hd
      rw [requiredDirectories, hb.files, mem_flatMap] at hd
      exact (hb.dirs d).2 hd

theorem contentHash_ok : t.contentHash sha256 = .ok identity ↔
    t.iterFiles ≠ [] ∧ sha256 (preimage t.iterFiles) = identity := by
  simp only [contentHash, bind_ok, exists_check]
  exact and_congr_right fun _ => ⟨fun h => by cases h; rfl, fun h => by rw [h]; rfl⟩

theorem iterFiles_sorted : t.iterFiles.Pairwise fun f g => f.1 ≤ g.1 := by
  rw [iterFiles_eq]
  have hsort : (sortBy Prod.fst t.files).Pairwise fun f g => f.1 ≤ g.1 := sortBy_sorted
  exact hsort.sublist filter_sublist

variable {final : Tree} {expected : Digest} {cache : BundleCache} {archive : Bytes}

/-- A bundle with the covered files of a directory has its identity. -/
theorem iterFiles_of_laid (hb : Laid proc 0o700 t.iterFiles final) :
    final.iterFiles = t.iterFiles := by
  have hcov : ∀ f ∈ final.files, isCovered f.1 = true := by
    intro f hf
    rw [hb.files] at hf
    exact (mem_files_of_iter hf).2
  rw [iterFiles_of_covered hcov, hb.files]
  exact sortBy_eq_self iterFiles_sorted

/-! ### Permission bits -/

theorem eq_iff_testBit {a b : ℕ} : a = b ↔ ∀ i, a.testBit i = b.testBit i :=
  ⟨fun h _ => h ▸ rfl, Nat.eq_of_testBit_eq⟩

section Bits

variable {part kept lost : ℕ}

/-- A file gets some of the bits asked for exactly if the mask spares these and takes the rest. -/
theorem created_eq (hbits : kept ||| lost = bits) (hdisj : kept &&& lost = 0)
    (hmask : bits &&& 0o777 = bits) :
    proc.created bits = kept ↔ proc.umask.val &&& kept = 0 ∧ proc.umask.val &&& lost = lost := by
  subst hbits
  simp only [Process.created, eq_iff_testBit, Nat.testBit_and, Nat.testBit_xor, Nat.testBit_or,
    Nat.zero_testBit, ← forall_and] at *
  refine forall_congr' fun i => ?_
  grind

/-- The owner keeps some of the bits asked for exactly if the mask spares them. -/
theorem created_and (hbits : part &&& bits = part) (hmask : part &&& 0o777 = part) :
    proc.created bits &&& part = part ↔ proc.umask.val &&& part = 0 := by
  simp only [Process.created, eq_iff_testBit, Nat.testBit_and, Nat.testBit_xor,
    Nat.zero_testBit] at *
  refine forall_congr' fun i => ?_
  grind

theorem created_all (hmask : bits &&& 0o777 = bits) :
    proc.created bits = bits ↔ proc.umask.val &&& bits = 0 := by
  rw [created_eq (Nat.or_zero _) (Nat.and_zero _) hmask, Nat.and_zero, and_iff_left rfl]

end Bits

theorem created_shared : proc.created 0o777 = 0o700 ↔
    proc.umask.val &&& 0o700 = 0 ∧ proc.umask.val &&& 0o077 = 0o077 :=
  created_eq rfl rfl rfl

theorem created_requested :
    proc.created (requestedMode files d) = 0o700 ↔ proc.umask.val &&& 0o700 = 0 ∧
      (firstDirect files d = true ∨ proc.umask.val &&& 0o077 = 0o077) := by
  rw [requestedMode]
  split_ifs with hfirst
  · rw [created_all rfl]
    simp [hfirst]
  · rw [created_shared]
    simp [hfirst]

theorem and_owner {n : ℕ} : n &&& 0o700 = 0 ↔ n &&& 0o300 = 0 ∧ n &&& 0o500 = 0 := by
  rw [show 0o700 = 0o300 ||| 0o500 from rfl, Nat.and_or_distrib_left, Nat.or_eq_zero_iff]

/-- The process can use its directories exactly if it is privileged or keeps the owner's bits. -/
theorem permits_iff : proc.permits (proc.created 0o700) 0o300 ∧
    proc.permits (proc.created 0o700) 0o500 ↔
      proc.privileged = true ∨ proc.umask.val &&& 0o700 = 0 := by
  rw [Process.permits, Process.permits, created_and rfl rfl, created_and rfl rfl, ← or_and_left,
    and_owner]

theorem works_of_owner (h : proc.privileged = true ∨ proc.umask.val &&& 0o700 = 0) :
    proc.Works :=
  ⟨(permits_iff.2 h).1, h.imp_right fun h => (created_and rfl rfl).2 (and_owner.1 h).1⟩

/-! ### The round trip -/

/-- The bundle in the archive of a directory without hard links. -/
theorem extractBundle_package (hwf : t.WellFormed) (hname : IsComponent name)
    (hfetch : Fetchable name t) (hbounds : w.WithinBounds (t.packaged name inode))
    (hfaithful : w.Faithful fmt (t.packaged name inode))
    (hident : t.contentHash sha256 = .ok identity)
    (hlinks : (t.iterFiles.map fun f => inode f.1).Nodup)
    (howner : proc.privileged = true ∨ proc.umask.val &&& 0o700 = 0) :
    ∃ final, extractBundle proc fmt sha256 identity
        (w.archive (t.packaged name inode)) = .ok final ∧
      Laid proc 0o700 t.iterFiles final ∧ final.WellFormed := by
  obtain ⟨hne, hdig⟩ := contentHash_ok.1 hident
  have hpath : ∀ f ∈ t.iterFiles, f.1 ≠ [] := fun f hf =>
    (hwf.isPath_of_mem_files (mem_files_of_iter hf).1).1
  obtain ⟨extracted, hextract, hlaid⟩ := extractMembers_files
    (extractable_of_fetchable hwf hname hfetch) (by simpa using hne) (works_of_owner howner)
  obtain ⟨mode, htop⟩ := top_of_laid hlaid hne hpath
  have hsafe : safeExtract proc fmt (w.archive (t.packaged name inode)) = .ok extracted := by
    rw [safeExtract_archive hfaithful hbounds (length_packageMembers.trans_le hfetch.count)
      packageMembers_types, packageMembers_links.1 ⟨hlinks, fun f _ => not_mem_nil⟩, hextract]
  have hroot : bundleRoot proc extracted = .ok ([name], extracted.below name mode) := by
    simp only [bundleRoot, bind_ok, exists_check, htop]
    exact ⟨hlaid.root ▸ (permits_iff.2 howner).2, rfl⟩
  have hb : Laid proc 0o700 t.iterFiles { extracted.below name mode with mode := 0o700 } :=
    laid_below hlaid hpath
  have hsame := iterFiles_of_laid hb
  refine ⟨_, ?_, hb, ⟨hb.shaped.paths, hb.shaped.distinct, hb.shaped.parents, ?_⟩⟩
  · simp only [extractBundle, bind_ok, exists_check, mapError_ok]
    refine ⟨extracted, hsafe, _, hroot, identity, contentHash_ok.2 ⟨?_, ?_⟩, rfl, rfl⟩
    · rwa [hsame]
    · rwa [hsame]
  · intro f hf
    rw [hb.files] at hf
    exact hwf.sizes f (mem_files_of_iter hf).1

/-- What a fetch that succeeds says about the archive and the process. -/
theorem needs_of_extractBundle (hfetch : Fetchable name t)
    (hfaithful : w.Faithful fmt (t.packaged name inode)) (hne : t.iterFiles ≠ [])
    (h : extractBundle proc fmt sha256 identity (w.archive (t.packaged name inode)) = .ok final) :
    w.WithinBounds (t.packaged name inode) ∧ (t.iterFiles.map fun f => inode f.1).Nodup ∧
      (proc.privileged = true ∨ proc.umask.val &&& 0o700 = 0) := by
  simp only [extractBundle, bind_ok, exists_check, mapError_ok] at h
  obtain ⟨extracted, hsafe, root, hroot, -⟩ := h
  have hcount : (t.packaged name inode).length ≤ maxMembers :=
    length_packageMembers.trans_le hfetch.count
  have hbounds := withinBounds_of_safeExtract hfaithful hcount packageMembers_types hsafe
  rw [safeExtract_archive hfaithful hbounds hcount packageMembers_types] at hsafe
  have hcont := contained_of_extract hsafe
  have hlinks : (t.iterFiles.map fun f => inode f.1).Nodup := by
    by_contra hnot
    obtain ⟨m, hm, htype⟩ : ∃ m ∈ t.packaged name inode, m.type = .special :=
      packageMembers_links.2 fun h => hnot h.1
    have hkind := hcont.kinds _ (mem_map_of_mem hm)
    rw [htype] at hkind
    rcases hkind with hkind | hkind <;> cases hkind
  refine ⟨hbounds, hlinks, ?_⟩
  have hents : extracted.entries ≠ [] := by
    intro hnil
    have hfiles := hcont.files
    rw [packageMembers_links.1 ⟨hlinks, fun f _ => not_mem_nil⟩, files, hnil] at hfiles
    obtain ⟨f, rest, hcons⟩ := exists_cons_of_ne_nil hne
    rw [hcons] at hfiles
    cases hfiles
  obtain ⟨hmode, hused⟩ := rootUsed_extractMembers hsafe
  simp only [bundleRoot, bind_ok, exists_check] at hroot
  rw [← permits_iff, ← hmode]
  exact ⟨hused hents, hroot.1⟩

theorem fetchBundle_of_fresh (hfresh : cache.lookup expected = none)
    (h : extractBundle proc fmt sha256 expected archive = .ok final) :
    fetchBundle proc fmt sha256 expected archive cache =
      (final.validatePrivateTree.map fun _ => final, (expected, final) :: cache) := by
  simp only [fetchBundle, hfresh, h]

theorem fetchBundle_of_cached :
    fetchBundle proc fmt sha256 expected archive ((expected, final) :: cache) =
      (openCached sha256 expected final, (expected, final) :: cache) := by
  simp only [fetchBundle, lookup_cons_self]

/-- **A packaged bundle comes back from the cache exactly if its archive is within the bounds on the
stream, it has no hard links, the check of the cache accepts the names of its directories, and the
process keeps their bits private.** -/
theorem fetch_package_iff {identity : Digest} {archive : Bytes} {cache : BundleCache}
    (hwf : t.WellFormed) (hname : IsComponent name) (hfetch : Fetchable name t)
    (hfaithful : w.Faithful fmt (t.packaged name inode))
    (hpackage : packageBundle w sha256 name inode t = .ok (archive, identity))
    (hfresh : cache.lookup identity = none) :
    (∃ final, RoundTrips proc fmt sha256 identity archive cache t.iterFiles final) ↔
      w.WithinBounds (t.packaged name inode) ∧
      (t.iterFiles.map fun f => inode f.1).Nodup ∧
      (∀ f ∈ t.iterFiles, ∀ d ∈ ancestors f.1, isCovered d = true) ∧ proc.Keeps t.iterFiles := by
  simp only [packageBundle, bind_ok] at hpackage
  obtain ⟨_, hident, hreturn⟩ := hpackage
  cases hreturn
  obtain ⟨hne, hdig⟩ := contentHash_ok.1 hident
  -- the names of the packaged files have passed the path rules
  have hpaths : ∀ f ∈ t.iterFiles, f.1.chars.any isUnsafe = false ∧ isCovered f.1 = true := by
    intro f hf
    have hpath := hwf.isPath_of_mem_files (mem_files_of_iter hf).1
    obtain ⟨p, hp⟩ := hfetch.paths f hf
    obtain ⟨-, hsafe, -⟩ := (memberPath_posix (isPath_cons hname hpath)).1 hp
    rw [chars_cons hpath.1, any_append, any_cons, Bool.or_eq_false_iff,
      Bool.or_eq_false_iff] at hsafe
    exact ⟨hsafe.2.2, (mem_files_of_iter hf).2⟩
  constructor
  · rintro ⟨final, hround⟩
    have hfirst := hround.first
    rw [fetchBundle, hfresh] at hfirst
    cases hextract : extractBundle proc fmt sha256 identity (w.archive (t.packaged name inode)) with
    | error fault =>
      rw [hextract] at hfirst
      cases (Prod.mk.inj hfirst).1
    | ok extracted =>
      obtain ⟨hbounds, hlinks, howner⟩ := needs_of_extractBundle hfetch hfaithful hne hextract
      obtain ⟨final', hok, hb, hwf'⟩ := extractBundle_package hwf hname hfetch hbounds hfaithful
        hident hlinks howner
      obtain rfl := Except.ok.inj (hextract.symm.trans hok)
      rw [hextract] at hfirst
      have hvalid : extracted.validatePrivateTree = .ok () := by
        have hfirst := (Prod.mk.inj hfirst).1
        cases hvalidate : extracted.validatePrivateTree with
        | error fault => rw [hvalidate] at hfirst; cases hfirst
        | ok u => rfl
      obtain ⟨hfile, hdir⟩ := (validate_bundle hb hwf' hne hpaths).1 hvalid
      exact ⟨hbounds, hlinks, fun f hf d hd => (hdir f hf d hd).1, (created_all rfl).1 hfile,
        howner, fun f hf d hd => created_requested.1 (hdir f hf d hd).2⟩
  · rintro ⟨hbounds, hlinks, hcov, hkeeps⟩
    obtain ⟨final, hextract, hb, hwf'⟩ := extractBundle_package hwf hname hfetch hbounds hfaithful
      hident hlinks hkeeps.owner
    have hvalid : final.validatePrivateTree = .ok () :=
      (validate_bundle hb hwf' hne hpaths).2 ⟨(created_all rfl).2 hkeeps.file, fun f hf d hd =>
        ⟨hcov f hf d hd, created_requested.2 (hkeeps.dir f hf d hd)⟩⟩
    have hhash : final.contentHash sha256 = .ok identity := by
      rw [contentHash_ok, iterFiles_of_laid hb]
      exact ⟨hne, hdig⟩
    refine ⟨final, ?_, hb.files, fun proc' archive' => ?_⟩
    · rw [fetchBundle_of_fresh hfresh hextract, hvalid]
      rfl
    · have hcached : openCached sha256 identity final = .ok final := by
        simp only [openCached, bind_ok, exists_check]
        exact ⟨(), hvalid, identity, hhash, rfl, rfl⟩
      rw [fetchBundle_of_cached, hcached]

end Bundle

namespace FetchSample

/-- A writer for the sample reader, with an extended header before each member. -/
def writer : TarWriter where
  gzip bytes := [0x1f, 0x8b] ++ bytes
  payload _ := some [54, 32, 97, 61, 98, 10]
  header h name := TarSample.header name (if h.type = .pax then 'x' else '0') h.size.toNat

/-- A digest in which every byte counts. -/
def digest (bytes : Bytes) : Digest := .ofNat (bytes.foldl (fun n b => 257 * n + b.toNat + 1) 0)

/-- A process with the usual mask. -/
def process : Process := ExtractSample.process

/-- A module two directories down. -/
def deep : Tree :=
  ⟨0o755, [(["a"], .dir 0o755), (["a", "b"], .dir 0o755),
    (["a", "b", "k.py"], .file 0o644 [97, 10])]⟩

/-- Modules directly in the bundle and in a directory of it. -/
def flat : Tree :=
  ⟨0o755, [(["a"], .dir 0o755), (["a", "k.py"], .file 0o644 [97, 10]),
    (["b.py"], .file 0o644 [98])]⟩

abbrev members (t : Tree) : List Packaged := t.packaged "p" List.length

def identity (t : Tree) : Digest := digest (preimage t.iterFiles)

theorem package_eq {t : Tree} (h : t.iterFiles ≠ []) :
    packageBundle writer digest "p" List.length t = .ok
      (writer.archive (members t), identity t) := by
  rw [packageBundle, contentHash_ok.2 ⟨h, rfl⟩]
  rfl

section Both

/-- The headers of both are read back, and their streams are short. -/
theorem headers_read : ∀ t ∈ [deep, flat], (∀ m ∈ members t, m.type = .regular ∧
      TarWriter.Reads TarSample.format (TarSample.header m.name '0' m.data.length)
        ⟨.regular, m.data.length, false⟩ ∧
      TarWriter.Reads TarSample.format (TarSample.header m.name 'x' 6) ⟨.pax, 6, false⟩ ∧
      TarSample.nameOf (TarSample.header m.name '0' m.data.length) = m.name) ∧
    (members t).length * 6 ≤ maxExtensionBytes ∧
    (writer.blocks (members t)).length * tarBlockBytes ≤ tarStreamLimit := by
  decide +kernel

variable {t : Tree} (ht : t ∈ [deep, flat])
include ht

theorem faithful : writer.Faithful TarSample.format (members t) := by
  refine ⟨rfl, rfl, ?_⟩
  rintro ⟨type, name, data⟩ hm
  obtain ⟨rfl, hreads, hpax, hname⟩ := (headers_read t ht).1 _ hm
  refine ⟨hreads, ?_, fun rest => ?_⟩
  · rintro records ⟨⟩
    exact ⟨hpax, rfl⟩
  · have hsize : TarSample.sizeOf (TarSample.header name '0' data.length) = data.length :=
      Int.ofNat_inj.1 (TarHeader.mk.inj (Option.some.inj hreads.frombuf)).2.1
    have hdata : (tarBlocks (padded data) ++ rest).flatten.take data.length = data := by
      rw [flatten_append, (TarWriter.blocks_padded data).2.2, padded, append_assoc]
      exact take_left
    change LogicalMember.mk (TarSample.nameOf (TarSample.header name '0' data.length))
      (TarSample.sizeOf (TarSample.header name '0' data.length)) (List.take
        (TarSample.sizeOf (TarSample.header name '0' data.length)) _) = ⟨name, data.length, data⟩
    rw [hname, hsize, hdata]

theorem withinBounds : writer.WithinBounds (members t) := by
  obtain ⟨-, hsum, hstream⟩ := headers_read t ht
  refine ⟨?_, ?_, hstream⟩
  · rintro m hm records ⟨⟩
    decide
  · simpa [writer] using hsum

theorem fetchable : t.WellFormed ∧ Fetchable "p" t := by
  have ht : t = deep ∨ t = flat := by simpa using ht
  have hpaths : ∀ f ∈ t.iterFiles, memberPath (posix ("p" :: f.1)) = .ok ("p" :: f.1) := by
    rcases ht with rfl | rfl <;> decide
  refine ⟨⟨?_, ?_, ?_, ?_⟩, ?_, fun f hf => ⟨_, hpaths f hf⟩, ?_, ?_, ?_, ?_⟩ <;>
    rcases ht with rfl | rfl <;> decide

end Both

/-- What is left in the cache: the outer directory can be read by all. -/
def left : Tree :=
  ⟨0o700, [(["a"], .dir 0o755), (["a", "b"], .dir 0o700),
    (["a", "b", "k.py"], .file 0o600 [97, 10])]⟩

theorem extract_deep : extractBundle process TarSample.format digest (identity deep)
    (writer.archive (members deep)) = .ok left := by
  rw [extractBundle, safeExtract_archive (faithful (.head _)) (withinBounds (.head _)) (by decide)
    packageMembers_types]
  decide +kernel

/-- With the usual mask the archive of a bundle is refused, and so is every later fetch of it. -/
theorem fetch_refuses_packaged_bundle : (deep.WellFormed ∧ Fetchable "p" deep) ∧
      packageBundle writer digest "p" List.length deep =
        .ok (writer.archive (members deep), identity deep) ∧
      fetchBundle process TarSample.format digest (identity deep)
          (writer.archive (members deep)) [] =
        (.error (fetch "cached bundle contains an unsafe directory"), [(identity deep, left)]) ∧
      ∀ archive', fetchBundle process TarSample.format digest (identity deep) archive'
          [(identity deep, left)] =
        (.error (fetch "cached bundle contains an unsafe directory"), [(identity deep, left)]) := by
  have hvalid : left.validatePrivateTree =
      .error (fetch "cached bundle contains an unsafe directory") := by
    decide
  refine ⟨fetchable (.head _), package_eq (by decide), ?_, fun archive' => ?_⟩
  · rw [fetchBundle_of_fresh lookup_nil extract_deep, hvalid]
    rfl
  · rw [fetchBundle_of_cached, openCached, hvalid]
    rfl

theorem fetch_package_iff_sample : ∃ final, RoundTrips process TarSample.format digest
    (identity flat) (writer.archive (members flat)) [] flat.iterFiles final :=
  have hflat : flat ∈ [deep, flat] := .tail _ (.head _)
  (fetch_package_iff (fetchable hflat).1 (by decide) (fetchable hflat).2 (faithful hflat)
    (package_eq (by decide)) rfl).2
      ⟨withinBounds hflat, by decide, by decide, by decide, by decide, by decide⟩

end FetchSample

end Cacheon
