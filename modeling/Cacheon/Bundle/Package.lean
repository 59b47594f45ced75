import Cacheon.Bundle.Extract

/-!
# Packaging of bundles

`packageBundle` writes the covered files of a bundle into an archive, in the order of their paths
and below one directory with the name of the bundle.

* `TarWriter` : how the standard library writes an archive: records with padding, and end markers.
* `TarWriter.Faithful` : it reads back what it wrote.
* `preflight_archive` : the preflight accepts exactly the archives within its bounds.
* `safeExtract_archive` : the extraction of such an archive is that of the packaged members.
-/

namespace Cacheon

open Fallible BundleFault List Option

variable {bytes : Bytes}

/-! ### Padding -/

theorem blocksFrom_succ {n : ℕ} (h : bytes ≠ []) : blocksFrom (n + 1) bytes =
    bytes.take tarBlockBytes :: blocksFrom n (bytes.drop tarBlockBytes) := by
  obtain ⟨byte, rest, rfl⟩ := exists_cons_of_ne_nil h
  rfl

theorem blocksFrom_flatten {blocks : List Bytes} (h : ∀ b ∈ blocks, b.length = tarBlockBytes)
    {n : ℕ} (hn : blocks.length ≤ n) : blocksFrom n blocks.flatten = blocks := by
  induction blocks generalizing n with
  | nil => cases n <;> rfl
  | cons block blocks ih =>
    cases n with
    | zero => cases hn
    | succ n =>
      have hblk := h block (.head _)
      have hne : (block :: blocks).flatten ≠ [] := by
        refine append_ne_nil_of_left_ne_nil ?_ _
        rintro rfl
        cases hblk
      rw [blocksFrom_succ hne, flatten_cons, take_left' hblk, drop_left' hblk,
        ih (fun b hb => h b (.tail _ hb)) (Nat.le_of_succ_le_succ hn)]

theorem length_flatten_blocks {blocks : List Bytes} (h : ∀ b ∈ blocks, b.length = tarBlockBytes) :
    blocks.flatten.length = blocks.length * tarBlockBytes := by
  induction blocks with
  | nil => rfl
  | cons block blocks ih =>
    rw [flatten_cons, length_append, h block (.head _), ih fun b hb => h b (.tail _ hb),
      length_cons, Nat.succ_mul, Nat.add_comm]

/-- The blocks of a stream are the blocks that it was written from. -/
theorem tarBlocks_flatten {blocks : List Bytes} (h : ∀ b ∈ blocks, b.length = tarBlockBytes) :
    tarBlocks blocks.flatten = blocks := by
  refine blocksFrom_flatten h ?_
  rw [length_flatten_blocks h]
  exact Nat.le_mul_of_pos_right _ (by decide)

/-- The blocks of padded contents. -/
theorem tarBlocks_of_length {k : ℕ} (h : bytes.length = k * tarBlockBytes) :
    (tarBlocks bytes).length = k ∧ (∀ b ∈ tarBlocks bytes, b.length = tarBlockBytes) ∧
      (tarBlocks bytes).flatten = bytes := by
  have hsplit : ∃ blocks : List Bytes, blocks.length = k ∧
      (∀ b ∈ blocks, b.length = tarBlockBytes) ∧ blocks.flatten = bytes := by
    induction k generalizing bytes with
    | zero =>
      rw [length_eq_zero_iff.1 h]
      exact ⟨[], rfl, forall_mem_nil _, rfl⟩
    | succ k ih =>
      obtain ⟨blocks, hlen, hblks, hflatten⟩ := @ih (bytes.drop tarBlockBytes) (by
        rw [length_drop, h, Nat.succ_mul, Nat.add_sub_cancel])
      refine ⟨bytes.take tarBlockBytes :: blocks, by rw [length_cons, hlen], ?_, ?_⟩
      · refine forall_mem_cons.2 ⟨?_, hblks⟩
        rw [length_take, h, Nat.succ_mul]
        exact Nat.min_eq_left (Nat.le_add_left _ _)
      · rw [flatten_cons, hflatten, take_append_drop]
  obtain ⟨blocks, hlen, hblks, rfl⟩ := hsplit
  rw [tarBlocks_flatten hblks]
  exact ⟨hlen, hblks, rfl⟩

theorem length_padded (bytes : Bytes) :
    (padded bytes).length = blockCount bytes.length * tarBlockBytes := by
  rw [padded, length_append, length_replicate, blockCount, Int.toNat_natCast, tarBlockBytes]
  omega

/-! ### Where members end -/

/-- No extended header has said anything about where members end. -/
def WalkState.Plain (s : WalkState) : Prop := s.globals = [] ∧ ∀ e ∈ s.effects, e = {}

/-- A member ends where its size says. -/
theorem WalkState.skip_eq {fmt : TarFormat} {s : WalkState} {h : TarHeader} {rest : List Bytes}
    {count : ℕ} (hs : ∀ e ∈ s.effects, e = {}) (hmap : h.extended = false)
    (hcount : h.type.dataBlocks h.size = some count) : s.skip fmt h rest = .ok count := by
  have hfold : s.effects.foldrM (s.shift fmt h.type rest) (0, count) = .ok (0, count) := by
    generalize s.effects = effects at hs
    induction effects with
    | nil => rfl
    | cons e effects ih =>
      obtain ⟨rfl, hrest⟩ := forall_mem_cons.1 hs
      rw [foldrM_cons, ih hrest]
      rfl
  simp only [WalkState.skip, bind_ok, get_ok]
  refine ⟨0, if_neg (by simp [hmap]), count, hcount, (0, count), ?_, rfl⟩
  rw [Nat.zero_add]
  exact hfold

/-! ### Archives as they are written -/

/-- One file as it is handed to the writer. -/
structure Packaged where
  type : TarType
  name : String
  data : Bytes

/-- The member as it is read back. -/
def Packaged.logical (m : Packaged) : LogicalMember := ⟨m.name, m.data.length, m.data⟩

/-- The standard library's writing of archives. -/
structure TarWriter where
  gzip : Bytes → Bytes
  /-- The records of the extended header of the member with this name, if it gets one. -/
  payload : String → Option Bytes
  header : TarHeader → String → Bytes

namespace TarWriter

variable (w : TarWriter)

/-- A header with what follows it. -/
def record (type : TarType) (name : String) (bytes : Bytes) : List Bytes :=
  w.header ⟨type, bytes.length, false⟩ name :: tarBlocks (padded bytes)

/-- One member, after its extended header. -/
def entry (m : Packaged) : List Bytes :=
  (w.payload m.name).toList.flatMap (w.record .pax m.name) ++ w.record m.type m.name m.data

/-- The blocks of an archive: the members, two end markers, and zeros up to a whole record. -/
def blocks (members : List Packaged) : List Bytes :=
  let body := members.flatMap w.entry
  body ++ List.replicate (2 + (20 - (body.length + 2) % 20) % 20) zeroTarBlock

/-- The archive. -/
def archive (members : List Packaged) : Bytes := w.gzip (w.blocks members).flatten

/-- The bounds on the stream of an archive. -/
structure WithinBounds (members : List Packaged) : Prop where
  extension : ∀ m ∈ members, ∀ records ∈ w.payload m.name, records.length ≤ maxExtensionHeaderBytes
  extensions : (members.map fun m => ((w.payload m.name).map List.length).getD 0).sum ≤
    maxExtensionBytes
  stream : (w.blocks members).length * tarBlockBytes ≤ tarStreamLimit

/-- The block is read as this header. -/
structure Reads (fmt : TarFormat) (block : Bytes) (h : TarHeader) : Prop where
  length : block.length = tarBlockBytes
  nonzero : block ≠ zeroTarBlock
  frombuf : fmt.frombuf block = some h

instance (fmt : TarFormat) (block : Bytes) (h : TarHeader) : Decidable (Reads fmt block h) :=
  decidable_of_iff (block.length = tarBlockBytes ∧ block ≠ zeroTarBlock ∧
    fmt.frombuf block = some h)
    ⟨fun ⟨hlen, hne, hread⟩ => ⟨hlen, hne, hread⟩, fun ⟨hlen, hne, hread⟩ => ⟨hlen, hne, hread⟩⟩

/-- One member is read back as it was written. -/
structure ReadsBack (fmt : TarFormat) (m : Packaged) : Prop where
  header : Reads fmt (w.header ⟨m.type, m.data.length, false⟩ m.name) ⟨m.type, m.data.length, false⟩
  extension : ∀ records ∈ w.payload m.name,
    Reads fmt (w.header ⟨.pax, records.length, false⟩ m.name) ⟨.pax, records.length, false⟩ ∧
      fmt.paxEffect [padded records] = some {}
  member : ∀ rest, fmt.member [] ((w.payload m.name).toList.map padded)
    (w.header ⟨m.type, m.data.length, false⟩ m.name) (tarBlocks (padded m.data) ++ rest) = m.logical

/-- The standard library reads back what it wrote. -/
structure Faithful (fmt : TarFormat) (members : List Packaged) : Prop where
  magic : (w.archive members).take 2 = [0x1f, 0x8b]
  gunzip : fmt.gunzip (w.archive members) = some (w.blocks members).flatten
  members : ∀ m ∈ members, w.ReadsBack fmt m

variable {w} {fmt : TarFormat} {members : List Packaged} {type : TarType} {name : String}

/-! ### The preflight accepts exactly what is within the bounds -/

theorem blocks_padded (bytes : Bytes) :
    (tarBlocks (padded bytes)).length = blockCount bytes.length ∧
      (∀ b ∈ tarBlocks (padded bytes), b.length = tarBlockBytes) ∧
      (tarBlocks (padded bytes)).flatten = padded bytes :=
  tarBlocks_of_length (length_padded bytes)

theorem length_record : (w.record type name bytes).length = 1 + blockCount bytes.length := by
  rw [record, length_cons, (blocks_padded bytes).1, Nat.add_comm]

/-- What is left of the bounds after a record. -/
def budgetAfter (b : TarBudget) (type : TarType) (bytes : Bytes) : TarBudget :=
  ⟨b.consumed + tarBlockBytes + blockCount bytes.length * tarBlockBytes,
    b.extensionBytes + (if type.isExtension then bytes.length else 0), b.rawHeaders + 1⟩

/-- One record passes the preflight within the bounds. -/
theorem preflightLoop_record {rest : List Bytes} {n offset : ℕ} {b : TarBudget}
    (hreads : Reads fmt (w.header ⟨type, bytes.length, false⟩ name) ⟨type, bytes.length, false⟩) :
    (∃ headers, preflightLoop fmt (n + 1) (w.record type name bytes ++ rest) offset b =
        .ok headers) ↔
      b.rawHeaders + 1 ≤ maxMembers * 2 ∧
      (type.isExtension → bytes.length ≤ maxExtensionHeaderBytes) ∧
      (budgetAfter b type bytes).extensionBytes ≤ maxExtensionBytes ∧
      (budgetAfter b type bytes).consumed ≤ tarStreamLimit ∧
      ∃ headers, preflightLoop fmt n rest (offset + 1 + blockCount bytes.length)
        (budgetAfter b type bytes) = .ok headers := by
  obtain ⟨hlen, hblks, -⟩ := blocks_padded bytes
  have htake : ((tarBlocks (padded bytes) ++ rest).take (blockCount bytes.length)) =
      tarBlocks (padded bytes) := take_left' hlen
  have hdrop : ((tarBlocks (padded bytes) ++ rest).drop (blockCount bytes.length)) = rest :=
    drop_left' hlen
  rw [record, cons_append, preflightLoop]
  simp only [bind_ok, exists_check, if_neg hreads.nonzero, preflightHeader, get_ok, hreads.frombuf,
    some.injEq]
  constructor
  · rintro ⟨_, -, -, _, ⟨hraw, _, rfl, -, hsize, hext, hstream, hreturn⟩, -, headers, hrest, -⟩
    cases hreturn
    exact ⟨hraw, fun htype => Int.ofNat_le.1 (hsize htype), hext, hstream, headers, hdrop ▸ hrest⟩
  · rintro ⟨hraw, hsize, hext, hstream, headers, hrest⟩
    refine ⟨_, ?_, hreads.length, _, ⟨hraw, _, rfl, Int.natCast_nonneg _,
      fun htype => Int.ofNat_le.2 (hsize htype), hext, hstream, rfl⟩, ?_, headers, ?_, rfl⟩
    · exact le_trans (Nat.le_add_right _ _) hstream
    · rw [htake, length_flatten_blocks hblks, hlen]
    · rw [hdrop]
      exact hrest

/-- The end markers and the zeros after them pass the preflight within the bounds. -/
theorem preflightLoop_end {n k offset : ℕ} {b : TarBudget} :
    (∃ headers, preflightLoop fmt (n + 1) (List.replicate (k + 2) zeroTarBlock) offset b =
      .ok headers) ↔ b.consumed + (k + 2) * tarBlockBytes ≤ tarStreamLimit := by
  have hzero : zeroTarBlock.length = tarBlockBytes := length_replicate
  have hflatten : (List.replicate (k + 1) zeroTarBlock).flatten.length =
    (k + 1) * tarBlockBytes := by
    rw [length_flatten_blocks fun b hb => eq_of_mem_replicate hb ▸ hzero, length_replicate]
  have htail : ∀ byte ∈ (List.replicate k zeroTarBlock).flatten, byte = 0 := by
    intro byte hbyte
    obtain ⟨block, hblk, hmem⟩ := mem_flatten.1 hbyte
    rw [eq_of_mem_replicate hblk] at hmem
    exact eq_of_mem_replicate hmem
  rw [replicate_succ, preflightLoop]
  simp only [bind_ok, check_ok, exists_const, if_true, preflightEnd]
  rw [replicate_succ, ← replicate_succ, hflatten, replicate_succ]
  simp only [Nat.add_mul]
  constructor
  · rintro ⟨_, -, -, ⟨-, -, -, -, hstream, -⟩, -⟩
    omega
  · intro hstream
    exact ⟨_, by omega, hzero, ⟨by omega, cons_ne_nil _ _, hzero, rfl, by omega, htail⟩, rfl⟩

/-- What is written for a member: an extended header, if it gets one, and the member. -/
def records (w : TarWriter) (m : Packaged) : List Packaged :=
  (w.payload m.name).toList.map (⟨.pax, m.name, ·⟩) ++ [m]

/-- The blocks of one record. -/
def written (w : TarWriter) (r : Packaged) : List Bytes := w.record r.type r.name r.data

/-- What a record adds to the payload of extended headers. -/
def extended (r : Packaged) : ℕ := if r.type.isExtension then r.data.length else 0

theorem flatMap_entry (w : TarWriter) (members : List Packaged) :
    members.flatMap w.entry = (members.flatMap w.records).flatMap w.written := by
  rw [flatMap_assoc]
  refine congrArg (List.flatMap · members) (funext fun m => ?_)
  rw [records, flatMap_append, flatMap_map, flatMap_singleton]
  rfl

/-- Records pass the preflight within the bounds. -/
theorem preflightLoop_records {records : List Packaged} {n k offset : ℕ} {b : TarBudget}
    (hreads : ∀ r ∈ records,
      Reads fmt (w.header ⟨r.type, r.data.length, false⟩ r.name) ⟨r.type, r.data.length, false⟩)
    (hn : (records.flatMap w.written).length < n)
    (hraw : b.rawHeaders + records.length ≤ maxMembers * 2)
    (hb : b.extensionBytes ≤ maxExtensionBytes) :
    (∃ headers, preflightLoop fmt n
      (records.flatMap w.written ++ List.replicate (k + 2) zeroTarBlock) offset b = .ok headers) ↔
      (∀ r ∈ records, r.type.isExtension → r.data.length ≤ maxExtensionHeaderBytes) ∧
      b.extensionBytes + (records.map extended).sum ≤ maxExtensionBytes ∧
      b.consumed + ((records.flatMap w.written).length + (k + 2)) * tarBlockBytes ≤
        tarStreamLimit := by
  obtain ⟨n, rfl⟩ : ∃ n', n = n' + 1 := ⟨n - 1, by omega⟩
  induction records generalizing n offset b with
  | nil =>
    rw [flatMap_nil, nil_append, preflightLoop_end]
    simp [hb]
  | cons r records ih =>
    obtain ⟨hr, hreads⟩ := forall_mem_cons.1 hreads
    simp only [flatMap_cons, length_append, length_cons] at hn hraw
    have hwrote : (w.written r).length = 1 + blockCount r.data.length := length_record
    obtain ⟨n, rfl⟩ : ∃ n', n = n' + 1 := ⟨n - 1, by omega⟩
    have hsum : (budgetAfter b r.type r.data).extensionBytes + (records.map extended).sum =
        b.extensionBytes + ((r :: records).map extended).sum := by
      rw [map_cons, sum_cons, ← Nat.add_assoc]
      rfl
    have hspent : (budgetAfter b r.type r.data).consumed +
        ((records.flatMap w.written).length + (k + 2)) * tarBlockBytes =
          b.consumed + (((r :: records).flatMap w.written).length + (k + 2)) * tarBlockBytes := by
      simp only [flatMap_cons, length_append, hwrote, budgetAfter, tarBlockBytes]
      omega
    have hrest := fun hext => @ih (offset + 1 + blockCount r.data.length)
      (budgetAfter b r.type r.data) hreads (by simp only [budgetAfter]; omega) hext n (by omega)
    rw [hsum, hspent] at hrest
    rw [flatMap_cons, append_assoc, written, preflightLoop_record hr, forall_mem_cons]
    constructor
    · rintro ⟨-, hsize, hext, -, hpasses⟩
      obtain ⟨hsizes, hbounds⟩ := (hrest hext).1 hpasses
      exact ⟨⟨hsize, hsizes⟩, hbounds⟩
    · rintro ⟨⟨hsize, hsizes⟩, htotal, hstream⟩
      have hext : (budgetAfter b r.type r.data).extensionBytes ≤ maxExtensionBytes := by omega
      have hspent := le_of_add_le_left (hspent.trans_le hstream)
      exact ⟨by omega, hsize, hext, hspent, (hrest hext).2 ⟨hsizes, htotal, hstream⟩⟩

theorem records_count (htype : ∀ m ∈ members, m.type.isExtension = false) :
    (members.flatMap w.records).length ≤ 2 * members.length ∧
      ((members.flatMap w.records).map extended).sum =
        (members.map fun m => ((w.payload m.name).map List.length).getD 0).sum := by
  induction members with
  | nil => exact ⟨le_rfl, rfl⟩
  | cons m members ih =>
    obtain ⟨hm, htype⟩ := forall_mem_cons.1 htype
    obtain ⟨hlen, hsum⟩ := ih htype
    have hrecs : (w.records m).length ≤ 2 ∧
        ((w.records m).map extended).sum = ((w.payload m.name).map List.length).getD 0 := by
      rw [records]
      have hpax : TarType.pax.isExtension = true := rfl
      cases w.payload m.name <;> simp [extended, hm, hpax]
    simp only [flatMap_cons, length_append, map_append, sum_append,
      length_cons, map_cons, sum_cons, hsum, hrecs.2, and_true]
    omega

/-- The zeros at the end, counted from the two markers. -/
theorem blocks_eq (w : TarWriter) (members : List Packaged) : ∃ k, w.blocks members =
    members.flatMap w.entry ++ List.replicate (k + 2) zeroTarBlock :=
  ⟨(20 - ((members.flatMap w.entry).length + 2) % 20) % 20, by rw [blocks, Nat.add_comm 2]⟩

theorem blocks_length (hfaith : w.Faithful fmt members) :
    ∀ block ∈ w.blocks members, block.length = tarBlockBytes := by
  have hrec : ∀ {type : TarType} {name : String} {bytes : Bytes},
      (w.header ⟨type, bytes.length, false⟩ name).length = tarBlockBytes →
        ∀ block ∈ w.record type name bytes, block.length = tarBlockBytes :=
    fun hheader => forall_mem_cons.2 ⟨hheader, (blocks_padded _).2.1⟩
  intro block hblk
  rcases mem_append.1 hblk with hbody | hzero
  · obtain ⟨m, hm, hentry⟩ := mem_flatMap.1 hbody
    have hback := hfaith.members m hm
    rcases mem_append.1 hentry with hpax | hmember
    · obtain ⟨records, hrecs, hmem⟩ := mem_flatMap.1 hpax
      exact hrec (hback.extension records (mem_toList.1 hrecs)).1.length block hmem
    · exact hrec hback.header.length block hmember
  · rw [eq_of_mem_replicate hzero]
    exact length_replicate

theorem extension_of (htype : ∀ m ∈ members, m.type = .regular ∨ m.type = .special ∧ m.data = []) :
    ∀ m ∈ members, m.type.isExtension = false := by
  intro m hm
  rcases htype m hm with h | ⟨h, -⟩ <;> rw [h] <;> rfl

/-- **The preflight accepts the archive exactly if it is within the bounds.** -/
theorem preflight_archive (hfaith : w.Faithful fmt members)
    (htype : ∀ m ∈ members, m.type.isExtension = false) (hcount : members.length ≤ maxMembers) :
    (∃ headers, preflightTarStream fmt (w.archive members) = .ok headers) ↔
      w.WithinBounds members := by
  obtain ⟨hlen, hsum⟩ := records_count (w := w) htype
  obtain ⟨k, hk⟩ := w.blocks_eq members
  have hreads : ∀ r ∈ members.flatMap w.records,
      Reads fmt (w.header ⟨r.type, r.data.length, false⟩ r.name)
        ⟨r.type, r.data.length, false⟩ := by
    intro r hr
    obtain ⟨m, hm, hr⟩ := mem_flatMap.1 hr
    rcases mem_append.1 hr with hr | hr
    · obtain ⟨bytes, hbytes, rfl⟩ := List.mem_map.1 hr
      exact ((hfaith.members m hm).extension bytes (mem_toList.1 hbytes)).1
    · rw [mem_singleton.1 hr]
      exact (hfaith.members m hm).header
  have hsizes : (∀ r ∈ members.flatMap w.records,
      r.type.isExtension → r.data.length ≤ maxExtensionHeaderBytes) ↔
        ∀ m ∈ members, ∀ records ∈ w.payload m.name, records.length ≤ maxExtensionHeaderBytes := by
    have hpax : TarType.pax.isExtension = true := rfl
    simp only [mem_flatMap, records, mem_append, List.mem_map, mem_toList, mem_singleton]
    constructor
    · exact fun h m hm bytes hbytes => h _ ⟨m, hm, .inl ⟨bytes, hbytes, rfl⟩⟩ hpax
    · rintro h r ⟨m, hm, ⟨bytes, hbytes, rfl⟩ | rfl⟩ hext
      · exact h m hm bytes hbytes
      · rw [htype r hm] at hext
        cases hext
  simp only [preflightTarStream, bind_ok, check_ok, get_ok, exists_const, hfaith.magic, true_and,
    hfaith.gunzip, some.injEq, exists_eq_left', tarBlocks_flatten (blocks_length hfaith)]
  rw [hk, flatMap_entry, preflightLoop_records hreads (by rw [length_append]; omega)
    (by simp only [Nat.zero_add]; omega) (Nat.zero_le _), hsizes, hsum, ← flatMap_entry]
  constructor
  · rintro ⟨hext, htotal, hstream⟩
    exact ⟨hext, by simpa using htotal, by simpa [hk] using hstream⟩
  · rintro ⟨hext, htotal, hstream⟩
    exact ⟨hext, by simpa using htotal, by simpa [hk] using hstream⟩

/-! ### The walk finds the members -/

section Walk

variable {type : TarType} {name : String} {bytes : Bytes} {rest : List Bytes} {n : ℕ}
  {s : WalkState}

/-- An extended header is kept for the member that follows. -/
theorem walk_record_pax
    (hreads : Reads fmt (w.header ⟨.pax, bytes.length, false⟩ name) ⟨.pax, bytes.length, false⟩)
    (hrec : fmt.paxEffect [padded bytes] = some {}) (hs : s.Plain) :
    ∃ s', membersOf (walk fmt (n + 1) (w.record .pax name bytes ++ rest) s).1 =
        membersOf (walk fmt n rest s').1 ∧
      (walk fmt (n + 1) (w.record .pax name bytes ++ rest) s).2 = (walk fmt n rest s').2 ∧
      s'.Plain ∧ s'.extensions = s.extensions ++ [padded bytes] := by
  obtain ⟨hlen, -, hflatten⟩ := blocks_padded bytes
  obtain ⟨hglobs, heffects⟩ := hs
  have hextend : s.extend fmt .pax (padded bytes) =
      some { s with start := some (s.start.getD s.offset), effects := s.effects ++ [{}],
                    extensions := s.extensions ++ [padded bytes], nested := true } := by
    simp [WalkState.extend, hrec, hglobs]
  have hnonneg : ¬ ((bytes.length : ℤ) < 0) := by omega
  rw [record, cons_append, walk]
  simp only [hreads.length, ne_eq, not_true_eq_false, if_false, if_neg hreads.nonzero,
    hreads.frombuf, TarType.readsPayload, if_true, if_neg hnonneg, take_left' hlen,
    drop_left' hlen, hflatten, hextend]
  refine ⟨_, rfl, rfl, ⟨hglobs, ?_⟩, rfl⟩
  exact forall_mem_append.2 ⟨heffects, forall_mem_singleton.2 rfl⟩

/-- A member is presented with its extensions. -/
theorem walk_record_member
    (hreads : Reads fmt (w.header ⟨type, bytes.length, false⟩ name) ⟨type, bytes.length, false⟩)
    (htype : type = .regular ∨ type = .special ∧ bytes = []) (hs : s.Plain) :
    ∃ s', membersOf (walk fmt (n + 1) (w.record type name bytes ++ rest) s).1 =
        (type, fmt.member [] s.extensions (w.header ⟨type, bytes.length, false⟩ name)
          (tarBlocks (padded bytes) ++ rest)) :: membersOf (walk fmt n rest s').1 ∧
      (walk fmt (n + 1) (w.record type name bytes ++ rest) s).2 = (walk fmt n rest s').2 ∧
      s'.Plain ∧ s'.extensions = [] ∧ s'.nested = false := by
  obtain ⟨hlen, hblks, -⟩ := blocks_padded bytes
  obtain ⟨hglobs, heffects⟩ := hs
  have hpay : type.readsPayload = false := by
    rcases htype with rfl | ⟨rfl, -⟩ <;> rfl
  have hcount : type.dataBlocks bytes.length = some (blockCount bytes.length) := by
    rcases htype with rfl | ⟨rfl, rfl⟩
    · simp [TarType.dataBlocks, TarType.hasData]
    · rfl
  have hskip : s.skip fmt ⟨type, bytes.length, false⟩ (tarBlocks (padded bytes) ++ rest) =
      .ok (blockCount bytes.length) := WalkState.skip_eq heffects rfl hcount
  have hroom :
      ¬ (tarBlocks (padded bytes)).flatten.length < blockCount bytes.length * tarBlockBytes := by
    rw [length_flatten_blocks hblks, hlen]
    exact lt_irrefl _
  rw [record, cons_append, walk]
  simp only [hreads.length, ne_eq, not_true_eq_false, if_false, if_neg hreads.nonzero,
    hreads.frombuf, hpay, Bool.false_eq_true, hskip, take_left' hlen, if_neg hroom, drop_left' hlen,
    hglobs]
  exact ⟨_, rfl, rfl, ⟨hglobs, forall_mem_nil _⟩, rfl, rfl⟩

end Walk

/-- The walk over an archive presents the packaged members. -/
theorem walk_entries {n k : ℕ} {s : WalkState} (hback : ∀ m ∈ members, w.ReadsBack fmt m)
    (htype : ∀ m ∈ members, m.type = .regular ∨ m.type = .special ∧ m.data = [])
    (hn : (members.flatMap w.entry).length < n) (hs : s.Plain) (hexts : s.extensions = [])
    (hnested : s.nested = false) :
    membersOf (walk fmt n (members.flatMap w.entry ++ List.replicate (k + 2) zeroTarBlock) s).1 =
        members.map (fun m => (m.type, m.logical)) ∧
      (walk fmt n (members.flatMap w.entry ++ List.replicate (k + 2) zeroTarBlock) s).2 =
        .stopped := by
  induction members generalizing n s with
  | nil =>
    obtain ⟨n, rfl⟩ : ∃ n', n = n' + 1 := ⟨n - 1, by omega⟩
    have hzero : zeroTarBlock.length = tarBlockBytes := length_replicate
    rw [flatMap_nil, nil_append, replicate_succ, walk]
    simp only [hzero, ne_eq, not_true_eq_false, if_false, if_true]
    refine ⟨rfl, ?_⟩
    simp [WalkState.endingAtMarker, hnested]
  | cons m members ih =>
    obtain ⟨hm, hback⟩ := forall_mem_cons.1 hback
    obtain ⟨hmtype, htype⟩ := forall_mem_cons.1 htype
    rw [flatMap_cons, length_append, entry] at hn
    -- the member itself, from any state that has read its extensions
    have hlast : ∀ (n : ℕ) (s : WalkState), (members.flatMap w.entry).length < n → s.Plain →
        s.extensions = (w.payload m.name).toList.map padded →
        membersOf (walk fmt (n + 1) (w.record m.type m.name m.data ++
            (members.flatMap w.entry ++ List.replicate (k + 2) zeroTarBlock)) s).1 =
          (m :: members).map (fun m => (m.type, m.logical)) ∧
        (walk fmt (n + 1) (w.record m.type m.name m.data ++
            (members.flatMap w.entry ++ List.replicate (k + 2) zeroTarBlock)) s).2 = .stopped := by
      intro n s hn hs hexts
      obtain ⟨s', hwalk, hend, hs', hexts', hnested'⟩ := walk_record_member hm.header hmtype hs
      obtain ⟨hrest, hstopped⟩ := @ih n s' hback htype hn hs' hexts' hnested'
      rw [hwalk, hend, hrest, hstopped, hexts, hm.member, map_cons]
      exact ⟨rfl, rfl⟩
    rw [flatMap_cons, entry]
    cases hpay : w.payload m.name with
    | none =>
      rw [hpay, toList_none, flatMap_nil, nil_append, length_record] at hn
      obtain ⟨n, rfl⟩ : ∃ n', n = n' + 1 := ⟨n - 1, by omega⟩
      rw [toList_none, flatMap_nil, nil_append, append_assoc]
      refine hlast n s (by omega) hs ?_
      rw [hexts, hpay]
      rfl
    | some records =>
      rw [hpay, toList_some, flatMap_cons, flatMap_nil, append_nil,
        length_append, length_record, length_record] at hn
      obtain ⟨n, rfl⟩ : ∃ n', n = n' + 2 := ⟨n - 2, by omega⟩
      rw [toList_some, flatMap_cons, flatMap_nil, append_nil, append_assoc, append_assoc]
      obtain ⟨hreads, hrec⟩ := hm.extension records hpay
      obtain ⟨s', hwalk, hend, hs', hexts'⟩ := walk_record_pax hreads hrec hs
      rw [hwalk, hend]
      refine hlast n s' (by omega) hs' ?_
      rw [hexts', hexts, hpay]
      rfl

end TarWriter

section Archive

variable {proc : Process} {fmt : TarFormat} {w : TarWriter} {members : List Packaged}

/-- **An archive within the bounds is extracted as the members that were packaged.** -/
theorem safeExtract_archive (hfaith : w.Faithful fmt members) (hbounds : w.WithinBounds members)
    (hcount : members.length ≤ maxMembers)
    (htype : ∀ m ∈ members, m.type = .regular ∨ m.type = .special ∧ m.data = []) :
    safeExtract proc fmt (w.archive members) =
      extractMembers proc (members.map fun m => (m.type, m.logical)) := by
  obtain ⟨k, hk⟩ := w.blocks_eq members
  have hfuel : (members.flatMap w.entry).length < (w.blocks members).length + 1 := by
    rw [hk, length_append]
    omega
  obtain ⟨headers, hpref⟩ :=
    (TarWriter.preflight_archive hfaith (TarWriter.extension_of htype) hcount).2 hbounds
  obtain ⟨hmems, hstopped⟩ := @TarWriter.walk_entries w fmt members
    ((w.blocks members).length + 1) k {} hfaith.members htype hfuel ⟨rfl, forall_mem_nil _⟩ rfl rfl
  have hwalk : walkTar fmt (w.archive members) = walk fmt ((w.blocks members).length + 1)
      (members.flatMap w.entry ++ List.replicate (k + 2) zeroTarBlock) {} := by
    simp only [walkTar, hfaith.gunzip, tarBlocks_flatten (TarWriter.blocks_length hfaith)]
    rw [← hk]
  rw [safeExtract, hpref, hwalk, hmems, hstopped, check_of rfl]
  cases extractMembers proc (members.map fun m => (m.type, m.logical)) <;> rfl

/-- An archive that is extracted is within the bounds. -/
theorem withinBounds_of_safeExtract {t : Tree} (hfaith : w.Faithful fmt members)
    (hcount : members.length ≤ maxMembers)
    (htype : ∀ m ∈ members, m.type = .regular ∨ m.type = .special ∧ m.data = [])
    (h : safeExtract proc fmt (w.archive members) = .ok t) : w.WithinBounds members := by
  simp only [safeExtract, bind_ok] at h
  obtain ⟨headers, hpref, -⟩ := h
  exact (TarWriter.preflight_archive hfaith (TarWriter.extension_of htype) hcount).1
    ⟨headers, hpref⟩

end Archive

end Cacheon
