import Cacheon.Lib.Fallible
import Cacheon.Lib.JsonText
import Mathlib.Data.List.Flatten

/-!
# Canonical bytes and content digests

Every identity of the system is the hash of a value's canonical JSON bytes.  A value is checked by
a walk that names the first violation, or, when it is native JSON data already, encoded as it is.

* `PyValue` : a Python object, as far as the encoder tells objects apart.
* `canonicalValue` : the checked walk; `jsonNative` — the worklist that allows to skip it.
* `canonicalJsonBytes`, `canonicalObjectBytes`, `canonicalDigestPreimage` : the encoders.
* `PyValue.tree` : the JSON tree a value denotes.
* `canonical_json_identity` : bytes stand for trees, and preimages for what was hashed.
-/

namespace Cacheon

open Fallible JsonText List Keyed JsonTree

/-! ### Values -/

/-- A key of a mapping; `exact` for the type `str` itself. -/
inductive PyKey where
  | str (s : Text) (exact : Bool)
  | other
deriving DecidableEq

/-- The types of sequences. -/
inductive SequenceType where
  | list
  | tuple
  | other
deriving DecidableEq

/-- A Python object.  `exact` tells `int`, `str` and `dict` from their subclasses and, for
mappings, from any other mapping; containers have an identity. -/
inductive PyValue where
  | null
  | bool (b : Bool)
  | int (n : ℤ) (exact : Bool)
  | float
  | str (s : Text) (exact : Bool)
  | mapping (id : ℕ) (exact : Bool) (items : List (PyKey × PyValue))
  | sequence (id : ℕ) (type : SequenceType) (items : List PyValue)
  /-- Anything else: bytes, sets, arbitrary objects. -/
  | other (typeName : Text)

/-- The text of a key. -/
def PyKey.text? : PyKey → Option Text
  | .str s _ => some s
  | .other => none

namespace PyValue

mutual

/-- The objects an object is made of, itself included. -/
def subobjects : PyValue → List PyValue
  | .mapping id exact items => .mapping id exact items :: subobjectsOfMembers items
  | .sequence id type items => .sequence id type items :: subobjectsOfItems items
  | .null => [.null]
  | .bool b => [.bool b]
  | .int n exact => [.int n exact]
  | .float => [.float]
  | .str s exact => [.str s exact]
  | .other typeName => [.other typeName]

/-- The objects that the values of a mapping are made of. -/
def subobjectsOfMembers : List (PyKey × PyValue) → List PyValue
  | [] => []
  | (_, v) :: items => v.subobjects ++ subobjectsOfMembers items

/-- The objects that the items of a sequence are made of. -/
def subobjectsOfItems : List PyValue → List PyValue
  | [] => []
  | v :: items => v.subobjects ++ subobjectsOfItems items

end

/-- The identity of a container. -/
def ident : PyValue → Option ℕ
  | .mapping id _ _ => some id
  | .sequence id _ _ => some id
  | _ => none

/-- The text of a `str`. -/
def str? : PyValue → Option Text
  | .str s _ => some s
  | _ => none

/-- The value of an `int` that is not a `bool`. -/
def int? : PyValue → Option ℤ
  | .int n _ => some n
  | _ => none

/-- The values or items of a container. -/
def children : PyValue → List PyValue
  | .mapping _ _ items => items.map (·.2)
  | .sequence _ _ items => items
  | _ => []

/-- A mapping has a key once. -/
def DistinctKeys : PyValue → Prop
  | .mapping _ _ items => (items.filterMap (·.1.text?)).Nodup
  | _ => True

/-- What holds of every object that can be built without a cycle. -/
structure Valid (v : PyValue) : Prop where
  distinctKeys : ∀ x ∈ v.subobjects, x.DistinctKeys
  identities : ∀ x ∈ v.subobjects, ∀ y ∈ v.subobjects, x.ident.isSome → x.ident = y.ident → x = y

end PyValue

/-- An object that exists. -/
def PyObject : Type := {v : PyValue // v.Valid}

/-! ### The checked walk -/

/-- What the encoders raise. -/
inductive IdentityFault where
  /-- `StackIdentityError`. -/
  | stackIdentity (text : Text)
  /-- `UnicodeEncodeError`. -/
  | unicodeEncode
deriving DecidableEq

/-- `dict[key] = value`. -/
def setItem (dict : List (Text × JsonTree)) (row : Text × JsonTree) : List (Text × JsonTree) :=
  if row.1 ∈ dict.map (·.1) then dict.map fun m => if m.1 = row.1 then row else m
  else dict ++ [row]

mutual

/-- `_canonical_value`. -/
def canonicalValue (location : Text) : PyValue → Except IdentityFault JsonTree
  | .null => .ok .null
  | .bool b => .ok (.bool b)
  | .str s _ => .ok (.str s)
  | .int n _ => .ok (.int n)
  | .float => .error (.stackIdentity (location ++ ascii " contains a float"))
  | .mapping _ _ items => do
    let rows ← canonicalMembers location items
    .ok (.obj (rows.foldl setItem []))
  | .sequence _ _ items => do
    let rows ← canonicalItems location 0 items
    .ok (.arr rows)
  | .other typeName =>
    .error (.stackIdentity (location ++ ascii " contains unsupported " ++ typeName))

/-- The members of a mapping, in the order they are visited. -/
def canonicalMembers (location : Text) :
    List (PyKey × PyValue) → Except IdentityFault (List (Text × JsonTree))
  | [] => .ok []
  | (.other, _) :: _ =>
    .error (.stackIdentity (location ++ ascii " contains a non-string object key"))
  | (.str key _, v) :: items => do
    let tree ← canonicalValue (location ++ ascii "." ++ key) v
    let rows ← canonicalMembers location items
    .ok ((key, tree) :: rows)

/-- The items of a sequence from an index on. -/
def canonicalItems (location : Text) (index : ℕ) :
    List PyValue → Except IdentityFault (List JsonTree)
  | [] => .ok []
  | v :: items => do
    let tree ← canonicalValue (location ++ ascii "[" ++ digits index ++ ascii "]") v
    let rows ← canonicalItems location (index + 1) items
    .ok (tree :: rows)

end

/-! ### Native data -/

namespace PyValue

/-- The type is one of `_JSON_SCALARS`. -/
def isScalar : PyValue → Bool
  | .null | .bool _ => true
  | .int _ exact | .str _ exact => exact
  | _ => false

/-- The type is one of `_JSON_ARRAYS`. -/
def isArray : PyValue → Bool
  | .sequence _ type _ => type ≠ .other
  | _ => false

/-- The object is a `dict` whose keys are all exactly `str`, a list, a tuple or a scalar. -/
def isNativeNode : PyValue → Bool
  | .mapping _ exact items => exact && items.all fun item =>
    match item.1 with
    | .str _ exact => exact
    | .other => false
  | v => v.isArray || v.isScalar

/-- Nothing below the children is left to look at. -/
def isShallow (children : List PyValue) : Bool :=
  children.all isScalar ||
    (children.all isArray && (children.flatMap PyValue.children).all isScalar)

theorem subobjectsOfItems_eq (items : List PyValue) :
    subobjectsOfItems items = items.flatMap subobjects := by
  induction items with
  | nil => rfl
  | cons v items ih => rw [subobjectsOfItems, ih, flatMap_cons]

theorem subobjectsOfMembers_eq (items : List (PyKey × PyValue)) :
    subobjectsOfMembers items = (items.map (·.2)).flatMap subobjects := by
  induction items with
  | nil => rfl
  | cons item items ih => rw [subobjectsOfMembers, ih, map_cons, flatMap_cons]

variable (v : PyValue)

/-- An object is made of itself and of what its children are made of. -/
theorem subobjects_eq : v.subobjects = v :: v.children.flatMap subobjects := by
  cases v with
  | mapping id exact items => rw [subobjects, subobjectsOfMembers_eq, children]
  | sequence id type items => rw [subobjects, subobjectsOfItems_eq, children]
  | _ => rfl

/-- What is left after an object was taken from a worklist. -/
theorem length_lt_of_pop (pending : List PyValue) :
    (pending.flatMap subobjects).length < ((v :: pending).flatMap subobjects).length := by
  rw [flatMap_cons, subobjects_eq v, length_append, length_cons]
  omega

/-- What is left after an object was replaced by some of its children. -/
theorem length_lt_of_push (p : PyValue → Bool) (pending : List PyValue) :
    (((v.children.filter p).reverse ++ pending).flatMap subobjects).length <
      ((v :: pending).flatMap subobjects).length := by
  have hsome : ((v.children.filter p).flatMap subobjects).length ≤
      (v.children.flatMap subobjects).length :=
    (filter_sublist.flatMap subobjects).length_le
  have hrev : ((v.children.filter p).reverse.flatMap subobjects).length =
      ((v.children.filter p).flatMap subobjects).length :=
    ((reverse_perm _).flatMap_right subobjects).length_eq
  rw [flatMap_append, flatMap_cons, subobjects_eq v, length_append, length_append, length_cons]
  omega

end PyValue

/-- The worklist of `_json_native`, its top first. -/
def jsonNativeLoop (pending : List PyValue) (seen : List ℕ) : Bool :=
  match pending with
  | [] => true
  | item :: pending =>
    if item.isNativeNode then
      match item.ident with
      | none => jsonNativeLoop pending seen
      | some id =>
        if id ∈ seen then jsonNativeLoop pending seen
        else if PyValue.isShallow item.children then jsonNativeLoop pending (id :: seen)
        else jsonNativeLoop ((item.children.filter fun v => !v.isScalar).reverse ++ pending)
          (id :: seen)
    else false
termination_by (pending.flatMap PyValue.subobjects).length
decreasing_by
  · exact PyValue.length_lt_of_pop item pending
  · exact PyValue.length_lt_of_pop item pending
  · exact PyValue.length_lt_of_pop item pending
  · exact PyValue.length_lt_of_push item _ pending

variable (v : PyValue)

/-- `_json_native`. -/
def jsonNative : Bool := jsonNativeLoop [v] []

/-! ### The encoders -/

mutual

/-- The data `json` finds in native data; none where the data is not native. -/
def nativeTree : PyValue → Option JsonTree
  | .null => some .null
  | .bool b => some (.bool b)
  | .int n true => some (.int n)
  | .str s true => some (.str s)
  | .mapping _ true items => (nativeMembers items).map .obj
  | .sequence _ .list items => (nativeItems items).map .arr
  | .sequence _ .tuple items => (nativeItems items).map .arr
  | _ => none

/-- The members of a `dict`. -/
def nativeMembers : List (PyKey × PyValue) → Option (List (Text × JsonTree))
  | [] => some []
  | (.str key true, v) :: items => do
    let tree ← nativeTree v
    let rows ← nativeMembers items
    some ((key, tree) :: rows)
  | _ => none

/-- The items of a list or a tuple. -/
def nativeItems : List PyValue → Option (List JsonTree)
  | [] => some []
  | v :: items => do
    let tree ← nativeTree v
    let rows ← nativeItems items
    some (tree :: rows)

end

mutual

/-- Every integer may be written: at most 4300 decimal digits. -/
def shortInts : JsonTree → Bool
  | .int n => (digits n.natAbs).length ≤ 4300
  | .arr items => shortIntsOfItems items
  | .obj members => shortIntsOfMembers members
  | _ => true

/-- Every integer of the items may be written. -/
def shortIntsOfItems : List JsonTree → Bool
  | [] => true
  | v :: items => shortInts v && shortIntsOfItems items

/-- Every integer of the members may be written. -/
def shortIntsOfMembers : List (Text × JsonTree) → Bool
  | [] => true
  | (_, v) :: members => shortInts v && shortIntsOfMembers members

end

/-- `_dumps`; none for a `ValueError`. -/
def dumps (tree : JsonTree) : Option Text :=
  if shortInts tree then some tree.canonical.render else none

/-- `str.encode("utf-8")`. -/
def encodeUtf8 (text : Text) : Except IdentityFault (List UInt8) := get .unicodeEncode (utf8 text)

/-- The bytes by the checked walk. -/
def checkedBytes : Except IdentityFault (List UInt8) := do
  let tree ← canonicalValue (ascii "payload") v
  let encoded ← get (.stackIdentity (ascii "value is not canonical JSON data")) (dumps tree)
  encodeUtf8 encoded

/-- The bytes of native data as it is; none for a `ValueError`. -/
def nativeBytes : Option (List UInt8) := do
  let tree ← nativeTree v
  let encoded ← dumps tree
  utf8 encoded

/-- `canonical_json_bytes`. -/
def canonicalJsonBytes : Except IdentityFault (List UInt8) :=
  if jsonNative v then
    match nativeBytes v with
    | some bytes => .ok bytes
    | none => checkedBytes v
  else checkedBytes v

/-- One member of an object's bytes. -/
def memberBytes (row : Text × List UInt8) : Except IdentityFault (List UInt8) := do
  let key ← encodeUtf8 (quote row.1)
  .ok (key ++ 58 :: row.2)

/-- `canonical_object_bytes`. -/
def canonicalObjectBytes (members : List (PyKey × List UInt8)) :
    Except IdentityFault (List UInt8) := do
  let rows ← members.mapM fun m =>
    get (.stackIdentity (ascii "canonical object keys must be strings"))
      (m.1.text?.map fun key => (key, m.2))
  let parts ← (sortBy Prod.fst rows).mapM memberBytes
  .ok (123 :: (List.intercalate [44] parts ++ [125]))

/-- A text that names a digest domain: `[a-z0-9][a-z0-9._-]*`. -/
def isDomain (s : Text) : Bool :=
  let isStart c := decide (97 ≤ c ∧ c ≤ 122 ∨ 48 ≤ c ∧ c ≤ 57)
  s.head?.any isStart && s.all fun c => isStart c || c = 46 || c = 95 || c = 45

/-- What `canonical_payload_digest` hashes. -/
def canonicalPayloadPreimage (domain : PyValue) (payload : List UInt8) (schemaVersion : PyValue) :
    Except IdentityFault (List UInt8) := do
  check (∃ s ∈ domain.str?, isDomain s)
    (.stackIdentity (ascii "digest domain must match [a-z0-9][a-z0-9._-]*"))
  check (∃ n ∈ schemaVersion.int?, 1 ≤ n)
    (.stackIdentity (ascii "schema_version must be a positive integer"))
  let domainBytes ← canonicalJsonBytes domain
  let versionBytes ← canonicalJsonBytes schemaVersion
  canonicalObjectBytes [(.str (ascii "domain") true, domainBytes),
    (.str (ascii "payload") true, payload), (.str (ascii "schema_version") true, versionBytes)]

/-- What `canonical_digest` hashes. -/
def canonicalDigestPreimage (domain payload schemaVersion : PyValue) :
    Except IdentityFault (List UInt8) := do
  let bytes ← canonicalJsonBytes payload
  canonicalPayloadPreimage domain bytes schemaVersion

/-! ### The worklist accepts native data only -/

namespace PyValue

variable {v w x y : PyValue} {id : ℕ} {seen : List ℕ} {l : List PyValue}

theorem mem_subobjects_self (v : PyValue) : v ∈ v.subobjects := by
  rw [subobjects_eq]
  exact mem_cons_self

theorem mem_of_child (hc : w ∈ v.children) (hx : x ∈ w.subobjects) : x ∈ v.subobjects := by
  rw [subobjects_eq]
  exact mem_cons_of_mem _ (mem_flatMap.2 ⟨w, hc, hx⟩)

/-- An object of a part is smaller than the whole. -/
theorem length_subobjects_lt (hc : w ∈ v.children) : w.subobjects.length < v.subobjects.length := by
  have hsub : (([w] : List PyValue).flatMap subobjects).length ≤
      (v.children.flatMap subobjects).length :=
    ((singleton_sublist.2 hc).flatMap subobjects).length_le
  rw [flatMap_singleton] at hsub
  rw [subobjects_eq v, length_cons]
  omega

/-- What passes from children to their parent passes from every part to the whole. -/
theorem of_mem_subobjects {P : PyValue → Prop} (hx : x ∈ v.subobjects) (h : P x)
    (hstep : ∀ v w : PyValue, w ∈ v.children → P w → P v) : P v := by
  -- by induction on the size of the whole: an object is the whole or part of a child
  induction hn : v.subobjects.length using Nat.strongRecOn generalizing v with
  | ind n ih =>
    rw [subobjects_eq, mem_cons, mem_flatMap] at hx
    rcases hx with rfl | ⟨w, hw, hx⟩
    · exact h
    · exact hstep v w hw (ih _ (hn ▸ length_subobjects_lt hw) hx rfl)

theorem length_subobjects_le (h : x ∈ v.subobjects) : x.subobjects.length ≤ v.subobjects.length :=
  of_mem_subobjects (P := (x.subobjects.length ≤ ·.subobjects.length)) h (Nat.le_refl _)
    fun _ _ hw hle => hle.trans (length_subobjects_lt hw).le

theorem subobjects_trans (hx : x ∈ w.subobjects) (hw : w ∈ v.subobjects) : x ∈ v.subobjects :=
  of_mem_subobjects (P := (x ∈ ·.subobjects)) hw hx fun _ _ => mem_of_child

/-- Every part of an object is native, or part of an object that was seen. -/
def Covered (seen : List ℕ) (v : PyValue) : Prop :=
  ∀ x ∈ v.subobjects, x.isNativeNode = true ∨
    ∃ w ∈ v.subobjects, (∃ id ∈ seen, w.ident = some id) ∧ x ∈ w.subobjects

/-- No identity is that of two objects. -/
def Consistent (objects : List PyValue) : Prop :=
  ∀ v ∈ objects, ∀ w ∈ objects, ∀ x ∈ v.subobjects, ∀ y ∈ w.subobjects,
    x.ident.isSome → x.ident = y.ident → x = y

theorem children_of_isScalar (h : v.isScalar = true) : v.children = [] := by
  cases v <;> first | rfl | cases h

theorem isNativeNode_of_isScalar (h : v.isScalar = true) : v.isNativeNode = true := by
  cases v <;> simp_all [isNativeNode, isScalar]

theorem isNativeNode_of_isArray (h : v.isArray = true) : v.isNativeNode = true := by
  cases v <;> simp_all [isNativeNode, isArray]

theorem native_of_isScalar (h : v.isScalar = true) (hx : x ∈ v.subobjects) :
    x.isNativeNode = true := by
  rw [subobjects_eq, children_of_isScalar h] at hx
  rw [mem_singleton.1 hx]
  exact isNativeNode_of_isScalar h

/-- Nothing below shallow children is not native. -/
theorem native_of_isShallow (h : isShallow v.children = true) (hw : w ∈ v.children)
    (hx : x ∈ w.subobjects) : x.isNativeNode = true := by
  rcases Bool.or_eq_true _ _ ▸ h with hall | hall
  · exact native_of_isScalar (all_eq_true.1 hall w hw) hx
  · obtain ⟨harrays, hitems⟩ := Bool.and_eq_true _ _ ▸ hall
    rw [subobjects_eq, mem_cons, mem_flatMap] at hx
    rcases hx with rfl | ⟨u, hu, hx⟩
    · exact isNativeNode_of_isArray (all_eq_true.1 harrays _ hw)
    · exact native_of_isScalar (all_eq_true.1 hitems u (mem_flatMap.2 ⟨w, hw, hu⟩)) hx

theorem Consistent.subset {l' : List PyValue} (h : Consistent l)
    (hl : ∀ v ∈ l', ∃ w ∈ l, v ∈ w.subobjects) : Consistent l' := by
  intro v hv w hw x hx y hy
  obtain ⟨v', hv', hvv'⟩ := hl v hv
  obtain ⟨w', hw', hww'⟩ := hl w hw
  exact h v' hv' w' hw' x (subobjects_trans hx hvv') y (subobjects_trans hy hww')

theorem Consistent.tail (h : Consistent (v :: l)) : Consistent l :=
  h.subset fun w hw => ⟨w, mem_cons_of_mem _ hw, mem_subobjects_self w⟩

theorem Consistent.eq_head (h : Consistent (v :: l)) (hw : w ∈ v :: l) (hx : x ∈ w.subobjects)
    (hid : v.ident = some id) (hident : x.ident = some id) : x = v :=
  (h v mem_cons_self w hw v (mem_subobjects_self v) x hx (by rw [hid]; rfl)
    (hid.trans hident.symm)).symm

/-- What is covered once an object is, is covered without it, if the object itself is. -/
theorem Covered.forget (hv : Covered seen v) (hl : Consistent (v :: l)) (hmem : w ∈ l)
    (hid : v.ident = some id) (hw : Covered (id :: seen) w) : Covered seen w := by
  intro x hx
  rcases hw x hx with hnode | ⟨y, hy, ⟨id', hid', hident⟩, hxy⟩
  · exact .inl hnode
  · rcases mem_cons.1 hid' with rfl | hseen
    · obtain rfl := hl.eq_head (.tail _ hmem) hy hid hident
      rcases hv x hxy with hnode | ⟨z, hz, hseen, hxz⟩
      · exact .inl hnode
      · exact .inr ⟨z, subobjects_trans hz hy, hseen, hxz⟩
    · exact .inr ⟨y, hy, ⟨id', hseen, hident⟩, hxy⟩

/-- A native object is covered once its children are: it is no part of them. -/
theorem covered_of_children (hnode : v.isNativeNode = true) (hl : Consistent (v :: l))
    (hid : v.ident = some id) (h : ∀ w ∈ v.children, Covered (id :: seen) w) : Covered seen v := by
  intro x hx
  rw [subobjects_eq, mem_cons, mem_flatMap] at hx
  rcases hx with rfl | ⟨w, hw, hx⟩
  · exact .inl hnode
  · rcases h w hw x hx with hnode | ⟨y, hy, ⟨id', hid', hident⟩, hxy⟩
    · exact .inl hnode
    · have hy' := mem_of_child hw hy
      rcases mem_cons.1 hid' with rfl | hseen
      · have hlt := length_subobjects_lt hw
        have hle := length_subobjects_le hy
        rw [hl.eq_head mem_cons_self hy' hid hident] at hle
        omega
      · exact .inr ⟨y, hy', ⟨id', hseen, hident⟩, hxy⟩

/-- What the worklist accepts is native, but for what was seen before. -/
theorem covered_of_loop {pending : List PyValue} (h : jsonNativeLoop pending seen = true)
    (hpend : Consistent pending) : ∀ v ∈ pending, Covered seen v := by
  induction pending, seen using jsonNativeLoop.induct with
  | case1 seen => exact forall_mem_nil _
  | case2 seen item pending hnode hident ih =>
    rw [jsonNativeLoop, if_pos hnode, hident] at h
    have hrest := ih h hpend.tail
    have hleaf : item.children = [] := by cases item <;> first | rfl | cases hident
    refine forall_mem_cons.2 ⟨fun x hx => .inl ?_, hrest⟩
    rw [subobjects_eq, hleaf] at hx
    rw [mem_singleton.1 hx]
    exact hnode
  | case3 seen item pending hnode id hident hseen ih =>
    rw [jsonNativeLoop, if_pos hnode, hident] at h
    simp only [if_pos hseen] at h
    refine forall_mem_cons.2 ⟨fun x hx => .inr ?_, ih h hpend.tail⟩
    exact ⟨item, mem_subobjects_self item, ⟨id, hseen, hident⟩, hx⟩
  | case4 seen item pending hnode id hident hseen hshallow ih =>
    rw [jsonNativeLoop, if_pos hnode, hident] at h
    simp only [if_neg hseen, if_pos hshallow] at h
    have hitem : Covered seen item := covered_of_children hnode hpend hident
      fun w hw x hx => .inl (native_of_isShallow hshallow hw hx)
    refine forall_mem_cons.2 ⟨hitem, fun w hw => ?_⟩
    exact hitem.forget hpend hw hident (ih h hpend.tail w hw)
  | case5 seen item pending hnode id hident hseen hdeep ih =>
    rw [jsonNativeLoop, if_pos hnode, hident] at h
    simp only [if_neg hseen, if_neg hdeep] at h
    have hparts : Consistent ((item.children.filter fun v => !v.isScalar).reverse ++ pending) := by
      refine hpend.subset fun v hv => ?_
      rcases mem_append.1 hv with hv | hv
      · have hchild : v ∈ item.children := mem_of_mem_filter (mem_reverse.1 hv)
        exact ⟨item, mem_cons_self, mem_of_child hchild (mem_subobjects_self v)⟩
      · exact ⟨v, mem_cons_of_mem _ hv, mem_subobjects_self v⟩
    have hcov := ih h hparts
    have hitem : Covered seen item := by
      refine covered_of_children hnode hpend hident fun w hw => ?_
      by_cases hscalar : w.isScalar = true
      · exact fun x hx => .inl (native_of_isScalar hscalar hx)
      · refine hcov w (mem_append_left _ (mem_reverse.2 (mem_filter.2 ⟨hw, ?_⟩)))
        simpa using hscalar
    refine forall_mem_cons.2 ⟨hitem, fun w hw => ?_⟩
    exact hitem.forget hpend hw hident (hcov w (mem_append_right _ hw))
  | case6 seen item pending hnode =>
    rw [jsonNativeLoop, if_neg hnode] at h
    cases h

/-- `_json_native` accepts native data only. -/
theorem native_of_jsonNative (hv : v.Valid) (h : jsonNative v = true) (hx : x ∈ v.subobjects) :
    x.isNativeNode = true := by
  have hconsistent : Consistent [v] := by
    intro a ha b hb
    rw [mem_singleton.1 ha, mem_singleton.1 hb]
    exact hv.identities
  rcases covered_of_loop h hconsistent v mem_cons_self x hx with
    hnode | ⟨_, -, ⟨id, hid, -⟩, -⟩
  · exact hnode
  · cases hid

/-! ### The tree of a value -/

mutual

/-- The JSON tree that a value denotes: an object is a finite map, by its members in key order. -/
def tree : PyValue → Option JsonTree
  | .null => some .null
  | .bool b => some (.bool b)
  | .int n _ => some (.int n)
  | .float => none
  | .str s _ => some (.str s)
  | .mapping _ _ items =>
    (treeMembers items).map fun rows => .obj (sortBy Prod.fst rows)
  | .sequence _ _ items => (treeItems items).map .arr
  | .other _ => none

/-- The members of a mapping. -/
def treeMembers : List (PyKey × PyValue) → Option (List (Text × JsonTree))
  | [] => some []
  | (.other, _) :: _ => none
  | (.str key _, v) :: items => do
    let tree ← tree v
    let rows ← treeMembers items
    some ((key, tree) :: rows)

/-- The items of a sequence. -/
def treeItems : List PyValue → Option (List JsonTree)
  | [] => some []
  | v :: items => do
    let tree ← tree v
    let rows ← treeItems items
    some (tree :: rows)

end

/-- Distinct keys are added one after the other. -/
theorem foldl_setItem {rows dict : List (Text × JsonTree)}
    (h : ((dict ++ rows).map (·.1)).Nodup) : rows.foldl setItem dict = dict ++ rows := by
  induction rows generalizing dict with
  | nil => simp
  | cons row rows ih =>
    have hnew : row.1 ∉ dict.map (·.1) := by
      intro hmem
      rw [map_append, map_cons, nodup_append] at h
      exact h.2.2 _ hmem _ mem_cons_self rfl
    rw [foldl_cons, setItem, if_neg hnew, ih (by simpa using h)]
    simp

variable {items : List (PyKey × PyValue)} {bytes : List UInt8} {rows : List (PyKey × List UInt8)}
  {location : Text} {exact : Bool}

theorem keys_of_canonicalMembers {rows : List (Text × JsonTree)}
    (h : canonicalMembers location items = .ok rows) :
    rows.map (·.1) = items.filterMap (·.1.text?) := by
  induction items generalizing rows with
  | nil =>
    cases h
    rfl
  | cons item items ih =>
    obtain ⟨_ | _, v⟩ := item
    · simp only [canonicalMembers, bind_ok] at h
      obtain ⟨tree, -, rest, hrest, heq⟩ := h
      cases heq
      simp [ih hrest, PyKey.text?]
    · cases h

/-- The walk over a mapping, with a key once. -/
theorem canonicalValue_mapping (h : (PyValue.mapping id exact items).DistinctKeys) :
    canonicalValue location (.mapping id exact items) =
      (canonicalMembers location items).map .obj := by
  rw [canonicalValue]
  cases hrows : canonicalMembers location items with
  | error err => rfl
  | ok rows =>
    have hkeys : ((([] : List (Text × JsonTree)) ++ rows).map (·.1)).Nodup := by
      rw [nil_append, keys_of_canonicalMembers hrows]
      exact h
    show Except.ok (obj (rows.foldl setItem [])) = _
    rw [foldl_setItem hkeys]
    rfl

theorem items_eq_map (items : List JsonTree) :
    JsonTree.canonicalItems items = items.map JsonTree.canonical := by
  induction items with
  | nil => rfl
  | cons v items ih => rw [JsonTree.canonicalItems, ih, map_cons]

mutual

/-- The walk finds the tree of a value, members not sorted yet. -/
theorem canonicalValue_tree : ∀ (v : PyValue) (location : Text),
    (∀ x ∈ v.subobjects, x.DistinctKeys) →
    (canonicalValue location v).toOption.map .canonical = v.tree
  | .null, _, _ | .bool _, _, _ | .int _ _, _, _ | .float, _, _ | .str _ _, _, _
  | .other _, _, _ => rfl
  | .mapping id exact items, location, h => by
    rw [subobjects, forall_mem_cons] at h
    rw [canonicalValue_mapping h.1, tree, ← canonicalMembers_tree items location h.2]
    cases canonicalMembers location items with
    | error err => rfl
    | ok rows =>
      show some (canonical (.obj rows)) = _
      rw [canonical_obj]
      rfl
  | .sequence id type items, location, h => by
    rw [subobjects, forall_mem_cons] at h
    rw [canonicalValue, tree, ← canonicalItems_tree items location 0 h.2]
    cases canonicalItems location 0 items with
    | error err => rfl
    | ok rows =>
      show some (canonical (.arr rows)) = _
      rw [canonical, items_eq_map]
      rfl

theorem canonicalMembers_tree : ∀ (items : List (PyKey × PyValue)) (location : Text),
    (∀ x ∈ subobjectsOfMembers items, x.DistinctKeys) →
    (canonicalMembers location items).toOption.map
      (List.map fun m => (m.1, m.2.canonical)) = treeMembers items
  | [], _, _ => rfl
  | (.other, _) :: _, _, _ => rfl
  | (.str key exact, v) :: items, location, h => by
    rw [subobjectsOfMembers, forall_mem_append] at h
    rw [canonicalMembers, treeMembers, ← canonicalValue_tree v (location ++ ascii "." ++ key) h.1,
      ← canonicalMembers_tree items location h.2]
    cases canonicalValue (location ++ ascii "." ++ key) v with
    | error err => rfl
    | ok tree => cases canonicalMembers location items <;> rfl

theorem canonicalItems_tree : ∀ (items : List PyValue) (location : Text) (index : ℕ),
    (∀ x ∈ subobjectsOfItems items, x.DistinctKeys) →
    (canonicalItems location index items).toOption.map (List.map .canonical) = treeItems items
  | [], _, _, _ => rfl
  | v :: items, location, index, h => by
    rw [subobjectsOfItems, forall_mem_append] at h
    rw [canonicalItems, treeItems, ← canonicalItems_tree items location (index + 1) h.2,
      ← canonicalValue_tree v (location ++ ascii "[" ++ digits index ++ ascii "]") h.1]
    cases canonicalValue (location ++ ascii "[" ++ digits index ++ ascii "]") v with
    | error err => rfl
    | ok tree => cases canonicalItems location (index + 1) items <;> rfl

end

/-! ### The fast path -/

mutual

/-- Native data is encoded as what the walk makes of it. -/
theorem nativeTree_eq : ∀ (v : PyValue) (location : Text),
    (∀ x ∈ v.subobjects, x.DistinctKeys ∧ x.isNativeNode = true) →
    ∃ t, nativeTree v = some t ∧ canonicalValue location v = .ok t
  | .null, _, _ | .bool _, _, _ | .int _ true, _, _ | .str _ true, _, _ => ⟨_, rfl, rfl⟩
  | .int _ false, _, h | .float, _, h | .str _ false, _, h | .other _, _, h =>
    nomatch (h _ (mem_subobjects_self _)).2
  | .mapping id exact items, location, h => by
    rw [subobjects, forall_mem_cons] at h
    obtain ⟨⟨hkeys, hnode⟩, h⟩ := h
    simp only [isNativeNode, Bool.and_eq_true, all_eq_true] at hnode
    obtain ⟨rfl, hall⟩ := hnode
    obtain ⟨rows, hrows, hwalk⟩ := nativeMembers_eq items location hall h
    refine ⟨.obj rows, by rw [nativeTree, hrows]; rfl, ?_⟩
    rw [canonicalValue_mapping hkeys, hwalk]
    rfl
  | .sequence id type items, location, h => by
    rw [subobjects, forall_mem_cons] at h
    obtain ⟨⟨-, hnode⟩, h⟩ := h
    obtain ⟨rows, hrows, hwalk⟩ := nativeItems_eq items location 0 h
    refine ⟨.arr rows, ?_, by rw [canonicalValue, hwalk]; rfl⟩
    cases type with
    | list | tuple => rw [nativeTree, hrows]; rfl
    | other => cases hnode

theorem nativeMembers_eq : ∀ (items : List (PyKey × PyValue)) (location : Text),
    (∀ item ∈ items, (match item.1 with
      | .str _ exact => exact
      | .other => false) = true) →
    (∀ x ∈ subobjectsOfMembers items, x.DistinctKeys ∧ x.isNativeNode = true) →
    ∃ rows, nativeMembers items = some rows ∧ canonicalMembers location items = .ok rows
  | [], _, _, _ => ⟨_, rfl, rfl⟩
  | (.other, _) :: _, _, hall, _ => nomatch hall _ mem_cons_self
  | (.str key exact, v) :: items, location, hall, h => by
    obtain ⟨hexact, hall⟩ := forall_mem_cons.1 hall
    rw [subobjectsOfMembers, forall_mem_append] at h
    obtain ⟨t, ht, hv⟩ := nativeTree_eq v (location ++ ascii "." ++ key) h.1
    obtain ⟨rows, hrows, hwalk⟩ := nativeMembers_eq items location hall h.2
    cases hexact
    refine ⟨(key, t) :: rows, ?_, ?_⟩
    · rw [nativeMembers, ht, hrows]; rfl
    · rw [canonicalMembers, hv, hwalk]; rfl

theorem nativeItems_eq : ∀ (items : List PyValue) (location : Text) (index : ℕ),
    (∀ x ∈ subobjectsOfItems items, x.DistinctKeys ∧ x.isNativeNode = true) →
    ∃ rows, nativeItems items = some rows ∧ canonicalItems location index items = .ok rows
  | [], _, _, _ => ⟨_, rfl, rfl⟩
  | v :: items, location, index, h => by
    rw [subobjectsOfItems, forall_mem_append] at h
    obtain ⟨t, ht, hv⟩ := nativeTree_eq v (location ++ ascii "[" ++ digits index ++ ascii "]") h.1
    obtain ⟨rows, hrows, hwalk⟩ := nativeItems_eq items location (index + 1) h.2
    refine ⟨t :: rows, ?_, ?_⟩
    · rw [nativeItems, ht, hrows]; rfl
    · rw [canonicalItems, hv, hwalk]; rfl

end

/-- The fast path gives what the checked walk gives. -/
theorem canonicalJsonBytes_eq (hv : v.Valid) : canonicalJsonBytes v = checkedBytes v := by
  unfold canonicalJsonBytes
  by_cases hnative : jsonNative v = true
  · rw [if_pos hnative]
    obtain ⟨t, ht, hwalk⟩ := nativeTree_eq v (ascii "payload") fun x hx =>
      ⟨hv.distinctKeys x hx, native_of_jsonNative hv hnative hx⟩
    have hbytes : nativeBytes v = (dumps t).bind utf8 := by
      rw [nativeBytes, ht]
      rfl
    have hchecked : checkedBytes v = (get (.stackIdentity (ascii
        "value is not canonical JSON data")) (dumps t)).bind encodeUtf8 := by
      rw [checkedBytes, hwalk]
      rfl
    rw [hbytes, hchecked]
    cases dumps t with
    | none => rfl
    | some encoded =>
      cases henc : utf8 encoded with
      | none | some => simp [henc, Except.bind, Fallible.get, encodeUtf8]
  · rw [if_neg hnative]

/-! ### Bytes and trees -/

theorem shortIntsOfMembers_eq (members : List (Text × JsonTree)) :
    shortIntsOfMembers members = members.all (shortInts ·.2) := by
  induction members with
  | nil => rfl
  | cons m members ih => rw [shortIntsOfMembers, ih, all_cons]

mutual

/-- Sorting members changes no integer. -/
theorem shortInts_canonical : ∀ t : JsonTree, shortInts t.canonical = shortInts t
  | .null | .bool _ | .int _ | .str _ => rfl
  | .arr items => by
    rw [canonical, shortInts, shortInts, shortItems_canonical]
  | .obj members => by
    rw [canonical, shortInts, shortInts, shortIntsOfMembers_eq,
      sortBy_perm.all_eq, ← shortIntsOfMembers_eq, shortMembers_canonical]

theorem shortItems_canonical : ∀ items : List JsonTree,
    shortIntsOfItems (JsonTree.canonicalItems items) = shortIntsOfItems items
  | [] => rfl
  | t :: items => by
    rw [JsonTree.canonicalItems, shortIntsOfItems, shortIntsOfItems, shortInts_canonical t,
      shortItems_canonical items]

theorem shortMembers_canonical : ∀ members : List (Text × JsonTree),
    shortIntsOfMembers (JsonTree.canonicalMembers members) = shortIntsOfMembers members
  | [] => rfl
  | (_, t) :: members => by
    rw [JsonTree.canonicalMembers, shortIntsOfMembers, shortIntsOfMembers, shortInts_canonical t,
      shortMembers_canonical members]

end

/-- The bytes of a value are those of the text of its tree. -/
theorem canonicalJsonBytes_of_tree {t : JsonTree} (hv : v.Valid) (ht : v.tree = some t)
    (hshort : shortInts t = true) : canonicalJsonBytes v = encodeUtf8 t.render := by
  rw [canonicalJsonBytes_eq hv, checkedBytes]
  have htree := canonicalValue_tree v (ascii "payload") hv.distinctKeys
  rw [ht] at htree
  obtain ⟨raw, hraw, rfl⟩ := Option.map_eq_some_iff.1 htree
  rw [ok_of_toOption hraw]
  rw [shortInts_canonical] at hshort
  show (get _ (dumps raw)).bind encodeUtf8 = _
  rw [dumps, if_pos hshort]
  rfl

/-- What a value's bytes are, if it has any. -/
theorem canonicalJsonBytes_ok (hv : v.Valid) (h : canonicalJsonBytes v = .ok bytes) :
    ∃ t, v.tree = some t ∧ shortInts t = true ∧ utf8 t.render = some bytes := by
  rw [canonicalJsonBytes_eq hv] at h
  simp only [checkedBytes, encodeUtf8, bind_ok, get_ok] at h
  obtain ⟨t, ht, encoded, henc, hbytes⟩ := h
  have htree := canonicalValue_tree v (ascii "payload") hv.distinctKeys
  rw [ht] at htree
  unfold dumps at henc
  split_ifs at henc with hshort
  cases henc
  exact ⟨t.canonical, htree.symm, (shortInts_canonical t).trans hshort, hbytes⟩

/-- Bytes are equal exactly when trees are. -/
theorem canonicalJsonBytes_inj {x y : List UInt8} (hv : v.Valid) (hw : w.Valid)
    (hx : canonicalJsonBytes v = .ok x) (hy : canonicalJsonBytes w = .ok y) :
    x = y ↔ v.tree = w.tree := by
  obtain ⟨t, ht, -, hxbytes⟩ := canonicalJsonBytes_ok hv hx
  obtain ⟨u, hu, -, hybytes⟩ := canonicalJsonBytes_ok hw hy
  rw [ht, hu, Option.some.injEq]
  constructor
  · rintro rfl
    exact render_injective (utf8_inj hxbytes hybytes)
  · rintro rfl
    exact Option.some.inj (hxbytes.symm.trans hybytes)

/-! ### Objects from encoded members -/

/-- A member with its tree and its bytes. -/
structure EncodedMember where
  key : Text
  tree : JsonTree
  bytes : List UInt8

namespace EncodedMember

/-- The member of the tree. -/
def member (m : EncodedMember) : Text × JsonTree := (m.key, m.tree)

/-- The member of the bytes. -/
def row (m : EncodedMember) : Text × List UInt8 := (m.key, m.bytes)

/-- The text of the member. -/
def part (m : EncodedMember) : Text := quote m.key ++ 58 :: m.tree.render

/-- The bytes are those of the tree. -/
def Exact (m : EncodedMember) : Prop := shortInts m.tree = true ∧ utf8 m.tree.render = some m.bytes

/-- The member is written for a key and its bytes. -/
def Writes (row : PyKey × List UInt8) (m : EncodedMember) : Prop :=
  row.1.text? = some m.key ∧ row.2 = m.bytes

theorem memberBytes_row {m : EncodedMember} (h : m.Exact) :
    memberBytes m.row = get .unicodeEncode (utf8 m.part) := by
  have hcolon : utf8 (58 :: m.tree.render) = some (58 :: m.bytes) := by
    rw [← singleton_append, utf8_append, h.2]
    rfl
  rw [part, utf8_append, hcolon, memberBytes, encodeUtf8]
  show (get _ (utf8 (quote m.key)) >>= _) = _
  cases utf8 (quote m.key) <;> rfl

/-- Members are written one by one. -/
theorem mapM_memberBytes {ms : List EncodedMember} (h : ∀ m ∈ ms, m.Exact) :
    (ms.map row).mapM memberBytes = get .unicodeEncode ((ms.map part).mapM utf8) := by
  rw [← mapM_get]
  induction ms with
  | nil => rfl
  | cons m ms ih =>
    obtain ⟨hm, hms⟩ := forall_mem_cons.1 h
    simp only [map_cons, mapM_cons, memberBytes_row hm, ih hms]

end EncodedMember

open EncodedMember in
/-- Encoded members are joined to the bytes of the text of their object. -/
theorem canonicalObjectBytes_eq {members : List (PyKey × List UInt8)} {ms : List EncodedMember}
    (hwrites : List.Forall₂ Writes members ms) (hexact : ∀ m ∈ ms, m.Exact) :
    canonicalObjectBytes members = encodeUtf8 (obj (sortBy Prod.fst (ms.map member))).render := by
  have hrows : (members.mapM fun m =>
      get (IdentityFault.stackIdentity (ascii "canonical object keys must be strings"))
        (m.1.text?.map fun key => (key, m.2))) = .ok (ms.map row) := by
    refine mapM_of_forall₂ (forall₂_map_right_iff.2 (hwrites.imp fun row m hm => ?_))
    rw [hm.1, hm.2]
    rfl
  have hbytes : sortBy Prod.fst (ms.map row) = (sortBy EncodedMember.key ms).map row :=
    (map_sortBy fun _ => rfl).symm
  have htrees : sortBy Prod.fst (ms.map member) =
      (sortBy EncodedMember.key ms).map member := (map_sortBy fun _ => rfl).symm
  have hsort : ∀ m ∈ sortBy EncodedMember.key ms, m.Exact := fun m hm => hexact m (mem_sortBy.1 hm)
  have hopen : utf8 [123] = some [123] := rfl
  have hclose : utf8 [125] = some [125] := rfl
  have hcomma : utf8 [44] = some [44] := rfl
  have htext : (obj (sortBy Prod.fst (ms.map member))).render = [123] ++
      (List.intercalate [44] ((sortBy EncodedMember.key ms).map part) ++ [125]) := by
    rw [htrees, render_obj, map_map]
    rfl
  rw [htext, encodeUtf8, utf8_append, utf8_append, utf8_intercalate hcomma, hopen, hclose]
  simp only [canonicalObjectBytes, hrows]
  show ((sortBy Prod.fst (ms.map row)).mapM memberBytes >>= _) = _
  rw [hbytes, mapM_memberBytes hsort]
  cases ((sortBy EncodedMember.key ms).map part).mapM utf8 <;> rfl

theorem Valid.child (hv : v.Valid) (hw : w ∈ v.children) : w.Valid :=
  ⟨fun x hx => hv.distinctKeys x (mem_of_child hw hx),
    fun x hx y hy => hv.identities x (mem_of_child hw hx) y (mem_of_child hw hy)⟩

/-- The row has the key of an item and the bytes of its value. -/
def EncodesItem (item : PyKey × PyValue) (row : PyKey × List UInt8) : Prop :=
  item.1.text?.isSome ∧ row.1 = item.1 ∧ canonicalJsonBytes item.2 = .ok row.2

/-- The members that encoded items write. -/
theorem exists_encodedMembers (hvalid : ∀ item ∈ items, item.2.Valid)
    (h : List.Forall₂ EncodesItem items rows) :
    ∃ ms, List.Forall₂ EncodedMember.Writes rows ms ∧ (∀ m ∈ ms, EncodedMember.Exact m) ∧
      treeMembers items = some (ms.map EncodedMember.member) := by
  induction h with
  | nil => exact ⟨[], .nil, forall_mem_nil _, rfl⟩
  | @cons item row items rows hrow _ ih =>
    obtain ⟨hitem, hitems⟩ := forall_mem_cons.1 hvalid
    obtain ⟨ms, hwrites, hexact, htrees⟩ := ih hitems
    obtain ⟨hkey, hsame, hbytes⟩ := hrow
    obtain ⟨t, ht, hshort, hutf8⟩ := canonicalJsonBytes_ok hitem hbytes
    obtain ⟨_ | _, v⟩ := item
    · rename_i key exact
      refine ⟨⟨key, t, row.2⟩ :: ms, .cons ⟨by rw [hsame]; rfl, rfl⟩ hwrites,
        forall_mem_cons.2 ⟨⟨hshort, hutf8⟩, hexact⟩, ?_⟩
      rw [treeMembers, htrees, ht]
      rfl
    · cases hkey

/-- The bytes of an object from the bytes of its members. -/
theorem canonicalObjectBytes_mapping (hvalid : (PyValue.mapping id exact items).Valid)
    (h : List.Forall₂ EncodesItem items rows) :
    canonicalObjectBytes rows = canonicalJsonBytes (.mapping id exact items) := by
  have hvals : ∀ item ∈ items, item.2.Valid := fun item hitem =>
    hvalid.child (mem_map_of_mem hitem)
  obtain ⟨ms, hwrites, hexact, htrees⟩ := exists_encodedMembers hvals h
  have htree : (PyValue.mapping id exact items).tree =
      some (.obj (sortBy Prod.fst (ms.map EncodedMember.member))) := by
    rw [tree, htrees]
    rfl
  have hshort : shortInts (.obj (sortBy Prod.fst (ms.map EncodedMember.member))) = true := by
    rw [shortInts, shortIntsOfMembers_eq, sortBy_perm.all_eq, all_eq_true]
    intro row hrow
    obtain ⟨m, hm, rfl⟩ := mem_map.1 hrow
    exact (hexact m hm).1
  rw [canonicalObjectBytes_eq hwrites hexact, canonicalJsonBytes_of_tree hvalid htree hshort]

/-! ### Preimages -/

theorem valid_of_leaf (hleaf : v.subobjects = [v]) (hkeys : v.DistinctKeys) : v.Valid := by
  refine ⟨?_, ?_⟩ <;> rw [hleaf]
  · exact forall_mem_singleton.2 hkeys
  · intro x hx y hy
    rw [mem_singleton.1 hx, mem_singleton.1 hy]
    exact fun _ _ => rfl

/-- What is hashed is the text of an envelope of the domain, the payload and the version. -/
theorem digestPreimage_ok {domain pay schemaVersion : PyValue} (hvalid : pay.Valid)
    (h : canonicalDigestPreimage domain pay schemaVersion = .ok bytes) :
    ∃ s n t, domain.str? = some s ∧ schemaVersion.int? = some n ∧ pay.tree = some t ∧
      utf8 (obj [(ascii "domain", .str s), (ascii "payload", t),
        (ascii "schema_version", .int n)]).render = some bytes := by
  simp only [canonicalDigestPreimage, canonicalPayloadPreimage, bind_ok, exists_check] at h
  obtain ⟨payloadBytes, hpay, ⟨s, hs, -⟩, ⟨n, hn, -⟩, domainBytes, hdom, versionBytes,
    hver, hobj⟩ := h
  have hstr : ∃ exact, domain = .str s exact := by
    cases domain <;> simp_all [str?]
  have hint : ∃ exact, schemaVersion = .int n exact := by
    cases schemaVersion <;> simp_all [int?]
  obtain ⟨exact, rfl⟩ := hstr
  obtain ⟨exact', rfl⟩ := hint
  obtain ⟨t, ht, hshort, hutf8⟩ := canonicalJsonBytes_ok hvalid hpay
  obtain ⟨td, htd, hshortd, hutf8d⟩ :=
    canonicalJsonBytes_ok (v := .str s exact) (valid_of_leaf rfl trivial) hdom
  obtain ⟨tv, htv, hshortv, hutf8v⟩ :=
    canonicalJsonBytes_ok (v := .int n exact') (valid_of_leaf rfl trivial) hver
  cases htd
  cases htv
  let ms : List EncodedMember := [⟨ascii "domain", .str s, domainBytes⟩,
    ⟨ascii "payload", t, payloadBytes⟩, ⟨ascii "schema_version", .int n, versionBytes⟩]
  have hexact : ∀ m ∈ ms, EncodedMember.Exact m := by
    simp only [ms, forall_mem_cons]
    exact ⟨⟨hshortd, hutf8d⟩, ⟨hshort, hutf8⟩, ⟨hshortv, hutf8v⟩, forall_mem_nil _⟩
  have hwrites : List.Forall₂ EncodedMember.Writes [(.str (ascii "domain") true, domainBytes),
      (.str (ascii "payload") true, payloadBytes),
      (.str (ascii "schema_version") true, versionBytes)] ms :=
    .cons ⟨rfl, rfl⟩ (.cons ⟨rfl, rfl⟩ (.cons ⟨rfl, rfl⟩ .nil))
  rw [canonicalObjectBytes_eq hwrites hexact, encodeUtf8, get_ok, sortBy_eq_self] at hobj
  · exact ⟨s, n, t, rfl, rfl, ht, hobj⟩
  · -- the keys of the envelope are in order already
    have hkeys : ([ascii "domain", ascii "payload", ascii "schema_version"] : List Text).Pairwise
        (· ≤ ·) := by decide
    exact pairwise_map.1 hkeys

end PyValue

/-- **Canonical bytes stand for JSON trees.**  Two values have the same bytes exactly when they
denote the same tree; the fast path gives what the checked walk gives; an object's bytes can be
joined from its members' bytes; and what is hashed tells the domain, the payload's tree and the
schema version. -/
theorem canonical_json_identity :
    (∀ (a b : PyObject) (x y : List UInt8), canonicalJsonBytes a.1 = .ok x →
      canonicalJsonBytes b.1 = .ok y → (x = y ↔ a.1.tree = b.1.tree)) ∧
    (∀ v : PyObject, canonicalJsonBytes v.1 = checkedBytes v.1) ∧
    (∀ (id : ℕ) (exact : Bool) (items : List (PyKey × PyValue)) (rows : List (PyKey × List UInt8)),
      (PyValue.mapping id exact items).Valid → List.Forall₂ PyValue.EncodesItem items rows →
      canonicalObjectBytes rows = canonicalJsonBytes (.mapping id exact items)) ∧
    ∀ (domain domain' version version' : PyValue) (payload payload' : PyObject) (x : List UInt8),
      canonicalDigestPreimage domain payload.1 version = .ok x →
      canonicalDigestPreimage domain' payload'.1 version' = .ok x →
      domain.str? = domain'.str? ∧ payload.1.tree = payload'.1.tree ∧
        version.int? = version'.int? := by
  refine ⟨fun a b x y hx hy => PyValue.canonicalJsonBytes_inj a.2 b.2 hx hy,
    fun v => PyValue.canonicalJsonBytes_eq v.2,
    fun id exact items rows hvalid h => PyValue.canonicalObjectBytes_mapping hvalid h, ?_⟩
  intro domain domain' version version' payload payload' x h h'
  obtain ⟨s, n, t, hs, hn, ht, hbytes⟩ := PyValue.digestPreimage_ok payload.2 h
  obtain ⟨s', n', t', hs', hn', ht', hbytes'⟩ := PyValue.digestPreimage_ok payload'.2 h'
  have hsame := render_injective (utf8_inj hbytes hbytes')
  obtain ⟨rfl, rfl, rfl⟩ := hsame
  exact ⟨hs.trans hs'.symm, ht.trans ht'.symm, hn.trans hn'.symm⟩

end Cacheon
