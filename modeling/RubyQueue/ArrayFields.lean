/-
  `arrayfields.rb`, and the jobs and tuples that share its field sets.

  An array with fields points to a `FieldSet`, which points to a list of names and holds their
  positions.  `FieldSet.new` keeps one for each list of names, and `[]=` with a name the set does not
  have appends it to the list: to `QDB::FIELDS`, for a job or a tuple.  The objects and what they
  share are made explicit in a heap.

  `Job#initialize` assigns `kvs.keys - self.fields`: the keys that are no fields.  Those grow
  `QDB::FIELDS` for everyone, and the values of the others are not taken at all.

  * `Inv`                  — no field set has grown;
  * `set_known`, `set_unknown` — an assignment to a field keeps the heap so, any other grows the list;
  * `step_kept_iff`        — one operation;
  * `run_kept_iff`         — the main result, for runs of operations.

  The arrays of query results get field lists of their own and are not modelled.
-/
import Mathlib.Data.List.AList
import RubyQueue.Base.Run
import RubyQueue.Listing

namespace RubyQueue.ArrayFields

open RubyQueue.Run
open RubyQueue.Listing (fieldNames)

/-! ## Objects -/

abbrev Value := Option String
abbrev Ref := Nat

/-- A hash with strings for keys. -/
abbrev Hash := AList fun _ : String => Value

/-- `ArrayFields::FieldSet`. -/
structure FieldSet where
  fields : Ref
  fieldpos : AList fun _ : String => Nat

/-- An array whose `@fieldset` is set. -/
structure Fielded where
  elems : List Value
  fieldset : Ref

/-- An entry of `@sets`: the hash value its key had when it was put in, the key and the value. -/
structure CacheEntry where
  stored : Nat
  key : Ref
  fieldset : Ref

/-- The lists of names, the field sets with their cache, and the arrays, each by its reference. -/
structure Heap where
  lists : List (List String)
  fieldsets : List FieldSet
  sets : List CacheEntry
  arrays : List Fielded

/-- Where the array `QDB::FIELDS` is. -/
def FIELDS : Ref := 0

/-- The heap once the library is loaded. -/
def loaded : Heap := ⟨[fieldNames], [], [], []⟩

namespace Heap

/-- A list of names. -/
def list (h : Heap) (r : Ref) : List String := h.lists.getD r []

/-- A new array with a field set. -/
def newArray (h : Heap) (elems : List Value) (fieldset : Ref) : Heap × Ref :=
  ({ h with arrays := h.arrays ++ [⟨elems, fieldset⟩] }, h.arrays.length)

end Heap

/-! ## `arrayfields.rb` -/

/-- `@fieldpos` of a list of names. -/
def positions (fields : List String) : AList fun _ : String => Nat :=
  fields.foldl (fun h f => h.insert f h.keys.length) ∅

/-- `FieldSet.new`.  An entry is found by the hash value it was stored under, and its key as it is
    now.  `hash` is `Array#hash`. -/
def fieldSetNew (hash : List String → Nat) (h : Heap) (fields : Ref) : Heap × Ref :=
  let names := h.list fields
  match h.sets.find? fun e => e.stored = hash names ∧ h.list e.key = names with
  | some e => (h, e.fieldset)
  | none =>
    let r := h.fieldsets.length
    ({ h with
      fieldsets := h.fieldsets ++ [⟨fields, positions names⟩]
      sets := h.sets ++ [⟨hash names, fields, r⟩] }, r)

/-- `Array#[]=` with a position. -/
def store (elems : List Value) (pos : Nat) (v : Value) : List Value :=
  if pos < elems.length then elems.set pos v
  else elems ++ List.replicate (pos - elems.length) none ++ [v]

/-- `ArrayFields#[]`. -/
def Heap.get (h : Heap) (r : Ref) (key : String) : Value := do
  let a ← h.arrays[r]?
  let fs ← h.fieldsets[a.fieldset]?
  let pos ← fs.fieldpos.lookup key
  (a.elems[pos]?).join

/-- `ArrayFields#[]=`; there may be no such array. -/
def Heap.set (h : Heap) (r : Ref) (key : String) (v : Value) : Option Heap := do
  let a ← h.arrays[r]?
  let fs ← h.fieldsets[a.fieldset]?
  match fs.fieldpos.lookup key with
  | some pos => some { h with arrays := h.arrays.set r { a with elems := store a.elems pos v } }
  | none =>
    let pos := a.elems.length
    some { h with
      lists := h.lists.modify fs.fields (· ++ [key])
      fieldsets := h.fieldsets.set a.fieldset { fs with fieldpos := fs.fieldpos.insert key pos }
      arrays := h.arrays.set r { a with elems := store a.elems pos v } }

/-- Several assignments to one array. -/
def Heap.setAll (r : Ref) (v : String → Value) : List String → Heap → Option Heap
  | [], h => some h
  | key :: keys, h => do
    let h ← h.set r key (v key)
    Heap.setAll r v keys h

/-! ## Jobs and tuples -/

/-- `kvs[k]`. -/
def hget (kvs : Hash) (k : String) : Value := (kvs.lookup k).join

/-- `Job#initialize`. -/
def jobNew (hash : List String → Nat) (kvs : Hash) (h : Heap) : Option Heap :=
  let (h, fs) := fieldSetNew hash h FIELDS
  let (h, job) := h.newArray [] fs
  let fields := (h.fieldsets[fs]?).elim [] fun fs => h.list fs.fields
  Heap.setAll job (hget kvs) (kvs.keys.filter fun k => k ∉ fields) h

/-- `QDB.tuple`. -/
def tuple (hash : List String → Nat) (h : Heap) : Heap × Ref :=
  let size := (h.list FIELDS).length
  let (h, fs) := fieldSetNew hash h FIELDS
  h.newArray (List.replicate size none) fs

/-- The fields `submit` sets in its tuple. -/
def submitted : List String :=
  ["command", "priority", "tag", "runner", "restartable", "state", "submitted", "submitter",
    "stdin", "stdout", "stderr", "data"]

/-- What can be done with jobs and tuples. -/
inductive Op
  /-- `Job::new(kvs)`. -/
  | job (kvs : Hash)
  /-- `a[key] = v`, `a` being a job or a tuple. -/
  | assign (a : Ref) (key : String) (v : Value)
  /-- `QDB::tuple`. -/
  | tuple
  /-- The tuple `submit` makes for one job, with its values. -/
  | submit (v : String → Value)

/-- One operation. -/
def step (hash : List String → Nat) (h : Heap) : Op → Option Heap
  | .job kvs => jobNew hash kvs h
  | .assign a key v => h.set a key v
  | .tuple => some (tuple hash h).1
  | .submit v => Heap.setAll (tuple hash h).2 v submitted (tuple hash h).1

/-! ## What is asked of an operation -/

/-- The number of values the insert statement gets from an array. -/
def Heap.size (h : Heap) (r : Ref) : Nat := (h.arrays[r]?).elim 0 fun a => a.elems.length

/-- The fields of an array. -/
def Heap.fieldsOf (h : Heap) (r : Ref) : List String :=
  (h.arrays[r]?.bind fun a => h.fieldsets[a.fieldset]?).elim [] fun fs => h.list fs.fields

/-- After the operation `QDB::FIELDS` is what it was.  A new job has the values it was made from, a
    new tuple has the 18 fields, and so many values are inserted. -/
def Kept (h : Heap) (op : Op) (h' : Heap) : Prop :=
  h'.list FIELDS = fieldNames ∧
  match op with
  | .job kvs => ∀ f ∈ fieldNames, ∀ v, kvs.lookup f = some v → h'.get h.arrays.length f = v
  | .assign _ _ _ => True
  | .tuple => h'.fieldsOf h.arrays.length = fieldNames ∧ h'.size h.arrays.length = 18
  | .submit _ => h'.size h.arrays.length = 18

/-- The operation names fields only, and makes a job from nils only. -/
def Harmless : Op → Prop
  | .job kvs => ∀ k v, kvs.lookup k = some v → k ∈ fieldNames ∧ v = none
  | .assign _ key _ => key ∈ fieldNames
  | _ => True

/-! ## The invariant -/

/-- No list has grown: every field set is that of `QDB::FIELDS`, and so are the cached ones. -/
structure Inv (h : Heap) : Prop where
  lists : h.lists = [fieldNames]
  fieldsets : ∀ fs ∈ h.fieldsets, fs = ⟨FIELDS, positions fieldNames⟩
  sets : ∀ e ∈ h.sets, e.fieldset < h.fieldsets.length
  arrays : ∀ a ∈ h.arrays, a.fieldset < h.fieldsets.length

theorem inv_loaded : Inv loaded := ⟨rfl, by simp [loaded], by simp [loaded], by simp [loaded]⟩

theorem Inv.list_FIELDS {h : Heap} (hi : Inv h) : h.list FIELDS = fieldNames := by
  simp [Heap.list, hi.lists, FIELDS]

theorem length_fieldNames : fieldNames.length = 18 := rfl

/-- The positions of the fields are those of a tuple. -/
theorem positions_known {k : String} (hk : k ∈ fieldNames) :
    ∃ pos, (positions fieldNames).lookup k = some pos ∧ pos < 18 := by
  have hall : fieldNames.all
      (fun k => ((positions fieldNames).lookup k).any fun pos => pos < 18) = true := by decide
  have hk := List.all_eq_true.mp hall k hk
  obtain ⟨pos, hpos, hlt⟩ := (Option.any_eq_true _ _).mp hk
  exact ⟨pos, hpos, of_decide_eq_true hlt⟩

theorem positions_unknown {k : String} (hk : k ∉ fieldNames) :
    (positions fieldNames).lookup k = none := by
  have hkeys : (positions fieldNames).keys = fieldNames.reverse := by decide
  rw [AList.lookup_eq_none, AList.mem_keys, hkeys, List.mem_reverse]
  exact hk

/-! ## New arrays -/

section
variable {h h' : Heap} {hash : List String → Nat}

/-- `fields=` finds a field set or makes one. -/
theorem fieldSetNew_cases (hash : List String → Nat) (h : Heap) (fields : Ref) :
    (∃ e ∈ h.sets, fieldSetNew hash h fields = (h, e.fieldset)) ∨
      fieldSetNew hash h fields =
        ({ h with
          fieldsets := h.fieldsets ++ [⟨fields, positions (h.list fields)⟩]
          sets := h.sets ++ [⟨hash (h.list fields), fields, h.fieldsets.length⟩] },
         h.fieldsets.length) := by
  unfold fieldSetNew
  simp only
  split
  · next e he => exact Or.inl ⟨e, List.mem_of_find?_eq_some he, rfl⟩
  · exact Or.inr rfl

/-- **`fields=`.**  The cached field set of `QDB::FIELDS`, or a new one, which is the same. -/
theorem fieldSetNew_inv (hi : Inv h) :
    Inv (fieldSetNew hash h FIELDS).1 ∧
      (fieldSetNew hash h FIELDS).2 < (fieldSetNew hash h FIELDS).1.fieldsets.length ∧
      (fieldSetNew hash h FIELDS).1.arrays = h.arrays := by
  rcases fieldSetNew_cases hash h FIELDS with ⟨e, he, heq⟩ | heq
  · rw [heq]
    exact ⟨hi, hi.sets e he, rfl⟩
  · rw [heq, hi.list_FIELDS]
    refine ⟨⟨hi.lists, ?_, ?_, ?_⟩, by simp, rfl⟩
    · intro fs hfs
      rcases List.mem_append.mp hfs with hfs | hfs
      · exact hi.fieldsets fs hfs
      · exact List.mem_singleton.mp hfs
    · intro e he
      rw [List.length_append]
      rcases List.mem_append.mp he with he | he
      · exact Nat.lt_add_right _ (hi.sets e he)
      · obtain rfl := List.mem_singleton.mp he
        exact Nat.lt_succ_self _
    · intro a ha
      rw [List.length_append]
      exact Nat.lt_add_right _ (hi.arrays a ha)

/-- An array behind the ones that are there. -/
theorem newArray_inv (hi : Inv h) {fs : Ref} (hfs : fs < h.fieldsets.length) (elems : List Value) :
    Inv (h.newArray elems fs).1 := by
  refine ⟨hi.lists, hi.fieldsets, hi.sets, fun a ha => ?_⟩
  rcases List.mem_append.mp ha with ha | ha
  · exact hi.arrays a ha
  · obtain rfl := List.mem_singleton.mp ha
    exact hfs

/-- The field set of an array. -/
theorem Inv.fieldset (hi : Inv h) {a : Fielded} (ha : a ∈ h.arrays) :
    h.fieldsets[a.fieldset]? = some ⟨FIELDS, positions fieldNames⟩ := by
  rw [List.getElem?_eq_getElem (hi.arrays a ha), hi.fieldsets _ (List.getElem_mem _)]

/-! ## Assignments -/

theorem length_store {elems : List Value} {pos : Nat} (hpos : pos < elems.length) (v : Value) :
    (store elems pos v).length = elems.length := by
  rw [store, if_pos hpos, List.length_set]

/-- **To a field**: the element changes, and nothing that is shared. -/
theorem set_known (hi : Inv h) {r : Ref} {a : Fielded} {k : String} (v : Value)
    (ha : h.arrays[r]? = some a) (hk : k ∈ fieldNames) :
    ∃ pos, pos < 18 ∧ h.set r k v
      = some { h with arrays := h.arrays.set r { a with elems := store a.elems pos v } } := by
  obtain ⟨pos, hpos, hlt⟩ := positions_known hk
  refine ⟨pos, hlt, ?_⟩
  unfold Heap.set
  rw [ha, Option.bind_eq_bind, Option.bind_some, hi.fieldset (List.mem_of_getElem? ha)]
  simp [hpos]

theorem set_known_inv (hi : Inv h) {r : Ref} {a : Fielded} (elems : List Value)
    (ha : h.arrays[r]? = some a) :
    Inv { h with arrays := h.arrays.set r { a with elems := elems } } := by
  refine ⟨hi.lists, hi.fieldsets, hi.sets, fun b hb => ?_⟩
  rcases List.mem_or_eq_of_mem_set hb with hb | rfl
  · exact hi.arrays b hb
  · exact hi.arrays a (List.mem_of_getElem? ha)

/-- **To anything else**: the name is a field from now on, of everyone. -/
theorem set_unknown (hi : Inv h) {r : Ref} {k : String} {v : Value} (hk : k ∉ fieldNames)
    (hs : h.set r k v = some h') : h'.list FIELDS = fieldNames ++ [k] := by
  unfold Heap.set at hs
  obtain ⟨a, ha, hs⟩ := Option.bind_eq_some_iff.mp hs
  rw [Option.bind_eq_bind, hi.fieldset (List.mem_of_getElem? ha)] at hs
  simp only [Option.bind_some, positions_unknown hk, Option.some.injEq] at hs
  subst hs
  simp [Heap.list, hi.lists, FIELDS]

/-- The list never gets shorter. -/
theorem set_grows {r : Ref} {k : String} {v : Value} (hs : h.set r k v = some h') :
    (h.list FIELDS).length ≤ (h'.list FIELDS).length := by
  unfold Heap.set at hs
  obtain ⟨a, -, hs⟩ := Option.bind_eq_some_iff.mp hs
  obtain ⟨fs, -, hs⟩ := Option.bind_eq_some_iff.mp hs
  split at hs
  · obtain rfl := Option.some.inj hs
    exact Nat.le_refl _
  · obtain rfl := Option.some.inj hs
    simp only [Heap.list, List.getD_eq_getElem?_getD, List.getElem?_modify]
    cases h.lists[FIELDS]? with
    | none => simp
    | some l =>
      by_cases hr : fs.fields = FIELDS <;> simp [hr]

theorem setAll_grows {r : Ref} {v : String → Value} : ∀ {keys : List String} {h h' : Heap},
    Heap.setAll r v keys h = some h' → (h.list FIELDS).length ≤ (h'.list FIELDS).length
  | [], h, h', hs => by
    obtain rfl := Option.some.inj hs
    exact Nat.le_refl _
  | k :: keys, h, h', hs => by
    obtain ⟨h₁, hfirst, hrest⟩ := Option.bind_eq_some_iff.mp hs
    exact Nat.le_trans (set_grows hfirst) (setAll_grows hrest)

/-- Assignments to fields, of an array that has all of them. -/
theorem setAll_known {r : Ref} {v : String → Value} : ∀ {keys : List String} {h : Heap}
    {a : Fielded}, Inv h → (∀ k ∈ keys, k ∈ fieldNames) → h.arrays[r]? = some a →
    a.elems.length = 18 → ∃ h', Heap.setAll r v keys h = some h' ∧ Inv h' ∧ h'.size r = 18
  | [], h, a, hi, _, ha, hlen => ⟨h, rfl, hi, by simp [Heap.size, ha, hlen]⟩
  | k :: keys, h, a, hi, hkeys, ha, hlen => by
    obtain ⟨pos, hpos, hset⟩ := set_known hi (v k) ha (hkeys k List.mem_cons_self)
    have hr : r < h.arrays.length := (List.getElem?_eq_some_iff.mp ha).1
    obtain ⟨h', hrest, hi', hsize⟩ := @setAll_known r v keys _ _
      (set_known_inv hi (store a.elems pos (v k)) ha) (fun k hk => hkeys k (List.mem_cons_of_mem _ hk))
      (List.getElem?_set_self hr) (by rw [length_store (hlen ▸ hpos), hlen])
    refine ⟨h', ?_, hi', hsize⟩
    rw [Heap.setAll, hset]
    exact hrest

/-! ## New jobs and tuples -/

/-- The heap with one more array, of the elements given and the fields of `QDB::FIELDS`. -/
def fresh (hash : List String → Nat) (h : Heap) (elems : List Value) : Heap :=
  ((fieldSetNew hash h FIELDS).1.newArray elems (fieldSetNew hash h FIELDS).2).1

theorem fresh_inv (hi : Inv h) (elems : List Value) : Inv (fresh hash h elems) :=
  newArray_inv (fieldSetNew_inv hi).1 (fieldSetNew_inv hi).2.1 elems

theorem fresh_array (hi : Inv h) (elems : List Value) :
    (fresh hash h elems).arrays[h.arrays.length]?
      = some ⟨elems, (fieldSetNew hash h FIELDS).2⟩ := by
  simp [fresh, Heap.newArray, (fieldSetNew_inv hi).2.2]

theorem fresh_fieldset (hi : Inv h) (elems : List Value) :
    (fresh hash h elems).fieldsets[(fieldSetNew hash h FIELDS).2]?
      = some ⟨FIELDS, positions fieldNames⟩ :=
  (fresh_inv hi elems).fieldset (List.mem_of_getElem? (fresh_array hi elems))

/-- A tuple has the fields, and a place for each. -/
theorem tuple_eq (hi : Inv h) : tuple hash h
    = (fresh hash h (List.replicate 18 none), h.arrays.length) := by
  refine Prod.ext ?_ ?_
  · rw [tuple, hi.list_FIELDS, length_fieldNames]
    rfl
  · show (fieldSetNew hash h FIELDS).1.arrays.length = _
    rw [(fieldSetNew_inv hi).2.2]

/-- A job assigns to itself the keys that are no fields. -/
theorem jobNew_eq (hi : Inv h) (kvs : Hash) : jobNew hash kvs h
    = Heap.setAll h.arrays.length (hget kvs) (kvs.keys.filter fun k => k ∉ fieldNames)
        (fresh hash h []) := by
  have hfields : (((fresh hash h []).fieldsets[(fieldSetNew hash h FIELDS).2]?).elim []
      fun fs => (fresh hash h []).list fs.fields) = fieldNames := by
    rw [fresh_fieldset hi]
    exact (fresh_inv hi []).list_FIELDS
  have harray : ((fieldSetNew hash h FIELDS).1.newArray [] (fieldSetNew hash h FIELDS).2).2
      = h.arrays.length := by
    rw [Heap.newArray, (fieldSetNew_inv hi).2.2]
  unfold jobNew
  simp only [harray]
  show Heap.setAll _ _ (kvs.keys.filter fun k =>
    k ∉ ((fresh hash h []).fieldsets[(fieldSetNew hash h FIELDS).2]?).elim []
      fun fs => (fresh hash h []).list fs.fields) (fresh hash h []) = _
  rw [hfields]

/-- An array with no elements has nil for everything. -/
theorem get_empty {r fs : Ref} (ha : h.arrays[r]? = some ⟨[], fs⟩) (k : String) :
    h.get r k = none := by
  unfold Heap.get
  rw [ha]
  simp

/-! ## One operation -/

theorem step_job (hi : Inv h) {kvs : Hash} (hs : step hash h (.job kvs) = some h') :
    (Kept h (.job kvs) h' ↔ Harmless (.job kvs)) ∧ (Harmless (.job kvs) → Inv h') := by
  have hs : jobNew hash kvs h = some h' := hs
  rw [jobNew_eq hi] at hs
  have hmem : ∀ k v, kvs.lookup k = some v → k ∈ kvs.keys := by
    intro k v hk
    by_contra hno
    rw [AList.lookup_eq_none.mpr (fun h => hno (AList.mem_keys.mp h))] at hk
    cases hk
  cases hunknown : kvs.keys.filter fun k => k ∉ fieldNames with
  | nil =>
    -- nothing is assigned: the job is empty
    rw [hunknown] at hs
    obtain rfl := Option.some.inj hs
    have hknown : ∀ k ∈ kvs.keys, k ∈ fieldNames := by
      simpa [List.filter_eq_nil_iff] using hunknown
    refine ⟨?_, fun _ => fresh_inv hi []⟩
    constructor
    · rintro ⟨-, hread⟩ k v hk
      have hfield := hknown k (hmem k v hk)
      refine ⟨hfield, ?_⟩
      rw [← hread k hfield v hk, get_empty (fresh_array hi [])]
    · intro hnil
      refine ⟨(fresh_inv hi []).list_FIELDS, fun f _ v hf => ?_⟩
      rw [get_empty (fresh_array hi []), (hnil f v hf).2]
  | cons k ks =>
    -- the first of them grows the list for good
    have hk : k ∈ kvs.keys ∧ k ∉ fieldNames := by
      have : k ∈ kvs.keys.filter fun k => k ∉ fieldNames := hunknown ▸ List.mem_cons_self
      simpa using List.mem_filter.mp this
    rw [hunknown] at hs
    obtain ⟨h₁, hfirst, hrest⟩ := Option.bind_eq_some_iff.mp hs
    have hlist := set_unknown (fresh_inv hi []) hk.2 hfirst
    have hgrown := setAll_grows hrest
    have hnot : ¬ Harmless (.job kvs) := by
      intro hnil
      obtain ⟨v, hv⟩ : ∃ v, kvs.lookup k = some v :=
        Option.ne_none_iff_exists'.mp fun hno =>
          AList.lookup_eq_none.mp hno (AList.mem_keys.mpr hk.1)
      exact hk.2 (hnil k v hv).1
    refine ⟨⟨fun hkept => ?_, fun hh => absurd hh hnot⟩, fun hh => absurd hh hnot⟩
    rw [hkept.1, hlist, List.length_append] at hgrown
    exact absurd hgrown (Nat.not_succ_le_self _)

/-- **One operation** from a heap where no list has grown. -/
theorem step_kept_iff (hi : Inv h) {op : Op} (hs : step hash h op = some h') :
    (Kept h op h' ↔ Harmless op) ∧ (Harmless op → Inv h') := by
  cases op with
  | job kvs => exact step_job hi hs
  | assign r k v =>
    have hs : h.set r k v = some h' := hs
    by_cases hk : k ∈ fieldNames
    · obtain ⟨a, ha, -⟩ := Option.bind_eq_some_iff.mp hs
      obtain ⟨pos, -, hset⟩ := set_known hi v ha hk
      obtain rfl := Option.some.inj (hset.symm.trans hs)
      have hi' := set_known_inv hi (store a.elems pos v) ha
      exact ⟨⟨fun _ => hk, fun _ => ⟨hi'.list_FIELDS, trivial⟩⟩, fun _ => hi'⟩
    · refine ⟨⟨fun hkept => ?_, fun hh => absurd hh hk⟩, fun hh => absurd hh hk⟩
      have hlist := hkept.1
      rw [set_unknown hi hk hs] at hlist
      exact absurd (congrArg List.length hlist) (by simp)
  | tuple =>
    have hs : some (tuple hash h).1 = some h' := hs
    rw [tuple_eq hi] at hs
    obtain rfl := Option.some.inj hs
    have hi' := @fresh_inv h hash hi (List.replicate 18 none)
    have ha := @fresh_array h hash hi (List.replicate 18 none)
    refine ⟨⟨fun _ => trivial, fun _ => ⟨hi'.list_FIELDS, ?_, ?_⟩⟩, fun _ => hi'⟩
    · rw [Heap.fieldsOf, ha, Option.bind_some, fresh_fieldset hi]
      exact hi'.list_FIELDS
    · rw [Heap.size, ha]
      exact List.length_replicate
  | submit v =>
    have hs : Heap.setAll (tuple hash h).2 v submitted (tuple hash h).1 = some h' := hs
    rw [tuple_eq hi] at hs
    have hnames : ∀ k ∈ submitted, k ∈ fieldNames := by decide
    obtain ⟨h₁, hset, hi', hsize⟩ := setAll_known (v := v) (fresh_inv hi _) hnames
      (@fresh_array h hash hi (List.replicate 18 none)) List.length_replicate
    obtain rfl := Option.some.inj (hset.symm.trans hs)
    exact ⟨⟨fun _ => trivial, fun _ => ⟨hi'.list_FIELDS, hsize⟩⟩, fun _ => hi'⟩

end

/-! ## The main result -/

/-- **When jobs are made faithfully and the schema is left alone**: when no operation names anything
    but a field, and no job is made from a hash with a value in it. -/
theorem run_kept_iff (hash : List String → Nat) {ops : List Op} {h' : Heap}
    (hrun : exec (step hash) ops loaded = some h') :
    Along (step hash) (fun h op => ∀ h', step hash h op = some h' → Kept h op h') ops loaded ↔
      ∀ op ∈ ops, Harmless op := by
  suffices key : ∀ {ops : List Op} {h h' : Heap}, Inv h → exec (step hash) ops h = some h' →
      (Along (step hash) (fun h op => ∀ h', step hash h op = some h' → Kept h op h') ops h ↔
        ∀ op ∈ ops, Harmless op) from key inv_loaded hrun
  intro ops
  induction ops with
  | nil => exact fun _ _ => ⟨fun _ _ hop => absurd hop List.not_mem_nil, fun _ => trivial⟩
  | cons op ops ih =>
    intro h h' hi hrun
    obtain ⟨h₁, hs, hrest⟩ := Option.bind_eq_some_iff.mp hrun
    obtain ⟨hkept, hinv⟩ := step_kept_iff hi hs
    rw [List.forall_mem_cons, ← hkept]
    constructor
    · rintro ⟨hfirst, hothers⟩
      have hfirst := hfirst h₁ hs
      exact ⟨hfirst, (ih (hinv (hkept.mp hfirst)) hrest).mp (hothers h₁ hs)⟩
    · rintro ⟨hfirst, hothers⟩
      refine ⟨fun h₂ hs₂ => Option.some.inj (hs.symm.trans hs₂) ▸ hfirst, fun h₂ hs₂ => ?_⟩
      obtain rfl := Option.some.inj (hs.symm.trans hs₂)
      exact (ih (hinv (hkept.mp hfirst)) hrest).mpr hothers

/-- What the submitter does for one job. -/
def submitOps : List Op :=
  [.job ∅, .assign 0 "command" (some "ls"), .assign 0 "tag" none, .submit fun _ => some "0"]

theorem run_kept_submit :
    Along (step List.length) (fun h op => ∀ h', step List.length h op = some h' → Kept h op h')
        submitOps loaded ↔ ∀ op ∈ submitOps, Harmless op := by
  have hrun : (exec (step List.length) submitOps loaded).isSome = true := by decide
  obtain ⟨h', hrun⟩ := Option.isSome_iff_exists.mp hrun
  exact run_kept_iff List.length hrun

/-- A job made from a command has none; a job made from a note makes the next insert one value too
    long. -/
theorem not_kept_command :
    (∃ h, step List.length loaded (.job ((∅ : Hash).insert "command" (some "ls"))) = some h ∧
      h.get 0 "command" = none ∧
      ¬ Kept loaded (.job ((∅ : Hash).insert "command" (some "ls"))) h) ∧
    ∃ h, exec (step List.length)
        [.job ((∅ : Hash).insert "note" (some "x")), .submit fun _ => some "0"] loaded = some h ∧
      h.list FIELDS = fieldNames ++ ["note"] ∧ h.size 1 = 19 := by
  have hjob : (step List.length loaded (.job ((∅ : Hash).insert "command" (some "ls")))).any
      (fun h => h.get 0 "command" == none) = true := by decide
  have hnote : (exec (step List.length)
      [.job ((∅ : Hash).insert "note" (some "x")), .submit fun _ => some "0"] loaded).any
      (fun h => h.list FIELDS == fieldNames ++ ["note"] && h.size 1 == 19) = true := by decide
  obtain ⟨h, hstep, hget⟩ := (Option.any_eq_true _ _).mp hjob
  obtain ⟨h₂, hrun, hsize⟩ := (Option.any_eq_true _ _).mp hnote
  simp only [Bool.and_eq_true, beq_iff_eq] at hget hsize
  refine ⟨⟨h, hstep, hget, fun hkept => ?_⟩, h₂, hrun, hsize⟩
  have hread := hkept.2 "command" (by decide) (some "ls") (AList.lookup_insert _)
  have hlength : loaded.arrays.length = 0 := rfl
  rw [hlength, hget] at hread
  cases hread

end RubyQueue.ArrayFields
