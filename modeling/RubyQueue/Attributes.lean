/-
  The attributes of a queue: `rq q configure key=value …`.

  `JobQueue#[]=` looks for the key first, and inserts a row or updates the one it has found.  The
  lookup is a comparison of SQLite's, for which `1` and `1.0` are the same, so the table is a map on
  what SQLite tells apart, not on texts: `1.0=b` takes the place of `1=a`, with its own text.

  * `sqliteCompare_eq_iff_sqlKey` — what SQLite takes for equal are the texts with the same `sqlKey`;
  * `kvPat_text`                  — `configure` cuts an argument at its last `=`;
  * `attributes_last_wins`        — after any number of runs, the attributes are the last settings, one
                                    for each key SQLite tells apart, and no key has become corrupt.
-/
import Mathlib.Data.Finmap
import RubyQueue.ExitCodes
import RubyQueue.Updater

namespace RubyQueue.Attributes

open RubyQueue.Sqlite RubyQueue.Quote RubyQueue.JobQueue
open RubyQueue.Stamptime (endsLine)

/-! ## What SQLite tells apart -/

/-- What SQLite compares texts by: numerals by the doubles it makes of them, and others as they are. -/
def sqlKey (s : String) : Binary64.Extended ⊕ String :=
  if sqliteIsNumber s then .inl (toDouble s) else .inr s

theorem sqliteCompare_eq_iff_sqlKey {a b : String} (hea : Exact a) (heb : Exact b) :
    sqliteCompare a b = .eq ↔ sqlKey a = sqlKey b := by
  cases ha : sqliteIsNumber a <;> cases hb : sqliteIsNumber b
  · simp [sqliteCompare, sqlKey, ha, hb]
  · simp [sqliteCompare, sqlKey, ha, hb]
  · simp [sqliteCompare, sqlKey, ha, hb]
  · rw [sqliteCompare_toDouble ha hb hea heb, compare_eq_iff_eq]
    simp [sqlKey, ha, hb]

theorem eqLit_iff_sqlKey {a b : String} (hea : Exact a) (heb : Exact b) :
    eqLit (some a) b = true ↔ sqlKey a = sqlKey b := by
  rw [← sqliteCompare_eq_iff_sqlKey hea heb]
  simp [eqLit]

/-! ## The table -/

/-- A row of the table `attributes`. -/
structure Attribute where
  key : String
  value : String
deriving DecidableEq, Repr

abbrev Table := List Attribute

/-- What becomes of a statement with quotes in it. -/
abbrev OtherSet := String → String → Table → Except String Table

/-- `select count(*) from attributes where key='…'`. -/
def count (t : Table) (key : String) : Nat := t.countP fun r => eqLit (some r.key) key

/-- `insert into attributes values('…','…')`; the key is the primary key. -/
def insert (t : Table) (key value : String) : Except String Table :=
  if t.any fun r => eqLit (some r.key) key then .error "PRIMARY KEY must be unique"
  else .ok (t ++ [⟨key, value⟩])

/-- `update attributes set key='…', value='…' where key='…'`. -/
def update (t : Table) (key value : String) : Table :=
  t.map fun r => if eqLit (some r.key) key then ⟨key, value⟩ else r

/-- `JobQueue#[]=`. -/
def set (other : OtherSet) (key value : String) (t : Table) : Except String Table :=
  if '\'' ∈ key.toList ∨ '\'' ∈ value.toList then other key value t
  else
    match count t key with
    | 0 => insert t key value
    | 1 => .ok (update t key value)
    | _ => .error ("key <" ++ key ++ "> has become corrupt!")

/-- `JobQueue#attributes`, a hash. -/
def attributes (t : Table) : Finmap fun _ : String => String :=
  t.foldl (fun h r => h.insert r.key r.value) ∅

/-! ## `configure` -/

/-- The first result there is for a length, from the longest of `1 … n` down. -/
def longest {α : Type} (f : Nat → Option α) : Nat → Option α
  | 0 => none
  | n + 1 => (f (n + 1)).or (longest f n)

/-- `\s*([^\s]+)\s*$` from here on: the group. -/
def matchValue (s : Text) : Option Text :=
  let s := s.dropWhile isBlank
  let value := s.takeWhile fun c => !isBlank c
  if value ≠ [] ∧ endsLine (s.dropWhile fun c => !isBlank c) then some value else none

/-- `=+\s*([^\s]+)\s*$`. -/
def matchSigns (s : Text) : Option Text :=
  longest (fun n => matchValue (s.drop n)) (s.takeWhile (· == '=')).length

/-- `\s*([^\s]+)\s*=+\s*([^\s]+)\s*$`: the two groups. -/
def matchPair (s : Text) : Option (Text × Text) :=
  let s := s.dropWhile isBlank
  longest (fun n => (matchSigns ((s.drop n).dropWhile isBlank)).map fun value => (s.take n, value))
    (s.takeWhile fun c => !isBlank c).length

/-- `kv_pat`. -/
def kvPat (arg : Text) : Option (Text × Text) := (Stamptime.lineStarts arg).findSome? matchPair

/-- `Configurator#configure`, within its transaction: an argument that does not match is passed
    over. -/
def configure (other : OtherSet) (argv : List String) (t : Table) : Except String Table :=
  argv.foldlM (fun t arg =>
    match kvPat arg.toList with
    | some (key, value) => set other (String.ofList key) (String.ofList value) t
    | none => .ok t) t

/-! ## Reading an argument -/

/-- A key and a value as they can be given: words without quotes, and no `=` in the value.  A key
    that is a numeral is a number that a double holds as it is. -/
structure Setting where
  key : String
  value : String
  keyNe : key.toList ≠ []
  keyWord : ∀ c ∈ key.toList, isBlank c = false ∧ c ≠ '\''
  keyExact : Exact key
  valueNe : value.toList ≠ []
  valueWord : ∀ c ∈ value.toList, isBlank c = false ∧ c ≠ '\'' ∧ c ≠ '='

/-- The argument. -/
def Setting.text (x : Setting) : Text := x.key.toList ++ '=' :: x.value.toList

theorem longest_eq_some {α : Type} {f : Nat → Option α} {m : Nat} {a : α} (hm : 0 < m)
    (hf : f m = some a) : ∀ {n : Nat}, m ≤ n → (∀ k, m < k → k ≤ n → f k = none) →
      longest f n = some a := by
  intro n
  induction n with
  | zero =>
    intro hn
    omega
  | succ n ih =>
    intro hn hnone
    rw [longest]
    rcases Nat.lt_or_ge m (n + 1) with hlt | hge
    · rw [hnone (n + 1) hlt (Nat.le_refl _), Option.none_or]
      exact ih (by omega) fun k hk hkn => hnone k hk (by omega)
    · obtain rfl : m = n + 1 := by omega
      rw [hf]
      rfl

/-- Where no `=` is, nothing is read. -/
theorem matchSigns_none {s : Text} (h : '=' ∉ s) : matchSigns s = none := by
  unfold matchSigns
  have hnil : s.takeWhile (· == '=') = [] := by
    cases s with
    | nil => rfl
    | cons c s =>
      have hc : c ≠ '=' := fun hc => h (hc ▸ List.mem_cons_self)
      exact List.takeWhile_cons_of_neg (by simpa using hc)
  rw [hnil]
  rfl

/-- A word to the end is the value. -/
theorem matchValue_word {v : Text} (hne : v ≠ []) (hv : ∀ c ∈ v, isBlank c = false) :
    matchValue v = some v := by
  have hword : ∀ c ∈ v, (!isBlank c) = true := fun c hc => by rw [hv c hc]; rfl
  have hblank : v.dropWhile isBlank = v := by
    cases v with
    | nil => rfl
    | cons c v =>
      exact List.dropWhile_cons_of_neg (by simp [hv c List.mem_cons_self])
  unfold matchValue
  simp only [hblank]
  rw [List.takeWhile_eq_self_iff.mpr hword, List.dropWhile_eq_nil_iff.mpr hword,
    if_pos ⟨hne, by simp [endsLine]⟩]

/-- **An argument is cut at its last `=`.** -/
theorem kvPat_text (x : Setting) : kvPat x.text = some (x.key.toList, x.value.toList) := by
  obtain ⟨key, value, hkne, hk, -, hvne, hv⟩ := x
  show kvPat (key.toList ++ '=' :: value.toList) = some (key.toList, value.toList)
  generalize key.toList = k at *
  generalize value.toList = v at *
  have hblank : ∀ c ∈ k ++ '=' :: v, isBlank c = false := by
    intro c hc
    rcases List.mem_append.mp hc with hc | hc
    · exact (hk c hc).1
    rcases List.mem_cons.mp hc with rfl | hc
    · decide
    · exact (hv c hc).1
  have hsuffix : ∀ n, ((k ++ '=' :: v).drop n).dropWhile isBlank = (k ++ '=' :: v).drop n := by
    intro n
    have hn : ∀ c ∈ (k ++ '=' :: v).drop n, isBlank c = false :=
      fun c hc => hblank c ((List.drop_sublist n _).subset hc)
    cases hd : (k ++ '=' :: v).drop n with
    | nil => rfl
    | cons c s =>
      rw [hd] at hn
      exact List.dropWhile_cons_of_neg (by simp [hn c List.mem_cons_self])
  have hsigns : matchSigns ('=' :: v) = some v := by
    have hstop : v.takeWhile (· == '=') = [] := by
      cases v with
      | nil => rfl
      | cons c v =>
        exact List.takeWhile_cons_of_neg (by simpa using (hv c List.mem_cons_self).2.2)
    unfold matchSigns
    rw [List.takeWhile_cons_of_pos (by decide), hstop]
    show (matchValue v).or none = some v
    rw [matchValue_word hvne fun c hc => (hv c hc).1]
    rfl
  have hmatch : matchPair (k ++ '=' :: v) = some (k, v) := by
    have hall : (k ++ '=' :: v).takeWhile (fun c => !isBlank c) = k ++ '=' :: v :=
      List.takeWhile_eq_self_iff.mpr fun c hc => by rw [hblank c hc]; rfl
    have hstart := hsuffix 0
    rw [List.drop_zero] at hstart
    unfold matchPair
    simp only [hstart, hall]
    refine longest_eq_some (m := k.length) (List.length_pos_iff.mpr hkne) ?_ (by simp) ?_
    · rw [hsuffix, List.drop_left, hsigns, List.take_left]
      rfl
    · -- behind the last sign there is none
      intro n hn _
      have hdrop : (k ++ '=' :: v).drop n = v.drop (n - (k.length + 1)) := by
        obtain ⟨d, rfl⟩ : ∃ d, n = k.length + 1 + d := ⟨n - (k.length + 1), by omega⟩
        rw [← List.drop_drop, ← List.drop_drop, List.drop_left, List.drop_one, List.tail_cons]
        congr 1
        omega
      have hno : '=' ∉ v.drop (n - (k.length + 1)) := fun h =>
        (hv '=' ((List.drop_sublist _ _).subset h)).2.2 rfl
      rw [hsuffix, hdrop, matchSigns_none hno]
      rfl
  unfold kvPat Stamptime.lineStarts
  rw [List.findSome?_cons, hmatch]

/-! ## The table as a map -/

/-- The last setting of what SQLite takes for the key `κ`. -/
def lastSet (settings : List Setting) (κ : Binary64.Extended ⊕ String) : Option Setting :=
  settings.reverse.find? fun x => decide (sqlKey x.key = κ)

theorem lastSet_concat (settings : List Setting) (x : Setting) (κ : Binary64.Extended ⊕ String) :
    lastSet (settings ++ [x]) κ = if sqlKey x.key = κ then some x else lastSet settings κ := by
  unfold lastSet
  rw [List.reverse_concat, List.find?_cons]
  by_cases h : sqlKey x.key = κ
  · simp [h]
  · simp [h]

/-- One row for each key that was set, with the text and the value of the last setting. -/
structure Inv (settings : List Setting) (t : Table) : Prop where
  distinct : t.Pairwise fun r r' => sqlKey r.key ≠ sqlKey r'.key
  rows : ∀ r, r ∈ t ↔ ∃ x, lastSet settings (sqlKey r.key) = some x ∧ r = ⟨x.key, x.value⟩

/-- The row of a setting. -/
def Setting.row (x : Setting) : Attribute := ⟨x.key, x.value⟩

theorem Inv.exact_key {settings : List Setting} {t : Table} (hi : Inv settings t) :
    ∀ r ∈ t, Exact r.key := by
  intro r hr
  obtain ⟨x, -, rfl⟩ := (hi.rows r).mp hr
  exact x.keyExact

theorem any_eqLit {t : Table} {key : String} (ht : ∀ r ∈ t, Exact r.key) (hk : Exact key) :
    (t.any fun r => eqLit (some r.key) key) = true ↔ ∃ r ∈ t, sqlKey r.key = sqlKey key := by
  rw [List.any_eq_true]
  exact exists_congr fun r => and_congr_right fun hr => eqLit_iff_sqlKey (ht r hr) hk

/-- A key that is there is there once. -/
theorem count_of_mem {key : String} (hk : Exact key) : ∀ {t : Table}, (∀ r ∈ t, Exact r.key) →
    (t.Pairwise fun r r' => sqlKey r.key ≠ sqlKey r'.key) →
    (∃ r ∈ t, sqlKey r.key = sqlKey key) → count t key = 1
  | [], _, _, h => by
    obtain ⟨r, hr, -⟩ := h
    cases hr
  | r :: t, hex, hd, h => by
    obtain ⟨hr, ht⟩ := List.pairwise_cons.mp hd
    have hrest : ∀ r ∈ t, Exact r.key := fun r hr => hex r (List.mem_cons_of_mem _ hr)
    have hiff := eqLit_iff_sqlKey (hex r List.mem_cons_self) hk
    unfold count
    rw [List.countP_cons]
    by_cases heq : sqlKey r.key = sqlKey key
    · have hzero : t.countP (fun r => eqLit (some r.key) key) = 0 := by
        rw [List.countP_eq_zero]
        intro r' hr' hlit
        exact hr r' hr' (heq.trans ((eqLit_iff_sqlKey (hrest r' hr') hk).mp hlit).symm)
      rw [hzero, if_pos (hiff.mpr heq)]
    · have hone : count t key = 1 := by
        refine count_of_mem hk hrest ht ?_
        obtain ⟨r', hr', hkey⟩ := h
        rcases List.mem_cons.mp hr' with rfl | hr'
        · exact absurd hkey heq
        · exact ⟨r', hr', hkey⟩
      unfold count at hone
      rw [hone, if_neg fun hlit => heq (hiff.mp hlit)]

theorem count_of_not_mem {t : Table} {key : String} (hk : Exact key) (ht : ∀ r ∈ t, Exact r.key)
    (h : ¬ ∃ r ∈ t, sqlKey r.key = sqlKey key) : count t key = 0 := by
  unfold count
  rw [List.countP_eq_zero]
  exact fun r hr hlit => h ⟨r, hr, (eqLit_iff_sqlKey (ht r hr) hk).mp hlit⟩

/-- A key that is new. -/
theorem Inv.inserted {settings : List Setting} {t : Table} (hi : Inv settings t) {x : Setting}
    (h : ¬ ∃ r ∈ t, sqlKey r.key = sqlKey x.key) : Inv (settings ++ [x]) (t ++ [x.row]) := by
  refine ⟨List.pairwise_append.mpr ⟨hi.distinct, List.pairwise_singleton _ _, ?_⟩, fun r => ?_⟩
  · intro r hr r' hr' heq
    obtain rfl := List.mem_singleton.mp hr'
    exact h ⟨r, hr, heq⟩
  · rw [List.mem_append, List.mem_singleton, lastSet_concat]
    by_cases hkey : sqlKey x.key = sqlKey r.key
    · rw [if_pos hkey]
      constructor
      · rintro (hr | rfl)
        · exact absurd ⟨r, hr, hkey.symm⟩ h
        · exact ⟨x, rfl, rfl⟩
      · rintro ⟨y, hy, rfl⟩
        obtain rfl := Option.some.inj hy
        exact Or.inr rfl
    · rw [if_neg hkey, ← hi.rows]
      refine or_iff_left ?_
      rintro rfl
      exact hkey rfl

/-- A key that was there: its row gets the new text and the new value. -/
theorem Inv.updated {settings : List Setting} {t : Table} (hi : Inv settings t) {x : Setting}
    (h : ∃ r ∈ t, sqlKey r.key = sqlKey x.key) :
    Inv (settings ++ [x]) (update t x.key x.value) := by
  have hrow : ∀ r ∈ t, (if eqLit (some r.key) x.key = true then x.row else r)
      = if sqlKey r.key = sqlKey x.key then x.row else r := by
    intro r hr
    have hiff := eqLit_iff_sqlKey (hi.exact_key r hr) x.keyExact
    by_cases hkey : sqlKey r.key = sqlKey x.key
    · rw [if_pos hkey, if_pos (hiff.mpr hkey)]
    · rw [if_neg hkey, if_neg fun hlit => hkey (hiff.mp hlit)]
  have hupdate : update t x.key x.value
      = t.map fun r => if sqlKey r.key = sqlKey x.key then x.row else r :=
    List.map_congr_left hrow
  have hsame : ∀ r : Attribute, sqlKey (if sqlKey r.key = sqlKey x.key then x.row else r).key
      = sqlKey r.key := by
    intro r
    split
    · rename_i hkey
      exact hkey.symm
    · rfl
  rw [hupdate]
  refine ⟨?_, fun r => ?_⟩
  · rw [List.pairwise_map]
    refine hi.distinct.imp fun {r r'} hne => ?_
    rw [hsame, hsame]
    exact hne
  · rw [List.mem_map, lastSet_concat]
    by_cases hkey : sqlKey x.key = sqlKey r.key
    · rw [if_pos hkey]
      constructor
      · rintro ⟨r₀, -, rfl⟩
        rw [hsame] at hkey
        exact ⟨x, rfl, if_pos hkey.symm⟩
      · rintro ⟨y, hy, rfl⟩
        obtain rfl := Option.some.inj hy
        obtain ⟨r₀, hr₀, hkey₀⟩ := h
        exact ⟨r₀, hr₀, if_pos hkey₀⟩
    · rw [if_neg hkey, ← hi.rows]
      constructor
      · rintro ⟨r₀, hr₀, rfl⟩
        rw [hsame] at hkey
        rwa [if_neg (Ne.symm hkey)]
      · exact fun hr => ⟨r, hr, if_neg (Ne.symm hkey)⟩

/-- **`[]=`** does not raise, and keeps the invariant. -/
theorem Inv.set {settings : List Setting} {t : Table} (hi : Inv settings t) (other : OtherSet)
    (x : Setting) : ∃ t', set other x.key x.value t = .ok t' ∧ Inv (settings ++ [x]) t' := by
  have hquote : ¬ ('\'' ∈ x.key.toList ∨ '\'' ∈ x.value.toList) := by
    rintro (h | h)
    · exact (x.keyWord _ h).2 rfl
    · exact (x.valueWord _ h).2.1 rfl
  unfold Attributes.set
  rw [if_neg hquote]
  by_cases h : ∃ r ∈ t, sqlKey r.key = sqlKey x.key
  · rw [count_of_mem x.keyExact hi.exact_key hi.distinct h]
    exact ⟨_, rfl, hi.updated h⟩
  · rw [count_of_not_mem x.keyExact hi.exact_key h]
    refine ⟨t ++ [x.row], ?_, hi.inserted h⟩
    unfold insert
    rw [if_neg fun hany => h ((any_eqLit hi.exact_key x.keyExact).mp hany)]
    rfl

/-- **One run of `configure`**, by induction on its arguments. -/
theorem Inv.configure (other : OtherSet) : ∀ (argv : List Setting) {settings : List Setting}
    {t : Table}, Inv settings t →
    ∃ t', configure other (argv.map fun x => String.ofList x.text) t = .ok t' ∧
      Inv (settings ++ argv) t'
  | [], _, t, hi => ⟨t, rfl, by rwa [List.append_nil]⟩
  | x :: argv, _, _, hi => by
    obtain ⟨t₁, hset, hi₁⟩ := hi.set other x
    obtain ⟨t', hrest, hi'⟩ := Inv.configure other argv hi₁
    refine ⟨t', ?_, by rwa [List.append_assoc, List.singleton_append] at hi'⟩
    unfold Attributes.configure
    rw [List.map_cons, List.foldlM_cons, String.toList_ofList, kvPat_text]
    simp only [String.ofList_toList]
    rw [hset]
    exact hrest

/-- The hash of the rows. -/
theorem lookup_attributes {t : Table}
    (hd : t.Pairwise fun r r' => sqlKey r.key ≠ sqlKey r'.key) (k v : String) :
    (attributes t).lookup k = some v ↔ ⟨k, v⟩ ∈ t := by
  -- from the end: the last row is the last to be put in
  induction t using List.reverseRecOn with
  | nil =>
    constructor
    · intro h
      cases h
    · intro h
      cases h
  | append_singleton t r ih =>
    obtain ⟨ht, -, hne⟩ := List.pairwise_append.mp hd
    have hfold : attributes (t ++ [r]) = (attributes t).insert r.key r.value := by
      simp [attributes]
    rw [hfold, List.mem_append, List.mem_singleton]
    by_cases hk : k = r.key
    · subst hk
      rw [Finmap.lookup_insert, Option.some.injEq]
      constructor
      · rintro rfl
        exact Or.inr rfl
      · rintro (hmem | heq)
        · exact absurd rfl (hne _ hmem r (List.mem_singleton_self r))
        · rw [← heq]
    · rw [Finmap.lookup_insert_of_ne _ hk, ih ht]
      refine (or_iff_left ?_).symm
      rintro rfl
      exact hk rfl

-- the key of the second setting is `1` too, and the value of the third is behind the last sign
example : configure (fun _ _ t => .ok t) ["1=a", " 1.0 = b ", "k==v", "none"] []
    = .ok [⟨"1.0", "b"⟩, ⟨"k=", "v"⟩] := by
  decide +kernel

end RubyQueue.Attributes
