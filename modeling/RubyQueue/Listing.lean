/-
  What `rq list` prints, and what becomes of it as input.

  `MainHelper#dumping_yaml_tuples` prints a tuple as a line `-` and a line ` field: value` for each
  field; a value is printed as it is.  Two readers take that text on stdin, and share nothing with
  the writer or with each other.

  * `loadyaml` cuts each line at its first colon and strips both sides.  Values without newlines
    and outer blanks come back as they were, whatever is in them (`loadio_dump`): every line starts
    with a field name, so none is taken for the `-` of the next record.
  * `Deleter#delete` looks at each line by itself for `jid: number`, `number` or `all`.  A value of
    several lines brings lines of its own, and `delete_reads_listing_iff` says that nothing else can
    make it read another jid than those that were listed.
-/
import RubyQueue.Submitter

namespace RubyQueue.Listing

open RubyQueue.Sqlite RubyQueue.Quote RubyQueue.JobQueue RubyQueue.Submitter

/-! ## Printing -/

/-- `QDB::FIELDS`. -/
def fieldNames : List String := "jid" :: columns.map Column.name

/-- A tuple with fields; a value is given by the text it interpolates as. -/
abbrev Tuple := String → Option Text

/-- `"#{ tuple[f] }"`: nil is the empty text. -/
def Tuple.rendered (t : Tuple) (f : String) : Text := (t f).getD []

/-- A row of the table as a tuple. -/
def Tuple.ofRow (r : Row) : Tuple := fun f =>
  if f = "jid" then some (toString r.jid).toList
  else ((Column.ofName f).bind r.get).map String.toList

/-- A column as it is printed. -/
theorem rendered_ofRow (r : Row) (c : Column) :
    (Tuple.ofRow r).rendered c.name = ((r.get c).getD "").toList := by
  have hne : c.name ≠ "jid" := by cases c <;> decide
  unfold Tuple.rendered Tuple.ofRow
  rw [if_neg hne, Column.ofName_name, Option.bind_some]
  cases r.get c <;> rfl

/-- `puts`: a newline is added unless there is one. -/
def puts (s : Text) : Text := if s.getLast? = some '\n' then s else s ++ ['\n']

/-- `" #{ f }: #{ tuple[f] }"`. -/
def fieldLine (f : String) (v : Text) : Text := ' ' :: (f.toList ++ (':' :: ' ' :: v))

/-- What the block prints for one tuple. -/
def dumpTuple (fields : List String) (t : Tuple) : Text :=
  puts ['-'] ++ fields.flatMap fun f => puts (fieldLine f (t.rendered f))

/-- `MainHelper#dumping_yaml_tuples`, for all the tuples it is called with. -/
def dumpingYamlTuples (fields : List String) : List Tuple → Text
  | [] => []
  | t :: ts => puts ['-', '-', '-'] ++ (t :: ts).flatMap (dumpTuple fields)

/-! ## Lines -/

theorem lines_append_newline (s t : Text) : lines (s ++ '\n' :: t) = lines s ++ lines t :=
  List.splitOn_append_cons_self s t

theorem lines_of_not_mem {s : Text} (h : '\n' ∉ s) : lines s = [s] := List.splitOn_eq_singleton h

/-- What stands before a text on its first line. -/
theorem lines_append {p : Text} (h : '\n' ∉ p) (s : Text) :
    lines (p ++ s) = (lines s).modifyHead (p ++ ·) := by
  induction p with
  | nil =>
    rw [List.nil_append]
    cases lines s with
    | nil => rfl
    | cons l ls => rfl
  | cons c p ih =>
    obtain ⟨hc, hp⟩ := not_or.mp (fun hm => h (List.mem_cons.mpr hm))
    have hne : (c == '\n') = false := by simpa using Ne.symm hc
    have ih := ih hp
    unfold lines at ih ⊢
    rw [List.cons_append, List.splitOn_cons_eq_if_modifyHead, hne, if_neg (by simp), ih]
    cases s.splitOn '\n' with
    | nil => rfl
    | cons l ls => rfl

theorem puts_of_not_mem {s : Text} (h : '\n' ∉ s) : puts s = s ++ ['\n'] := by
  unfold puts
  rw [if_neg]
  intro hlast
  exact h (List.mem_of_mem_getLast? hlast)

theorem lines_puts {s : Text} (h : '\n' ∉ s) (t : Text) : lines (puts s ++ t) = s :: lines t := by
  rw [puts_of_not_mem h, List.append_assoc, List.singleton_append, lines_append_newline,
    lines_of_not_mem h, List.singleton_append]

/-- A reader that makes nothing of an empty line reads what was put. -/
theorem filterMap_lines_puts {α : Type} {m : Text → Option α} (hm : m [] = none) (s t : Text) :
    (lines (puts s ++ t)).filterMap m = (lines s).filterMap m ++ (lines t).filterMap m := by
  unfold puts
  split
  · rename_i hlast
    obtain ⟨s', rfl⟩ : ∃ s', s = s' ++ ['\n'] := by
      rw [List.getLast?_eq_some_iff] at hlast
      exact hlast
    have hempty : lines ([] : Text) = [[]] := rfl
    rw [List.append_assoc, List.singleton_append, lines_append_newline, lines_append_newline, hempty]
    simp [hm]
  · rw [List.append_assoc, List.singleton_append, lines_append_newline, List.filterMap_append]

/-! ## Field names -/

/-- A field name: not empty, without colons and newlines, and `strip` takes nothing away. -/
structure IsField (f : String) : Prop where
  ne_nil : f.toList ≠ []
  colon : ':' ∉ f.toList
  newline : '\n' ∉ f.toList
  strip : stripText f.toList = f.toList
  /-- it is no dash, and starts with none of the characters that are stripped -/
  head : ∀ c ∈ f.toList.head?, c ≠ '-' ∧ isBlank c = false ∧ c ≠ '\x0b'

theorem isField : ∀ f ∈ fieldNames, IsField f := by
  have hall : fieldNames.all (fun f => !f.toList.isEmpty && !f.toList.contains ':' &&
      !f.toList.contains '\n' && stripText f.toList == f.toList &&
      f.toList.head?.all fun c => c != '-' && !isBlank c && c != '\x0b') = true := by decide
  intro f hf
  have hf := List.all_eq_true.mp hall f hf
  simp only [Bool.and_eq_true, Bool.not_eq_true', List.isEmpty_eq_false_iff, List.contains_eq_mem,
    decide_eq_false_iff_not, beq_iff_eq] at hf
  obtain ⟨⟨⟨⟨hne, hcolon⟩, hnewline⟩, hstrip⟩, hhead⟩ := hf
  refine ⟨hne, hcolon, hnewline, hstrip, ?_⟩
  intro c hc
  rw [hc] at hhead
  simpa [and_assoc] using hhead

/-! ## Reading it back -/

theorem mem_stripText {c : Char} {l : Text} (h : c ∈ stripText l) : c ∈ l :=
  (List.dropWhile_sublist _).mem (List.IsPrefix.mem h ( List.rdropWhile_prefix _ _))

theorem stripText_idem (l : Text) : stripText (stripText l) = stripText l := by
  have hhead : (stripText l).dropWhile (fun c => isBlank c || c == '\x0b') = stripText l := by
    obtain ⟨t, ht⟩ := List.rdropWhile_prefix (fun c => isBlank c || c == '\x0b' || c == '\x00')
      (l.dropWhile fun c => isBlank c || c == '\x0b')
    cases hs : stripText l with
    | nil => rfl
    | cons c s =>
      have hdrop : l.dropWhile (fun c => isBlank c || c == '\x0b') = c :: (s ++ t) := by
        rw [← ht]
        show stripText l ++ t = _
        rw [hs]
        rfl
      have hne : l.dropWhile (fun c => isBlank c || c == '\x0b') ≠ [] := by
        rw [hdrop]
        exact List.cons_ne_nil _ _
      have hc := List.head_dropWhile_not (fun c => isBlank c || c == '\x0b') hne
      simp only [hdrop, List.head_cons] at hc
      rw [List.dropWhile_cons_of_neg (by rw [hc]; exact Bool.false_ne_true)]
  show ((stripText l).dropWhile _).rdropWhile _ = _
  rw [hhead]
  exact List.rdropWhile_idempotent ..

/-- What `strip` leaves alone does not start with a character it takes. -/
theorem dropWhile_of_stripText {v : Text} (h : stripText v = v) :
    v.dropWhile (fun c => isBlank c || c == '\x0b') = v := by
  have hsuffix : v.dropWhile (fun c => isBlank c || c == '\x0b') <:+ v := List.dropWhile_suffix _
  have hstrip := List.rdropWhile_prefix (fun c => isBlank c || c == '\x0b' || c == '\x00')
    (v.dropWhile fun c => isBlank c || c == '\x0b')
  rw [show List.rdropWhile _ _ = v from h] at hstrip
  exact hsuffix.eq_of_length_le hstrip.length_le

/-- What `strip` leaves alone does not end in a character it takes. -/
theorem last_of_stripText {v : Text} (h : stripText v = v) (hv : v ≠ []) :
    (isBlank (v.getLast hv) || v.getLast hv == '\x0b' || v.getLast hv == '\x00') = false := by
  have hlast := h
  unfold stripText at hlast
  rw [dropWhile_of_stripText h] at hlast
  simpa using List.rdropWhile_eq_self_iff.mp hlast hv

/-- A blank before a stripped text goes. -/
theorem stripText_blank {v : Text} (h : stripText v = v) : stripText (' ' :: v) = v := by
  unfold stripText at h ⊢
  rw [List.dropWhile_cons_of_pos (by decide)]
  exact h

/-- A character that `strip` takes from neither end. -/
def stays (c : Char) : Bool := !(isBlank c || c == '\x0b' || c == '\x00')

theorem stripText_of_ends {v : Text} (hfirst : ∀ c ∈ v.head?, stays c = true)
    (hlast : ∀ c ∈ v.getLast?, stays c = true) : stripText v = v := by
  cases v with
  | nil => rfl
  | cons c v =>
    have hc := hfirst c rfl
    have hdrop : (c :: v).dropWhile (fun c => isBlank c || c == '\x0b') = c :: v := by
      refine List.dropWhile_cons_of_neg ?_
      simp only [stays, Bool.not_eq_true', Bool.or_eq_false_iff] at hc
      simp [hc.1]
    unfold stripText
    rw [hdrop, List.rdropWhile_eq_self_iff]
    intro hne
    have hl := hlast _ (List.getLast?_eq_some_getLast hne)
    simpa [stays] using hl

/-- The blank a line of the listing starts with goes, and the field name stays. -/
theorem stripText_fieldLine {f : String} (hf : IsField f) (v : Text) :
    stripText (fieldLine f v) = (f.toList ++ ':' :: ' ' :: v).rdropWhile
      fun c => isBlank c || c == '\x0b' || c == '\x00' := by
  obtain ⟨c, cs, hcs⟩ := List.exists_cons_of_ne_nil hf.ne_nil
  obtain ⟨-, hblank, htab⟩ := hf.head c (by rw [hcs]; rfl)
  unfold stripText fieldLine
  rw [List.dropWhile_cons_of_pos (by decide), hcs, List.cons_append,
    List.dropWhile_cons_of_neg (by simp [hblank, htab])]

/-- **A line of the listing**, stripped and cut at its first colon: the field and its value. -/
theorem splitColon_fieldLine {f : String} (hf : IsField f) {v : Text} (hv : stripText v = v) :
    (stripText (fieldLine f v)).isEmpty = false ∧ stripText (fieldLine f v) ≠ ['-'] ∧
      splitColon (stripText (fieldLine f v)) = some (f.toList, v) := by
  obtain ⟨w, hw, hwv⟩ : ∃ w, stripText (fieldLine f v) = f.toList ++ ':' :: w ∧ stripText w = v := by
    rw [stripText_fieldLine hf]
    by_cases hnil : v = []
    · -- with an empty value the blank after the colon goes too
      subst hnil
      refine ⟨[], ?_, rfl⟩
      have hline : f.toList ++ [':', ' '] = f.toList ++ [':'] ++ [' '] := by simp
      rw [hline, List.rdropWhile_concat_pos _ _ _ (by decide),
        List.rdropWhile_concat_neg _ _ _ (by decide)]
    · refine ⟨' ' :: v, ?_, stripText_blank hv⟩
      rw [List.rdropWhile_eq_self_iff]
      intro hne
      rw [List.getLast_append_of_ne_nil _ (by simp), List.getLast_cons (by simp),
        List.getLast_cons hnil, last_of_stripText hv hnil]
      simp
  have hcolon : ∀ d ∈ f.toList, (d != ':') = true := by
    intro d hd
    have hne : d ≠ ':' := fun he => hf.colon (he ▸ hd)
    simpa using hne
  refine ⟨?_, ?_, ?_⟩
  · rw [hw]
    simp
  · rw [hw]
    intro hdash
    have hmem : ':' ∈ ['-'] := hdash ▸ (by simp)
    exact absurd hmem (by decide)
  · unfold splitColon
    rw [hw, List.dropWhile_append_of_pos hcolon, List.takeWhile_append_of_pos hcolon]
    rw [List.dropWhile_cons_of_neg (by simp), List.takeWhile_cons_of_neg (by simp), List.append_nil,
      hf.strip]
    show some (f.toList, stripText w) = _
    rw [hwv]

/-- The hash a record of the listing is read into. -/
def loadedHash (t : Tuple) : List String → Hash → Hash
  | [], h => h
  | f :: fs, h => loadedHash t fs (h.set f (some (String.ofList (t.rendered f))))

theorem get_set_self (h : Hash) (f : String) (v : Option String) : (h.set f v).get f = v := by
  unfold Hash.get Hash.set
  rw [List.lookup_cons_self]
  rfl

theorem get_set_ne {f g : String} (hg : f ≠ g) (h : Hash) (v : Option String) :
    (h.set g v).get f = h.get f := by
  have hne : (f == g) = false := by simpa using hg
  unfold Hash.get Hash.set
  rw [List.lookup_cons, hne]

theorem loadedHash_get {t : Tuple} {f : String} : ∀ {fs : List String} {h : Hash},
    f ∈ fs ∨ h.get f = some (String.ofList (t.rendered f)) →
    (loadedHash t fs h).get f = some (String.ofList (t.rendered f))
  | [], h, hf => hf.resolve_left List.not_mem_nil
  | g :: fs, h, hf => by
    rw [loadedHash]
    refine loadedHash_get ?_
    by_cases hg : f = g
    · rw [← hg]
      exact .inr (get_set_self h f _)
    · rw [get_set_ne hg]
      rcases hf with hf | hf
      · exact .inl ((List.mem_cons.mp hf).resolve_left hg)
      · exact .inr hf

/-! `loadyaml` on one line of each kind. -/

theorem loadyaml_blank {line : Text} (hl : stripText line = []) (io : List Text) (h : Option Hash)
    (jobs : List Hash) : loadyaml (line :: io) h jobs = loadyaml io h jobs := by
  rw [loadyaml.eq_def]
  simp [hl]

theorem loadyaml_dash {line : Text} (hl : stripText line = ['-']) (io : List Text) (h : Option Hash)
    (jobs : List Hash) :
    loadyaml (line :: io) h jobs = loadyaml io (some []) (jobs ++ h.toList) := by
  rw [loadyaml.eq_def]
  simp [hl]

theorem loadyaml_pair {line k v : Text} (hempty : (stripText line).isEmpty = false)
    (hdash : stripText line ≠ ['-']) (hsplit : splitColon (stripText line) = some (k, v))
    (io : List Text) (h : Hash) (jobs : List Hash) :
    loadyaml (line :: io) (some h) jobs
      = loadyaml io (some (h.set (String.ofList k) (some (String.ofList v)))) jobs := by
  rw [loadyaml.eq_def]
  simp [hempty, hdash, hsplit]

/-- The lines of one record add its fields to the hash.  Induction on the fields. -/
theorem loadyaml_fields {t : Tuple} {io : List Text} {jobs : List Hash} :
    ∀ {fs : List String} {h : Hash}, (∀ f ∈ fs, IsField f) →
      (∀ f ∈ fs, stripText (t.rendered f) = t.rendered f) →
      loadyaml (fs.map (fun f => fieldLine f (t.rendered f)) ++ io) (some h) jobs
        = loadyaml io (some (loadedHash t fs h)) jobs
  | [], _, _, _ => rfl
  | f :: fs, h, hfs, hv => by
    obtain ⟨hempty, hdash, hsplit⟩ := splitColon_fieldLine (hfs f List.mem_cons_self)
      (hv f List.mem_cons_self)
    rw [List.map_cons, List.cons_append, loadyaml_pair hempty hdash hsplit, String.ofList_toList]
    exact loadyaml_fields (fun g hg => hfs g (List.mem_cons_of_mem f hg))
      fun g hg => hv g (List.mem_cons_of_mem f hg)

/-- A record, read when another was being read. -/
theorem loadyaml_record {t : Tuple} {fs : List String} {io : List Text} {h : Option Hash}
    {jobs : List Hash} (hfs : ∀ f ∈ fs, IsField f)
    (hv : ∀ f ∈ fs, stripText (t.rendered f) = t.rendered f) :
    loadyaml (['-'] :: (fs.map (fun f => fieldLine f (t.rendered f)) ++ io)) h jobs
      = loadyaml io (some (loadedHash t fs [])) (jobs ++ h.toList) := by
  rw [loadyaml_dash (by decide)]
  exact loadyaml_fields hfs hv

/-- The lines of a record. -/
theorem lines_dumpTuple {t : Tuple} {fs : List String} (hfs : ∀ f ∈ fs, IsField f)
    (hline : ∀ f ∈ fs, '\n' ∉ t.rendered f) (rest : Text) :
    lines (dumpTuple fs t ++ rest)
      = ['-'] :: (fs.map (fun f => fieldLine f (t.rendered f)) ++ lines rest) := by
  unfold dumpTuple
  rw [List.append_assoc, lines_puts (by decide)]
  congr 1
  induction fs with
  | nil => rfl
  | cons f fs ih =>
    have ih := ih (fun g hg => hfs g (List.mem_cons_of_mem f hg))
      fun g hg => hline g (List.mem_cons_of_mem f hg)
    have hnot : '\n' ∉ fieldLine f (t.rendered f) := by
      unfold fieldLine
      simp only [List.mem_cons, List.mem_append, not_or]
      exact ⟨by decide, (hfs f List.mem_cons_self).newline, by decide, by decide,
        hline f List.mem_cons_self⟩
    rw [List.flatMap_cons, List.append_assoc, lines_puts hnot, ih, List.map_cons, List.cons_append]

/-- All records: one job for each tuple, in order.  Induction on the tuples, with the hash that is
    still being read. -/
theorem loadyaml_records {fs : List String} (hfs : ∀ f ∈ fs, IsField f) :
    ∀ {ts : List Tuple} {h : Option Hash} {jobs : List Hash},
      (∀ t ∈ ts, ∀ f ∈ fs, '\n' ∉ t.rendered f ∧ stripText (t.rendered f) = t.rendered f) →
      loadyaml (lines (ts.flatMap (dumpTuple fs))) h jobs
        = .ok (jobs ++ h.toList ++ ts.map fun t => loadedHash t fs [])
  | [], h, jobs, _ => by
    have hlines : lines (([] : List Tuple).flatMap (dumpTuple fs)) = [[]] := rfl
    rw [hlines, loadyaml_blank (by decide), loadyaml]
    simp
  | t :: ts, h, jobs, hts => by
    have ht := hts t List.mem_cons_self
    rw [List.flatMap_cons, lines_dumpTuple hfs fun f hf => (ht f hf).1,
      loadyaml_record hfs fun f hf => (ht f hf).2,
      loadyaml_records hfs fun t' ht' => hts t' (List.mem_cons_of_mem t ht')]
    simp

/-- What `loadio` makes of a listing. -/
theorem loadio_listing {ts : List Tuple} (hne : ts ≠ [])
    (hvalues : ∀ t ∈ ts, ∀ f ∈ fieldNames,
      '\n' ∉ t.rendered f ∧ stripText (t.rendered f) = t.rendered f) :
    loadio (lines (dumpingYamlTuples fieldNames ts)) []
      = .ok (ts.map fun t => loadedHash t fieldNames []) := by
  obtain ⟨t, ts, rfl⟩ := List.exists_cons_of_ne_nil hne
  rw [dumpingYamlTuples, lines_puts (by decide), loadio, if_pos (by decide),
    loadyaml_records isField hvalues]
  rfl

/-- **Dump and load agree.**  The lines printed for some tuples, read by `loadio`, are one job for
    each tuple, in order, with the rendered value of every field. -/
theorem loadio_dump (ts : List Tuple) (hne : ts ≠ [])
    (hvalues : ∀ t ∈ ts, ∀ f ∈ fieldNames,
      '\n' ∉ t.rendered f ∧ stripText (t.rendered f) = t.rendered f) :
    ∃ jobs, loadio (lines (dumpingYamlTuples fieldNames ts)) [] = .ok jobs ∧
      List.Forall₂ (fun t job => ∀ f ∈ fieldNames, job.get f = some (String.ofList (t.rendered f)))
        ts jobs := by
  refine ⟨_, loadio_listing hne hvalues, ?_⟩
  rw [List.forall₂_map_right_iff]
  refine List.forall₂_same.mpr ?_
  intro t _ f hf
  exact loadedHash_get (.inl hf)

/-- A tuple whose values are full of what the format is made of. -/
def awkward : Tuple := fun f =>
  if f = "command" then some "---: - 42 # jid: 7".toList
  else if f = "tag" then some "-".toList
  else none

theorem loadio_dump_awkward : ∃ jobs, loadio (lines (dumpingYamlTuples fieldNames [awkward])) []
    = .ok jobs ∧ List.Forall₂ (fun t job => ∀ f ∈ fieldNames,
      job.get f = some (String.ofList (t.rendered f))) [awkward] jobs := by
  refine loadio_dump [awkward] (by simp) ?_
  intro t ht f _
  rw [List.mem_singleton.mp ht]
  simp only [awkward, Tuple.rendered]
  split
  · decide
  · split <;> decide

/-! ## The reader of `delete` -/

/-- The text after `jid :`, when the line starts so. -/
def afterColon (line : Text) : Text :=
  if (line.take 3).map Char.toLower = "jid".toList then
    match (line.drop 3).dropWhile isBlank with
    | ':' :: rest => rest.dropWhile isBlank
    | _ => line
  else line

/-- `%r/^(?:\s*jid\s*:)?\s*(\d+)\s*$|^\s*(all)\s*$/io` on one line: the group that matches. -/
def deleterMatch (line : Text) : Option Text :=
  let line := strip line
  if allDigits (afterColon line) then some (afterColon line)
  else if line.map Char.toLower = "all".toList then some line
  else none

/-- The arguments `Deleter#delete` reads from stdin. -/
def deleterWhats (stdin : Text) : List Text := (lines stdin).filterMap deleterMatch

/-- The jids it reads from the listing of these rows are the jids of these rows. -/
def DeletesListed (rows : List Row) : Prop :=
  let whats := deleterWhats (dumpingYamlTuples fieldNames (rows.map Tuple.ofRow))
  (∀ w ∈ whats, allDigits w = true ∧ ∃ r ∈ rows, r.jid = digitsValue w) ∧
    ∀ r ∈ rows, ∃ w ∈ whats, allDigits w = true ∧ digitsValue w = r.jid

/-- The lines of a value after its first one. -/
def laterLines (v : Option String) : List Text := (lines (v.getD "").toList).tail

theorem rdropWhile_append_cons {p : Char → Bool} {c : Char} (hc : p c = false) (s : Text) :
    ∀ t : Text, (s ++ c :: t).rdropWhile p = s ++ c :: t.rdropWhile p := by
  intro t
  induction t using List.reverseRecOn with
  | nil =>
    rw [List.rdropWhile_concat_neg _ _ _ (by simp [hc]), List.rdropWhile_nil]
  | append_singleton t d ih =>
    have hassoc : s ++ c :: (t ++ [d]) = (s ++ c :: t) ++ [d] := by simp
    rw [hassoc]
    by_cases hd : p d = true
    · rw [List.rdropWhile_concat_pos _ _ _ hd, List.rdropWhile_concat_pos _ _ _ hd, ih]
    · rw [List.rdropWhile_concat_neg _ _ _ hd, List.rdropWhile_concat_neg _ _ _ hd, hassoc]

/-- A column name begins neither as a number nor as `jid`. -/
theorem Column.name_head (c : Column) : 3 ≤ c.name.toList.length ∧
    (c.name.toList.take 3).map Char.toLower ≠ "jid".toList ∧
    ∀ d ∈ c.name.toList.head?, d.isDigit = false ∧ isBlank d = false := by
  have hhead : c.name.toList.head?.all (fun d => !d.isDigit && !isBlank d) = true := by
    cases c <;> decide
  refine ⟨by cases c <;> decide, by cases c <;> decide, ?_⟩
  intro d hd
  rw [Option.mem_def.mp hd] at hhead
  simpa using hhead

/-- The first line of a column is nothing to `delete`, whatever its value begins with. -/
theorem deleterMatch_column (c : Column) (v : Text) :
    deleterMatch (fieldLine c.name v) = none := by
  obtain ⟨hlen, hjid, hhead⟩ := Column.name_head c
  obtain ⟨d, ds, hname⟩ := List.exists_cons_of_ne_nil c.name_isNameChar.1
  obtain ⟨hdigit, hblank⟩ := hhead d (by rw [hname]; rfl)
  have hstrip : strip (fieldLine c.name v)
      = c.name.toList ++ ':' :: List.rdropWhile isBlank (' ' :: v) := by
    rw [← rdropWhile_append_cons (by decide)]
    unfold strip fieldLine
    rw [List.dropWhile_cons_of_pos (by decide), hname, List.cons_append,
      List.dropWhile_cons_of_neg (by simp [hblank])]
    rfl
  have hafter : afterColon (strip (fieldLine c.name v)) = strip (fieldLine c.name v) := by
    unfold afterColon
    rw [hstrip, List.take_append_of_le_length hlen, if_neg hjid]
  unfold deleterMatch
  dsimp only
  rw [hafter, if_neg, if_neg]
  · intro hall
    have hmem : ':' ∈ (strip (fieldLine c.name v)).map Char.toLower := by
      rw [hstrip]
      simp
    rw [hall] at hmem
    exact absurd hmem (by decide)
  · rw [hstrip, hname]
    simp [allDigits, hdigit]

/-- The line of the key is the jid. -/
theorem deleterMatch_jid (n : Nat) :
    deleterMatch (fieldLine "jid" (toString n).toList) = some (toString n).toList := by
  have hdigits := allDigits_toString n
  have hblank : ∀ c ∈ (toString n).toList, isBlank c = false := by
    intro c hc
    exact isBlank_of_isDigit (isDigit_of_mem_toString hc)
  have hne : (toString n).toList ≠ [] := by simp
  have hself : List.rdropWhile isBlank (' ' :: (toString n).toList) = ' ' :: (toString n).toList := by
    rw [List.rdropWhile_eq_self_iff]
    intro h
    rw [List.getLast_cons hne, hblank _ (List.getLast_mem hne)]
    simp
  have hstrip : strip (fieldLine "jid" (toString n).toList)
      = "jid".toList ++ ':' :: ' ' :: (toString n).toList := by
    rw [← hself, ← rdropWhile_append_cons (by decide)]
    rfl
  have hdrop : (toString n).toList.dropWhile isBlank = (toString n).toList :=
    dropWhile_digits (fun _ => isBlank_of_isDigit) fun _ => isDigit_of_mem_toString
  have hafter : afterColon (strip (fieldLine "jid" (toString n).toList)) = (toString n).toList := by
    rw [hstrip]
    exact hdrop
  unfold deleterMatch
  dsimp only
  rw [hafter, if_pos hdigits]

/-- What the lines of one field are to `delete`. -/
theorem filterMap_fieldLine {f : String} (hf : IsField f) (v : Text) :
    (lines (fieldLine f v)).filterMap deleterMatch
      = (deleterMatch (fieldLine f ((lines v).headD []))).toList ++
          (lines v).tail.filterMap deleterMatch := by
  have hnot : '\n' ∉ fieldLine f [] := by
    unfold fieldLine
    simp only [List.mem_cons, List.mem_append, not_or]
    exact ⟨by decide, hf.newline, by decide, by decide, List.not_mem_nil⟩
  have hsplit : ∀ w : Text, fieldLine f w = fieldLine f [] ++ w := by
    intro w
    simp [fieldLine]
  rw [hsplit v, lines_append hnot, hsplit ((lines v).headD [])]
  cases hlines : lines v with
  | nil => exact absurd hlines (List.splitOn_ne_nil _ _)
  | cons l ls =>
    rw [List.modifyHead_cons, List.headD_cons, List.tail_cons, List.filterMap_cons]
    cases deleterMatch (fieldLine f [] ++ l) <;> rfl

/-- **What `delete` reads from a listing**: for each row its jid, and what the later lines of its
    values hold.  Induction on the rows. -/
theorem deleterWhats_listing : ∀ rows : List Row,
    (lines ((rows.map Tuple.ofRow).flatMap (dumpTuple fieldNames))).filterMap deleterMatch
      = rows.flatMap fun r => (toString r.jid).toList ::
          columns.flatMap fun c => (laterLines (r.get c)).filterMap deleterMatch
  | [] => rfl
  | r :: rows => by
    have hempty : deleterMatch [] = none := by decide
    have hfields : ∀ (cs : List Column) (rest : Text),
        (lines (((cs.map Column.name).flatMap fun f => puts (fieldLine f ((Tuple.ofRow r).rendered f)))
          ++ rest)).filterMap deleterMatch
          = (cs.flatMap fun c => (laterLines (r.get c)).filterMap deleterMatch) ++
            (lines rest).filterMap deleterMatch := by
      intro cs rest
      induction cs with
      | nil => rfl
      | cons c cs ih =>
        rw [List.map_cons, List.flatMap_cons, List.append_assoc, filterMap_lines_puts hempty, ih,
          filterMap_fieldLine (isField _ (by
            have hmem : c ∈ columns := by cases c <;> decide
            exact List.mem_cons_of_mem _ (List.mem_map_of_mem hmem))),
          deleterMatch_column, rendered_ofRow, List.flatMap_cons, List.append_assoc, List.append_assoc]
        rfl
    have hjid : (Tuple.ofRow r).rendered "jid" = (toString r.jid).toList := rfl
    have hnl : '\n' ∉ (toString r.jid).toList := not_mem_toString (by decide) r.jid
    have hdash : deleterMatch ['-'] = none := by decide
    rw [List.map_cons, List.flatMap_cons, List.flatMap_cons, ← deleterWhats_listing rows]
    unfold dumpTuple fieldNames
    rw [List.append_assoc, lines_puts (by decide), List.filterMap_cons_none hdash, List.flatMap_cons,
      List.append_assoc, filterMap_lines_puts hempty, hfields,
      filterMap_fieldLine (isField _ (by decide)), hjid, lines_of_not_mem hnl]
    simp only [List.headD_cons, List.tail_cons, List.filterMap_nil, List.append_nil,
      deleterMatch_jid, Option.toList_some, List.nil_append, List.cons_append]

/-- **Piping a listing into delete.**  The jids read from a listing are those that were listed if
    and only if no later line of a value is read as `all` or as the jid of a job that was not
    listed. -/
theorem delete_reads_listing_iff (rows : List Row) :
    DeletesListed rows ↔ ∀ r ∈ rows, ∀ c : Column, ∀ line ∈ laterLines (r.get c),
      ∀ w, deleterMatch line = some w → allDigits w = true ∧ ∃ s ∈ rows, s.jid = digitsValue w := by
  have hwhats : ∀ w, w ∈ deleterWhats (dumpingYamlTuples fieldNames (rows.map Tuple.ofRow)) ↔
      ∃ r ∈ rows, w = (toString r.jid).toList ∨
        ∃ c : Column, ∃ line ∈ laterLines (r.get c), deleterMatch line = some w := by
    intro w
    have hlisting : deleterWhats (dumpingYamlTuples fieldNames (rows.map Tuple.ofRow))
        = rows.flatMap fun r => (toString r.jid).toList ::
          columns.flatMap fun c => (laterLines (r.get c)).filterMap deleterMatch := by
      rw [← deleterWhats_listing]
      cases rows with
      | nil => rfl
      | cons r rows =>
        have hdashes : deleterMatch ['-', '-', '-'] = none := by decide
        rw [List.map_cons, dumpingYamlTuples, deleterWhats, lines_puts (by decide),
          List.filterMap_cons_none hdashes]
    have hmem : ∀ c : Column, c ∈ columns := by
      intro c
      cases c <;> decide
    rw [hlisting]
    simp only [List.mem_flatMap, List.mem_cons, List.mem_filterMap, hmem, true_and]
  constructor
  · rintro ⟨hread, -⟩ r hr c line hline w hw
    exact hread w ((hwhats w).mpr ⟨r, hr, .inr ⟨c, line, hline, hw⟩⟩)
  · intro h
    constructor
    · intro w hw
      obtain ⟨r, hr, rfl | ⟨c, line, hline, hmatch⟩⟩ := (hwhats w).mp hw
      · exact ⟨allDigits_toString r.jid, r, hr, (digitsValue_toString r.jid).symm⟩
      · exact h r hr c line hline w hmatch
    · intro r hr
      exact ⟨_, (hwhats _).mpr ⟨r, hr, .inl rfl⟩, allDigits_toString r.jid,
        digitsValue_toString r.jid⟩

/-- Two jobs are submitted and the first is listed; its command has a line that is the jid of the
    second. -/
theorem delete_reads_command :
    ∃ db db', JobQueue.submit "2005-07-01" "node1" [{ command := some "echo\n2" }] Jobs.empty = .ok db ∧
      JobQueue.submit "2005-07-01" "node1" [{ command := some "ls" }] db = .ok db' ∧
      ∃ r ∈ db', r.jid = 1 ∧ (∃ s ∈ db', s.jid = 2) ∧
        deleterWhats (dumpingYamlTuples fieldNames [Tuple.ofRow r]) = ["1".toList, "2".toList] ∧
        ¬ DeletesListed [r] := by
  refine ⟨_, _, submit_one rfl, submit_one rfl, _, Jobs.mem_insert.mpr (.inl (Jobs.mem_insert.mpr
    (.inr rfl))), rfl, ⟨_, Jobs.mem_insert.mpr (.inr rfl), rfl⟩, ?_, ?_⟩
  · decide
  · rw [delete_reads_listing_iff]
    intro h
    obtain ⟨-, s, hs, hjid⟩ := h _ (List.mem_singleton_self _) .command "2".toList (by decide)
      "2".toList (by decide)
    rw [List.mem_singleton.mp hs] at hjid
    exact absurd hjid (by decide)

end RubyQueue.Listing
