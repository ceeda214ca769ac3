/-
  `rq q list | rq q submit`: are the listed jobs submitted again?

  The hash read back from a listing has every column of the old row, the paths of its stdin and its
  data among them: `stdin/5` is looked up in the queue, and must be there; `data/5` is looked up in
  the current directory, whatever that is.

  `submitted_again_iff` says when this comes out right: for each listed job its stdin exists, and
  what `data/5` means from here is what it means in the queue.
-/
import RubyQueue.Batch
import RubyQueue.Staging

namespace RubyQueue.Pipeline

open RubyQueue.Sqlite RubyQueue.Quote RubyQueue.JobQueue RubyQueue.Submitter RubyQueue.FileTree
open RubyQueue.JobFiles RubyQueue.Listing RubyQueue.Batch RubyQueue.Staging RubyQueue.Raise

/-! ## The pipeline -/

/-- What `rq q list` prints for these rows. -/
def listing (rows : List Row) : Text := dumpingYamlTuples fieldNames (rows.map Tuple.ofRow)

/-- Submit a listing from stdin or as the infile, with nothing else asked. -/
def Reads (opts : Options) (stdin : Option Text) (text : Text) : Prop :=
  (opts = {} ∧ stdin = some text) ∨ (opts = { infile := some text } ∧ stdin = none)

/-- The new row and its files are those of the listed job. -/
structure Again (p : Place) (before after : Tree) (r s : Row) : Prop where
  state : s.state = some "pending"
  command : s.command = r.command
  priority : s.priority = r.priority
  tag : s.tag = r.tag
  restartable : s.restartable = r.restartable
  stdin : after (standardIn4 p s.jid) = before (standardIn4 p r.jid)
  data : ∀ rel, after (data_4 p s.jid ++ rel) = before (data_4 p r.jid ++ rel)

/-- One new job for each listed one, in order. -/
def SubmittedAgain (p : Place) (rows : List Row) (w w' : World) : Prop :=
  ∃ new : List Row, w'.jobs.rows = w.jobs.rows ++ new ∧ new.length = rows.length ∧
    ∀ (i : Nat) (r s : Row), rows[i]? = some r → new[i]? = some s → Again p w.tree w'.tree r s

/-- The files of job `n` can be given to the new job `jid`. -/
structure Copyable (p : Place) (tree : Tree) (jid n : Nat) : Prop where
  /-- it has a stdin -/
  stdin : ∃ content, tree (standardIn4 p n) = some (.file content)
  /-- there is something by the name of its data here, and the queue is not in it -/
  source : tree (source p n) ≠ none
  apart : ¬ JobFiles.source p n <+: p.queue
  /-- here is no place that is about to be removed -/
  outside : ∀ path ∈ jobPaths p jid, ¬ path <+: p.cwd

/-- The value comes back from a listing and a literal. -/
def Storable (v : Option String) : Prop := ∀ s, v = some s → s ≠ "" ∧ NoAdjacentQuotes s

/-- The listed job can be submitted again as `jid`. -/
structure Resubmittable (p : Place) (tree : Tree) (jid : Nat) (r : Row) : Prop where
  files : Copyable p tree jid r.jid
  sameData : ∀ rel, tree (source p r.jid ++ rel) = tree (data_4 p r.jid ++ rel)
  command : Storable r.command
  priority : Storable r.priority
  tag : Storable r.tag
  restartable : Storable r.restartable

/-! ## One round -/

/-- What a round makes of the files: the new job's, copied, and all others as they were. -/
structure Given (p : Place) (tree : Tree) (jid n : Nat) (tree' : Tree) : Prop where
  stdin : tree' (standardIn4 p jid) = tree (standardIn4 p n)
  data : ∀ rel, tree' (data_4 p jid ++ rel) = tree (source p n ++ rel)
  other : ∀ x, (∀ path ∈ jobPaths p jid, ¬ path <+: x) → tree' x = tree x

/-- The job hash is one read from the listing of job `n`. -/
structure Listed (n : Nat) (job : Hash) : Prop where
  command : job.get "command" ≠ none
  stdin : job.get "stdin" = some (stdin4 n)
  data : job.get "data" = some (data4 n)

section Round

variable {p : Place} {now host : String} {jid n : Nat} {job : Hash} {w w' : World}

/-- The files when the data is copied: nothing of the new job's but its stdin. -/
def cleared (p : Place) (jid : Nat) (content : String) (t : Tree) : Tree :=
  write (standardIn4 p jid) content (rmAll (jobPaths p jid) t)

theorem cleared_none {path x : Path} (hpath : path ∈ jobPaths p jid) (hx : path <+: x)
    (hne : x ≠ standardIn4 p jid) (content : String) (t : Tree) : cleared p jid content t x = none := by
  unfold cleared
  rw [write_ne hne, rmAll_under hx hpath]

theorem cleared_other {x : Path} (hx : ∀ path ∈ jobPaths p jid, ¬ path <+: x) (content : String)
    (t : Tree) : cleared p jid content t x = t x := by
  unfold cleared
  rw [write_other (hx _ List.mem_cons_self), rmAll_other hx]

/-- What a round comes to, when the stdin is there. -/
theorem submitOne_listed (hjob : Listed n job) :
    submitOne p now host jid job w =
      match w.tree (standardIn4 p n) with
      | some (.file content) =>
        match cpR (source p n) (data_4 p jid) (cleared p jid content w.tree) with
        | some t => .ok ⟨w.jobs.insert (submittedRow now host jid job.job), t, w.input⟩
        | none => .error "No such file or directory"
      | _ => .error "No such file or directory" := by
  have hcmd : (job.job.command).isSome = true := Option.isSome_iff_ne_none.mpr hjob.command
  have hname : data4 n ≠ "" := by
    intro h
    have hnil := congrArg String.toList h
    simp [data4] at hnil
  unfold JobFiles.submitOne
  rw [if_neg hjob.command, hjob.stdin, hjob.data, tmpStdin_stdin4]
  cases w.tree (standardIn4 p n) with
  | none => rfl
  | some entry =>
    cases entry with
    | directory => rfl
    | file content =>
      simp only [bind, Except.bind, JobQueue.submitOne_eq, if_pos hcmd, copyData, if_neg hname]
      have htree : copyStdin p jid (some content) (rmAll (jobPaths p jid) w.tree)
          = cleared p jid content w.tree := rfl
      have hsource : expandPath p.cwd (data4 n) = source p n := rfl
      rw [htree, hsource]
      cases cpR (source p n) (data_4 p jid) (cleared p jid content w.tree) with
      | none => rfl
      | some t => rfl

/-- The stdin and the data of a new job have different names. -/
theorem not_data_prefix_stdin (p : Place) (jid : Nat) : ¬ data_4 p jid <+: standardIn4 p jid := by
  rw [data_4_eq, standardIn4_eq, List.prefix_append_right_inj]
  simp

theorem last_source (p : Place) (n : Nat) : (source p n).getLast? = some (toString n) := by
  rw [source_eq]
  simp

/-- What is above the data of a new job is above the queue. -/
theorem source_prefix_data (hne : jid ≠ n) : source p n <+: data_4 p jid ↔ source p n <+: p.queue := by
  rw [data_4_eq]
  constructor
  · intro h
    refine prefix_of_append_two h ?_ ?_
    · rw [last_source]
      intro heq
      exact hne (toString_inj.mp (Option.some.inj heq)).symm
    · rw [last_source]
      intro heq
      exact toString_ne (by decide) (Option.some.inj heq)
  · intro h
    exact h.trans (List.prefix_append _ _)

/-- The copy of the data succeeds exactly when there is something to copy, not above the queue and
    not in a place that has just been removed. -/
theorem cpR_listed (hne : jid ≠ n) (content : String) (tree t : Tree) :
    cpR (source p n) (data_4 p jid) (cleared p jid content tree) = some t ↔
      (tree (source p n) ≠ none ∧ ¬ source p n <+: p.queue ∧
        ∀ path ∈ jobPaths p jid, ¬ path <+: p.cwd) ∧
      t = graft (source p n) (data_4 p jid) (cleared p jid content tree) := by
  have hdata : data_4 p jid ∈ jobPaths p jid := by simp [jobPaths]
  have hfree : ∀ x, data_4 p jid <+: x → cleared p jid content tree x = none := by
    intro x hx
    refine cleared_none hdata hx ?_ content tree
    rintro rfl
    exact not_data_prefix_stdin p jid hx
  rw [cpR_eq_some_iff hfree, source_prefix_data hne]
  have hsource : cleared p jid content tree (source p n) ≠ none ↔
      tree (source p n) ≠ none ∧ ∀ path ∈ jobPaths p jid, ¬ path <+: p.cwd := by
    constructor
    · intro h
      have hout : ∀ path ∈ jobPaths p jid, ¬ path <+: p.cwd := by
        intro path hpath hcwd
        refine h (cleared_none hpath ?_ ?_ content tree)
        · rw [source_eq]
          exact hcwd.trans (List.prefix_append _ _)
        · intro heq
          have hlast := congrArg List.getLast? heq
          rw [last_source, standardIn4_eq] at hlast
          simp only [List.getLast?_append, List.getLast?_cons_cons, List.getLast?_singleton,
            Option.some_or, Option.some.injEq] at hlast
          exact hne (toString_inj.mp hlast).symm
      refine ⟨?_, hout⟩
      rwa [cleared_other fun path hpath => jobPaths_source hne hpath (hout path hpath)] at h
    · rintro ⟨h, hout⟩
      rwa [cleared_other fun path hpath => jobPaths_source hne hpath (hout path hpath)]
  rw [hsource]
  constructor
  · rintro ⟨⟨h, hout⟩, hapart, rfl⟩
    exact ⟨⟨h, hapart, hout⟩, rfl⟩
  · rintro ⟨⟨h, hapart, hout⟩, rfl⟩
    exact ⟨⟨h, hout⟩, hapart, rfl⟩

/-- **When a round succeeds.** -/
theorem submitOne_ok_iff (hne : jid ≠ n) (hjob : Listed n job) :
    (∃ w', JobFiles.submitOne p now host jid job w = .ok w') ↔ Copyable p w.tree jid n := by
  rw [submitOne_listed hjob]
  constructor
  · rintro ⟨w', h⟩
    split at h
    · rename_i content hcontent
      split at h
      · rename_i t ht
        obtain ⟨⟨hsource, hapart, hout⟩, -⟩ := (cpR_listed hne content w.tree t).mp ht
        exact ⟨⟨content, hcontent⟩, hsource, hapart, hout⟩
      · cases h
    · cases h
  · rintro ⟨⟨content, hcontent⟩, hsource, hapart, hout⟩
    rw [hcontent]
    dsimp only
    rw [(cpR_listed hne content w.tree _).mpr ⟨⟨hsource, hapart, hout⟩, rfl⟩]
    exact ⟨_, rfl⟩

/-- **What it has done then.** -/
theorem submitOne_given (hne : jid ≠ n) (hjob : Listed n job)
    (h : JobFiles.submitOne p now host jid job w = .ok w') : Given p w.tree jid n w'.tree := by
  rw [submitOne_listed hjob] at h
  split at h
  swap
  · cases h
  rename_i content hcontent
  split at h
  swap
  · cases h
  rename_i t ht
  obtain rfl := Except.ok.inj h
  obtain ⟨⟨hsource, hapart, hout⟩, rfl⟩ := (cpR_listed hne content w.tree t).mp ht
  have hdata : data_4 p jid ∈ jobPaths p jid := by simp [jobPaths]
  refine ⟨?_, ?_, ?_⟩
  · show graft _ _ _ _ = _
    rw [graft_other (not_data_prefix_stdin p jid), hcontent]
    exact write_self _ _ _
  · intro rel
    show graft _ _ _ _ = _
    rw [graft_copies, cleared_other]
    · intro path hpath
      exact jobPaths_behind_source hne hpath (hout path hpath) hapart rel
    · intro x hx
      refine cleared_none hdata hx ?_ content w.tree
      rintro rfl
      exact not_data_prefix_stdin p jid hx
  · intro x hx
    show graft _ _ _ _ = _
    rw [graft_other (hx _ hdata), cleared_other hx]

end Round

/-! ## All rounds -/

section Rounds

variable {p : Place} {now host : String} {jid n m : Nat} {t t' : Tree}

/-- A listed job's files after a round: they are as they were. -/
theorem Given.stdin4 (h : Given p t jid n t') (hne : jid ≠ m) :
    t' (standardIn4 p m) = t (standardIn4 p m) := by
  refine h.other _ fun path hpath => ?_
  rw [standardIn4_eq, ← List.append_nil (p.queue ++ _)]
  exact jobPaths_apart hne hpath "stdin" []

theorem Given.source (h : Given p t jid n t') (hc : Copyable p t jid n) (hne : jid ≠ m)
    (hapart : ¬ JobFiles.source p m <+: p.queue) (rel : Path) :
    t' (JobFiles.source p m ++ rel) = t (JobFiles.source p m ++ rel) :=
  h.other _ fun path hpath => jobPaths_behind_source hne hpath (hc.outside path hpath) hapart rel

/-- So what can be copied before the round can be copied after it. -/
theorem Given.copyable_iff (h : Given p t jid n t') (hc : Copyable p t jid n) (hne : jid ≠ m)
    {key : Nat} : Copyable p t' key m ↔ Copyable p t key m := by
  have hsource : ¬ JobFiles.source p m <+: p.queue →
      t' (JobFiles.source p m) = t (JobFiles.source p m) := by
    intro hapart
    simpa using h.source hc hne hapart []
  constructor
  · rintro ⟨hstdin, hsome, hapart, hout⟩
    rw [h.stdin4 hne] at hstdin
    rw [hsource hapart] at hsome
    exact ⟨hstdin, hsome, hapart, hout⟩
  · rintro ⟨hstdin, hsome, hapart, hout⟩
    rw [← h.stdin4 hne] at hstdin
    rw [← hsource hapart] at hsome
    exact ⟨hstdin, hsome, hapart, hout⟩

/-- A property of the elements with their positions, from the first one on. -/
theorem forall_getElem?_cons {α : Type} {P : Nat → α → Prop} {a : α} {as : List α} :
    (∀ (i : Nat) (b : α), (a :: as)[i]? = some b → P i b) ↔
      P 0 a ∧ ∀ (i : Nat) (b : α), as[i]? = some b → P (i + 1) b := by
  constructor
  · intro h
    exact ⟨h 0 a rfl, fun i b hb => h (i + 1) b hb⟩
  · rintro ⟨h0, h⟩ i b hb
    cases i with
    | zero =>
      obtain rfl : a = b := Option.some.inj hb
      exact h0
    | succ i => exact h i b hb

variable {hash : Row → Hash}

/-- **When all rounds succeed.**  Induction on the rows: a round changes nothing the next ones look
    at. -/
theorem submitFrom_ok_iff : ∀ {rows : List Row} {jid : Nat} {w : World},
    (∀ r ∈ rows, r.jid < jid ∧ Listed r.jid (hash r)) →
    ((∃ w', JobFiles.submitFrom p now host jid (rows.map hash) w = .ok w') ↔
      ∀ (i : Nat) (r : Row), rows[i]? = some r → Copyable p w.tree (jid + i) r.jid)
  | [], jid, w, _ => by
    constructor
    · intro _ i r h
      cases h
    · intro _
      exact ⟨w, rfl⟩
  | r :: rows, jid, w, hrows => by
    obtain ⟨hlt, hlisted⟩ := hrows r List.mem_cons_self
    have hne : jid ≠ r.jid := (Nat.ne_of_lt hlt).symm
    have hrest : ∀ s ∈ rows, s.jid < jid + 1 ∧ Listed s.jid (hash s) := by
      intro s hs
      obtain ⟨hs, hl⟩ := hrows s (List.mem_cons_of_mem r hs)
      exact ⟨by omega, hl⟩
    have htail : ∀ {w₁ : World}, JobFiles.submitOne p now host jid (hash r) w = .ok w₁ →
        ((∃ w', JobFiles.submitFrom p now host (jid + 1) (rows.map hash) w₁ = .ok w') ↔
          ∀ (i : Nat) (s : Row), rows[i]? = some s → Copyable p w.tree (jid + (i + 1)) s.jid) := by
      intro w₁ hone
      have hc := (submitOne_ok_iff hne hlisted).mp ⟨w₁, hone⟩
      have hgiven := submitOne_given hne hlisted hone
      rw [submitFrom_ok_iff hrest]
      refine forall_congr' fun i => forall_congr' fun s => imp_congr_right fun hs => ?_
      have hlt : s.jid < jid := (hrows s (List.mem_cons_of_mem r (List.mem_of_getElem? hs))).1
      have hshift : jid + (i + 1) = jid + 1 + i := by omega
      rw [hgiven.copyable_iff hc (Nat.ne_of_lt hlt).symm, hshift]
    rw [forall_getElem?_cons, List.map_cons, JobFiles.submitFrom]
    constructor
    · rintro ⟨w', h⟩
      obtain ⟨w₁, hone, h⟩ := bind_eq_ok.mp h
      exact ⟨(submitOne_ok_iff hne hlisted).mp ⟨w₁, hone⟩, (htail hone).mp ⟨w', h⟩⟩
    · rintro ⟨hc, hall⟩
      obtain ⟨w₁, hone⟩ := (submitOne_ok_iff hne hlisted).mpr hc
      rw [hone]
      exact (htail hone).mpr hall

/-- **What they have done then.**  By the same induction: a later round leaves the new jobs alone,
    too. -/
theorem submitFrom_given : ∀ {rows : List Row} {jid : Nat} {w w' : World},
    (∀ r ∈ rows, r.jid < jid ∧ Listed r.jid (hash r)) →
    JobFiles.submitFrom p now host jid (rows.map hash) w = .ok w' →
    (∀ (i : Nat) (r : Row), rows[i]? = some r →
      w'.tree (standardIn4 p (jid + i)) = w.tree (standardIn4 p r.jid) ∧
      ∀ rel, w'.tree (data_4 p (jid + i) ++ rel) = w.tree (source p r.jid ++ rel)) ∧
    ∀ x, (∀ key, jid ≤ key → ∀ path ∈ jobPaths p key, ¬ path <+: x) → w'.tree x = w.tree x
  | [], jid, w, w', _, h => by
    cases h
    constructor
    · intro i r h
      cases h
    · intro x _
      rfl
  | r :: rows, jid, w, w', hrows, h => by
    obtain ⟨hlt, hlisted⟩ := hrows r List.mem_cons_self
    have hne : jid ≠ r.jid := (Nat.ne_of_lt hlt).symm
    have hrest : ∀ s ∈ rows, s.jid < jid + 1 ∧ Listed s.jid (hash s) := by
      intro s hs
      obtain ⟨hs, hl⟩ := hrows s (List.mem_cons_of_mem r hs)
      exact ⟨by omega, hl⟩
    have hcopyable := (submitFrom_ok_iff hrows).mp ⟨w', h⟩
    rw [List.map_cons, JobFiles.submitFrom] at h
    obtain ⟨w₁, hone, h⟩ := bind_eq_ok.mp h
    have hc := (submitOne_ok_iff hne hlisted).mp ⟨w₁, hone⟩
    have hgiven := submitOne_given hne hlisted hone
    obtain ⟨hfiles, hother⟩ := submitFrom_given hrest h
    refine ⟨forall_getElem?_cons.mpr ⟨⟨?_, ?_⟩, ?_⟩, ?_⟩
    · refine (hother _ ?_).trans hgiven.stdin
      intro key hkey path hpath
      rw [standardIn4_eq, ← List.append_nil (p.queue ++ _)]
      exact jobPaths_apart (by omega) hpath "stdin" []
    · intro rel
      refine (hother _ ?_).trans (hgiven.data rel)
      intro key hkey path hpath
      rw [data_4_eq]
      exact jobPaths_apart (by omega) hpath "data" rel
    · intro i s hs
      have hs' : s.jid < jid := (hrows s (List.mem_cons_of_mem r (List.mem_of_getElem? hs))).1
      have hne' : jid ≠ s.jid := (Nat.ne_of_lt hs').symm
      obtain ⟨hstdin, hdata⟩ := hfiles i s hs
      rw [show jid + (i + 1) = jid + 1 + i by omega]
      refine ⟨hstdin.trans (hgiven.stdin4 hne'), fun rel => (hdata rel).trans ?_⟩
      exact hgiven.source hc hne' (hcopyable (i + 1) s hs).apart rel
    · intro x hx
      refine (hother x ?_).trans (hgiven.other x (hx jid (Nat.le_refl jid)))
      intro key hkey
      exact hx key (by omega)

end Rounds

/-! ## The listing, read back -/

/-- The job read back for a row, as `Submitter#submit` hands it on. -/
def listedHash (r : Row) : Hash :=
  (loadedHash (Tuple.ofRow r) fieldNames []).set "state" (some "pending")

/-- Its value for a column but the state: an empty one for NULL. -/
theorem listedHash_get (r : Row) {c : Column} (hc : c ≠ .state) :
    (listedHash r).get c.name = some ((r.get c).getD "") := by
  have hne : c.name ≠ "state" := by
    revert hc
    cases c <;> decide
  have hmem : c.name ∈ fieldNames := by cases c <;> decide
  unfold listedHash
  rw [get_set_ne hne, loadedHash_get (.inl hmem), rendered_ofRow, String.ofList_toList]

/-- The values of the row have no newline and no outer blanks. -/
def Printable (r : Row) : Prop :=
  ∀ c v, r.get c = some v → '\n' ∉ v.toList ∧ stripText v.toList = v.toList

/-- Digits are printed and read as they are. -/
theorem digits_printable {l : Text} (h : ∀ c ∈ l, c.isDigit = true) :
    '\n' ∉ l ∧ stripText l = l := by
  have hne : ∀ c ∈ l, ∀ d : Char, d.isDigit = false → c ≠ d := by
    rintro c hc d hd rfl
    rw [h c hc] at hd
    cases hd
  have hblank : ∀ c ∈ l, isBlank c = false ∧ c ≠ '\x0b' ∧ c ≠ '\x00' := by
    intro c hc
    have hname : isNameChar c = true := by simp [isNameChar, Char.isAlphanum, h c hc]
    exact ⟨isBlank_of_isNameChar hname, hne c hc _ (by decide), hne c hc _ (by decide)⟩
  constructor
  · intro hmem
    exact hne _ hmem _ (by decide) rfl
  · have hdrop : l.dropWhile (fun c => isBlank c || c == '\x0b') = l := by
      cases l with
      | nil => rfl
      | cons c cs =>
        obtain ⟨hb, ht, -⟩ := hblank c List.mem_cons_self
        exact List.dropWhile_cons_of_neg (by simp [hb, ht])
    unfold stripText
    rw [hdrop, List.rdropWhile_eq_self_iff]
    intro hnil
    obtain ⟨hb, ht, hz⟩ := hblank _ (List.getLast_mem hnil)
    simp [hb, ht, hz]

theorem printable_rendered {r : Row} (h : Printable r) : ∀ f ∈ fieldNames,
    '\n' ∉ (Tuple.ofRow r).rendered f ∧
      stripText ((Tuple.ofRow r).rendered f) = (Tuple.ofRow r).rendered f := by
  intro f hf
  rcases List.mem_cons.mp hf with rfl | hf
  · exact digits_printable fun c hc => isDigit_of_mem_toString hc
  · obtain ⟨c, -, rfl⟩ := List.mem_map.mp hf
    rw [rendered_ofRow]
    cases hv : r.get c with
    | none => decide
    | some v => exact h c v hv

/-- **The jobs `Submitter#submit` hands on.** -/
theorem readJobs_listing {opts : Options} {stdin : Option Text} {rows : List Row}
    (hreads : Reads opts stdin (listing rows)) (hprint : ∀ r ∈ rows, Printable r) :
    if rows = [] then readJobs opts [] stdin = .error "no jobs specified!"
    else ∃ jobs, readJobs opts [] stdin = .ok jobs ∧
      jobs.map (stamp opts) = rows.map listedHash := by
  have hfind : ∀ {jobs : List Hash}, loadio (lines (listing rows)) [] = .ok jobs →
      findJobs opts [] stdin = .ok jobs := by
    intro jobs hload
    rcases hreads with ⟨rfl, rfl⟩ | ⟨rfl, rfl⟩
    · exact hload
    · unfold findJobs
      simp only [List.isEmpty_nil, if_true, hload, bind, Except.bind]
      cases jobs <;> rfl
  have hstamp : ∀ r : Row, stamp opts (loadedHash (Tuple.ofRow r) fieldNames []) = listedHash r := by
    intro r
    rcases hreads with ⟨rfl, -⟩ | ⟨rfl, -⟩ <;> rfl
  split
  · rename_i hnil
    subst hnil
    unfold readJobs
    rw [hfind rfl]
    rfl
  · rename_i hne
    have hload : loadio (lines (listing rows)) []
        = .ok ((rows.map Tuple.ofRow).map fun t => loadedHash t fieldNames []) := by
      refine loadio_listing (by simpa using hne) ?_
      intro t ht
      obtain ⟨r, hr, rfl⟩ := List.mem_map.mp ht
      exact printable_rendered (hprint r hr)
    refine ⟨(rows.map Tuple.ofRow).map fun t => loadedHash t fieldNames [], ?_, ?_⟩
    · unfold readJobs
      rw [hfind hload]
      dsimp only
      rw [if_neg (by simpa using hne)]
    · rw [List.map_map, List.map_map]
      exact List.map_congr_left fun r _ => hstamp r

/-! ## Submitted again -/

/-- A value that is printed and stored comes back exactly when it is storable: NULL is printed as
    the empty text, and the empty text is stored as NULL. -/
theorem storedText_getD_iff (v : Option String) : storedText (some (v.getD "")) = v ↔ Storable v := by
  cases v with
  | none =>
    have hstored : storedText (some "") = none := by decide
    constructor
    · intro _ s hs
      cases hs
    · intro _
      exact hstored
  | some s =>
    by_cases hs : s = ""
    · subst hs
      have hstored : storedText (some "") ≠ some "" := by decide
      constructor
      · intro h
        exact absurd h hstored
      · intro h
        exact absurd rfl (h "" rfl).1
    · show storedText (some s) = some s ↔ _
      rw [storedText_eq_self_iff hs]
      constructor
      · intro h t ht
        obtain rfl := Option.some.inj ht
        exact ⟨hs, h⟩
      · intro h
        exact (h s rfl).2

/-- The new job is the listed one again exactly when the data was found and the values are
    storable. -/
theorem again_iff {p : Place} {before after : Tree} {jid : Nat} {now host : String} {r : Row}
    (hstdin : after (standardIn4 p jid) = before (standardIn4 p r.jid))
    (hdata : ∀ rel, after (data_4 p jid ++ rel) = before (source p r.jid ++ rel)) :
    Again p before after r { submittedRow now host jid (listedHash r).job with jid := jid } ↔
      (∀ rel, before (source p r.jid ++ rel) = before (data_4 p r.jid ++ rel)) ∧
      Storable r.command ∧ Storable r.priority ∧ Storable r.tag ∧ Storable r.restartable := by
  have hcommand := storedText_getD_iff r.command
  have hpriority := storedText_getD_iff r.priority
  have htag := storedText_getD_iff r.tag
  have hrestartable := storedText_getD_iff r.restartable
  have hjob : (listedHash r).job.command = some (r.command.getD "") ∧
      (listedHash r).job.priority = some (r.priority.getD "") ∧
      (listedHash r).job.tag = some (r.tag.getD "") ∧
      (listedHash r).job.restartable = some (r.restartable.getD "") :=
    ⟨@listedHash_get r .command (by decide), @listedHash_get r .priority (by decide),
      @listedHash_get r .tag (by decide), @listedHash_get r .restartable (by decide)⟩
  rw [← hcommand, ← hpriority, ← htag, ← hrestartable]
  constructor
  · intro h
    refine ⟨fun rel => (hdata rel).symm.trans (h.data rel), ?_, ?_, ?_, ?_⟩
    · rw [← hjob.1]
      exact h.command
    · have hp : storedText (some ((listedHash r).job.priority.getD "0")) = r.priority := h.priority
      rwa [hjob.2.1] at hp
    · rw [← hjob.2.2.1]
      exact h.tag
    · rw [← hjob.2.2.2]
      exact h.restartable
  · rintro ⟨hsame, hc, hp, ht, hr⟩
    refine ⟨rfl, ?_, ?_, ?_, ?_, hstdin, fun rel => (hdata rel).trans (hsame rel)⟩
    · show storedText (listedHash r).job.command = r.command
      rw [hjob.1, hc]
    · show storedText (some ((listedHash r).job.priority.getD "0")) = r.priority
      rw [hjob.2.1]
      exact hp
    · show storedText (listedHash r).job.tag = r.tag
      rw [hjob.2.2.1, ht]
    · show storedText (listedHash r).job.restartable = r.restartable
      rw [hjob.2.2.2, hr]

/-- The hash names its files as the row does. -/
theorem listedHash_listed {r : Row} (hown : OwnPaths r) : Listed r.jid (listedHash r) := by
  refine ⟨?_, ?_, ?_⟩
  · rw [show "command" = Column.name .command from rfl, listedHash_get r (by decide)]
    exact Option.some_ne_none _
  · refine (@listedHash_get r .stdin (by decide)).trans ?_
    exact congrArg (fun v => some (Option.getD v "")) hown.stdin
  · refine (@listedHash_get r .data (by decide)).trans ?_
    exact congrArg (fun v => some (Option.getD v "")) hown.data

/-- The rows `submit` makes of the listed jobs. -/
def submittedRows (now host : String) (jid : Nat) (rows : List Row) : List Row :=
  newRows now host jid ((rows.map listedHash).map Hash.job)

theorem submittedRows_get {now host : String} {jid i : Nat} {rows : List Row} {r : Row}
    (hr : rows[i]? = some r) : (submittedRows now host jid rows)[i]? =
      some { submittedRow now host (jid + i) (listedHash r).job with jid := jid + i } := by
  rw [submittedRows, newRows_getElem?, List.getElem?_map, List.getElem?_map, hr]
  rfl

theorem length_submittedRows (now host : String) (jid : Nat) (rows : List Row) :
    (submittedRows now host jid rows).length = rows.length := by
  have hlength := congrArg List.length
    (@newRows_jid now host ((rows.map listedHash).map Hash.job) jid)
  simpa [submittedRows] using hlength

/-- The table after the submission. -/
theorem submitFrom_rows {p : Place} {now host : String} {w w' : World} {rows : List Row}
    (h : JobFiles.submitFrom p now host (w.jobs.maxJid + 1) (rows.map listedHash) w = .ok w') :
    w'.jobs.rows = w.jobs.rows ++ submittedRows now host (w.jobs.maxJid + 1) rows :=
  (submit_ok (submitFrom_jobs h)).1

/-- **When a listing can be submitted again.**  For any rows of a queue, from any directory: exactly
    when there are some and each has a stdin, data that is found from here and is its own, and
    values that a literal gives back. -/
theorem submitted_again_iff (p : Place) (now host tmp : String) (w : World) (rows : List Row)
    (hrows : ∀ r ∈ rows, r ∈ w.jobs ∧ OwnPaths r ∧ Printable r) (opts : Options)
    (stdin : Option Text) (hreads : Reads opts stdin (listing rows)) :
    (∃ w', submitter p now host tmp opts [] stdin w = .ok w' ∧ SubmittedAgain p rows w w') ↔
      rows ≠ [] ∧ ∀ (i : Nat) (r : Row), rows[i]? = some r →
        Resubmittable p w.tree (w.jobs.maxJid + 1 + i) r := by
  have hread := readJobs_listing hreads fun r hr => (hrows r hr).2.2
  by_cases hnil : rows = []
  · rw [if_pos hnil] at hread
    constructor
    · rintro ⟨w', h, -⟩
      unfold submitter at h
      rw [hread] at h
      cases h
    · rintro ⟨hne, -⟩
      exact absurd hnil hne
  rw [if_neg hnil] at hread
  obtain ⟨jobs, hjobs, hstamp⟩ := hread
  have hsubmit : submitter p now host tmp opts [] stdin w
      = JobFiles.submitFrom p now host (w.jobs.maxJid + 1) (rows.map listedHash) w := by
    have hinit : initJobStdin p tmp opts w = (opts, w) := by
      unfold initJobStdin
      rcases hreads with ⟨rfl, -⟩ | ⟨rfl, -⟩ <;> rfl
    rw [submitter_of_readJobs hjobs, hinit, ← hstamp]
    rfl
  have hlisted : ∀ r ∈ rows, r.jid < w.jobs.maxJid + 1 ∧ Listed r.jid (listedHash r) := by
    intro r hr
    obtain ⟨hmem, hown, -⟩ := hrows r hr
    exact ⟨Nat.lt_succ_of_le (Jobs.jid_le_maxJid hmem), listedHash_listed hown⟩
  rw [hsubmit]
  constructor
  · rintro ⟨w', hok, new, hnew, -, hagain⟩
    obtain rfl : new = submittedRows now host (w.jobs.maxJid + 1) rows :=
      List.append_cancel_left (hnew.symm.trans (submitFrom_rows hok))
    have hcopyable := (submitFrom_ok_iff hlisted).mp ⟨w', hok⟩
    obtain ⟨hfiles, -⟩ := submitFrom_given hlisted hok
    refine ⟨hnil, fun i r hr => ?_⟩
    obtain ⟨hstdin, hdata⟩ := hfiles i r hr
    have hi := hagain i r _ hr (submittedRows_get hr)
    obtain ⟨hsame, hc, hp, ht, he⟩ := (again_iff hstdin hdata).mp hi
    exact ⟨hcopyable i r hr, hsame, hc, hp, ht, he⟩
  · rintro ⟨-, hall⟩
    obtain ⟨w', hok⟩ := (submitFrom_ok_iff hlisted).mpr fun i r hr => (hall i r hr).files
    obtain ⟨hfiles, -⟩ := submitFrom_given hlisted hok
    refine ⟨w', hok, _, submitFrom_rows hok, length_submittedRows _ _ _ _, fun i r s hr hs => ?_⟩
    obtain rfl := Option.some.inj ((submittedRows_get hr).symm.trans hs)
    obtain ⟨hstdin, hdata⟩ := hfiles i r hr
    obtain ⟨-, hsame, hc, hp, ht, he⟩ := hall i r hr
    exact (again_iff hstdin hdata).mpr ⟨hsame, hc, hp, ht, he⟩

/-! ## One job -/

/-- A job that has run. -/
def finishedRow : Row :=
  ⟨1, some "0", some "finished", some "2005-07-01", some "2005-07-02", some "2005-07-03", some "1.0",
    some "node1", some "node1", some "stdin/1", some "stdout/1", some "stderr/1", some "data/1",
    some "100", some "0", none, none, some "sort"⟩

theorem finishedRow_listed : OwnPaths finishedRow ∧ Printable finishedRow := by
  refine ⟨⟨by decide, Or.inr (by decide), Or.inr (by decide), by decide⟩, ?_⟩
  intro c v hv
  cases c <;> cases hv <;> decide

/-- The queue it is in, with these files. -/
def oneJob (files : List (Path × Entry)) : World :=
  ⟨⟨[finishedRow], List.pairwise_singleton _ _⟩, fun path => files.lookup path, ""⟩

theorem oneJob_listed (files : List (Path × Entry)) :
    ∀ r ∈ [finishedRow], r ∈ (oneJob files).jobs ∧ OwnPaths r ∧ Printable r := by
  intro r hr
  rw [List.mem_singleton.mp hr]
  exact ⟨List.mem_singleton_self _, finishedRow_listed⟩

/-- Its stdin, its data directory and a file there. -/
def queueFiles : List (Path × Entry) :=
  [(["q", "stdin", "1"], .file "b a"), (["q", "data", "1"], .directory),
    (["q", "data", "1", "words"], .file "c")]

/-- `cd q`, and then the pipeline. -/
theorem submitted_again_in_queue : ∃ w',
    submitter ⟨["q"], ["q"]⟩ "2005-07-04" "node1" "/tmp/1_1" {} []
      (some (listing [finishedRow])) (oneJob queueFiles) = .ok w' ∧
    SubmittedAgain ⟨["q"], ["q"]⟩ [finishedRow] (oneJob queueFiles) w' := by
  refine (submitted_again_iff ⟨["q"], ["q"]⟩ _ _ _ _ _ (oneJob_listed queueFiles) _ _
    (Or.inl ⟨rfl, rfl⟩)).mpr ⟨by simp, ?_⟩
  intro i r hr
  obtain ⟨rfl, rfl⟩ : i = 0 ∧ r = finishedRow := by
    cases i with
    | zero => exact ⟨rfl, (Option.some.inj hr).symm⟩
    | succ i => cases hr
  have hplain : ∀ s ∈ ["0", "sort"], s ≠ "" ∧ NoAdjacentQuotes s := by
    unfold NoAdjacentQuotes
    decide
  refine ⟨⟨⟨"b a", ?_⟩, ?_, ?_, ?_⟩, ?_, ?_, ?_, ?_, ?_⟩
  · decide
  · decide
  · decide
  · decide
  · intro rel
    rw [source_eq, data_4_eq]
  · intro s hs
    cases hs
    exact hplain _ (by simp)
  · intro s hs
    cases hs
    exact hplain _ (by simp)
  · intro s hs
    cases hs
  · intro s hs
    cases hs

/-- The pipeline from another directory; and, in the queue, for a job submitted without a stdin. -/
theorem not_submitted_again :
    (¬ ∃ w', submitter ⟨["q"], ["home"]⟩ "2005-07-04" "node1" "/tmp/1_1" {} []
      (some (listing [finishedRow])) (oneJob queueFiles) = .ok w' ∧
      SubmittedAgain ⟨["q"], ["home"]⟩ [finishedRow] (oneJob queueFiles) w') ∧
    ¬ ∃ w', submitter ⟨["q"], ["q"]⟩ "2005-07-04" "node1" "/tmp/1_1" {} []
      (some (listing [finishedRow])) (oneJob [(["q", "data", "1"], .directory)]) = .ok w' ∧
      SubmittedAgain ⟨["q"], ["q"]⟩ [finishedRow] (oneJob [(["q", "data", "1"], .directory)]) w' := by
  constructor
  · rw [submitted_again_iff _ _ _ _ _ _ (oneJob_listed queueFiles) _ _ (Or.inl ⟨rfl, rfl⟩)]
    rintro ⟨-, h⟩
    exact absurd (h 0 finishedRow rfl).files.source (by decide)
  · rw [submitted_again_iff _ _ _ _ _ _ (oneJob_listed _) _ _ (Or.inl ⟨rfl, rfl⟩)]
    rintro ⟨-, h⟩
    obtain ⟨content, hstdin⟩ := (h 0 finishedRow rfl).files.stdin
    have hnone : (oneJob [(["q", "data", "1"], .directory)]).tree
        (standardIn4 ⟨["q"], ["q"]⟩ 1) = none := by decide
    rw [show finishedRow.jid = 1 from rfl, hnone] at hstdin
    cases hstdin

end RubyQueue.Pipeline
