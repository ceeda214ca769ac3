/-
  Does a touch leave one pending job of each kind?

  `Toucher#touch` tells jobs apart by their stripped command and tag.  It looks the pending jobs up
  once, before its loop: a job of the batch that matches one of them updates it, any other one is
  submitted.  The jobs the loop has submitted itself are not looked for, so a batch that gives one
  command twice submits it twice; and what is submitted is stored as `QDB.q` writes it, which may be
  another text than the one looked up.

  This is about the table; `Toucher` adds the files.  `pendingKeys_loop` says what the loop leaves
  pending, `distinct_iff` when that is one job of each kind.
-/
import Mathlib.Algebra.Order.BigOperators.Group.List
import Mathlib.Data.List.Perm.Subperm
import RubyQueue.Update

namespace RubyQueue.Touch

open RubyQueue.Sqlite RubyQueue.Quote RubyQueue.JobQueue RubyQueue.Raise
open RubyQueue.Update (assign_jid get_assign_of_not_mem setWhere_assign oneJob)

/-! ## Lists that a map does not enlarge -/

section Lists

variable {α : Type} {f : α → α} {size : α → Nat}

/-- A map that makes no element bigger, and onto a list that holds the elements it started from,
    leaves the size of each as it is. -/
theorem size_map_eq {ks : List α} (hle : ∀ k ∈ ks, size (f k) ≤ size k) (hsub : ks ⊆ ks.map f)
    (hn : (ks.map f).Nodup) : ∀ k ∈ ks, size (f k) = size k := by
  have hperm : ks.Perm (ks.map f) := by
    refine (List.subperm_of_subset (hn.of_map f) hsub).perm_of_length_le ?_
    rw [List.length_map]
  have hsum : (ks.map fun k => size (f k)).sum = (ks.map size).sum := by
    have h := (hperm.map size).sum_eq
    rw [List.map_map] at h
    exact h.symm
  intro k hk
  by_contra hne
  have hlt : (ks.map fun k => size (f k)).sum < (ks.map size).sum :=
    List.sum_lt_sum _ _ hle ⟨k, hk, lt_of_le_of_ne (hle k hk) hne⟩
  omega

end Lists

/-! ## The pair a job is told apart by -/

/-- A row that waits for a feeder. -/
def pendingRows (db : Jobs) : List Row := db.rows.filter fun r => r.state == some "pending"

/-- The pair of a row; one without a command has none. -/
def rowKey (r : Row) : Option (Text × Text) := r.command.map fun c => touchKey c r.tag

def pendingKeys (db : Jobs) : List (Option (Text × Text)) := (pendingRows db).map rowKey

def jobKey (job : JobHash) : Option (Text × Text) := job.command.map fun c => touchKey c job.tag

/-- The pair of the row a submission of the job makes. -/
def storedKey (job : JobHash) : Option (Text × Text) :=
  (storedText job.command).map fun c => touchKey c (storedText job.tag)

/-- The jobs that match no pending one. -/
def newJobs (jobs : List JobHash) (db : Jobs) : List JobHash :=
  jobs.filter fun job => jobKey job ∉ pendingKeys db

/-- Every pending job has a pair, and no two have the same. -/
def DistinctPairs (db : Jobs) : Prop :=
  (∀ r ∈ pendingRows db, r.command.isSome) ∧ (pendingKeys db).Nodup

/-- What a touch is for. -/
structure DoesNotDuplicate (jobs : List JobHash) (db db' : Jobs) : Prop where
  distinct : DistinctPairs db'
  present : ∀ job ∈ jobs, jobKey job ∈ pendingKeys db'
  kept : ∀ r ∈ pendingRows db, ∃ s ∈ pendingRows db', s.jid = r.jid

/-- The text of the command and the tag are stored as they were looked up. -/
structure KeepsPair (job : JobHash) : Prop where
  command : job.command ≠ some ""
  quotes : ∀ k ∈ jobKey job, ¬ ['\'', '\''] <:+: k.1 ∧ ¬ ['\'', '\''] <:+: k.2

theorem list_pending (db : Jobs) : list [.text "pending"] db = pendingRows db := by
  unfold list pendingRows
  refine List.filter_congr fun r _ => ?_
  have hsel : (ListArg.text "pending").selects r = eqLit r.state "pending" := rfl
  show ([ListArg.text "pending"].any fun a => a.selects r) = _
  rw [List.any_cons, List.any_nil, Bool.or_false, hsel, Bool.eq_iff_iff, eqLit_word.1, beq_iff_eq]

/-! ## The pair as it is stored -/

theorem halve_concat {c : Char} (hc : c ≠ '\'') (s : Text) : halve (s ++ [c]) = halve s ++ [c] := by
  fun_induction halve s with
  | case1 s ih => simp [halve, ih]
  | case2 d s hs ih =>
    rw [List.cons_append, halve_cons, ih, List.cons_append]
    rintro t rfl ht
    cases s with
    | nil => exact hc (List.cons.inj ht).1
    | cons e s =>
      obtain rfl : e = '\'' := (List.cons.inj ht).1
      exact hs s rfl rfl
  | case3 =>
    rw [List.nil_append, halve_cons fun _ h _ => hc h]
    rfl

theorem getLast?_halve (s : Text) : (halve s).getLast? = s.getLast? := by
  fun_induction halve s with
  | case1 s ih =>
    cases s with
    | nil => rfl
    | cons c s => rw [List.getLast?_cons, ih]; simp [List.getLast?_cons]
  | case2 c s hs ih => rw [List.getLast?_cons, List.getLast?_cons, ih]
  | case3 => rfl

/-- Blanks are no quotes, so stripping and halving commute. -/
theorem halve_dropWhile {p : Char → Bool} (hp : p '\'' = false) (s : Text) :
    halve (s.dropWhile p) = (halve s).dropWhile p := by
  induction s with
  | nil => rfl
  | cons c s ih =>
    cases hc : p c with
    | true =>
      have hne : c ≠ '\'' := by
        rintro rfl
        rw [hp] at hc
        cases hc
      rw [List.dropWhile_cons_of_pos hc, ih, halve_cons fun _ h _ => hne h,
        List.dropWhile_cons_of_pos hc]
    | false =>
      have hhead : ∃ t, halve (c :: s) = c :: t := by
        unfold halve
        split
        · rename_i h
          obtain ⟨rfl, -⟩ := List.cons.inj h
          exact ⟨_, rfl⟩
        · rename_i h
          obtain ⟨rfl, rfl⟩ := List.cons.inj h
          exact ⟨_, rfl⟩
        · rename_i h
          cases h
      obtain ⟨t, ht⟩ := hhead
      rw [List.dropWhile_cons_of_neg (by simp [hc]), ht, List.dropWhile_cons_of_neg (by simp [hc])]

theorem halve_rdropWhile {p : Char → Bool} (hp : p '\'' = false) (s : Text) :
    halve (s.rdropWhile p) = (halve s).rdropWhile p := by
  induction s using List.reverseRecOn with
  | nil => rfl
  | append_singleton s c ih =>
    cases hc : p c with
    | true =>
      have hne : c ≠ '\'' := by
        rintro rfl
        rw [hp] at hc
        cases hc
      rw [List.rdropWhile_concat_pos _ _ _ hc, ih, halve_concat hne,
        List.rdropWhile_concat_pos _ _ _ hc]
    | false =>
      rw [List.rdropWhile_concat_neg _ _ _ (by simp [hc])]
      refine (List.rdropWhile_eq_self_iff.mpr fun hne => ?_).symm
      have hlast : (halve (s ++ [c])).getLast? = some c := by
        rw [getLast?_halve, List.getLast?_concat]
      rw [List.getLast?_eq_some_getLast hne] at hlast
      rw [Option.some.inj hlast, hc]
      exact Bool.false_ne_true

theorem stripText_halve (s : Text) : stripText (halve s) = halve (stripText s) := by
  unfold stripText
  rw [halve_rdropWhile (by decide), halve_dropWhile (by decide)]

/-- A pair with the quotes of both its texts halved. -/
def halveKey (k : Text × Text) : Text × Text := (halve k.1, halve k.2)

def keySize (k : Text × Text) : Nat := k.1.length + k.2.length

theorem keySize_halveKey (k : Text × Text) : keySize (halveKey k) ≤ keySize k :=
  Nat.add_le_add (length_halve_le k.1) (length_halve_le k.2)

theorem halveKey_eq_self_iff (k : Text × Text) :
    halveKey k = k ↔ ¬ ['\'', '\''] <:+: k.1 ∧ ¬ ['\'', '\''] <:+: k.2 := by
  rw [← halve_eq_self_iff, ← halve_eq_self_iff, halveKey, Prod.ext_iff]

theorem halve_eq_self_of_length {s : Text} (h : (halve s).length = s.length) : halve s = s := by
  fun_induction halve s with
  | case1 s ih =>
    have := length_halve_le s
    simp only [List.length_cons] at h
    omega
  | case2 c s hs ih =>
    rw [List.length_cons, List.length_cons] at h
    rw [ih (Nat.succ.inj h)]
  | case3 => rfl

theorem halveKey_eq_self_of_size {k : Text × Text} (h : keySize (halveKey k) = keySize k) :
    halveKey k = k := by
  have h1 : (halve k.1).length ≤ k.1.length := length_halve_le k.1
  have h2 : (halve k.2).length ≤ k.2.length := length_halve_le k.2
  have hsum : (halve k.1).length + (halve k.2).length = k.1.length + k.2.length := h
  exact Prod.ext (halve_eq_self_of_length (by omega)) (halve_eq_self_of_length (by omega))

/-- **The pair a submission is stored under**: an empty command is stored as NULL. -/
theorem storedKey_eq {job : JobHash} {c : String} (hc : job.command = some c) :
    storedKey job = if c = "" then none else some (halveKey (touchKey c job.tag)) := by
  have htag : ((storedText job.tag).getD "").toList = halve (job.tag.getD "").toList := by
    unfold storedText
    cases job.tag with
    | none => rfl
    | some t =>
      show (((stored (some t.toList)).map String.ofList).getD "").toList = halve t.toList
      cases ht : t.toList with
      | nil => rfl
      | cons c s => exact String.toList_ofList
  unfold storedKey
  rw [hc]
  split
  · rename_i h
    rw [h]
    rfl
  · rename_i hne
    obtain ⟨d, s, hs⟩ := List.exists_cons_of_ne_nil (show c.toList ≠ [] by simpa using hne)
    have hstored : storedText (some c) = some (String.ofList (halve c.toList)) := by
      show (stored (some c.toList)).map String.ofList = _
      rw [hs]
      rfl
    rw [hstored, Option.map_some]
    unfold touchKey halveKey
    rw [htag, String.toList_ofList, stripText_halve, stripText_halve]

theorem storedKey_of_keepsPair {job : JobHash} (hc : job.command.isSome = true)
    (h : KeepsPair job) : storedKey job = jobKey job := by
  obtain ⟨c, hc⟩ := Option.isSome_iff_exists.mp hc
  have hne : c ≠ "" := by
    rintro rfl
    exact h.command hc
  have hkey : jobKey job = some (touchKey c job.tag) := by rw [jobKey, hc, Option.map_some]
  rw [storedKey_eq hc, if_neg hne, hkey, (halveKey_eq_self_iff _).mpr (h.quotes _ hkey)]

/-! ## One job of the batch -/

/-- The assignments of an update that touches a job. -/
def touchAssigns (job : JobHash) : List (Column × Option String) :=
  [(.priority, job.priority), (.runner, job.runner), (.restartable, job.restartable)].filter
    fun cv => cv.2.isSome

theorem validPairs_touchKvs (job : JobHash) : validPairs (touchKvs job) = .ok (touchAssigns job) := by
  unfold touchKvs touchAssigns
  cases job.priority <;> cases job.runner <;> cases job.restartable <;> rfl

theorem mem_touchAssigns {job : JobHash} {cv : Column × Option String} (h : cv ∈ touchAssigns job) :
    cv.1 ∈ [Column.priority, .runner, .restartable] ∧ ∃ kv ∈ touchKvs job, kv.2 = cv.2 := by
  obtain ⟨hmem, hsome⟩ := List.mem_filter.mp h
  simp only [List.mem_cons, List.not_mem_nil, or_false] at hmem
  unfold touchKvs
  rcases hmem with rfl | rfl | rfl
  · exact ⟨by simp, ("priority", _), List.mem_filter.mpr ⟨by simp, hsome⟩, rfl⟩
  · exact ⟨by simp, ("runner", _), List.mem_filter.mpr ⟨by simp, hsome⟩, rfl⟩
  · exact ⟨by simp, ("restartable", _), List.mem_filter.mpr ⟨by simp, hsome⟩, rfl⟩

/-- The texts of the job's values end where they were meant to. -/
def PairedValues (job : JobHash) : Prop :=
  ∀ kv ∈ touchKvs job, ∀ v ∈ kv.2, Paired v.toList

/-- An update that touches a job leaves each row its jid, its state and its pair. -/
structure SameJob (r s : Row) : Prop where
  jid : s.jid = r.jid
  state : s.state = r.state
  key : rowKey s = rowKey r

theorem sameJob_assign (job : JobHash) (p : Row → Bool) (r : Row) :
    SameJob r (setWhere p (·.assign (readBack (touchAssigns job))) r) := by
  have hget : ∀ c, c ∉ [Column.priority, .runner, .restartable] →
      (r.assign (readBack (touchAssigns job))).get c = r.get c := by
    intro c hc
    refine get_assign_of_not_mem (fun cv hcv heq => ?_) r
    obtain ⟨cv', hcv', rfl⟩ := List.mem_map.mp hcv
    exact hc (heq ▸ (mem_touchAssigns hcv').1)
  rw [setWhere_assign]
  split
  · have htag : (r.assign (readBack (touchAssigns job))).tag = r.tag := hget .tag (by decide)
    have hcommand : (r.assign (readBack (touchAssigns job))).command = r.command :=
      hget .command (by decide)
    exact ⟨assign_jid _ r, hget .state (by decide), by rw [rowKey, rowKey, htag, hcommand]⟩
  · exact ⟨rfl, rfl, rfl⟩

theorem pendingRows_update {db : Jobs} {p : Row → Bool} {f : Row → Row}
    (h : ∀ r, SameJob r (setWhere p f r)) :
    pendingRows (db.update p f) = (pendingRows db).map (setWhere p f) := by
  unfold pendingRows
  show (db.rows.map (setWhere p f)).filter _ = _
  rw [List.filter_map]
  refine congrArg (List.map (setWhere p f)) (List.filter_congr fun r _ => ?_).symm
  show (r.state == some "pending") = ((setWhere p f r).state == some "pending")
  rw [(h r).state]

/-- Touching a pending job leaves what is pending as it is. -/
theorem pendingKeys_update {db : Jobs} {p : Row → Bool} {f : Row → Row}
    (h : ∀ r, SameJob r (setWhere p f r)) : pendingKeys (db.update p f) = pendingKeys db := by
  unfold pendingKeys
  rw [pendingRows_update h, List.map_map]
  exact List.map_congr_left fun r _ => (h r).key

/-- The update of one job commits. -/
theorem update_touch {sqlite : OtherSql} {job : JobHash} {jid : Nat} (hq : PairedValues job)
    (db : Jobs) : update sqlite (touchKvs job) [.jid jid] db =
      .ok (db.update (updatable [jid]) (·.assign (readBack (touchAssigns job)))) := by
  have hpaired : ∀ cv ∈ touchAssigns job, ∀ v ∈ cv.2, Paired v.toList := by
    intro cv hcv v hv
    obtain ⟨kv, hkv, heq⟩ := (mem_touchAssigns hcv).2
    exact hq kv hkv v (heq ▸ hv)
  have hok : ∃ db', update sqlite (touchKvs job) [.jid jid] db = .ok db' := by
    unfold update
    rw [validPairs_touchKvs]
    by_cases hempty : touchAssigns job = []
    · rw [hempty]
      exact ⟨db, rfl⟩
    · refine ⟨db.update (updatable [jid]) (·.assign (readBack (touchAssigns job))), ?_⟩
      show (if (touchAssigns job).isEmpty then _ else _) = _
      rw [if_neg (by simpa using hempty), assignments_updateSet hempty hpaired]
      rfl
  obtain ⟨db', h⟩ := hok
  rw [h, update_reads (validPairs_touchKvs job) hpaired h]
  rfl

theorem pendingRows_insert {db : Jobs} {r : Row} (h : r.state = some "pending") :
    pendingRows (db.insert r) = pendingRows db ++ [{ r with jid := db.maxJid + 1 }] := by
  unfold pendingRows
  show (db.rows ++ [{ r with jid := db.maxJid + 1 }]).filter _ = _
  rw [List.filter_append, List.filter_singleton]
  simp [h]

/-- A submission adds the pair it is stored under. -/
theorem pendingKeys_submit {now host : String} {job : JobHash} {db : Jobs} :
    pendingKeys (db.insert (submittedRow now host (db.maxJid + 1) job)) =
      pendingKeys db ++ [storedKey job] := by
  unfold pendingKeys
  rw [pendingRows_insert rfl, List.map_append]
  rfl

theorem matches_iff {r : Row} {c : String} {tag : Option String} :
    (r.command.any fun c' => touchKey c' r.tag == touchKey c tag) = true ↔
      rowKey r = some (touchKey c tag) := by
  unfold rowKey
  cases r.command <;> simp

section Lookup

variable {pending : List Row} {c : String} {tag : Option String}

/-- The pending job a job of the batch matches. -/
theorem matched_of_getLast? {r : Row}
    (h : (pending.filter fun r => r.command.any fun c' => touchKey c' r.tag == touchKey c tag).getLast?
      = some r) : r ∈ pending ∧ rowKey r = some (touchKey c tag) := by
  obtain ⟨hr, hmatch⟩ := List.mem_filter.mp (List.mem_of_getLast? h)
  exact ⟨hr, matches_iff.mp hmatch⟩

theorem unmatched_of_getLast?
    (h : (pending.filter fun r => r.command.any fun c' => touchKey c' r.tag == touchKey c tag).getLast?
      = none) : some (touchKey c tag) ∉ pending.map rowKey := by
  intro hmem
  obtain ⟨r, hr, heq⟩ := List.mem_map.mp hmem
  have hin : r ∈ pending.filter fun r =>
      r.command.any fun c' => touchKey c' r.tag == touchKey c tag :=
    List.mem_filter.mpr ⟨hr, matches_iff.mpr heq⟩
  rw [List.getLast?_eq_none_iff.mp h] at hin
  cases hin

end Lookup

/-- **One round of the loop**: a job that matches no row of the lookup adds the pair it is stored
    under, any other one adds nothing; what is pending stays. -/
theorem touchOne_ok {sqlite : OtherSql} {now host : String} {pending : List Row} {job : JobHash}
    (hc : job.command.isSome = true)
    (hq : jobKey job ∈ pending.map rowKey → PairedValues job) (db : Jobs) :
    ∃ db', touchOne sqlite now host pending db job = .ok db' ∧
      pendingKeys db' = pendingKeys db ++
        (if jobKey job ∈ pending.map rowKey then [] else [storedKey job]) ∧
      ∀ r ∈ pendingRows db, ∃ s ∈ pendingRows db', s.jid = r.jid := by
  obtain ⟨c, hcmd⟩ := Option.isSome_iff_exists.mp hc
  have hkey : jobKey job = some (touchKey c job.tag) := by rw [jobKey, hcmd, Option.map_some]
  unfold touchOne
  rw [hcmd]
  dsimp only
  split
  · rename_i r hlast
    obtain ⟨hr, hmatch⟩ := matched_of_getLast? hlast
    have hmem : jobKey job ∈ pending.map rowKey :=
      List.mem_map.mpr ⟨r, hr, hmatch.trans hkey.symm⟩
    refine ⟨_, update_touch (hq hmem) db, ?_, fun r₀ hr₀ => ?_⟩
    · rw [pendingKeys_update (sameJob_assign job _), if_pos hmem, List.append_nil]
    · rw [pendingRows_update (sameJob_assign job _)]
      exact ⟨_, List.mem_map_of_mem hr₀, setWhere_jid _ _ r₀⟩
  · rename_i hlast
    have hmem : jobKey job ∉ pending.map rowKey := by
      rw [hkey]
      exact unmatched_of_getLast? hlast
    refine ⟨_, submit_one hc, ?_, fun r₀ hr₀ => ?_⟩
    · rw [pendingKeys_submit, if_neg hmem]
    · rw [pendingRows_insert rfl]
      exact ⟨r₀, List.mem_append_left _ hr₀, rfl⟩

/-! ## The batch -/

/-- **What the loop leaves pending.**  Induction on the batch; the lookup stays the one made before
    the loop. -/
theorem pendingKeys_loop {sqlite : OtherSql} {now host : String} {pending : List Row} :
    ∀ {jobs : List JobHash} (db : Jobs), (∀ job ∈ jobs, job.command.isSome = true) →
    (∀ job ∈ jobs, jobKey job ∈ pending.map rowKey → PairedValues job) →
    ∃ db', jobs.foldlM (touchOne sqlite now host pending) db = .ok db' ∧
      pendingKeys db' = pendingKeys db ++
        (jobs.filter fun job => jobKey job ∉ pending.map rowKey).map storedKey ∧
      ∀ r ∈ pendingRows db, ∃ s ∈ pendingRows db', s.jid = r.jid
  | [], db, _, _ => ⟨db, rfl, by simp, fun r hr => ⟨r, hr, rfl⟩⟩
  | job :: jobs, db, hc, hq => by
    obtain ⟨db₁, hone, hkeys₁, hkept₁⟩ := @touchOne_ok sqlite now host pending job
      (hc job List.mem_cons_self) (hq job List.mem_cons_self) db
    obtain ⟨db₂, hrest, hkeys₂, hkept₂⟩ := @pendingKeys_loop sqlite now host pending jobs db₁
      (fun j hj => hc j (List.mem_cons_of_mem _ hj)) (fun j hj => hq j (List.mem_cons_of_mem _ hj))
    refine ⟨db₂, ?_, ?_, fun r hr => ?_⟩
    · rw [List.foldlM_cons, hone]
      exact hrest
    · rw [hkeys₂, hkeys₁, List.append_assoc]
      congr 1
      by_cases hmem : jobKey job ∈ pending.map rowKey
      · rw [if_pos hmem, List.filter_cons_of_neg (by simpa using hmem), List.nil_append]
      · rw [if_neg hmem, List.filter_cons_of_pos (by simpa using hmem), List.map_cons,
          List.singleton_append]
    · obtain ⟨s, hs, hsr⟩ := hkept₁ r hr
      obtain ⟨t, ht, hts⟩ := hkept₂ s hs
      exact ⟨t, ht, hts.trans hsr⟩

/-- **What a touch leaves pending**: what was, and the pairs its new jobs are stored under. -/
theorem touch_ok {sqlite : OtherSql} {now host : String} {jobs : List JobHash} {db : Jobs}
    (hd : ∀ r ∈ pendingRows db, r.command.isSome) (hc : ∀ job ∈ jobs, job.command.isSome = true)
    (hq : ∀ job ∈ jobs, jobKey job ∈ pendingKeys db → PairedValues job) :
    ∃ db', touch sqlite now host jobs db = .ok db' ∧
      pendingKeys db' = pendingKeys db ++ (newJobs jobs db).map storedKey ∧
      ∀ r ∈ pendingRows db, ∃ s ∈ pendingRows db', s.jid = r.jid := by
  have hnone : (pendingRows db).any (·.command.isNone) = false := by
    rw [List.any_eq_false]
    intro r hr hnone
    obtain ⟨c, hc⟩ := Option.isSome_iff_exists.mp (hd r hr)
    rw [hc] at hnone
    cases hnone
  unfold touch
  rw [list_pending]
  dsimp only
  rw [hnone, if_neg Bool.false_ne_true]
  exact pendingKeys_loop db hc hq

/-! ## When a touch does not duplicate -/

/-- The pair of a job with a command. -/
def jobPair (job : JobHash) : Text × Text := touchKey (job.command.getD "") job.tag

theorem jobKey_eq {job : JobHash} (hc : job.command.isSome = true) :
    jobKey job = some (jobPair job) := by
  obtain ⟨c, hcmd⟩ := Option.isSome_iff_exists.mp hc
  rw [jobKey, jobPair, hcmd, Option.map_some, Option.getD_some]

theorem storedKey_pair {job : JobHash} (hc : job.command.isSome = true)
    (hs : (storedKey job).isSome = true) :
    job.command ≠ some "" ∧ storedKey job = some (halveKey (jobPair job)) := by
  obtain ⟨c, hcmd⟩ := Option.isSome_iff_exists.mp hc
  rw [storedKey_eq hcmd] at hs ⊢
  split at hs
  · cases hs
  · rename_i hne
    rw [if_neg hne, jobPair, hcmd, Option.getD_some]
    exact ⟨fun h => hne (Option.some.inj h), rfl⟩

/-- **Jobs stored under distinct pairs that hold the pairs they were given under** are stored as
    given: a pair that loses a quote gets smaller, and no other one makes up for it. -/
theorem keepsPair_of_stored {new : List JobHash} (hc : ∀ job ∈ new, job.command.isSome = true)
    (hsome : ∀ job ∈ new, (storedKey job).isSome = true) (hn : (new.map storedKey).Nodup)
    (hsub : ∀ job ∈ new, jobKey job ∈ new.map storedKey) :
    (new.map jobKey).Nodup ∧ ∀ job ∈ new, KeepsPair job := by
  have hjob : new.map jobKey = (new.map jobPair).map some := by
    rw [List.map_map]
    exact List.map_congr_left fun job hjob => jobKey_eq (hc job hjob)
  have hstored : new.map storedKey = ((new.map jobPair).map halveKey).map some := by
    rw [List.map_map, List.map_map]
    exact List.map_congr_left fun job hjob => (storedKey_pair (hc job hjob) (hsome job hjob)).2
  have hnodup : ((new.map jobPair).map halveKey).Nodup := by
    rw [hstored] at hn
    exact hn.of_map some
  have hsub' : new.map jobPair ⊆ (new.map jobPair).map halveKey := by
    intro k hk
    obtain ⟨job, hmem, rfl⟩ := List.mem_map.mp hk
    have h := hsub job hmem
    rw [hstored, jobKey_eq (hc job hmem)] at h
    obtain ⟨k, hk, heq⟩ := List.mem_map.mp h
    exact Option.some.inj heq ▸ hk
  have hsize := size_map_eq (fun k _ => keySize_halveKey k) hsub' hnodup
  constructor
  · rw [hjob]
    exact (hnodup.of_map halveKey).map (Option.some_injective _)
  · intro job hmem
    refine ⟨(storedKey_pair (hc job hmem) (hsome job hmem)).1, fun k hk => ?_⟩
    rw [jobKey_eq (hc job hmem)] at hk
    obtain rfl := Option.some.inj hk
    exact (halveKey_eq_self_iff _).mp
      (halveKey_eq_self_of_size (hsize _ (List.mem_map_of_mem hmem)))

/-- **When the table has one pending job of each pair again**: the jobs of the batch that match no
    pending one have pairs of their own, and are stored under them. -/
theorem distinct_iff (sqlite : OtherSql) (now host : String) (jobs : List JobHash) (db : Jobs)
    (hd : DistinctPairs db) (hc : ∀ job ∈ jobs, job.command.isSome = true)
    (hq : ∀ job ∈ jobs, jobKey job ∈ pendingKeys db → PairedValues job) :
    (∃ db', touch sqlite now host jobs db = .ok db' ∧ DoesNotDuplicate jobs db db') ↔
      ((newJobs jobs db).map jobKey).Nodup ∧ ∀ job ∈ newJobs jobs db, KeepsPair job := by
  obtain ⟨db', htouch, hkeys, hkept⟩ := @touch_ok sqlite now host jobs db hd.1 hc hq
  have hnew : ∀ job ∈ newJobs jobs db, job ∈ jobs ∧ jobKey job ∉ pendingKeys db := by
    intro job hjob
    obtain ⟨hmem, hnot⟩ := List.mem_filter.mp hjob
    exact ⟨hmem, by simpa using hnot⟩
  have hsome : (∀ r ∈ pendingRows db', r.command.isSome) ↔
      ∀ job ∈ newJobs jobs db, (storedKey job).isSome = true := by
    have hrows : (∀ r ∈ pendingRows db', r.command.isSome) ↔
        ∀ k ∈ pendingKeys db', k.isSome = true := by
      unfold pendingKeys
      rw [List.forall_mem_map]
      exact forall₂_congr fun r _ => by rw [rowKey, Option.isSome_map]
    have hold : ∀ k ∈ pendingKeys db, k.isSome = true := by
      intro k hk
      obtain ⟨r, hr, rfl⟩ := List.mem_map.mp hk
      rw [rowKey, Option.isSome_map]
      exact hd.1 r hr
    rw [hrows, hkeys, List.forall_mem_append, List.forall_mem_map]
    exact and_iff_right hold
  constructor
  · rintro ⟨db₁, htouch₁, hdistinct, hpresent, -⟩
    obtain rfl := Except.ok.inj (htouch.symm.trans htouch₁)
    have hnodup := hdistinct.2
    rw [hkeys] at hnodup
    refine keepsPair_of_stored (fun job hjob => hc job (hnew job hjob).1) (hsome.mp hdistinct.1)
      hnodup.of_append_right fun job hjob => ?_
    have h := hpresent job (hnew job hjob).1
    rw [hkeys, List.mem_append] at h
    exact h.resolve_left (hnew job hjob).2
  · rintro ⟨hnodup, hkeeps⟩
    have hstored : (newJobs jobs db).map storedKey = (newJobs jobs db).map jobKey :=
      List.map_congr_left fun job hjob =>
        storedKey_of_keepsPair (hc job (hnew job hjob).1) (hkeeps job hjob)
    rw [hstored] at hkeys
    refine ⟨db', htouch, ⟨hsome.mpr fun job hjob => ?_, ?_⟩, fun job hjob => ?_, hkept⟩
    · rw [storedKey_of_keepsPair (hc job (hnew job hjob).1) (hkeeps job hjob),
        jobKey_eq (hc job (hnew job hjob).1)]
      rfl
    · rw [hkeys, List.nodup_append']
      refine ⟨hd.2, hnodup, fun k hk hk' => ?_⟩
      obtain ⟨job, hjob, rfl⟩ := List.mem_map.mp hk'
      exact (hnew job hjob).2 hk
    · rw [hkeys, List.mem_append]
      by_cases h : jobKey job ∈ pendingKeys db
      · exact Or.inl h
      · exact Or.inr (List.mem_map_of_mem (List.mem_filter.mpr ⟨hjob, by simpa using h⟩))

end RubyQueue.Touch
