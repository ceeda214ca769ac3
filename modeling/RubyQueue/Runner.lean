/-
  The required runner of a job: `rq submit --runner=node1,node2`.

  The value of the option is one text in the column `runner`, and `getjob` decides with
  `runner like '%host%'` whether the host it runs on is on the list.  That is a test on segments of
  the text, with `%`, `_` and either case of a letter allowed, not on elements of the list: the
  feeder of a host whose name stands inside another name of the list is given the job too.

  * `getjob_runner_iff`   — exactly which hosts are kept away from a job they are not listed for;
  * `listed_segment_iff`  — for a name without pattern characters: those that no listed name
                            contains.
-/
import RubyQueue.Lifecycle

namespace RubyQueue.Runner

open RubyQueue.Sqlite RubyQueue.Quote RubyQueue.JobQueue RubyQueue.Lifecycle RubyQueue.Run

/-! ## Lists of names -/

/-- A short host name: the part of a host name before its first dot. -/
structure ShortName where
  name : Text
  nonempty : name ≠ []
  dot : '.' ∉ name
  comma : ',' ∉ name
  quote : '\'' ∉ name
deriving DecidableEq

/-- The hosts a job is to run on. -/
structure Runners where
  names : List ShortName
  nonempty : names ≠ []
deriving DecidableEq

/-- The value of `--runner`: the names with commas between them. -/
def Runners.text (l : Runners) : Text := joinComma (l.names.map ShortName.name)

/-- The host is an element of the list. -/
def Runners.Lists (l : Runners) (h : Hostname) : Prop :=
  h.host.toList ∈ l.names.map ShortName.name

instance (l : Runners) (h : Hostname) : Decidable (l.Lists h) :=
  inferInstanceAs (Decidable (_ ∈ _))

theorem mem_joinComma {c : Char} : ∀ {vs : List Text}, c ∈ joinComma vs →
    c = ',' ∨ ∃ v ∈ vs, c ∈ v
  | [], h => by cases h
  | [v], h => Or.inr ⟨v, List.mem_singleton_self v, h⟩
  | v :: w :: vs, h => by
    rw [joinComma, List.mem_append, List.mem_cons] at h
    rcases h with h | rfl | h
    · exact Or.inr ⟨v, List.mem_cons_self, h⟩
    · exact Or.inl rfl
    · rcases mem_joinComma h with rfl | ⟨u, hu, hc⟩
      · exact Or.inl rfl
      · exact Or.inr ⟨u, List.mem_cons_of_mem v hu, hc⟩
    · simp

theorem Runners.quote_not_mem (l : Runners) : '\'' ∉ l.text := by
  intro h
  rcases mem_joinComma h with h | ⟨v, hv, hc⟩
  · exact absurd h (by decide)
  · obtain ⟨n, -, rfl⟩ := List.mem_map.mp hv
    exact n.quote hc

theorem Runners.text_ne_nil (l : Runners) : l.text ≠ [] := by
  obtain ⟨names, hne⟩ := l
  unfold Runners.text
  match names, hne with
  | [n], _ => exact n.nonempty
  | n :: m :: names, _ => simp [joinComma]

/-- A list of names comes back from the table as it was submitted. -/
theorem Runners.stored (l : Runners) :
    storedText (some (String.ofList l.text)) = some (String.ofList l.text) := by
  refine (storedText_eq_self_iff (by simpa using l.text_ne_nil)).mpr ?_
  intro h
  rw [String.toList_ofList] at h
  exact l.quote_not_mem (h.subset List.mem_cons_self)

/-! ## Who is given the job -/

/-- Some segment of the list's text matches the name of the host. -/
def Runners.Matches (l : Runners) (h : Hostname) : Prop :=
  ∃ w, w <:+: l.text ∧ likeMatch h.host.toList w = true

/-- `getjob` lets a host have a job with this list exactly when it matches. -/
theorem acceptsHost_iff {l : Runners} {h : Hostname} {r : Row}
    (hr : r.runner = some (String.ofList l.text)) : acceptsHost h r = true ↔ l.Matches h := by
  unfold acceptsHost
  rw [hr, Option.isNone_some, Bool.or_false]
  have hpat : ("%" ++ h.host ++ "%").toList = '%' :: (h.host.toList ++ ['%']) := by simp
  have htext : (String.ofList l.text).toList = l.text := String.toList_ofList
  show likeMatch ("%" ++ h.host ++ "%").toList (String.ofList l.text).toList = true ↔ _
  rw [hpat, htext]
  exact likeMatch_contains

/-- One pending job alone in the queue is given to any host it accepts. -/
theorem getjob_single {h : Hostname} {r : Row} {db : Jobs} (hdb : db.rows = [r])
    (hel : eligible r = true) (hacc : acceptsHost h r = true) : getjob h db = some r := by
  unfold getjob
  rw [hdb]
  simp [hel, hacc]

/-- In no state any run reaches is a job whose required runners are `l` given to `h` while it is
    pending, unless `h` is one of them. -/
def Respected (sqlite : OtherSql) (l : Runners) (h : Hostname) : Prop :=
  ¬ l.Lists h → ∀ s, Reach Fresh (step sqlite) (fun _ _ => True) s →
    ∀ r ∈ s.jobs, r.runner = some (String.ofList l.text) → r.state = some "pending" →
      getjob h s.jobs ≠ some r

/-- The one step of submitting a job for `l` to a fresh queue. -/
def submitFor (l : Runners) : Op :=
  .client (.submit "2005-07-01" "node1"
    [{ command := some "make", runner := some (String.ofList l.text) }])

/-- It leads to a queue with one row, pending and with that list. -/
theorem submitFor_step (sqlite : OtherSql) (l : Runners) :
    ∃ s r, step sqlite { jobs := Jobs.empty } (submitFor l) = some s ∧ s.jobs.rows = [r] ∧
      r.runner = some (String.ofList l.text) ∧ r.state = some "pending" := by
  have hsub := @submit_one "2005-07-01" "node1"
    { command := some "make", runner := some (String.ofList l.text) } Jobs.empty rfl
  have hstep : step sqlite { jobs := Jobs.empty } (submitFor l)
      = some { jobs := Jobs.empty.insert (submittedRow "2005-07-01" "node1" 1
          { command := some "make", runner := some (String.ofList l.text) }) } := by
    simp only [step, submitFor, Client.exec, hsub]
    rfl
  exact ⟨_, _, hstep, rfl, l.stored, rfl⟩

/-- **Required runners.**  For every list of short names and every host, whatever else the queue
    and the cluster hold: the host is kept away from the pending jobs of that list exactly when it
    is on the list, or no segment of the list's text matches its name as a `like` pattern. -/
theorem getjob_runner_iff (sqlite : OtherSql) (l : Runners) (h : Hostname) :
    Respected sqlite l h ↔ (l.Lists h ∨ ¬ l.Matches h) := by
  constructor
  · intro hresp
    by_cases hl : l.Lists h
    · exact Or.inl hl
    · right
      intro hm
      -- the job alone in the queue is the one `getjob` returns
      obtain ⟨s, r, hstep, hrows, hrun, hpend⟩ := submitFor_step sqlite l
      have hreach : Reach Fresh (step sqlite) (fun _ _ => True) s :=
        Reach.step (Reach.init rfl) trivial hstep
      have hmem : r ∈ s.jobs := by
        rw [Jobs.mem_def, hrows]
        exact List.mem_singleton_self r
      exact hresp hl s hreach r hmem hrun hpend
        (getjob_single hrows (eligible_iff.mpr (Or.inl hpend)) ((acceptsHost_iff hrun).mpr hm))
  · rintro (hl | hm) hnot s - r - hrun - hjob
    · exact hnot hl
    · exact hm ((acceptsHost_iff hrun).mp (getjob_accepts hjob))

/-- A job for `node10` alone, and the feeder of `node1`: `node1` stands in `node10`. -/
def node10 : Runners := 
  ⟨[⟨"node10".toList, by decide, by decide, by decide, by decide⟩], by decide⟩

theorem node1_given_node10 :
    ¬ node10.Lists node1 ∧
    ∃ s r, Reach Fresh (step fun _ _ => .error "SQL error") (fun _ _ => True) s ∧ r ∈ s.jobs ∧
      r.runner = some (String.ofList node10.text) ∧ r.state = some "pending" ∧
      getjob node1 s.jobs = some r := by
  refine ⟨by decide, ?_⟩
  obtain ⟨s, r, hstep, hrows, hrun, hpend⟩ := submitFor_step (fun _ _ => .error "SQL error") node10
  have hacc : acceptsHost node1 r = true := by
    refine (acceptsHost_iff hrun).mpr ⟨"node1".toList, ?_, by decide⟩
    exact ⟨[], ['0'], by decide⟩
  refine ⟨s, r, Reach.step (Reach.init rfl) trivial hstep, ?_, hrun, hpend, ?_⟩
  · rw [Jobs.mem_def, hrows]
    exact List.mem_singleton_self r
  · exact getjob_single hrows (eligible_iff.mpr (Or.inl hpend)) hacc

/-! ## Names without pattern characters -/

/-- A segment without `c` does not reach across a `c`. -/
theorem infix_append_cons {c : Char} {w v t : Text} (hw : c ∉ w) :
    w <:+: v ++ c :: t ↔ w <:+: v ∨ w <:+: t := by
  constructor
  · rintro ⟨a, b, h⟩
    rcases List.append_eq_append_iff.mp h with ⟨x, hv, -⟩ | ⟨x, haw, hct⟩
    · exact Or.inl ⟨a, x, hv.symm⟩
    -- the segment ends at the `c` or after it
    cases x with
    | nil =>
      rw [List.append_nil] at haw
      exact Or.inl ⟨a, [], by rw [List.append_nil, haw]⟩
    | cons d x =>
      rw [List.cons_append, List.cons.injEq] at hct
      obtain ⟨rfl, rfl⟩ := hct
      rcases List.append_eq_append_iff.mp haw with ⟨y, -, hw'⟩ | ⟨y, -, hx⟩
      · rw [hw'] at hw
        exact absurd (List.mem_append_right y List.mem_cons_self) hw
      · cases y with
        | nil =>
          rw [List.nil_append] at hx
          rw [← hx] at hw
          exact absurd List.mem_cons_self hw
        | cons e y =>
          rw [List.cons_append, List.cons.injEq] at hx
          exact Or.inr ⟨y, b, by rw [hx.2]⟩
  · rintro (h | h)
    · exact h.trans (List.prefix_append v (c :: t)).isInfix
    · exact h.trans ((List.suffix_cons c t).trans (List.suffix_append v (c :: t))).isInfix

/-- A segment without a comma lies in one of the names. -/
theorem infix_joinComma {w : Text} (hw : ',' ∉ w) : ∀ {vs : List Text}, vs ≠ [] →
    (w <:+: joinComma vs ↔ ∃ v ∈ vs, w <:+: v)
  | [], h => absurd rfl h
  | [v], _ => by simp [joinComma]
  | v :: u :: vs, _ => by
    have ih := infix_joinComma hw (List.cons_ne_nil u vs)
    rw [joinComma, infix_append_cons hw, ih, ← List.exists_mem_cons_iff]
    exact List.cons_ne_nil u vs

theorem toLower_ne_comma {c : Char} (h : c.toLower = ',') : c = ',' := by
  unfold Char.toLower at h
  split at h
  · rename_i hup
    have hval := congrArg (fun d => d.val.toNat) h
    simp [UInt32.le_iff_toNat_le] at hup hval
    omega
  · exact h

/-- **Which hosts get a job they are not listed for**, when the name has no pattern character: the
    hosts whose name stands inside a listed name, in any mixture of cases. -/
theorem listed_segment_iff (l : Runners) (h : Hostname)
    (hplain : ∀ c ∈ h.host.toList, c ≠ '%' ∧ c ≠ '_' ∧ c ≠ ',') :
    l.Matches h ↔ ∃ n ∈ l.names,
      h.host.toList.map Char.toLower <:+: n.name.map Char.toLower := by
  have hlike : ∀ w, likeMatch h.host.toList w = true ↔
      h.host.toList.map Char.toLower = w.map Char.toLower := fun w =>
    likeMatch_plain (fun hc => (hplain _ hc).1 rfl) fun hc => (hplain _ hc).2.1 rfl
  have hne : l.names.map ShortName.name ≠ [] := by simpa using l.nonempty
  constructor
  · rintro ⟨w, hw, hm⟩
    rw [hlike] at hm
    -- the matching segment has no comma, because the name has none
    have hcomma : ',' ∉ w := by
      intro hc
      have hc' : Char.toLower ',' ∈ w.map Char.toLower := List.mem_map_of_mem hc
      rw [← hm] at hc'
      obtain ⟨c, hc, heq⟩ := List.mem_map.mp hc'
      exact (hplain c hc).2.2 (toLower_ne_comma (heq.trans (by decide)))
    obtain ⟨v, hv, hwv⟩ := (infix_joinComma hcomma hne).mp hw
    obtain ⟨n, hn, rfl⟩ := List.mem_map.mp hv
    refine ⟨n, hn, ?_⟩
    rw [hm]
    exact hwv.map Char.toLower
  · rintro ⟨n, hn, a, b, hab⟩
    -- the segment of the listed name that is the host's name, as the list spells it
    obtain ⟨aw, b', hn', haw, -⟩ := List.map_eq_append_iff.mp hab.symm
    obtain ⟨a', w, rfl, -, hw⟩ := List.map_eq_append_iff.mp haw
    refine ⟨w, ?_, (hlike w).mpr hw.symm⟩
    have hin : w <:+: n.name := ⟨a', b', hn'.symm⟩
    have hcomma : ',' ∉ w := fun hc => n.comma (hin.subset hc)
    exact (infix_joinComma hcomma hne).mpr ⟨n.name, List.mem_map_of_mem hn, hin⟩

end RubyQueue.Runner
