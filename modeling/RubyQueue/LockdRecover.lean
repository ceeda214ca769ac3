/-
  What does a lockd recovery that fails leave of the queue?

  `QDB#lockd_recover` moves the queue directory away, replaces `db` and `lock` by copies of
  themselves, checks the copy and moves the directory back; its `ensure` clause moves the directory
  back when something raised.  `Recovery` has the steps one by one beside a transaction; here the
  method runs alone, and any of its operations may raise.

  Between `rm f` and `mv ftmp, f` the file is there under its temporary name only, and nothing puts
  it back: `restores_iff` has the exact condition.

  An operation that raises has changed nothing, except that a copy may be left torn.  `rm_rf` does
  not raise.  SQLite opens a database beside which there is a journal by playing it back.
-/
import RubyQueue.Recovery

namespace RubyQueue.LockdRecover

open RubyQueue.Recovery (File)

universe u

/-! ## The files and what may go wrong -/

/-- A queue directory: `db` and `lock`, `db.tmp` and `lock.tmp`, and what `db-journal` restores. -/
structure Dir (δ : Type u) where
  files : File → Option δ
  tmps : File → Option δ
  journal : Option δ

/-- What is at `@dirname` and at `tmp`, the mtime of the marker, and `@lockd_recovered`. -/
structure State (δ : Type u) where
  home : Option (Dir δ)
  away : Option (Dir δ)
  marker : Option Nat
  lockdRecovered : Bool

/-- The operations that may raise, in the order they are reached. -/
inductive Op
  | lock
  | touch
  | moveAway
  | copy (f : File)
  | remove (f : File)
  | rename (f : File)
  | check
  -- `mv tmp, @dirname`, on either side of the check
  | moveBack
  -- `cp @lockd_recover_lockf.path, @lockd_recover`
  | mark
deriving DecidableEq, Repr

/-- One call: whether recovery is wanted, the time it starts and works at, the first operation that
    raises, what a copy that raises leaves, whether a check that raises has opened the database, what
    the check says, and whether the move in `ensure` raises. -/
structure Call (δ : Type u) where
  attempt : Bool := true
  time : Nat
  now : Nat
  raises : Option Op := none
  torn : Option δ := none
  opened : Bool := false
  sound : Bool := true
  ensureRaises : Bool := false

/-- How the method ends. -/
inductive End
  | returned (ret : Option Bool)
  | raised
deriving DecidableEq, Repr

variable {δ : Type u}

/-! ## `lockd_recover` -/

/-- One round of `rfiles.each`.  The file is there by its own name, except after the `rm`. -/
def renew (c : Call δ) (f : File) (d : Dir δ) : Dir δ × Bool :=
  let d := { d with tmps := Function.update d.tmps f none }
  match d.files f with
  | none => (d, false)
  | some content =>
    if c.raises = some (.copy f) then
      ({ d with tmps := Function.update d.tmps f c.torn }, false)
    else
      let d := { d with tmps := Function.update d.tmps f (some content) }
      if c.raises = some (.remove f) then (d, false)
      else
        let d := { d with files := Function.update d.files f none }
        if c.raises = some (.rename f) then (d, false)
        else
          ({ d with files := Function.update d.files f (d.tmps f)
                    tmps := Function.update d.tmps f none }, true)

/-- `rfiles.each`. -/
def renewAll (c : Call δ) : List File → Dir δ → Dir δ × Bool
  | [], d => (d, true)
  | f :: fs, d =>
    let r := renew c f d
    if r.2 then renewAll c fs r.1 else r

/-- SQLite plays a journal back. -/
def Dir.playback (d : Dir δ) : Dir δ :=
  match d.journal with
  | none => d
  | some orig => { d with files := Function.update d.files .db (some orig), journal := none }

/-- `integrity_check(dbtmp)`; `none`: it raises. -/
def integrityCheck (c : Call δ) (d : Dir δ) : Dir δ × Option Bool :=
  if c.raises = some .check then (if c.opened then d.playback else d, none)
  else (d.playback, some c.sound)

/-- The body once the directory `d` is at `tmp`. -/
def recoverAway (c : Call δ) (d : Dir δ) (s : State δ) : State δ × Bool :=
  match renewAll c [.db, .lock] d with
  | (d, false) => ({ s with away := some d }, false)
  | (d, true) =>
    match integrityCheck c d with
    | (d, none) => ({ s with away := some d }, false)
    | (d, some ok) =>
      if c.raises = some .moveBack then ({ s with away := some d }, false)
      else
        let s := { s with home := some d, away := none }
        if ok then
          if c.raises = some .mark then (s, false)
          else ({ s with marker := some c.now, lockdRecovered := true }, true)
        else ({ s with lockdRecovered := false }, true)

/-- The `ensure` clause, after a body that moved the directory away. -/
def ensureBack (c : Call δ) (s : State δ) (ok : Bool) : State δ × End :=
  if !s.lockdRecovered && s.away.isSome then
    if c.ensureRaises then (s, .raised)
    else ({ s with home := s.away, away := none },
      if ok then .returned (some s.lockdRecovered) else .raised)
  else (s, if ok then .returned (some s.lockdRecovered) else .raised)

/-- `QDB#lockd_recover`. -/
def lockdRecover (c : Call δ) (s : State δ) : State δ × End :=
  if !c.attempt then (s, .returned none)
  else if c.raises = some .lock then (s, .raised)
  else if c.time < s.marker.getD c.time then (s, .returned (some true))
  else if c.raises = some .touch then (s, .raised)
  else
    -- `touch`, and `rm_rf tmp`
    let s := { s with marker := some c.now, lockdRecovered := false, away := none }
    match s.home with
    | none => (s, .raised)
    | some d =>
      if c.raises = some .moveAway then (s, .raised)
      else
        let r := recoverAway c d { s with home := none }
        ensureBack c r.1 r.2

/-! ## The rounds -/

/-- The same files under their own names, and the same journal. -/
def Same (d d' : Dir δ) : Prop := d'.files = d.files ∧ d'.journal = d.journal

theorem Same.trans {d d' d'' : Dir δ} (h : Same d d') (k : Same d' d'') : Same d d'' :=
  ⟨k.1.trans h.1, k.2.trans h.2⟩

/-- **One round.**  It changes nothing that is found by its own name, unless the last of its
    operations raises: then the file is gone. -/
theorem renew_spec (c : Call δ) {f : File} {d : Dir δ} (hf : (d.files f).isSome = true) :
    (c.raises = some (.rename f) ∧ (renew c f d).2 = false ∧ (renew c f d).1.files f = none) ∨
    (c.raises ≠ some (.rename f) ∧ Same d (renew c f d).1 ∧
      ((renew c f d).2 = false ↔ c.raises = some (.copy f) ∨ c.raises = some (.remove f))) := by
  obtain ⟨content, hcontent⟩ := Option.isSome_iff_exists.mp hf
  unfold renew
  dsimp only
  rw [hcontent]
  dsimp only
  by_cases hcopy : c.raises = some (.copy f)
  · rw [if_pos hcopy]
    right
    exact ⟨by rw [hcopy]; simp, ⟨rfl, rfl⟩, by simp [hcopy]⟩
  rw [if_neg hcopy]
  by_cases hremove : c.raises = some (.remove f)
  · rw [if_pos hremove]
    right
    exact ⟨by rw [hremove]; simp, ⟨rfl, rfl⟩, by simp [hremove]⟩
  rw [if_neg hremove]
  by_cases hrename : c.raises = some (.rename f)
  · rw [if_pos hrename]
    left
    exact ⟨hrename, rfl, Function.update_self ..⟩
  · rw [if_neg hrename]
    right
    refine ⟨hrename, ⟨?_, rfl⟩, by simp [hcopy, hremove]⟩
    -- the copy takes the place of the file
    show Function.update (Function.update d.files f none) f _ = d.files
    rw [Function.update_self, Function.update_idem, ← hcontent, Function.update_eq_self]

/-- **All rounds**, by induction on the files. -/
theorem renewAll_spec (c : Call δ) : ∀ {fs : List File} {d : Dir δ},
    (∀ f, (d.files f).isSome = true) →
    ((∃ f ∈ fs, c.raises = some (.rename f)) ∧ (renewAll c fs d).2 = false ∧
      ∃ f, (renewAll c fs d).1.files f = none) ∨
    ((∀ f ∈ fs, c.raises ≠ some (.rename f)) ∧ Same d (renewAll c fs d).1 ∧
      ((renewAll c fs d).2 = false ↔
        ∃ f ∈ fs, c.raises = some (.copy f) ∨ c.raises = some (.remove f)))
  | [], d, _ => by
    right
    exact ⟨fun f hf => absurd hf List.not_mem_nil, ⟨rfl, rfl⟩, by simp [renewAll]⟩
  | f :: fs, d, hd => by
    have hround := renew_spec c (hd f)
    rw [renewAll]
    generalize renew c f d = r at hround
    obtain ⟨d₁, ok⟩ := r
    rcases hround with ⟨hrename, rfl, hgone⟩ | ⟨hno, hsame, hraise⟩
    · left
      exact ⟨⟨f, List.mem_cons_self, hrename⟩, rfl, f, hgone⟩
    cases ok with
    | false =>
      right
      have hop := hraise.mp rfl
      refine ⟨fun g _ hg => ?_, hsame, fun _ => ⟨f, List.mem_cons_self, hop⟩, fun _ => rfl⟩
      rcases hop with hop | hop <;> rw [hop] at hg <;> cases hg
    | true =>
      have hrest : ¬ (c.raises = some (.copy f) ∨ c.raises = some (.remove f)) := fun h =>
        Bool.noConfusion (hraise.mpr h)
      have hd₁ : ∀ g, (d₁.files g).isSome = true := fun g => by rw [hsame.1]; exact hd g
      rcases @renewAll_spec c fs d₁ hd₁ with ⟨⟨g, hg, hrename⟩, hgone⟩ | ⟨hno', hsame', hraise'⟩
      · left
        exact ⟨⟨g, List.mem_cons_of_mem f hg, hrename⟩, hgone⟩
      · right
        refine ⟨List.forall_mem_cons.mpr ⟨hno, hno'⟩, hsame.trans hsame', hraise'.trans ?_⟩
        rw [List.exists_mem_cons_iff, or_iff_right hrest]

/-! ## Where the directory ends up -/

theorem playback_files_iff (d : Dir δ) :
    d.playback.files = d.files ↔ d.journal = none ∨ d.journal = d.files .db := by
  unfold Dir.playback
  cases d.journal with
  | none => simp
  | some orig => simp [eq_comm]

/-- A directory that is away is moved back by `ensure`, or not at all. -/
theorem ensureBack_away {c : Call δ} {s : State δ} {d : Dir δ} {ok : Bool}
    (hflag : s.lockdRecovered = false) (hhome : s.home = none) (haway : s.away = some d) :
    (ensureBack c s ok).1.home = if c.ensureRaises then none else some d := by
  unfold ensureBack
  rw [hflag, haway]
  cases c.ensureRaises with
  | true => exact hhome
  | false => rfl

theorem ensureBack_home {c : Call δ} {s : State δ} {ok : Bool} (haway : s.away = none) :
    (ensureBack c s ok).1.home = s.home := by
  unfold ensureBack
  rw [haway]
  simp

/-- The call gets as far as having moved the directory away. -/
def Moves (c : Call δ) (s : State δ) : Prop :=
  c.attempt = true ∧ ¬ c.time < s.marker.getD c.time ∧
    c.raises ≠ some .lock ∧ c.raises ≠ some .touch ∧ c.raises ≠ some .moveAway

/-- The check opens the database, given that the rounds do not raise. -/
def Opens (c : Call δ) : Prop :=
  c.raises = none ∨ c.raises = some .moveBack ∨ c.raises = some .mark ∨
    (c.raises = some .check ∧ c.opened = true)

/-- The directory is at its path, with the same `db` and `lock`. -/
def Restored (d : Dir δ) (s : State δ) : Prop := ∃ d', s.home = some d' ∧ d'.files = d.files

/-- The directory `d'` is left at `tmp` by a body that raised. -/
theorem restored_ensure_iff {c : Call δ} {s : State δ} {d d' : Dir δ}
    (hflag : s.lockdRecovered = false) (hhome : s.home = none) :
    Restored d (ensureBack c { s with away := some d' } false).1 ↔
      c.ensureRaises = false ∧ d'.files = d.files := by
  have haway := @ensureBack_away _ c { s with away := some d' } d' false hflag hhome rfl
  unfold Restored
  rw [haway]
  cases c.ensureRaises with
  | true => simp
  | false => simp

/-- It is at its path again already. -/
theorem restored_home_iff {c : Call δ} {s : State δ} {d d' : Dir δ} {ok : Bool}
    (hhome : s.home = some d') (haway : s.away = none) :
    Restored d (ensureBack c s ok).1 ↔ d'.files = d.files := by
  unfold Restored
  rw [ensureBack_home haway, hhome]
  simp

/-- The move in `ensure` is needed when something raised before the directory was back. -/
theorem ensureRaises_iff {c : Call δ} (hnone : c.raises ≠ none) (hmark : c.raises ≠ some .mark) :
    (c.ensureRaises = true → c.raises = none ∨ c.raises = some .mark) ↔ c.ensureRaises = false := by
  cases c.ensureRaises with
  | true => simp [hnone, hmark]
  | false => simp

/-- What is left to raise once the directory is back: the copying onto the marker. -/
theorem raises_back {c : Call δ}
    (hop : c.raises ≠ some .lock ∧ c.raises ≠ some .touch ∧ c.raises ≠ some .moveAway)
    (hround : ∀ f, c.raises ≠ some (.copy f) ∧ c.raises ≠ some (.remove f) ∧
      c.raises ≠ some (.rename f))
    (hcheck : c.raises ≠ some .check) (hmove : c.raises ≠ some .moveBack) :
    c.raises = none ∨ c.raises = some .mark := by
  cases hr : c.raises with
  | none => exact Or.inl rfl
  | some op =>
    right
    cases op with
    | lock => exact absurd hr hop.1
    | touch => exact absurd hr hop.2.1
    | moveAway => exact absurd hr hop.2.2
    | copy f => exact absurd hr (hround f).1
    | remove f => exact absurd hr (hround f).2.1
    | rename f => exact absurd hr (hround f).2.2
    | check => exact absurd hr hcheck
    | moveBack => exact absurd hr hmove
    | mark => rfl

section Away

variable {c : Call δ} {s : State δ} {d d₁ : Dir δ}

/-- A round raises. -/
theorem restored_round_iff (hround : renewAll c [.db, .lock] d = (d₁, false))
    (hflag : s.lockdRecovered = false) (hhome : s.home = none) :
    Restored d (ensureBack c (recoverAway c d s).1 (recoverAway c d s).2).1 ↔
      c.ensureRaises = false ∧ d₁.files = d.files := by
  unfold recoverAway
  rw [hround]
  exact restored_ensure_iff hflag hhome

/-- The rounds have gone through, and the files are as they were: what is left is the check, the move
    back and the marker. -/
theorem restored_checked_iff (hround : renewAll c [.db, .lock] d = (d₁, true)) (hsame : Same d d₁)
    (hno : ∀ f, c.raises ≠ some (.copy f) ∧ c.raises ≠ some (.remove f) ∧
      c.raises ≠ some (.rename f))
    (hflag : s.lockdRecovered = false) (hhome : s.home = none)
    (hop : c.raises ≠ some .lock ∧ c.raises ≠ some .touch ∧ c.raises ≠ some .moveAway) :
    Restored d (ensureBack c (recoverAway c d s).1 (recoverAway c d s).2).1 ↔
      (c.ensureRaises = true → c.raises = none ∨ c.raises = some .mark) ∧
      (Opens c → d.journal = none ∨ d.journal = d.files .db) := by
  have hplay : d₁.playback.files = d.files ↔ d.journal = none ∨ d.journal = d.files .db := by
    rw [← hsame.1, playback_files_iff, hsame.2]
  unfold recoverAway
  rw [hround]
  dsimp only
  unfold integrityCheck
  by_cases hcheck : c.raises = some .check
  · rw [if_pos hcheck]
    dsimp only
    rw [restored_ensure_iff hflag hhome,
      ensureRaises_iff (by rw [hcheck]; simp) (by rw [hcheck]; simp)]
    refine and_congr_right fun _ => ?_
    cases hopened : c.opened with
    | true =>
      have hopens : Opens c := Or.inr (Or.inr (Or.inr ⟨hcheck, hopened⟩))
      rw [if_pos rfl, hplay]
      exact ⟨fun h _ => h, fun h => h hopens⟩
    | false =>
      have hopens : ¬ Opens c := by simp [Opens, hcheck, hopened]
      rw [if_neg Bool.false_ne_true]
      exact ⟨fun _ ho => absurd ho hopens, fun _ => hsame.1⟩
  rw [if_neg hcheck]
  dsimp only
  by_cases hmove : c.raises = some .moveBack
  · have hopens : Opens c := Or.inr (Or.inl hmove)
    rw [if_pos hmove]
    dsimp only
    rw [restored_ensure_iff hflag hhome, hplay,
      ensureRaises_iff (by rw [hmove]; simp) (by rw [hmove]; simp)]
    exact and_congr_right fun _ => ⟨fun h _ => h, fun h => h hopens⟩
  have hrest := raises_back hop hno hcheck hmove
  have hopens : Opens c := hrest.elim Or.inl fun h => Or.inr (Or.inr (Or.inl h))
  have hiff : d₁.playback.files = d.files ↔
      (c.ensureRaises = true → c.raises = none ∨ c.raises = some .mark) ∧
      (Opens c → d.journal = none ∨ d.journal = d.files .db) := by
    rw [hplay]
    exact ⟨fun h => ⟨fun _ => hrest, fun _ => h⟩, fun h => h.2 hopens⟩
  rw [if_neg hmove, ← hiff]
  split
  · split
    · exact restored_home_iff rfl rfl
    · exact restored_home_iff rfl rfl
  · exact restored_home_iff rfl rfl

/-- Once the directory is away.  By what the rounds did: they lost a file, raised without losing one,
    or went through. -/
theorem restored_away_iff (hfiles : ∀ f, (d.files f).isSome = true)
    (hflag : s.lockdRecovered = false) (hhome : s.home = none)
    (hop : c.raises ≠ some .lock ∧ c.raises ≠ some .touch ∧ c.raises ≠ some .moveAway) :
    Restored d (ensureBack c (recoverAway c d s).1 (recoverAway c d s).2).1 ↔
      (∀ f, c.raises ≠ some (.rename f)) ∧
      (c.ensureRaises = true → c.raises = none ∨ c.raises = some .mark) ∧
      (Opens c → d.journal = none ∨ d.journal = d.files .db) := by
  have hmem : ∀ f, f ∈ [File.db, File.lock] := by
    intro f
    cases f <;> decide
  have hrounds := @renewAll_spec _ c [.db, .lock] d hfiles
  cases hround : renewAll c [.db, .lock] d with
  | mk d₁ ok =>
  rw [hround] at hrounds
  rcases hrounds with ⟨⟨f, -, hrename⟩, rfl, g, hgone⟩ | ⟨hno, hsame, hraise⟩
  · -- a file is gone, wherever the directory ends up
    rw [restored_round_iff hround hflag hhome]
    constructor
    · rintro ⟨-, hback⟩
      have hg := hfiles g
      rw [← hback, hgone] at hg
      cases hg
    · rintro ⟨hno, -⟩
      exact absurd hrename (hno f)
  have hnever : ∀ f, c.raises ≠ some (.rename f) := fun f => hno f (hmem f)
  rw [and_iff_right hnever]
  cases ok with
  | false =>
    obtain ⟨f, -, hf⟩ := hraise.mp rfl
    rw [restored_round_iff hround hflag hhome, and_iff_left hsame.1]
    have hopens : ¬ Opens c := by rcases hf with hf | hf <;> simp [Opens, hf]
    rw [ensureRaises_iff (by rcases hf with hf | hf <;> simp [hf])
      (by rcases hf with hf | hf <;> simp [hf])]
    exact ⟨fun h => ⟨h, fun ho => absurd ho hopens⟩, fun h => h.1⟩
  | true =>
    refine restored_checked_iff hround hsame (fun f => ?_) hflag hhome hop
    have h : ¬ ∃ f ∈ [File.db, File.lock],
        c.raises = some (.copy f) ∨ c.raises = some (.remove f) := fun h =>
      Bool.noConfusion (hraise.mpr h)
    exact ⟨fun hf => h ⟨f, hmem f, Or.inl hf⟩, fun hf => h ⟨f, hmem f, Or.inr hf⟩, hnever f⟩

end Away

/-- **When the queue is restored.**  For every call on a queue with its two files, whatever raises:
    the directory is at its path again with the contents they had, exactly when the directory was
    never moved; or no copy fails to take its file's place, `ensure` can move the directory back if
    it is needed, and the check finds no journal to play back. -/
theorem restores_iff (c : Call δ) (s : State δ) (d : Dir δ) (hd : s.home = some d)
    (hfiles : ∀ f, (d.files f).isSome = true) :
    Restored d (lockdRecover c s).1 ↔
      (Moves c s →
        (∀ f, c.raises ≠ some (.rename f)) ∧
        (c.ensureRaises = true → c.raises = none ∨ c.raises = some .mark) ∧
        (Opens c → d.journal = none ∨ d.journal = d.files .db)) := by
  have hstays : ∀ {t : State δ} {P : Prop}, t.home = some d → ¬ Moves c s →
      (Restored d t ↔ (Moves c s → P)) := by
    intro t P ht hno
    exact ⟨fun _ h => absurd h hno, fun _ => ⟨d, ht, rfl⟩⟩
  unfold lockdRecover
  split
  · rename_i h
    exact hstays hd (fun hm => by simp [hm.1] at h)
  split
  · rename_i h
    exact hstays hd (fun hm => hm.2.2.1 h)
  split
  · rename_i h
    exact hstays hd (fun hm => hm.2.1 h)
  split
  · rename_i h
    exact hstays hd (fun hm => hm.2.2.2.1 h)
  dsimp only
  rw [hd]
  dsimp only
  split
  · rename_i h
    exact hstays rfl (fun hm => hm.2.2.2.2 h)
  rename_i hattempt hlock htime htouch haway
  have hmoves : Moves c s := ⟨by simpa using hattempt, htime, hlock, htouch, haway⟩
  rw [restored_away_iff hfiles rfl rfl ⟨hlock, htouch, haway⟩]
  exact ⟨fun h _ => h, fun h => h hmoves⟩

/-- A queue directory whose db has the contents 1 and whose lock file 0, with no journal. -/
def queueDir : Dir Nat := ⟨fun | .db => some 1 | .lock => some 0, fun _ => none, none⟩

/-- The queue, in its place. -/
def queue : State Nat := ⟨some queueDir, none, none, false⟩

/-- The copy of the lock file fails. -/
theorem failed_copy_restores :
    Restored queueDir (lockdRecover { time := 1, now := 2, raises := some (.copy .lock) } queue).1 := by
  have hfiles : ∀ f, (queueDir.files f).isSome = true := by
    intro f
    cases f <;> rfl
  refine (restores_iff _ queue queueDir rfl hfiles).mpr fun _ => ⟨?_, ?_, ?_⟩
  · simp
  · simp
  · exact fun _ => Or.inl rfl

/-- `mv db.tmp, db` fails: the directory is back, and in it there is no `db`. -/
theorem failed_rename_loses_db : ¬ Restored queueDir
    (lockdRecover { time := 1, now := 2, raises := some (.rename .db) } queue).1 := by
  rintro ⟨d', hhome, hfiles⟩
  have hgone : d'.files .db = none := by
    obtain rfl := Option.some.inj hhome
    rfl
  rw [hfiles] at hgone
  cases hgone

end RubyQueue.LockdRecover
