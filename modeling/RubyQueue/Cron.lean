/-
  `rq q cron`: does removing the crontab entries leave the user's own lines as they were?

  `cron_add` installs two entries, each with the same mark, unless a line has the mark already.
  `cron_delete` collects the indices of all lines with the mark, and then deletes at these indices,
  one after the other, from the list that gets shorter meanwhile: from the second index on, the line
  deleted is one behind the line that was meant.

  * `tagged_iff`            — what counts as a marked line;
  * `tagged_of_mem_entries` — the entries `cron_add` writes do;
  * `deleteAt_eq_filter`    — one index is deleted as meant;
  * `exists_mem_deleteAt`   — of several, the second one stays;
  * `cron_delete_exact_iff` — so `cron_delete` is exact for one marked line at most, and never undoes
                              `cron_add`.

  Lines are compared up to the blanks at their ends, which both commands take off every line they
  write.  What is printed is not modelled, and `crontab` takes any text.
-/
import RubyQueue.Listing

namespace RubyQueue.Cron

open RubyQueue.Quote RubyQueue.JobQueue
open RubyQueue.Listing (dropWhile_of_stripText lines_of_not_mem lines_append_newline mem_stripText
  stays stripText_idem stripText_of_ends)

/-! ## Deleting at indices -/

section Indices

variable {α : Type} {p : α → Bool}

/-- The indices, from `idx` on, of the elements with `p`. -/
def indices (p : α → Bool) : Nat → List α → List Nat
  | _, [] => []
  | idx, a :: l => if p a then idx :: indices p (idx + 1) l else indices p (idx + 1) l

/-- `found.each{|idx| lines.delete_at(idx)}`. -/
def deleteAt (l : List α) (found : List Nat) : List α := found.foldl List.eraseIdx l

theorem indices_succ (idx : Nat) (l : List α) :
    indices p (idx + 1) l = (indices p idx l).map Nat.succ := by
  fun_induction indices p idx l with
  | case1 => rfl
  | case2 idx a l ha ih => rw [indices, if_pos ha, ih, List.map_cons]
  | case3 idx a l ha ih => rw [indices, if_neg ha, ih]

theorem indices_eq_nil_iff (idx : Nat) (l : List α) :
    indices p idx l = [] ↔ l.filter p = [] := by
  fun_induction indices p idx l with
  | case1 => simp
  | case2 idx a l ha ih => simp [ha]
  | case3 idx a l ha ih => rw [ih, List.filter_cons_of_neg (by simpa using ha)]

/-- Indices behind the first element delete behind it. -/
theorem deleteAt_cons_succ (a : α) (found : List Nat) (l : List α) :
    deleteAt (a :: l) (found.map Nat.succ) = a :: deleteAt l found := by
  unfold deleteAt
  induction found generalizing l with
  | nil => rfl
  | cons idx found ih =>
    rw [List.map_cons, List.foldl_cons, List.foldl_cons, List.eraseIdx_cons_succ, ih]

/-- What is before all the indices stays. -/
theorem deleteAt_getElem? {m : Nat} : ∀ {found : List Nat} {l : List α}, (∀ idx ∈ found, m < idx) →
    (deleteAt l found)[m]? = l[m]?
  | [], _, _ => rfl
  | idx :: found, l, h => by
    show (deleteAt (l.eraseIdx idx) found)[m]? = l[m]?
    rw [deleteAt_getElem? fun i hi => h i (List.mem_cons_of_mem idx hi),
      List.getElem?_eraseIdx_of_lt (h idx List.mem_cons_self)]

/-- **At most one element is deleted as meant.** -/
theorem deleteAt_eq_filter : ∀ {l : List α}, (l.filter p).length ≤ 1 →
    deleteAt l (indices p 0 l) = l.filter fun a => !p a
  | [], _ => rfl
  | a :: l, h => by
    rw [indices, indices_succ]
    by_cases ha : p a = true
    · rw [List.filter_cons_of_pos ha, List.length_cons] at h
      have hnone : l.filter p = [] := List.length_eq_zero_iff.mp (by omega)
      rw [if_pos ha, (indices_eq_nil_iff 0 l).mpr hnone, List.filter_cons_of_neg (by simp [ha])]
      show l = l.filter fun a => !p a
      refine (List.filter_eq_self.mpr fun b hb => ?_).symm
      simpa using List.filter_eq_nil_iff.mp hnone b hb
    · rw [List.filter_cons_of_neg ha] at h
      rw [if_neg ha, deleteAt_cons_succ, deleteAt_eq_filter h, List.filter_cons_of_pos (by simp [ha])]

theorem deleteAt_subset (l : List α) {found : List Nat} {a : α} (h : a ∈ deleteAt l found) : a ∈ l := by
  unfold deleteAt at h
  induction found generalizing l with
  | nil => exact h
  | cons idx found ih => exact List.mem_of_mem_eraseIdx (ih _ h)

/-- An element with `p` is at the first of the indices. -/
theorem indices_head {l : List α} (h : l.filter p ≠ []) :
    ∃ m a found, indices p 0 l = m :: found ∧ l[m]? = some a ∧ p a = true ∧ ∀ idx ∈ found, m < idx := by
  induction l with
  | nil => exact absurd rfl h
  | cons b l ih =>
    rw [indices, indices_succ]
    by_cases hb : p b = true
    · rw [if_pos hb]
      refine ⟨0, b, _, rfl, rfl, hb, fun idx hidx => ?_⟩
      obtain ⟨i, -, rfl⟩ := List.mem_map.mp hidx
      exact Nat.succ_pos i
    · rw [List.filter_cons_of_neg hb] at h
      obtain ⟨m, a, found, hfound, ha, hpa, hlt⟩ := ih h
      rw [if_neg hb, hfound]
      refine ⟨m + 1, a, _, rfl, ha, hpa, fun idx hidx => ?_⟩
      obtain ⟨i, hi, rfl⟩ := List.mem_map.mp hidx
      exact Nat.succ_lt_succ (hlt i hi)

/-- **Of several elements the second one stays**: it has moved to the index before its own when that
    is deleted, and what is deleted later is further behind. -/
theorem exists_mem_deleteAt : ∀ {l : List α}, 2 ≤ (l.filter p).length →
    ∃ a ∈ deleteAt l (indices p 0 l), p a = true
  | [], h => absurd h (by simp)
  | a :: l, h => by
    rw [indices, indices_succ]
    by_cases ha : p a = true
    · rw [List.filter_cons_of_pos ha, List.length_cons] at h
      have hsome : l.filter p ≠ [] := List.ne_nil_of_length_pos (by omega)
      obtain ⟨m, b, found, hfound, hb, hpb, hlt⟩ := indices_head hsome
      rw [if_pos ha, hfound]
      refine ⟨b, ?_, hpb⟩
      show b ∈ deleteAt l ((m :: found).map Nat.succ)
      refine @List.mem_of_getElem? _ _ m _ ?_
      rw [deleteAt_getElem?, hb]
      intro idx hidx
      obtain ⟨i, hi, rfl⟩ := List.mem_map.mp hidx
      rcases List.mem_cons.mp hi with rfl | hi
      · exact Nat.lt_succ_self i
      · exact (hlt i hi).trans (Nat.lt_succ_self i)
    · rw [List.filter_cons_of_neg ha] at h
      obtain ⟨b, hb, hpb⟩ := exists_mem_deleteAt h
      rw [if_neg ha, deleteAt_cons_succ]
      exact ⟨b, List.mem_cons_of_mem a hb, hpb⟩

end Indices

/-! ## Lines with the mark -/

/-- The command of the queue, its options as they are written into an entry, and
    `Digest::MD5::hexdigest "#{ @cmd } start"`. -/
structure Queue where
  cmd : Text
  opts : Text
  md5 : Text
  hex : md5.length = 32 ∧ ∀ c ∈ md5, c ∈ "0123456789abcdef".toList

/-- `line.split %r/\s+/, limit`. -/
def splitBlanks : Nat → Text → List Text
  | 0, _ => []
  | 1, line => [line]
  | limit + 2, line =>
    match line.dropWhile fun c => !isBlank c with
    | [] => [line]
    | rest => line.takeWhile (fun c => !isBlank c) ::
        splitBlanks (limit + 1) (rest.dropWhile isBlank)

/-- `entry.gsub! %r/#[^'"]$/, ''`. -/
def dropComment (entry : Text) : Text :=
  match entry.reverse with
  | c :: '#' :: rest => if c = '\'' ∨ c = '"' then entry else rest.reverse
  | _ => entry

/-- `%r/###\s*md5:#{ @md5[:start] }/` somewhere in the entry. -/
def marked (md5 entry : Text) : Bool :=
  entry.tails.any fun s => ['#', '#', '#'].isPrefixOf s &&
    ("md5:".toList ++ md5).isPrefixOf ((s.drop 3).dropWhile isBlank)

/-- What both loops look for: no comment, six fields, and the mark in the last one. -/
def tagged (q : Queue) (line : Text) : Bool :=
  let line := stripText line
  if line.head? = some '#' then false
  else
    match (splitBlanks 6 line)[5]? with
    | none => false
    | some entry => marked q.md5 (stripText (dropComment (stripText entry)))

/-! ## `cron_add` and `cron_delete` -/

/-- The text of these lines. -/
def tabText (ls : List Text) : Text := ls.flatMap (· ++ ['\n'])

/-- `split "\n"`, which leaves out the empty lines at the end. -/
def splitLines (text : Text) : List Text := (lines text).rdropWhile List.isEmpty

/-- The two entries. -/
def entries (q : Queue) : List Text :=
  ["*/15 * * * * ".toList ++ q.cmd ++ " start ".toList ++ q.opts ++ " ###md5:".toList ++ q.md5,
    "0 0 * * * ".toList ++ q.cmd ++ " rotate ###md5:".toList ++ q.md5]

/-- `cron_add`: the crontab before and after. -/
def cronAdd (q : Queue) (text : Text) : Text :=
  let ls := splitLines text
  if ls.any (tagged q) then text else tabText (ls.map stripText ++ entries q)

/-- `cron_delete`. -/
def cronDelete (q : Queue) (text : Text) : Text :=
  let ls := splitLines text
  let found := indices (tagged q) 0 ls
  if found.isEmpty then text else tabText (deleteAt (ls.map stripText) found)

/-- A crontab, as its lines. -/
structure Crontab where
  lines : List Text
  no_newline : ∀ l ∈ lines, '\n' ∉ l
  last_ne : lines.getLast? ≠ some []

/-- The text is that of these lines, up to the blanks around each. -/
def Reads (text : Text) (ls : List Text) : Prop :=
  ∃ ls', (∀ l ∈ ls', '\n' ∉ l) ∧ text = tabText ls' ∧ ls'.map stripText = ls.map stripText

/-! ## Lines and texts -/

theorem tagged_stripText (q : Queue) (l : Text) : tagged q (stripText l) = tagged q l := by
  unfold tagged
  rw [stripText_idem]

theorem lines_tabText : ∀ {ls : List Text}, (∀ l ∈ ls, '\n' ∉ l) → lines (tabText ls) = ls ++ [[]]
  | [], _ => rfl
  | l :: ls, h => by
    have hcons : tabText (l :: ls) = l ++ '\n' :: tabText ls := by
      unfold tabText
      rw [List.flatMap_cons, List.append_assoc]
      rfl
    rw [hcons, lines_append_newline, lines_of_not_mem (h l List.mem_cons_self),
      lines_tabText fun l' hl' => h l' (List.mem_cons_of_mem l hl')]
    rfl

theorem tabText_inj {ls ls' : List Text} (h : ∀ l ∈ ls, '\n' ∉ l) (h' : ∀ l ∈ ls', '\n' ∉ l)
    (heq : tabText ls = tabText ls') : ls = ls' := by
  have hlines := congrArg lines heq
  rw [lines_tabText h, lines_tabText h'] at hlines
  exact List.append_cancel_right hlines

theorem splitLines_tabText {ls : List Text} (h : ∀ l ∈ ls, '\n' ∉ l) (hl : ls.getLast? ≠ some []) :
    splitLines (tabText ls) = ls := by
  unfold splitLines
  rw [lines_tabText h, List.rdropWhile_concat_pos _ _ _ rfl, List.rdropWhile_eq_self_iff]
  intro hne hempty
  refine hl ?_
  rw [List.getLast?_eq_some_getLast hne, List.isEmpty_iff.mp hempty]

/-- A text is that of one list of lines at most, up to blanks. -/
theorem Reads.unique {text : Text} {ls ls' : List Text} (h : Reads text ls) (h' : Reads text ls') :
    ls.map stripText = ls'.map stripText := by
  obtain ⟨ks, hks, rfl, hmap⟩ := h
  obtain ⟨ks', hks', heq, hmap'⟩ := h'
  rw [← hmap, ← hmap', tabText_inj hks hks' heq]

theorem tabText_append (ls ls' : List Text) : tabText (ls ++ ls') = tabText ls ++ tabText ls' :=
  List.flatMap_append

/-- The lines of a text, each with its newline, are the text with one more.  Induction on its first
    newline. -/
theorem lines_spec (s : Text) : (∀ l ∈ lines s, '\n' ∉ l) ∧ tabText (lines s) = s ++ ['\n'] := by
  by_cases hmem : '\n' ∈ s
  · obtain ⟨l, t, rfl, hl⟩ := List.eq_append_cons_of_mem hmem
    obtain ⟨hnot, htext⟩ := lines_spec t
    rw [lines_append_newline, lines_of_not_mem hl, tabText_append, htext]
    refine ⟨fun l' hl' => ?_, by simp [tabText]⟩
    rcases List.mem_cons.mp hl' with rfl | hl'
    · exact hl
    · exact hnot l' hl'
  · rw [lines_of_not_mem hmem]
    refine ⟨fun l hl => ?_, by simp [tabText]⟩
    rw [List.mem_singleton.mp hl]
    exact hmem
termination_by s.length
decreasing_by
  subst_vars
  rw [List.length_append, List.length_cons]
  omega

/-- A text that does not end in a newline has a last line. -/
theorem lines_last {s : Text} {c : Char} (hs : s.getLast? = some c) (hc : c ≠ '\n') :
    (lines s).getLast? ≠ some [] := by
  intro hlast
  obtain ⟨ks, hks⟩ := List.getLast?_eq_some_iff.mp hlast
  have htext := (lines_spec s).2
  rw [hks, tabText_append] at htext
  have htext : tabText ks = s := List.append_cancel_right htext
  rcases List.eq_nil_or_concat' ks with rfl | ⟨ks, k, rfl⟩
  · rw [← htext] at hs
    cases hs
  · rw [← htext, tabText_append] at hs
    have hend : tabText [k] = k ++ ['\n'] := by simp [tabText]
    rw [hend, ← List.append_assoc, List.getLast?_concat] at hs
    exact hc (Option.some.inj hs).symm

/-- The entries, as the lines they come to. -/
def entryLines (q : Queue) : List Text := (entries q).flatMap lines

theorem tabText_flatMap_lines (ls : List Text) : tabText (ls.flatMap lines) = tabText ls := by
  induction ls with
  | nil => rfl
  | cons l ls ih =>
    rw [List.flatMap_cons, tabText_append, (lines_spec l).2, ih]
    simp [tabText]

theorem entryLines_spec (q : Queue) : (∀ l ∈ entryLines q, '\n' ∉ l) ∧
    (entryLines q).getLast? ≠ some [] ∧ 2 ≤ (entryLines q).length := by
  have hne : ∀ s : Text, lines s ≠ [] := fun s => List.splitOn_ne_nil _ _
  refine ⟨fun l hl => ?_, ?_, ?_⟩
  · obtain ⟨e, -, hl⟩ := List.mem_flatMap.mp hl
    exact (lines_spec e).1 l hl
  · obtain ⟨c, hc⟩ : ∃ c, q.md5.getLast? = some c := by
      refine ⟨_, List.getLast?_eq_some_getLast fun hnil => ?_⟩
      have := q.hex.1
      rw [hnil] at this
      cases this
    have hnl : c ≠ '\n' := by
      rintro rfl
      exact absurd (q.hex.2 _ (List.mem_of_getLast? hc)) (by decide)
    unfold entryLines entries
    rw [List.flatMap_cons, List.flatMap_singleton, List.getLast?_append_of_ne_nil _ (hne _)]
    refine lines_last ?_ hnl
    rw [List.getLast?_append, hc, Option.some_or]
  · unfold entryLines entries
    rw [List.flatMap_cons, List.flatMap_singleton, List.length_append]
    have h1 := List.length_pos_iff.mpr (hne ("*/15 * * * * ".toList ++ q.cmd ++ " start ".toList ++
      q.opts ++ " ###md5:".toList ++ q.md5))
    have h2 := List.length_pos_iff.mpr (hne ("0 0 * * * ".toList ++ q.cmd ++
      " rotate ###md5:".toList ++ q.md5))
    omega

/-! ## What counts as marked -/

section Ends

variable {α : Type} {p : α → Bool} {m l : List α}

theorem not_of_mem_head?_dropWhile : ∀ a ∈ (l.dropWhile p).head?, p a = false := by
  intro a ha
  have h := List.head?_dropWhile_not p l
  rw [ha] at h
  exact h

/-- What is dropped in front takes nothing of a part that starts with what is not dropped. -/
theorem infix_dropWhile (hm : ∀ a ∈ m.head?, p a = false) (h : m <:+: l) : m <:+: l.dropWhile p := by
  obtain ⟨x, y, rfl⟩ := h
  cases m with
  | nil => exact List.nil_infix
  | cons a m =>
    have hdrop : (a :: m ++ y).dropWhile p = a :: m ++ y :=
      List.dropWhile_cons_of_neg (Bool.eq_false_iff.mp (hm a rfl))
    rw [List.append_assoc, List.dropWhile_append, hdrop]
    split
    · exact (List.prefix_append (a :: m) y).isInfix
    · exact ⟨x.dropWhile p, y, List.append_assoc _ _ _⟩

theorem infix_rdropWhile (hm : ∀ a ∈ m.getLast?, p a = false) (h : m <:+: l) :
    m <:+: l.rdropWhile p := by
  have hrev := infix_dropWhile (by rwa [List.head?_reverse]) (List.reverse_infix.mpr h)
  rw [← List.reverse_infix, List.rdropWhile, List.reverse_reverse]
  exact hrev

end Ends

/-- The mark: `###`, blanks if any, `md5:` and the digest. -/
def IsMark (md5 mark : Text) : Prop :=
  ∃ b, (∀ c ∈ b, isBlank c = true) ∧ mark = "###".toList ++ (b ++ ("md5:".toList ++ md5))

/-- A field of a line, and the blanks behind it. -/
structure IsColumn (f : Text × Text) : Prop where
  word : f.1 ≠ [] ∧ ∀ c ∈ f.1, isBlank c = false
  gap : f.2 ≠ [] ∧ ∀ c ∈ f.2, isBlank c = true

/-- The line is `columns` of these, and a text behind them. -/
def Columns (columns : Nat) (line entry : Text) : Prop :=
  ∃ fs : List (Text × Text), fs.length = columns ∧ (∀ f ∈ fs, IsColumn f) ∧
    line = fs.flatMap (fun f => f.1 ++ f.2) ++ entry ∧ ∀ c ∈ entry.head?, isBlank c = false

theorem marked_iff {md5 entry : Text} :
    marked md5 entry = true ↔ ∃ mark, IsMark md5 mark ∧ mark <:+: entry := by
  unfold marked
  rw [List.any_eq_true]
  constructor
  · rintro ⟨s, hs, hmark⟩
    obtain ⟨x, rfl⟩ := (List.mem_tails s entry).mp hs
    obtain ⟨hhash, hmd5⟩ := Bool.and_eq_true_iff.mp hmark
    obtain ⟨s, rfl⟩ := List.isPrefixOf_iff_prefix.mp hhash
    obtain ⟨y, hy⟩ := List.isPrefixOf_iff_prefix.mp hmd5
    refine ⟨_, ⟨s.takeWhile isBlank, fun c hc => List.mem_takeWhile_imp hc, rfl⟩, x, y, ?_⟩
    have hsplit : s.takeWhile isBlank ++ s.dropWhile isBlank = s := List.takeWhile_append_dropWhile
    have hdrop : s.dropWhile isBlank = "md5:".toList ++ md5 ++ y := hy.symm
    rw [hdrop] at hsplit
    conv_rhs => rw [← hsplit]
    simp only [List.append_assoc]
    rfl
  · rintro ⟨mark, ⟨b, hb, rfl⟩, x, y, rfl⟩
    refine ⟨"###".toList ++ (b ++ ("md5:".toList ++ md5)) ++ y, ?_, ?_⟩
    · rw [List.mem_tails]
      exact ⟨x, (List.append_assoc _ _ _).symm⟩
    · have hdrop : (b ++ ("md5:".toList ++ (md5 ++ y))).dropWhile isBlank
          = "md5:".toList ++ (md5 ++ y) := by
        rw [List.dropWhile_append_of_pos hb]
        rfl
      show (true && ("md5:".toList ++ md5).isPrefixOf
        ((b ++ ("md5:".toList ++ md5) ++ y).dropWhile isBlank)) = true
      rw [Bool.true_and, List.append_assoc, List.append_assoc, hdrop, List.isPrefixOf_iff_prefix,
        ← List.append_assoc]
      exact List.prefix_append _ y

/-- A line that is made of columns starts with no blank. -/
theorem Columns.head {n : Nat} {line entry : Text} (h : Columns n line entry) :
    ∀ c ∈ line.head?, isBlank c = false := by
  obtain ⟨fs, -, hfs, rfl, hentry⟩ := h
  cases fs with
  | nil => exact hentry
  | cons f fs =>
    obtain ⟨hne, hword⟩ := (hfs f List.mem_cons_self).word
    obtain ⟨d, w, hw⟩ := List.exists_cons_of_ne_nil hne
    intro c hc
    rw [List.flatMap_cons, hw] at hc
    obtain rfl := Option.some.inj hc
    exact hword d (hw ▸ List.mem_cons_self)

/-- Such a line has a first column, when it has a blank. -/
theorem exists_column {line : Text} (hline : ∀ c ∈ line.head?, isBlank c = false) {d : Char}
    (hd : d ∈ line) (hblank : isBlank d = true) : ∃ f rest, IsColumn f ∧ line = f.1 ++ (f.2 ++ rest) ∧
      ∀ c ∈ rest.head?, isBlank c = false := by
  have hcut : line.takeWhile (fun c => !isBlank c) ++ line.dropWhile (fun c => !isBlank c) = line :=
    List.takeWhile_append_dropWhile
  have hfirst := @not_of_mem_head?_dropWhile _ (fun c => !isBlank c) line
  cases hs : line.dropWhile fun c => !isBlank c with
  | nil =>
    have hall := List.dropWhile_eq_nil_iff.mp hs d hd
    rw [hblank] at hall
    cases hall
  | cons e s =>
    rw [hs] at hcut hfirst
    have he : isBlank e = true := by simpa using hfirst e rfl
    refine ⟨(line.takeWhile fun c => !isBlank c, (e :: s).takeWhile isBlank),
      (e :: s).dropWhile isBlank, ⟨⟨?_, ?_⟩, ?_, ?_⟩, ?_, ?_⟩
    · -- the line would start with the blank
      intro hnil
      dsimp only at hnil
      rw [hnil] at hcut
      rw [hline e (hcut ▸ rfl)] at he
      cases he
    · exact fun c hc => by simpa using List.mem_takeWhile_imp hc
    · simp [List.takeWhile_cons_of_pos he]
    · exact fun c hc => List.mem_takeWhile_imp hc
    · rw [List.takeWhile_append_dropWhile, hcut]
    · exact not_of_mem_head?_dropWhile

theorem splitBlanks_column {f : Text × Text} (hf : IsColumn f) {rest : Text}
    (hrest : ∀ c ∈ rest.head?, isBlank c = false) (n : Nat) :
    splitBlanks (n + 2) (f.1 ++ (f.2 ++ rest)) = f.1 :: splitBlanks (n + 1) rest := by
  obtain ⟨d, g, hg⟩ := List.exists_cons_of_ne_nil hf.gap.1
  have hd : isBlank d = true := hf.gap.2 d (hg ▸ List.mem_cons_self)
  have hword : ∀ c ∈ f.1, (!isBlank c) = true := fun c hc => by rw [hf.word.2 c hc]; rfl
  have hdrop : (f.1 ++ (f.2 ++ rest)).dropWhile (fun c => !isBlank c) = d :: (g ++ rest) := by
    rw [List.dropWhile_append_of_pos hword, hg, List.cons_append,
      List.dropWhile_cons_of_neg (by simp [hd])]
  have htake : (f.1 ++ (f.2 ++ rest)).takeWhile (fun c => !isBlank c) = f.1 := by
    rw [List.takeWhile_append_of_pos hword, hg, List.cons_append,
      List.takeWhile_cons_of_neg (by simp [hd]), List.append_nil]
  have hkeep : rest.dropWhile isBlank = rest := by
    cases rest with
    | nil => rfl
    | cons c s => exact List.dropWhile_cons_of_neg (Bool.eq_false_iff.mp (hrest c rfl))
  have hgap : (d :: (g ++ rest)).dropWhile isBlank = rest := by
    rw [← List.cons_append, ← hg, List.dropWhile_append_of_pos hf.gap.2, hkeep]
  rw [splitBlanks, hdrop, htake]
  dsimp only
  rw [hgap]

theorem columns_succ {n : Nat} {line entry : Text} : Columns (n + 1) line entry ↔
    ∃ f rest, IsColumn f ∧ line = f.1 ++ (f.2 ++ rest) ∧ Columns n rest entry := by
  constructor
  · rintro ⟨fs, hlen, hfs, rfl, hentry⟩
    obtain ⟨f, fs, rfl⟩ := List.exists_cons_of_length_eq_add_one hlen
    refine ⟨f, fs.flatMap (fun f => f.1 ++ f.2) ++ entry, hfs f List.mem_cons_self, ?_, fs,
      Nat.succ.inj hlen, fun g hg => hfs g (List.mem_cons_of_mem f hg), rfl, hentry⟩
    rw [List.flatMap_cons, List.append_assoc, List.append_assoc]
  · rintro ⟨f, -, hf, rfl, fs, hlen, hfs, rfl, hentry⟩
    refine ⟨f :: fs, congrArg Nat.succ hlen, List.forall_mem_cons.mpr ⟨hf, hfs⟩, ?_, hentry⟩
    rw [List.flatMap_cons, List.append_assoc, List.append_assoc]

/-- **The last of `n + 1` fields** is what is behind `n` columns.  Induction on `n`. -/
theorem splitBlanks_getElem? {n : Nat} : ∀ {line entry : Text}, (∀ c ∈ line.head?, isBlank c = false) →
    ((splitBlanks (n + 1) line)[n]? = some entry ↔ Columns n line entry) := by
  induction n with
  | zero =>
    intro line entry hline
    constructor
    · intro h
      obtain rfl := Option.some.inj h
      exact ⟨[], rfl, fun f hf => absurd hf List.not_mem_nil, rfl, hline⟩
    · rintro ⟨fs, hlen, -, rfl, -⟩
      rw [List.length_eq_zero_iff.mp hlen]
      rfl
  | succ n ih =>
    intro line entry hline
    rw [columns_succ]
    by_cases hblank : ∃ d ∈ line, isBlank d = true
    · obtain ⟨d, hd, hblank⟩ := hblank
      obtain ⟨f, rest, hf, rfl, hrest⟩ := exists_column hline hd hblank
      rw [splitBlanks_column hf hrest, List.getElem?_cons_succ, ih hrest]
      constructor
      · exact fun hcols => ⟨f, rest, hf, rfl, hcols⟩
      · rintro ⟨g, rest', hg, heq, hcols⟩
        -- the line is cut in one way only
        have hsplit := splitBlanks_column hf hrest 0
        rw [heq, splitBlanks_column hg hcols.head] at hsplit
        obtain rfl : rest' = rest := by simpa [splitBlanks] using (List.cons.inj hsplit).2
        exact hcols
    · have hnone : line.dropWhile (fun c => !isBlank c) = [] :=
        List.dropWhile_eq_nil_iff.mpr fun d hd => by
          simpa using fun h => hblank ⟨d, hd, h⟩
      rw [splitBlanks, hnone]
      refine iff_of_false (by simp) ?_
      rintro ⟨f, rest, hf, rfl, -⟩
      obtain ⟨d, g, hg⟩ := List.exists_cons_of_ne_nil hf.gap.1
      exact hblank ⟨d, by simp [hg], hf.gap.2 d (hg ▸ List.mem_cons_self)⟩

/-- `strip` takes nothing of a part whose ends stay. -/
theorem infix_stripText {m l : Text} (hfirst : ∀ c ∈ m.head?, stays c = true)
    (hlast : ∀ c ∈ m.getLast?, stays c = true) : m <:+: stripText l ↔ m <:+: l := by
  constructor
  · intro h
    exact h.trans ((List.rdropWhile_prefix _ _).isInfix.trans (List.dropWhile_suffix _).isInfix)
  · intro h
    refine infix_rdropWhile (fun c hc => ?_) (infix_dropWhile (fun c hc => ?_) h)
    · simpa [stays] using hlast c hc
    · have hc := hfirst c hc
      simp only [stays, Bool.not_eq_true', Bool.or_eq_false_iff] at hc
      simp [hc.1]

/-- `gsub! %r/#[^'"]$/, ''` takes nothing of a part that has no `#` among its last two characters. -/
theorem infix_dropComment {m entry : Text} {c d : Char} (hm : m.reverse.take 2 = [d, c])
    (hc : c ≠ '#') (hd : d ≠ '#') : m <:+: dropComment entry ↔ m <:+: entry := by
  unfold dropComment
  split
  · rename_i e rest hrev
    split
    · exact Iff.rfl
    obtain ⟨s, hs⟩ : ∃ s, m.reverse = d :: c :: s :=
      ⟨m.reverse.drop 2, by rw [← List.take_append_drop 2 m.reverse, hm]; simp⟩
    rw [← List.reverse_infix, List.reverse_reverse, ← @List.reverse_infix _ m entry, hrev, hs,
      List.infix_cons_iff, List.infix_cons_iff]
    constructor
    · exact fun h => Or.inr (Or.inr h)
    · rintro (hpre | hpre | h)
      · obtain ⟨-, hpre⟩ := List.cons_prefix_cons.mp hpre
        exact absurd (List.cons_prefix_cons.mp hpre).1 hc
      · exact absurd (List.cons_prefix_cons.mp hpre).1 hd
      · exact h
  · exact Iff.rfl

/-- The ends of a mark, which no blank and no comment takes. -/
theorem IsMark.ends {q : Queue} {mark : Text} (h : IsMark q.md5 mark) :
    (∀ c ∈ mark.head?, stays c = true) ∧ (∀ c ∈ mark.getLast?, stays c = true) ∧
      ∃ c d, mark.reverse.take 2 = [d, c] ∧ c ≠ '#' ∧ d ≠ '#' := by
  obtain ⟨b, -, rfl⟩ := h
  have hhex : ∀ c ∈ q.md5, stays c = true ∧ c ≠ '#' := by
    have hall : "0123456789abcdef".toList.all (fun c => stays c && c != '#') = true := by decide
    intro c hc
    simpa using List.all_eq_true.mp hall c (q.hex.2 c hc)
  obtain ⟨d, c, s, hs⟩ : ∃ d c s, q.md5.reverse = d :: c :: s := by
    have hlen : q.md5.reverse.length = 32 := by rw [List.length_reverse, q.hex.1]
    match q.md5.reverse, hlen with
    | d :: c :: s, _ => exact ⟨d, c, s, rfl⟩
  have hmem : ∀ e ∈ d :: c :: s, stays e = true ∧ e ≠ '#' := fun e he =>
    hhex e (List.mem_reverse.mp (hs ▸ he))
  have hrev : ("###".toList ++ (b ++ ("md5:".toList ++ q.md5))).reverse
      = d :: c :: (s ++ ("###".toList ++ (b ++ "md5:".toList)).reverse) := by
    rw [← List.append_assoc b, ← List.append_assoc, List.reverse_append, hs]
    rfl
  refine ⟨fun e he => ?_, fun e he => ?_, c, d, by rw [hrev]; rfl, ?_, ?_⟩
  · obtain rfl := Option.some.inj he
    rfl
  · rw [List.getLast?_eq_head?_reverse, hrev] at he
    obtain rfl := Option.some.inj he
    exact (hmem _ List.mem_cons_self).1
  · exact (hmem c (List.mem_cons_of_mem d List.mem_cons_self)).2
  · exact (hmem d List.mem_cons_self).2

/-- **What counts as marked**: a line that does not start with a `#`, with the mark somewhere behind
    its first five fields; the blanks at its ends do not count. -/
theorem tagged_iff {q : Queue} {line : Text} : tagged q line = true ↔
    (stripText line).head? ≠ some '#' ∧ ∃ entry mark, Columns 5 (stripText line) entry ∧
      IsMark q.md5 mark ∧ mark <:+: entry := by
  have hline : ∀ c ∈ (stripText line).head?, isBlank c = false := by
    intro c hc
    rw [← dropWhile_of_stripText (stripText_idem line)] at hc
    exact (Bool.or_eq_false_iff.mp (not_of_mem_head?_dropWhile c hc)).1
  have hmarked : ∀ entry, marked q.md5 (stripText (dropComment (stripText entry))) = true ↔
      ∃ mark, IsMark q.md5 mark ∧ mark <:+: entry := by
    intro entry
    rw [marked_iff]
    refine exists_congr fun mark => and_congr_right fun hmark => ?_
    obtain ⟨hfirst, hlast, c, d, hm, hc, hd⟩ := hmark.ends
    rw [infix_stripText hfirst hlast, infix_dropComment hm hc hd, infix_stripText hfirst hlast]
  unfold tagged
  dsimp only
  split
  · rename_i hcomment
    exact iff_of_false (by decide) fun h => h.1 hcomment
  · rename_i hcode
    rw [and_iff_right hcode]
    split
    · rename_i hnone
      refine iff_of_false (by decide) ?_
      rintro ⟨entry, mark, hcols, -⟩
      rw [(splitBlanks_getElem? hline).mpr hcols] at hnone
      cases hnone
    · rename_i entry hentry
      rw [hmarked]
      constructor
      · rintro ⟨mark, hmark⟩
        exact ⟨entry, mark, (splitBlanks_getElem? hline).mp hentry, hmark⟩
      · rintro ⟨entry', mark, hcols, hmark⟩
        rw [(splitBlanks_getElem? hline).mpr hcols] at hentry
        obtain rfl := Option.some.inj hentry
        exact ⟨mark, hmark⟩

/-- Four columns, a fifth field, any text, and the mark. -/
theorem tagged_entry {q : Queue} {fs : List (Text × Text)} {w t : Text} (hlen : fs.length = 4)
    (hfs : ∀ f ∈ fs, IsColumn f) (hw : IsColumn (w, [' ']))
    (hfirst : ∃ c s, fs.flatMap (fun f => f.1 ++ f.2) = c :: s ∧ stays c = true ∧ c ≠ '#') :
    tagged q (fs.flatMap (fun f => f.1 ++ f.2) ++
      (w ++ ' ' :: (t ++ ("###md5:".toList ++ q.md5)))) = true := by
  have hmark : IsMark q.md5 ("###md5:".toList ++ q.md5) := ⟨[], by simp, rfl⟩
  obtain ⟨c, s, hs, hstays, hne⟩ := hfirst
  have hlast : ∀ c ∈ ("###md5:".toList ++ q.md5).getLast?, stays c = true := hmark.ends.2.1
  generalize hmd5 : "###md5:".toList ++ q.md5 = mark at hmark hlast ⊢
  have hnil : mark ≠ [] := by rw [← hmd5]; exact List.append_ne_nil_of_left_ne_nil (by decide) _
  have hstrip : stripText (fs.flatMap (fun f => f.1 ++ f.2) ++ (w ++ ' ' :: (t ++ mark)))
      = fs.flatMap (fun f => f.1 ++ f.2) ++ (w ++ ' ' :: (t ++ mark)) := by
    refine stripText_of_ends (fun d hd => ?_) (fun d hd => hlast d ?_)
    · rw [hs] at hd
      exact Option.some.inj hd ▸ hstays
    · rw [← List.cons_append, ← List.append_assoc, ← List.append_assoc,
        List.getLast?_append_of_ne_nil _ hnil] at hd
      exact hd
  rw [tagged_iff, hstrip]
  refine ⟨by rw [hs]; simpa using hne, (t ++ mark).dropWhile isBlank, mark, ?_, hmark,
    infix_dropWhile (fun d hd => ?_) (List.suffix_append t mark).isInfix⟩
  · -- blanks in front of the text belong to the fifth column
    refine ⟨fs ++ [(w, ' ' :: (t ++ mark).takeWhile isBlank)], by simp [hlen], ?_, ?_,
      not_of_mem_head?_dropWhile⟩
    · rintro f hf
      rcases List.mem_append.mp hf with hf | hf
      · exact hfs f hf
      · rw [List.mem_singleton.mp hf]
        refine ⟨hw.word, by simp, fun d hd => ?_⟩
        rcases List.mem_cons.mp hd with rfl | hd
        · rfl
        · exact List.mem_takeWhile_imp hd
    · rw [List.flatMap_append, List.flatMap_singleton, List.append_assoc, List.append_assoc,
        List.cons_append, List.takeWhile_append_dropWhile]
  · have h := hmark.ends.1 d hd
    simp only [stays, Bool.not_eq_true', Bool.or_eq_false_iff] at h
    exact h.1.1

/-- **The entries `cron_add` writes are marked**, whatever the command and the options are. -/
theorem tagged_of_mem_entries {q : Queue} {e : Text} (he : e ∈ entries q) : tagged q e = true := by
  have hcolumn : ∀ w ∈ ["*/15".toList, "0".toList, "*".toList], IsColumn (w, [' ']) := by
    have hall : (["*/15".toList, "0".toList, "*".toList].all fun w => !w.isEmpty &&
        w.all fun c => !isBlank c) = true := by decide
    intro w hw
    obtain ⟨hne, hword⟩ := Bool.and_eq_true_iff.mp (List.all_eq_true.mp hall w hw)
    refine ⟨⟨by simpa using hne, fun c hc => ?_⟩, by simp, fun c hc => ?_⟩
    · simpa using List.all_eq_true.mp hword c hc
    · rw [List.mem_singleton.mp hc]
      rfl
  have hmany : ∀ ws : List Text, (∀ w ∈ ws, w ∈ ["*/15".toList, "0".toList, "*".toList]) →
      ∀ f ∈ ws.map fun w => (w, [' ']), IsColumn f := by
    intro ws hws f hf
    obtain ⟨w, hw, rfl⟩ := List.mem_map.mp hf
    exact hcolumn w (hws w hw)
  have hstar := hcolumn "*".toList (by decide)
  rcases List.mem_cons.mp he with rfl | he
  · have h := @tagged_entry q _ _ (q.cmd ++ (" start ".toList ++ (q.opts ++ [' ']))) rfl
      (hmany ["*/15".toList, "*".toList, "*".toList, "*".toList] (by decide)) hstar
      ⟨'*', _, rfl, by decide, by decide⟩
    refine Eq.trans (congrArg (tagged q) ?_) h
    simp
  · obtain rfl := List.mem_singleton.mp he
    have h := @tagged_entry q _ _ (q.cmd ++ " rotate ".toList) rfl
      (hmany ["0".toList, "0".toList, "*".toList, "*".toList] (by decide)) hstar
      ⟨'0', _, rfl, by decide, by decide⟩
    refine Eq.trans (congrArg (tagged q) ?_) h
    simp

/-! ## What is installed -/

section Installed

variable {q : Queue} {text : Text} {ls ls' : List Text}

/-- Whether a line has the mark shows in any list the text is read as. -/
theorem Reads.tagged (h : Reads text ls) (h' : Reads text ls') (hl : ∃ l ∈ ls, tagged q l = true) :
    ∃ l ∈ ls', Cron.tagged q l = true := by
  obtain ⟨l, hl, htag⟩ := hl
  have hmem : stripText l ∈ ls'.map stripText := h.unique h' ▸ List.mem_map_of_mem hl
  obtain ⟨l', hl', heq⟩ := List.mem_map.mp hmem
  refine ⟨l', hl', ?_⟩
  rw [← tagged_stripText, heq, tagged_stripText, htag]

theorem indices_stripText (idx : Nat) (ls : List Text) :
    indices (Cron.tagged q) idx (ls.map stripText) = indices (Cron.tagged q) idx ls := by
  induction ls generalizing idx with
  | nil => rfl
  | cons l ls ih => rw [List.map_cons, indices, indices, tagged_stripText, ih]

theorem filter_stripText {f : Text → Bool} (hf : ∀ l, f (stripText l) = f l) (ls : List Text) :
    (ls.map stripText).filter f = (ls.filter f).map stripText := by
  rw [List.filter_map]
  exact congrArg (List.map stripText) (List.filter_congr fun l _ => hf l)

theorem newline_not_mem_stripText (h : ∀ l ∈ ls, '\n' ∉ l) : ∀ l ∈ ls.map stripText, '\n' ∉ l := by
  intro l hl
  obtain ⟨l, hmem, rfl⟩ := List.mem_map.mp hl
  exact fun hnl => h l hmem (mem_stripText hnl)

theorem reads_stripText (h : ∀ l ∈ ls, '\n' ∉ l) : Reads (tabText (ls.map stripText)) ls := by
  refine ⟨ls.map stripText, newline_not_mem_stripText h, rfl, ?_⟩
  rw [List.map_map]
  exact List.map_congr_left fun l _ => stripText_idem l

/-- What `cron_delete` makes of these lines. -/
theorem cronDelete_tabText (h : ∀ l ∈ ls, '\n' ∉ l) (hl : ls.getLast? ≠ some []) :
    cronDelete q (tabText ls) =
      if ls.filter (Cron.tagged q) = [] then tabText ls
      else tabText (deleteAt (ls.map stripText) (indices (Cron.tagged q) 0 (ls.map stripText))) := by
  unfold cronDelete
  rw [splitLines_tabText h hl, indices_stripText]
  dsimp only
  by_cases hnone : ls.filter (Cron.tagged q) = []
  · rw [if_pos hnone, if_pos (List.isEmpty_iff.mpr ((indices_eq_nil_iff 0 ls).mpr hnone))]
  · rw [if_neg hnone, if_neg fun hempty => hnone ((indices_eq_nil_iff 0 ls).mp
      (List.isEmpty_iff.mp hempty))]

/-- **One marked line is removed, and no other one.** -/
theorem cronDelete_one (h : ∀ l ∈ ls, '\n' ∉ l) (hl : ls.getLast? ≠ some [])
    (hone : (ls.filter (Cron.tagged q)).length ≤ 1) :
    Reads (cronDelete q (tabText ls)) (ls.filter fun l => !Cron.tagged q l) := by
  rw [cronDelete_tabText h hl]
  split
  · rename_i hnone
    rw [List.filter_eq_self.mpr fun l hmem => by
      simpa using List.filter_eq_nil_iff.mp hnone l hmem]
    exact ⟨ls, h, rfl, rfl⟩
  · have hone' : ((ls.map stripText).filter (Cron.tagged q)).length ≤ 1 := by
      rw [filter_stripText (tagged_stripText q), List.length_map]
      exact hone
    rw [deleteAt_eq_filter hone', filter_stripText fun l => congrArg not (tagged_stripText q l)]
    exact reads_stripText fun l hmem => h l (List.mem_of_mem_filter hmem)

/-- **Of several marked lines one stays.** -/
theorem cronDelete_several (h : ∀ l ∈ ls, '\n' ∉ l) (hl : ls.getLast? ≠ some [])
    (hmany : 2 ≤ (ls.filter (Cron.tagged q)).length) :
    ∃ ls', Reads (cronDelete q (tabText ls)) ls' ∧ ∃ l ∈ ls', Cron.tagged q l = true := by
  have hmany' : 2 ≤ ((ls.map stripText).filter (Cron.tagged q)).length := by
    rw [filter_stripText (tagged_stripText q), List.length_map]
    exact hmany
  rw [cronDelete_tabText h hl, if_neg (List.ne_nil_of_length_pos (by omega))]
  refine ⟨_, ⟨_, fun l hmem => ?_, rfl, rfl⟩, exists_mem_deleteAt hmany'⟩
  exact newline_not_mem_stripText h l (deleteAt_subset _ hmem)

/-- What `cron_add` makes of these lines. -/
theorem cronAdd_tabText (h : ∀ l ∈ ls, '\n' ∉ l) (hl : ls.getLast? ≠ some []) :
    cronAdd q (tabText ls) =
      if ls.any (Cron.tagged q) then tabText ls
      else tabText (ls.map stripText ++ entryLines q) := by
  unfold cronAdd
  rw [splitLines_tabText h hl]
  dsimp only
  split
  · rfl
  · rw [tabText_append, tabText_append, entryLines, tabText_flatMap_lines]

/-- Two lines or more have been added to those of the crontab. -/
def Added (tab : Crontab) (text : Text) : Prop :=
  ∃ base extra, text = tabText (base ++ extra) ∧ (∀ l ∈ base ++ extra, '\n' ∉ l) ∧
    (base ++ extra).getLast? ≠ some [] ∧ base.map stripText = tab.lines.map stripText ∧
    2 ≤ extra.length

/-- What one `cron_add` adds. -/
theorem added_cronAdd {tab : Crontab} {base extra : List Text}
    (h : ∀ l ∈ base ++ extra, '\n' ∉ l) (hl : (base ++ extra).getLast? ≠ some [])
    (hbase : base.map stripText = tab.lines.map stripText)
    (hnew : 2 ≤ extra.length ∨ (base ++ extra).filter (Cron.tagged q) = []) :
    Added tab (cronAdd q (tabText (base ++ extra))) := by
  obtain ⟨hnl, hlast, hlen⟩ := entryLines_spec q
  rw [cronAdd_tabText h hl]
  split
  · rename_i hany
    refine ⟨base, extra, rfl, h, hl, hbase, hnew.resolve_right fun hnone => ?_⟩
    obtain ⟨l, hmem, htag⟩ := List.any_eq_true.mp hany
    exact List.filter_eq_nil_iff.mp hnone l hmem htag
  · refine ⟨base.map stripText, extra.map stripText ++ entryLines q, ?_, ?_, ?_, ?_, ?_⟩
    · rw [List.map_append, List.append_assoc]
    · rw [← List.append_assoc, ← List.map_append, List.forall_mem_append]
      exact ⟨newline_not_mem_stripText h, hnl⟩
    · rw [← List.append_assoc, List.getLast?_append_of_ne_nil _
        (List.ne_nil_of_length_pos (by omega))]
      exact hlast
    · rw [List.map_map, ← hbase]
      exact List.map_congr_left fun l _ => stripText_idem l
    · rw [List.length_append]
      omega

/-- **Any number of additions adds two lines or more.**  Induction on the number. -/
theorem added_iterate {tab : Crontab} (hnone : tab.lines.filter (Cron.tagged q) = []) (n : Nat) :
    Added tab ((cronAdd q)^[n + 1] (tabText tab.lines)) := by
  induction n with
  | zero =>
    have hnil : tab.lines ++ [] = tab.lines := List.append_nil _
    have h := @added_cronAdd q tab tab.lines [] (hnil.symm ▸ tab.no_newline) (hnil.symm ▸ tab.last_ne)
      rfl (Or.inr (hnil.symm ▸ hnone))
    rw [hnil] at h
    exact h
  | succ n ih =>
    rw [Function.iterate_succ_apply']
    obtain ⟨base, extra, htext, hnl, hlast, hbase, hlen⟩ := ih
    rw [htext]
    exact added_cronAdd hnl hlast hbase (Or.inl hlen)

end Installed

/-! ## When removing the entries is exact -/

/-- **`cron_delete` is exact for a crontab with at most one marked line, and undoes no number of
    `cron_add`s**, up to the blanks around the lines. -/
theorem cron_delete_exact_iff (q : Queue) :
    (∀ tab : Crontab, Reads (cronDelete q (tabText tab.lines)) (tab.lines.filter fun l => !tagged q l) ↔
      (tab.lines.filter (tagged q)).length ≤ 1) ∧
    (∀ tab : Crontab, tab.lines.filter (tagged q) = [] → ∀ n : Nat,
      ¬ Reads (cronDelete q ((cronAdd q)^[n + 1] (tabText tab.lines))) tab.lines) := by
  refine ⟨fun tab => ⟨fun h => ?_, cronDelete_one tab.no_newline tab.last_ne⟩, ?_⟩
  · by_contra hmany
    obtain ⟨ls', hreads, htag⟩ := @cronDelete_several q tab.lines tab.no_newline tab.last_ne (by omega)
    obtain ⟨l, hl, htag⟩ := hreads.tagged h htag
    simp [htag] at hl
  · intro tab hnone n h
    obtain ⟨base, extra, htext, hnl, hlast, hbase, hlen⟩ := added_iterate hnone n
    rw [htext] at h
    rcases Nat.lt_or_ge ((base ++ extra).filter (tagged q)).length 2 with hone | hmany
    · have hlines := congrArg List.length ((cronDelete_one hnl hlast (by omega)).unique h)
      have hcount := (base ++ extra).length_eq_length_filter_add (tagged q)
      have hlength := congrArg List.length hbase
      rw [List.length_map, List.length_map] at hlines hlength
      rw [List.length_append] at hcount
      omega
    · obtain ⟨ls', hreads, htag⟩ := cronDelete_several hnl hlast hmany
      obtain ⟨l, hl, htag⟩ := hreads.tagged h htag
      exact List.filter_eq_nil_iff.mp hnone l hl htag

/-- A queue, and an entry with its mark. -/
def nightly : Queue where
  cmd := "ruby rq q".toList
  opts := []
  md5 := "0123456789abcdef0123456789abcdef".toList
  hex := by
    have hall : "0123456789abcdef0123456789abcdef".toList.all
        (fun c => "0123456789abcdef".toList.contains c) = true := by decide
    exact ⟨rfl, fun c hc => List.contains_iff_mem.mp (List.all_eq_true.mp hall c hc)⟩

def entry (command : String) : Text :=
  ("0 0 * * * " ++ command ++ " ###md5:0123456789abcdef0123456789abcdef").toList

def ownLine : Text := "0 1 * * * backup".toList

/-- One marked line before a line of the user's; and the user's line alone, with the entries added
    and removed. -/
theorem cron_delete_one_entry :
    Reads (cronDelete nightly (tabText [entry "rq q start", ownLine])) [ownLine] ∧
    ¬ Reads (cronDelete nightly (cronAdd nightly (tabText [ownLine]))) [ownLine] := by
  have htab : [entry "rq q start", ownLine].filter (fun l => !tagged nightly l) = [ownLine] := by decide
  have hexact := cron_delete_exact_iff nightly
  constructor
  · have hone := hexact.1 ⟨[entry "rq q start", ownLine], by decide, by decide⟩
    rw [htab] at hone
    exact hone.mpr (by decide)
  · exact hexact.2 ⟨[ownLine], by decide, by decide⟩ (by decide) 0

/-- Two marked lines before a line of the user's: the user's line is removed, and a marked one
    stays. -/
theorem cron_delete_takes_own_line :
    Reads (cronDelete nightly (tabText [entry "rq q start", entry "rq q rotate", ownLine]))
      [entry "rq q rotate"] ∧
    ¬ Reads (cronDelete nightly (tabText [entry "rq q start", entry "rq q rotate", ownLine]))
      ([entry "rq q start", entry "rq q rotate", ownLine].filter fun l => !tagged nightly l) := by
  have hnl : ∀ l ∈ [entry "rq q start", entry "rq q rotate", ownLine], '\n' ∉ l := by decide
  have hreads : Reads (cronDelete nightly (tabText [entry "rq q start", entry "rq q rotate", ownLine]))
      [entry "rq q rotate"] := by
    rw [cronDelete_tabText hnl (by decide), if_neg (by decide)]
    refine ⟨_, ?_, rfl, ?_⟩
    · decide
    · decide
  refine ⟨hreads, fun h => ?_⟩
  have hlines := hreads.unique h
  exact absurd hlines (by decide)

end RubyQueue.Cron
