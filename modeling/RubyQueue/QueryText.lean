/-
  The texts the reading modes execute (`JobQueue#query`, `list` and `status`), and what SQLite's
  tokenizer makes of those that splice nothing raw.

  `list` quotes each argument with `QDB.q`, so its text is one `select` whatever the arguments are —
  a NUL included: the text then ends inside a literal (`listSql_oneSelect`).  `query` splices its
  clause as it is; `status` splices the extreme values of three columns and the codes of the exit
  code map.

  A semicolon token needs a semicolon in the text, so a `select` text without one is one statement
  (`oneSelect_of_no_semi`).
-/
import RubyQueue.Tokenize
import RubyQueue.Insert
import RubyQueue.JobQueue
import RubyQueue.Timestamp

namespace RubyQueue.JobQueue

open RubyQueue.Sqlite RubyQueue.Quote

/-! ## `query` -/

/-- The text of `query`. -/
def querySql (whereClause : Option Text) : Text :=
  match whereClause with
  | some w => "select * from jobs where ".toList ++ w ++ [';']
  | none => "select * from jobs;".toList

/-! ## `list` -/

/-- The `case` over one argument of `list`. -/
def listWhat (what : Text) : Text :=
  if letterStarts 'p' what then "pending".toList
  else if letterStarts 'h' what then "holding".toList
  else if letterStarts 'r' what then "running".toList
  else if letterStarts 'f' what then "finished".toList
  else if letterStarts 'd' what then "dead".toList
  else what

/-- The arguments after their defaults and the `case`. -/
def listWhats (whats : List Text) : List Text :=
  (if whats.isEmpty || whats.contains "all".toList then
    ["pending".toList, "running".toList, "finished".toList, "dead".toList]
  else whats).map listWhat

/-- The column an argument is compared with: the jid when one of its lines is a number. -/
def listColumn (what : Text) : Text :=
  if (lines what).any fun l => allDigits (strip l) then "jid".toList else "state".toList

/-- One of the `where_clauses`. -/
def listClause (what : Text) : Text := listColumn what ++ '=' :: (q (some what) ++ ['\n'])

/-- `where_clauses.join(" or \n")`. -/
def joinOr : List Text → Text
  | [] => []
  | [c] => c
  | c :: cs => c ++ (" or \n".toList ++ joinOr cs)

/-- The text of `list`. -/
def listSql (whats : List Text) : Text :=
  "          select * from jobs\n          where ".toList ++
    (joinOr ((listWhats whats).map listClause) ++ " \n".toList)

/-! ## `status` -/

/-- The texts of the counts by state. -/
def countSql (state : String) : Text :=
  "              select count(*) from jobs \n                where \n                  state='".toList
    ++ (state.toList ++ "'\n".toList)

/-- The text that selects the extreme values of a column; the names are exchanged for the columns
    that hold a time. -/
def extremesSql (metric state : String) : Text :=
  "                  select min(".toList ++ (metric.toList ++
    ((if metric = "elapsed" then ") as min, max(" else ") as max, max(").toList ++ (metric.toList ++
    ((if metric = "elapsed" then ") as max" else ") as min").toList ++
    (" \n                    from jobs where state='".toList ++ (state.toList ++ "'\n".toList))))))

/-- The text that looks for the job with an extreme value. -/
def whichSql (metric state : String) (t : Text) : Text :=
  "                  select jid from jobs where ".toList ++ (metric.toList ++ ("='".toList ++ (t ++
    ("' and state='".toList ++ (state.toList ++ "'\n".toList)))))

def averageSql : Text :=
  "            select avg(elapsed) from jobs \n              where \n".toList ++
    "                state='finished'\n".toList

/-- The text that counts the jobs finished since `ago`. -/
def recentSql (ago : Text) : Text :=
  "              select count(*) from jobs \n                where \n".toList ++
    ("                  state = 'finished' and \n                  finished  > '".toList ++
    (ago ++ "'\n".toList))

def successesSql : Text :=
  "            select count(*) from jobs \n              where \n".toList ++
    "                state='finished' and \n                exit_status=0 \n".toList

def failuresSql : Text :=
  "            select count(*) from jobs \n              where \n".toList ++
    ("                (state='finished' and \n                exit_status!=0) or\n".toList ++
    "                state='dead'\n".toList)

/-- `codes.map{|code| "exit_status=#{ code }"}.join(' or ')`. -/
def joinCodes : List Text → Text
  | [] => []
  | [c] => "exit_status=".toList ++ c
  | c :: cs => "exit_status=".toList ++ (c ++ (" or ".toList ++ joinCodes cs))

/-- The text that counts the jobs with one of the given exit codes. -/
def codesSql (codes : List Text) : Text :=
  "              select count(*) from jobs \n                where \n".toList ++
    ("                  (state='finished' and (".toList ++ (joinCodes codes ++ "))\n".toList))

/-! ## One `select` -/

/-- The text is one statement, a `select`. -/
def OneSelect (sql : Text) : Prop :=
  ∃ ts : List Token, statements sql = [⟨.keyword "SELECT", "select".toList⟩ :: ts]

/-- Enough for it: a text that starts with `select` after blanks, with no semicolon token in what
    C sees of the rest. -/
theorem oneSelect_of_lex (n : Nat) {rest : Text}
    (h : ∀ t ∈ lex ((cString rest).dropWhile isSpace), t.kind ≠ .semi) :
    OneSelect (List.replicate n ' ' ++ ("select ".toList ++ rest)) := by
  have hlex : ∀ n, lex (List.replicate n ' ' ++ ("select ".toList ++ cString rest)) =
      ⟨.keyword "SELECT", "select".toList⟩ :: lex ((cString rest).dropWhile isSpace) := by
    intro n
    have hsel := @lex_word_space 's' "elect".toList rfl rfl (cString rest)
    rw [keywordCode_select] at hsel
    match n with
    | 0 => exact hsel
    | n + 1 =>
      have hdrop : (List.replicate n ' ' ++ ("select ".toList ++ cString rest)).dropWhile isSpace =
          "select ".toList ++ cString rest := by
        rw [List.dropWhile_append_of_pos]
        · rfl
        · intro c hc
          rw [(List.mem_replicate.mp hc).2]
          rfl
      rw [List.replicate_succ, List.cons_append, lex_space (.inl rfl), hdrop]
      exact hsel
  have hcut : cString (List.replicate n ' ' ++ ("select ".toList ++ rest)) =
      List.replicate n ' ' ++ ("select ".toList ++ cString rest) := by
    rw [cString_append, cString_append]
    · decide
    · intro hc
      exact absurd (List.mem_replicate.mp hc).2 (by decide)
  refine ⟨lex ((cString rest).dropWhile isSpace), ?_⟩
  unfold statements
  rw [hcut, hlex]
  have hsplit := @split_statement ⟨.keyword "SELECT", "select".toList⟩ _ [] rfl h
    (fun u hu => nomatch hu)
  rw [List.append_nil] at hsplit
  exact hsplit

/-- A `select` text without a semicolon. -/
theorem oneSelect_of_no_semi (n : Nat) {rest : Text} (h : ';' ∉ rest) :
    OneSelect (List.replicate n ' ' ++ ("select ".toList ++ rest)) := by
  refine oneSelect_of_lex n (semi_not_mem_lex ?_)
  intro hmem
  exact h ((List.takeWhile_sublist _).subset ((List.dropWhile_sublist _).subset hmem))

/-! ## `list` never leaves its statement -/

/-- No token of the text is a semicolon. -/
def NoSemi (s : Text) : Prop := ∀ t ∈ lex s, t.kind ≠ .semi

theorem noSemi_of_lex {s rest : Text} {t : Token} (h : lex s = t :: lex rest) (ht : t.kind ≠ .semi)
    (hrest : NoSemi rest) : NoSemi s := by
  intro u hu
  rw [h, List.mem_cons] at hu
  rcases hu with rfl | hu
  · exact ht
  · exact hrest u hu

theorem noSemi_nil : NoSemi [] := fun _ ht => nomatch ht

theorem noSemi_space {c : Char} (hc : c = ' ' ∨ c = '\n') {s : Text}
    (hs : NoSemi (s.dropWhile isSpace)) : NoSemi (c :: s) := by
  intro t ht
  rw [lex_space hc] at ht
  exact hs t ht

theorem cString_cons {c : Char} (hc : c ≠ '\x00') (s : Text) : cString (c :: s) = c :: cString s :=
  List.takeWhile_cons_of_pos (by simpa using hc)

theorem cString_append_of_mem {a : Text} (ha : '\x00' ∈ a) (b : Text) :
    cString (a ++ b) = cString a := by
  induction a with
  | nil => cases ha
  | cons c a ih =>
    by_cases hc : c = '\x00'
    · rw [hc]
      rfl
    · have ha' : '\x00' ∈ a := (List.mem_cons.mp ha).resolve_left fun h => hc h.symm
      rw [List.cons_append, cString_cons hc, cString_cons hc, ih ha']

/-- A NUL cuts between the pairs of quotes. -/
theorem cString_pairQuotes (s : Text) : cString (pairQuotes s) = pairQuotes (cString s) := by
  fun_induction pairQuotes s with
  | case1 s ih =>
    rw [cString_cons (by decide), cString_cons (by decide), cString_cons (by decide),
      cString_cons (by decide), ih]
    rfl
  | case2 s hs ih =>
    have hlone : (cString s).head? ≠ some '\'' := by
      cases s with
      | nil => simp [cString]
      | cons d s =>
        by_cases hd : d = '\x00'
        · rw [hd]
          simp [cString]
        · rw [cString_cons hd]
          simpa using hs s
    rw [cString_cons (by decide), cString_cons (by decide), cString_cons (by decide), ih,
      pairQuotes_lone hlone]
  | case3 c s hs1 hs2 ih =>
    by_cases hc : c = '\x00'
    · rw [hc]
      rfl
    · rw [cString_cons hc, cString_cons hc, pairQuotes_cons (fun h => hs2 h), ih]
  | case4 => rfl

/-- A literal that is never closed is one token. -/
theorem stringScan_pairQuotes (s : Text) : stringScan '\'' (pairQuotes s) = (pairQuotes s, []) := by
  fun_induction pairQuotes s with
  | case1 s ih => simp [stringScan, ih]
  | case2 s hs ih => simp [stringScan, ih]
  | case3 c s hs1 hs2 ih =>
    have hc : c ≠ '\'' := fun h => hs2 h
    unfold stringScan
    rw [if_neg hc, ih]
  | case4 => rfl

theorem lex_open_literal (s : Text) :
    lex ('\'' :: pairQuotes s) = ⟨.string, '\'' :: pairQuotes s⟩ :: lex [] := by
  have htok : getToken '\'' (pairQuotes s) = (⟨.string, '\'' :: pairQuotes s⟩, []) := by
    show (Token.mk .string ('\'' :: (stringScan '\'' (pairQuotes s)).1),
      (stringScan '\'' (pairQuotes s)).2) = _
    rw [stringScan_pairQuotes]
  exact lex_of_getToken htok rfl

/-- A value and the line end after it.  A NUL in the value ends the text inside its literal. -/
theorem noSemi_value (what : Text) {rest : Text}
    (hrest : NoSemi ((cString rest).dropWhile isSpace)) :
    NoSemi (cString (q (some what) ++ '\n' :: rest)) := by
  by_cases hnul : '\x00' ∈ what
  · obtain ⟨c, s, rfl⟩ := List.exists_cons_of_ne_nil (List.ne_nil_of_mem hnul)
    have hopen : cString (q (some (c :: s)) ++ '\n' :: rest) =
        '\'' :: pairQuotes (cString (c :: s)) := by
      rw [← cString_pairQuotes, q, escape_quote, List.append_assoc, List.cons_append,
        cString_cons (by decide), cString_append_of_mem (mem_pairQuotes.mpr hnul)]
    rw [hopen]
    exact noSemi_of_lex (lex_open_literal _) (by simp) noSemi_nil
  · have hq : '\x00' ∉ q (some what) := by
      refine nul_not_mem_q ?_
      rintro v ⟨⟩
      exact hnul
    have hends : EndsWord ('\n' :: cString rest) := endsWord_cons rfl _
    rw [cString_append hq, cString_cons (by decide)]
    refine noSemi_of_lex (lex_q _ hends (by simp)) ?_ (noSemi_space (.inr rfl) hrest)
    rw [valueToken_kind]
    cases isEmptyField (some what) <;> simp [valueKind]

/-- The column and the equals sign of a clause. -/
theorem noSemi_listColumn (what : Text) {rest : Text} (hhead : rest.head? ≠ some '=')
    (hrest : NoSemi rest) : NoSemi (listColumn what ++ '=' :: rest) := by
  have hends : EndsWord ('=' :: rest) := endsWord_cons rfl rest
  have heq : NoSemi ('=' :: rest) := noSemi_of_lex (lex_eq hhead) (by simp) hrest
  unfold listColumn
  split
  · exact noSemi_of_lex (@lex_word 'j' "id".toList _ rfl rfl hends) (keywordCode_ne_semi _) heq
  · exact noSemi_of_lex (@lex_word 's' "tate".toList _ rfl rfl hends) (keywordCode_ne_semi _) heq

theorem nul_not_mem_listColumn (what : Text) : '\x00' ∉ listColumn what := by
  unfold listColumn
  split <;> decide

theorem noSemi_listClause (what : Text) {rest : Text}
    (hrest : NoSemi ((cString rest).dropWhile isSpace)) :
    NoSemi (cString (listClause what ++ rest)) := by
  have hclause : listClause what ++ rest =
      listColumn what ++ '=' :: (q (some what) ++ '\n' :: rest) := by
    simp [listClause]
  have hhead : (cString (q (some what) ++ '\n' :: rest)).head? ≠ some '=' := by
    match what with
    | [] => simp [q, cString]
    | _ :: _ => simp [q, cString]
  rw [hclause, cString_append (nul_not_mem_listColumn what), cString_cons (by decide)]
  exact noSemi_listColumn what hhead (noSemi_value what hrest)

/-- A clause starts with a letter. -/
theorem dropWhile_listClause (what rest : Text) :
    (cString (listClause what ++ rest)).dropWhile isSpace = cString (listClause what ++ rest) := by
  unfold listClause listColumn
  split <;> rfl

theorem joinOr_cons (c : Text) (cs : List Text) : ∃ s, joinOr (c :: cs) = c ++ s := by
  match cs with
  | [] => exact ⟨[], (List.append_nil c).symm⟩
  | _ :: _ => exact ⟨_, rfl⟩

/-- The clauses and the line end after them, by the number of clauses. -/
theorem noSemi_joinOr : ∀ {whats : List Text}, whats ≠ [] →
    NoSemi (cString (joinOr (whats.map listClause) ++ " \n".toList))
  | [], h => absurd rfl h
  | [w], _ => noSemi_listClause w noSemi_nil
  | w :: v :: whats, _ => by
    have ih := @noSemi_joinOr (v :: whats) (by simp)
    have hjoin : joinOr ((w :: v :: whats).map listClause) ++ " \n".toList =
        listClause w ++ (" or \n".toList ++
          (joinOr ((v :: whats).map listClause) ++ " \n".toList)) := by
      simp [joinOr]
    rw [hjoin]
    refine noSemi_listClause w ?_
    rw [cString_append (by decide)]
    show NoSemi ('o' :: ("r".toList ++ ' ' :: '\n' :: _))
    refine noSemi_of_lex (lex_word_space rfl rfl _) (keywordCode_ne_semi _) ?_
    obtain ⟨s, hs⟩ := joinOr_cons (listClause v) (whats.map listClause)
    rw [List.map_cons, hs, List.append_assoc] at ih ⊢
    show NoSemi ((cString (listClause v ++ (s ++ " \n".toList))).dropWhile isSpace)
    rw [dropWhile_listClause]
    exact ih

/-- **The text of `list` is one `select`, whatever it is asked for.** -/
theorem listSql_oneSelect (whats : List Text) : OneSelect (listSql whats) := by
  have hne : listWhats whats ≠ [] := by
    unfold listWhats
    split
    · simp
    · rename_i h
      intro h'
      rw [List.map_eq_nil_iff] at h'
      simp [h'] at h
  have h := noSemi_joinOr hne
  obtain ⟨w, ws, hws⟩ := List.exists_cons_of_ne_nil hne
  obtain ⟨s, hs⟩ := joinOr_cons (listClause w) (ws.map listClause)
  show OneSelect (List.replicate 10 ' ' ++ ("select ".toList ++
    ("* from jobs\n          where ".toList ++
      (joinOr ((listWhats whats).map listClause) ++ " \n".toList))))
  refine oneSelect_of_lex 10 ?_
  rw [cString_append (by decide)]
  show NoSemi ('*' :: ' ' :: ("from jobs\n          where ".toList ++ _))
  refine noSemi_of_lex (lex_star _) (by simp) (noSemi_space (.inl rfl) ?_)
  show NoSemi ('f' :: ("rom".toList ++ ' ' :: ("jobs\n          where ".toList ++ _)))
  refine noSemi_of_lex (lex_word_space rfl rfl _) (keywordCode_ne_semi _) ?_
  show NoSemi ('j' :: ("obs".toList ++ '\n' :: ("          where ".toList ++ _)))
  refine noSemi_of_lex (lex_word rfl rfl ?_) (keywordCode_ne_semi _)
    (noSemi_space (.inr rfl) ?_)
  · intro d hd
    obtain rfl : '\n' = d := by simpa using hd
    rfl
  show NoSemi ('w' :: ("here".toList ++ ' ' :: _))
  refine noSemi_of_lex (lex_word_space rfl rfl _) (keywordCode_ne_semi _) ?_
  rw [hws, List.map_cons, hs, List.append_assoc] at h ⊢
  show NoSemi ((cString (listClause w ++ (s ++ " \n".toList))).dropWhile isSpace)
  rw [dropWhile_listClause]
  exact h

/-! ## The texts of `status` that splice nothing raw -/

/-- The states `status` counts. -/
def statusStates : List String := ["pending", "holding", "running", "finished", "dead"]

/-- `metrics`: the column whose extreme values are shown for a state. -/
def metrics : List (String × String) :=
  [("pending", "submitted"), ("holding", "submitted"), ("running", "started"),
   ("finished", "elapsed"), ("dead", "elapsed")]

theorem countSql_oneSelect {state : String} (h : state ∈ statusStates) :
    OneSelect (countSql state) := by
  simp only [statusStates, List.mem_cons, List.not_mem_nil, or_false] at h
  rcases h with rfl | rfl | rfl | rfl | rfl <;> exact oneSelect_of_no_semi 14 (by decide)

theorem extremesSql_oneSelect {m : String × String} (h : m ∈ metrics) :
    OneSelect (extremesSql m.2 m.1) := by
  simp only [metrics, List.mem_cons, List.not_mem_nil, or_false] at h
  rcases h with rfl | rfl | rfl | rfl | rfl <;> exact oneSelect_of_no_semi 18 (by decide)

theorem averageSql_oneSelect : OneSelect averageSql := oneSelect_of_no_semi 12 (by decide)

theorem successesSql_oneSelect : OneSelect successesSql := oneSelect_of_no_semi 12 (by decide)

theorem failuresSql_oneSelect : OneSelect failuresSql := oneSelect_of_no_semi 12 (by decide)

theorem recentSql_oneSelect (ago : Nat) : OneSelect (recentSql (Util.timestamp ago).toList) := by
  have hago : ';' ∉ (Util.timestamp ago).toList :=
    fun h => absurd (Util.isStampChar_of_mem h) (by decide)
  show OneSelect (List.replicate 14 ' ' ++ ("select ".toList ++
    ("count(*) from jobs \n                where \n".toList ++
      ("                  state = 'finished' and \n                  finished  > '".toList ++
      ((Util.timestamp ago).toList ++ "'\n".toList)))))
  refine oneSelect_of_no_semi 14 ?_
  rw [List.mem_append, List.mem_append, List.mem_append]
  rintro (h | h | h | h)
  · exact absurd h (by decide)
  · exact absurd h (by decide)
  · exact hago h
  · exact absurd h (by decide)

-- What is needed of the texts has been said: from here on they are names.
attribute [irreducible] querySql listSql countSql extremesSql whichSql averageSql recentSql
  successesSql failuresSql codesSql

end RubyQueue.JobQueue
