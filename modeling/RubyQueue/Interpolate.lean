/-
  What Ruby 1.9 makes of `"#{ QDB::q x }"`, and what SQLite makes of that.

  `QDB.q` returns an Array.  Ruby 1.8 interpolates an Array as its joined elements, Ruby 1.9 as its
  `inspect` form: where 1.8 writes `state='pending'`, 1.9 writes `state=["'pending'"]`.  To SQLite a
  text in brackets is an identifier, and no column has a name that starts with a double quote.

  So `JobQueue#list` raises for every argument but a number: `list_exact_iff`.
-/
import RubyQueue.Delete
import RubyQueue.Listing
import RubyQueue.QueryText
import RubyQueue.Where

namespace RubyQueue.Interpolate

open RubyQueue.Sqlite RubyQueue.Quote RubyQueue.JobQueue RubyQueue.Listing
open RubyQueue.Delete (stateWords runningAndPending)
open RubyQueue.Where (OtherSelect fieldOf selectWith)

/-! ## `inspect` -/

/-- The letters of the escapes `String#inspect` writes. -/
def escapes : List (Char × Char) :=
  [('"', '"'), ('\\', '\\'), ('\n', 'n'), ('\t', 't'), ('\r', 'r'), ('\x0b', 'v'), ('\x0c', 'f'),
   ('\x07', 'a'), ('\x08', 'b'), ('\x1b', 'e')]

/-- The two digits of a `\x` escape. -/
def hex (n : Nat) : Text := [n / 16, n % 16].map fun d => (Nat.digitChar d).toUpper

/-- The characters between the quotes of `String#inspect`. -/
def inspectChars : Text → Text
  | [] => []
  | c :: s =>
    match escapes.lookup c with
    | some e => '\\' :: e :: inspectChars s
    | none =>
      -- a `#` that would start an interpolation
      if c = '#' ∧ s.head?.any [Char.ofNat 123, '$', '@'].contains then '\\' :: '#' :: inspectChars s
      else if c.toNat < 32 ∨ c.toNat = 127 then '\\' :: 'x' :: (hex c.toNat ++ inspectChars s)
      else c :: inspectChars s

/-- `String#inspect`. -/
def inspect (s : Text) : Text := '"' :: (inspectChars s ++ ['"'])

/-- `"#{ QDB::q f }"`: the `inspect` of an Array of one. -/
def interpolate (f : Option Text) : Text := '[' :: (inspect (q f) ++ [']'])

/-- What it writes besides the characters of the text. -/
def written : Text := "\\\"ntrvfabe#x0123456789ABCDEF".toList

theorem mem_inspectChars {c : Char} : ∀ {s : Text}, c ∈ inspectChars s →
    c ∈ written ∨ (c ∈ s ∧ 32 ≤ c.toNat)
  | [], h => by cases h
  | d :: s, h => by
    have ih : c ∈ inspectChars s → c ∈ written ∨ (c ∈ d :: s ∧ 32 ≤ c.toNat) := by
      intro hc
      exact (mem_inspectChars hc).imp_right fun ⟨hs, hle⟩ => ⟨List.mem_cons_of_mem _ hs, hle⟩
    rw [inspectChars] at h
    split at h
    · rename_i e he
      have hall : ∀ p ∈ escapes, p.2 ∈ written := by decide
      rcases List.mem_cons.mp h with rfl | h
      · exact Or.inl (by decide)
      rcases List.mem_cons.mp h with rfl | h
      · exact Or.inl (hall _ (mem_of_lookup he))
      · exact ih h
    split at h
    · rcases List.mem_cons.mp h with rfl | h
      · exact Or.inl (by decide)
      rcases List.mem_cons.mp h with rfl | h
      · exact Or.inl (by decide)
      · exact ih h
    split at h
    · rename_i hcontrol
      have hall : ∀ n < 128, (hex n).all written.contains = true := by decide
      have hhex : ∀ n < 128, ∀ c ∈ hex n, c ∈ written := by
        intro n hn c hc
        exact List.contains_iff_mem.mp (List.all_eq_true.mp (hall n hn) c hc)
      rcases List.mem_cons.mp h with rfl | h
      · exact Or.inl (by decide)
      rcases List.mem_cons.mp h with rfl | h
      · exact Or.inl (by decide)
      rcases List.mem_append.mp h with h | h
      · exact Or.inl (hhex d.toNat (by omega) c h)
      · exact ih h
    · rename_i hcontrol
      rcases List.mem_cons.mp h with rfl | h
      · exact Or.inr ⟨List.mem_cons_self, by omega⟩
      · exact ih h

/-- An interpolated value: no NUL, and no bracket but the last when the value has none. -/
theorem interpolate_spec (f : Option Text) :
    '\x00' ∉ interpolate f ∧ ((∀ s, f = some s → ']' ∉ s) → ']' ∉ inspect (q f)) := by
  constructor
  · intro h
    have hmem : '\x00' ∈ inspectChars (q f) := by simpa [interpolate, inspect] using h
    rcases mem_inspectChars hmem with h | h
    · exact absurd h (by decide)
    · exact absurd h.2 (by decide)
  · intro hf h
    have hmem : ']' ∈ inspectChars (q f) := by simpa [inspect] using h
    rcases mem_inspectChars hmem with h | ⟨h, -⟩
    · exact absurd h (by decide)
    · unfold q at h
      split at h
      · rw [escape_quote] at h
        refine hf _ rfl (mem_pairQuotes.mp ?_)
        simpa using h
      · exact absurd h (by decide)

/-! ## How SQLite reads it -/

/-- A bracket opens an identifier, which goes to the next closing one. -/
theorem lex_openBracket (s : Text) :
    lex ('[' :: s) = ⟨.id, '[' :: (s.takeWhile (· != ']') ++ (s.dropWhile (· != ']')).take 1)⟩ ::
      lex ((s.dropWhile (· != ']')).drop 1) := lex_of_getToken rfl rfl

/-- **A text in brackets is an identifier.** -/
theorem lex_bracket {w : Text} (hw : ']' ∉ w) (rest : Text) :
    lex ('[' :: (w ++ ']' :: rest)) = ⟨.id, '[' :: (w ++ [']'])⟩ :: lex rest := by
  have hne : ∀ c ∈ w, (c != ']') = true := by
    intro c hc
    have : c ≠ ']' := fun h => hw (h ▸ hc)
    simpa using this
  rw [lex_openBracket, List.takeWhile_append_of_pos hne, List.dropWhile_append_of_pos hne,
    List.takeWhile_cons_of_neg (by decide), List.dropWhile_cons_of_neg (by decide)]
  simp

/-- Digits before the end of a line are an integer. -/
theorem lex_digits {w : Text} (hw : allDigits w = true) (rest : Text) :
    lex (w ++ '\n' :: rest) = ⟨.integer, w⟩ :: lex (rest.dropWhile isSpace) := by
  obtain ⟨hne, hall⟩ := Bool.and_eq_true_iff.mp hw
  obtain ⟨c, w, rfl⟩ := List.exists_cons_of_ne_nil (by simpa using hne : w ≠ [])
  have hdigits := List.all_eq_true.mp hall
  have hc : c.isDigit = true := hdigits c List.mem_cons_self
  have hw : ∀ d ∈ w, d.isDigit = true := fun d hd => hdigits d (List.mem_cons_of_mem _ hd)
  have hne : ∀ d : Char, d.isDigit = false → c ≠ d := by
    rintro d hd rfl
    rw [hc] at hd
    cases hd
  have hscan : fractionScan ('\n' :: rest) = (.integer, [], '\n' :: rest) := by
    show exponentScan .integer ('\n' :: rest) = _
    match rest with
    | [] => rfl
    | d :: rest => rfl
  have htok : getToken c (w ++ '\n' :: rest) = (⟨.integer, c :: w⟩, '\n' :: rest) := by
    unfold getToken
    rw [if_neg (by simp [hne]), if_neg (hne _ (by decide)), if_neg (hne _ (by decide)),
      if_neg (by simp [hne]), if_pos hc, List.dropWhile_append_of_pos hw,
      List.takeWhile_append_of_pos hw, List.dropWhile_cons_of_neg (by decide),
      List.takeWhile_cons_of_neg (by decide), hscan]
    simp
  rw [List.cons_append, lex_of_getToken htok rfl, lex_space (.inr rfl)]

/-- The name of an identifier token is that of a column. -/
def isColumn (w : Text) : Bool := (fieldOf (sqliteDequote w)).isSome

/-- An interpolated value names no column: the name starts with the double quote of `inspect`. -/
theorem isColumn_interpolate (f : Option Text) : isColumn (interpolate f) = false := by
  have hname : ∃ w, (sqliteDequote (interpolate f)).map Char.toLower = '"' :: w := by
    refine ⟨(unquote ']' (inspectChars (q f) ++ ['"'] ++ [']'])).map Char.toLower, ?_⟩
    show (unquote ']' ('"' :: (inspectChars (q f) ++ ['"'] ++ [']']))).map Char.toLower = _
    rw [unquote_cons (by decide)]
    rfl
  obtain ⟨w, hw⟩ := hname
  have hhead : ∀ f ∈ fieldNames ++ ["_rowid_", "rowid", "oid"], f.toList.head? ≠ some '"' := by decide
  have hother : ∀ f ∈ fieldNames ++ ["_rowid_", "rowid", "oid"], f ≠ String.ofList ('"' :: w) := by
    rintro f hf rfl
    exact hhead _ hf (by rw [String.toList_ofList]; rfl)
  unfold isColumn fieldOf
  rw [hw]
  dsimp only
  rw [if_neg fun hc => hother _ (List.mem_append_left _ (List.contains_iff_mem.mp hc)) rfl,
    if_neg fun hc => hother _ (List.mem_append_right _ (List.contains_iff_mem.mp hc)) rfl]
  rfl

/-! ## A `select` on conditions joined by `or` -/

/-- The right side of a condition. -/
inductive Operand
  | number (n : Int)
  | name (w : Text)
deriving DecidableEq, Repr

/-- A condition `column=value`. -/
structure Cond where
  column : Text
  value : Operand
deriving DecidableEq, Repr

def readCond : List Token → Option (Cond × List Token)
  | ⟨.id, col⟩ :: ⟨.eq, _⟩ :: ⟨.integer, n⟩ :: ts => some (⟨col, .number (digitsValue n)⟩, ts)
  | ⟨.id, col⟩ :: ⟨.eq, _⟩ :: ⟨.minus, _⟩ :: ⟨.integer, n⟩ :: ts =>
    some (⟨col, .number (-(digitsValue n))⟩, ts)
  | ⟨.id, col⟩ :: ⟨.eq, _⟩ :: ⟨.id, w⟩ :: ts => some (⟨col, .name w⟩, ts)
  | _ => none

/-- Conditions joined by `or`, at most `n` of them. -/
def readConds : Nat → List Token → Option (List Cond)
  | 0, _ => none
  | n + 1, ts =>
    match readCond ts with
    | some (c, []) => some [c]
    | some (c, ⟨.keyword "OR", _⟩ :: ts) => (readConds n ts).map (c :: ·)
    | _ => none

/-- Every identifier of the condition is a column. -/
def Cond.resolves (c : Cond) : Bool :=
  isColumn c.column &&
    match c.value with
    | .number _ => true
    | .name w => isColumn w

/-- `jid=n` on a row. -/
def Cond.selects (c : Cond) (r : Row) : Bool :=
  match c.value with
  | .number n => (r.jid : Int) == n
  | .name _ => false

/-- A condition on the key. -/
def Cond.onKey (c : Cond) : Bool :=
  c.column == "jid".toList &&
    match c.value with
    | .number _ => true
    | .name _ => false

/-- The rows that meet one of the conditions, when these are on the key.  A name is looked up when the
    statement is compiled, whatever rows there are. -/
def selectWhere (cs : List Cond) (db : Jobs) : Option (Except String (List Row)) :=
  if cs.any (!·.resolves) then some (.error "no such column")
  else if cs.all (·.onKey) then some (.ok (db.rows.filter fun r => cs.any (·.selects r)))
  else none

/-- The conditions of `select * from jobs where …`, when they are such. -/
def readSelect : List Token → Option (List Cond)
  | ⟨.keyword "SELECT", _⟩ :: ⟨.star, _⟩ :: ⟨.keyword "FROM", _⟩ :: ⟨.id, table⟩ ::
      ⟨.keyword "WHERE", _⟩ :: ts =>
    if table = "jobs".toList then readConds ts.length ts else none
  | _ => none

/-- SQLite on a `select` with such conditions. -/
def selectRows : OtherSelect → Text → Jobs → Except String (List Row) :=
  selectWith readSelect selectWhere

/-! ## `list` -/

/-- An argument of `JobQueue#list`. -/
inductive Arg
  | number (n : Int)
  | text (s : String)
deriving DecidableEq, Repr

/-- `Integer#to_s`. -/
def numeral : Int → Text
  | .ofNat n => (toString n).toList
  | .negSucc n => '-' :: (toString (n + 1)).toList

/-- The arguments after their defaults and the `case`. -/
def listArgs (whats : List Arg) : List Arg :=
  (if whats.isEmpty || whats.contains (.text "all") then
    ["pending", "running", "finished", "dead"].map Arg.text
  else whats).map fun
    | .number n => .number n
    | .text s => .text (String.ofList (listWhat s.toList))

/-- One of the `where_clauses`. -/
def Arg.clause : Arg → Text
  | .number n => "jid=".toList ++ (numeral n ++ ['\n'])
  | .text s => listColumn s.toList ++ '=' :: (interpolate (some s.toList) ++ ['\n'])

/-- The text of `list`. -/
def listSql (whats : List Arg) : Text :=
  "          select * from jobs\n          where ".toList ++
    (joinOr ((listArgs whats).map Arg.clause) ++ " \n".toList)

/-- `JobQueue#list`. -/
def list (other : OtherSelect) (whats : List Arg) (db : Jobs) : Except String (List Row) :=
  selectRows other (listSql whats) db

/-! ## The tokens of `list` -/

/-- The value of a clause as a token, or two. -/
def Arg.tokens : Arg → List Token
  | .number (.ofNat n) => [⟨.id, "jid".toList⟩, ⟨.eq, ['=']⟩, ⟨.integer, (toString n).toList⟩]
  | .number (.negSucc n) =>
    [⟨.id, "jid".toList⟩, ⟨.eq, ['=']⟩, ⟨.minus, ['-']⟩, ⟨.integer, (toString (n + 1)).toList⟩]
  | .text s => [⟨.id, listColumn s.toList⟩, ⟨.eq, ['=']⟩, ⟨.id, interpolate (some s.toList)⟩]

/-- The condition it comes to. -/
def Arg.cond : Arg → Cond
  | .number n => ⟨"jid".toList, .number n⟩
  | .text s => ⟨listColumn s.toList, .name (interpolate (some s.toList))⟩

/-- The argument has no bracket in it. -/
def Arg.Plain : Arg → Prop
  | .number _ => True
  | .text s => ']' ∉ s.toList

/-- Digits do not start with an equals sign. -/
theorem head_digits {w : Text} (hw : allDigits w = true) (rest : Text) :
    (w ++ rest).head? ≠ some '=' := by
  obtain ⟨hne, hall⟩ := Bool.and_eq_true_iff.mp hw
  obtain ⟨c, w, rfl⟩ := List.exists_cons_of_ne_nil (by simpa using hne : w ≠ [])
  intro h
  have hc : c = '=' := by simpa using h
  have hdigit := List.all_eq_true.mp hall c List.mem_cons_self
  rw [hc] at hdigit
  exact absurd hdigit (by decide)

/-- **The tokens of a clause**, which ends with its line. -/
theorem lex_clause {a : Arg} (ha : a.Plain) (rest : Text) :
    lex (a.clause ++ rest) = a.tokens ++ lex (rest.dropWhile isSpace) := by
  have hjid : ∀ s : Text, s.head? ≠ some '=' →
      lex ("jid=".toList ++ s) = ⟨.id, "jid".toList⟩ :: ⟨.eq, ['=']⟩ :: lex s := by
    intro s hs
    show lex ('j' :: ("id".toList ++ '=' :: s)) = _
    rw [lex_word rfl rfl (endsWord_cons rfl _), lex_eq hs, keywordCode_jid]
    rfl
  cases a with
  | number n =>
    cases n with
    | ofNat n =>
      have hdigits := allDigits_toString n
      have htext : (Arg.number (.ofNat n)).clause ++ rest
          = "jid=".toList ++ ((toString n).toList ++ '\n' :: rest) := by
        simp [Arg.clause, numeral]
      rw [htext, hjid _ (head_digits hdigits _), lex_digits hdigits]
      rfl
    | negSucc n =>
      have hdigits := allDigits_toString (n + 1)
      have htext : (Arg.number (.negSucc n)).clause ++ rest
          = "jid=".toList ++ '-' :: ((toString (n + 1)).toList ++ '\n' :: rest) := by
        simp [Arg.clause, numeral]
      have hminus : lex ('-' :: ((toString (n + 1)).toList ++ '\n' :: rest))
          = ⟨.minus, ['-']⟩ :: lex ((toString (n + 1)).toList ++ '\n' :: rest) := by
        refine lex_of_getToken ?_ rfl
        unfold getToken
        rw [if_neg (by decide), if_pos rfl]
        split
        · rename_i t ht
          -- a second dash would start a comment
          have hdash : '-' ∈ (toString (n + 1)).toList := by
            obtain ⟨hne, -⟩ := Bool.and_eq_true_iff.mp hdigits
            have hne' : (toString (n + 1)).toList ≠ [] := by
              intro hnil
              rw [hnil] at hne
              cases hne
            obtain ⟨d, ds, hd⟩ := List.exists_cons_of_ne_nil hne'
            rw [hd, List.cons_append] at ht
            rw [hd, (List.cons.inj ht).1]
            exact List.mem_cons_self
          have hdigit := List.all_eq_true.mp (Bool.and_eq_true_iff.mp hdigits).2 _ hdash
          exact absurd hdigit (by decide)
        · rfl
      rw [htext, hjid _ (by simp), hminus, lex_digits hdigits]
      rfl
  | text s =>
    have hcolumn : ∀ t : Text, t.head? ≠ some '=' → lex (listColumn s.toList ++ '=' :: t)
        = ⟨.id, listColumn s.toList⟩ :: ⟨.eq, ['=']⟩ :: lex t := by
      intro t ht
      unfold listColumn
      split
      · exact hjid t ht
      · show lex ('s' :: ("tate".toList ++ '=' :: t)) = _
        rw [lex_word rfl (by decide) (endsWord_cons rfl _), lex_eq ht, keywordCode_state]
        rfl
    have htext : (Arg.text s).clause ++ rest = listColumn s.toList ++ '=' ::
        ('[' :: (inspect (q (some s.toList)) ++ ']' :: '\n' :: rest)) := by
      simp [Arg.clause, interpolate]
    have hbracket : ']' ∉ inspect (q (some s.toList)) :=
      (interpolate_spec (some s.toList)).2 fun t ht => by
        obtain rfl := Option.some.inj ht
        exact ha
    rw [htext, hcolumn _ (by simp), lex_bracket hbracket, lex_space (.inr rfl)]
    rfl

/-- The tokens of the clauses. -/
def orTokens : List Arg → List Token
  | [] => []
  | [a] => a.tokens
  | a :: as => a.tokens ++ ⟨.keyword "OR", "or".toList⟩ :: orTokens as

/-- A clause starts with a letter. -/
theorem dropWhile_clause (a : Arg) (rest : Text) :
    (a.clause ++ rest).dropWhile isSpace = a.clause ++ rest := by
  cases a with
  | number n => rfl
  | text s =>
    unfold Arg.clause listColumn
    dsimp only
    split <;> rfl

theorem lex_joinOr : ∀ {as : List Arg}, as ≠ [] → (∀ a ∈ as, a.Plain) →
    lex (joinOr (as.map Arg.clause) ++ " \n".toList) = orTokens as
  | [], h, _ => absurd rfl h
  | [a], _, ha => by
    show lex (a.clause ++ " \n".toList) = a.tokens
    rw [lex_clause (ha a List.mem_cons_self)]
    exact List.append_nil _
  | a :: b :: as, _, ha => by
    have ih := @lex_joinOr (b :: as) (by simp) fun c hc => ha c (List.mem_cons_of_mem _ hc)
    have hjoin : joinOr ((a :: b :: as).map Arg.clause) ++ " \n".toList
        = a.clause ++ (' ' :: 'o' :: (['r'] ++ ' ' :: '\n' ::
          (joinOr ((b :: as).map Arg.clause) ++ " \n".toList))) := by
      simp [joinOr]
    rw [hjoin, lex_clause (ha a List.mem_cons_self)]
    show a.tokens ++ lex ('o' :: ("r".toList ++ ' ' :: '\n' :: _)) = _
    rw [lex_word_space rfl rfl, keywordCode_or]
    show a.tokens ++ _ ::
      lex ((joinOr ((b :: as).map Arg.clause) ++ " \n".toList).dropWhile isSpace) = _
    obtain ⟨s, hs⟩ := joinOr_cons b.clause (as.map Arg.clause)
    rw [List.map_cons, hs, List.append_assoc, dropWhile_clause, ← List.append_assoc, ← hs,
      ← List.map_cons, ih]
    rfl

theorem readCond_tokens (a : Arg) (ts : List Token) :
    readCond (a.tokens ++ ts) = some (a.cond, ts) := by
  cases a with
  | number n =>
    cases n with
    | ofNat n =>
      have hvalue := digitsValue_toString n
      show some (Cond.mk "jid".toList (.number (digitsValue (toString n).toList)), ts) = _
      rw [hvalue]
      rfl
    | negSucc n =>
      have hvalue := digitsValue_toString (n + 1)
      show some (Cond.mk "jid".toList (.number (-(digitsValue (toString (n + 1)).toList))), ts) = _
      rw [hvalue]
      rfl
  | text s => rfl

/-- **The conditions are read back clause by clause.** -/
theorem readConds_orTokens : ∀ {as : List Arg} {n : Nat}, as ≠ [] → as.length ≤ n →
    readConds n (orTokens as) = some (as.map Arg.cond)
  | [], _, h, _ => absurd rfl h
  | _ :: _, 0, _, h => by simp at h
  | [a], n + 1, _, _ => by
    have hread := readCond_tokens a []
    rw [List.append_nil] at hread
    show readConds (n + 1) a.tokens = _
    rw [readConds, hread]
    rfl
  | a :: b :: as, n + 1, _, h => by
    have ih := @readConds_orTokens (b :: as) n (by simp) (by simpa using h)
    show readConds (n + 1) (a.tokens ++ ⟨.keyword "OR", "or".toList⟩ :: orTokens (b :: as)) = _
    rw [readConds, readCond_tokens]
    show (readConds n (orTokens (b :: as))).map (a.cond :: ·) = _
    rw [ih]
    rfl

theorem length_orTokens : ∀ as : List Arg, as.length ≤ (orTokens as).length
  | [] => Nat.le_refl 0
  | [a] => by
    show 1 ≤ a.tokens.length
    unfold Arg.tokens
    split <;> simp
  | a :: b :: as => by
    have ih := length_orTokens (b :: as)
    show _ ≤ (a.tokens ++ ⟨.keyword "OR", "or".toList⟩ :: orTokens (b :: as)).length
    rw [List.length_cons] at ih
    simp only [List.length_append, List.length_cons]
    omega

/-- The words before the conditions. -/
theorem lex_select (rest : Text) :
    lex ("          select * from jobs\n          where ".toList ++ rest) =
      [⟨.keyword "SELECT", "select".toList⟩, ⟨.star, ['*']⟩, ⟨.keyword "FROM", "from".toList⟩,
        ⟨.id, "jobs".toList⟩, ⟨.keyword "WHERE", "where".toList⟩] ++
        lex (rest.dropWhile isSpace) := by
  show lex (' ' :: _) = _
  rw [lex_space (.inl rfl)]
  show lex ('s' :: ("elect".toList ++ ' ' :: ("* from jobs\n          where ".toList ++ rest))) = _
  rw [lex_word_space rfl rfl, keywordCode_select]
  show _ :: lex ('*' :: ' ' :: ("from jobs\n          where ".toList ++ rest)) = _
  rw [lex_star, lex_space (.inl rfl)]
  show _ :: _ :: lex ('f' :: ("rom".toList ++ ' ' :: ("jobs\n          where ".toList ++ rest))) = _
  rw [lex_word_space rfl rfl, keywordCode_from]
  show _ :: _ :: _ :: lex ('j' :: ("obs".toList ++ '\n' :: ("          where ".toList ++ rest))) = _
  rw [lex_word rfl rfl (endsWord_cons rfl _), lex_space (.inr rfl), keywordCode_jobs]
  show _ :: _ :: _ :: _ :: lex ('w' :: ("here".toList ++ ' ' :: rest)) = _
  rw [lex_word_space rfl rfl, keywordCode_where]
  rfl

/-- A numeral has no NUL in it, nor has any clause. -/
theorem nul_not_mem_clause (a : Arg) : '\x00' ∉ a.clause := by
  have hdigits : ∀ n : Nat, '\x00' ∉ (toString n).toList := not_mem_toString (by decide)
  cases a with
  | number n =>
    cases n with
    | ofNat n => simpa [Arg.clause, numeral] using hdigits n
    | negSucc n => simpa [Arg.clause, numeral] using hdigits (n + 1)
  | text s =>
    have hvalue := (interpolate_spec (some s.toList)).1
    have hcolumn := nul_not_mem_listColumn s.toList
    simp [Arg.clause, hvalue, hcolumn]

theorem nul_not_mem_joinOr : ∀ as : List Arg, '\x00' ∉ joinOr (as.map Arg.clause)
  | [] => List.not_mem_nil
  | [a] => nul_not_mem_clause a
  | a :: b :: as => by
    have ih := nul_not_mem_joinOr (b :: as)
    have hjoin : joinOr ((a :: b :: as).map Arg.clause)
        = a.clause ++ (" or \n".toList ++ joinOr ((b :: as).map Arg.clause)) := rfl
    rw [hjoin, List.mem_append, List.mem_append]
    rintro (h | h | h)
    · exact nul_not_mem_clause a h
    · exact absurd h (by decide)
    · exact ih h

theorem listArgs_ne_nil (whats : List Arg) : listArgs whats ≠ [] := by
  unfold listArgs
  split
  · simp
  · rename_i h
    intro h'
    rw [List.map_eq_nil_iff] at h'
    simp [h'] at h

/-- The argument is a number. -/
def Arg.isNumber : Arg → Bool
  | .number _ => true
  | .text _ => false

/-- **What becomes of `list`**, the arguments having no brackets in them: the rows with the jids
    asked for when all of them are numbers, and otherwise an error. -/
theorem list_eq (other : OtherSelect) {whats : List Arg} (h : ∀ a ∈ listArgs whats, a.Plain)
    (db : Jobs) :
    list other whats db =
      if (listArgs whats).all Arg.isNumber then
        .ok (db.rows.filter fun r => (listArgs whats).any fun a => a.cond.selects r)
      else .error "no such column" := by
  have hne := listArgs_ne_nil whats
  have htext : cString (listSql whats) = listSql whats := by
    refine cString_eq ?_
    unfold listSql
    rw [List.mem_append, List.mem_append]
    rintro (hmem | hmem | hmem)
    · exact absurd hmem (by decide)
    · exact nul_not_mem_joinOr _ hmem
    · exact absurd hmem (by decide)
  have hdrop : (joinOr ((listArgs whats).map Arg.clause) ++ " \n".toList).dropWhile isSpace
      = joinOr ((listArgs whats).map Arg.clause) ++ " \n".toList := by
    obtain ⟨a, as, has⟩ := List.exists_cons_of_ne_nil hne
    obtain ⟨s, hs⟩ := joinOr_cons a.clause (as.map Arg.clause)
    rw [has, List.map_cons, hs, List.append_assoc, dropWhile_clause]
  have hlex : lex (listSql whats) =
      [⟨.keyword "SELECT", "select".toList⟩, ⟨.star, ['*']⟩, ⟨.keyword "FROM", "from".toList⟩,
        ⟨.id, "jobs".toList⟩, ⟨.keyword "WHERE", "where".toList⟩] ++ orTokens (listArgs whats) := by
    unfold listSql
    rw [lex_select, hdrop, lex_joinOr hne h]
  have hread : readSelect (lex (listSql whats)) = some ((listArgs whats).map Arg.cond) := by
    rw [hlex]
    show readConds (orTokens (listArgs whats)).length (orTokens (listArgs whats)) = _
    exact readConds_orTokens hne (length_orTokens _)
  unfold list selectRows selectWith
  rw [htext, hread, Option.bind_some]
  unfold selectWhere
  rw [List.any_map, List.all_map]
  -- a number resolves and is on the key, a text does not resolve
  have hresolves : ∀ a : Arg, (!a.cond.resolves) = !a.isNumber := by
    intro a
    cases a with
    | number n => rfl
    | text s =>
      have hname : isColumn (interpolate (some s.toList)) = false := isColumn_interpolate _
      simp [Arg.cond, Cond.resolves, Arg.isNumber, hname]
  have honKey : ∀ a : Arg, a.cond.onKey = a.isNumber := by
    intro a
    cases a with
    | number n => rfl
    | text s => simp [Arg.cond, Cond.onKey, Arg.isNumber]
  by_cases hall : (listArgs whats).all Arg.isNumber = true
  · rw [if_pos hall, if_neg, if_pos]
    · simp only [List.any_map, Function.comp_def]
    · simpa [Function.comp_def, honKey] using hall
    · simpa [Function.comp_def, hresolves] using hall
  · rw [if_neg hall, if_pos]
    simpa [Function.comp_def, hresolves] using hall

/-! ## What was asked -/

/-- The argument is one `list` documents: a number, a word, or its abbreviation. -/
def IsListArg : Arg → Prop
  | .number _ => True
  | .text s => allDigits s.toList = true ∨
      s ∈ ["all", "a"] ++ stateWords ++ ["p", "h", "r", "f", "d"]

/-- The argument means the row. -/
def Arg.means (r : Row) : Arg → Bool
  | .number n => (r.jid : Int) == n
  | .text s => (allDigits s.toList && r.jid == digitsValue s.toList) || s == "all" || s == "a" ||
      stateWords.any fun w => (s == w || s.toList == w.toList.take 1) && r.state == some w

/-- `list` returns the rows that were asked for, all of them when none was named. -/
def ListsWhatWasAsked (whats : List Arg) (db : Jobs) (result : Except String (List Row)) : Prop :=
  result = .ok (db.rows.filter fun r => whats.isEmpty || whats.any (Arg.means r))

/-- No documented argument has a bracket in it, after the `case` as before. -/
theorem plain_listArgs {whats : List Arg} (h : ∀ a ∈ whats, IsListArg a) :
    ∀ a ∈ listArgs whats, a.Plain := by
  have hword : ∀ s ∈ ["all", "a"] ++ stateWords ++ ["p", "h", "r", "f", "d"],
      ']' ∉ listWhat s.toList := by decide
  have hdigits : ∀ s : String, allDigits s.toList = true → ']' ∉ listWhat s.toList := by
    intro s hs hmem
    unfold listWhat at hmem
    split at hmem
    · exact absurd hmem (by decide)
    split at hmem
    · exact absurd hmem (by decide)
    split at hmem
    · exact absurd hmem (by decide)
    split at hmem
    · exact absurd hmem (by decide)
    split at hmem
    · exact absurd hmem (by decide)
    · have hdigit := List.all_eq_true.mp (Bool.and_eq_true_iff.mp hs).2 _ hmem
      exact absurd hdigit (by decide)
  intro a ha
  unfold listArgs at ha
  obtain ⟨b, hb, rfl⟩ := List.mem_map.mp ha
  have hb' : IsListArg b := by
    split at hb
    · obtain ⟨w, hw, rfl⟩ := List.mem_map.mp hb
      have hin : ∀ w ∈ ["pending", "running", "finished", "dead"],
          w ∈ ["all", "a"] ++ stateWords ++ ["p", "h", "r", "f", "d"] := by decide
      exact Or.inr (hin w hw)
    · exact h b hb
  cases b with
  | number n => trivial
  | text s =>
    show ']' ∉ (String.ofList (listWhat s.toList)).toList
    rw [String.toList_ofList]
    rcases hb' with hs | hs
    · exact hdigits s hs
    · exact hword s hs

/-- Numbers stay as they are. -/
theorem listArgs_numbers {whats : List Arg} (hne : whats ≠ [])
    (h : ∀ a ∈ whats, a.isNumber = true) : listArgs whats = whats := by
  have hall : (whats.isEmpty || whats.contains (.text "all")) = false := by
    rw [Bool.or_eq_false_iff]
    refine ⟨by simpa using hne, ?_⟩
    rw [← Bool.not_eq_true, List.contains_iff_mem]
    intro hmem
    cases h _ hmem
  unfold listArgs
  rw [hall, if_neg (by decide)]
  refine (List.map_congr_left fun a ha => ?_).trans (List.map_id _)
  have hnumber := h a ha
  cases a with
  | number n => rfl
  | text s => cases hnumber

/-- After the defaults and the `case` there are numbers only when there were before. -/
theorem all_isNumber_listArgs {whats : List Arg} : (listArgs whats).all Arg.isNumber = true ↔
    whats ≠ [] ∧ ∀ a ∈ whats, a.isNumber = true := by
  constructor
  · intro hall
    unfold listArgs at hall
    by_cases hdefault : (whats.isEmpty || whats.contains (.text "all")) = true
    · -- the default arguments are words
      rw [hdefault, if_pos rfl] at hall
      cases hall
    · rw [if_neg hdefault, List.all_map, List.all_eq_true] at hall
      refine ⟨?_, fun a ha => ?_⟩
      · rintro rfl
        exact hdefault rfl
      · have hnumber := hall a ha
        cases a with
        | number n => rfl
        | text s => cases hnumber
  · rintro ⟨hne, hall⟩
    rw [listArgs_numbers hne hall, List.all_eq_true]
    exact hall

/-- A number selects the row it means. -/
theorem any_selects_eq_means {whats : List Arg} (h : ∀ a ∈ whats, a.isNumber = true) (r : Row) :
    (whats.any fun a => a.cond.selects r) = whats.any (Arg.means r) := by
  rw [Bool.eq_iff_iff, List.any_eq_true, List.any_eq_true]
  refine exists_congr fun a => and_congr_right fun ha => ?_
  have hnumber := h a ha
  cases a with
  | number n => rfl
  | text s => cases hnumber

/-- Asked for numbers only, `list` returns the rows they mean. -/
theorem list_of_numbers (other : OtherSelect) {whats : List Arg} (h : ∀ a ∈ whats, IsListArg a)
    (hne : whats ≠ []) (hnumbers : ∀ a ∈ whats, a.isNumber = true) (db : Jobs) :
    list other whats db = .ok (db.rows.filter fun r => whats.any (Arg.means r)) := by
  rw [list_eq other (plain_listArgs h), if_pos (all_isNumber_listArgs.mpr ⟨hne, hnumbers⟩),
    listArgs_numbers hne hnumbers]
  exact congrArg Except.ok (List.filter_congr fun r _ => any_selects_eq_means hnumbers r)

/-- And when it returns, it was asked for numbers only. -/
theorem numbers_of_list (other : OtherSelect) {whats : List Arg} (h : ∀ a ∈ whats, IsListArg a)
    {db : Jobs} {rows : List Row} (hlist : list other whats db = .ok rows) :
    whats ≠ [] ∧ ∀ a ∈ whats, a.isNumber = true := by
  rw [list_eq other (plain_listArgs h)] at hlist
  split at hlist
  · rename_i hall
    exact all_isNumber_listArgs.mp hall
  · cases hlist

/-- **When `list` returns what is asked**, under Ruby 1.9: when it is asked for numbers only. -/
theorem list_exact_iff (other : OtherSelect) (whats : List Arg) (h : ∀ a ∈ whats, IsListArg a)
    (db : Jobs) :
    ListsWhatWasAsked whats db (list other whats db) ↔
      whats ≠ [] ∧ ∀ a ∈ whats, a.isNumber = true := by
  constructor
  · exact fun hlist => numbers_of_list other h hlist
  · rintro ⟨hne, hnumbers⟩
    have hempty : whats.isEmpty = false := by simpa using hne
    unfold ListsWhatWasAsked
    rw [list_of_numbers other h hne hnumbers, hempty]
    simp only [Bool.false_or]

/-- The job of one number, and a number no job can have. -/
theorem list_numbers :
    ListsWhatWasAsked [.number 2, .number (-3)] runningAndPending
      (list (fun _ _ => .error "SQL error") [.number 2, .number (-3)] runningAndPending) := by
  refine (list_exact_iff _ _ ?_ _).mpr ⟨by simp, by decide⟩
  intro a ha
  rcases List.mem_cons.mp ha with rfl | ha
  · trivial
  · rw [List.mem_singleton.mp ha]
    trivial

/-- `rq q list pending` raises. -/
theorem list_pending_raises :
    IsListArg (.text "pending") ∧
    list (fun _ _ => .error "SQL error") [.text "pending"] runningAndPending = .error "no such column" ∧
    ¬ ListsWhatWasAsked [.text "pending"] runningAndPending
      (list (fun _ _ => .error "SQL error") [.text "pending"] runningAndPending) := by
  have hasked : ∀ a ∈ [Arg.text "pending"], IsListArg a := by
    intro a ha
    rw [List.mem_singleton.mp ha]
    exact Or.inr (by decide)
  have hraise : list (fun _ _ => .error "SQL error") [.text "pending"] runningAndPending
      = .error "no such column" := by
    rw [list_eq _ (plain_listArgs hasked)]
    rfl
  refine ⟨Or.inr (by decide), hraise, ?_⟩
  rw [hraise]
  intro h
  cases h

end RubyQueue.Interpolate
