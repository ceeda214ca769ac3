/-
  How SQLite 2.8 cuts a text into tokens and statements (`ext/sqlite-2.8.17/src/tokenize.c`).

  `sqliteGetToken` decides one token from the text in front of it; `tokenize` repeats it.  The
  parser sees no blanks and comments, and `sqlite_exec` compiles and runs one statement after the
  other: a statement ends at a semicolon, except in a trigger, which ends at `;END;` (the states
  of `sqlite_complete`).

  The facts used afterwards: a text that starts with a token that cannot run on into the rest
  tokenises as that token and the rest (`lex_word`, `lex_literal`, `lex_q`, …), and a statement ends
  at the first semicolon among the tokens (`split_normal`).
-/
import Mathlib.Data.List.TakeWhile
import RubyQueue.Quote

namespace RubyQueue.Sqlite

open RubyQueue.Quote

/-! ## `sqliteGetToken` -/

/-- The token types, those of the keywords by their names. -/
inductive Kind
  | space | comment | minus | lp | rp | semi | plus | star | slash | rem | eq | le | ne | lshift
  | lt | ge | rshift | gt | illegal | bitor | concat | comma | bitand | bitnot | string | dot
  | integer | float | id | variable
  | keyword (name : String)
deriving DecidableEq, Repr

/-- A token: its type and its text. -/
structure Token where
  kind : Kind
  text : Text
deriving DecidableEq, Repr

/-- `aKeywordTable`. -/
def keywords : List String :=
  ["ABORT", "AFTER", "ALL", "AND", "AS", "ASC", "ATTACH", "BEFORE", "BEGIN", "BETWEEN", "BY",
   "CASCADE", "CASE", "CHECK", "CLUSTER", "COLLATE", "COMMIT", "CONFLICT", "CONSTRAINT", "COPY",
   "CREATE", "CROSS", "DATABASE", "DEFAULT", "DEFERRED", "DEFERRABLE", "DELETE", "DELIMITERS",
   "DESC", "DETACH", "DISTINCT", "DROP", "END", "EACH", "ELSE", "EXCEPT", "EXPLAIN", "FAIL", "FOR",
   "FOREIGN", "FROM", "FULL", "GLOB", "GROUP", "HAVING", "IGNORE", "IMMEDIATE", "IN", "INDEX",
   "INITIALLY", "INNER", "INSERT", "INSTEAD", "INTERSECT", "INTO", "IS", "ISNULL", "JOIN", "KEY",
   "LEFT", "LIKE", "LIMIT", "MATCH", "NATURAL", "NOT", "NOTNULL", "NULL", "OF", "OFFSET", "ON",
   "OR", "ORDER", "OUTER", "PRAGMA", "PRIMARY", "RAISE", "REFERENCES", "REPLACE", "RESTRICT",
   "RIGHT", "ROLLBACK", "ROW", "SELECT", "SET", "STATEMENT", "TABLE", "TEMP", "TEMPORARY", "THEN",
   "TRANSACTION", "TRIGGER", "UNION", "UNIQUE", "UPDATE", "USING", "VACUUM", "VALUES", "VIEW",
   "WHEN", "WHERE"]

/-- `sqliteKeywordCode`: letters match in either case. -/
def keywordCode (w : Text) : Kind :=
  match keywords.find? fun k => k.toList == w.map Char.toUpper with
  | some k => .keyword k
  | none => .id

/-- `isIdChar`; every character beyond ASCII may stand in a name. -/
def isIdChar (c : Char) : Bool := c.isAlphanum || c == '_' || decide (128 ≤ c.toNat)

/-- `isspace`. -/
def isSpace (c : Char) : Bool := [' ', '\t', '\n', '\x0b', '\x0c', '\r'].contains c

/-- The rest of a quoted token: up to a delimiter that is not followed by another one. -/
def stringScan (delim : Char) : Text → Text × Text
  | [] => ([], [])
  | c :: s =>
    if c = delim then
      match s with
      | [] => ([c], [])
      | d :: t =>
        if d = delim then (c :: d :: (stringScan delim t).1, (stringScan delim t).2) else ([c], s)
    else (c :: (stringScan delim s).1, (stringScan delim s).2)

/-- `sqliteDequote` after the delimiter: a pair of them is one, a single one ends the text. -/
def unquote (delim : Char) : Text → Text
  | [] => []
  | c :: s =>
    if c = delim then
      match s with
      | [] => []
      | d :: t => if d = delim then c :: unquote delim t else []
    else c :: unquote delim s

/-- `sqliteDequote`: what the text of a token stands for. -/
def sqliteDequote : Text → Text
  | '\'' :: s => unquote '\'' s
  | '"' :: s => unquote '"' s
  | '[' :: s => unquote ']' s
  | s => s

theorem unquote_cons {delim c : Char} (hc : c ≠ delim) (s : Text) :
    unquote delim (c :: s) = c :: unquote delim s := by
  rw [unquote.eq_def]
  simp only [if_neg hc]

theorem unquote_pair (delim : Char) (s : Text) :
    unquote delim (delim :: delim :: s) = delim :: unquote delim s := by
  rw [unquote.eq_def]
  simp only [if_true]

/-- The rest of a `/*` comment after the character `p`. -/
def commentScan (p : Char) : Text → Text × Text
  | [] => ([], [])
  | c :: s =>
    if c = '/' ∧ p = '*' then ([c], s) else (c :: (commentScan c s).1, (commentScan c s).2)

/-- The exponent of a number, when there is one. -/
def exponentScan (k : Kind) : Text → Kind × Text × Text
  | e :: d :: s =>
    if (e = 'e' ∨ e = 'E') ∧ d.isDigit then
      (.float, e :: d :: s.takeWhile Char.isDigit, s.dropWhile Char.isDigit)
    else if (e = 'e' ∨ e = 'E') ∧ (d = '+' ∨ d = '-') ∧ (s.head?.any Char.isDigit) then
      (.float, e :: d :: s.takeWhile Char.isDigit, s.dropWhile Char.isDigit)
    else (k, [], e :: d :: s)
  | s => (k, [], s)

/-- The rest of a number after its first run of digits: fraction and exponent. -/
def fractionScan (s : Text) : Kind × Text × Text :=
  match s with
  | '.' :: d :: t =>
    if d.isDigit then
      let (k, w, r) := exponentScan .float (t.dropWhile Char.isDigit)
      (k, '.' :: d :: (t.takeWhile Char.isDigit ++ w), r)
    else (.integer, [], s)
  | _ => exponentScan .integer s

/-- The token of one character. -/
def single (c : Char) : Option Kind :=
  match c with
  | '(' => some .lp
  | ')' => some .rp
  | ';' => some .semi
  | '+' => some .plus
  | '*' => some .star
  | '%' => some .rem
  | ',' => some .comma
  | '&' => some .bitand
  | '~' => some .bitnot
  | '.' => some .dot
  | '?' => some .variable
  | _ => none

/-- The operators that one more character may belong to. -/
def operators : List (Char × Kind × List (Char × Kind)) :=
  [('=', .eq, [('=', .eq)]),
   ('<', .lt, [('=', .le), ('>', .ne), ('<', .lshift)]),
   ('>', .gt, [('=', .ge), ('>', .rshift)]),
   ('|', .bitor, [('|', .concat)])]

/-- An operator of one or two characters. -/
def operator (c : Char) (s : Text) : Option (Token × Text) :=
  match operators.lookup c with
  | none => none
  | some (k, seconds) =>
    match s with
    | [] => some (⟨k, [c]⟩, [])
    | d :: t =>
      match seconds.lookup d with
      | some k => some (⟨k, [c, d]⟩, t)
      | none => some (⟨k, [c]⟩, s)

/-- `sqliteGetToken` on the text `c :: s`: the token, and the text after it. -/
def getToken (c : Char) (s : Text) : Token × Text :=
  if c = ' ' ∨ c = '\t' ∨ c = '\n' ∨ c = '\x0c' ∨ c = '\r' then
    (⟨.space, c :: s.takeWhile isSpace⟩, s.dropWhile isSpace)
  else if c = '-' then
    match s with
    | '-' :: s =>
      (⟨.comment, '-' :: '-' :: s.takeWhile (· != '\n')⟩, s.dropWhile (· != '\n'))
    | s => (⟨.minus, [c]⟩, s)
  else if c = '/' then
    match s with
    | '*' :: p :: t =>
      (⟨.comment, '/' :: '*' :: p :: (commentScan p t).1⟩, (commentScan p t).2)
    | s => (⟨.slash, [c]⟩, s)
  else if c = '\'' ∨ c = '"' then
    (⟨.string, c :: (stringScan c s).1⟩, (stringScan c s).2)
  else if c.isDigit then
    let (k, w, r) := fractionScan (s.dropWhile Char.isDigit)
    (⟨k, c :: (s.takeWhile Char.isDigit ++ w)⟩, r)
  else if c = '[' then
    (⟨.id, c :: (s.takeWhile (· != ']') ++ (s.dropWhile (· != ']')).take 1)⟩,
      (s.dropWhile (· != ']')).drop 1)
  else if c = '!' then
    (⟨if s.head? = some '=' then .ne else .illegal, c :: s.take 1⟩, s.drop 1)
  else
    match single c with
    | some k => (⟨k, [c]⟩, s)
    | none =>
      match operator c s with
      | some r => r
      | none =>
        if isIdChar c then
          (⟨keywordCode (c :: s.takeWhile isIdChar), c :: s.takeWhile isIdChar⟩,
            s.dropWhile isIdChar)
        else (⟨.illegal, [c]⟩, s)

/-- At most `n` tokens. -/
def tokenizeN : Nat → Text → List Token
  | 0, _ => []
  | _ + 1, [] => []
  | n + 1, c :: s => (getToken c s).1 :: tokenizeN n (getToken c s).2

/-- The tokens of a text. -/
def tokenize (s : Text) : List Token := tokenizeN s.length s

/-- Whether the parser sees the token. -/
def Token.seen (t : Token) : Bool := t.kind != .space && t.kind != .comment

/-- The tokens the parser sees. -/
def lex (s : Text) : List Token := (tokenize s).filter Token.seen

/-! ## A token is a beginning of the text -/

theorem stringScan_append (delim : Char) (s : Text) :
    (stringScan delim s).1 ++ (stringScan delim s).2 = s := by
  fun_induction stringScan delim s with
  | case1 => rfl
  | case2 => rfl
  | case3 t ih => simp [ih]
  | case4 d t hd => rfl
  | case5 c s hc ih => simp [ih]

theorem commentScan_append (p : Char) (s : Text) :
    (commentScan p s).1 ++ (commentScan p s).2 = s := by
  fun_induction commentScan p s with
  | case1 => rfl
  | case2 => rfl
  | case3 p c s hc ih => simp [ih]

theorem exponentScan_append (k : Kind) (s : Text) :
    (exponentScan k s).2.1 ++ (exponentScan k s).2.2 = s := by
  fun_cases exponentScan k s with
  | case1 e d s h => simp
  | case2 e d s h h' => simp
  | case3 e d s h h' => rfl
  | case4 s h => rfl

theorem fractionScan_append (s : Text) : (fractionScan s).2.1 ++ (fractionScan s).2.2 = s := by
  unfold fractionScan
  split
  · rename_i d t
    split
    · have h := exponentScan_append .float (t.dropWhile Char.isDigit)
      simp [h]
    · rfl
  · exact exponentScan_append .integer s

/-- **A token is not empty, and it is the beginning of the text.** -/
theorem getToken_spec (c : Char) (s : Text) :
    ∃ w, (getToken c s).1.text = c :: w ∧ w ++ (getToken c s).2 = s := by
  unfold getToken
  split
  · exact ⟨_, rfl, List.takeWhile_append_dropWhile⟩
  split
  · rename_i hc
    subst hc
    split
    · exact ⟨_, rfl, by simp⟩
    · exact ⟨[], rfl, rfl⟩
  split
  · rename_i hc
    subst hc
    split
    · rename_i p t
      exact ⟨'*' :: p :: (commentScan p t).1, rfl, by simp [commentScan_append]⟩
    · exact ⟨[], rfl, rfl⟩
  split
  · exact ⟨_, rfl, stringScan_append c s⟩
  split
  · refine ⟨_, rfl, ?_⟩
    have h := fractionScan_append (s.dropWhile Char.isDigit)
    rw [List.append_assoc, h]
    exact List.takeWhile_append_dropWhile
  split
  · exact ⟨_, rfl, by rw [List.append_assoc, List.take_append_drop]; simp⟩
  split
  · exact ⟨_, rfl, List.take_append_drop 1 s⟩
  split
  · exact ⟨[], rfl, rfl⟩
  split
  · rename_i r hr
    unfold operator at hr
    split at hr
    · cases hr
    split at hr
    · cases hr
      exact ⟨[], rfl, rfl⟩
    · split at hr
      · cases hr
        exact ⟨[_], rfl, rfl⟩
      · cases hr
        exact ⟨[], rfl, rfl⟩
  split
  · exact ⟨_, rfl, List.takeWhile_append_dropWhile⟩
  · exact ⟨[], rfl, rfl⟩

theorem getToken_length (c : Char) (s : Text) : (getToken c s).2.length ≤ s.length := by
  obtain ⟨w, -, h⟩ := getToken_spec c s
  have hlen := congrArg List.length h
  rw [List.length_append] at hlen
  omega

/-- A count that covers the text is as good as any other. -/
theorem tokenizeN_eq : ∀ {n m : Nat} {s : Text}, s.length ≤ n → s.length ≤ m →
    tokenizeN n s = tokenizeN m s
  | 0, 0, _, _, _ => rfl
  | 0, m + 1, s, hn, _ => by
    obtain rfl : s = [] := List.eq_nil_of_length_eq_zero (Nat.le_zero.mp hn)
    rfl
  | n + 1, 0, s, _, hm => by
    obtain rfl : s = [] := List.eq_nil_of_length_eq_zero (Nat.le_zero.mp hm)
    rfl
  | n + 1, m + 1, [], _, _ => rfl
  | n + 1, m + 1, c :: s, hn, hm => by
    have hlen := getToken_length c s
    rw [List.length_cons] at hn hm
    have ih : tokenizeN n (getToken c s).2 = tokenizeN m (getToken c s).2 :=
      tokenizeN_eq (by omega) (by omega)
    rw [tokenizeN, tokenizeN, ih]

theorem tokenize_cons (c : Char) (s : Text) :
    tokenize (c :: s) = (getToken c s).1 :: tokenize (getToken c s).2 := by
  show tokenizeN (s.length + 1) (c :: s) = _
  rw [tokenizeN, tokenizeN_eq (getToken_length c s) (Nat.le_refl _)]
  rfl

/-! ## Where a semicolon token comes from -/

theorem exponentScan_kind (k : Kind) (s : Text) :
    (exponentScan k s).1 = k ∨ (exponentScan k s).1 = .float := by
  fun_cases exponentScan k s with
  | case1 => exact .inr rfl
  | case2 => exact .inr rfl
  | case3 => exact .inl rfl
  | case4 => exact .inl rfl

theorem fractionScan_kind (s : Text) :
    (fractionScan s).1 = .integer ∨ (fractionScan s).1 = .float := by
  unfold fractionScan
  split
  · split
    · rcases exponentScan_kind .float ((_ : Text).dropWhile Char.isDigit) with h | h
      · exact .inr h
      · exact .inr h
    · exact .inl rfl
  · exact exponentScan_kind .integer s

theorem mem_of_lookup {α β : Type} [BEq α] [LawfulBEq α] {l : List (α × β)} {a : α} {b : β}
    (h : l.lookup a = some b) : (a, b) ∈ l := by
  obtain ⟨l₁, l₂, hl, -⟩ := List.lookup_eq_some_iff.mp h
  rw [hl]
  simp

theorem operator_kind {c : Char} {s : Text} {r : Token × Text} (h : operator c s = some r) :
    r.1.kind ≠ .semi := by
  have hall : operators.all (fun o => o.2.1 != .semi && o.2.2.all (·.2 != .semi)) = true := rfl
  unfold operator at h
  split at h
  · cases h
  · rename_i k seconds hk
    have hop := List.all_eq_true.mp hall _ (mem_of_lookup hk)
    simp only [Bool.and_eq_true, bne_iff_ne, ne_eq, List.all_eq_true] at hop
    split at h
    · cases h
      exact hop.1
    · split at h
      · rename_i hk'
        cases h
        exact hop.2 _ (mem_of_lookup hk')
      · cases h
        exact hop.1

theorem eq_of_single_semi {c : Char} (h : single c = some .semi) : c = ';' := by
  unfold single at h
  split at h <;> first | rfl | cases h

/-- A semicolon token is a semicolon of the text. -/
theorem eq_of_getToken_semi {c : Char} {s : Text} (h : (getToken c s).1.kind = .semi) :
    c = ';' := by
  unfold getToken at h
  split at h
  · cases h
  split at h
  · split at h <;> cases h
  split at h
  · split at h <;> cases h
  split at h
  · cases h
  split at h
  · have hk : (fractionScan (s.dropWhile Char.isDigit)).1 = .semi := h
    rcases fractionScan_kind (s.dropWhile Char.isDigit) with h' | h' <;> rw [h'] at hk <;> cases hk
  split at h
  · cases h
  split at h
  · dsimp only at h
    split at h <;> cases h
  split at h
  · rename_i k hk
    exact eq_of_single_semi (hk.trans (congrArg some h))
  split at h
  · rename_i r hr
    exact absurd h (operator_kind hr)
  split at h
  · dsimp only [keywordCode] at h
    split at h <;> cases h
  · cases h

/-- The induction is on the count, with the rest of the text after a token a part of the text. -/
theorem semi_not_mem_tokenizeN : ∀ (n : Nat) {s : Text}, ';' ∉ s →
    ∀ t ∈ tokenizeN n s, t.kind ≠ .semi
  | 0, _, _, _, ht => nomatch ht
  | _ + 1, [], _, _, ht => nomatch ht
  | n + 1, c :: s, hs, t, ht => by
    obtain ⟨w, -, hw⟩ := getToken_spec c s
    rw [List.mem_cons, not_or] at hs
    rw [tokenizeN, List.mem_cons] at ht
    rcases ht with rfl | ht
    · intro hk
      exact hs.1 (eq_of_getToken_semi hk).symm
    · have hrest : ';' ∉ (getToken c s).2 := by
        intro hmem
        apply hs.2
        rw [← hw]
        exact List.mem_append_right _ hmem
      exact semi_not_mem_tokenizeN n hrest t ht

/-- **A text without a semicolon has no semicolon token.** -/
theorem semi_not_mem_lex {s : Text} (hs : ';' ∉ s) : ∀ t ∈ lex s, t.kind ≠ .semi := by
  intro t ht
  exact semi_not_mem_tokenizeN s.length hs t (List.mem_filter.mp ht).1

/-! ## Lexing piece by piece -/

/-- A token the parser sees. -/
theorem lex_of_getToken {c : Char} {s rest : Text} {t : Token} (h : getToken c s = (t, rest))
    (ht : t.seen = true) : lex (c :: s) = t :: lex rest := by
  unfold lex
  rw [tokenize_cons, h]
  exact List.filter_cons_of_pos ht

/-- Blanks disappear. -/
theorem lex_space {c : Char} (hc : c = ' ' ∨ c = '\n') (s : Text) :
    lex (c :: s) = lex (s.dropWhile isSpace) := by
  have h : getToken c s = (⟨.space, c :: s.takeWhile isSpace⟩, s.dropWhile isSpace) := by
    unfold getToken
    rw [if_pos (by tauto)]
  unfold lex
  rw [tokenize_cons, h]
  exact List.filter_cons_of_neg Bool.false_ne_true

theorem lex_lp (s : Text) : lex ('(' :: s) = ⟨.lp, ['(']⟩ :: lex s :=
  lex_of_getToken rfl rfl

theorem lex_rp (s : Text) : lex (')' :: s) = ⟨.rp, [')']⟩ :: lex s :=
  lex_of_getToken rfl rfl

theorem lex_comma (s : Text) : lex (',' :: s) = ⟨.comma, [',']⟩ :: lex s :=
  lex_of_getToken rfl rfl

theorem lex_semi (s : Text) : lex (';' :: s) = ⟨.semi, [';']⟩ :: lex s :=
  lex_of_getToken rfl rfl

theorem lex_star (s : Text) : lex ('*' :: s) = ⟨.star, ['*']⟩ :: lex s :=
  lex_of_getToken rfl rfl

/-- An equals sign before anything but another one. -/
theorem lex_eq {s : Text} (hs : s.head? ≠ some '=') : lex ('=' :: s) = ⟨.eq, ['=']⟩ :: lex s := by
  refine lex_of_getToken ?_ rfl
  match s, hs with
  | [], _ => rfl
  | d :: s, hs =>
    have hd : (d == '=') = false := beq_false_of_ne fun h => hs (congrArg some h)
    have hop : operator '=' (d :: s) = some (⟨.eq, ['=']⟩, d :: s) := by
      simp [operator, operators, List.lookup_cons, hd]
    show (match operator '=' (d :: s) with | some r => r | none => _) = _
    rw [hop]

/-- The text cannot go on a word. -/
def EndsWord (rest : Text) : Prop := ∀ d ∈ rest.head?, isIdChar d = false

theorem endsWord_cons {c : Char} (hc : isIdChar c = false) (rest : Text) : EndsWord (c :: rest) := by
  intro d hd
  obtain rfl : c = d := by simpa using hd
  exact hc

theorem takeWhile_word {w rest : Text} (hw : ∀ d ∈ w, isIdChar d = true) (hr : EndsWord rest) :
    (w ++ rest).takeWhile isIdChar = w := by
  rw [List.takeWhile_append_of_pos hw]
  match rest, hr with
  | [], _ => simp
  | d :: rest, hr =>
    rw [List.takeWhile_cons_of_neg (by simp [hr d rfl]), List.append_nil]

theorem dropWhile_word {w rest : Text} (hw : ∀ d ∈ w, isIdChar d = true) (hr : EndsWord rest) :
    (w ++ rest).dropWhile isIdChar = rest := by
  rw [List.dropWhile_append_of_pos hw]
  match rest, hr with
  | [], _ => rfl
  | d :: rest, hr => exact List.dropWhile_cons_of_neg (by simp [hr d rfl])

theorem not_isDigit_of_isAlpha {c : Char} (hc : c.isAlpha = true) : ¬ c.isDigit = true := by
  intro hd
  have hc' : (decide (65 ≤ c.val ∧ c.val ≤ 90) ||
      (decide (97 ≤ c.val) && decide (c.val ≤ 122))) = true := hc
  have hd' : (decide (48 ≤ c.val) && decide (c.val ≤ 57)) = true := hd
  simp only [Bool.or_eq_true, Bool.and_eq_true, decide_eq_true_eq, UInt32.le_iff_toNat_le,
    UInt32.reduceToNat] at hc' hd'
  omega

/-- A letter starts a word: none of the other cases of `sqliteGetToken` applies. -/
theorem getToken_letter {c : Char} (hc : c.isAlpha = true) (s : Text) :
    getToken c s = (⟨keywordCode (c :: s.takeWhile isIdChar), c :: s.takeWhile isIdChar⟩,
      s.dropWhile isIdChar) := by
  have hne : ∀ d : Char, d.isAlpha = false → c ≠ d := by
    rintro d hd rfl
    rw [hc] at hd
    cases hd
  have hsingle : single c = none := by
    unfold single
    split <;> first | rfl | exact absurd rfl (hne _ (by decide))
  have hop : operator c s = none := by
    have hb : ∀ d : Char, d.isAlpha = false → (c == d) = false :=
      fun d hd => beq_false_of_ne (hne d hd)
    have h : operators.lookup c = none := by
      simp [operators, List.lookup_cons, hb]
    unfold operator
    rw [h]
  have hid : isIdChar c = true := by
    simp [isIdChar, Char.isAlphanum, hc]
  unfold getToken
  rw [if_neg (by simp [hne]), if_neg (hne _ (by decide)), if_neg (hne _ (by decide)),
    if_neg (by simp [hne]), if_neg ?digit, if_neg (hne _ (by decide)), if_neg (hne _ (by decide)),
    hsingle, hop]
  · rw [if_pos hid]
  case digit =>
    intro hd
    exact absurd hd (not_isDigit_of_isAlpha hc)

theorem keywordCode_seen (w : Text) : (Token.mk (keywordCode w) w).seen = true := by
  unfold keywordCode
  split <;> rfl

theorem keywordCode_ne_semi (w : Text) : (Token.mk (keywordCode w) w).kind ≠ .semi := by
  unfold keywordCode
  split <;> simp

/-- **A word, with a text after it that cannot go on it.** -/
theorem lex_word {c : Char} {w rest : Text} (hc : c.isAlpha = true)
    (hw : w.all isIdChar = true) (hr : EndsWord rest) :
    lex (c :: (w ++ rest)) = ⟨keywordCode (c :: w), c :: w⟩ :: lex rest := by
  have hw' := List.all_eq_true.mp hw
  have h := getToken_letter hc (w ++ rest)
  rw [takeWhile_word hw' hr, dropWhile_word hw' hr] at h
  exact lex_of_getToken h (keywordCode_seen _)

/-- A word and the blanks after it. -/
theorem lex_word_space {c : Char} {w : Text} (hc : c.isAlpha = true)
    (hw : w.all isIdChar = true) (rest : Text) :
    lex (c :: (w ++ ' ' :: rest)) =
      ⟨keywordCode (c :: w), c :: w⟩ :: lex (rest.dropWhile isSpace) := by
  rw [lex_word hc hw (endsWord_cons rfl rest), lex_space (.inl rfl)]

/-! ### Words of the statements -/

/-- A keyword in small letters. -/
theorem keywordCode_lower {k : String} (hk : k ∈ keywords) :
    keywordCode (k.toList.map Char.toLower) = .keyword k := by
  have hupper : ∀ k ∈ keywords, (k.toList.map Char.toLower).map Char.toUpper = k.toList := by
    decide +kernel
  unfold keywordCode
  rw [hupper k hk]
  cases hfind : keywords.find? fun k' => k'.toList == k.toList with
  | none => exact absurd (beq_self_eq_true _) (List.find?_eq_none.mp hfind k hk)
  | some k' =>
    have hsame : k'.toList = k.toList := by simpa using List.find?_some hfind
    rw [String.toList_injective hsame]

/-- The names in the statements are no keywords. -/
theorem keywordCode_name : ∀ w ∈ ["jobs", "count", "jid", "state", "exit_status"],
    keywordCode w.toList = .id := by
  decide +kernel

theorem keywordCode_select : keywordCode ('s' :: "elect".toList) = .keyword "SELECT" :=
  keywordCode_lower (k := "SELECT") (by decide)

theorem keywordCode_from : keywordCode ('f' :: "rom".toList) = .keyword "FROM" :=
  keywordCode_lower (k := "FROM") (by decide)

theorem keywordCode_where : keywordCode ('w' :: "here".toList) = .keyword "WHERE" :=
  keywordCode_lower (k := "WHERE") (by decide)

theorem keywordCode_and : keywordCode ('a' :: "nd".toList) = .keyword "AND" :=
  keywordCode_lower (k := "AND") (by decide)

theorem keywordCode_or : keywordCode ('o' :: "r".toList) = .keyword "OR" :=
  keywordCode_lower (k := "OR") (by decide)

theorem keywordCode_not : keywordCode ('n' :: "ot".toList) = .keyword "NOT" :=
  keywordCode_lower (k := "NOT") (by decide)

theorem keywordCode_like : keywordCode ('l' :: "ike".toList) = .keyword "LIKE" :=
  keywordCode_lower (k := "LIKE") (by decide)

theorem keywordCode_insert : keywordCode ('i' :: "nsert".toList) = .keyword "INSERT" :=
  keywordCode_lower (k := "INSERT") (by decide)

theorem keywordCode_into : keywordCode ('i' :: "nto".toList) = .keyword "INTO" :=
  keywordCode_lower (k := "INTO") (by decide)

theorem keywordCode_values : keywordCode ('v' :: "alues".toList) = .keyword "VALUES" :=
  keywordCode_lower (k := "VALUES") (by decide)

theorem keywordCode_jobs : keywordCode ('j' :: "obs".toList) = .id :=
  keywordCode_name "jobs" (by decide)

theorem keywordCode_count : keywordCode ('c' :: "ount".toList) = .id :=
  keywordCode_name "count" (by decide)

theorem keywordCode_jid : keywordCode ('j' :: "id".toList) = .id :=
  keywordCode_name "jid" (by decide)

theorem keywordCode_state : keywordCode ('s' :: "tate".toList) = .id :=
  keywordCode_name "state" (by decide)

theorem keywordCode_exit_status : keywordCode ('e' :: "xit_status".toList) = .id :=
  keywordCode_name "exit_status" (by decide)

/-- The scan of a quoted token and the reading of a literal end at the same place. -/
theorem stringScan_of_readLiteral (s : Text) : ∀ {v r : Text}, readLiteral s = some (v, r) →
    (stringScan '\'' s).2 = r := by
  fun_induction stringScan '\'' s with
  | case1 =>
    intro v r h
    cases h
  | case2 =>
    intro v r h
    cases h
    rfl
  | case3 t ih =>
    intro v r h
    rw [readLiteral, Option.map_eq_some_iff] at h
    obtain ⟨⟨v', r'⟩, hr, hv⟩ := h
    cases hv
    exact ih hr
  | case4 d t hd =>
    intro v r h
    rw [readLiteral_close (by simpa using hd)] at h
    cases h
    rfl
  | case5 c s hc ih =>
    intro v r h
    rw [readLiteral_cons hc, Option.map_eq_some_iff] at h
    obtain ⟨⟨v', r'⟩, hr, hv⟩ := h
    cases hv
    exact ih hr

/-- **A literal is one token.** -/
theorem lex_literal {s rest v : Text} (h : readLiteral (s ++ rest) = some (v, rest)) :
    lex ('\'' :: (s ++ rest)) = ⟨.string, '\'' :: s⟩ :: lex rest := by
  have h2 := stringScan_of_readLiteral _ h
  have h1 := stringScan_append '\'' (s ++ rest)
  rw [h2] at h1
  have htok : getToken '\'' (s ++ rest) = (⟨.string, '\'' :: s⟩, rest) := by
    show (Token.mk .string ('\'' :: (stringScan '\'' (s ++ rest)).1),
      (stringScan '\'' (s ++ rest)).2) = _
    rw [h2, List.append_cancel_right h1]
  exact lex_of_getToken htok rfl

/-- The token of a value `QDB.q` has written. -/
def valueToken (f : Option Text) : Token :=
  match f with
  | some (_ :: _) => ⟨.string, q f⟩
  | _ => ⟨.keyword "NULL", q f⟩

/-- **A value `QDB.q` has written is one token**, a literal or `NULL`, before any text that neither
    goes on a word nor starts with a quote. -/
theorem lex_q (f : Option Text) {rest : Text} (hw : EndsWord rest)
    (hq : rest.head? ≠ some '\'') : lex (q f ++ rest) = valueToken f :: lex rest := by
  have hnull : lex (['N', 'U', 'L', 'L'] ++ rest) = ⟨.keyword "NULL", ['N', 'U', 'L', 'L']⟩ :: lex rest :=
    @lex_word 'N' ['U', 'L', 'L'] rest rfl rfl hw
  match f with
  | none => exact hnull
  | some [] => exact hnull
  | some (c :: s) =>
    have h := readLiteral_escape (c :: s) rest hq
    have hlit := @lex_literal (escape (c :: s) '\'' '\'' ++ ['\'']) rest (halve (c :: s))
      (by rw [List.append_assoc]; exact h)
    exact hlit

/-! ## Statements -/

/-- The states of `sqlite_complete`. -/
inductive Phase
  | start | explain | create | normal | trigger | semi | ended
deriving DecidableEq, Repr

/-- The transitions of `sqlite_complete`. -/
def Phase.next (p : Phase) (k : Kind) : Phase :=
  match p with
  | .start =>
    if k = .semi then .start
    else if k = .keyword "EXPLAIN" then .explain
    else if k = .keyword "CREATE" then .create
    else .normal
  | .explain =>
    if k = .semi then .start else if k = .keyword "CREATE" then .create else .normal
  | .create =>
    if k = .semi then .start
    else if k = .keyword "TEMP" ∨ k = .keyword "TEMPORARY" then .create
    else if k = .keyword "TRIGGER" then .trigger
    else .normal
  | .normal => if k = .semi then .start else .normal
  | .trigger => if k = .semi then .semi else .trigger
  | .semi => if k = .semi then .semi else if k = .keyword "END" then .ended else .trigger
  | .ended => if k = .semi then .start else .trigger

/-- The statements of a list of tokens; `cur` is the one being read. -/
def split : Phase → List Token → List Token → List (List Token)
  | _, cur, [] => if cur.isEmpty then [] else [cur]
  | p, cur, t :: ts =>
    if p.next t.kind = .start then
      (if cur.isEmpty then [] else [cur]) ++ split .start [] ts
    else split (p.next t.kind) (cur ++ [t]) ts

/-- What C sees of a text: the characters before the first NUL. -/
def cString (s : Text) : Text := s.takeWhile (· != '\x00')

/-- The statements `sqlite_exec` finds in a text. -/
def statements (sql : Text) : List (List Token) := split .start [] (lex (cString sql))

theorem cString_append {a : Text} (ha : '\x00' ∉ a) (b : Text) :
    cString (a ++ b) = a ++ cString b := by
  refine List.takeWhile_append_of_pos ?_
  intro c hc
  have : c ≠ '\x00' := fun h' => ha (h' ▸ hc)
  simpa using this

theorem cString_eq {s : Text} (h : '\x00' ∉ s) : cString s = s := by
  refine List.takeWhile_eq_self_iff.mpr ?_
  intro c hc
  have : c ≠ '\x00' := fun h' => h (h' ▸ hc)
  simpa using this

/-- A statement that creates nothing is read on to its semicolon. -/
theorem split_start {t : Token} (ht : Phase.start.next t.kind = .normal) (ts : List Token) :
    split .start [] (t :: ts) = split .normal [t] ts := by
  rw [split, ht]
  rfl

/-- **A statement ends at the first semicolon among the tokens.**  The induction is on the tokens,
    with what has been read of the statement growing. -/
theorem split_normal : ∀ {cur : List Token} (ts : List Token), cur ≠ [] →
    split .normal cur ts = (cur ++ ts.takeWhile (·.kind != .semi)) ::
      split .start [] ((ts.dropWhile (·.kind != .semi)).drop 1)
  | [], _, h => absurd rfl h
  | c :: cur, [], _ => by simp [split]
  | c :: cur, t :: ts, _ => by
    rw [split]
    by_cases ht : t.kind = .semi
    · have hn : Phase.normal.next t.kind = .start := by simp [Phase.next, ht]
      rw [if_pos hn]
      simp [ht]
    · have hn : Phase.normal.next t.kind = .normal := by simp [Phase.next, ht]
      have ih := @split_normal (c :: cur ++ [t]) ts (by simp)
      rw [hn, if_neg (by decide), ih]
      simp [ht]

/-- A first statement with no semicolon among its tokens, and the text after it. -/
theorem split_statement {t : Token} {ts rest : List Token} (ht : Phase.start.next t.kind = .normal)
    (hts : ∀ u ∈ ts, u.kind ≠ .semi) (hrest : ∀ u ∈ rest.head?, u.kind = .semi) :
    split .start [] (t :: (ts ++ rest)) = (t :: ts) :: split .start [] (rest.drop 1) := by
  have hall : ∀ u ∈ ts, (u.kind != .semi) = true := fun u hu => by simpa using hts u hu
  rw [split_start ht, split_normal _ (by simp), List.takeWhile_append_of_pos hall,
    List.dropWhile_append_of_pos hall]
  match rest, hrest with
  | [], _ => simp
  | u :: rest, hrest => simp [hrest u rfl]

end RubyQueue.Sqlite
