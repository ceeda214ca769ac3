/-
  Where clauses: comparisons of columns with literals, joined by `and`, `or` and parentheses.

  `readExpr` reads such a clause from the tokens SQLite's tokenizer cuts (`parse.y`: `or` binds
  weaker than `and`, and both weaker than a comparison); `Expr.holds` is what it says of a row.  NULL
  makes every comparison fail, `not like` included, and nothing here negates a comparison, so that
  SQL's third truth value can be taken for false.

  * `readWhere`, `readCount` — the two statements this code makes of a clause;
  * `readExpr_paren`, `readExpr_and_cons` and the like — how a clause is read piece by piece;
  * `readExpr_first`         — the first comparison of a clause is the one its tokens start with;
  * `unquote_scan_cases`     — what a literal comes to when the value between its quotes has quotes.
-/
import RubyQueue.Listing
import RubyQueue.Tokenize

namespace RubyQueue.Where

open RubyQueue.Sqlite RubyQueue.Quote RubyQueue.JobQueue
open RubyQueue.Listing (fieldNames)

/-! ## Clauses -/

/-- The comparisons. -/
inductive Rel
  | eq | ne | like | notLike
deriving DecidableEq, Repr

/-- A literal: the text between quotes, or a numeral with or without a minus. -/
inductive Literal
  | string (v : Text)
  | number (negative : Bool) (numeral : Text)
deriving DecidableEq, Repr

/-- A clause. -/
inductive Expr
  | compare (column : Text) (rel : Rel) (value : Literal)
  | and (a b : Expr)
  | or (a b : Expr)
deriving DecidableEq, Repr

/-- The text of a value; SQLite 2.8 keeps numbers as texts. -/
def Literal.text : Literal → String
  | .string v => String.ofList v
  | .number false numeral => String.ofList numeral
  | .number true numeral => String.ofList ('-' :: numeral)

/-- `column not like 'pattern'`. -/
def notLike (col : Option String) (pattern : String) : Bool :=
  match col with
  | none => false
  | some s => !likeMatch pattern.toList s.toList

/-- A comparison of the value of a column. -/
def Rel.test : Rel → Option String → String → Bool
  | .eq => eqLit
  | .ne => neLit
  | .like => Sqlite.like
  | .notLike => Where.notLike

/-- The field a name stands for.  SQLite does not tell the letters of a name by their case, and has
    three names of its own for the key (`sqliteIsRowid`). -/
def fieldOf (column : Text) : Option String :=
  let name := String.ofList (column.map Char.toLower)
  if fieldNames.contains name then some name
  else if ["_rowid_", "rowid", "oid"].contains name then some "jid"
  else none

/-- The value of a field, by its name. -/
def fieldValue (r : Row) (f : String) : Option String :=
  if f = "jid" then some (toString r.jid) else (Column.ofName f).bind r.get

/-- What a clause says of a row. -/
def Expr.holds (r : Row) : Expr → Bool
  | .compare column rel value => (fieldOf column).any fun f => rel.test (fieldValue r f) value.text
  | .and a b => a.holds r && b.holds r
  | .or a b => a.holds r || b.holds r

/-- Every name is one of a field. -/
def Expr.resolves : Expr → Bool
  | .compare column _ _ => (fieldOf column).isSome
  | .and a b => a.resolves && b.resolves
  | .or a b => a.resolves && b.resolves

/-- The comparison a clause starts with. -/
def Expr.first : Expr → Expr
  | .compare column rel value => .compare column rel value
  | .and a _ => a.first
  | .or a _ => a.first

/-! ## Reading -/

def readRel : List Token → Option (Rel × List Token)
  | ⟨.eq, _⟩ :: ts => some (.eq, ts)
  | ⟨.ne, _⟩ :: ts => some (.ne, ts)
  | ⟨.keyword "LIKE", _⟩ :: ts => some (.like, ts)
  | ⟨.keyword "NOT", _⟩ :: ⟨.keyword "LIKE", _⟩ :: ts => some (.notLike, ts)
  | _ => none

def readNumeral (negative : Bool) : List Token → Option (Literal × List Token)
  | ⟨.integer, n⟩ :: ts => some (.number negative n, ts)
  | ⟨.float, n⟩ :: ts => some (.number negative n, ts)
  | _ => none

/-- A literal.  A text in double quotes may be a name and is not read. -/
def readLiteral : List Token → Option (Literal × List Token)
  | ⟨.string, '\'' :: s⟩ :: ts => some (.string (sqliteDequote ('\'' :: s)), ts)
  | ⟨.minus, _⟩ :: ts => readNumeral true ts
  | ⟨.plus, _⟩ :: ts => readNumeral false ts
  | ts => readNumeral false ts

/-- A comparison.  A name in brackets is not read. -/
def readCompare : List Token → Option (Expr × List Token)
  | ⟨.id, column⟩ :: ts =>
    if column.head? = some '[' then none
    else do
      let (rel, ts) ← readRel ts
      let (value, ts) ← readLiteral ts
      some (.compare column rel value, ts)
  | _ => none

/-- The levels of the grammar. -/
inductive Level
  | or | and | atom

/-- The tokens after one of the type asked for. -/
def after (k : Kind) : List Token → Option (List Token)
  | t :: ts => if t.kind = k then some ts else none
  | [] => none

def readExpr : Nat → Level → List Token → Option (Expr × List Token)
  | 0, _, _ => none
  | n + 1, .or, ts => do
    let (a, ts) ← readExpr n .and ts
    match after (.keyword "OR") ts with
    | some ts => do
      let (b, ts) ← readExpr n .or ts
      some (.or a b, ts)
    | none => some (a, ts)
  | n + 1, .and, ts => do
    let (a, ts) ← readExpr n .atom ts
    match after (.keyword "AND") ts with
    | some ts => do
      let (b, ts) ← readExpr n .and ts
      some (.and a b, ts)
    | none => some (a, ts)
  | n + 1, .atom, ts =>
    match after .lp ts with
    | some ts => do
      let (a, ts) ← readExpr n .or ts
      let ts ← after .rp ts
      some (a, ts)
    | none => readCompare ts

/-- Fuel for the three levels at each token. -/
def fuel (ts : List Token) : Nat := 3 * ts.length + 3

/-- The statement is at its end. -/
def ended (ts : List Token) : Bool := ts.isEmpty || ts.map Token.kind == [.semi]

/-- The clause of `select * from jobs where …;`. -/
def readWhere : List Token → Option Expr
  | ⟨.keyword "SELECT", _⟩ :: ⟨.star, _⟩ :: ⟨.keyword "FROM", _⟩ :: ⟨.id, table⟩ ::
      ⟨.keyword "WHERE", _⟩ :: ts =>
    if table = "jobs".toList then do
      let (e, ts) ← readExpr (fuel ts) .or ts
      if ended ts then some e else none
    else none
  | _ => none

/-- The clause of `select count(*) from jobs where …`. -/
def readCount : List Token → Option Expr
  | ⟨.keyword "SELECT", s⟩ :: ⟨.id, count⟩ :: ⟨.lp, _⟩ :: ⟨.star, t⟩ :: ⟨.rp, _⟩ :: ts =>
    if count = "count".toList then readWhere (⟨.keyword "SELECT", s⟩ :: ⟨.star, t⟩ :: ts) else none
  | _ => none

/-- SQLite on a `select` the model does not read. -/
abbrev OtherSelect := Text → Jobs → Except String (List Row)

/-- SQLite on a `select`: where `read` finds conditions, and `answer` knows what they come to, that;
    and anything else otherwise. -/
def selectWith {κ : Type} (read : List Token → Option κ)
    (answer : κ → Jobs → Option (Except String (List Row))) (other : OtherSelect) (sql : Text)
    (db : Jobs) : Except String (List Row) :=
  match (read (lex (cString sql))).bind fun k => answer k db with
  | some rows => rows
  | none => other sql db

/-- The rows a clause holds of.  Names are looked up when the statement is compiled. -/
def Expr.select (e : Expr) (db : Jobs) : Except String (List Row) :=
  if e.resolves then .ok (db.rows.filter e.holds) else .error "no such column"

/-- SQLite on a `select` with a clause. -/
def selectRows : OtherSelect → Text → Jobs → Except String (List Row) :=
  selectWith readWhere fun e db => some (e.select db)

/-! ## Reading piece by piece -/

section
variable {n : Nat} {ts us : List Token} {a b : Expr}

@[simp] theorem after_self (k : Kind) (t : Text) (ts : List Token) :
    after k (⟨k, t⟩ :: ts) = some ts := if_pos rfl

theorem after_ne {k : Kind} {t : Token} (h : t.kind ≠ k) (ts : List Token) :
    after k (t :: ts) = none := if_neg h

theorem readCompare_id {column : Text} {rel : Rel} (hcolumn : column.head? ≠ some '[')
    (hrel : readRel ts = some (rel, us)) : readCompare (⟨.id, column⟩ :: ts)
      = (readLiteral us).map fun p => (.compare column rel p.1, p.2) := by
  rw [readCompare, if_neg hcolumn, hrel]
  show (readLiteral us).bind _ = _
  cases readLiteral us <;> rfl

/-- A comparison starts with a name. -/
theorem after_lp_of_compare (h : readCompare ts = some (a, us)) : after .lp ts = none := by
  unfold readCompare at h
  split at h
  · rfl
  · cases h

theorem readExpr_compare (h : readCompare ts = some (a, us)) :
    readExpr (n + 1) .atom ts = some (a, us) := by
  rw [readExpr, after_lp_of_compare h]
  exact h

/-- The last of the clauses joined by `and`. -/
theorem readExpr_and_last (h : readExpr n .atom ts = some (a, us))
    (hu : after (.keyword "AND") us = none) : readExpr (n + 1) .and ts = some (a, us) := by
  rw [readExpr, h]
  simp [hu]

theorem readExpr_or_last (h : readExpr n .and ts = some (a, us))
    (hu : after (.keyword "OR") us = none) : readExpr (n + 1) .or ts = some (a, us) := by
  rw [readExpr, h]
  simp [hu]

/-- One more of them. -/
theorem readExpr_and_cons {t : Text} (h : readExpr n .atom ts = some (a, ⟨.keyword "AND", t⟩ :: us)) :
    readExpr (n + 1) .and ts = (readExpr n .and us).map fun p => (.and a p.1, p.2) := by
  rw [readExpr, h]
  simp only [Option.bind_eq_bind, Option.bind_some, after_self]
  cases readExpr n .and us <;> rfl

theorem readExpr_or_cons {t : Text} (h : readExpr n .and ts = some (a, ⟨.keyword "OR", t⟩ :: us)) :
    readExpr (n + 1) .or ts = (readExpr n .or us).map fun p => (.or a p.1, p.2) := by
  rw [readExpr, h]
  simp only [Option.bind_eq_bind, Option.bind_some, after_self]
  cases readExpr n .or us <;> rfl

/-- A clause in parentheses. -/
theorem readExpr_group {t u : Text} (h : readExpr n .or ts = some (a, ⟨.rp, u⟩ :: us)) :
    readExpr (n + 1) .atom (⟨.lp, t⟩ :: ts) = some (a, us) := by
  rw [readExpr, after_self]
  simp [h]

/-- A comparison in parentheses. -/
theorem readExpr_paren {t u : Text} (h : readCompare ts = some (a, ⟨.rp, u⟩ :: us)) :
    readExpr (n + 4) .atom (⟨.lp, t⟩ :: ts) = some (a, us) :=
  readExpr_group (readExpr_or_last
    (readExpr_and_last (readExpr_compare h) (after_ne (by simp) us)) (after_ne (by simp) us))

theorem readCompare_first {e : Expr} (h : readCompare ts = some (e, us)) : e.first = e := by
  unfold readCompare at h
  split at h
  · split at h
    · cases h
    obtain ⟨⟨rel, vs⟩, -, h⟩ := Option.bind_eq_some_iff.mp h
    obtain ⟨⟨value, ws⟩, -, h⟩ := Option.bind_eq_some_iff.mp h
    obtain ⟨rfl, -⟩ := Prod.mk.inj (Option.some.inj h)
    rfl
  · cases h

/-- **The first comparison of a clause** is the one read behind its parentheses. -/
theorem readExpr_first : ∀ {n : Nat} {l : Level} {ts us : List Token} {e : Expr},
    readExpr n l ts = some (e, us) →
    ∃ vs, readCompare (ts.dropWhile fun t => t.kind == .lp) = some (e.first, vs)
  | 0, _, _, _, _, h => by cases h
  | n + 1, .or, ts, us, e, h => by
    rw [readExpr] at h
    obtain ⟨⟨a, vs⟩, ha, h⟩ := Option.bind_eq_some_iff.mp h
    have ih := readExpr_first ha
    dsimp only at h
    split at h
    · obtain ⟨⟨b, ws⟩, -, h⟩ := Option.bind_eq_some_iff.mp h
      obtain ⟨rfl, -⟩ := Prod.mk.inj (Option.some.inj h)
      exact ih
    · obtain ⟨rfl, -⟩ := Prod.mk.inj (Option.some.inj h)
      exact ih
  | n + 1, .and, ts, us, e, h => by
    rw [readExpr] at h
    obtain ⟨⟨a, vs⟩, ha, h⟩ := Option.bind_eq_some_iff.mp h
    have ih := readExpr_first ha
    dsimp only at h
    split at h
    · obtain ⟨⟨b, ws⟩, -, h⟩ := Option.bind_eq_some_iff.mp h
      obtain ⟨rfl, -⟩ := Prod.mk.inj (Option.some.inj h)
      exact ih
    · obtain ⟨rfl, -⟩ := Prod.mk.inj (Option.some.inj h)
      exact ih
  | n + 1, .atom, [], us, e, h => by
    rw [readExpr] at h
    cases h
  | n + 1, .atom, t :: ts, us, e, h => by
    rw [readExpr] at h
    by_cases hlp : t.kind = .lp
    · rw [after, if_pos hlp] at h
      obtain ⟨⟨a, vs⟩, ha, h⟩ := Option.bind_eq_some_iff.mp h
      obtain ⟨ws, -, h⟩ := Option.bind_eq_some_iff.mp h
      obtain ⟨rfl, -⟩ := Prod.mk.inj (Option.some.inj h)
      rw [List.dropWhile_cons_of_pos (by simpa using hlp)]
      exact readExpr_first ha
    · rw [after, if_neg hlp] at h
      rw [List.dropWhile_cons_of_neg (by simpa using hlp)]
      have h : readCompare (t :: ts) = some (e, us) := h
      rw [readCompare_first h]
      exact ⟨us, h⟩

/-- A literal takes a token at least. -/
theorem readLiteral_length {v : Literal} (h : Where.readLiteral ts = some (v, us)) :
    us.length < ts.length := by
  have hnumeral : ∀ {negative ts}, readNumeral negative ts = some (v, us) →
      us.length < ts.length := by
    intro negative ts h
    unfold readNumeral at h
    split at h
    · obtain ⟨-, rfl⟩ := Prod.mk.inj (Option.some.inj h)
      exact Nat.lt_succ_self _
    · obtain ⟨-, rfl⟩ := Prod.mk.inj (Option.some.inj h)
      exact Nat.lt_succ_self _
    · cases h
  unfold Where.readLiteral at h
  split at h
  · obtain ⟨-, rfl⟩ := Prod.mk.inj (Option.some.inj h)
    exact Nat.lt_succ_self _
  · exact Nat.lt_succ_of_lt (hnumeral h)
  · exact Nat.lt_succ_of_lt (hnumeral h)
  · exact hnumeral h

end

/-! ## Literals -/

/-- A text without quotes stands for itself. -/
theorem unquote_plain : ∀ {v : Text}, '\'' ∉ v → unquote '\'' (v ++ ['\'']) = v
  | [], _ => rfl
  | c :: v, h => by
    have hc : c ≠ '\'' := fun hc => h (hc ▸ List.mem_cons_self)
    rw [List.cons_append, unquote_cons hc, unquote_plain fun hv => h (List.mem_cons_of_mem c hv)]

/-- A literal without quotes in it. -/
theorem lex_plain {v rest : Text} (hv : '\'' ∉ v) (hr : rest.head? ≠ some '\'') :
    lex ('\'' :: (v ++ '\'' :: rest)) = ⟨.string, '\'' :: (v ++ ['\''])⟩ :: lex rest := by
  have hread := readLiteral_pairQuotes v rest hr
  have hpaired : pairQuotes v = v := paired_of_not_mem hv
  rw [hpaired] at hread
  have hlex := @lex_literal (v ++ ['\'']) rest (halve v) (by simpa using hread)
  simpa using hlex

/-- The token that starts with a quote, whatever follows. -/
theorem lex_quote (s : Text) :
    lex ('\'' :: s) = ⟨.string, '\'' :: (stringScan '\'' s).1⟩ :: lex (stringScan '\'' s).2 :=
  lex_of_getToken rfl rfl

theorem scan_cons {c : Char} (hc : c ≠ '\'') (s : Text) :
    (stringScan '\'' (c :: s)).1 = c :: (stringScan '\'' s).1 := by
  rw [stringScan.eq_def]
  simp only [if_neg hc]

/-- **A value put between quotes and a parenthesis after it.**  The literal ends inside the value
    and is shorter; or ends where it should, and the value has no quotes; or runs on into the text
    after the parenthesis. -/
theorem unquote_scan_cases : ∀ {v t : Text}, (t = [';'] ∨ ∃ s, t = ' ' :: s) →
    (unquote '\'' (stringScan '\'' (v ++ '\'' :: ')' :: t)).1).length < v.length ∨
    (unquote '\'' (stringScan '\'' (v ++ '\'' :: ')' :: t)).1 = v ∧ '\'' ∉ v) ∨
    ' ' ∈ unquote '\'' (stringScan '\'' (v ++ '\'' :: ')' :: t)).1 ∨
    ((unquote '\'' (stringScan '\'' (v ++ '\'' :: ')' :: t)).1).getLast? = some ';' ∧
      v.getLast? = some '\'')
  | [], t, _ => Or.inr (Or.inl ⟨rfl, List.not_mem_nil⟩)
  | [c], t, ht => by
    by_cases hc : c = '\''
    · -- the closing quote is the second of a pair
      subst hc
      have hpair : (stringScan '\'' (['\''] ++ '\'' :: ')' :: t)).1
          = '\'' :: '\'' :: ')' :: (stringScan '\'' t).1 := by
        have hrest := @scan_cons ')' (by decide) t
        show '\'' :: '\'' :: (stringScan '\'' (')' :: t)).1 = _
        rw [hrest]
      rw [hpair, unquote_pair, unquote_cons (by decide)]
      rcases ht with rfl | ⟨s, rfl⟩
      · exact Or.inr (Or.inr (Or.inr ⟨rfl, rfl⟩))
      · rw [scan_cons (by decide), unquote_cons (by decide)]
        exact Or.inr (Or.inr (Or.inl (by simp)))
    · rw [List.cons_append, scan_cons hc, unquote_cons hc]
      exact Or.inr (Or.inl ⟨rfl, by simpa using Ne.symm hc⟩)
  | c :: d :: v, t, ht => by
    by_cases hc : c = '\''
    · subst hc
      by_cases hd : d = '\''
      · subst hd
        have hpair : (stringScan '\'' ('\'' :: '\'' :: v ++ '\'' :: ')' :: t)).1
            = '\'' :: '\'' :: (stringScan '\'' (v ++ '\'' :: ')' :: t)).1 := rfl
        rw [hpair, unquote_pair]
        rcases @unquote_scan_cases v t ht with h | ⟨h, -⟩ | h | ⟨hlast, hv⟩
        · left
          simp only [List.length_cons]
          omega
        · left
          rw [h]
          simp
        · exact Or.inr (Or.inr (Or.inl (List.mem_cons_of_mem _ h)))
        · right; right; right
          cases v with
          | nil => cases hv
          | cons e v =>
            refine ⟨?_, by simpa using hv⟩
            rw [List.getLast?_cons, hlast]
            rfl
      · -- the quote is not paired: the literal ends here
        have hclose : (stringScan '\'' ('\'' :: d :: v ++ '\'' :: ')' :: t)).1 = ['\''] := by
          simp [stringScan, hd]
        left
        rw [hclose]
        simp [unquote]
    · rw [List.cons_append, scan_cons hc, unquote_cons hc]
      rcases @unquote_scan_cases (d :: v) t ht with h | ⟨h, hv⟩ | h | ⟨hlast, hv⟩
      · left
        simpa using h
      · right; left
        refine ⟨by rw [h], ?_⟩
        rintro (_ | ⟨_, hmem⟩)
        · exact hc rfl
        · exact hv hmem
      · exact Or.inr (Or.inr (Or.inl (List.mem_cons_of_mem _ h)))
      · right; right; right
        refine ⟨?_, by simpa using hv⟩
        rw [List.getLast?_cons, hlast]
        rfl

/-- The literal is the value only when the value has no quotes, for a value without spaces. -/
theorem not_mem_of_unquote_scan {v t : Text} (ht : t = [';'] ∨ ∃ s, t = ' ' :: s) (hv : ' ' ∉ v)
    (h : unquote '\'' (stringScan '\'' (v ++ '\'' :: ')' :: t)).1 = v) : '\'' ∉ v := by
  rcases @unquote_scan_cases v t ht with hlt | ⟨-, hno⟩ | hspace | ⟨hlast, hquote⟩
  · rw [h] at hlt
    exact absurd hlt (Nat.lt_irrefl _)
  · exact hno
  · rw [h] at hspace
    exact absurd hspace hv
  · rw [h, hquote] at hlast
    exact absurd hlast (by decide)

/-- A value without quotes, between quotes. -/
theorem readLiteral_plain {v t : Text} (hv : '\'' ∉ v) :
    Where.readLiteral (lex ('\'' :: (v ++ '\'' :: ')' :: t)))
      = some (.string v, ⟨.rp, [')']⟩ :: lex t) := by
  rw [lex_plain hv (by simp), lex_rp]
  show some (Literal.string (unquote '\'' (v ++ ['\''])), _) = _
  rw [unquote_plain hv]

/-- **A text that is read as it stands between quotes has none.** -/
theorem not_mem_of_readLiteral {v t : Text} (ht : t = [';'] ∨ ∃ s, t = ' ' :: s) (hv : ' ' ∉ v)
    {us : List Token}
    (h : Where.readLiteral (lex ('\'' :: (v ++ '\'' :: ')' :: t))) = some (.string v, us)) :
    '\'' ∉ v := by
  rw [lex_quote] at h
  exact not_mem_of_unquote_scan ht hv (Literal.string.inj (Prod.mk.inj (Option.some.inj h)).1)

/-! ## Numerals -/

/-- A numeral that is one token: digits, then a fraction with a digit after its point and an
    exponent with a digit, if any. -/
def sqlNumeral : Text → Bool
  | [] => false
  | c :: s => c.isDigit && (fractionScan (s.dropWhile Char.isDigit)).2.2.isEmpty

/-- A character no numeral goes on with. -/
def Stops (c : Char) : Prop := c.isDigit = false ∧ c ∉ ['.', 'e', 'E', '+', '-']

theorem stops_space : Stops ' ' := ⟨rfl, by decide⟩

theorem stops_rp : Stops ')' := ⟨rfl, by decide⟩

theorem takeWhile_stop {p : Char → Bool} {c : Char} (hc : p c = false) (t : Text) :
    ∀ s : Text, (s ++ c :: t).takeWhile p = s.takeWhile p
  | [] => by simp [hc]
  | d :: s => by
    rw [List.cons_append, List.takeWhile_cons, List.takeWhile_cons, takeWhile_stop hc t s]

theorem dropWhile_stop {p : Char → Bool} {c : Char} (hc : p c = false) (t : Text) :
    ∀ s : Text, (s ++ c :: t).dropWhile p = s.dropWhile p ++ c :: t
  | [] => by simp [hc]
  | d :: s => by
    rw [List.cons_append, List.dropWhile_cons, List.dropWhile_cons, dropWhile_stop hc t s]
    split <;> rfl

/-- The scans of a numeral do not look beyond such a character. -/
theorem exponentScan_stop {c : Char} (hc : Stops c) (t : Text) (k : Kind) : ∀ s : Text,
    exponentScan k (s ++ c :: t)
      = ((exponentScan k s).1, (exponentScan k s).2.1, (exponentScan k s).2.2 ++ c :: t)
  | [] => by
    have he : c ≠ 'e' ∧ c ≠ 'E' := by
      constructor <;> rintro rfl <;> exact hc.2 (by decide)
    cases t <;> simp [exponentScan, he]
  | [e] => by
    have hsign : c ≠ '+' ∧ c ≠ '-' := by
      constructor <;> rintro rfl <;> exact hc.2 (by decide)
    simp [exponentScan, hc.1, hsign]
  | e :: d :: s => by
    have hhead : ((s ++ c :: t).head?.any Char.isDigit) = s.head?.any Char.isDigit := by
      cases s with
      | nil => simp [hc.1]
      | cons f s => rfl
    simp only [List.cons_append, exponentScan, hhead, takeWhile_stop hc.1, dropWhile_stop hc.1]
    split
    · rfl
    · split <;> rfl

theorem fractionScan_stop {c : Char} (hc : Stops c) (t : Text) : ∀ s : Text,
    fractionScan (s ++ c :: t)
      = ((fractionScan s).1, (fractionScan s).2.1, (fractionScan s).2.2 ++ c :: t) := by
  have hother : ∀ s : Text, s.head? ≠ some '.' → fractionScan s = exponentScan .integer s := by
    intro s hs
    unfold fractionScan
    split
    · exact absurd rfl hs
    · rfl
  have hdot : c ≠ '.' := by
    rintro rfl
    exact hc.2 (by decide)
  intro s
  match s with
  | [] =>
    have hexp := exponentScan_stop hc t .integer []
    rw [List.nil_append] at hexp ⊢
    rw [hother _ (by simpa using hdot), hexp]
    rfl
  | d :: s =>
    by_cases hd : d = '.'
    · subst hd
      cases s with
      | nil => simp [fractionScan, hc.1, exponentScan]
      | cons e s =>
        simp only [List.cons_append, fractionScan, takeWhile_stop hc.1, dropWhile_stop hc.1,
          exponentScan_stop hc]
        split <;> rfl
    · rw [List.cons_append, hother _ (by simpa using hd), hother _ (by simpa using hd),
        ← List.cons_append, exponentScan_stop hc]

theorem getToken_digit {c : Char} (hc : c.isDigit = true) (s : Text) :
    getToken c s =
      (⟨(fractionScan (s.dropWhile Char.isDigit)).1,
        c :: (s.takeWhile Char.isDigit ++ (fractionScan (s.dropWhile Char.isDigit)).2.1)⟩,
       (fractionScan (s.dropWhile Char.isDigit)).2.2) := by
  have hne : ∀ d : Char, d.isDigit = false → c ≠ d := by
    rintro d hd rfl
    rw [hc] at hd
    cases hd
  unfold getToken
  rw [if_neg (by simp [hne]), if_neg (hne _ (by decide)), if_neg (hne _ (by decide)),
    if_neg (by simp [hne]), if_pos hc]

/-- **A numeral is one token.** -/
theorem lex_numeral {v : Text} (hv : sqlNumeral v = true) {c : Char} (hc : Stops c) (t : Text) :
    ∃ k, (k = .integer ∨ k = .float) ∧ lex (v ++ c :: t) = ⟨k, v⟩ :: lex (c :: t) := by
  cases v with
  | nil => cases hv
  | cons d v =>
    obtain ⟨hd, hrest⟩ := Bool.and_eq_true_iff.mp hv
    have hrest : (fractionScan (v.dropWhile Char.isDigit)).2.2 = [] := by simpa using hrest
    have hall := fractionScan_append (v.dropWhile Char.isDigit)
    rw [hrest, List.append_nil] at hall
    refine ⟨(fractionScan (v.dropWhile Char.isDigit)).1, fractionScan_kind _, ?_⟩
    rw [List.cons_append]
    refine lex_of_getToken ?_ ?_
    · rw [getToken_digit hd, takeWhile_stop hc.1, dropWhile_stop hc.1, fractionScan_stop hc, hrest,
        hall, List.takeWhile_append_dropWhile]
      rfl
    · rcases fractionScan_kind (v.dropWhile Char.isDigit) with h | h <;> rw [h] <;> rfl

/-- A token of digits that is a whole text makes the text a numeral. -/
theorem numeral_of_getToken {d c : Char} {v t r : Text} {k : Kind} (hd : d.isDigit = true)
    (hc : Stops c) (h : getToken d (v ++ c :: t) = (⟨k, d :: v⟩, r)) :
    sqlNumeral (d :: v) = true := by
  rw [getToken_digit hd, takeWhile_stop hc.1, dropWhile_stop hc.1, fractionScan_stop hc] at h
  have htext := congrArg Token.text (Prod.mk.inj h).1
  have htext := (List.cons.inj htext).2
  have hall := fractionScan_append (v.dropWhile Char.isDigit)
  have hsplit := @List.takeWhile_append_dropWhile _ Char.isDigit v
  rw [← hall, ← List.append_assoc, htext] at hsplit
  have hnil : (fractionScan (v.dropWhile Char.isDigit)).2.2 = [] := by simpa using hsplit
  simp [sqlNumeral, hd, hnil]

/-- The types of a number. -/
def isNumeral (k : Kind) : Bool := k == .integer || k == .float

theorem not_isNumeral_operator {c : Char} {s : Text} {r : Token × Text}
    (h : operator c s = some r) : isNumeral r.1.kind = false := by
  have hall : operators.all (fun o => !isNumeral o.2.1 && o.2.2.all fun p => !isNumeral p.2) = true :=
    rfl
  unfold operator at h
  split at h
  · cases h
  · rename_i k seconds hk
    have hop := List.all_eq_true.mp hall _ (mem_of_lookup hk)
    simp only [Bool.and_eq_true, Bool.not_eq_true', List.all_eq_true] at hop
    split at h
    · cases h
      exact hop.1
    · split at h
      · rename_i hk'
        cases h
        exact hop.2 _ (mem_of_lookup hk')
      · cases h
        exact hop.1

/-- A numeral starts with a digit. -/
theorem isDigit_of_getToken {c : Char} {s : Text} (h : isNumeral (getToken c s).1.kind = true) :
    c.isDigit = true := by
  unfold getToken at h
  split at h
  · cases h
  split at h
  · split at h <;> cases h
  split at h
  · split at h <;> cases h
  split at h
  · cases h
  split at h
  · assumption
  split at h
  · cases h
  split at h
  · dsimp only at h
    split at h <;> cases h
  split at h
  · rename_i k hk
    unfold single at hk
    split at hk <;> cases hk <;> cases h
  split at h
  · rename_i r hr
    rw [not_isNumeral_operator hr] at h
    cases h
  split at h
  · dsimp only [keywordCode] at h
    split at h <;> cases h
  · cases h

theorem digit_of_mem_tokenizeN : ∀ (n : Nat) {s : Text}, ∀ t ∈ tokenizeN n s,
    isNumeral t.kind = true → ∃ d w, t.text = d :: w ∧ d.isDigit = true
  | 0, _, _, ht, _ => nomatch ht
  | _ + 1, [], _, ht, _ => nomatch ht
  | n + 1, c :: s, t, ht, hk => by
    rw [tokenizeN, List.mem_cons] at ht
    rcases ht with rfl | ht
    · obtain ⟨w, hw, -⟩ := getToken_spec c s
      exact ⟨c, w, hw, isDigit_of_getToken hk⟩
    · exact digit_of_mem_tokenizeN n t ht hk

/-- The numeral that is read starts with a digit too. -/
theorem digit_of_readLiteral {s n : Text} {negative : Bool} {us : List Token}
    (h : Where.readLiteral (lex s) = some (.number negative n, us)) :
    ∃ d w, n = d :: w ∧ d.isDigit = true := by
  have hnumeral : ∀ {negative' ts}, ts ⊆ lex s →
      readNumeral negative' ts = some (.number negative n, us) →
      ∃ d w, n = d :: w ∧ d.isDigit = true := by
    intro negative' ts hts h
    unfold readNumeral at h
    split at h
    · obtain ⟨-, rfl⟩ := Literal.number.inj (Prod.mk.inj (Option.some.inj h)).1
      have hmem := (List.mem_filter.mp (hts List.mem_cons_self)).1
      exact digit_of_mem_tokenizeN s.length _ hmem rfl
    · obtain ⟨-, rfl⟩ := Literal.number.inj (Prod.mk.inj (Option.some.inj h)).1
      have hmem := (List.mem_filter.mp (hts List.mem_cons_self)).1
      exact digit_of_mem_tokenizeN s.length _ hmem rfl
    · cases h
  unfold Where.readLiteral at h
  split at h
  · cases h
  · rename_i hts
    exact hnumeral (hts ▸ List.subset_cons_self _ _) h
  · rename_i hts
    exact hnumeral (hts ▸ List.subset_cons_self _ _) h
  · exact hnumeral (List.Subset.refl _) h

/-- The sign before a numeral. -/
theorem lex_minus {d : Char} (hd : d ≠ '-') (s : Text) :
    lex ('-' :: d :: s) = ⟨.minus, ['-']⟩ :: lex (d :: s) := by
  refine lex_of_getToken ?_ rfl
  unfold getToken
  rw [if_neg (by decide), if_pos rfl]
  split
  · rename_i heq
    exact absurd (List.cons.inj heq).1 hd
  · rfl

theorem lex_plus (s : Text) : lex ('+' :: s) = ⟨.plus, ['+']⟩ :: lex s := lex_of_getToken rfl rfl

/-- A text and what comes after its sign. -/
theorem sign_cases {v : Text} {d : Char} {w : Text} (h : dropSign v = d :: w) :
    v = '-' :: d :: w ∨ v = '+' :: d :: w ∨ v = d :: w := by
  unfold dropSign at h
  split at h
  · exact Or.inl (congrArg (List.cons '-') h)
  · exact Or.inr (Or.inl (congrArg (List.cons '+') h))
  · exact Or.inr (Or.inr h)

theorem ne_dash_of_isDigit {d : Char} (hd : d.isDigit = true) : d ≠ '-' := by
  rintro rfl
  cases hd

/-- The literal of a numeral, with its sign or without one. -/
theorem readLiteral_numeral {v : Text} (hv : sqlNumeral (dropSign v) = true) {c : Char}
    (hc : Stops c) (t : Text) :
    Where.readLiteral (lex (v ++ c :: t))
      = some (.number (v.head? == some '-') (dropSign v), lex (c :: t)) := by
  obtain ⟨d, w, hdrop, hd⟩ : ∃ d w, dropSign v = d :: w ∧ d.isDigit = true := by
    cases hdrop : dropSign v with
    | nil =>
      rw [hdrop] at hv
      cases hv
    | cons d w =>
      rw [hdrop] at hv
      exact ⟨d, w, rfl, (Bool.and_eq_true_iff.mp hv).1⟩
  have hdash := ne_dash_of_isDigit hd
  obtain ⟨k, hk, hlex⟩ := lex_numeral hv hc t
  rw [hdrop] at hlex ⊢
  rcases sign_cases hdrop with rfl | rfl | rfl
  · rw [List.cons_append, List.cons_append, lex_minus hdash, ← List.cons_append, hlex]
    rcases hk with rfl | rfl <;> rfl
  · rw [List.cons_append, lex_plus, hlex]
    rcases hk with rfl | rfl <;> rfl
  · rw [hlex, List.head?_cons, beq_false_of_ne (by simpa using hdash)]
    rcases hk with rfl | rfl <;> rfl

/-- **A text that is read as a number, whole, is a numeral.** -/
theorem numeral_of_readLiteral {v : Text} {c : Char} (hc : Stops c) {t : Text} {negative : Bool}
    {us : List Token}
    (h : Where.readLiteral (lex (v ++ c :: t)) = some (.number negative (dropSign v), us)) :
    sqlNumeral (dropSign v) = true := by
  obtain ⟨d, w, hdrop, hd⟩ := digit_of_readLiteral h
  rw [hdrop] at h ⊢
  obtain ⟨k, T, r, htoken, hk⟩ : ∃ k T r, getToken d (w ++ c :: t) = (⟨k, T⟩, r) ∧
      (k = .integer ∨ k = .float) := ⟨_, _, _, getToken_digit hd _, fractionScan_kind _⟩
  have hlex : lex (d :: (w ++ c :: t)) = ⟨k, T⟩ :: lex r :=
    lex_of_getToken htoken (by rcases hk with rfl | rfl <;> rfl)
  have hread : ∀ negative', readNumeral negative' (lex (d :: (w ++ c :: t)))
      = some (.number negative (d :: w), us) → sqlNumeral (d :: w) = true := by
    intro negative' h
    rw [hlex] at h
    have htext : T = d :: w := by
      rcases hk with rfl | rfl <;>
        exact (Literal.number.inj (Prod.mk.inj (Option.some.inj h)).1).2
    rw [htext] at htoken
    exact numeral_of_getToken hd hc htoken
  rcases sign_cases hdrop with rfl | rfl | rfl
  · rw [List.cons_append, List.cons_append, lex_minus (ne_dash_of_isDigit hd)] at h
    exact hread true h
  · rw [List.cons_append, lex_plus] at h
    exact hread false h
  · refine hread false ?_
    rw [List.cons_append, hlex] at h
    rw [hlex]
    rcases hk with rfl | rfl <;> exact h

end RubyQueue.Where
