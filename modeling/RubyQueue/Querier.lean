/-
  Simple queries: `rq query tag=important priority=6`.

  When every argument is of the form `field op value`, `Querier#query` makes a comparison of each, in
  parentheses, and joins them with `and`.  A value between single quotes is spliced as it is, and one
  that `Float` takes too; quotes are put about any other.

  The quotes in a value are not doubled, and what `Float` takes is more than SQL has numerals for:
  `.5`, `1_000` and `0x1A` are among it.  `simple_query_faithful_iff` says which arguments are read
  as what they say.

  * `simplePat_text`   — the pattern takes an argument apart as it was put together;
  * `readLiteral_literal`, `plain_of_readLiteral` — when the literal is read as the value;
  * `readExpr_joined`, `plain_of_readExpr` — the same of the clauses, one after the other.

  The lemmas on the case of a letter (`Char.toUpper_toLower_eq_toUpper` and others) are in Batteries,
  in a file that no module of Mathlib but the whole of it imports.
-/
import Mathlib
import RubyQueue.QueryText
import RubyQueue.Updater
import RubyQueue.Where

namespace RubyQueue.Querier

open RubyQueue.Sqlite RubyQueue.Quote RubyQueue.JobQueue RubyQueue.Where
open RubyQueue.Stamptime (endsLine)
open RubyQueue.Updater (Blanks endsLine_of_blanks takeWhile_run dropWhile_run)

/-! ## `Float` -/

/-- Underscores between digits go, and there are no others. -/
def dropUnderscores : Text → Option Text
  | [] => some []
  | '_' :: _ => none
  | c :: '_' :: d :: s =>
    if c.isDigit && d.isDigit then (dropUnderscores (d :: s)).map (c :: ·) else none
  | c :: s => (dropUnderscores s).map (c :: ·)

/-- A decimal numeral without a sign; there may be no digit before its point. -/
def decimal : Text → Bool
  | [] => false
  | '.' :: s => isNumberFraction ('.' :: s)
  | d :: s => d.isDigit && isNumberFraction (s.dropWhile Char.isDigit)

def isHexDigit (c : Char) : Bool := c.isDigit || ("abcdefABCDEF".toList).contains c

/-- A binary exponent, if any. -/
def hexExponent : Text → Bool
  | [] => true
  | e :: s =>
    (e == 'p' || e == 'P') && !(dropSign s).isEmpty && (dropSign s).all Char.isDigit

def hexFraction : Text → Bool
  | '.' :: d :: s => isHexDigit d && hexExponent (s.dropWhile isHexDigit)
  | s => hexExponent s

/-- A hexadecimal numeral without a sign. -/
def hexadecimal : Text → Bool
  | '0' :: x :: d :: s =>
    (x == 'x' || x == 'X') && isHexDigit d && hexFraction (s.dropWhile isHexDigit)
  | _ => false

/-- `Float(value)` returns. -/
def float (value : Text) : Bool :=
  match dropUnderscores ((value.dropWhile isSpace).rdropWhile isSpace) with
  | some s => decimal (dropSign s) || hexadecimal (dropSign s)
  | none => false

example : (["6", "-1.5e3", ".5", "1_000", "0x1A"].all fun v => float v.toList) = true ∧
    (["", "6.", "1__0", "_1", "0x", "1e", "--1"].any fun v => float v.toList) = false := by decide

/-! ## The pattern -/

/-- The operators. -/
inductive Op
  | matches | notMatches | ne | eqEq | eq
deriving DecidableEq, Repr

def Op.text : Op → Text
  | .matches => "=~".toList
  | .notMatches => "!~".toList
  | .ne => "!=".toList
  | .eqEq => "==".toList
  | .eq => "=".toList

/-- The operators in the order in which the pattern tries them. -/
def ops : List Op := [.matches, .notMatches, .ne, .eqEq, .eq]

/-- `[^=\s!~]`. -/
def isFieldChar (c : Char) : Bool := !isBlank c && c != '=' && c != '!' && c != '~'

/-- `[^=\s]`. -/
def isValueChar (c : Char) : Bool := !isBlank c && c != '='

/-- What the pattern captures. -/
structure Match where
  field : Text
  op : Op
  value : Text
deriving DecidableEq, Repr

/-- `([^=\s]+)\s*$`. -/
def valueAt (s : Text) : Option Text :=
  if s.takeWhile isValueChar ≠ [] ∧ endsLine (s.dropWhile isValueChar) then
    some (s.takeWhile isValueChar)
  else none

/-- The operator and what comes after it; with no value behind one operator the next is tried. -/
def opAt (s : Text) : Option (Op × Text) :=
  ops.findSome? fun op =>
    if s.take op.text.length = op.text then
      (valueAt (s.drop op.text.length)).map fun value => (op, value)
    else none

/-- The pattern after a `^`. -/
def matchAt (s : Text) : Option Match :=
  let s := s.dropWhile isBlank
  let field := s.takeWhile isFieldChar
  if field = [] then none
  else (opAt (s.dropWhile isFieldChar)).map fun p => ⟨field, p.1, p.2⟩

/-- `simple_pat.match(arg)`. -/
def simplePat (arg : Text) : Option Match := (Stamptime.lineStarts arg).findSome? matchAt

example : simplePat "a=~b".toList = some ⟨['a'], .matches, ['b']⟩ ∧
    simplePat "a=~".toList = some ⟨['a'], .eq, ['~']⟩ ∧ simplePat "a==".toList = none := by decide

/-! ## `query` -/

/-- `case op`. -/
def Op.sql : Op → Text
  | .eq => "=".toList
  | .eqEq => "=".toList
  | .ne => "!=".toList
  | .matches => "like".toList
  | .notMatches => "not like".toList

/-- `value =~ %r/^\s*'.*'\s*$/o`, for a value without blanks. -/
def quoted (value : Text) : Bool :=
  value.head? == some '\'' && value.tail.getLast? == some '\''

/-- The value as it is spliced. -/
def literalText (value : Text) : Text :=
  if quoted value || float value then value else '\'' :: (value ++ ['\''])

/-- `"(#{ field } #{ op } #{ value })"`. -/
def Match.clause (m : Match) : Text :=
  '(' :: (m.field ++ ' ' :: (m.op.sql ++ ' ' :: (literalText m.value ++ [')'])))

/-- The where clause that is read when there is none: the lines without blanks and comments. -/
def readStdin (stdin : List Text) : Text :=
  stdin.flatMap fun buf =>
    let buf := (stripText buf).takeWhile (· != '#')
    if buf = [] then [] else buf ++ [' ']

/-- The where clause of `query`. -/
def whereClause (argv stdin : List Text) : Text :=
  let clause :=
    match argv.mapM simplePat with
    | some ms => " and ".toList.intercalate (ms.map Match.clause)
    | none => " ".toList.intercalate argv
  if stripText clause = [] then clause ++ readStdin stdin else clause

/-- `Querier#query`. -/
def query (other : OtherSelect) (argv stdin : List Text) (db : Jobs) : Except String (List Row) :=
  selectRows other (querySql (some (whereClause argv stdin))) db

/-! ## What an argument says -/

/-- An argument of the form `field op value`: the parts as the pattern takes them, and blanks about
    them.  No argument of a program has a NUL. -/
structure Argument extends Match where
  before : Text
  behind : Text
  blanks : Blanks before ∧ Blanks behind
  field_ok : field ≠ [] ∧ ∀ c ∈ field, isFieldChar c = true
  value_ok : value ≠ [] ∧ ∀ c ∈ value, isValueChar c = true
  op_ok : op = .eq → value.head? = some '~' → value = ['~']
  no_nul : '\x00' ∉ field ∧ '\x00' ∉ value

def Argument.text (a : Argument) : Text :=
  a.before ++ (a.field ++ (a.op.text ++ (a.value ++ a.behind)))

def Op.rel : Op → Rel
  | .eq => .eq
  | .eqEq => .eq
  | .ne => .ne
  | .matches => .like
  | .notMatches => .notLike

/-- The number of a value that is one: `Float` skips white space, and so does SQL. -/
def Match.numeral (m : Match) : Text := m.value.dropWhile isSpace

/-- The literal: the text after the operator, without quotes about it, and a number if it is one. -/
def Match.literal (m : Match) : Literal :=
  if quoted m.value then .string m.value.tail.dropLast
  else if float m.value then .number (m.numeral.head? == some '-') (dropSign m.numeral)
  else .string m.value

def Match.comparison (m : Match) : Expr := .compare m.field m.op.rel m.literal

/-- A row satisfies an argument: the value of the field compares with the literal. -/
def Match.satisfied (m : Match) (r : Row) : Bool :=
  (fieldOf m.field).any fun f => m.op.rel.test (fieldValue r f) m.literal.text

/-- The comparisons joined by `and`. -/
def conjunction (a : Expr) : List Expr → Expr
  | [] => a
  | b :: bs => .and a (conjunction b bs)

/-- The value is read as it is meant: there are no quotes in it, but for those about it, and a
    number is one of SQL's. -/
def Match.Plain (m : Match) : Prop :=
  if quoted m.value then '\'' ∉ m.value.tail.dropLast
  else if float m.value then sqlNumeral (dropSign m.numeral) = true
  else '\'' ∉ m.value

instance (m : Match) : Decidable m.Plain :=
  inferInstanceAs (Decidable (if quoted m.value = true then '\'' ∉ m.value.tail.dropLast
    else if float m.value = true then sqlNumeral (dropSign m.numeral) = true else '\'' ∉ m.value))

/-! ## The pattern takes an argument apart -/

theorem isFieldChar_op {op : Op} {c : Char} (h : c ∈ op.text.head?) : isFieldChar c = false := by
  cases op <;> cases h <;> rfl

theorem valueAt_text {v behind : Text} (hne : v ≠ []) (hv : ∀ c ∈ v, isValueChar c = true)
    (hb : Blanks behind) : valueAt (v ++ behind) = some v := by
  have hstop : ∀ c ∈ behind.head?, isValueChar c = false := by
    intro c hc
    have hblank := hb c (List.mem_of_mem_head? hc)
    simp [isValueChar, hblank]
  have htake : (v ++ behind).takeWhile isValueChar = v := takeWhile_run hv hstop
  have hdrop : (v ++ behind).dropWhile isValueChar = behind := dropWhile_run hv hstop
  rw [valueAt, htake, hdrop, if_pos ⟨hne, endsLine_of_blanks hb⟩]

theorem valueAt_blanks {b : Text} (hb : Blanks b) : valueAt b = none := by
  have htake : b.takeWhile isValueChar = [] := by
    cases b with
    | nil => rfl
    | cons c b =>
      have hc := hb c List.mem_cons_self
      exact List.takeWhile_cons_of_neg (by simp [isValueChar, hc])
  rw [valueAt, htake, if_neg (fun h => h.1 rfl)]

/-- The operators are told apart by their order: `=` is the last, and what `=~` finds no value
    after is `=`. -/
theorem opAt_text (a : Argument) :
    opAt (a.op.text ++ (a.value ++ a.behind)) = some (a.op, a.value) := by
  obtain ⟨hne, hv⟩ := a.value_ok
  have hvalue := valueAt_text hne hv a.blanks.2
  have hop := a.op_ok
  cases h : a.op with
  | eq =>
    obtain ⟨c, w, hw⟩ := List.exists_cons_of_ne_nil hne
    have hc : c ≠ '=' := by
      rintro rfl
      have hvc := hv '=' (hw ▸ List.mem_cons_self)
      cases hvc
    rw [hw, List.cons_append] at hvalue ⊢
    by_cases htilde : c = '~'
    · -- the pattern tries `=~` first, and finds no value
      have hlone := hop h (by rw [hw, htilde]; rfl)
      obtain ⟨rfl, rfl⟩ := List.cons.inj (hw.symm.trans hlone)
      have hnone := valueAt_blanks a.blanks.2
      simpa [opAt, ops, Op.text, hnone] using hvalue
    · simp [opAt, ops, Op.text, htilde, hc, hvalue]
  | _ => simp [opAt, ops, Op.text, hvalue]

/-- **The pattern takes an argument apart** as it was put together. -/
theorem simplePat_text (a : Argument) : simplePat a.text = some a.toMatch := by
  obtain ⟨hne, hfield⟩ := a.field_ok
  have hrest : ∀ c ∈ (a.op.text ++ (a.value ++ a.behind)).head?, isFieldChar c = false := by
    intro c hc
    refine @isFieldChar_op a.op c ?_
    cases h : a.op <;> rw [h] at hc <;> exact hc
  have hhead : ∀ c ∈ (a.field ++ (a.op.text ++ (a.value ++ a.behind))).head?,
      isBlank c = false := by
    obtain ⟨d, f, hf⟩ := List.exists_cons_of_ne_nil hne
    have hd := hfield d (hf ▸ List.mem_cons_self)
    rw [hf]
    rintro c ⟨⟩
    unfold isFieldChar at hd
    simp only [Bool.and_eq_true, Bool.not_eq_true'] at hd
    exact hd.1.1.1
  have hmatch : matchAt a.text = some a.toMatch := by
    unfold matchAt Argument.text
    simp only [dropWhile_run a.blanks.1 hhead, takeWhile_run hfield hrest,
      dropWhile_run hfield hrest, if_neg hne, opAt_text]
    rfl
  rw [simplePat, Stamptime.lineStarts, List.findSome?_cons, hmatch]

/-- The where clause of such arguments: their comparisons. -/
theorem whereClause_texts (a : Argument) (as : List Argument) (stdin : List Text) :
    whereClause ((a :: as).map Argument.text) stdin
      = " and ".toList.intercalate ((a :: as).map fun a => a.toMatch.clause) := by
  have hmap : ∀ as : List Argument,
      (as.map Argument.text).mapM simplePat = some (as.map Argument.toMatch) := by
    intro as
    induction as with
    | nil => rfl
    | cons a as ih =>
      rw [List.map_cons, List.mapM_cons, simplePat_text, ih]
      rfl
  have hlp : ∃ s, " and ".toList.intercalate ((a :: as).map fun a => a.toMatch.clause)
      = '(' :: s := by
    cases as with
    | nil => exact ⟨_, rfl⟩
    | cons b bs => exact ⟨_, rfl⟩
  obtain ⟨s, hs⟩ := hlp
  have hstrip : stripText ('(' :: s) ≠ [] := by
    unfold stripText
    rw [List.dropWhile_cons_of_neg (by decide)]
    intro hnil
    have hall := List.rdropWhile_eq_nil_iff.mp hnil '(' List.mem_cons_self
    cases hall
  unfold whereClause
  rw [hmap]
  simp only [List.map_map, Function.comp_def]
  rw [hs, if_neg hstrip]

/-! ## A clause, token by token -/

/-- The names a field can have. -/
def sqlNames : List String := Listing.fieldNames ++ ["_rowid_", "rowid", "oid"]

theorem exists_name {f : Text} (h : (fieldOf f).isSome = true) :
    ∃ n ∈ sqlNames, f.map Char.toLower = n.toList := by
  unfold fieldOf at h
  dsimp only at h
  have hmem : String.ofList (f.map Char.toLower) ∈ sqlNames := by
    split at h
    · rename_i hfield
      exact List.mem_append_left _ (List.contains_iff_mem.mp hfield)
    · split at h
      · rename_i hkey
        exact List.mem_append_right _ (List.contains_iff_mem.mp hkey)
      · cases h
  exact ⟨_, hmem, String.toList_ofList.symm⟩

/-- Each of them is a word, and none a keyword. -/
theorem sqlNames_words : ∀ n ∈ sqlNames, (∃ c w, n.toList = c :: w ∧ (c.isAlpha = true ∨ c = '_')) ∧
    n.toList.all isIdChar = true ∧ keywordCode n.toList = .id := by
  have hall : (sqlNames.all fun n => (n.toList.head?.any fun c => c.isAlpha || c == '_') &&
      n.toList.all isIdChar && keywordCode n.toList == .id) = true := by decide +kernel
  intro n hn
  have h := List.all_eq_true.mp hall n hn
  simp only [Bool.and_eq_true, beq_iff_eq] at h
  obtain ⟨⟨hhead, hword⟩, hcode⟩ := h
  refine ⟨?_, hword, hcode⟩
  cases hs : n.toList with
  | nil =>
    rw [hs] at hhead
    cases hhead
  | cons c w =>
    rw [hs] at hhead
    have hc : (c.isAlpha || c == '_') = true := hhead
    rw [Bool.or_eq_true, beq_iff_eq] at hc
    exact ⟨c, w, rfl, hc⟩

theorem isIdChar_of_toLower {c : Char} (h : isIdChar c.toLower = true) : isIdChar c = true := by
  by_cases hc : c.isUpper = true
  · simp [isIdChar, Char.isAlphanum, Char.isAlpha, hc]
  · rwa [Char.toLower_eq_of_not_isUpper hc] at h

theorem keywordCode_toLower (w : Text) : keywordCode (w.map Char.toLower) = keywordCode w := by
  unfold keywordCode
  rw [List.map_map]
  have hcomp : Char.toUpper ∘ Char.toLower = Char.toUpper :=
    funext Char.toUpper_toLower_eq_toUpper
  rw [hcomp]

/-- A word may start with an underscore. -/
theorem lex_underscore {w rest : Text} (hw : w.all isIdChar = true) (hr : EndsWord rest) :
    lex ('_' :: (w ++ rest)) = ⟨keywordCode ('_' :: w), '_' :: w⟩ :: lex rest := by
  have hw' := List.all_eq_true.mp hw
  have h : getToken '_' (w ++ rest) = (⟨keywordCode ('_' :: (w ++ rest).takeWhile isIdChar),
      '_' :: (w ++ rest).takeWhile isIdChar⟩, (w ++ rest).dropWhile isIdChar) := rfl
  rw [takeWhile_word hw' hr, dropWhile_word hw' hr] at h
  exact lex_of_getToken h (keywordCode_seen _)

/-- **The name of a field is one token**, in whatever case it is written. -/
theorem lex_field {f rest : Text} (h : (fieldOf f).isSome = true) (hr : EndsWord rest) :
    lex (f ++ rest) = ⟨.id, f⟩ :: lex rest ∧ f.head? ≠ some '[' := by
  obtain ⟨n, hn, hlower⟩ := exists_name h
  obtain ⟨⟨c', w', hcons, hc'⟩, hword, hcode⟩ := sqlNames_words n hn
  rw [hcons] at hlower
  obtain ⟨c, w, rfl, rfl, rfl⟩ : ∃ c w, f = c :: w ∧ c.toLower = c' ∧ w.map Char.toLower = w' := by
    cases f with
    | nil => cases hlower
    | cons c w => exact ⟨c, w, rfl, (List.cons.inj hlower).1, (List.cons.inj hlower).2⟩
  rw [hcons] at hword hcode
  rw [← List.map_cons, keywordCode_toLower] at hcode
  have hw : w.all isIdChar = true := by
    refine List.all_eq_true.mpr fun d hd => isIdChar_of_toLower ?_
    exact List.all_eq_true.mp hword _ (List.mem_cons_of_mem _ (List.mem_map_of_mem hd))
  rcases hc' with hc | hc
  · have hc : c.isAlpha = true := by rwa [Char.isAlpha_toLower_eq_isAlpha] at hc
    have hlex := @lex_word c w rest hc hw hr
    rw [hcode] at hlex
    refine ⟨hlex, ?_⟩
    rintro hbracket
    rw [Option.some.inj hbracket] at hc
    cases hc
  · have hc : c = '_' := by
      by_cases hup : c.isUpper = true
      · have halpha : c.toLower.isAlpha = true := by simp [Char.isAlpha, hup]
        rw [hc] at halpha
        cases halpha
      · rwa [Char.toLower_eq_of_not_isUpper hup] at hc
    subst hc
    have hlex := lex_underscore hw hr
    rw [hcode] at hlex
    exact ⟨hlex, by simp⟩

/-- The tokens of an operator. -/
def Op.tokens : Op → List Token
  | .eq => [⟨.eq, ['=']⟩]
  | .eqEq => [⟨.eq, ['=']⟩]
  | .ne => [⟨.ne, "!=".toList⟩]
  | .matches => [⟨.keyword "LIKE", "like".toList⟩]
  | .notMatches => [⟨.keyword "NOT", "not".toList⟩, ⟨.keyword "LIKE", "like".toList⟩]

theorem lex_op (op : Op) (s : Text) :
    lex (' ' :: (op.sql ++ ' ' :: s)) = op.tokens ++ lex (s.dropWhile isSpace) := by
  have heq : lex ('=' :: ' ' :: s) = ⟨.eq, ['=']⟩ :: lex (s.dropWhile isSpace) := by
    rw [lex_eq (by simp), lex_space (.inl rfl)]
  have hlike : lex ('l' :: ("ike".toList ++ ' ' :: s))
      = ⟨.keyword "LIKE", "like".toList⟩ :: lex (s.dropWhile isSpace) := by
    rw [lex_word_space rfl rfl, keywordCode_like]
    rfl
  rw [lex_space (.inl rfl)]
  cases op with
  | eq => exact heq
  | eqEq => exact heq
  | ne =>
    show lex ('!' :: '=' :: ' ' :: s) = _
    have htoken : getToken '!' ('=' :: ' ' :: s) = (⟨.ne, "!=".toList⟩, ' ' :: s) := rfl
    rw [lex_of_getToken htoken rfl, lex_space (.inl rfl)]
    rfl
  | «matches» => exact hlike
  | notMatches =>
    show lex ('n' :: ("ot".toList ++ ' ' :: 'l' :: ("ike".toList ++ ' ' :: s))) = _
    rw [lex_word_space rfl rfl, keywordCode_not]
    show _ :: lex ('l' :: ("ike".toList ++ ' ' :: s)) = _
    rw [hlike]
    rfl

theorem readRel_tokens (op : Op) (ts : List Token) :
    readRel (op.tokens ++ ts) = some (op.rel, ts) := by
  cases op <;> rfl

/-! ## When the literal is the value -/

theorem quoted_eq {v : Text} (h : quoted v = true) : v = '\'' :: (v.tail.dropLast ++ ['\'']) := by
  obtain ⟨hhead, hlast⟩ := Bool.and_eq_true_iff.mp h
  cases v with
  | nil => cases hhead
  | cons c w =>
    obtain rfl : c = '\'' := by simpa using hhead
    have hlast : w.getLast? = some '\'' := by simpa using hlast
    show _ = '\'' :: (w.dropLast ++ ['\''])
    rw [List.dropLast_append_getLast? '\'' hlast]

/-- No white space is left before a literal. -/
theorem dropWhile_literalText (m : Match) (t : Text) :
    (literalText m.value ++ ')' :: t).dropWhile isSpace
      = (if quoted m.value || float m.value then m.numeral else literalText m.value)
        ++ ')' :: t := by
  rw [dropWhile_stop rfl]
  unfold literalText
  split
  · rfl
  · rw [List.dropWhile_cons_of_neg (by decide)]

theorem numeral_of_quoted {m : Match} (h : quoted m.value = true) : m.numeral = m.value := by
  unfold Match.numeral
  rw [quoted_eq h, List.dropWhile_cons_of_neg (by decide)]

/-- **A plain value is read as it is meant.** -/
theorem readLiteral_literal {m : Match} (h : m.Plain) (t : Text) :
    Where.readLiteral (lex ((literalText m.value ++ ')' :: t).dropWhile isSpace))
      = some (m.literal, ⟨.rp, [')']⟩ :: lex t) := by
  unfold Match.Plain at h
  rw [dropWhile_literalText]
  unfold Match.literal
  by_cases hq : quoted m.value = true
  · have heq := quoted_eq hq
    rw [if_pos hq] at h ⊢
    rw [hq, Bool.true_or, if_pos rfl, numeral_of_quoted hq]
    generalize m.value.tail.dropLast = w at h heq ⊢
    rw [heq, List.cons_append, List.append_assoc]
    exact readLiteral_plain h
  · rw [if_neg hq] at h ⊢
    by_cases hf : float m.value = true
    · rw [if_pos hf] at h ⊢
      rw [hf, Bool.or_true, if_pos rfl, readLiteral_numeral h stops_rp, lex_rp]
    · have hno : (quoted m.value || float m.value) = false := by simp [hq, hf]
      rw [if_neg hf] at h ⊢
      rw [literalText, hno, if_neg Bool.false_ne_true, if_neg Bool.false_ne_true, List.cons_append,
        List.append_assoc]
      exact readLiteral_plain h

/-- **And no other value is.** -/
theorem plain_of_readLiteral {m : Match} (hv : ' ' ∉ m.value) {t : Text}
    (ht : t = [';'] ∨ ∃ s, t = ' ' :: s) {us : List Token}
    (h : Where.readLiteral (lex ((literalText m.value ++ ')' :: t).dropWhile isSpace))
      = some (m.literal, us)) : m.Plain := by
  unfold Match.Plain
  rw [dropWhile_literalText] at h
  unfold Match.literal at h
  by_cases hq : quoted m.value = true
  · have heq := quoted_eq hq
    have hw : ' ' ∉ m.value.tail.dropLast := fun hmem =>
      hv (List.mem_of_mem_tail (List.mem_of_mem_dropLast hmem))
    rw [if_pos hq]
    rw [if_pos hq, hq, Bool.true_or, if_pos rfl, numeral_of_quoted hq] at h
    generalize m.value.tail.dropLast = w at h heq hw ⊢
    rw [heq, List.cons_append, List.append_assoc] at h
    exact not_mem_of_readLiteral ht hw h
  · rw [if_neg hq] at h ⊢
    by_cases hf : float m.value = true
    · rw [if_pos hf] at h ⊢
      rw [hf, Bool.or_true, if_pos rfl] at h
      exact numeral_of_readLiteral stops_rp h
    · have hno : (quoted m.value || float m.value) = false := by simp [hq, hf]
      rw [if_neg hf] at h ⊢
      rw [literalText, hno, if_neg Bool.false_ne_true, if_neg Bool.false_ne_true, List.cons_append,
        List.append_assoc] at h
      exact not_mem_of_readLiteral ht hv h

/-! ## The clauses one after the other -/

/-- The clauses joined by `and`, and the semicolon. -/
def joined (a : Argument) : List Argument → Text
  | [] => a.toMatch.clause ++ [';']
  | b :: bs => a.toMatch.clause ++ (" and ".toList ++ joined b bs)

theorem joined_eq : ∀ (a : Argument) (as : List Argument),
    " and ".toList.intercalate ((a :: as).map fun a => a.toMatch.clause) ++ [';'] = joined a as
  | a, [] => by
    rw [List.map_cons, List.map_nil, List.intercalate_singleton]
    rfl
  | a, b :: bs => by
    have ih := joined_eq b bs
    rw [List.map_cons] at ih
    rw [List.map_cons, List.map_cons, List.intercalate_cons_cons, List.append_assoc,
      List.append_assoc, ih]
    rfl

/-- It starts with a parenthesis. -/
theorem exists_joined (a : Argument) (as : List Argument) : ∃ s, joined a as = '(' :: s := by
  cases as with
  | nil => exact ⟨_, rfl⟩
  | cons b bs => exact ⟨_, rfl⟩

/-- **The tokens of a clause** up to the literal. -/
theorem lex_clause {m : Match} (h : (fieldOf m.field).isSome = true) (t : Text) :
    lex (m.clause ++ t) = ⟨.lp, ['(']⟩ :: ⟨.id, m.field⟩ ::
      (m.op.tokens ++ lex ((literalText m.value ++ ')' :: t).dropWhile isSpace)) := by
  have htext : m.clause ++ t
      = '(' :: (m.field ++ ' ' :: (m.op.sql ++ ' ' :: (literalText m.value ++ ')' :: t))) := by
    simp [Match.clause]
  rw [htext, lex_lp, (lex_field h (endsWord_cons rfl _)).1, lex_op]

theorem readCompare_clause {m : Match} (h : (fieldOf m.field).isSome = true) (ts : List Token) :
    readCompare (⟨.id, m.field⟩ :: (m.op.tokens ++ ts))
      = (Where.readLiteral ts).map fun p => (.compare m.field m.op.rel p.1, p.2) := by
  have hbracket := (lex_field h (endsWord_cons (show isIdChar ' ' = false by decide) [])).2
  exact readCompare_id hbracket (readRel_tokens m.op ts)

/-- A clause with a plain value is an atom, with fuel for the levels in its parentheses. -/
theorem readExpr_clause {m : Match} (h : (fieldOf m.field).isSome = true) (hm : m.Plain) (t : Text)
    (n : Nat) : readExpr (n + 4) .atom (lex (m.clause ++ t)) = some (m.comparison, lex t) := by
  rw [lex_clause h]
  have hread : readCompare (⟨.id, m.field⟩ ::
      (m.op.tokens ++ lex ((literalText m.value ++ ')' :: t).dropWhile isSpace)))
        = some (m.comparison, ⟨.rp, [')']⟩ :: lex t) := by
    rw [readCompare_clause h, readLiteral_literal hm]
    rfl
  exact readExpr_paren hread

/-- A clause has tokens beside those of its literal. -/
theorem length_clause {m : Match} (h : (fieldOf m.field).isSome = true) (hm : m.Plain) (t : Text) :
    (lex t).length + 2 ≤ (lex (m.clause ++ t)).length := by
  have hlit := readLiteral_length (readLiteral_literal hm t)
  rw [lex_clause h]
  simp only [List.length_cons, List.length_append] at hlit ⊢
  omega

theorem lex_and (a : Argument) (as : List Argument) :
    lex (" and ".toList ++ joined a as) = ⟨.keyword "AND", "and".toList⟩ :: lex (joined a as) := by
  obtain ⟨s, hs⟩ := exists_joined a as
  rw [hs]
  show lex (' ' :: 'a' :: ("nd".toList ++ ' ' :: '(' :: s)) = _
  rw [lex_space (.inl rfl)]
  show lex ('a' :: ("nd".toList ++ ' ' :: '(' :: s)) = _
  rw [lex_word_space rfl rfl, keywordCode_and]
  rfl

/-- The field is one of the table's, and the value is read as it is meant. -/
def Argument.Good (a : Argument) : Prop := (fieldOf a.field).isSome = true ∧ a.toMatch.Plain

/-- What a list of arguments says. -/
def meaning (a : Argument) (as : List Argument) : Expr :=
  conjunction a.toMatch.comparison (as.map fun b => b.toMatch.comparison)

/-- **Good arguments are read one by one.**  Induction on the arguments. -/
theorem readExpr_joined : ∀ {as : List Argument} {a : Argument} {n : Nat},
    (∀ b ∈ a :: as, b.Good) → 3 * (lex (joined a as)).length + 2 ≤ n →
    readExpr n .and (lex (joined a as)) = some (meaning a as, [⟨.semi, [';']⟩])
  | [], a, n, h, hn => by
    obtain ⟨hfield, hplain⟩ := h a List.mem_cons_self
    have hlen := length_clause hfield hplain [';']
    have hsemi : lex [';'] = [⟨.semi, [';']⟩] := rfl
    obtain ⟨k, rfl⟩ : ∃ k, n = k + 5 := ⟨n - 5, by
      change 3 * (lex (a.toMatch.clause ++ [';'])).length + 2 ≤ n at hn
      omega⟩
    exact readExpr_and_last (hsemi ▸ readExpr_clause hfield hplain [';'] k) rfl
  | b :: bs, a, n, h, hn => by
    obtain ⟨hfield, hplain⟩ := h a List.mem_cons_self
    have hlen := length_clause hfield hplain (" and ".toList ++ joined b bs)
    have hatom := readExpr_clause hfield hplain (" and ".toList ++ joined b bs)
    rw [lex_and] at hlen hatom
    rw [List.length_cons] at hlen
    change 3 * (lex (a.toMatch.clause ++ (" and ".toList ++ joined b bs))).length + 2 ≤ n at hn
    obtain ⟨k, rfl, hk⟩ : ∃ k, n = k + 5 ∧ 3 * (lex (joined b bs)).length + 2 ≤ k + 4 :=
      ⟨n - 5, by omega, by omega⟩
    have ih := readExpr_joined (fun c hc => h c (List.mem_cons_of_mem a hc)) hk
    show readExpr (k + 5) .and (lex (a.toMatch.clause ++ (" and ".toList ++ joined b bs))) = _
    rw [readExpr_and_cons (hatom k), ih]
    rfl

theorem first_meaning (a : Argument) (as : List Argument) :
    (meaning a as).first = a.toMatch.comparison := by
  cases as <;> rfl

/-- A value has no blanks. -/
theorem Argument.space_not_mem (a : Argument) : ' ' ∉ a.value := by
  intro h
  have hvalue := a.value_ok.2 ' ' h
  cases hvalue

/-- The first comparison tells that the first value is read as it is meant. -/
theorem plain_of_first {a : Argument} {as : List Argument} (h : (fieldOf a.field).isSome = true)
    {n : Nat} {us : List Token}
    (hread : readExpr n .and (lex (joined a as)) = some (meaning a as, us)) : a.toMatch.Plain := by
  obtain ⟨t, htext, ht⟩ : ∃ t, joined a as = a.toMatch.clause ++ t ∧
      (t = [';'] ∨ ∃ s, t = ' ' :: s) := by
    cases as with
    | nil => exact ⟨_, rfl, Or.inl rfl⟩
    | cons b bs => exact ⟨_, rfl, Or.inr ⟨_, rfl⟩⟩
  obtain ⟨vs, hfirst⟩ := readExpr_first hread
  rw [first_meaning, htext, lex_clause h, List.dropWhile_cons_of_pos rfl,
    List.dropWhile_cons_of_neg Bool.false_ne_true, readCompare_clause h] at hfirst
  obtain ⟨⟨l, ws⟩, hlit, heq⟩ := Option.map_eq_some_iff.mp hfirst
  obtain rfl : l = a.toMatch.literal := (Expr.compare.inj (Prod.mk.inj heq).1).2.2
  exact plain_of_readLiteral a.space_not_mem ht hlit

/-- **Arguments that are read one by one are good.**  The induction goes on behind the first, which
    is read as far as its parenthesis. -/
theorem plain_of_readExpr : ∀ {as : List Argument} {a : Argument} {n : Nat} {us : List Token},
    (∀ b ∈ a :: as, (fieldOf b.field).isSome = true) → 3 * (lex (joined a as)).length + 2 ≤ n →
    readExpr n .and (lex (joined a as)) = some (meaning a as, us) →
    ∀ b ∈ a :: as, b.toMatch.Plain
  | [], a, n, us, h, hn, hread => by
    intro b hb
    rw [List.mem_singleton.mp hb]
    exact plain_of_first (h a List.mem_cons_self) hread
  | b :: bs, a, n, us, h, hn, hread => by
    have hfield := h a List.mem_cons_self
    have hplain := plain_of_first hfield hread
    have hlen := length_clause hfield hplain (" and ".toList ++ joined b bs)
    have hatom := readExpr_clause hfield hplain (" and ".toList ++ joined b bs)
    rw [lex_and] at hlen hatom
    rw [List.length_cons] at hlen
    change 3 * (lex (a.toMatch.clause ++ (" and ".toList ++ joined b bs))).length + 2 ≤ n at hn
    obtain ⟨k, rfl, hk⟩ : ∃ k, n = k + 5 ∧ 3 * (lex (joined b bs)).length + 2 ≤ k + 4 :=
      ⟨n - 5, by omega, by omega⟩
    change readExpr (k + 5) .and (lex (a.toMatch.clause ++ (" and ".toList ++ joined b bs))) = _
      at hread
    rw [readExpr_and_cons (hatom k)] at hread
    obtain ⟨⟨e, vs⟩, hrest, heq⟩ := Option.map_eq_some_iff.mp hread
    obtain rfl : e = meaning b bs := (Expr.and.inj (Prod.mk.inj heq).1).2
    intro c hc
    rcases List.mem_cons.mp hc with rfl | hc
    · exact hplain
    · exact plain_of_readExpr (fun d hd => h d (List.mem_cons_of_mem a hd)) hk hrest c hc

/-! ## The statement -/

theorem nul_not_mem_joined : ∀ (a : Argument) (as : List Argument), '\x00' ∉ joined a as := by
  have hclause : ∀ a : Argument, '\x00' ∉ a.toMatch.clause := by
    intro a
    have hop : '\x00' ∉ a.op.sql := by cases a.op <;> decide
    have hliteral : '\x00' ∉ literalText a.value := by
      have hvalue := a.no_nul.2
      unfold literalText
      split
      · exact hvalue
      · simp [hvalue]
    simp [Match.clause, a.no_nul.1, hop, hliteral]
  intro a as
  induction as generalizing a with
  | nil => simpa [joined] using hclause a
  | cons b bs ih =>
    have hand : '\x00' ∉ " and ".toList := by decide
    show '\x00' ∉ a.toMatch.clause ++ (" and ".toList ++ joined b bs)
    rw [List.mem_append, List.mem_append, not_or, not_or]
    exact ⟨hclause a, hand, ih b⟩

/-- The text of a simple query. -/
def simpleSql (a : Argument) (as : List Argument) (stdin : List Text) : Text :=
  querySql (some (whereClause ((a :: as).map Argument.text) stdin))

theorem simpleSql_eq (a : Argument) (as : List Argument) (stdin : List Text) :
    simpleSql a as stdin = "select * from jobs where ".toList ++ joined a as := by
  unfold simpleSql querySql
  rw [whereClause_texts, ← joined_eq a as]
  exact List.append_assoc _ _ _

/-- The tokens before the clause. -/
def selectTokens : List Token :=
  [⟨.keyword "SELECT", "select".toList⟩, ⟨.star, ['*']⟩, ⟨.keyword "FROM", "from".toList⟩,
    ⟨.id, "jobs".toList⟩, ⟨.keyword "WHERE", "where".toList⟩]

theorem lex_simpleSql (a : Argument) (as : List Argument) (stdin : List Text) :
    lex (cString (simpleSql a as stdin)) = selectTokens ++ lex (joined a as) := by
  have hnul : '\x00' ∉ "select * from jobs where ".toList ++ joined a as := by
    rw [List.mem_append, not_or]
    exact ⟨by decide, nul_not_mem_joined a as⟩
  obtain ⟨s, hs⟩ := exists_joined a as
  rw [simpleSql_eq, cString_eq hnul, hs]
  show lex ('s' :: ("elect".toList ++ ' ' ::
    '*' :: ' ' :: ("from jobs where ".toList ++ '(' :: s))) = _
  rw [lex_word_space rfl rfl, keywordCode_select]
  show _ :: lex ('*' :: ' ' :: ("from jobs where ".toList ++ '(' :: s)) = _
  rw [lex_star, lex_space (.inl rfl)]
  show _ :: _ :: lex ('f' :: ("rom".toList ++ ' ' :: ("jobs where ".toList ++ '(' :: s))) = _
  rw [lex_word_space rfl rfl, keywordCode_from]
  show _ :: _ :: _ :: lex ('j' :: ("obs".toList ++ ' ' :: ("where ".toList ++ '(' :: s))) = _
  rw [lex_word_space rfl rfl, keywordCode_jobs]
  show _ :: _ :: _ :: _ :: lex ('w' :: ("here".toList ++ ' ' :: '(' :: s)) = _
  rw [lex_word_space rfl rfl, keywordCode_where]
  rfl

theorem readWhere_selectTokens (ts : List Token) :
    readWhere (selectTokens ++ ts)
      = (readExpr (fuel ts) .or ts).bind fun p => if ended p.2 then some p.1 else none := rfl

/-- A conjunction is no disjunction: it is read below that level. -/
theorem readExpr_or_meaning {a : Argument} {as : List Argument} {n : Nat} {ts us : List Token}
    (h : readExpr (n + 1) .or ts = some (meaning a as, us)) :
    readExpr n .and ts = some (meaning a as, us) := by
  rw [readExpr] at h
  obtain ⟨⟨e, vs⟩, he, h⟩ := Option.bind_eq_some_iff.mp h
  dsimp only at h
  split at h
  · obtain ⟨⟨b, ws⟩, -, h⟩ := Option.bind_eq_some_iff.mp h
    have heq := (Prod.mk.inj (Option.some.inj h)).1
    cases as <;> cases heq
  · rw [he, h]

/-- **When the statement is read as what the arguments say.** -/
theorem readWhere_simpleSql {a : Argument} {as : List Argument} (stdin : List Text)
    (h : ∀ b ∈ a :: as, (fieldOf b.field).isSome = true) :
    readWhere (lex (cString (simpleSql a as stdin))) = some (meaning a as) ↔
      ∀ b ∈ a :: as, b.toMatch.Plain := by
  rw [lex_simpleSql, readWhere_selectTokens]
  show (readExpr (3 * (lex (joined a as)).length + 2 + 1) .or (lex (joined a as))).bind _ = _ ↔ _
  constructor
  · intro hread
    obtain ⟨⟨e, us⟩, he, hended⟩ := Option.bind_eq_some_iff.mp hread
    have hmeaning : e = meaning a as := by
      dsimp only at hended
      split at hended
      · exact Option.some.inj hended
      · cases hended
    subst hmeaning
    exact plain_of_readExpr h (Nat.le_refl _) (readExpr_or_meaning he)
  · intro hplain
    have hand := readExpr_joined (fun b hb => ⟨h b hb, hplain b hb⟩) (Nat.le_refl _)
    rw [readExpr_or_last hand rfl]
    rfl

/-- All names are those of fields. -/
theorem resolves_meaning : ∀ {as : List Argument} {a : Argument},
    (meaning a as).resolves = true ↔ ∀ b ∈ a :: as, (fieldOf b.field).isSome = true
  | [], a => by
    show (fieldOf a.field).isSome = true ↔ _
    simp
  | b :: bs, a => by
    have ih := @resolves_meaning bs b
    show ((fieldOf a.field).isSome && (meaning b bs).resolves) = true ↔ _
    rw [Bool.and_eq_true, ih]
    exact (@List.forall_mem_cons _ (fun c : Argument => (fieldOf c.field).isSome = true) a
      (b :: bs)).symm

theorem holds_meaning (r : Row) : ∀ (a : Argument) (as : List Argument),
    (meaning a as).holds r = (a :: as).all fun b => b.toMatch.satisfied r
  | a, [] => by
    show a.toMatch.satisfied r = _
    simp
  | a, b :: bs => by
    have ih := holds_meaning r b bs
    show (a.toMatch.satisfied r && (meaning b bs).holds r) = _
    rw [ih]
    rfl

/-- A simple query means what it says: its statement is read as the conjunction of its comparisons,
    and it selects the rows that satisfy every argument. -/
def Faithful (a : Argument) (as : List Argument) : Prop :=
  ∀ stdin : List Text, readWhere (lex (cString (simpleSql a as stdin))) = some (meaning a as) ∧
    ∀ other db, query other ((a :: as).map Argument.text) stdin db
      = .ok (db.rows.filter fun r => (a :: as).all fun b => b.toMatch.satisfied r)

/-- **Simple queries** mean what they say exactly when every argument has the name of a field, and a
    value that is read as it is meant. -/
theorem simple_query_faithful_iff (a : Argument) (as : List Argument) :
    Faithful a as ↔ ∀ b ∈ a :: as, b.Good := by
  have hquery : ∀ other stdin db,
      readWhere (lex (cString (simpleSql a as stdin))) = some (meaning a as) →
      query other ((a :: as).map Argument.text) stdin db
        = if (meaning a as).resolves then .ok (db.rows.filter (meaning a as).holds)
          else .error "no such column" := by
    intro other stdin db hread
    show selectRows other (simpleSql a as stdin) db = _
    rw [selectRows, selectWith, hread]
    rfl
  constructor
  · intro h
    obtain ⟨hread, hrows⟩ := h []
    have hresolves : (meaning a as).resolves = true := by
      have hok := hrows (fun _ _ => .error "SQL error") Jobs.empty
      rw [hquery _ _ _ hread] at hok
      by_contra hno
      rw [if_neg hno] at hok
      cases hok
    have hfields := resolves_meaning.mp hresolves
    exact fun b hb => ⟨hfields b hb, (readWhere_simpleSql [] hfields).mp hread b hb⟩
  · intro h stdin
    have hfields : ∀ b ∈ a :: as, (fieldOf b.field).isSome = true := fun b hb => (h b hb).1
    have hread := (readWhere_simpleSql stdin hfields).mpr fun b hb => (h b hb).2
    refine ⟨hread, fun other db => ?_⟩
    rw [hquery other stdin db hread, if_pos (resolves_meaning.mpr hfields)]
    exact congrArg Except.ok (List.filter_congr fun r _ => holds_meaning r a as)

/-- `tag=it's`. -/
def itsTag : Argument where
  field := "tag".toList
  op := .eq
  value := "it's".toList
  before := []
  behind := []
  blanks := ⟨fun _ h => (nomatch h), fun _ h => (nomatch h)⟩
  field_ok := ⟨by decide, List.all_eq_true.mp (by decide)⟩
  value_ok := ⟨by decide, List.all_eq_true.mp (by decide)⟩
  op_ok := by decide
  no_nul := by decide

/-- `tag=1_000`. -/
def thousandTag : Argument where
  field := "tag".toList
  op := .eq
  value := "1_000".toList
  before := []
  behind := []
  blanks := ⟨fun _ h => (nomatch h), fun _ h => (nomatch h)⟩
  field_ok := ⟨by decide, List.all_eq_true.mp (by decide)⟩
  value_ok := ⟨by decide, List.all_eq_true.mp (by decide)⟩
  op_ok := by decide
  no_nul := by decide

/-- A quote ends the literal, and an underscore the numeral: neither statement is one. -/
theorem not_faithful_its :
    (itsTag.toMatch.clause = "(tag = 'it's')".toList ∧
      readWhere (lex (cString (simpleSql itsTag [] []))) = none ∧ ¬ Faithful itsTag []) ∧
    (thousandTag.toMatch.clause = "(tag = 1_000)".toList ∧
      readWhere (lex (cString (simpleSql thousandTag [] []))) = none ∧
      ¬ Faithful thousandTag []) := by
  have hunread : ∀ {a : Argument}, readWhere (lex (cString (simpleSql a [] []))) = none →
      ¬ Faithful a [] := by
    intro a hnone h
    have hread := (h []).1
    rw [hnone] at hread
    cases hread
  have hits : readWhere (lex (cString (simpleSql itsTag [] []))) = none := by
    rw [lex_simpleSql, readWhere_selectTokens]
    rfl
  have hthousand : readWhere (lex (cString (simpleSql thousandTag [] []))) = none := by
    rw [lex_simpleSql, readWhere_selectTokens]
    rfl
  exact ⟨⟨by rfl, hits, hunread hits⟩, by rfl, hthousand, hunread hthousand⟩

end RubyQueue.Querier
