/-
  The exit code map of `rq status --exit 'ok=0 fail=1,2'`.

  `StatusLister#parse_exit_code_map` takes the blanks around `=` out of the text, splits it at the
  others, and each part at `=` and `,`: a name and its codes.  `JobQueue#status` counts the finished
  rows for each name with a disjunction over its codes.

  The parser does not ask for a code, and the disjunction over none is `()`: a name without codes is
  accepted and makes the statement one that SQLite does not read.

  * `foldlM_addToken` — the map has, for each name, the codes of the last part with it;
  * `readCount_codes` — the statement of a name with codes is read, and selects what it should;
  * `usable_iff`      — a map can be used exactly when each of its names has a code.
-/
import RubyQueue.Integer
import RubyQueue.Status
import RubyQueue.Where

namespace RubyQueue.ExitCodes

open RubyQueue.Sqlite RubyQueue.Quote RubyQueue.JobQueue RubyQueue.Status RubyQueue.Where
open RubyQueue.Raise
open RubyQueue.Integer (signed)

/-! ## `parse_exit_code_map` -/

/-- `gsub %r/\s+/, ' '`; the flag says that a match is under way. -/
def squeeze : Bool → Text → Text
  | _, [] => []
  | inBlanks, c :: s =>
    if isBlank c then (if inBlanks then squeeze true s else ' ' :: squeeze true s)
    else c :: squeeze false s

/-- `gsub %r/\s*=\s*/, '='`; the flag says that an `=` was the last. -/
def tighten : Bool → Text → Text
  | _, [] => []
  | afterEq, c :: s =>
    if c = '=' then '=' :: tighten true s
    else if isBlank c then
      if afterEq then tighten true s
      else if (s.dropWhile isBlank).head? = some '=' then tighten false s
      else c :: tighten false s
    else c :: tighten false s

/-- What `split` splits at. -/
def isSeparator (c : Char) : Bool := isBlank c || c == '\x0b'

/-- `split`. -/
def splitBlanks (s : Text) : List Text := (s.splitOnP isSeparator).filter (· ≠ [])

/-- `[=,]`. -/
def isDelimiter (c : Char) : Bool := c == '=' || c == ','

/-- `split %r/[=,]/`, which drops empty texts at the end. -/
def splitToken (token : Text) : List Text := (token.splitOnP isDelimiter).rdropWhile (· == [])

/-- `emap.strip.gsub(%r/\s+/, ' ').gsub(%r/\s*=\s*/, '=').split`. -/
def tokens (emap : Text) : List Text := splitBlanks (tighten false (squeeze false (stripText emap)))

/-- The key of a token, and the texts of its values. -/
def entry (token : Text) : String × List Text :=
  (String.ofList ((splitToken token).head?.getD []), (splitToken token).tail)

/-- `map[key] = values`. -/
def put {β : Type} : List (String × β) → String → β → List (String × β)
  | [], key, v => [(key, v)]
  | e :: map, key, v => if e.1 = key then (key, v) :: map else e :: put map key v

/-- One round of the loop. -/
def addToken (map : List (String × List Int)) (token : Text) :
    Except String (List (String × List Int)) := do
  let values ← (entry token).2.mapM signed
  .ok (put map (entry token).1 values)

/-- `StatusLister#parse_exit_code_map`. -/
def parseExitCodeMap (emap : Option Text) : Except String (List (String × List Int)) :=
  let emap := emap.getD "ok=42".toList
  match (tokens emap).foldlM addToken [] with
  | .ok map => .ok map
  | .error _ => .error ("bad map <" ++ String.ofList emap)

example : parseExitCodeMap (some " ok = 42 fail=1,2\n".toList)
    = .ok [("ok", [42]), ("fail", [1, 2])] := by
  rfl

/-! ## The jobs with a code -/

/-- The text is a numeral for the number. -/
def Shows (s : String) (code : Int) : Prop := sqliteIsNumber s = true ∧ value (sqliteAtoF s) = code

instance (s : String) (code : Int) : Decidable (Shows s code) := inferInstanceAs (Decidable (_ ∧ _))

/-- A finished row whose exit status is one of the codes. -/
def ExitedWith (codes : List Int) (r : Row) : Prop :=
  r.state = some "finished" ∧ ∃ status ∈ r.exitStatus, ∃ code ∈ codes, Shows status code

instance (codes : List Int) (r : Row) : Decidable (ExitedWith codes r) :=
  inferInstanceAs (Decidable (_ ∧ _))

/-- A code as it is printed: its sign, and its digits. -/
theorem toList_negSucc (n : Nat) :
    (toString (Int.negSucc n)).toList = '-' :: (toString (n + 1)).toList := by
  show ("-" ++ toString (n + 1)).toList = _
  rw [String.toList_append]
  rfl

/-- A printed number starts with a digit. -/
theorem exists_digit_toString (n : Nat) :
    ∃ c s, (toString n).toList = c :: s ∧ c.isDigit = true := by
  obtain ⟨c, s, hs⟩ := List.exists_cons_of_ne_nil (by simp : (toString n).toList ≠ [])
  exact ⟨c, s, hs, isDigit_of_mem_toString (hs ▸ List.mem_cons_self)⟩

theorem integerValue_toString (n : Int) : integerValue (toString n) = some n := by
  cases n with
  | ofNat n =>
    have hdigits := allDigits_toString n
    obtain ⟨c, s, hs, hc⟩ := exists_digit_toString n
    have hne : ∀ d : Char, d.isDigit = false → c ≠ d := by
      rintro d hd rfl
      rw [hc] at hd
      cases hd
    have hsign : dropSign (c :: s) = c :: s := by
      unfold dropSign
      split <;> simp_all
    have hvalue := digitsValue_toString n
    unfold integerValue
    unfold allDigits at hdigits
    rw [hs] at hdigits hvalue
    rw [show toString (Int.ofNat n) = toString n from rfl, hs]
    simp only [hsign, hdigits, hvalue, if_true, List.head?_cons, Option.some.injEq,
      if_neg (hne '-' (by decide))]
    rfl
  | negSucc n =>
    have hdigits := allDigits_toString (n + 1)
    unfold integerValue
    rw [toList_negSucc]
    unfold allDigits at hdigits
    simp only [dropSign, hdigits, if_true, List.head?_cons, digitsValue_toString]
    rfl

/-- An exit status equals the literal of a code exactly when it shows it. -/
theorem eqLit_code (col : Option String) (code : Int) :
    eqLit col (toString code) = true ↔ ∃ status ∈ col, Shows status code := by
  obtain ⟨hnum, hval⟩ := integerValue_some (integerValue_toString code)
  have hcode : value ⟨code, 0⟩ = code := by simp [value]
  cases col with
  | none => simp [eqLit]
  | some s =>
    have heq : sqliteCompare s (toString code) = .eq ↔ Shows s code := by
      unfold sqliteCompare Shows
      simp only [hnum, hval]
      cases sqliteIsNumber s with
      | true => simp [cmp_eq_iff, hcode]
      | false => simp
    show (sqliteCompare s (toString code) == .eq) = true ↔ _
    rw [beq_iff_eq, heq]
    simp

theorem hasCode_iff (codes : List Int) (r : Row) : hasCode codes r = true ↔ ExitedWith codes r := by
  unfold hasCode ExitedWith
  rw [Bool.and_eq_true, eqLit_iff (by decide), List.any_eq_true]
  simp only [eqLit_code]
  constructor
  · rintro ⟨hstate, code, hmem, status, hstatus, hshows⟩
    exact ⟨hstate, status, hstatus, code, hmem, hshows⟩
  · rintro ⟨hstate, status, hstatus, code, hmem, hshows⟩
    exact ⟨hstate, code, hmem, status, hstatus, hshows⟩

/-! ## The statement of a name -/

/-- The codes as `status` writes them. -/
def codeTexts (codes : List Int) : List Text := codes.map fun code => (toString code).toList

/-- The literal a code is read as. -/
def literal : Int → Literal
  | .ofNat n => .number false (toString n).toList
  | .negSucc n => .number true (toString (n + 1)).toList

theorem text_literal (code : Int) : (literal code).text = toString code := by
  cases code with
  | ofNat n => exact String.ofList_toList
  | negSucc n =>
    show String.ofList ('-' :: (toString (n + 1)).toList) = _
    rw [← toList_negSucc, String.ofList_toList]

theorem sqlNumeral_toString (n : Nat) : sqlNumeral (toString n).toList = true := by
  obtain ⟨c, s, hs, hc⟩ := exists_digit_toString n
  have hdrop : s.dropWhile Char.isDigit = [] := by
    refine dropWhile_isDigit fun d hd => @isDigit_of_mem_toString n d ?_
    rw [hs]
    exact List.mem_cons_of_mem c hd
  rw [hs]
  simp [sqlNumeral, hc, hdrop, fractionScan, exponentScan]

/-- A code is read as it is written. -/
theorem readLiteral_code (code : Int) {c : Char} (hc : Stops c) (t : Text) :
    readLiteral (lex ((toString code).toList ++ c :: t)) = some (literal code, lex (c :: t)) := by
  cases code with
  | ofNat n =>
    obtain ⟨k, hk, hlex⟩ := lex_numeral (sqlNumeral_toString n) hc t
    show readLiteral (lex ((toString n).toList ++ c :: t)) = _
    rw [hlex]
    rcases hk with rfl | rfl <;> rfl
  | negSucc n =>
    rw [toList_negSucc]
    exact @readLiteral_numeral ('-' :: (toString (n + 1)).toList) (sqlNumeral_toString (n + 1)) c hc t

/-- A condition on the exit status, up to a character that no numeral goes on with. -/
theorem lex_code (code : Int) (t : Text) :
    lex ("exit_status=".toList ++ ((toString code).toList ++ t))
      = ⟨.id, "exit_status".toList⟩ :: ⟨.eq, ['=']⟩ :: lex ((toString code).toList ++ t) := by
  have hne : ((toString code).toList ++ t).head? ≠ some '=' := by
    cases code with
    | ofNat n =>
      obtain ⟨c, s, hs, hc⟩ := exists_digit_toString n
      show ((toString n).toList ++ t).head? ≠ some '='
      rw [hs]
      rintro h
      rw [Option.some.inj h] at hc
      cases hc
    | negSucc n =>
      rw [toList_negSucc]
      simp
  show lex ('e' :: ("xit_status".toList ++ '=' :: ((toString code).toList ++ t))) = _
  rw [lex_word rfl rfl (endsWord_cons rfl _), lex_eq hne, keywordCode_exit_status]
  rfl

/-- What reading the disjunction over the codes comes to. -/
def Reads (codes : List Int) (ts us : List Token) : Prop :=
  codes.length ≤ ts.length ∧ ∃ e, (∀ n, codes.length + 2 ≤ n → readExpr n .or ts = some (e, us)) ∧
    e.resolves = true ∧ ∀ r, e.holds r = codes.any fun code => eqLit r.exitStatus (toString code)

theorem readCompare_code (code : Int) {c : Char} (hc : Stops c) (t : Text) :
    readCompare (lex ("exit_status=".toList ++ ((toString code).toList ++ c :: t)))
      = some (.compare "exit_status".toList .eq (literal code), lex (c :: t)) := by
  have hlit := readLiteral_code code hc t
  have hcolumn : "exit_status".toList.head? ≠ some '[' := by decide
  rw [lex_code, readCompare_id hcolumn rfl, hlit]
  rfl

theorem fieldOf_state : fieldOf "state".toList = some "state" ∧
    fieldOf "exit_status".toList = some "exit_status" := by decide

theorem holds_code (code : Int) (r : Row) :
    (Expr.compare "exit_status".toList .eq (literal code)).holds r
      = eqLit r.exitStatus (toString code) := by
  rw [Expr.holds, fieldOf_state.2, text_literal]
  rfl

theorem resolves_code (code : Int) :
    (Expr.compare "exit_status".toList .eq (literal code)).resolves = true := by
  rw [Expr.resolves, fieldOf_state.2]
  rfl

/-- It starts with the name of the column. -/
theorem dropWhile_joinCodes (code : Int) (codes : List Int) (t : Text) :
    (joinCodes (codeTexts (code :: codes)) ++ t).dropWhile isSpace
      = joinCodes (codeTexts (code :: codes)) ++ t := by
  cases codes <;> rfl

/-- **The disjunction over the codes**, one by one. -/
theorem reads_joinCodes (t : Text) : ∀ {codes : List Int}, codes ≠ [] →
    Reads codes (lex (joinCodes (codeTexts codes) ++ ')' :: t)) (lex (')' :: t))
  | [], h => absurd rfl h
  | [code], _ => by
    have hread := readCompare_code code stops_rp t
    have htext : joinCodes (codeTexts [code]) ++ ')' :: t
        = "exit_status=".toList ++ ((toString code).toList ++ ')' :: t) :=
      List.append_assoc _ _ _
    have hrp := lex_rp t
    rw [htext]
    refine ⟨?_, .compare "exit_status".toList .eq (literal code), ?_, resolves_code code, ?_⟩
    · rw [lex_code]
      simp
    · intro n hn
      obtain ⟨n, rfl⟩ := Nat.exists_eq_add_of_le' (show 3 ≤ n from hn)
      rw [hrp] at hread ⊢
      exact readExpr_or_last (readExpr_and_last (readExpr_compare hread) (after_ne (by simp) _))
        (after_ne (by simp) _)
    · intro r
      rw [holds_code]
      simp
  | code :: code' :: codes, _ => by
    obtain ⟨hlen, e, he, hresolves, hholds⟩ := @reads_joinCodes t (code' :: codes) (by simp)
    have hread := readCompare_code code stops_space
      ("or ".toList ++ (joinCodes (codeTexts (code' :: codes)) ++ ')' :: t))
    have htext : joinCodes (codeTexts (code :: code' :: codes)) ++ ')' :: t
        = "exit_status=".toList ++ ((toString code).toList ++ ' ' ::
          ("or ".toList ++ (joinCodes (codeTexts (code' :: codes)) ++ ')' :: t))) := by
      show ("exit_status=".toList ++ ((toString code).toList ++
        (" or ".toList ++ joinCodes (codeTexts (code' :: codes))))) ++ ')' :: t = _
      simp only [List.append_assoc]
      rfl
    have hor : lex (' ' :: ("or ".toList ++ (joinCodes (codeTexts (code' :: codes)) ++ ')' :: t)))
        = ⟨.keyword "OR", "or".toList⟩ ::
          lex (joinCodes (codeTexts (code' :: codes)) ++ ')' :: t) := by
      rw [lex_space (.inl rfl)]
      show lex ('o' :: ("r".toList ++ ' ' ::
        (joinCodes (codeTexts (code' :: codes)) ++ ')' :: t))) = _
      rw [lex_word_space rfl rfl, dropWhile_joinCodes, keywordCode_or]
      rfl
    rw [htext]
    refine ⟨?_, .or (.compare "exit_status".toList .eq (literal code)) e, ?_, ?_, ?_⟩
    · have hlit := readLiteral_length (readLiteral_code code stops_space
        ("or ".toList ++ (joinCodes (codeTexts (code' :: codes)) ++ ')' :: t)))
      rw [lex_code]
      rw [hor] at hlit
      simp only [List.length_cons] at hlen hlit ⊢
      omega
    · intro n hn
      obtain ⟨n, rfl⟩ := Nat.exists_eq_add_of_le' (show 3 ≤ n by simp at hn; omega)
      rw [hor] at hread
      rw [readExpr_or_cons (readExpr_and_last (readExpr_compare hread) (after_ne (by simp) _)),
        he (n + 2) (by simp at hn ⊢; omega)]
      rfl
    · rw [Expr.resolves, resolves_code, hresolves]
      rfl
    · intro r
      rw [Expr.holds, holds_code, hholds]
      rfl

/-- A code is written with digits and a minus. -/
theorem mem_code {c : Char} {code : Int} (h : c ∈ (toString code).toList) :
    c.isDigit = true ∨ c = '-' := by
  cases code with
  | ofNat n => exact Or.inl (isDigit_of_mem_toString h)
  | negSucc n =>
    rw [toList_negSucc, List.mem_cons] at h
    exact h.symm.imp isDigit_of_mem_toString id

theorem nul_not_mem_joinCodes : ∀ codes : List Int, '\x00' ∉ joinCodes (codeTexts codes)
  | [] => List.not_mem_nil
  | [code] => by
    show '\x00' ∉ "exit_status=".toList ++ (toString code).toList
    rw [List.mem_append, not_or]
    exact ⟨by decide, fun h => absurd (mem_code h) (by decide)⟩
  | code :: code' :: codes => by
    have ih := nul_not_mem_joinCodes (code' :: codes)
    show '\x00' ∉ "exit_status=".toList ++ ((toString code).toList ++
      (" or ".toList ++ joinCodes (codeTexts (code' :: codes))))
    rw [List.mem_append, List.mem_append, List.mem_append, not_or, not_or, not_or]
    exact ⟨by decide, fun h => absurd (mem_code h) (by decide), by decide, ih⟩

/-- The tokens of the statement before its disjunction. -/
def countTokens : List Token :=
  [⟨.keyword "SELECT", "select".toList⟩, ⟨.id, "count".toList⟩, ⟨.lp, ['(']⟩, ⟨.star, ['*']⟩,
    ⟨.rp, [')']⟩, ⟨.keyword "FROM", "from".toList⟩, ⟨.id, "jobs".toList⟩,
    ⟨.keyword "WHERE", "where".toList⟩]

def stateTokens : List Token :=
  [⟨.lp, ['(']⟩, ⟨.id, "state".toList⟩, ⟨.eq, ['=']⟩, ⟨.string, "'finished'".toList⟩,
    ⟨.keyword "AND", "and".toList⟩, ⟨.lp, ['(']⟩]

/-- The words of the statement, and what is between them. -/
theorem codesSql_text (codes : List Text) : codesSql codes
    = ' ' :: ("             ".toList ++ 's' :: ("elect".toList ++ ' ' :: 'c' :: ("ount".toList ++
      '(' :: '*' :: ')' :: ' ' :: 'f' :: ("rom".toList ++ ' ' :: 'j' :: ("obs".toList ++ ' ' ::
      ("\n                ".toList ++ 'w' :: ("here".toList ++ ' ' ::
      ("\n                  ".toList ++ '(' :: 's' :: ("tate".toList ++ '=' :: '\'' ::
      ("finished".toList ++ '\'' :: ' ' :: 'a' :: ("nd".toList ++ ' ' :: '(' ::
      (joinCodes codes ++ "))\n".toList)))))))))))) := by
  have hselect : "              select count(*) from jobs \n                where \n".toList
      = ' ' :: ("             ".toList ++ 's' :: ("elect".toList ++ ' ' :: 'c' :: ("ount".toList ++
        '(' :: '*' :: ')' :: ' ' :: 'f' :: ("rom".toList ++ ' ' :: 'j' :: ("obs".toList ++ ' ' ::
        ("\n                ".toList ++ 'w' :: ("here".toList ++ [' ', '\n']))))))) := by
    decide +kernel
  have hstate : "                  (state='finished' and (".toList
      = "                  ".toList ++ '(' :: 's' :: ("tate".toList ++ '=' :: '\'' ::
        ("finished".toList ++ '\'' :: ' ' :: 'a' :: ("nd".toList ++ [' ', '(']))) := by
    decide +kernel
  have hblanks : "\n                  ".toList = '\n' :: "                  ".toList := by
    decide +kernel
  unfold codesSql
  rw [hselect, hstate, hblanks]
  simp only [List.append_assoc, List.cons_append, List.nil_append]

theorem lex_codesSql (codes : List Int) :
    lex (cString (codesSql (codeTexts codes)))
      = countTokens ++ (stateTokens ++ lex (joinCodes (codeTexts codes) ++ "))\n".toList)) := by
  have hnul : '\x00' ∉ codesSql (codeTexts codes) := by
    unfold codesSql
    rw [List.mem_append, List.mem_append, List.mem_append, not_or, not_or, not_or]
    exact ⟨by simp, by simp, nul_not_mem_joinCodes codes, by simp⟩
  have hblank : ∀ {w : Text} {c : Char} (t : Text), w.all isSpace = true → isSpace c = false →
      (w ++ c :: t).dropWhile isSpace = c :: t := by
    intro w c t hw hc
    rw [List.dropWhile_append_of_pos (List.all_eq_true.mp hw),
      List.dropWhile_cons_of_neg (Bool.not_eq_true _ ▸ hc)]
  rw [cString_eq hnul, codesSql_text]
  generalize joinCodes (codeTexts codes) = clause
  rw [lex_space (.inl rfl), hblank _ (by decide) rfl, lex_word_space rfl rfl, keywordCode_select,
    List.dropWhile_cons_of_neg (by decide), lex_word rfl rfl (endsWord_cons rfl _),
    keywordCode_count, lex_lp, lex_star, lex_rp, lex_space (.inl rfl),
    List.dropWhile_cons_of_neg (by decide), lex_word_space rfl rfl, keywordCode_from,
    List.dropWhile_cons_of_neg (by decide), lex_word_space rfl rfl, keywordCode_jobs,
    hblank _ (by decide) rfl, lex_word_space rfl rfl, keywordCode_where, hblank _ (by decide) rfl,
    lex_lp, lex_word rfl rfl (endsWord_cons rfl _), keywordCode_state, lex_eq (by simp),
    lex_plain (by simp) (by simp), lex_space (.inl rfl), List.dropWhile_cons_of_neg (by decide),
    lex_word_space rfl rfl, keywordCode_and, List.dropWhile_cons_of_neg (by decide), lex_lp]
  rfl

theorem readCount_countTokens (ts : List Token) :
    readCount (countTokens ++ ts)
      = (readExpr (fuel ts) .or ts).bind fun p => if ended p.2 then some p.1 else none := rfl

/-- The conjunction in parentheses, its second part read with less fuel. -/
theorem readExpr_stateTokens {k n : Nat} {e : Expr} {ts : List Token} {t u : Text} (hn : k + 7 ≤ n)
    (h : ∀ n, k ≤ n → readExpr n .or ts = some (e, [⟨.rp, t⟩, ⟨.rp, u⟩])) :
    readExpr n .or (stateTokens ++ ts)
      = some (.and (.compare "state".toList .eq (.string "finished".toList)) e, []) := by
  obtain ⟨m, rfl, hm⟩ : ∃ m, n = m + 7 ∧ k ≤ m := ⟨n - 7, by omega, by omega⟩
  have hvalue : sqliteDequote "'finished'".toList = "finished".toList :=
    @unquote_plain "finished".toList (by decide)
  have hstate : readCompare (stateTokens.tail ++ ts)
      = some (.compare "state".toList .eq (.string "finished".toList),
          ⟨.keyword "AND", "and".toList⟩ :: ⟨.lp, ['(']⟩ :: ts) := by
    show some (Expr.compare _ _ (.string (sqliteDequote "'finished'".toList)), _) = _
    rw [hvalue]
    rfl
  have hcodes : readExpr (m + 2) .and (⟨.lp, ['(']⟩ :: ts) = some (e, [⟨.rp, u⟩]) :=
    readExpr_and_last (readExpr_group (h m hm)) (after_ne (by simp) _)
  have hand : readExpr (m + 3) .and (stateTokens.tail ++ ts)
      = some (.and (.compare "state".toList .eq (.string "finished".toList)) e, [⟨.rp, u⟩]) := by
    rw [readExpr_and_cons (readExpr_compare hstate), hcodes]
    rfl
  have hor := readExpr_or_last hand (after_ne (by simp) _)
  exact readExpr_or_last (readExpr_and_last (readExpr_group hor) rfl) rfl

/-- **A name with codes makes a statement SQLite reads**, and what it counts are the finished rows
    with one of them. -/
theorem readCount_codes {codes : List Int} (h : codes ≠ []) :
    ∃ e, readCount (lex (cString (codesSql (codeTexts codes)))) = some e ∧ e.resolves = true ∧
      ∀ r, e.holds r = hasCode codes r := by
  have hrps : lex "))\n".toList = [⟨.rp, [')']⟩, ⟨.rp, [')']⟩] := by decide
  have hreads : Reads codes (lex (joinCodes (codeTexts codes) ++ "))\n".toList))
      (lex "))\n".toList) :=
    reads_joinCodes ")\n".toList h
  rw [hrps] at hreads
  obtain ⟨hlen, e, he, hresolves, hholds⟩ := hreads
  refine ⟨.and (.compare "state".toList .eq (.string "finished".toList)) e, ?_, ?_, ?_⟩
  · rw [lex_codesSql, readCount_countTokens, readExpr_stateTokens ?_ he]
    · rfl
    · show codes.length + 2 + 7 ≤
        3 * ((lex (joinCodes (codeTexts codes) ++ "))\n".toList)).length + 6) + 3
      omega
  · rw [Expr.resolves, Expr.resolves, fieldOf_state.1, hresolves]
    rfl
  · intro r
    rw [Expr.holds, Expr.holds, fieldOf_state.1, hholds]
    rfl

/-- Without a code it is not one. -/
theorem readCount_none : readCount (lex (cString (codesSql (codeTexts [])))) = none := by
  rw [lex_codesSql]
  rfl

/-! ## The map -/

/-- The name of a part of the text. -/
def name (token : Text) : Text := token.takeWhile fun c => !isDelimiter c

/-- Something other than a delimiter comes after the name. -/
def ListsCode (token : Text) : Prop :=
  ∃ c ∈ token.dropWhile fun c => !isDelimiter c, isDelimiter c = false

/-- The last part with its name. -/
def IsLast (ts : List Text) (token : Text) : Prop :=
  ∃ earlier later, ts = earlier ++ token :: later ∧ ∀ t ∈ later, name t ≠ name token

/-- The texts between the delimiters, the name apart. -/
def between : Text → List Text
  | [] => []
  | _ :: s => s.splitOnP isDelimiter

theorem splitOnP_token : ∀ token : Text, token.splitOnP isDelimiter
    = name token :: between (token.dropWhile fun c => !isDelimiter c)
  | [] => rfl
  | c :: s => by
    have ih := splitOnP_token s
    rw [List.splitOnP_cons_eq_if_modifyHead]
    by_cases hc : isDelimiter c = true
    · simp [name, hc, between]
    · rw [if_neg hc, ih]
      simp [name, hc]

theorem all_between : ∀ {s : Text},
    (∀ t ∈ s.splitOnP isDelimiter, t = []) ↔ ∀ c ∈ s, isDelimiter c = true
  | [] => by simp
  | c :: s => by
    have ih := @all_between s
    rw [List.splitOnP_cons_eq_if_modifyHead]
    by_cases hc : isDelimiter c = true
    · rw [if_pos hc]
      simp [ih, hc]
    · obtain ⟨t, ts, hts⟩ := List.exists_cons_of_ne_nil (List.splitOnP_ne_nil isDelimiter s)
      rw [if_neg hc, hts]
      simp [hc]

/-- Texts that are all empty are dropped, and none before another. -/
theorem rdropWhile_cons (t : Text) (ts : List Text) :
    ((t :: ts).rdropWhile (· == [])).head?.getD [] = t ∧
      ((t :: ts).rdropWhile (· == [])).tail = ts.rdropWhile (· == []) := by
  have happ : (t :: ts).rdropWhile (· == [])
      = if ts.rdropWhile (· == []) = [] then [t].rdropWhile (· == [])
        else t :: ts.rdropWhile (· == []) := by
    simp only [List.rdropWhile, List.reverse_cons, List.dropWhile_append, List.isEmpty_iff,
      List.reverse_eq_nil_iff]
    split <;> simp
  rw [happ]
  split
  · rename_i hnil
    rw [hnil]
    cases t <;> exact ⟨rfl, rfl⟩
  · exact ⟨rfl, rfl⟩

theorem entry_fst (token : Text) : (entry token).1 = String.ofList (name token) := by
  have h := rdropWhile_cons (name token) (between (token.dropWhile fun c => !isDelimiter c))
  unfold entry splitToken
  rw [splitOnP_token, h.1]

/-- A part without a code has no texts for one. -/
theorem entry_nil_iff (token : Text) : (entry token).2 = [] ↔ ¬ ListsCode token := by
  have h := rdropWhile_cons (name token) (between (token.dropWhile fun c => !isDelimiter c))
  have hall : (entry token).2 = [] ↔
      ∀ t ∈ between (token.dropWhile fun c => !isDelimiter c), t = [] := by
    unfold entry splitToken
    rw [splitOnP_token, h.2, List.rdropWhile_eq_nil_iff]
    simp
  rw [hall]
  unfold ListsCode
  cases hd : token.dropWhile fun c => !isDelimiter c with
  | nil => simp [between]
  | cons c s =>
    have hc : isDelimiter c = true := by
      have hhead := List.head?_dropWhile_not (fun c => !isDelimiter c) token
      rw [hd] at hhead
      simpa using hhead
    rw [between, all_between]
    simp [hc]

/-! ### `map[key] = values` -/

section
variable {β : Type} {map : List (String × β)} {key : String} {v : β}

/-- The names of a map. -/
def keys (map : List (String × β)) : List String := map.map Prod.fst

theorem keys_put : ∀ {map : List (String × β)},
    keys (put map key v) = if key ∈ keys map then keys map else keys map ++ [key]
  | [] => by simp [keys, put]
  | e :: map => by
    have ih := @keys_put map
    rw [put]
    by_cases he : e.1 = key
    · rw [if_pos he]
      simp [keys, he]
    · rw [if_neg he]
      show e.1 :: keys (put map key v) = if key ∈ e.1 :: keys map then _ else _
      rw [ih]
      by_cases hk : key ∈ keys map
      · rw [if_pos hk, if_pos (List.mem_cons_of_mem _ hk)]
        rfl
      · have hcons : key ∉ e.1 :: keys map := by
          rintro (_ | ⟨_, h⟩)
          · exact he rfl
          · exact hk h
        rw [if_neg hk, if_neg hcons]
        rfl

theorem nodup_put (h : (keys map).Nodup) : (keys (put map key v)).Nodup := by
  rw [keys_put]
  split
  · exact h
  · rename_i hk
    exact List.nodup_append.mpr ⟨h, List.nodup_singleton key, by
      rintro k hk' _ hkey rfl
      rw [List.mem_singleton.mp hkey] at hk'
      exact hk hk'⟩

theorem mem_put : ∀ {map : List (String × β)}, (keys map).Nodup → ∀ {m : String × β},
    m ∈ put map key v ↔ m = (key, v) ∨ m ∈ map ∧ m.1 ≠ key
  | [], _, m => by simp [put]
  | e :: map, h, m => by
    obtain ⟨hnot, hnodup⟩ := List.nodup_cons.mp h
    have ih := @mem_put map hnodup m
    rw [put]
    by_cases he : e.1 = key
    · rw [if_pos he, List.mem_cons, List.mem_cons]
      refine or_congr_right ⟨fun hm => ⟨Or.inr hm, ?_⟩, ?_⟩
      · rintro rfl
        exact hnot (he ▸ List.mem_map_of_mem hm)
      · rintro ⟨rfl | hm, hne⟩
        · exact absurd he hne
        · exact hm
    · rw [if_neg he, List.mem_cons, List.mem_cons, ih]
      constructor
      · rintro (rfl | rfl | ⟨hm, hne⟩)
        · exact Or.inr ⟨Or.inl rfl, he⟩
        · exact Or.inl rfl
        · exact Or.inr ⟨Or.inr hm, hne⟩
      · rintro (rfl | ⟨rfl | hm, hne⟩)
        · exact Or.inr (Or.inl rfl)
        · exact Or.inl rfl
        · exact Or.inr (Or.inr ⟨hm, hne⟩)

end

/-- The last part of one more is the new one, or was the last before and has another name. -/
theorem isLast_concat {ts : List Text} {t token : Text} :
    IsLast (ts ++ [t]) token ↔ token = t ∨ IsLast ts token ∧ name t ≠ name token := by
  constructor
  · rintro ⟨earlier, later, heq, hlater⟩
    rcases List.eq_nil_or_concat later with rfl | ⟨later, u, rfl⟩
    · obtain ⟨-, h⟩ := List.append_inj' heq rfl
      exact Or.inl (List.cons.inj h).1.symm
    · rw [List.concat_eq_append] at heq hlater
      rw [← List.cons_append, ← List.append_assoc] at heq
      obtain ⟨rfl, h⟩ := List.append_inj' heq rfl
      obtain rfl := (List.cons.inj h).1
      exact Or.inr ⟨⟨earlier, later, rfl, fun v hv => hlater v (List.mem_append_left _ hv)⟩,
        hlater t (by simp)⟩
  · rintro (rfl | ⟨⟨earlier, later, rfl, hlater⟩, hne⟩)
    · exact ⟨ts, [], rfl, fun _ h => nomatch h⟩
    · refine ⟨earlier, later ++ [t], by simp, ?_⟩
      intro v hv
      rcases List.mem_append.mp hv with hv | hv
      · exact hlater v hv
      · rw [List.mem_singleton.mp hv]
        exact hne

/-- **What the map has**: for each name the codes of the last part with it.  Induction on the parts
    read. -/
theorem foldlM_addToken {ts : List Text} : ∀ {map : List (String × List Int)},
    ts.foldlM addToken [] = .ok map → (keys map).Nodup ∧ ∀ m, m ∈ map ↔
      ∃ token, IsLast ts token ∧ m.1 = String.ofList (name token) ∧
        (entry token).2.mapM signed = .ok m.2 := by
  induction ts using List.reverseRecOn with
  | nil =>
    intro map h
    obtain rfl : [] = map := Except.ok.inj h
    refine ⟨List.nodup_nil, fun m => ⟨fun hm => (nomatch hm), ?_⟩⟩
    rintro ⟨token, ⟨earlier, later, h, -⟩, -⟩
    exact absurd h.symm (by simp)
  | append_singleton ts t ih =>
    intro map h
    rw [List.foldlM_append] at h
    obtain ⟨map₀, h₀, h⟩ := bind_eq_ok.mp h
    obtain ⟨hnodup, hmem⟩ := ih h₀
    obtain ⟨map₁, h₁, h⟩ := bind_eq_ok.mp h
    obtain rfl : map₁ = map := Except.ok.inj h
    obtain ⟨values, hvalues, h₁⟩ := bind_eq_ok.mp h₁
    obtain rfl : put map₀ (entry t).1 values = map₁ := Except.ok.inj h₁
    refine ⟨nodup_put hnodup, fun m => ?_⟩
    rw [mem_put hnodup, hmem, entry_fst]
    simp only [isLast_concat]
    constructor
    · rintro (rfl | ⟨⟨token, hlast, hname, hm⟩, hne⟩)
      · exact ⟨t, Or.inl rfl, rfl, hvalues⟩
      · refine ⟨token, Or.inr ⟨hlast, ?_⟩, hname, hm⟩
        rintro heq
        exact hne (by rw [hname, heq])
    · rintro ⟨token, rfl | ⟨hlast, hne⟩, hname, hm⟩
      · rw [hvalues] at hm
        exact Or.inl (Prod.ext hname (Except.ok.inj hm).symm)
      · refine Or.inr ⟨⟨token, hlast, hname, hm⟩, ?_⟩
        rw [hname]
        intro heq
        exact hne (String.ofList_injective heq).symm

theorem IsLast.mem {ts : List Text} {token : Text} : IsLast ts token → token ∈ ts := by
  rintro ⟨earlier, later, rfl, -⟩
  simp

/-- Every part read has numbers for its texts. -/
theorem values_of_foldlM : ∀ {ts : List Text} {map₀ map : List (String × List Int)},
    ts.foldlM addToken map₀ = .ok map →
    ∀ token ∈ ts, ∃ values, (entry token).2.mapM signed = .ok values
  | [], _, _, _, token, htoken => nomatch htoken
  | t :: ts, map₀, map, h, token, htoken => by
    rw [List.foldlM_cons] at h
    obtain ⟨map₁, h₁, h⟩ := bind_eq_ok.mp h
    obtain ⟨values, hvalues, -⟩ := bind_eq_ok.mp h₁
    rcases List.mem_cons.mp htoken with rfl | htoken
    · exact ⟨values, hvalues⟩
    · exact values_of_foldlM h token htoken

theorem mapM_eq_nil {texts : List Text} {values : List Int} (h : texts.mapM signed = .ok values) :
    values = [] ↔ texts = [] := by
  cases texts with
  | nil =>
    obtain rfl : [] = values := Except.ok.inj h
    simp
  | cons t texts =>
    rw [List.mapM_cons] at h
    obtain ⟨v, -, h⟩ := bind_eq_ok.mp h
    obtain ⟨vs, -, h⟩ := bind_eq_ok.mp h
    obtain rfl : v :: vs = values := Except.ok.inj h
    simp

/-- For each name, the last part with it lists a code. -/
def Coded (emap : Text) : Prop := ∀ token, IsLast (tokens emap) token → ListsCode token

theorem parse_ok {emap : Option Text} {map : List (String × List Int)}
    (h : parseExitCodeMap emap = .ok map) :
    (tokens (emap.getD "ok=42".toList)).foldlM addToken [] = .ok map := by
  unfold parseExitCodeMap at h
  dsimp only at h
  split at h
  · rename_i heq
    rw [heq]
    exact h
  · cases h

/-- Every name that `parse_exit_code_map` gives has a code just when it is so in the text. -/
theorem coded_iff {emap : Option Text} {map : List (String × List Int)}
    (h : parseExitCodeMap emap = .ok map) :
    (∀ m ∈ map, m.2 ≠ []) ↔ Coded (emap.getD "ok=42".toList) := by
  obtain ⟨-, hmem⟩ := foldlM_addToken (parse_ok h)
  constructor
  · intro hcodes token hlast
    obtain ⟨values, hvalues⟩ := values_of_foldlM (parse_ok h) token hlast.mem
    have hne := hcodes (String.ofList (name token), values)
      ((hmem _).mpr ⟨token, hlast, rfl, hvalues⟩)
    by_contra hnone
    exact hne ((mapM_eq_nil hvalues).mpr ((entry_nil_iff token).mpr hnone))
  · intro hcoded m hm hnil
    obtain ⟨token, hlast, -, hvalues⟩ := (hmem m).mp hm
    exact (entry_nil_iff token).mp ((mapM_eq_nil hvalues).mp hnil) (hcoded token hlast)

/-- The counts of a map whose names have codes are in the report. -/
theorem exitCodes_counts {db : Jobs} : ∀ {map : List (String × List Int)} {h : List (String × Nat)},
    (keys map).Nodup → (∀ m ∈ map, m.2 ≠ []) → ∃ h', exitCodes db map h = .ok h' ∧
      (∀ m ∈ map, h'.lookup m.1 = some (count (hasCode m.2) db)) ∧
      ∀ key ∉ keys map, h'.lookup key = h.lookup key
  | [], h, _, _ => ⟨h, rfl, fun _ hm => (nomatch hm), fun _ _ => rfl⟩
  | (which, codes) :: map, h, hnodup, hcodes => by
    obtain ⟨hnot, hnodup⟩ := List.nodup_cons.mp hnodup
    obtain ⟨h', hok, hcounts, hother⟩ := @exitCodes_counts db map
      (store h which (count (hasCode codes) db)) hnodup
      fun m hm => hcodes m (List.mem_cons_of_mem _ hm)
    refine ⟨h', ?_, ?_, ?_⟩
    · rw [exitCodes, if_neg (by simpa using hcodes _ List.mem_cons_self), hok]
    · intro m hm
      rcases List.mem_cons.mp hm with rfl | hm
      · rw [hother which hnot, lookup_store, if_pos rfl]
      · exact hcounts m hm
    · intro key hkey
      obtain ⟨hne, hkey⟩ := not_or.mp fun h => hkey (List.mem_cons.mpr h)
      rw [hother key hkey, lookup_store, if_neg hne]

/-- The map can be used: the statement of each name is one SQLite reads, it selects the finished
    rows with one of the codes, and the report has their number. -/
def Usable (map : List (String × List Int)) : Prop :=
  (∀ m ∈ map, ∃ e, readCount (lex (cString (codesSql (codeTexts m.2)))) = some e ∧
    e.resolves = true ∧ ∀ r, e.holds r = true ↔ ExitedWith m.2 r) ∧
  ∀ db : Jobs, ∃ stats, status map db = .ok stats ∧
    ∀ m ∈ map, stats.exitStatus.lookup m.1 = some (db.rows.countP fun r => ExitedWith m.2 r)

theorem usable_iff {map : List (String × List Int)} (hnodup : (keys map).Nodup) :
    Usable map ↔ ∀ m ∈ map, m.2 ≠ [] := by
  constructor
  · rintro ⟨hread, -⟩ m hm hnil
    obtain ⟨e, he, -⟩ := hread m hm
    rw [hnil, readCount_none] at he
    cases he
  · intro hcodes
    refine ⟨fun m hm => ?_, fun db => ?_⟩
    · obtain ⟨e, he, hresolves, hholds⟩ := readCount_codes (hcodes m hm)
      exact ⟨e, he, hresolves, fun r => by rw [hholds, hasCode_iff]⟩
    · obtain ⟨h', hok, hcounts, -⟩ := @exitCodes_counts db map
        (store (store [] "successes" (count isSuccess db)) "failures" (count isFailure db))
        hnodup hcodes
      refine ⟨⟨jobCounts db, h'⟩, ?_, fun m hm => ?_⟩
      · rw [status, hok]
        rfl
      · have hcongr : db.rows.countP (hasCode m.2) = db.rows.countP fun r => ExitedWith m.2 r := by
          refine List.countP_congr fun r _ => ?_
          rw [hasCode_iff, decide_eq_true_eq]
        rw [hcounts m hm, count, hcongr]

end RubyQueue.ExitCodes
