/-
  How a value gets into a statement and what comes back out of it: `Util.escape!`, `QDB.q` and
  SQL's string literals.

  `QDB.q` wraps each field in quotes after `Util.escape(f, "'", "'")`.  The escape is NOT plain
  doubling.  Its regex is `([\']*)'` — the bracket holds a backslash and a quote, and inside a
  bracket that is just an escaped quote — so one match is a whole run of quotes, and the block
  completes an odd run to an even one and leaves an even run alone:

      run of n quotes   ↦   n quotes (n even)   |   n + 1 quotes (n odd).

  Reading the literal back halves each run, so a run of n comes back as ⌈n / 2⌉ quotes:
  `readLiteral_escape` states the round trip with that loss (`halve`), and `halve_eq_self_iff` says
  when nothing is lost — exactly when no two quotes are adjacent.

  The text is a list of characters throughout; statements are read by the literal rule alone (a
  pair of quotes inside a literal is one quote, a lone quote ends it).
-/
import Mathlib.Data.List.Infix

namespace RubyQueue.Quote

/-- Ruby text. -/
abbrev Text := List Char

/-! ## `Util.escape!` -/

/-- The characters of a bracket expression: a backslash makes the next character literal. -/
def charClass : Text → Char → Bool
  | '\\' :: c :: cs, d => d == c || charClass cs d
  | c :: cs, d => d == c || charClass cs d
  | [], _ => false

/-- One match of `(cls*)char` at the head of the text: the group and the rest.  The class is tried
    first at every character and `char` only when that fails, as a backtracking matcher does. -/
def matchRun (cls : Char → Bool) (char : Char) : Text → Option (Text × Text)
  | [] => none
  | c :: s =>
    match (if cls c then matchRun cls char s else none) with
    | some (g, r) => some (c :: g, r)
    | none => if c = char then some ([], s) else none

/-- The block of the `gsub!`: complete the group to an odd length before `char`. -/
def escapeGroup (char esc : Char) (g : Text) : Text :=
  (if g.length % 2 = 0 then g ++ [esc] else g) ++ [char]

/-- `gsub!` of `(cls*)char` by the block, over at most `n` matches and characters. -/
def gsubRuns (cls : Char → Bool) (char esc : Char) : Nat → Text → Text
  | 0, s => s
  | _ + 1, [] => []
  | n + 1, c :: s =>
    match matchRun cls char (c :: s) with
    | some (g, r) => escapeGroup char esc g ++ gsubRuns cls char esc n r
    | none => c :: gsubRuns cls char esc n s

/-- `Util.escape s, char, esc`; the class is written `[#{ 0x5c.chr << esc }]`. -/
def escape (s : Text) (char esc : Char) : Text :=
  gsubRuns (charClass ['\\', esc]) char esc s.length s

/-! ## `QDB.q` and the statement text -/

/-- `QDB.q` of one field: a quoted literal, or `NULL` for nil and for the empty string. -/
def q (f : Option Text) : Text :=
  match f with
  | some (c :: s) => '\'' :: escape (c :: s) '\'' '\'' ++ ['\'']
  | _ => ['N', 'U', 'L', 'L']

/-- `values.join ','`. -/
def joinComma : List Text → Text
  | [] => []
  | [v] => v
  | v :: vs => v ++ ',' :: joinComma vs

/-- `insert into jobs values (…);` up to and after its value list. -/
def insertHead : Text := "insert into jobs values (".toList

def insertTail : Text := ");\n".toList

/-- The text `submit` executes for one tuple. -/
def insertSql (tuple : List (Option Text)) : Text :=
  insertHead ++ joinComma (tuple.map q) ++ insertTail

/-! ## Reading a statement -/

/-- The rest of a literal after its opening quote: its value, and the text after its closing
    quote. -/
def readLiteral : Text → Option (Text × Text)
  | '\'' :: '\'' :: s => (readLiteral s).map fun p => ('\'' :: p.1, p.2)
  | '\'' :: s => some ([], s)
  | c :: s => (readLiteral s).map fun p => (c :: p.1, p.2)
  | [] => none

/-- One value of a value list: a literal or `NULL`. -/
def readValue : Text → Option (Option Text × Text)
  | '\'' :: s => (readLiteral s).map fun p => (some p.1, p.2)
  | 'N' :: 'U' :: 'L' :: 'L' :: s => some (none, s)
  | _ => none

/-- A value list up to its closing parenthesis, at most `n` values. -/
def readValues : Nat → Text → Option (List (Option Text))
  | 0, _ => none
  | n + 1, s =>
    match readValue s with
    | some (v, ',' :: r) => (readValues n r).map (v :: ·)
    | some (v, ')' :: _) => some [v]
    | _ => none

/-- The values an insert statement stores. -/
def readInsert (sql : Text) : Option (List (Option Text)) :=
  if sql.take insertHead.length = insertHead then
    readValues sql.length (sql.drop insertHead.length)
  else none

/-- The characters `\s` stands for. -/
def isBlank (c : Char) : Bool := c.isWhitespace || c == '\x0c'

def isNameChar (c : Char) : Bool := c.isAlphanum || c == '_'

/-- The list `name=value, …` of an update statement, at most `n` assignments. -/
def readSet : Nat → Text → Option (List (Text × Option Text))
  | 0, _ => none
  | n + 1, s =>
    let s := s.dropWhile isBlank
    match s.dropWhile isNameChar with
    | '=' :: r =>
      match readValue r with
      | some (v, r) =>
        match r.dropWhile isBlank with
        | [] => some [(s.takeWhile isNameChar, v)]
        | ',' :: r => (readSet n r).map ((s.takeWhile isNameChar, v) :: ·)
        | _ => none
      | none => none
    | _ => none

/-- Assignments joined by a comma and `gap`. -/
def joinSet (gap : Text) : List (Text × Text) → Text
  | [] => []
  | [(name, v)] => name ++ '=' :: v
  | (name, v) :: kvs => name ++ '=' :: (v ++ ',' :: (gap ++ joinSet gap kvs))

/-! ## The escape, run by run -/

/-- What the escape does, read from the left: a pair of quotes is kept, a lone one is doubled. -/
def pairQuotes : Text → Text
  | '\'' :: '\'' :: s => '\'' :: '\'' :: pairQuotes s
  | '\'' :: s => '\'' :: '\'' :: pairQuotes s
  | c :: s => c :: pairQuotes s
  | [] => []

/-- What comes back: every pair of quotes has become one. -/
def halve : Text → Text
  | '\'' :: '\'' :: s => '\'' :: halve s
  | c :: s => c :: halve s
  | [] => []

/-- The bracket `[\']` is the class of the quote alone. -/
theorem charClass_quote (d : Char) : charClass ['\\', '\''] d = (d == '\'') := by
  simp [charClass]

/-- Every text is a run of quotes and a rest that does not start with one. -/
theorem exists_run (s : Text) :
    ∃ k t, s = List.replicate k '\'' ++ t ∧ t.head? ≠ some '\'' := by
  induction s with
  | nil => exact ⟨0, [], rfl, by simp⟩
  | cons c s ih =>
    by_cases hc : c = '\''
    · obtain ⟨k, t, hs, ht⟩ := ih
      refine ⟨k + 1, t, ?_, ht⟩
      rw [hc, hs, List.replicate_succ, List.cons_append]
    · exact ⟨0, c :: s, rfl, by simpa using hc⟩

theorem matchRun_none {t : Text} (ht : t.head? ≠ some '\'') :
    matchRun (charClass ['\\', '\'']) '\'' t = none := by
  cases t with
  | nil => rfl
  | cons c t =>
    have hc : c ≠ '\'' := by simpa using ht
    simp [matchRun, charClass_quote, hc]

/-- One match takes a whole run: all but its last quote in the group. -/
theorem matchRun_run {t : Text} (ht : t.head? ≠ some '\'') : ∀ k : Nat,
    matchRun (charClass ['\\', '\'']) '\'' (List.replicate (k + 1) '\'' ++ t)
      = some (List.replicate k '\'', t)
  | 0 => by simp [matchRun, charClass_quote, matchRun_none ht]
  | k + 1 => by
    have ih := matchRun_run ht k
    rw [List.replicate_succ, List.cons_append, matchRun, charClass_quote, ih]
    simp [List.replicate_succ]

theorem escapeGroup_run (k : Nat) :
    escapeGroup '\'' '\'' (List.replicate k '\'')
      = List.replicate (if k % 2 = 0 then k + 2 else k + 1) '\'' := by
  unfold escapeGroup
  rw [List.length_replicate]
  split
  · rw [← List.replicate_succ', ← List.replicate_succ']
  · rw [← List.replicate_succ']

theorem pairQuotes_cons {c : Char} (hc : c ≠ '\'') (s : Text) :
    pairQuotes (c :: s) = c :: pairQuotes s := by
  rw [pairQuotes]
  · exact fun s' h _ => hc h
  · exact hc

theorem pairQuotes_lone {t : Text} (ht : t.head? ≠ some '\'') :
    pairQuotes ('\'' :: t) = '\'' :: '\'' :: pairQuotes t := by
  rw [pairQuotes]
  rintro s rfl
  exact ht rfl

/-- The pair reading of a whole run: its length rounded up to even. -/
theorem pairQuotes_run {t : Text} (ht : t.head? ≠ some '\'') : ∀ k : Nat,
    pairQuotes (List.replicate (k + 1) '\'' ++ t)
      = List.replicate (if k % 2 = 0 then k + 2 else k + 1) '\'' ++ pairQuotes t
  | 0 => by simpa [List.replicate] using pairQuotes_lone ht
  | 1 => by simp [List.replicate, pairQuotes]
  | k + 2 => by
    have ih := pairQuotes_run ht k
    have hrun : List.replicate (k + 2 + 1) '\'' ++ t
        = '\'' :: '\'' :: (List.replicate (k + 1) '\'' ++ t) := by
      simp [List.replicate_succ]
    have hmod : (k + 2) % 2 = k % 2 := by omega
    rw [hrun, pairQuotes, ih, hmod]
    split <;> simp [List.replicate_succ]

/-- **`Util.escape` is the pair reading.**  Induction on the number of matches left: each match of
    the regex consumes one run of quotes, each mismatch one other character. -/
theorem gsubRuns_eq_pairQuotes : ∀ (n : Nat) (s : Text), s.length ≤ n →
    gsubRuns (charClass ['\\', '\'']) '\'' '\'' n s = pairQuotes s
  | 0, s, h => by
    obtain rfl : s = [] := List.length_eq_zero_iff.mp (Nat.le_zero.mp h)
    rfl
  | n + 1, [], _ => rfl
  | n + 1, c :: s, h => by
    by_cases hc : c = '\''
    · obtain ⟨k, t, hs, ht⟩ := exists_run s
      have hrun : c :: s = List.replicate (k + 1) '\'' ++ t := by
        rw [hc, hs, List.replicate_succ, List.cons_append]
      have hlen : t.length ≤ n := by
        have := congrArg List.length hrun
        simp only [List.length_cons, List.length_append, List.length_replicate] at this h
        omega
      rw [gsubRuns, hrun, matchRun_run ht]
      simp only
      rw [gsubRuns_eq_pairQuotes n t hlen, escapeGroup_run, pairQuotes_run ht]
    · have hlen : s.length ≤ n := by simpa using h
      rw [gsubRuns, matchRun_none (by simpa using hc)]
      simp only
      rw [gsubRuns_eq_pairQuotes n s hlen, pairQuotes_cons hc]

theorem escape_quote (s : Text) : escape s '\'' '\'' = pairQuotes s :=
  gsubRuns_eq_pairQuotes s.length s (Nat.le_refl _)

/-! ## Reading back -/

theorem readLiteral_cons {c : Char} (hc : c ≠ '\'') (s : Text) :
    readLiteral (c :: s) = (readLiteral s).map fun p => (c :: p.1, p.2) := by
  rw [readLiteral]
  · exact fun s' h _ => hc h
  · exact hc

theorem readLiteral_close {rest : Text} (hr : rest.head? ≠ some '\'') :
    readLiteral ('\'' :: rest) = some ([], rest) := by
  rw [readLiteral]
  rintro s rfl
  exact hr rfl

theorem halve_cons {c : Char} {s : Text} (h : ∀ t, c = '\'' → s ≠ '\'' :: t) :
    halve (c :: s) = c :: halve s := by
  rw [halve]
  exact fun t hc hs => h t hc hs

/-- Reading a quoted value gives it back with every pair of quotes become one.  The recursion is
    that of the pair reading. -/
theorem readLiteral_pairQuotes (s rest : Text) (hr : rest.head? ≠ some '\'') :
    readLiteral (pairQuotes s ++ '\'' :: rest) = some (halve s, rest) := by
  fun_induction pairQuotes s with
  | case1 s ih => simp [readLiteral, halve, ih]
  | case2 s hs ih =>
    rw [halve_cons (fun t _ ht => hs t ht)]
    simp [readLiteral, ih]
  | case3 c s hs1 hs2 ih =>
    have hc : c ≠ '\'' := fun h => hs2 h
    rw [halve_cons (fun t h _ => hc h), List.cons_append, readLiteral_cons hc, ih]
    rfl
  | case4 => simpa [halve] using readLiteral_close hr

/-- **The round trip of one field**, with what it loses. -/
theorem readLiteral_escape (s rest : Text) (hr : rest.head? ≠ some '\'') :
    readLiteral (escape s '\'' '\'' ++ '\'' :: rest) = some (halve s, rest) := by
  rw [escape_quote, readLiteral_pairQuotes s rest hr]

theorem length_halve_le (s : Text) : (halve s).length ≤ s.length := by
  fun_induction halve s with
  | case1 s ih => simp only [List.length_cons]; omega
  | case2 c s _ ih => simpa using ih
  | case3 => exact Nat.le_refl _

/-- **Nothing is lost exactly when no two quotes are adjacent.** -/
theorem halve_eq_self_iff (s : Text) : halve s = s ↔ ¬ ['\'', '\''] <:+: s := by
  fun_induction halve s with
  | case1 s ih =>
    constructor
    · intro h
      have hlen := congrArg List.length h
      have := length_halve_le s
      simp only [List.length_cons] at hlen
      omega
    · intro h
      exact absurd (List.prefix_append ['\'', '\''] s).isInfix h
  | case2 c s hs ih =>
    have hpre : ¬ ['\'', '\''] <+: c :: s := by
      rintro ⟨t, ht⟩
      simp only [List.cons_append, List.nil_append, List.cons.injEq] at ht
      exact hs t ht.1.symm ht.2.symm
    rw [List.infix_cons_iff, List.cons.injEq, not_or]
    simp only [true_and, ih]
    exact ⟨fun h => ⟨hpre, h⟩, fun h => h.2⟩
  | case3 => simp

/-! ## The value a column holds after an insert -/

/-- What is stored for a field `QDB.q` has quoted. -/
def stored : Option Text → Option Text
  | some (c :: s) => some (halve (c :: s))
  | _ => none

/-- A value is followed by the comma or parenthesis that ends it, so its last quotes are not read
    together with anything after it. -/
theorem readValue_q (f : Option Text) (rest : Text) (hr : rest.head? ≠ some '\'') :
    readValue (q f ++ rest) = some (stored f, rest) := by
  match f with
  | none => rfl
  | some [] => rfl
  | some (c :: s) =>
    have h := readLiteral_escape (c :: s) rest hr
    simp only [q, List.cons_append, List.append_assoc, List.nil_append, readValue]
    rw [h]
    rfl

theorem readValues_join : ∀ (fs : List (Option Text)) (n : Nat) (rest : Text), fs ≠ [] →
    fs.length ≤ n →
    readValues n (joinComma (fs.map q) ++ ')' :: rest) = some (fs.map stored)
  | [], _, _, h, _ => absurd rfl h
  | [f], 0, _, _, h => by simp at h
  | [f], n + 1, rest, _, _ => by
    rw [readValues, List.map_cons, List.map_nil, joinComma, readValue_q f _ (by simp)]
    simp
  | f :: g :: fs, 0, _, _, h => by simp at h
  | f :: g :: fs, n + 1, rest, _, h => by
    have ih := readValues_join (g :: fs) n rest (by simp) (by simpa using h)
    have htext : joinComma ((f :: g :: fs).map q) ++ ')' :: rest
        = q f ++ ',' :: (joinComma ((g :: fs).map q) ++ ')' :: rest) := by
      simp [joinComma]
    rw [htext, readValues, readValue_q f _ (by simp)]
    simp only [ih]
    rfl

theorem length_le_joinComma : ∀ fs : List (Option Text), fs.length ≤ (joinComma (fs.map q)).length
  | [] => Nat.le_refl 0
  | [f] => by
    rcases f with _ | _ | ⟨c, s⟩ <;> simp [joinComma, q]
  | f :: g :: fs => by
    have ih := length_le_joinComma (g :: fs)
    simp only [List.map_cons, joinComma, List.length_append, List.length_cons] at ih ⊢
    omega

/-- **The insert stores the tuple field by field**, whatever the fields hold: no value can end its
    literal early or run into the next one. -/
theorem readInsert_insertSql (tuple : List (Option Text)) (h : tuple ≠ []) :
    readInsert (insertSql tuple) = some (tuple.map stored) := by
  have hdrop : (insertSql tuple).drop insertHead.length = joinComma (tuple.map q) ++ insertTail := by
    rw [insertSql, List.append_assoc, List.drop_left]
  have htake : (insertSql tuple).take insertHead.length = insertHead := by
    rw [insertSql, List.append_assoc, List.take_left]
  have htail : insertTail = ')' :: [';', '\n'] := by decide
  have hlen : tuple.length ≤ (insertSql tuple).length := by
    have := length_le_joinComma tuple
    simp only [insertSql, List.length_append]
    omega
  rw [readInsert, if_pos htake, hdrop, htail]
  exact readValues_join tuple _ _ h hlen

/-- A field comes back as it was given exactly when it is non-empty text without two adjacent
    quotes. -/
theorem stored_eq_self_iff {v : Text} (hv : v ≠ []) :
    stored (some v) = some v ↔ ¬ ['\'', '\''] <:+: v := by
  cases v with
  | nil => exact absurd rfl hv
  | cons c s => simp only [stored, Option.some.injEq, halve_eq_self_iff]

/-! ## Assignment lists -/

/-- Text that reads as exactly one value, whatever follows it. -/
def ReadsAs (text : Text) (v : Option Text) : Prop :=
  ∀ rest : Text, rest.head? ≠ some '\'' → readValue (text ++ rest) = some (v, rest)

theorem readsAs_q (f : Option Text) : ReadsAs (q f) (stored f) := readValue_q f

theorem readsAs_null : ReadsAs ['N', 'U', 'L', 'L'] none := fun _ _ => rfl

/-- Every quote of the text is one of a pair: `Util.escape` has nothing to add. -/
def Paired (v : Text) : Prop := pairQuotes v = v

instance (v : Text) : Decidable (Paired v) := inferInstanceAs (Decidable (pairQuotes v = v))

/-- Such a value, put between quotes as it stands, ends where it was meant to. -/
theorem readsAs_paired {v : Text} (hv : Paired v) :
    ReadsAs ('\'' :: (v ++ ['\''])) (some (halve v)) := by
  intro rest hr
  have h := readLiteral_pairQuotes v rest hr
  rw [hv] at h
  simp only [List.cons_append, List.append_assoc, List.nil_append, readValue]
  rw [h]
  rfl

theorem paired_of_not_mem {v : Text} (hv : '\'' ∉ v) : Paired v := by
  unfold Paired
  induction v with
  | nil => rfl
  | cons c v ih =>
    have hc : c ≠ '\'' := fun h => hv (h ▸ List.mem_cons_self)
    rw [pairQuotes_cons hc, ih fun h => hv (List.mem_cons_of_mem _ h)]

/-- It comes back as it was exactly when it has no quotes at all. -/
theorem Paired.halve_eq_self_iff {v : Text} (hv : Paired v) : halve v = v ↔ '\'' ∉ v := by
  constructor
  · intro h hmem
    -- the pair reading keeps the text, so a quote in it has another quote beside it
    have hno := (Quote.halve_eq_self_iff v).mp h
    unfold Paired at hv
    clear h
    fun_induction pairQuotes v with
    | case1 s ih => exact hno (List.prefix_append ['\'', '\''] s).isInfix
    | case2 s hs ih =>
      exact hs _ (List.cons.inj hv).2.symm
    | case3 c s hs1 hs2 ih =>
      have hc : '\'' ∈ s := by
        rcases List.mem_cons.mp hmem with hc | hc
        · exact absurd hc.symm hs2
        · exact hc
      exact ih (List.cons.inj hv).2 hc fun hin => hno (List.infix_cons hin)
    | case4 => cases hmem
  · rintro hmem
    refine (Quote.halve_eq_self_iff v).mpr ?_
    rintro ⟨s, t, rfl⟩
    exact hmem (by simp)

theorem isBlank_of_isNameChar {c : Char} (h : isNameChar c = true) : isBlank c = false := by
  rw [Bool.eq_false_iff]
  intro hb
  have hc : (((c = ' ' ∨ c = '\t') ∨ c = '\r') ∨ c = '\n') ∨ c = '\x0c' := by
    simpa only [isBlank, Char.isWhitespace, Bool.or_eq_true, decide_eq_true_eq, beq_iff_eq] using hb
  rcases hc with (((rfl | rfl) | rfl) | rfl) | rfl <;> revert h <;> decide

theorem isBlank_of_isDigit {c : Char} (h : c.isDigit = true) : isBlank c = false := by
  apply isBlank_of_isNameChar
  unfold isNameChar Char.isAlphanum
  rw [h, Bool.or_true, Bool.true_or]

theorem dropWhile_blanks {gap s : Text} (hg : ∀ c ∈ gap, isBlank c = true)
    (hs : ∀ c ∈ s.head?, isBlank c = false) : (gap ++ s).dropWhile isBlank = s := by
  rw [List.dropWhile_append_of_pos hg]
  cases s with
  | nil => rfl
  | cons c s => simp [hs c (by simp)]

/-- **An assignment list reads back assignment by assignment.** -/
theorem readSet_joinSet {gap : Text} (hg : ∀ c ∈ gap, isBlank c = true) :
    ∀ (kvs : List (Text × Text × Option Text)) (n : Nat) (lead : Text),
      (∀ c ∈ lead, isBlank c = true) →
      (∀ kv ∈ kvs, kv.1 ≠ [] ∧ (∀ c ∈ kv.1, isNameChar c = true) ∧ ReadsAs kv.2.1 kv.2.2) →
      kvs ≠ [] → kvs.length ≤ n →
      readSet n (lead ++ joinSet gap (kvs.map fun kv => (kv.1, kv.2.1)))
        = some (kvs.map fun kv => (kv.1, kv.2.2))
  | [], _, _, _, _, h, _ => absurd rfl h
  | _ :: _, 0, _, _, _, _, h => by simp at h
  | (name, text, v) :: kvs, n + 1, lead, hl, hk, _, hn => by
    obtain ⟨hne, hname, hv⟩ := hk _ List.mem_cons_self
    obtain ⟨c, name', rfl⟩ := List.exists_cons_of_ne_nil hne
    -- the name is all there is before the `=`
    have hlead : ∀ s : Text, (lead ++ (c :: name' ++ '=' :: s)).dropWhile isBlank
        = c :: name' ++ '=' :: s := by
      intro s
      refine dropWhile_blanks hl ?_
      intro d hd
      obtain rfl : c = d := by simpa using hd
      exact isBlank_of_isNameChar (hname c List.mem_cons_self)
    have hdrop : ∀ s : Text, (c :: name' ++ '=' :: s).dropWhile isNameChar = '=' :: s := by
      intro s
      rw [List.dropWhile_append_of_pos hname]
      rfl
    have htake : ∀ s : Text, (c :: name' ++ '=' :: s).takeWhile isNameChar = c :: name' := by
      intro s
      rw [List.takeWhile_append_of_pos hname, List.takeWhile_cons_of_neg (by decide),
        List.append_nil]
    cases kvs with
    | nil =>
      have hval : readValue text = some (v, []) := by simpa using hv [] (by simp)
      simp only [List.map_cons, List.map_nil, joinSet, readSet, hlead, hdrop, htake, hval]
      rfl
    | cons kv kvs =>
      have ih := readSet_joinSet hg (kv :: kvs) n gap hg
        (fun kv' h => hk kv' (List.mem_cons_of_mem _ h)) (by simp) (by simpa using hn)
      rw [List.map_cons] at ih
      simp only [List.map_cons, joinSet, readSet, hlead, hdrop, htake]
      rw [hv _ (by simp)]
      have hcomma : ∀ s : Text, (',' :: s).dropWhile isBlank = ',' :: s := fun s => rfl
      simp only [hcomma, ih]
      rfl

example : q (some "echo ''".toList) = "'echo '''".toList := by decide
example : readInsert (insertSql [some "it's".toList, none]) = some [some "it's".toList, none] := by
  decide

end RubyQueue.Quote
