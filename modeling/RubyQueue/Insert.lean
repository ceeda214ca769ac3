/-
  What SQLite's tokenizer makes of the insert text of `submit`.

  `submit` joins `QDB.q` of the tuple's fields by commas.  `QDB.q` does not double every quote (see
  `Quote`), so that a value stays inside its literal is a matter of parity: the escape leaves every
  run of quotes even, and the quote that closes the literal is the odd one — unless the next
  character is a quote, and in the list it is a comma or the parenthesis.

  `lex_values` cuts the value list into its tokens, `insert_statement` gives the whole statement,
  and the types of its tokens depend on the empty fields only (`kinds_insertTokens`).
-/
import RubyQueue.Tokenize

namespace RubyQueue.Sqlite

open RubyQueue.Quote

/-! ## The tuple -/

/-- `QDB::FIELDS.size`. -/
def fieldCount : Nat := 18

/-- The tuple of one job: a value for each of the fields, none with a NUL. -/
structure Tuple where
  fields : List (Option Text)
  size_eq : fields.length = fieldCount
  no_nul : ∀ v, some v ∈ fields → '\x00' ∉ v

/-- A field `QDB.q` writes as `NULL`. -/
def isEmptyField : Option Text → Bool
  | some (_ :: _) => false
  | _ => true

/-! ## The tokens of the text -/

def commaToken : Token := ⟨.comma, [',']⟩

/-- The tokens of the insert statement with the given values. -/
def insertTokens (values : List Token) : List Token :=
  [⟨.keyword "INSERT", "insert".toList⟩, ⟨.keyword "INTO", "into".toList⟩,
   ⟨.id, "jobs".toList⟩, ⟨.keyword "VALUES", "values".toList⟩, ⟨.lp, ['(']⟩] ++
  (values.intersperse commaToken ++ [⟨.rp, [')']⟩])

theorem lex_insertHead (rest : Text) :
    lex (insertHead ++ rest) =
      [⟨.keyword "INSERT", "insert".toList⟩, ⟨.keyword "INTO", "into".toList⟩,
       ⟨.id, "jobs".toList⟩, ⟨.keyword "VALUES", "values".toList⟩, ⟨.lp, ['(']⟩] ++ lex rest := by
  show lex ('i' :: ("nsert".toList ++ ' ' :: ("into jobs values (".toList ++ rest))) = _
  rw [lex_word_space rfl rfl, keywordCode_insert]
  show _ :: lex ('i' :: ("nto".toList ++ ' ' :: ("jobs values (".toList ++ rest))) = _
  rw [lex_word_space rfl rfl, keywordCode_into]
  show _ :: _ :: lex ('j' :: ("obs".toList ++ ' ' :: ("values (".toList ++ rest))) = _
  rw [lex_word_space rfl rfl, keywordCode_jobs]
  show _ :: _ :: _ :: lex ('v' :: ("alues".toList ++ ' ' :: ("(".toList ++ rest))) = _
  rw [lex_word_space rfl rfl, keywordCode_values]
  show _ :: _ :: _ :: _ :: lex ('(' :: rest) = _
  rw [lex_lp]
  rfl

theorem lex_insertTail : lex insertTail = [⟨.rp, [')']⟩, ⟨.semi, [';']⟩] := by
  show lex (')' :: ';' :: ['\n']) = _
  rw [lex_rp, lex_semi, lex_space (.inr rfl)]
  rfl

/-- **The value list is its values with commas between them.** -/
theorem lex_values : ∀ fs : List (Option Text),
    lex (joinComma (fs.map q) ++ insertTail) =
      (fs.map valueToken).intersperse commaToken ++ lex insertTail
  | [] => rfl
  | [f] => lex_q f (@endsWord_cons ')' rfl _) (by decide)
  | f :: g :: fs => by
    have ih := lex_values (g :: fs)
    have hjoin : joinComma ((f :: g :: fs).map q) ++ insertTail =
        q f ++ ',' :: (joinComma ((g :: fs).map q) ++ insertTail) := by
      simp [joinComma]
    rw [hjoin, lex_q f (endsWord_cons rfl _) (by simp), lex_comma, ih]
    rfl

theorem lex_insertSql (fs : List (Option Text)) :
    lex (insertSql fs) = insertTokens (fs.map valueToken) ++ [⟨.semi, [';']⟩] := by
  unfold insertSql insertTokens
  rw [List.append_assoc, lex_insertHead, lex_values, lex_insertTail]
  simp

/-! ## The text ends where Ruby's string ends -/

theorem mem_pairQuotes {c : Char} {s : Text} : c ∈ pairQuotes s ↔ c ∈ s := by
  fun_induction pairQuotes s with
  | case1 s ih => simp [ih]
  | case2 s hs ih => simp [ih]
  | case3 d s hs1 hs2 ih => simp [ih]
  | case4 => rfl

theorem nul_not_mem_q {f : Option Text} (h : ∀ v, f = some v → '\x00' ∉ v) : '\x00' ∉ q f := by
  match f with
  | none => decide
  | some [] => decide
  | some (c :: s) =>
    intro hmem
    have hs : '\x00' ∈ escape (c :: s) '\'' '\'' := by
      simpa [q] using hmem
    rw [escape_quote] at hs
    exact h _ rfl (mem_pairQuotes.mp hs)

theorem mem_joinComma {c : Char} : ∀ {vs : List Text}, c ∈ joinComma vs → c ≠ ',' →
    ∃ v ∈ vs, c ∈ v
  | [], h, _ => nomatch h
  | [v], h, _ => ⟨v, List.mem_cons_self, h⟩
  | v :: w :: vs, h, hc => by
    rw [joinComma, List.mem_append, List.mem_cons] at h
    rcases h with h | h | h
    · exact ⟨v, List.mem_cons_self, h⟩
    · exact absurd h hc
    · obtain ⟨u, hu, hmem⟩ := mem_joinComma h hc
      exact ⟨u, List.mem_cons_of_mem _ hu, hmem⟩
    all_goals simp

theorem nul_not_mem_insertSql (t : Tuple) : '\x00' ∉ insertSql t.fields := by
  intro h
  rw [insertSql, List.mem_append, List.mem_append] at h
  rcases h with (h | h) | h
  · exact absurd h (by decide)
  · obtain ⟨v, hv, hmem⟩ := mem_joinComma h (by decide)
    obtain ⟨f, hf, rfl⟩ := List.mem_map.mp hv
    exact nul_not_mem_q (fun v hv => t.no_nul v (hv ▸ hf)) hmem
  · exact absurd h (by decide)

/-! ## One statement, one shape -/

/-- The type of a value's token. -/
def valueKind (empty : Bool) : Kind := if empty then .keyword "NULL" else .string

theorem valueToken_kind (f : Option Text) : (valueToken f).kind = valueKind (isEmptyField f) := by
  match f with
  | none => rfl
  | some [] => rfl
  | some (_ :: _) => rfl

theorem map_intersperse {α β : Type} (f : α → β) (sep : α) : ∀ l : List α,
    (l.intersperse sep).map f = (l.map f).intersperse (f sep)
  | [] => rfl
  | [_] => rfl
  | x :: y :: l => by
    rw [List.intersperse_cons_cons, List.map_cons, List.map_cons, map_intersperse f sep (y :: l)]
    rfl

theorem mem_intersperse {α : Type} {sep t : α} : ∀ {l : List α}, t ∈ l.intersperse sep →
    t ∈ l ∨ t = sep
  | [], h => .inl h
  | [_], h => .inl h
  | x :: y :: l, h => by
    rw [List.intersperse_cons_cons, List.mem_cons, List.mem_cons] at h
    rcases h with rfl | rfl | h
    · exact .inl List.mem_cons_self
    · exact .inr rfl
    · exact (mem_intersperse h).imp (List.mem_cons_of_mem _) id

/-- **The types of the tokens follow from which fields are empty.** -/
theorem kinds_insertTokens (fs : List (Option Text)) :
    (insertTokens (fs.map valueToken)).map Token.kind =
      [.keyword "INSERT", .keyword "INTO", .id, .keyword "VALUES", .lp] ++
        (((fs.map isEmptyField).map valueKind).intersperse .comma ++ [.rp]) := by
  have hkinds : (fs.map valueToken).map Token.kind = (fs.map isEmptyField).map valueKind := by
    rw [List.map_map, List.map_map]
    exact List.map_congr_left fun f _ => valueToken_kind f
  rw [insertTokens, List.map_append, List.map_append, map_intersperse, hkinds]
  rfl

theorem semi_not_mem_insertTokens (fs : List (Option Text)) :
    ∀ t ∈ insertTokens (fs.map valueToken), t.kind ≠ .semi := by
  intro t ht hsemi
  have hmem : t.kind ∈ _ := List.mem_map_of_mem ht
  rw [kinds_insertTokens, hsemi, List.mem_append, List.mem_append] at hmem
  rcases hmem with h | h | h
  · exact absurd h (by decide)
  · rcases mem_intersperse h with h | h
    · obtain ⟨b, -, hb⟩ := List.mem_map.mp h
      cases b <;> cases hb
    · cases h
  · exact absurd h (by decide)

theorem insert_statement (t : Tuple) :
    statements (insertSql t.fields) = [insertTokens (t.fields.map valueToken)] := by
  have hns := semi_not_mem_insertTokens t.fields
  unfold statements
  rw [cString_eq (nul_not_mem_insertSql t), lex_insertSql]
  exact split_statement rfl (fun u hu => hns u (List.mem_cons_of_mem _ hu))
    (fun u hu => by cases hu; rfl)

/-- **Quoted values never become SQL.**  The text is one insert statement with eighteen values
    between commas, each value the one token `QDB.q` has written for its field; texts with the same
    empty fields have the same structure. -/
theorem insert_structure (t : Tuple) :
    statements (insertSql t.fields) = [insertTokens (t.fields.map valueToken)] ∧
    (t.fields.map valueToken).length = 18 ∧
    (∀ v ∈ t.fields.map valueToken, v.kind = .string ∨ v.kind = .keyword "NULL") ∧
    ∀ u : Tuple, u.fields.map isEmptyField = t.fields.map isEmptyField →
      (statements (insertSql u.fields)).map (·.map Token.kind) =
        (statements (insertSql t.fields)).map (·.map Token.kind) := by
  refine ⟨insert_statement t, ?_, ?_, ?_⟩
  · rw [List.length_map]
    exact t.size_eq
  · intro v hv
    obtain ⟨f, -, rfl⟩ := List.mem_map.mp hv
    rw [valueToken_kind]
    cases isEmptyField f
    · exact .inl rfl
    · exact .inr rfl
  · intro u hu
    rw [insert_statement, insert_statement, List.map_singleton, List.map_singleton,
      kinds_insertTokens, kinds_insertTokens, hu]

/-- A tuple whose command is the given text. -/
def commandTuple (command : Text) (h : '\x00' ∉ command) : Tuple where
  fields := List.replicate 17 none ++ [some command]
  size_eq := rfl
  no_nul := by
    intro v hv
    obtain rfl : v = command := by simpa using hv
    exact h

/-- A command that tries to leave its literal has the structure of any other. -/
theorem insert_structure_injection :
    (commandTuple "a');drop table jobs;--".toList (by decide)).fields.map isEmptyField =
      (commandTuple "ls".toList (by decide)).fields.map isEmptyField ∧
    (statements (insertSql (commandTuple "a');drop table jobs;--".toList (by decide)).fields)).map
        (·.map Token.kind) =
      (statements (insertSql (commandTuple "ls".toList (by decide)).fields)).map
        (·.map Token.kind) :=
  ⟨rfl, (insert_structure (commandTuple "ls".toList (by decide))).2.2.2
    (commandTuple "a');drop table jobs;--".toList (by decide)) rfl⟩

end RubyQueue.Sqlite
