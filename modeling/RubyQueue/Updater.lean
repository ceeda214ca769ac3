/-
  The arguments of `rq update`, as `Updater#update` reads them.

  Three patterns are tried in turn: a job id, the word `pending` or `holding`, and `key=value`.  The
  first two are anchored at a LINE of the argument; the third at the end of a line only, so that it
  matches anywhere: of `x command=date` it takes `command=date`, and `command=sort a` it refuses.

  `meaning` is the documented reading of one argument, and `update_faithful_iff` says for which
  argument vectors the three patterns come to that.
-/
import RubyQueue.Listing
import RubyQueue.Stamptime

namespace RubyQueue.Updater

open RubyQueue.Sqlite RubyQueue.Quote RubyQueue.JobQueue RubyQueue.Listing RubyQueue.Raise
open RubyQueue.Integer (integer ReadsDecimal integer_eq_iff)
open RubyQueue.Stamptime (endsLine)

/-! ## The patterns -/

/-- `(?:jid\s*=\s*)?`. -/
def skipJid (s : Text) : Text :=
  if s.take 3 = "jid".toList then
    match (s.drop 3).dropWhile isBlank with
    | '=' :: rest => rest.dropWhile isBlank
    | _ => s
  else s

/-- `\d+\s*$`. -/
def digitsToEnd (s : Text) : Bool :=
  !(s.takeWhile Char.isDigit).isEmpty && endsLine (s.dropWhile Char.isDigit)

/-- `arg =~ %r/^\s*(?:jid\s*=\s*)?\d+\s*$/`. -/
def isJid (arg : Text) : Bool :=
  (Stamptime.lineStarts arg).any fun s => digitsToEnd (skipJid (s.dropWhile isBlank))

/-- `elem[%r/\d+/]`. -/
def firstDigits (elem : Text) : Text :=
  (elem.dropWhile fun c => !c.isDigit).takeWhile Char.isDigit

/-- `(?:p(?:ending)|h(?:olding))\s*$`. -/
def wordToEnd (s : Text) : Bool :=
  (s.take 7 == "pending".toList || s.take 7 == "holding".toList) && endsLine (s.drop 7)

/-- `arg =~ %r/^\s*(?:p(?:ending)|h(?:olding))\s*$/`. -/
def isWord (arg : Text) : Bool :=
  (Stamptime.lineStarts arg).any fun s => wordToEnd (s.dropWhile isBlank)

/-- `[^\s=]`. -/
def keyChar (c : Char) : Bool := !isBlank c && c != '='

/-- `\s*([^\s]*)\s*$`: the group.  All the blanks, and the word after them, up to the end of a line;
    or else nothing, before a newline among the blanks. -/
def matchValue (s : Text) : Option Text :=
  let word := s.dropWhile isBlank
  if endsLine (word.dropWhile (!isBlank ·)) then some (word.takeWhile (!isBlank ·))
  else if (s.takeWhile isBlank).contains '\n' then some []
  else none

/-- `\s*([^\s=]+)\s*=\s*([^\s]*)\s*$` from here on: the two groups. -/
def matchHere (s : Text) : Option (Text × Text) :=
  let s := s.dropWhile isBlank
  let k := s.takeWhile keyChar
  match k, (s.dropWhile keyChar).dropWhile isBlank with
  | [], _ => none
  | _, '=' :: rest => (matchValue rest).map fun v => (k, v)
  | _, _ => none

/-- `elem.match(keyeqpat)`: the first place where the pattern matches. -/
def keyeq (elem : Text) : Option (Text × Text) := elem.tails.findSome? matchHere

/-- `v =~ %r/^\s*(?:nil|null?)\s*$/io`, of a `v` without blanks. -/
def nilWord (v : Text) : Bool := ["nil", "nul", "null"].any fun w => v.map Char.toLower == w.toList

/-! ## The arguments -/

/-- The pairs of `kvs`. -/
abbrev Kvs := List (Text × Option Text)

/-- `kvs[k] = v`. -/
def setPair (kvs : Kvs) (kv : Text × Option Text) : Kvs :=
  if kvs.any (·.1 == kv.1) then kvs.map fun kv' => if kv'.1 = kv.1 then kv else kv'
  else kvs ++ [kv]

/-- The pair for the two groups. -/
def munge (m : Text × Text) : Text × Option Text :=
  (stripText m.1,
    if m.2.isEmpty then none
    else if nilWord (stripText m.2) then none
    else some (stripText m.2))

/-- An element of `jids`: an Integer, or a text, which is one of the two words for most arguments. -/
inductive Jid
  | number (n : Nat)
  | word (w : Text)
deriving DecidableEq, Repr

/-- `kvs.update "stdin" => job_stdin if job_stdin?`. -/
def given (jobStdin : Option Text) : Kvs :=
  match jobStdin with
  | some path => [("stdin".toList, some path)]
  | none => []

/-- `Updater#update`, as far as it scans `argv`. -/
def scanArgv (jobStdin : Option Text) (argv : List Text) : Except String (List Jid × Kvs) := do
  let numbers ← (argv.filter isJid).mapM fun elem => integer (firstDigits elem)
  let argv := argv.filter (!isJid ·)
  let words := (argv.filter isWord).map fun elem => (stripText elem).map Char.toLower
  let argv := argv.filter (!isWord ·)
  let kvs := (argv.filterMap keyeq).foldl (fun kvs m => setPair kvs (munge m)) (given jobStdin)
  let argv := argv.filter fun arg => (keyeq arg).isNone
  if argv.isEmpty then .ok (numbers.map .number ++ words.map .word, kvs)
  else .error ("don't know what to do with crap arguments <"
    ++ " ".intercalate (argv.map String.ofList) ++ ">")

/-- What a line of stdin adds to `jids`. -/
def stdinJid (line : Text) : Except String (List Jid) :=
  let line := strip line
  if allDigits (afterColon line) then (integer (afterColon line)).map fun n => [.number n]
  else if line.map Char.toLower = "pending".toList then .ok [.word "pending".toList]
  else if line.map Char.toLower = "holding".toList then .ok [.word "holding".toList]
  else .ok []

/-- What stdin adds, if there is one. -/
def readStdin (stdin : Option Text) : Except String (List Jid) :=
  (((stdin.map lines).getD []).mapM stdinJid).map List.flatten

/-- `jids << 'pending' << 'holding' if jids.empty?`. -/
def orWaiting (jids : List Jid) : List Jid :=
  if jids.isEmpty then ["pending", "holding"].map fun w => .word w.toList else jids

/-- `Updater#update`: what `@q.update` is called with. -/
def update (jobStdin : Option Text) (argv : List Text) (stdin : Option Text) :
    Except String (Kvs × List Jid) := do
  let (jids, kvs) ← scanArgv jobStdin argv
  let read ← readStdin stdin
  .ok (kvs, orWaiting (jids ++ read))

/-! ## What an argument means -/

/-- A job id, one of the two words, or a pair. -/
inductive Meaning
  | jid (n : Nat)
  | word (w : Text)
  | pair (k : Text) (v : Option Text)
deriving DecidableEq, Repr

/-- The documented value: nothing, `nil` and `null` are nil. -/
def orNil (v : Text) : Option Text := if v.isEmpty || nilWord v then none else some v

/-- **The documented reading**: `N` or `jid=N`, a word, or a pair that is split at its first `=`. -/
def meaning (arg : Text) : Option Meaning :=
  let k := strip (arg.takeWhile (· != '='))
  match arg.dropWhile (· != '=') with
  | [] =>
    if allDigits k then some (.jid (digitsValue k))
    else if k = "pending".toList ∨ k = "holding".toList then some (.word k)
    else none
  | _ :: v =>
    if k.isEmpty then none
    else if k = "jid".toList ∧ allDigits (strip v) then some (.jid (digitsValue (strip v)))
    else some (.pair k (orNil (strip v)))

/-- The number of a job id. -/
def numberOf (arg : Text) : Option Nat :=
  match meaning arg with
  | some (.jid n) => some n
  | _ => none

/-- The word of a word. -/
def wordOf (arg : Text) : Option Text :=
  match meaning arg with
  | some (.word w) => some w
  | _ => none

/-- `k=v` is among the arguments. -/
def HasPair (argv : List Text) (k : Text) (v : Option Text) : Prop :=
  ∃ arg ∈ argv, meaning arg = some (.pair k v)

/-- The arguments are read as documented, whatever `kvs` starts with and stdin adds: all the job ids
    and words are kept, the pairs are those of the arguments, and an argument that is none of these
    makes the command fail without a call of `@q.update`. -/
structure Faithful (argv : List Text) : Prop where
  accepts : (∀ arg ∈ argv, meaning arg ≠ none) →
    ∀ jobStdin stdin read, readStdin stdin = .ok read → ∃ kvs,
      update jobStdin argv stdin = .ok (kvs, orWaiting ((argv.filterMap numberOf).map .number
        ++ (argv.filterMap wordOf).map .word ++ read)) ∧
      ∀ k v, (k, v) ∈ kvs ↔
        HasPair argv k v ∨ ((k, v) ∈ given jobStdin ∧ ∀ v', ¬ HasPair argv k v')
  refuses : (∃ arg ∈ argv, meaning arg = none) →
    ∀ jobStdin stdin, ∃ e, update jobStdin argv stdin = .error e

/-- A text the patterns leave whole: no blanks in it, and nothing `String#strip` takes. -/
def Whole (s : Text) : Prop := (∀ c ∈ s, isBlank c = false) ∧ stripText s = s

/-- The patterns come to the meaning of this argument: the number of a job id is not octal, and a pair
    has no line that is a job id or a word, and a key and a value of one word each. -/
def Plain (arg : Text) : Prop :=
  match meaning arg with
  | some (.jid _) => ReadsDecimal (firstDigits arg)
  | some (.word _) => True
  | some (.pair k v) =>
    isJid arg = false ∧ isWord arg = false ∧ Whole k ∧ Whole (v.getD [])
  | none => False

/-- The patterns refuse this argument. -/
def Refused (arg : Text) : Prop :=
  if isJid arg then ∀ n, integer (firstDigits arg) ≠ .ok n
  else isWord arg = false ∧ keyeq arg = none

/-! ## Runs of characters -/

/-- Nothing but blanks. -/
def Blanks (s : Text) : Prop := ∀ c ∈ s, isBlank c = true

/-- A run goes as far as its characters do. -/
theorem takeWhile_run {p : Char → Bool} {w rest : Text} (hw : ∀ c ∈ w, p c = true)
    (hr : ∀ c ∈ rest.head?, p c = false) : (w ++ rest).takeWhile p = w := by
  rw [List.takeWhile_append_of_pos hw]
  cases rest with
  | nil => exact List.append_nil w
  | cons c rest => rw [List.takeWhile_cons_of_neg (by simp [hr c rfl]), List.append_nil]

theorem dropWhile_run {p : Char → Bool} {w rest : Text} (hw : ∀ c ∈ w, p c = true)
    (hr : ∀ c ∈ rest.head?, p c = false) : (w ++ rest).dropWhile p = rest := by
  rw [List.dropWhile_append_of_pos hw]
  cases rest with
  | nil => rfl
  | cons c rest => rw [List.dropWhile_cons_of_neg (by simp [hr c rfl])]

theorem dropWhile_all {p : Char → Bool} {w : Text} (hw : ∀ c ∈ w, p c = true) :
    w.dropWhile p = [] := List.dropWhile_eq_nil_iff.mpr hw

/-- Blanks before a `=`. -/
theorem dropWhile_equals {b : Text} (hb : Blanks b) (rest : Text) :
    (b ++ '=' :: rest).dropWhile isBlank = '=' :: rest := by
  apply dropWhile_run hb
  intro c hc
  obtain rfl : '=' = c := Option.some.inj hc
  decide

theorem not_isDigit_of_isBlank {c : Char} (h : isBlank c = true) : c.isDigit = false := by
  rw [Bool.eq_false_iff]
  intro hd
  rw [isBlank_of_isDigit hd] at h
  cases h

/-- What stands first in blanks is a blank. -/
theorem Blanks.head {b : Text} (hb : Blanks b) : ∀ c ∈ b.head?, isBlank c = true :=
  fun c hc => hb c (List.mem_of_mem_head? hc)

/-- A text is what `strip` leaves of it, between blanks. -/
theorem strip_spec (s : Text) : ∃ b b', s = b ++ (strip s ++ b') ∧ Blanks b ∧ Blanks b' := by
  refine ⟨s.takeWhile isBlank, (s.dropWhile isBlank).rtakeWhile isBlank, ?_,
    fun c hc => List.mem_takeWhile_imp hc, fun c hc => List.mem_rtakeWhile_imp hc⟩
  show s = s.takeWhile isBlank ++ ((s.dropWhile isBlank).rdropWhile isBlank ++ _)
  rw [List.rdropWhile_append_rtakeWhile, List.takeWhile_append_dropWhile]

theorem endsLine_of_blanks {b : Text} (hb : Blanks b) : endsLine b = true := by
  unfold endsLine
  rw [dropWhile_all hb]
  rfl

/-- Blanks around a text do not matter to `String#strip`, when there is something in it that stays. -/
theorem stripText_blanks {b m b' : Text} (hb : Blanks b) (hb' : Blanks b') (hm : m ≠ [])
    (hs : stripText m = m) : stripText (b ++ (m ++ b')) = m := by
  have hblank : ∀ c ∈ b, (isBlank c || c == '\x0b') = true := fun c hc => by rw [hb c hc]; rfl
  have hblank' : ∀ c ∈ b'.reverse, (isBlank c || c == '\x0b' || c == '\x00') = true :=
    fun c hc => by rw [hb' c (List.mem_reverse.mp hc)]; rfl
  have hdrop := dropWhile_of_stripText hs
  obtain ⟨c, m, rfl⟩ := List.exists_cons_of_ne_nil hm
  have hc : ¬ (isBlank c || c == '\x0b') = true :=
    List.dropWhile_eq_self_iff.mp hdrop (Nat.succ_pos _)
  have hlast := hs
  unfold stripText at hlast
  rw [hdrop] at hlast
  have hfirst : (c :: (m ++ b')).dropWhile (fun c => isBlank c || c == '\x0b') = c :: m ++ b' :=
    List.dropWhile_cons_of_neg hc
  unfold stripText
  rw [List.dropWhile_append_of_pos hblank, List.cons_append, hfirst, List.rdropWhile,
    List.reverse_append, List.dropWhile_append_of_pos hblank']
  exact hlast

/-! ## What has a meaning -/

/-- The shapes of an argument with a meaning. -/
theorem of_meaning {arg : Text} {m : Meaning} (h : meaning arg = some m) :
    (∃ b w b', arg = b ++ (w ++ b') ∧ Blanks b ∧ Blanks b' ∧
      ((allDigits w = true ∧ m = .jid (digitsValue w)) ∨
        (w = "pending".toList ∨ w = "holding".toList) ∧ m = .word w)) ∨
    ∃ b k b₁ b₂ v b', arg = b ++ (k ++ (b₁ ++ '=' :: (b₂ ++ (v ++ b')))) ∧
      (Blanks b ∧ Blanks b₁ ∧ Blanks b₂ ∧ Blanks b') ∧ k ≠ [] ∧ '=' ∉ k ∧
      ((k = "jid".toList ∧ allDigits v = true ∧ m = .jid (digitsValue v)) ∨
        m = .pair k (orNil v)) := by
  have harg : arg.takeWhile (· != '=') ++ arg.dropWhile (· != '=') = arg :=
    List.takeWhile_append_dropWhile
  obtain ⟨b, b₁, hk, hb, hb₁⟩ := strip_spec (arg.takeWhile (· != '='))
  unfold meaning at h
  simp only at h
  split at h
  · rename_i hnone
    rw [hnone, List.append_nil] at harg
    rw [harg] at hk h
    left
    refine ⟨b, strip arg, b₁, hk, hb, hb₁, ?_⟩
    split at h
    · rename_i hdigits
      exact Or.inl ⟨hdigits, (Option.some.inj h).symm⟩
    split at h
    · rename_i hword
      exact Or.inr ⟨hword, (Option.some.inj h).symm⟩
    · cases h
  · rename_i c v hv
    obtain ⟨b₂, b', hv', hb₂, hb'⟩ := strip_spec v
    obtain rfl : c = '=' := by
      have hne : arg.dropWhile (· != '=') ≠ [] := by
        rw [hv]
        exact List.cons_ne_nil c v
      have hhead := List.head_dropWhile_not (· != '=') hne
      simp only [hv, List.head_cons] at hhead
      simpa using hhead
    right
    refine ⟨b, strip (arg.takeWhile (· != '=')), b₁, b₂, strip v, b', ?_, ⟨hb, hb₁, hb₂, hb'⟩, ?_⟩
    · calc arg = arg.takeWhile (· != '=') ++ '=' :: v := by rw [← hv, harg]
        _ = b ++ (strip (arg.takeWhile (· != '=')) ++ b₁) ++ '=' :: v := by rw [← hk]
        _ = b ++ (strip (arg.takeWhile (· != '=')) ++ b₁) ++ '=' :: (b₂ ++ (strip v ++ b')) := by
          rw [← hv']
        _ = _ := by simp only [List.append_assoc]
    have heq : '=' ∉ strip (arg.takeWhile (· != '=')) := by
      intro hmem
      have hmem : '=' ∈ arg.takeWhile (· != '=') := by
        rw [hk]
        exact List.mem_append_right b (List.mem_append_left b₁ hmem)
      exact absurd (List.mem_takeWhile_imp hmem) (by decide)
    split at h
    · cases h
    rename_i hne
    refine ⟨by simpa using hne, heq, ?_⟩
    split at h
    · rename_i hjid
      exact Or.inl ⟨hjid.1, hjid.2, (Option.some.inj h).symm⟩
    · exact Or.inr (Option.some.inj h).symm

/-! ## Job ids and words -/

/-- Digits before the end of a line, and what is before them. -/
theorem allDigits_run {w b' : Text} (hw : allDigits w = true) (hb' : Blanks b') :
    (∀ c ∈ (w ++ b').head?, c.isDigit = true) ∧ (w ++ b').takeWhile Char.isDigit = w ∧
      digitsToEnd (w ++ b') = true := by
  obtain ⟨hne, hall⟩ := Bool.and_eq_true_iff.mp hw
  have hdigits := List.all_eq_true.mp hall
  have hstop : ∀ c ∈ b'.head?, c.isDigit = false := fun c hc => not_isDigit_of_isBlank (hb'.head c hc)
  have htake : (w ++ b').takeWhile Char.isDigit = w := takeWhile_run hdigits hstop
  refine ⟨?_, htake, ?_⟩
  · intro c hc
    rw [List.head?_append_of_ne_nil w (by simpa using hne)] at hc
    exact hdigits c (List.mem_of_mem_head? hc)
  · unfold digitsToEnd
    rw [htake, dropWhile_run hdigits hstop, endsLine_of_blanks hb', hne]
    rfl

theorem isJid_of_digitsToEnd {arg : Text} (h : digitsToEnd (skipJid (arg.dropWhile isBlank)) = true) :
    isJid arg = true := List.any_eq_true.mpr ⟨arg, List.mem_cons_self, h⟩

/-- A number. -/
theorem isJid_number {b w b' : Text} (hb : Blanks b) (hb' : Blanks b') (hw : allDigits w = true) :
    isJid (b ++ (w ++ b')) = true ∧ firstDigits (b ++ (w ++ b')) = w := by
  obtain ⟨hhead, htake, hend⟩ := @allDigits_run _ _ hw hb'
  constructor
  · apply isJid_of_digitsToEnd
    rw [dropWhile_run hb fun c hc => isBlank_of_isDigit (hhead c hc)]
    have hj : (w ++ b').take 3 ≠ "jid".toList := by
      intro hj
      have hmem : 'j' ∈ (w ++ b').head? := by
        have hfirst := congrArg List.head? hj
        rw [List.head?_take, if_neg (by decide)] at hfirst
        rw [hfirst]
        rfl
      exact absurd (hhead 'j' hmem) (by decide)
    rw [skipJid, if_neg hj]
    exact hend
  · unfold firstDigits
    rw [dropWhile_run (fun c hc => by simp [not_isDigit_of_isBlank (hb c hc)])
      (fun c hc => by simp [hhead c hc])]
    exact htake

/-- A number after `jid =`. -/
theorem isJid_assigned {b b₁ b₂ w b' : Text} (hb : Blanks b) (hb₁ : Blanks b₁) (hb₂ : Blanks b₂)
    (hb' : Blanks b') (hw : allDigits w = true) :
    isJid (b ++ ("jid".toList ++ (b₁ ++ '=' :: (b₂ ++ (w ++ b'))))) = true ∧
      firstDigits (b ++ ("jid".toList ++ (b₁ ++ '=' :: (b₂ ++ (w ++ b'))))) = w := by
  obtain ⟨hhead, htake, hend⟩ := @allDigits_run _ _ hw hb'
  constructor
  · apply isJid_of_digitsToEnd
    have hj : ∀ c ∈ ("jid".toList ++ (b₁ ++ '=' :: (b₂ ++ (w ++ b')))).head?, isBlank c = false := by
      intro c hc
      obtain rfl : 'j' = c := Option.some.inj hc
      decide
    have hskip : skipJid ("jid".toList ++ (b₁ ++ '=' :: (b₂ ++ (w ++ b')))) = w ++ b' := by
      show (match (b₁ ++ '=' :: (b₂ ++ (w ++ b'))).dropWhile isBlank with
        | '=' :: rest => rest.dropWhile isBlank
        | _ => _) = w ++ b'
      rw [dropWhile_equals hb₁]
      exact dropWhile_run hb₂ fun c hc => isBlank_of_isDigit (hhead c hc)
    rw [dropWhile_run hb hj, hskip]
    exact hend
  · have hsplit : b ++ ("jid".toList ++ (b₁ ++ '=' :: (b₂ ++ (w ++ b'))))
        = (b ++ ("jid".toList ++ (b₁ ++ '=' :: b₂))) ++ (w ++ b') := by simp
    have hnone : ∀ c ∈ b ++ ("jid".toList ++ (b₁ ++ '=' :: b₂)), (!c.isDigit) = true := by
      intro c hc
      rw [List.mem_append, List.mem_append, List.mem_append, List.mem_cons] at hc
      rcases hc with hc | hc | hc | rfl | hc
      · rw [not_isDigit_of_isBlank (hb c hc)]
        rfl
      · have hletters : "jid".toList.all (fun c => !c.isDigit) = true := by decide
        exact List.all_eq_true.mp hletters c hc
      · rw [not_isDigit_of_isBlank (hb₁ c hc)]
        rfl
      · rfl
      · rw [not_isDigit_of_isBlank (hb₂ c hc)]
        rfl
    unfold firstDigits
    rw [hsplit, dropWhile_run hnone (fun c hc => by simp [hhead c hc])]
    exact htake

/-- **A job id** is recognised, and its digits are the first ones. -/
theorem isJid_of_meaning {arg : Text} {n : Nat} (h : meaning arg = some (.jid n)) :
    isJid arg = true ∧ allDigits (firstDigits arg) = true ∧ digitsValue (firstDigits arg) = n := by
  rcases of_meaning h with ⟨b, w, b', rfl, hb, hb', ⟨hw, hm⟩ | ⟨-, hm⟩⟩ |
    ⟨b, k, b₁, b₂, v, b', rfl, ⟨hb, hb₁, hb₂, hb'⟩, -, -, ⟨rfl, hv, hm⟩ | hm⟩
  · obtain ⟨hjid, hfirst⟩ := isJid_number hb hb' hw
    rw [hfirst]
    exact ⟨hjid, hw, (Meaning.jid.inj hm).symm⟩
  · cases hm
  · obtain ⟨hjid, hfirst⟩ := isJid_assigned hb hb₁ hb₂ hb' hv
    rw [hfirst]
    exact ⟨hjid, hv, (Meaning.jid.inj hm).symm⟩
  · cases hm

theorem mem_skipJid {c : Char} {s : Text} (h : c ∈ skipJid s) : c ∈ s := by
  unfold skipJid at h
  split at h
  · split at h
    · rename_i rest hrest
      have hmem : c ∈ (s.drop 3).dropWhile isBlank := by
        rw [hrest]
        exact List.mem_cons_of_mem _ ((List.dropWhile_sublist _).mem h)
      exact List.mem_of_mem_drop ((List.dropWhile_sublist _).mem hmem)
    · exact h
  · exact h

theorem suffix_of_mem_lineStarts {s l : Text} (h : l ∈ Stamptime.lineStarts s) : l <:+ s := by
  rcases List.mem_cons.mp h with rfl | h
  · exact List.suffix_refl l
  obtain ⟨t, ht, hl⟩ := List.mem_filterMap.mp h
  have hsuffix := (List.mem_tails t s).mp ht
  split at hl
  · obtain rfl := Option.some.inj hl
    exact (List.suffix_cons _ _).trans hsuffix
  · cases hl

/-- Without a digit there is no job id. -/
theorem digit_of_isJid {arg : Text} (h : isJid arg = true) : ∃ c ∈ arg, c.isDigit = true := by
  obtain ⟨l, hl, hdigits⟩ := List.any_eq_true.mp h
  obtain ⟨hne, -⟩ := Bool.and_eq_true_iff.mp hdigits
  obtain ⟨c, hc⟩ := List.exists_mem_of_ne_nil _
    (by simpa using hne : (skipJid (l.dropWhile isBlank)).takeWhile Char.isDigit ≠ [])
  refine ⟨c, ?_, List.mem_takeWhile_imp hc⟩
  have hmem := mem_skipJid ((List.takeWhile_sublist _).mem hc)
  exact (suffix_of_mem_lineStarts hl).mem ((List.dropWhile_sublist _).mem hmem)

/-- **A word** is recognised, and passed on as it is. -/
theorem isWord_of_meaning {arg w : Text} (h : meaning arg = some (.word w)) :
    isJid arg = false ∧ isWord arg = true ∧ (stripText arg).map Char.toLower = w := by
  rcases of_meaning h with ⟨b, w', b', rfl, hb, hb', ⟨-, hm⟩ | ⟨hw, hm⟩⟩ |
    ⟨b, k, b₁, b₂, v, b', rfl, -, -, -, ⟨-, -, hm⟩ | hm⟩
  · cases hm
  swap
  · cases hm
  swap
  · cases hm
  obtain rfl := Meaning.word.inj hm
  have hword : w ≠ [] ∧ stripText w = w ∧ w.map Char.toLower = w ∧ w.length = 7 ∧
      (w == "pending".toList || w == "holding".toList) = true ∧
      w.all (fun c => !c.isDigit) = true ∧ w.head?.all (fun c => !isBlank c) = true := by
    rcases hw with rfl | rfl <;> decide
  obtain ⟨hne, hstrip, hlower, hlen, heq, hdigit, hblank⟩ := hword
  refine ⟨?_, ?_, ?_⟩
  · rw [Bool.eq_false_iff]
    intro hjid
    obtain ⟨c, hc, hd⟩ := digit_of_isJid hjid
    rw [List.mem_append, List.mem_append] at hc
    have hnot : c.isDigit = false := by
      rcases hc with hc | hc | hc
      · exact not_isDigit_of_isBlank (hb c hc)
      · simpa using List.all_eq_true.mp hdigit c hc
      · exact not_isDigit_of_isBlank (hb' c hc)
    rw [hd] at hnot
    cases hnot
  · refine List.any_eq_true.mpr ⟨_, List.mem_cons_self, ?_⟩
    have hhead : ∀ c ∈ (w ++ b').head?, isBlank c = false := by
      intro c hc
      rw [List.head?_append_of_ne_nil w hne] at hc
      rw [Option.mem_def.mp hc] at hblank
      simpa using hblank
    rw [dropWhile_run hb hhead]
    unfold wordToEnd
    rw [← hlen, List.take_left, List.drop_left, heq, endsLine_of_blanks hb']
    rfl
  · rw [stripText_blanks hb hb' hne hstrip]
    exact hlower

/-! ## Pairs -/

/-- A text with nothing in it that `String#strip` takes. -/
theorem stripText_of_none {s : Text}
    (h : ∀ c ∈ s, (isBlank c || c == '\x0b' || c == '\x00') = false) : stripText s = s := by
  have hdrop : s.dropWhile (fun c => isBlank c || c == '\x0b') = s := by
    refine List.dropWhile_eq_self_iff.mpr fun hpos => ?_
    have hfirst := h _ (List.getElem_mem hpos)
    rw [(Bool.or_eq_false_iff.mp hfirst).1]
    exact Bool.false_ne_true
  unfold stripText
  rw [hdrop]
  refine List.rdropWhile_eq_self_iff.mpr fun hne => ?_
  rw [h _ (List.getLast_mem hne)]
  exact Bool.false_ne_true

/-- What is written `nil`, in any case, is one word. -/
theorem whole_of_nilWord {v : Text} (h : nilWord v = true) : Whole v := by
  have hnone : ∀ c ∈ v, (isBlank c || c == '\x0b' || c == '\x00') = false := by
    intro c hc
    rw [Bool.eq_false_iff]
    intro htaken
    have hall : [' ', '\t', '\r', '\n', '\x0c', '\x0b', '\x00'].all
        (fun c => c.toLower == c && !(['n', 'i', 'l', 'u'].contains c)) = true := by decide
    have hlower : c.toLower = c ∧ c ∉ ['n', 'i', 'l', 'u'] := by
      have hc := List.all_eq_true.mp hall c
        (by simpa [isBlank, Char.isWhitespace, or_assoc] using htaken)
      rw [Bool.and_eq_true, beq_iff_eq, Bool.not_eq_true', ← Bool.not_eq_true,
        List.contains_iff_mem] at hc
      exact hc
    obtain ⟨w, hw, heq⟩ := List.any_eq_true.mp h
    have hmem : c.toLower ∈ w.toList := (beq_iff_eq.mp heq) ▸ List.mem_map_of_mem hc
    have hletters : ["nil", "nul", "null"].all
        (fun w => w.toList.all fun c => ['n', 'i', 'l', 'u'].contains c) = true := by decide
    have hin := List.all_eq_true.mp (List.all_eq_true.mp hletters w hw) _ hmem
    rw [hlower.1, List.contains_iff_mem] at hin
    exact hlower.2 hin
  refine ⟨fun c hc => ?_, stripText_of_none hnone⟩
  exact (Bool.or_eq_false_iff.mp (Bool.or_eq_false_iff.mp (hnone c hc)).1).1

/-- A value is whole when what it stands for is. -/
theorem whole_of_orNil {v : Text} (h : Whole ((orNil v).getD [])) : Whole v := by
  unfold orNil at h
  split at h
  · rename_i hnil
    rcases Bool.or_eq_true_iff.mp hnil with hempty | hnil
    · rw [List.isEmpty_iff.mp hempty]
      exact ⟨fun c hc => absurd hc List.not_mem_nil, rfl⟩
    · exact whole_of_nilWord hnil
  · exact h

theorem munge_whole {k v : Text} (hk : Whole k) (hv : Whole v) : munge (k, v) = (k, orNil v) := by
  unfold munge orNil
  rw [hk.2, hv.2]
  cases v.isEmpty <;> rfl

/-- A word before the end of a line. -/
theorem matchValue_whole {b v b' : Text} (hb : Blanks b) (hb' : Blanks b')
    (hv : ∀ c ∈ v, isBlank c = false) : matchValue (b ++ (v ++ b')) = some v := by
  have hend : ∀ s : Text, (b ++ (v ++ b')).dropWhile isBlank = v ++ s → Blanks s →
      matchValue (b ++ (v ++ b')) = some v := by
    intro s hs hblank
    have hword : ∀ c ∈ v, (!isBlank c) = true := fun c hc => by simp [hv c hc]
    have hstop : ∀ c ∈ s.head?, (!isBlank c) = false := fun c hc => by simp [hblank.head c hc]
    unfold matchValue
    simp only
    rw [hs, dropWhile_run hword hstop, takeWhile_run hword hstop, endsLine_of_blanks hblank, if_pos rfl]
  cases v with
  | nil =>
    -- no word: all the blanks are one run
    refine hend [] (dropWhile_all ?_) fun c hc => absurd hc List.not_mem_nil
    intro c hc
    exact (List.mem_append.mp hc).elim (hb c) (hb' c)
  | cons c v =>
    refine hend b' (dropWhile_run hb ?_) hb'
    intro d hd
    obtain rfl : c = d := Option.some.inj hd
    exact hv c List.mem_cons_self

theorem keyeq_of_matchHere {s : Text} {m : Text × Text} (h : matchHere s = some m) :
    keyeq s = some m := by
  unfold keyeq
  cases s with
  | nil => cases h
  | cons c s => rw [List.tails_cons, List.findSome?_cons, h]

/-- **A pair** of a key and a value of one word each is matched from its start to its end. -/
theorem keyeq_of_meaning {arg k : Text} {v : Option Text} (h : meaning arg = some (.pair k v))
    (hk : Whole k) (hv : Whole (v.getD [])) : (keyeq arg).map munge = some (k, v) := by
  rcases of_meaning h with ⟨b, w, b', -, -, -, ⟨-, hm⟩ | ⟨-, hm⟩⟩ |
    ⟨b, k', b₁, b₂, v', b', rfl, ⟨hb, hb₁, hb₂, hb'⟩, hne, heq, ⟨-, -, hm⟩ | hm⟩
  · cases hm
  · cases hm
  · cases hm
  obtain ⟨rfl, rfl⟩ := Meaning.pair.inj hm
  have hv' := whole_of_orNil hv
  have hkey : ∀ c ∈ k, keyChar c = true := by
    intro c hc
    unfold keyChar
    rw [hk.1 c hc]
    have : c ≠ '=' := fun h => heq (h ▸ hc)
    simpa using this
  have hstop : ∀ c ∈ (b₁ ++ '=' :: (b₂ ++ (v' ++ b'))).head?, keyChar c = false := by
    intro c hc
    cases b₁ with
    | nil =>
      obtain rfl : '=' = c := Option.some.inj hc
      decide
    | cons d b₁ =>
      obtain rfl : d = c := Option.some.inj hc
      unfold keyChar
      rw [hb₁ d List.mem_cons_self]
      rfl
  have hmatch : matchHere (b ++ (k ++ (b₁ ++ '=' :: (b₂ ++ (v' ++ b'))))) = some (k, v') := by
    obtain ⟨c, k, rfl⟩ := List.exists_cons_of_ne_nil hne
    unfold matchHere
    simp only
    rw [dropWhile_run hb, takeWhile_run hkey hstop, dropWhile_run hkey hstop, dropWhile_equals hb₁]
    · show (matchValue (b₂ ++ (v' ++ b'))).map _ = _
      rw [matchValue_whole hb₂ hb' hv'.1]
      rfl
    · intro d hd
      obtain rfl : c = d := Option.some.inj hd
      exact hk.1 c List.mem_cons_self
  rw [keyeq_of_matchHere hmatch, Option.map_some, munge_whole hk hv']

/-- What `keyeq` matches is words. -/
theorem words_of_matchHere {s : Text} {m : Text × Text} (h : matchHere s = some m) :
    (∀ c ∈ m.1, isBlank c = false) ∧ ∀ c ∈ m.2, isBlank c = false := by
  unfold matchHere at h
  simp only at h
  split at h
  · cases h
  swap
  · cases h
  rename_i rest _ _
  obtain ⟨v, hv, rfl⟩ := Option.map_eq_some_iff.mp h
  constructor
  · intro c hc
    have hkey := List.mem_takeWhile_imp hc
    unfold keyChar at hkey
    simpa using (Bool.and_eq_true_iff.mp hkey).1
  · intro c hc
    unfold matchValue at hv
    simp only at hv
    split at hv
    · obtain rfl := Option.some.inj hv
      simpa using List.mem_takeWhile_imp hc
    split at hv
    · obtain rfl := Option.some.inj hv
      cases hc
    · cases hv

/-- So are a key and a value it gives. -/
theorem whole_of_keyeq {arg : Text} {m : Text × Text} (h : keyeq arg = some m) :
    Whole (munge m).1 ∧ Whole ((munge m).2.getD []) := by
  obtain ⟨s, -, hs⟩ := List.exists_of_findSome?_eq_some h
  obtain ⟨hk, hv⟩ := words_of_matchHere hs
  have hwhole : ∀ {t : Text}, (∀ c ∈ t, isBlank c = false) → Whole (stripText t) :=
    fun ht => ⟨fun c hc => ht c (mem_stripText hc), stripText_idem _⟩
  have hnil : Whole [] := ⟨fun c hc => absurd hc List.not_mem_nil, rfl⟩
  refine ⟨hwhole hk, ?_⟩
  unfold munge
  simp only
  split
  · exact hnil
  split
  · exact hnil
  · exact hwhole hv

/-! ## `kvs` -/

/-- A key has one value. -/
def Agree (kvs : Kvs) : Prop := ∀ k v v', (k, v) ∈ kvs → (k, v') ∈ kvs → v = v'

theorem mem_setPair {kvs : Kvs} {kv kv' : Text × Option Text} :
    kv' ∈ setPair kvs kv ↔ kv' = kv ∨ (kv' ∈ kvs ∧ kv'.1 ≠ kv.1) := by
  unfold setPair
  split
  · rename_i hany
    obtain ⟨old, hold, hkey⟩ := List.any_eq_true.mp hany
    rw [List.mem_map]
    constructor
    · rintro ⟨a, ha, heq⟩
      split at heq
      · exact Or.inl heq.symm
      · rename_i hne
        subst heq
        exact Or.inr ⟨ha, hne⟩
    · rintro (rfl | ⟨hmem, hne⟩)
      · exact ⟨old, hold, if_pos (beq_iff_eq.mp hkey)⟩
      · exact ⟨kv', hmem, if_neg hne⟩
  · rename_i hany
    rw [List.mem_append, List.mem_singleton]
    constructor
    · rintro (hmem | rfl)
      · refine Or.inr ⟨hmem, fun hkey => hany (List.any_eq_true.mpr ⟨kv', hmem, ?_⟩)⟩
        exact beq_iff_eq.mpr hkey
      · exact Or.inl rfl
    · rintro (rfl | ⟨hmem, -⟩)
      · exact Or.inr rfl
      · exact Or.inl hmem

/-- Every pair in the end is one that was set, or that was there. -/
theorem mem_of_mem_setPairs {kv : Text × Option Text} : ∀ {ps kvs : Kvs},
    kv ∈ ps.foldl setPair kvs → kv ∈ ps ∨ kv ∈ kvs
  | [], _, h => Or.inr h
  | p :: ps, kvs, h => by
    rcases @mem_of_mem_setPairs kv ps _ h with h | h
    · exact Or.inl (List.mem_cons_of_mem p h)
    rcases mem_setPair.mp h with rfl | ⟨h, -⟩
    · exact Or.inl List.mem_cons_self
    · exact Or.inr h

/-- Setting a pair replaces the one with its key. -/
theorem agree_setPairs : ∀ {ps kvs : Kvs}, Agree kvs → Agree (ps.foldl setPair kvs)
  | [], _, h => h
  | p :: ps, kvs, h => by
    refine @agree_setPairs ps (setPair kvs p) ?_
    intro k v v' hv hv'
    rcases mem_setPair.mp hv with heq | ⟨hv, hne⟩
    · rcases mem_setPair.mp hv' with heq' | ⟨-, hne'⟩
      · exact (Prod.mk.inj (heq.trans heq'.symm)).2
      · exact absurd (congrArg Prod.fst heq) hne'
    · rcases mem_setPair.mp hv' with heq' | ⟨hv', -⟩
      · exact absurd (congrArg Prod.fst heq') hne
      · exact h k v v' hv hv'

/-- **The pairs in the end**, when those that are set agree: they, and what was there under other
    keys.  Induction on the pairs. -/
theorem mem_setPairs {kv : Text × Option Text} : ∀ {ps kvs : Kvs}, Agree ps →
    (kv ∈ ps.foldl setPair kvs ↔ kv ∈ ps ∨ (kv ∈ kvs ∧ ∀ v, (kv.1, v) ∉ ps))
  | [], kvs, _ => by
    constructor
    · intro h
      exact Or.inr ⟨h, fun v hv => absurd hv List.not_mem_nil⟩
    · rintro (h | h)
      · cases h
      · exact h.1
  | p :: ps, kvs, hagree => by
    have hrest : Agree ps := fun k v v' hv hv' =>
      hagree k v v' (List.mem_cons_of_mem p hv) (List.mem_cons_of_mem p hv')
    rw [List.foldl_cons, mem_setPairs hrest, mem_setPair]
    constructor
    · rintro (h | ⟨rfl | ⟨h, hne⟩, hnone⟩)
      · exact Or.inl (List.mem_cons_of_mem p h)
      · exact Or.inl List.mem_cons_self
      · refine Or.inr ⟨h, fun v hv => ?_⟩
        rcases List.mem_cons.mp hv with heq | hv
        · have hkey := congrArg Prod.fst heq
          exact hne hkey
        · exact hnone v hv
    · rintro (h | ⟨h, hnone⟩)
      · rcases List.mem_cons.mp h with rfl | h
        · by_cases hlater : ∃ v, (kv.1, v) ∈ ps
          · -- set again later, to the same value
            obtain ⟨v, hv⟩ := hlater
            obtain rfl := hagree kv.1 v kv.2 (List.mem_cons_of_mem kv hv) List.mem_cons_self
            exact Or.inl hv
          · exact Or.inr ⟨Or.inl rfl, fun v hv => hlater ⟨v, hv⟩⟩
        · exact Or.inl h
      · refine Or.inr ⟨Or.inr ⟨h, fun hkey => hnone p.2 ?_⟩, fun v hv => hnone v ?_⟩
        · rw [hkey]
          exact List.mem_cons_self
        · exact List.mem_cons_of_mem p hv

/-! ## The scan -/

/-- The words the scan passes on. -/
def wordsOf (argv : List Text) : List Text :=
  ((argv.filter (!isJid ·)).filter isWord).map fun elem => (stripText elem).map Char.toLower

/-- The pairs it sets. -/
def pairsOf (argv : List Text) : Kvs :=
  (((argv.filter (!isJid ·)).filter (!isWord ·)).filterMap keyeq).map munge

theorem mem_pairsOf {argv : List Text} {kv : Text × Option Text} : kv ∈ pairsOf argv ↔
    ∃ arg ∈ argv, isJid arg = false ∧ isWord arg = false ∧ (keyeq arg).map munge = some kv := by
  unfold pairsOf
  constructor
  · intro h
    obtain ⟨m, hm, hkv⟩ := List.mem_map.mp h
    obtain ⟨arg, harg, hkey⟩ := List.mem_filterMap.mp hm
    obtain ⟨harg, hword⟩ := List.mem_filter.mp harg
    obtain ⟨harg, hjid⟩ := List.mem_filter.mp harg
    refine ⟨arg, harg, by simpa using hjid, by simpa using hword, ?_⟩
    rw [hkey, Option.map_some, hkv]
  · rintro ⟨arg, harg, hjid, hword, hkey⟩
    obtain ⟨m, hm, hkv⟩ := Option.map_eq_some_iff.mp hkey
    refine List.mem_map.mpr ⟨m, List.mem_filterMap.mpr ⟨arg, ?_, hm⟩, hkv⟩
    exact List.mem_filter.mpr ⟨List.mem_filter.mpr ⟨harg, by simp [hjid]⟩, by simp [hword]⟩

/-- **What the scan returns**, and when. -/
theorem scanArgv_ok_iff {jobStdin : Option Text} {argv : List Text} {r : List Jid × Kvs} :
    scanArgv jobStdin argv = .ok r ↔
      ∃ ns, (argv.filter isJid).mapM (fun elem => integer (firstDigits elem)) = .ok ns ∧
        (∀ arg ∈ argv, isJid arg = false → isWord arg = false → keyeq arg ≠ none) ∧
        r = (ns.map .number ++ (wordsOf argv).map .word,
          (pairsOf argv).foldl setPair (given jobStdin)) := by
  unfold scanArgv
  rw [bind_eq_ok]
  refine exists_congr fun ns => and_congr_right fun _ => ?_
  simp only
  have hempty : (((argv.filter (!isJid ·)).filter (!isWord ·)).filter
      fun arg => (keyeq arg).isNone).isEmpty = true ↔
      ∀ arg ∈ argv, isJid arg = false → isWord arg = false → keyeq arg ≠ none := by
    rw [List.isEmpty_iff, List.filter_eq_nil_iff]
    simp only [List.mem_filter, Bool.not_eq_true', and_imp, Option.isNone_iff_eq_none, ne_eq]
  rw [← hempty]
  split
  · rename_i h
    rw [show (pairsOf argv).foldl setPair (given jobStdin) = _ from List.foldl_map]
    constructor
    · intro hr
      exact ⟨h, (Except.ok.inj hr).symm⟩
    · rintro ⟨-, rfl⟩
      rfl
  · rename_i h
    constructor
    · intro hr
      cases hr
    · rintro ⟨h', -⟩
      exact absurd h' h

/-- **The scan fails** when one of the arguments is refused. -/
theorem scanArgv_total {jobStdin : Option Text} {argv : List Text} :
    (∃ r, scanArgv jobStdin argv = .ok r) ↔ ∀ arg ∈ argv, ¬ Refused arg := by
  have hsome : (∃ r, scanArgv jobStdin argv = .ok r) ↔
      (∃ ns, (argv.filter isJid).mapM (fun elem => integer (firstDigits elem)) = .ok ns) ∧
        ∀ arg ∈ argv, isJid arg = false → isWord arg = false → keyeq arg ≠ none := by
    simp only [scanArgv_ok_iff]
    constructor
    · rintro ⟨r, ns, hns, hall, -⟩
      exact ⟨⟨ns, hns⟩, hall⟩
    · rintro ⟨⟨ns, hns⟩, hall⟩
      exact ⟨_, ns, hns, hall, rfl⟩
  rw [hsome, mapM_ok_iff]
  constructor
  · rintro ⟨hjids, hall⟩ arg harg href
    unfold Refused at href
    split at href
    · rename_i hjid
      obtain ⟨n, hn⟩ := hjids arg (List.mem_filter.mpr ⟨harg, hjid⟩)
      exact href n hn
    · rename_i hjid
      exact hall arg harg (Bool.eq_false_iff.mpr hjid) href.1 href.2
  · intro hnot
    unfold Refused at hnot
    constructor
    · intro arg harg
      obtain ⟨harg, hjid⟩ := List.mem_filter.mp harg
      have h := hnot arg harg
      rw [if_pos hjid] at h
      exact not_forall_not.mp h
    · intro arg harg hjid hword hkey
      refine hnot arg harg ?_
      rw [if_neg (Bool.eq_false_iff.mp hjid)]
      exact ⟨hword, hkey⟩

theorem orWaiting_append_cons (js read : List Jid) (j : Jid) :
    orWaiting (js ++ j :: read) = js ++ j :: read := by
  cases js <;> rfl

/-- What reaches the queue. -/
theorem update_ok_iff {jobStdin : Option Text} {argv : List Text} {stdin : Option Text} {kvs : Kvs}
    {jids : List Jid} : update jobStdin argv stdin = .ok (kvs, jids) ↔
      ∃ js read, scanArgv jobStdin argv = .ok (js, kvs) ∧ readStdin stdin = .ok read ∧
        jids = orWaiting (js ++ read) := by
  unfold update
  rw [bind_eq_ok]
  constructor
  · rintro ⟨⟨js, kvs'⟩, hscan, h⟩
    obtain ⟨read, hread, h⟩ := bind_eq_ok.mp h
    obtain ⟨rfl, rfl⟩ := Prod.mk.inj (Except.ok.inj h)
    exact ⟨js, read, hscan, hread, rfl⟩
  · rintro ⟨js, read, hscan, hread, rfl⟩
    exact ⟨(js, kvs), hscan, bind_eq_ok.mpr ⟨read, hread, rfl⟩⟩

/-- Without stdin it is reached unless the scan fails. -/
theorem update_total {jobStdin : Option Text} {argv : List Text} :
    (∃ r, update jobStdin argv none = .ok r) ↔ ∃ r, scanArgv jobStdin argv = .ok r := by
  constructor
  · rintro ⟨⟨kvs, jids⟩, h⟩
    obtain ⟨js, -, hscan, -⟩ := update_ok_iff.mp h
    exact ⟨_, hscan⟩
  · rintro ⟨⟨js, kvs⟩, hscan⟩
    exact ⟨(kvs, _), update_ok_iff.mpr ⟨js, [], hscan, rfl, rfl⟩⟩

/-! ## When the arguments are read as documented -/

theorem numberOf_eq_some {arg : Text} {n : Nat} :
    numberOf arg = some n ↔ meaning arg = some (.jid n) := by
  unfold numberOf
  split
  · rename_i m hm
    rw [hm]
    simp
  · rename_i hnot
    constructor
    · intro h
      cases h
    · intro h
      exact absurd h (hnot n)

theorem wordOf_eq_some {arg w : Text} : wordOf arg = some w ↔ meaning arg = some (.word w) := by
  unfold wordOf
  split
  · rename_i m hm
    rw [hm]
    simp
  · rename_i hnot
    constructor
    · intro h
      cases h
    · intro h
      exact absurd h (hnot w)

/-- When as many elements pass a test as a partial map is defined on, and the test passes all of
    these, the map is defined on every element that passes. -/
theorem exists_of_length {α β : Type} {p : α → Bool} {f : α → Option β} {xs : List α}
    (hp : ∀ a b, f a = some b → p a = true)
    (hlen : (xs.filter p).length = (xs.filterMap f).length) :
    ∀ a ∈ xs, p a = true → ∃ b, f a = some b := by
  have hsub : (xs.filter p).filter (fun a => (f a).isSome) = xs.filter fun a => (f a).isSome := by
    rw [List.filter_filter]
    refine List.filter_congr fun a _ => ?_
    cases hf : f a with
    | none => rfl
    | some b => rw [hp a b hf]; rfl
  have hsome : ((xs.filter p).filter fun a => (f a).isSome).length = (xs.filter p).length := by
    rw [hsub, hlen, List.length_filterMap_eq_countP, List.countP_eq_length_filter]
  intro a ha hpa
  exact Option.isSome_iff_exists.mp
    (List.length_filter_eq_length_iff.mp hsome a (List.mem_filter.mpr ⟨ha, hpa⟩))

/-- A partial map that is defined where a test passes. -/
theorem filterMap_of_test {α β : Type} {p : α → Bool} {f : α → Option β} {g : α → β} :
    ∀ {xs : List α}, (∀ a ∈ xs, f a = if p a then some (g a) else none) →
      xs.filterMap f = (xs.filter p).map g
  | [], _ => rfl
  | a :: xs, h => by
    have ih := filterMap_of_test fun b hb => h b (List.mem_cons_of_mem a hb)
    have ha := h a List.mem_cons_self
    by_cases hp : p a = true
    · rw [if_pos hp] at ha
      rw [List.filterMap_cons_some ha, List.filter_cons_of_pos hp, List.map_cons, ih]
    · rw [if_neg hp] at ha
      rw [List.filterMap_cons_none ha, List.filter_cons_of_neg hp, ih]

/-- The numbers and the words of `jids` can be told apart. -/
theorem jids_inj {ns ns' : List Nat} {ws ws' : List Text}
    (h : ns.map Jid.number ++ ws.map Jid.word = ns'.map Jid.number ++ ws'.map Jid.word) :
    ns = ns' ∧ ws = ws' := by
  have hnumber := congrArg (List.filterMap fun j => match j with
    | Jid.number n => some n
    | Jid.word _ => none) h
  have hword := congrArg (List.filterMap fun j => match j with
    | Jid.number _ => none
    | Jid.word w => some w) h
  simp only [List.filterMap_append, List.filterMap_map, Function.comp_def, List.filterMap_some,
    List.filterMap_none, List.append_nil, List.nil_append] at hnumber hword
  exact ⟨hnumber, hword⟩

/-- The number of an argument, when the first pattern takes job ids only. -/
theorem numberOf_eq {arg : Text} (h : isJid arg = true → ∃ n, numberOf arg = some n) :
    numberOf arg = if isJid arg then some (digitsValue (firstDigits arg)) else none := by
  cases hn : numberOf arg with
  | none =>
    rw [if_neg]
    intro hjid
    obtain ⟨n, hn'⟩ := h hjid
    rw [hn] at hn'
    cases hn'
  | some n =>
    obtain ⟨hjid, -, hvalue⟩ := isJid_of_meaning (numberOf_eq_some.mp hn)
    rw [if_pos hjid, hvalue]

/-- **Plain arguments.**  The pattern that takes one is the one for its meaning. -/
theorem plain_cases {arg : Text} (h : Plain arg) :
    (∃ n, meaning arg = some (.jid n) ∧ isJid arg = true ∧ ReadsDecimal (firstDigits arg)) ∨
    (∃ w, meaning arg = some (.word w) ∧ isJid arg = false ∧ isWord arg = true) ∨
    ∃ k v, meaning arg = some (.pair k v) ∧ isJid arg = false ∧ isWord arg = false ∧
      (keyeq arg).map munge = some (k, v) := by
  unfold Plain at h
  cases hm : meaning arg with
  | none =>
    rw [hm] at h
    exact h.elim
  | some m =>
    rw [hm] at h
    cases m with
    | jid n => exact Or.inl ⟨n, rfl, (isJid_of_meaning hm).1, h⟩
    | word w =>
      obtain ⟨hjid, hword, -⟩ := isWord_of_meaning hm
      exact Or.inr (Or.inl ⟨w, rfl, hjid, hword⟩)
    | pair k v =>
      obtain ⟨hjid, hword, hk, hv⟩ := h
      exact Or.inr (Or.inr ⟨k, v, rfl, hjid, hword, keyeq_of_meaning hm hk hv⟩)

theorem numberOf_of_plain {arg : Text} (h : Plain arg) :
    numberOf arg = if isJid arg then some (digitsValue (firstDigits arg)) else none := by
  apply numberOf_eq
  intro hjid
  obtain ⟨n, hm, -⟩ | ⟨w, -, hnot, -⟩ | ⟨k, v, -, hnot, -⟩ := plain_cases h
  · exact ⟨n, numberOf_eq_some.mpr hm⟩
  · rw [hjid] at hnot
    cases hnot
  · rw [hjid] at hnot
    cases hnot

theorem wordOf_of_plain {arg : Text} (h : Plain arg) :
    wordOf arg = if isWord arg && !isJid arg then some ((stripText arg).map Char.toLower) else none := by
  unfold wordOf
  obtain ⟨n, hm, hjid, -⟩ | ⟨w, hm, hjid, hword⟩ | ⟨k, v, hm, -, hword, -⟩ := plain_cases h
  · rw [hm, hjid, Bool.not_true, Bool.and_false]
    rfl
  · rw [hm, hjid, hword, (isWord_of_meaning hm).2.2]
    rfl
  · rw [hm, hword]
    rfl

section Argv

variable {argv : List Text}

/-- The numbers the scan reads, when every job id is decimal. -/
theorem numbers_of_plain (h : ∀ arg ∈ argv, Plain arg) :
    (argv.filter isJid).mapM (fun elem => integer (firstDigits elem))
      = .ok (argv.filterMap numberOf) := by
  rw [filterMap_of_test fun arg harg => numberOf_of_plain (h arg harg), mapM_ok_map_iff]
  intro arg harg
  obtain ⟨harg, hjid⟩ := List.mem_filter.mp harg
  obtain ⟨n, hm, -, hdec⟩ | ⟨w, -, hnot, -⟩ | ⟨k, v, -, hnot, -⟩ := plain_cases (h arg harg)
  · exact (integer_eq_iff (isJid_of_meaning hm).2.1).mpr hdec
  · rw [hjid] at hnot
    cases hnot
  · rw [hjid] at hnot
    cases hnot

theorem words_of_plain (h : ∀ arg ∈ argv, Plain arg) : wordsOf argv = argv.filterMap wordOf := by
  rw [filterMap_of_test fun arg harg => wordOf_of_plain (h arg harg), wordsOf, List.filter_filter]

/-- The pair of a plain argument that the first two patterns leave. -/
theorem pair_of_plain {arg : Text} (h : Plain arg) (hjid : isJid arg = false)
    (hword : isWord arg = false) :
    ∃ k v, meaning arg = some (.pair k v) ∧ (keyeq arg).map munge = some (k, v) := by
  obtain ⟨n, -, hj, -⟩ | ⟨w, -, -, hw⟩ | ⟨k, v, hm, -, -, hkey⟩ := plain_cases h
  · rw [hjid] at hj
    cases hj
  · rw [hword] at hw
    cases hw
  · exact ⟨k, v, hm, hkey⟩

theorem mem_pairsOf_of_plain (h : ∀ arg ∈ argv, Plain arg) {k : Text} {v : Option Text} :
    (k, v) ∈ pairsOf argv ↔ HasPair argv k v := by
  rw [mem_pairsOf]
  constructor
  · rintro ⟨arg, harg, hjid, hword, hkey⟩
    obtain ⟨k', v', hm, hkey'⟩ := pair_of_plain (h arg harg) hjid hword
    obtain ⟨rfl, rfl⟩ := Prod.mk.inj (Option.some.inj (hkey.symm.trans hkey'))
    exact ⟨arg, harg, hm⟩
  · rintro ⟨arg, harg, hm⟩
    obtain ⟨n, hm', -⟩ | ⟨w, hm', -⟩ | ⟨k', v', hm', hjid, hword, hkey⟩ := plain_cases (h arg harg)
    · rw [hm] at hm'
      cases hm'
    · rw [hm] at hm'
      cases hm'
    · rw [hm] at hm'
      obtain ⟨rfl, rfl⟩ := Meaning.pair.inj (Option.some.inj hm')
      exact ⟨arg, harg, hjid, hword, hkey⟩

/-- Plain arguments are read as documented. -/
theorem faithful_of_plain (h : ∀ arg ∈ argv, Plain arg)
    (hagree : ∀ k v v', HasPair argv k v → HasPair argv k v' → v = v') : Faithful argv := by
  have hpairs : Agree (pairsOf argv) := fun k v v' hv hv' =>
    hagree k v v' ((mem_pairsOf_of_plain h).mp hv) ((mem_pairsOf_of_plain h).mp hv')
  constructor
  · intro _ jobStdin stdin read hread
    refine ⟨(pairsOf argv).foldl setPair (given jobStdin), update_ok_iff.mpr
      ⟨_, read, scanArgv_ok_iff.mpr ⟨_, numbers_of_plain h, ?_, rfl⟩, hread, ?_⟩, ?_⟩
    · intro arg harg hjid hword hnone
      obtain ⟨k, v, -, hkey⟩ := pair_of_plain (h arg harg) hjid hword
      rw [hnone] at hkey
      cases hkey
    · rw [words_of_plain h]
    · intro k v
      rw [mem_setPairs hpairs]
      simp only [mem_pairsOf_of_plain h]
  · rintro ⟨arg, harg, hnone⟩
    obtain ⟨n, hm, -⟩ | ⟨w, hm, -⟩ | ⟨k, v, hm, -⟩ := plain_cases (h arg harg)
    all_goals
      rw [hnone] at hm
      cases hm

/-- What the scan returns when it is what the arguments mean. -/
theorem plain_of_faithful (hall : ∀ arg ∈ argv, meaning arg ≠ none) (h : Faithful argv) :
    (∀ arg ∈ argv, Plain arg) ∧
      ∀ k v v', HasPair argv k v → HasPair argv k v' → v = v' := by
  -- with a jid on stdin the list is never empty, and nothing is added to it
  have hstdin : readStdin (some ['1']) = .ok [.number 1] := by decide
  obtain ⟨kvs, hupdate, hkvs⟩ := h.accepts hall none (some ['1']) [.number 1] hstdin
  obtain ⟨js, read, hscan, hread, hjids⟩ := update_ok_iff.mp hupdate
  obtain rfl : [Jid.number 1] = read := Except.ok.inj (hstdin.symm.trans hread)
  rw [orWaiting_append_cons, orWaiting_append_cons] at hjids
  obtain ⟨ns, hns, -, heq⟩ := scanArgv_ok_iff.mp hscan
  obtain ⟨rfl, rfl⟩ := Prod.mk.inj heq
  obtain ⟨rfl, hwords⟩ := jids_inj (List.append_cancel_right hjids)
  -- as many job ids and words as there are elements the two patterns take
  have hjid : ∀ arg ∈ argv, isJid arg = true → ∃ n, numberOf arg = some n := by
    refine exists_of_length (fun arg n hn => (isJid_of_meaning (numberOf_eq_some.mp hn)).1) ?_
    exact (forall₂_of_mapM_ok hns).length_eq
  have hword : ∀ arg ∈ argv, (isWord arg && !isJid arg) = true → ∃ w, wordOf arg = some w := by
    refine exists_of_length (fun arg w hw => ?_) ?_
    · obtain ⟨hj, hw, -⟩ := isWord_of_meaning (wordOf_eq_some.mp hw)
      rw [hj, hw]
      rfl
    · have hlen := congrArg List.length hwords
      rw [wordsOf, List.length_map, List.filter_filter] at hlen
      exact hlen.symm
  have hpair : ∀ {k v}, HasPair argv k v → (k, v) ∈ (pairsOf argv).foldl setPair [] :=
    fun hkv => (hkvs _ _).mpr (Or.inl hkv)
  refine ⟨fun arg harg => ?_, fun k v v' hv hv' => ?_⟩
  · unfold Plain
    cases hm : meaning arg with
    | none => exact hall arg harg hm
    | some m =>
      cases m with
      | jid n =>
        -- the number the scan has is the one the argument means
        obtain ⟨hj, hdigits, -⟩ := isJid_of_meaning hm
        rw [filterMap_of_test fun a ha => numberOf_eq (hjid a ha), mapM_ok_map_iff] at hns
        exact (integer_eq_iff hdigits).mp (hns arg (List.mem_filter.mpr ⟨harg, hj⟩))
      | word w => trivial
      | pair k v =>
        have hj : isJid arg = false := by
          rw [Bool.eq_false_iff]
          intro hj
          obtain ⟨n, hn⟩ := hjid arg harg hj
          rw [numberOf_eq_some, hm] at hn
          cases hn
        have hw : isWord arg = false := by
          rw [Bool.eq_false_iff]
          intro hw
          obtain ⟨w, hw⟩ := hword arg harg (by rw [hw, hj]; rfl)
          rw [wordOf_eq_some, hm] at hw
          cases hw
        -- a pair in `kvs` is one the pattern matched
        rcases mem_of_mem_setPairs (hpair ⟨arg, harg, hm⟩) with hmem | hmem
        · obtain ⟨arg', -, -, -, hkey⟩ := mem_pairsOf.mp hmem
          obtain ⟨m, hm, heq⟩ := Option.map_eq_some_iff.mp hkey
          have hwhole := whole_of_keyeq hm
          rw [heq] at hwhole
          exact ⟨hj, hw, hwhole⟩
        · cases hmem
  · exact agree_setPairs (fun _ _ _ h => absurd h List.not_mem_nil) k v v' (hpair hv) (hpair hv')

/-- **When the arguments of an update are read as documented**: each of them is plain, and pairs with
    the same key have the same value; or one of them has no meaning, and one is refused. -/
theorem update_faithful_iff (argv : List Text) :
    Faithful argv ↔
      ((∀ arg ∈ argv, Plain arg) ∧
        ∀ k v v', HasPair argv k v → HasPair argv k v' → v = v') ∨
      ((∃ arg ∈ argv, meaning arg = none) ∧ ∃ arg ∈ argv, Refused arg) := by
  by_cases hall : ∀ arg ∈ argv, meaning arg ≠ none
  · constructor
    · intro h
      exact Or.inl (plain_of_faithful hall h)
    · rintro (⟨hplain, hagree⟩ | ⟨⟨arg, harg, hnone⟩, -⟩)
      · exact faithful_of_plain hplain hagree
      · exact absurd hnone (hall arg harg)
  · have hnone : ∃ arg ∈ argv, meaning arg = none := by simpa using hall
    constructor
    · intro h
      refine Or.inr ⟨hnone, ?_⟩
      obtain ⟨e, he⟩ := h.refuses hnone none none
      by_contra hnot
      obtain ⟨r, hr⟩ := update_total.mpr
        (scanArgv_total.mpr fun arg harg href => hnot ⟨arg, harg, href⟩)
      rw [hr] at he
      cases he
    · rintro (⟨hplain, -⟩ | ⟨-, arg, harg, href⟩)
      · obtain ⟨arg, harg, hm⟩ := hnone
        have h := hplain arg harg
        unfold Plain at h
        rw [hm] at h
        exact h.elim
      · refine ⟨fun h => absurd h hall, fun _ jobStdin stdin => ?_⟩
        cases hupdate : update jobStdin argv stdin with
        | error e => exact ⟨e, rfl⟩
        | ok r =>
          obtain ⟨js, -, hscan, -⟩ := update_ok_iff.mp hupdate
          exact absurd href (scanArgv_total.mp ⟨_, hscan⟩ arg harg)

/-- `rq q update 12 'x command=date'` sets the command, and the `x` is lost; of `command=sort a`
    nothing is made, and the command fails. -/
theorem pair_loses_its_start :
    (meaning "x command=date".toList = some (.pair "x command".toList (some "date".toList)) ∧
      update none ["12".toList, "x command=date".toList] none
        = .ok ([("command".toList, some "date".toList)], [.number 12]) ∧
      ¬ Faithful ["12".toList, "x command=date".toList]) ∧
    (meaning "command=sort a".toList = some (.pair "command".toList (some "sort a".toList)) ∧
      update none ["12".toList, "command=sort a".toList] none
        = .error "don't know what to do with crap arguments <command=sort a>") := by
  have hupdate : update none ["12".toList, "x command=date".toList] none
      = .ok ([("command".toList, some "date".toList)], [.number 12]) := by decide
  refine ⟨⟨by decide, hupdate, fun h => ?_⟩, by decide, by decide⟩
  obtain ⟨kvs, heq, hkvs⟩ := h.accepts (by decide) none none [] rfl
  rw [hupdate] at heq
  obtain ⟨rfl, -⟩ := Prod.mk.inj (Except.ok.inj heq)
  have hmem := (hkvs "x command".toList (some "date".toList)).mpr
    (Or.inl ⟨"x command=date".toList, by decide, by decide⟩)
  exact absurd hmem (by decide)

end Argv

end RubyQueue.Updater
