/-
  Exit code maps written as text.

  A `Rendering` is a map in the form `name=c1,c2 …`, with any blanks about the `=` and between its
  parts.  The two passes of `parse_exit_code_map` make one text of all its renderings, and splitting
  that gives the parts again (`tokens_rendered`) but for two kinds of names: `\s` does not match a
  vertical tab, at which `split` splits; and blanks before an `=` go even where they set off a name
  that is empty, whose codes then follow those of the name before.
-/
import RubyQueue.ExitCodes
import RubyQueue.Updater

namespace RubyQueue.ExitCodes

open RubyQueue.Sqlite RubyQueue.Quote RubyQueue.JobQueue RubyQueue.Status
open RubyQueue.Updater (Blanks)
open RubyQueue.Integer (signed unsigned unsigned_toString)

/-! ## Texts written from a map -/

/-- A name and its codes, with the blanks before the name and about the `=`. -/
structure Part where
  gap : Text
  name : Text
  left : Text
  right : Text
  codes : List Int
  name_ok : ∀ c ∈ name, isBlank c = false ∧ isDelimiter c = false
  blanks : Blanks gap ∧ Blanks left ∧ Blanks right
  codes_ne : codes ≠ []

/-- `c1,c2 …`. -/
def codeList (codes : List Int) : Text := [','].intercalate (codeTexts codes)

def Part.text (p : Part) : Text := p.name ++ (p.left ++ '=' :: (p.right ++ codeList p.codes))

/-- A map written as text: the names are distinct, and there is a blank between two parts. -/
structure Rendering where
  parts : List Part
  trail : Text
  distinct : (parts.map Part.name).Nodup
  apart : ∀ p ∈ parts.tail, p.gap ≠ []
  trail_blank : Blanks trail

def Rendering.text (R : Rendering) : Text := R.parts.flatMap (fun p => p.gap ++ p.text) ++ R.trail

def Rendering.map (R : Rendering) : List (String × List Int) :=
  R.parts.map fun p => (String.ofList p.name, p.codes)

/-- Parsing gives the map back. -/
def GivesBack (R : Rendering) : Prop :=
  ∃ map, parseExitCodeMap (some R.text) = .ok map ∧ ∀ m, m ∈ map ↔ m ∈ R.map

/-- No name has a vertical tab, at which `split` splits too, and none but the first is empty. -/
def Kept (R : Rendering) : Prop :=
  (∀ p ∈ R.parts, '\x0b' ∉ p.name) ∧ ∀ p ∈ R.parts.tail, p.name ≠ []

/-! ### The two passes -/

/-- The text after the two passes. -/
def body (s : Text) : Text := tighten false (squeeze false s)

theorem squeeze_blanks {s : Text} (hs : ∀ c ∈ s.head?, isBlank c = false) : ∀ {w : Text}, Blanks w →
    squeeze true (w ++ s) = squeeze false s
  | [], _ => by
    cases s with
    | nil => rfl
    | cons c s =>
      have hc := hs c rfl
      simp [squeeze, hc]
  | c :: w, hw => by
    have hc := hw c List.mem_cons_self
    rw [List.cons_append, squeeze, if_pos hc, if_pos rfl]
    exact squeeze_blanks hs fun d hd => hw d (List.mem_cons_of_mem c hd)

/-- Blanks before something else. -/
theorem squeeze_append {s w : Text} (hs : ∀ c ∈ s.head?, isBlank c = false) (hw : Blanks w) :
    squeeze false (w ++ s) = (if w = [] then [] else [' ']) ++ squeeze false s := by
  cases w with
  | nil => rfl
  | cons c w =>
    have hc := hw c List.mem_cons_self
    have hrest := squeeze_blanks hs fun d hd => hw d (List.mem_cons_of_mem c hd)
    rw [List.cons_append, squeeze, if_pos hc, hrest]
    rfl

theorem body_cons {c : Char} (hb : isBlank c = false) (he : c ≠ '=') (s : Text) :
    body (c :: s) = c :: body s := by
  simp [body, squeeze, tighten, hb, he]

/-- What is neither blank nor `=` stays. -/
theorem body_word (s : Text) : ∀ {w : Text}, (∀ c ∈ w, isBlank c = false ∧ c ≠ '=') →
    body (w ++ s) = w ++ body s
  | [], _ => rfl
  | c :: w, hw => by
    obtain ⟨hb, he⟩ := hw c List.mem_cons_self
    rw [List.cons_append, body_cons hb he, body_word s fun d h => hw d (List.mem_cons_of_mem c h)]
    rfl

theorem tighten_true {s : Text} (hs : ∀ c ∈ s.head?, isBlank c = false) :
    tighten true (squeeze false s) = body s := by
  cases s with
  | nil => rfl
  | cons c s =>
    have hc := hs c rfl
    simp [body, squeeze, tighten, hc]

/-- The blanks about an `=` go. -/
theorem body_eq {w v s : Text} (hw : Blanks w) (hv : Blanks v)
    (hs : ∀ c ∈ s.head?, isBlank c = false) : body (w ++ '=' :: (v ++ s)) = '=' :: body s := by
  have hright : tighten true (squeeze false (v ++ s)) = body s := by
    rw [squeeze_append hs hv, ← tighten_true hs]
    split
    · rfl
    · simp [tighten, isBlank]
  have heq : ∀ c ∈ ('=' :: (v ++ s)).head?, isBlank c = false := by
    rintro c ⟨⟩
    rfl
  have hsqueeze : squeeze false ('=' :: (v ++ s)) = '=' :: squeeze false (v ++ s) := rfl
  rw [body, squeeze_append heq hw, hsqueeze, ← hright]
  split
  · rfl
  · simp [tighten, isBlank]

/-- The blanks before a name come to one. -/
theorem body_gap {w s : Text} {c : Char} (hw : Blanks w) (hne : w ≠ []) (hb : isBlank c = false)
    (he : c ≠ '=') : body (w ++ c :: s) = ' ' :: body (c :: s) := by
  have hhead : ∀ d ∈ (c :: s).head?, isBlank d = false := by
    rintro d ⟨⟩
    exact hb
  have hsqueeze : squeeze false (c :: s) = c :: squeeze false s := by simp [squeeze, hb]
  rw [body, squeeze_append hhead hw, if_neg hne, body, hsqueeze]
  show tighten false (' ' :: c :: squeeze false s) = _
  have hnext : (c :: squeeze false s).dropWhile isBlank = c :: squeeze false s :=
    List.dropWhile_cons_of_neg (by simp [hb])
  rw [tighten, if_neg (by decide), if_pos (by decide), if_neg (by decide), hnext,
    if_neg (by simpa using he)]

/-! ### A part -/

/-- The codes, each after the character it is split at. -/
def marked : List Int → List (Char × Int)
  | [] => []
  | code :: codes => ('=', code) :: codes.map fun code => (',', code)

def markedText (ms : List (Char × Int)) : Text := ms.flatMap fun m => m.1 :: (toString m.2).toList

theorem codeList_cons (code : Int) (codes : List Int) : codeList (code :: codes)
    = (toString code).toList ++ markedText (codes.map fun code => (',', code)) := by
  induction codes generalizing code with
  | nil => simp [codeList, codeTexts, markedText]
  | cons code' codes ih =>
    have hcons : codeList (code :: code' :: codes)
        = (toString code).toList ++ ',' :: codeList (code' :: codes) := by
      simp [codeList, codeTexts]
    rw [hcons, ih]
    rfl

theorem markedText_marked : ∀ {codes : List Int}, codes ≠ [] →
    markedText (marked codes) = '=' :: codeList codes
  | [], h => absurd rfl h
  | code :: codes, _ => by
    rw [codeList_cons]
    rfl

theorem code_ne_nil (code : Int) : (toString code).toList ≠ [] := by
  cases code with
  | ofNat n =>
    obtain ⟨c, s, hs, -⟩ := exists_digit_toString n
    show (toString n).toList ≠ []
    rw [hs]
    exact List.cons_ne_nil c s
  | negSucc n =>
    rw [toList_negSucc]
    exact List.cons_ne_nil _ _

theorem not_blank_of_code {c : Char} {code : Int} (h : c ∈ (toString code).toList) :
    isSeparator c = false ∧ isDelimiter c = false ∧ c ≠ '\x00' := by
  rcases mem_code h with hc | rfl
  · have hb := isBlank_of_isDigit hc
    have hne : ∀ d : Char, d.isDigit = false → c ≠ d := by
      rintro d hd rfl
      rw [hc] at hd
      cases hd
    refine ⟨?_, ?_, hne _ (by decide)⟩
    · simp [isSeparator, hb, hne]
    · simp [isDelimiter, hne]
  · decide

theorem isBlank_of_isSeparator {c : Char} (h : isSeparator c = false) : isBlank c = false :=
  (Bool.or_eq_false_iff.mp h).1

/-- The characters of the codes. -/
theorem mem_codeList {c : Char} {codes : List Int} (h : c ∈ codeList codes) :
    isSeparator c = false ∧ c ≠ '=' := by
  have hcode : ∀ {code : Int}, c ∈ (toString code).toList → isSeparator c = false ∧ c ≠ '=' := by
    intro code h
    obtain ⟨hs, hd, -⟩ := not_blank_of_code h
    refine ⟨hs, ?_⟩
    rintro rfl
    cases hd
  cases codes with
  | nil => cases h
  | cons code codes =>
    rw [codeList_cons, List.mem_append] at h
    rcases h with h | h
    · exact hcode h
    · obtain ⟨m, hm, h⟩ := List.mem_flatMap.mp h
      obtain ⟨code', -, rfl⟩ := List.mem_map.mp hm
      rcases List.mem_cons.mp h with rfl | h
      · show isSeparator ',' = false ∧ ',' ≠ '='
        decide
      · exact hcode h

theorem head_codeList {codes : List Int} (h : codes ≠ []) (s : Text) :
    ∀ c ∈ (codeList codes ++ s).head?, isBlank c = false := by
  obtain ⟨code, codes, rfl⟩ := List.exists_cons_of_ne_nil h
  obtain ⟨d, t, hd⟩ := List.exists_cons_of_ne_nil (code_ne_nil code)
  have hmem : d ∈ codeList (code :: codes) := by
    rw [codeList_cons, hd]
    exact List.mem_cons_self
  rw [codeList_cons, hd]
  rintro c ⟨⟩
  exact isBlank_of_isSeparator (mem_codeList hmem).1

/-- A part without the blanks. -/
def Part.tight (p : Part) : Text := p.name ++ markedText (marked p.codes)

theorem body_text (p : Part) (s : Text) : body (p.text ++ s) = p.tight ++ body s := by
  obtain ⟨-, hleft, hright⟩ := p.blanks
  have hname : ∀ c ∈ p.name, isBlank c = false ∧ c ≠ '=' := by
    intro c hc
    obtain ⟨hb, hd⟩ := p.name_ok c hc
    refine ⟨hb, ?_⟩
    rintro rfl
    cases hd
  have hcodes : ∀ c ∈ codeList p.codes, isBlank c = false ∧ c ≠ '=' :=
    fun c hc => ⟨isBlank_of_isSeparator (mem_codeList hc).1, (mem_codeList hc).2⟩
  have htext : p.text ++ s = p.name ++ (p.left ++ '=' :: (p.right ++ (codeList p.codes ++ s))) := by
    simp [Part.text]
  rw [htext, body_word _ hname, body_eq hleft hright (head_codeList p.codes_ne s),
    body_word _ hcodes, Part.tight, markedText_marked p.codes_ne]
  simp

/-- A part after the first: with a name it is set off by a blank, without one by none. -/
theorem body_part {p : Part} (hgap : p.gap ≠ []) (s : Text) :
    body (p.gap ++ p.text ++ s) = (if p.name = [] then p.tight else ' ' :: p.tight) ++ body s := by
  obtain ⟨hblank, hleft, hright⟩ := p.blanks
  by_cases hname : p.name = []
  · -- the blanks before and after the empty name are those before the `=`
    have hcodes : ∀ c ∈ codeList p.codes, isBlank c = false ∧ c ≠ '=' :=
      fun c hc => ⟨isBlank_of_isSeparator (mem_codeList hc).1, (mem_codeList hc).2⟩
    have htext : p.gap ++ p.text ++ s
        = (p.gap ++ p.left) ++ '=' :: (p.right ++ (codeList p.codes ++ s)) := by
      simp [Part.text, hname]
    have hblanks : Blanks (p.gap ++ p.left) := fun c hc =>
      (List.mem_append.mp hc).elim (hblank c) (hleft c)
    rw [htext, body_eq hblanks hright (head_codeList p.codes_ne s), body_word _ hcodes,
      if_pos hname, Part.tight, hname, markedText_marked p.codes_ne]
    simp
  · obtain ⟨c, w, hw⟩ := List.exists_cons_of_ne_nil hname
    obtain ⟨hb, hd⟩ := p.name_ok c (hw ▸ List.mem_cons_self)
    have he : c ≠ '=' := by
      rintro rfl
      cases hd
    have hcons : ∃ t, p.text ++ s = c :: t := by
      unfold Part.text
      rw [hw]
      exact ⟨_, rfl⟩
    obtain ⟨t, ht⟩ := hcons
    rw [List.append_assoc, ht, body_gap hblank hgap hb he, ← ht, body_text, if_neg hname]
    rfl

/-- The parts after the first. -/
def tightTail (ps : List Part) : Text :=
  ps.flatMap fun p => if p.name = [] then p.tight else ' ' :: p.tight

theorem body_tail : ∀ {ps : List Part}, (∀ p ∈ ps, p.gap ≠ []) →
    body (ps.flatMap fun p => p.gap ++ p.text) = tightTail ps
  | [], _ => rfl
  | p :: ps, h => by
    rw [List.flatMap_cons, body_part (h p List.mem_cons_self),
      body_tail fun q hq => h q (List.mem_cons_of_mem p hq)]
    rfl

/-! ### The ends -/

/-- The last character is a digit. -/
def EndsDigit (s : Text) : Prop := ∃ t d, s = t ++ [d] ∧ d.isDigit = true

theorem EndsDigit.append {s : Text} (h : EndsDigit s) (r : Text) : EndsDigit (r ++ s) := by
  obtain ⟨t, d, rfl, hd⟩ := h
  exact ⟨r ++ t, d, (List.append_assoc _ _ _).symm, hd⟩

theorem endsDigit_toString (n : Nat) : EndsDigit (toString n).toList := by
  rcases List.eq_nil_or_concat (toString n).toList with h | ⟨t, d, h⟩
  · obtain ⟨c, s, hs, -⟩ := exists_digit_toString n
    rw [h] at hs
    cases hs
  · rw [List.concat_eq_append] at h
    exact ⟨t, d, h, @isDigit_of_mem_toString n d (by rw [h]; simp)⟩

theorem endsDigit_code (code : Int) : EndsDigit (toString code).toList := by
  cases code with
  | ofNat n => exact endsDigit_toString n
  | negSucc n =>
    rw [toList_negSucc]
    exact (endsDigit_toString (n + 1)).append ['-']

theorem endsDigit_markedText : ∀ {ms : List (Char × Int)}, ms ≠ [] → EndsDigit (markedText ms)
  | [], h => absurd rfl h
  | [m], _ => by
    have htext : markedText [m] = [m.1] ++ (toString m.2).toList := by simp [markedText]
    rw [htext]
    exact (endsDigit_code m.2).append _
  | m :: m' :: ms, _ => by
    have ih := @endsDigit_markedText (m' :: ms) (by simp)
    have htext : markedText (m :: m' :: ms)
        = m.1 :: (toString m.2).toList ++ markedText (m' :: ms) := List.flatMap_cons
    rw [htext]
    exact ih.append _

theorem endsDigit_codeList {codes : List Int} (h : codes ≠ []) : EndsDigit (codeList codes) := by
  obtain ⟨code, codes, rfl⟩ := List.exists_cons_of_ne_nil h
  rw [codeList_cons]
  cases codes with
  | nil =>
    rw [List.map_nil, markedText, List.flatMap_nil, List.append_nil]
    exact endsDigit_code code
  | cons code' codes => exact (endsDigit_markedText (by simp)).append _

/-- The parts after one that ends so end so. -/
theorem EndsDigit.parts : ∀ {ps : List Part} {t : Text}, EndsDigit t →
    EndsDigit (t ++ ps.flatMap fun p => p.gap ++ p.text)
  | [], t, h => by simpa using h
  | p :: ps, t, h => by
    have hp : EndsDigit (t ++ (p.gap ++ p.text)) := by
      have htext : t ++ (p.gap ++ p.text)
          = (t ++ (p.gap ++ (p.name ++ (p.left ++ '=' :: p.right)))) ++ codeList p.codes := by
        simp [Part.text]
      rw [htext]
      exact (endsDigit_codeList p.codes_ne).append _
    have ih := @EndsDigit.parts ps _ hp
    rwa [List.append_assoc] at ih

/-- `strip` takes the blanks at both ends. -/
theorem stripText_ends {lead s trail : Text} (hlead : Blanks lead) (htrail : Blanks trail)
    (hhead : ∀ c ∈ s.head?, isSeparator c = false) (hs : EndsDigit s) :
    stripText (lead ++ (s ++ trail)) = s := by
  obtain ⟨t, d, rfl, hd⟩ := hs
  obtain ⟨c, r, hc⟩ := List.exists_cons_of_ne_nil (by simp : t ++ [d] ≠ [])
  have hfront : ∀ c ∈ lead, (isBlank c || c == '\x0b') = true := fun c hc => by rw [hlead c hc]; rfl
  have hback : ∀ c ∈ trail.reverse, (isBlank c || c == '\x0b' || c == '\x00') = true :=
    fun c hc => by rw [htrail c (List.mem_reverse.mp hc)]; rfl
  have hfirst : (isBlank c || c == '\x0b') = false := hhead c (by rw [hc]; rfl)
  have hlast : (isBlank d || d == '\x0b' || d == '\x00') = false := by
    have hb := isBlank_of_isDigit hd
    have hne : ∀ e : Char, e.isDigit = false → d ≠ e := by
      rintro e he rfl
      rw [hd] at he
      cases he
    simp [hb, hne]
  unfold stripText
  rw [List.dropWhile_append_of_pos hfront, hc, List.cons_append,
    List.dropWhile_cons_of_neg (by simpa using hfirst), ← List.cons_append, ← hc]
  unfold List.rdropWhile
  rw [List.reverse_append, List.dropWhile_append_of_pos hback, List.reverse_concat,
    List.dropWhile_cons_of_neg (by simpa using hlast), ← List.reverse_concat, List.reverse_reverse]

/-- The blanks on the left of an `=` without a name may be counted among those before the part. -/
theorem Part.exists_head (p : Part) (hv : '\x0b' ∉ p.name) :
    ∃ p' : Part, p'.gap ++ p'.text = p.gap ++ p.text ∧ p'.tight = p.tight ∧
      ∀ s, ∀ c ∈ (p'.text ++ s).head?, isSeparator c = false := by
  obtain ⟨hgap, hleft, hright⟩ := p.blanks
  by_cases hname : p.name = []
  · have hblanks : Blanks (p.gap ++ p.left) := fun c hc =>
      (List.mem_append.mp hc).elim (hgap c) (hleft c)
    have hnil : Blanks [] := fun c hc => absurd hc List.not_mem_nil
    refine ⟨{ p with gap := p.gap ++ p.left, left := [], blanks := ⟨hblanks, hnil, hright⟩ },
      ?_, rfl, ?_⟩
    · simp [Part.text, hname]
    · intro s c hc
      have hhead : c = '=' := by simpa [Part.text, hname, eq_comm] using hc
      rw [hhead]
      decide
  · refine ⟨p, rfl, rfl, ?_⟩
    obtain ⟨d, w, hw⟩ := List.exists_cons_of_ne_nil hname
    obtain ⟨hb, -⟩ := p.name_ok d (hw ▸ List.mem_cons_self)
    have hd : d ≠ '\x0b' := by
      rintro rfl
      exact hv (hw ▸ List.mem_cons_self)
    intro s c hc
    have hhead : c = d := by simpa [Part.text, hw, eq_comm] using hc
    rw [hhead]
    simp [isSeparator, hb, hd]

/-- **The text after `strip` and the two passes.** -/
theorem body_rendered {p : Part} {ps : List Part} {trail : Text} (hps : ∀ q ∈ ps, q.gap ≠ [])
    (htrail : Blanks trail) (hv : '\x0b' ∉ p.name) :
    body (stripText (((p :: ps).flatMap fun q => q.gap ++ q.text) ++ trail))
      = p.tight ++ tightTail ps := by
  obtain ⟨p', htext, htight, hhead⟩ := p.exists_head hv
  have hcodes : EndsDigit (p'.text ++ ps.flatMap fun q => q.gap ++ q.text) := by
    have h := (endsDigit_codeList p'.codes_ne).append (p'.name ++ (p'.left ++ '=' :: p'.right))
    have hassoc : p'.name ++ (p'.left ++ '=' :: p'.right) ++ codeList p'.codes = p'.text := by
      simp [Part.text]
    rw [hassoc] at h
    exact h.parts
  have hwhole : ((p :: ps).flatMap fun q => q.gap ++ q.text) ++ trail
      = p'.gap ++ ((p'.text ++ ps.flatMap fun q => q.gap ++ q.text) ++ trail) := by
    rw [List.flatMap_cons, ← htext]
    simp
  rw [hwhole, stripText_ends p'.blanks.1 htrail (hhead _) hcodes, body_text, body_tail hps, htight]

/-! ### The parts again -/

/-- The names and marked codes that come out: codes without a name go to the name before. -/
def groups : Text → List (Char × Int) → List Part → List (Text × List (Char × Int))
  | n, ms, [] => [(n, ms)]
  | n, ms, p :: ps =>
    if p.name = [] then groups n (ms ++ marked p.codes) ps
    else (n, ms) :: groups p.name (marked p.codes) ps

def groupText (g : Text × List (Char × Int)) : Text := g.1 ++ markedText g.2

/-- What a group has: a name that nothing splits, and a delimiter before each code. -/
structure IsGroup (g : Text × List (Char × Int)) : Prop where
  name_ok : ∀ c ∈ g.1, isSeparator c = false ∧ isDelimiter c = false
  marks : ∀ m ∈ g.2, isDelimiter m.1 = true
  ne_nil : g.2 ≠ []

theorem isDelimiter_marked {codes : List Int} : ∀ m ∈ marked codes, isDelimiter m.1 = true := by
  cases codes with
  | nil => exact fun m hm => nomatch hm
  | cons code codes =>
    intro m hm
    rcases List.mem_cons.mp hm with rfl | hm
    · rfl
    · obtain ⟨code', -, rfl⟩ := List.mem_map.mp hm
      rfl

theorem marked_ne_nil {codes : List Int} (h : codes ≠ []) : marked codes ≠ [] := by
  obtain ⟨code, codes, rfl⟩ := List.exists_cons_of_ne_nil h
  exact List.cons_ne_nil _ _

theorem Part.isGroup (p : Part) (hv : '\x0b' ∉ p.name) : IsGroup (p.name, marked p.codes) where
  name_ok c hc := by
    obtain ⟨hb, hd⟩ := p.name_ok c hc
    have hne : c ≠ '\x0b' := fun h => hv (h ▸ hc)
    exact ⟨by simp [isSeparator, hb, hne], hd⟩
  marks := isDelimiter_marked
  ne_nil := marked_ne_nil p.codes_ne

/-- More codes with the name. -/
theorem IsGroup.append {n : Text} {ms : List (Char × Int)} (h : IsGroup (n, ms))
    (codes : List Int) : IsGroup (n, ms ++ marked codes) where
  name_ok := h.name_ok
  marks m hm := (List.mem_append.mp hm).elim (h.marks m) (isDelimiter_marked m)
  ne_nil hnil := h.ne_nil (List.append_eq_nil_iff.mp hnil).1

theorem isGroup_groups : ∀ {ps : List Part} {n : Text} {ms : List (Char × Int)}, IsGroup (n, ms) →
    (∀ p ∈ ps, '\x0b' ∉ p.name) → ∀ g ∈ groups n ms ps, IsGroup g
  | [], n, ms, h, _, g, hg => by
    rw [List.mem_singleton.mp hg]
    exact h
  | p :: ps, n, ms, h, hps, g, hg => by
    have hps' : ∀ q ∈ ps, '\x0b' ∉ q.name := fun q hq => hps q (List.mem_cons_of_mem p hq)
    rw [groups] at hg
    split at hg
    · exact isGroup_groups (h.append p.codes) hps' g hg
    · rcases List.mem_cons.mp hg with rfl | hg
      · exact h
      · exact isGroup_groups (p.isGroup (hps p List.mem_cons_self)) hps' g hg

theorem IsGroup.not_separator {g : Text × List (Char × Int)} (h : IsGroup g) :
    ∀ c ∈ groupText g, isSeparator c = false := by
  intro c hc
  rcases List.mem_append.mp hc with hc | hc
  · exact (h.name_ok c hc).1
  · obtain ⟨m, hm, hc⟩ := List.mem_flatMap.mp hc
    rcases List.mem_cons.mp hc with rfl | hc
    · have hmark := h.marks m hm
      unfold isDelimiter at hmark
      rw [Bool.or_eq_true, beq_iff_eq, beq_iff_eq] at hmark
      rcases hmark with hmark | hmark <;> rw [hmark] <;> decide
    · exact (not_blank_of_code hc).1

theorem IsGroup.text_ne_nil {g : Text × List (Char × Int)} (h : IsGroup g) : groupText g ≠ [] := by
  obtain ⟨m, ms, hms⟩ := List.exists_cons_of_ne_nil h.ne_nil
  unfold groupText markedText
  rw [hms]
  simp

theorem splitBlanks_groups : ∀ {ps : List Part} {n : Text} {ms : List (Char × Int)},
    IsGroup (n, ms) → (∀ p ∈ ps, '\x0b' ∉ p.name) →
    splitBlanks (groupText (n, ms) ++ tightTail ps) = (groups n ms ps).map groupText
  | [], n, ms, h, _ => by
    have hone := List.splitOnP_eq_singleton h.not_separator
    show splitBlanks (groupText (n, ms) ++ []) = [groupText (n, ms)]
    rw [List.append_nil, splitBlanks, hone]
    simp [h.text_ne_nil]
  | p :: ps, n, ms, h, hps => by
    have hps' : ∀ q ∈ ps, '\x0b' ∉ q.name := fun q hq => hps q (List.mem_cons_of_mem p hq)
    have hp := p.isGroup (hps p List.mem_cons_self)
    rw [groups]
    by_cases hname : p.name = []
    · have htext : groupText (n, ms) ++ tightTail (p :: ps)
          = groupText (n, ms ++ marked p.codes) ++ tightTail ps := by
        simp [groupText, tightTail, markedText, Part.tight, hname]
      rw [htext, splitBlanks_groups (h.append p.codes) hps', if_pos hname]
    · have htext : groupText (n, ms) ++ tightTail (p :: ps)
          = groupText (n, ms) ++ ' ' :: (groupText (p.name, marked p.codes) ++ tightTail ps) := by
        simp [groupText, tightTail, Part.tight, hname]
      have ih := splitBlanks_groups hp hps'
      unfold splitBlanks at ih ⊢
      rw [htext, List.splitOnP_append_cons_of_forall_mem h.not_separator ' ' rfl,
        List.filter_cons_of_pos (by simpa using h.text_ne_nil), ih, if_neg hname]
      rfl

/-- **The tokens of a rendered map.** -/
theorem tokens_rendered {p : Part} {ps : List Part} {trail : Text} (hps : ∀ q ∈ ps, q.gap ≠ [])
    (htrail : Blanks trail) (hv : ∀ q ∈ p :: ps, '\x0b' ∉ q.name) :
    tokens (((p :: ps).flatMap fun q => q.gap ++ q.text) ++ trail)
      = (groups p.name (marked p.codes) ps).map groupText := by
  have hbody := body_rendered hps htrail (hv p List.mem_cons_self)
  unfold tokens
  rw [← body, hbody]
  exact splitBlanks_groups (p.isGroup (hv p List.mem_cons_self))
    fun q hq => hv q (List.mem_cons_of_mem p hq)

theorem signed_minus {s : Text} {n : Nat} (h : unsigned s = some n) :
    signed ('-' :: s) = .ok (-(n : Int)) := by
  simp [signed, h]

theorem signed_plain {c : Char} {s : Text} {n : Nat} (hminus : c ≠ '-') (hplus : c ≠ '+')
    (h : unsigned (c :: s) = some n) : signed (c :: s) = .ok (n : Int) := by
  simp [signed, h, hminus, hplus]

/-- `Integer` of a code as it is printed. -/
theorem signed_code (code : Int) : signed (toString code).toList = .ok code := by
  cases code with
  | ofNat n =>
    obtain ⟨c, s, hs, hc⟩ := exists_digit_toString n
    have hread := unsigned_toString n
    have hminus : c ≠ '-' := by
      rintro rfl
      cases hc
    have hplus : c ≠ '+' := by
      rintro rfl
      cases hc
    show signed (toString n).toList = _
    rw [hs] at hread ⊢
    rw [signed_plain hminus hplus hread]
    rfl
  | negSucc n =>
    rw [toList_negSucc, signed_minus (unsigned_toString (n + 1))]
    rfl

theorem mapM_codes : ∀ codes : List Int,
    (codeTexts codes).mapM signed = .ok codes
  | [] => rfl
  | code :: codes => by
    have ih := mapM_codes codes
    show ((toString code).toList :: codeTexts codes).mapM signed = _
    rw [List.mapM_cons, signed_code, ih]
    rfl

theorem addToken_ok {token : Text} {values : List Int} (map : List (String × List Int))
    (h : (entry token).2.mapM signed = .ok values) :
    addToken map token = .ok (put map (entry token).1 values) := by
  rw [addToken, h]
  rfl

theorem splitOnP_marked : ∀ {ms : List (Char × Int)} {n : Text}, (∀ c ∈ n, isDelimiter c = false) →
    (∀ m ∈ ms, isDelimiter m.1 = true) →
    (n ++ markedText ms).splitOnP isDelimiter = n :: ms.map fun m => (toString m.2).toList
  | [], n, hn, _ => by
    rw [markedText, List.flatMap_nil, List.append_nil, List.splitOnP_eq_singleton hn]
    rfl
  | m :: ms, n, hn, hms => by
    have hcode : ∀ c ∈ (toString m.2).toList, isDelimiter c = false :=
      fun c hc => (not_blank_of_code hc).2.1
    have ih := splitOnP_marked hcode fun m' hm => hms m' (List.mem_cons_of_mem m hm)
    show (n ++ m.1 :: ((toString m.2).toList ++ markedText ms)).splitOnP isDelimiter = _
    rw [List.splitOnP_append_cons_of_forall_mem hn m.1 (hms m List.mem_cons_self), ih]
    rfl

/-- **A group is read as its name and codes.** -/
theorem IsGroup.entry {g : Text × List (Char × Int)} (h : IsGroup g) :
    entry (groupText g) = (String.ofList g.1, codeTexts (g.2.map Prod.snd)) := by
  have hsplit := splitOnP_marked (fun c hc => (h.name_ok c hc).2) h.marks
  obtain ⟨hhead, htail⟩ := rdropWhile_cons g.1 (g.2.map fun m => (toString m.2).toList)
  have hlast : (g.2.map fun m => (toString m.2).toList).rdropWhile (· == [])
      = g.2.map fun m => (toString m.2).toList := by
    rw [List.rdropWhile_eq_self_iff]
    intro hne
    obtain ⟨m, -, hm⟩ := List.mem_map.mp (List.getLast_mem hne)
    rw [← hm]
    simpa using code_ne_nil m.2
  unfold ExitCodes.entry splitToken groupText
  rw [hsplit, hhead, htail, hlast, codeTexts, List.map_map]
  rfl

theorem put_new {β : Type} {key : String} {v : β} : ∀ {map : List (String × β)}, key ∉ keys map →
    put map key v = map ++ [(key, v)]
  | [], _ => rfl
  | e :: map, h => by
    obtain ⟨hne, hkey⟩ := not_or.mp fun hmem => h (List.mem_cons.mpr hmem)
    rw [put, if_neg (Ne.symm hne), put_new hkey]
    rfl

/-- The mapping of a group. -/
def mapping (g : Text × List (Char × Int)) : String × List Int :=
  (String.ofList g.1, g.2.map Prod.snd)

/-- **Groups with distinct names are stored one after the other.** -/
theorem foldlM_groups : ∀ {gs : List (Text × List (Char × Int))} {map : List (String × List Int)},
    (∀ g ∈ gs, IsGroup g) → (keys (map ++ gs.map mapping)).Nodup →
    (gs.map groupText).foldlM addToken map = .ok (map ++ gs.map mapping)
  | [], map, _, _ => by
    rw [List.map_nil, List.map_nil, List.append_nil]
    rfl
  | g :: gs, map, hgs, hnodup => by
    have hassoc : map ++ (g :: gs).map mapping = (map ++ [mapping g]) ++ gs.map mapping := by simp
    have hkey : (mapping g).1 ∉ keys map := by
      rw [keys, List.map_append, List.map_cons, List.map_cons] at hnodup
      exact fun hmem => (List.nodup_append.mp hnodup).2.2 _ hmem _ List.mem_cons_self rfl
    have hstep : addToken map (groupText g) = .ok (map ++ [mapping g]) := by
      have hentry := (hgs g List.mem_cons_self).entry
      have hvalues : (entry (groupText g)).2.mapM signed = .ok (g.2.map Prod.snd) := by
        rw [hentry]
        exact mapM_codes _
      rw [addToken_ok map hvalues, hentry]
      exact congrArg Except.ok (put_new hkey)
    rw [hassoc] at hnodup ⊢
    rw [List.map_cons, List.foldlM_cons, hstep]
    exact foldlM_groups (fun g' hg => hgs g' (List.mem_cons_of_mem g hg)) hnodup

/-- The names that come out are those that are not empty, after the first. -/
theorem fst_groups : ∀ (ps : List Part) (n : Text) (ms : List (Char × Int)),
    (groups n ms ps).map Prod.fst = n :: (ps.map Part.name).filter fun n : Text => !n.isEmpty
  | [], _, _ => rfl
  | p :: ps, n, ms => by
    rw [groups]
    by_cases hname : p.name = []
    · rw [if_pos hname, fst_groups ps]
      simp [hname]
    · rw [if_neg hname, List.map_cons, fst_groups ps]
      simp [hname]

theorem map_snd_marked {codes : List Int} : (marked codes).map Prod.snd = codes := by
  cases codes with
  | nil => rfl
  | cons code codes => simp [marked, List.map_map, Function.comp_def]

/-- With a name each, the parts come out as they are. -/
theorem mapping_groups : ∀ {ps : List Part} (n : Text) (ms : List (Char × Int)),
    (∀ p ∈ ps, p.name ≠ []) → (groups n ms ps).map mapping
      = mapping (n, ms) :: ps.map fun p => (String.ofList p.name, p.codes)
  | [], _, _, _ => rfl
  | p :: ps, n, ms, h => by
    have ih := @mapping_groups ps p.name (marked p.codes)
      fun q hq => h q (List.mem_cons_of_mem p hq)
    rw [groups, if_neg (h p List.mem_cons_self), List.map_cons, ih, mapping, mapping,
      map_snd_marked]
    rfl

/-- **What parsing a rendered map gives**, when no name has a vertical tab. -/
theorem parse_rendered {R : Rendering} {p : Part} {ps : List Part} (hR : R.parts = p :: ps)
    (hv : ∀ q ∈ R.parts, '\x0b' ∉ q.name) :
    parseExitCodeMap (some R.text) = .ok ((groups p.name (marked p.codes) ps).map mapping) := by
  have hdistinct := R.distinct
  have hapart := R.apart
  rw [hR] at hdistinct hapart hv
  have htokens := @tokens_rendered p ps R.trail hapart R.trail_blank hv
  have hgroups := isGroup_groups (p.isGroup (hv p List.mem_cons_self))
    fun q hq => hv q (List.mem_cons_of_mem p hq)
  have hnodup : (keys ([] ++ (groups p.name (marked p.codes) ps).map mapping)).Nodup := by
    have hfst : keys ((groups p.name (marked p.codes) ps).map mapping)
        = (p.name :: (ps.map Part.name).filter fun n : Text => !n.isEmpty).map String.ofList := by
      rw [← fst_groups ps p.name (marked p.codes), keys, List.map_map, List.map_map]
      rfl
    rw [List.nil_append, hfst]
    refine List.Nodup.map (fun _ _ h => String.ofList_injective h) (hdistinct.sublist ?_)
    exact List.Sublist.cons_cons p.name List.filter_sublist
  have hfold := foldlM_groups hgroups hnodup
  unfold parseExitCodeMap Rendering.text
  dsimp only [Option.getD_some]
  rw [hR, htokens, hfold]
  rfl

/-- No part has what the text is split at. -/
theorem splitter_not_mem {p : Char → Bool} {s t : Text} (ht : t ∈ s.splitOnP p) :
    ∀ c ∈ t, p c = false := by
  induction s generalizing t with
  | nil =>
    obtain rfl : t = [] := by simpa using ht
    intro c hc
    cases hc
  | cons d s ih =>
    rw [List.splitOnP_cons_eq_if_modifyHead] at ht
    split at ht
    case isTrue =>
      obtain rfl | ht := List.mem_cons.mp ht
      · intro c hc
        cases hc
      · exact ih ht
    case isFalse hd =>
      cases hs : s.splitOnP p with
      | nil => exact absurd hs (List.splitOnP_ne_nil p s)
      | cons u us =>
        rw [hs] at ih
        rw [hs, List.modifyHead_cons, List.mem_cons] at ht
        obtain rfl | ht := ht
        · have hu : ∀ c ∈ u, p c = false := ih List.mem_cons_self
          exact List.forall_mem_cons.mpr ⟨Bool.eq_false_of_not_eq_true hd, hu⟩
        · exact ih (List.mem_cons_of_mem u ht)

/-- No name that is read has a blank or a vertical tab. -/
theorem not_separator_of_parse {emap : Option Text} {map : List (String × List Int)}
    (h : parseExitCodeMap emap = .ok map) {n : Text} {codes : List Int}
    (hm : (String.ofList n, codes) ∈ map) : ∀ c ∈ n, isSeparator c = false := by
  obtain ⟨token, hlast, hname, -⟩ := ((foldlM_addToken (parse_ok h)).2 _).mp hm
  obtain rfl : n = name token := String.ofList_injective hname
  have htoken := List.mem_of_mem_filter hlast.mem
  exact fun c hc => splitter_not_mem htoken c (List.takeWhile_subset _ hc)

theorem tokens_blanks {s : Text} (h : Blanks s) : tokens s = [] := by
  have hdrop : s.dropWhile (fun c => isBlank c || c == '\x0b') = [] := by
    rw [List.dropWhile_eq_nil_iff]
    intro c hc
    rw [h c hc]
    rfl
  have hstrip : stripText s = [] := by
    unfold stripText
    rw [hdrop]
    rfl
  rw [tokens, hstrip]
  rfl

/-- With names that `split` leaves whole and none empty after the first, it is given back, and in
    its order. -/
theorem parse_kept {R : Rendering} (h : Kept R) : parseExitCodeMap (some R.text) = .ok R.map := by
  obtain ⟨hv, hempty⟩ := h
  cases hR : R.parts with
  | nil =>
    have htokens : tokens R.text = [] := by
      unfold Rendering.text
      rw [hR]
      exact tokens_blanks R.trail_blank
    unfold parseExitCodeMap Rendering.map
    dsimp only [Option.getD_some]
    rw [htokens, hR]
    rfl
  | cons p ps =>
    rw [hR] at hempty
    have hempty : ∀ q ∈ ps, q.name ≠ [] := hempty
    rw [parse_rendered hR hv, mapping_groups _ _ hempty, mapping, map_snd_marked, Rendering.map, hR]
    rfl

/-- An empty name after the first is missing from the map. -/
theorem length_groups_lt {ps : List Part} {n : Text} {ms : List (Char × Int)}
    (h : ∃ p ∈ ps, p.name = []) : (groups n ms ps).length < ps.length + 1 := by
  have hlength := congrArg List.length (fst_groups ps n ms)
  rw [List.length_map, List.length_cons] at hlength
  have hlt : ((ps.map Part.name).filter fun n : Text => !n.isEmpty).length
      < (ps.map Part.name).length := by
    obtain ⟨p, hp, hname⟩ := h
    refine List.length_filter_lt_length_iff_exists.mpr ⟨p.name, List.mem_map_of_mem hp, ?_⟩
    simp [hname]
  rw [List.length_map] at hlt
  omega

/-- **When a rendered map is given back.**  A name with a vertical tab is split, and an empty one
    that is not the first leaves its codes to the name before. -/
theorem givesBack_iff (R : Rendering) : GivesBack R ↔ Kept R := by
  constructor
  · rintro ⟨map, hparse, hmem⟩
    have hv : ∀ p ∈ R.parts, '\x0b' ∉ p.name := by
      intro p hp htab
      have hm : (String.ofList p.name, p.codes) ∈ map := (hmem _).mpr (List.mem_map_of_mem hp)
      exact absurd (not_separator_of_parse hparse hm _ htab) (by decide)
    refine ⟨hv, fun q hq hname => ?_⟩
    obtain ⟨p, ps, hR⟩ : ∃ p ps, R.parts = p :: ps := by
      cases hR : R.parts with
      | nil =>
        rw [hR] at hq
        cases hq
      | cons p ps => exact ⟨p, ps, rfl⟩
    -- both maps have distinct names, so they are of one length
    rw [parse_rendered hR hv] at hparse
    obtain rfl := Except.ok.inj hparse
    have hnodup : (keys R.map).Nodup := by
      have hkeys : keys R.map = (R.parts.map Part.name).map String.ofList := by
        rw [keys, Rendering.map, List.map_map, List.map_map]
        rfl
      rw [hkeys]
      exact List.Nodup.map (fun _ _ h => String.ofList_injective h) R.distinct
    have hnodup' : (keys ((groups p.name (marked p.codes) ps).map mapping)).Nodup :=
      (foldlM_addToken (parse_ok (parse_rendered hR hv))).1
    have hperm := (List.perm_ext_iff_of_nodup (List.Nodup.of_map _ hnodup')
      (List.Nodup.of_map _ hnodup)).mpr hmem
    have hlength := hperm.length_eq
    rw [List.length_map, Rendering.map, List.length_map, hR, List.length_cons] at hlength
    rw [hR] at hq
    exact absurd hlength (length_groups_lt ⟨q, hq, hname⟩).ne
  · intro h
    exact ⟨R.map, parse_kept h, fun m => Iff.rfl⟩

/-- **Exit code maps.**  A text that is accepted can be used, and its rows are counted, exactly when
    the last part with each name lists a code; and a map written as text is given back exactly when
    no name but the first is empty and none has a vertical tab. -/
theorem parseExitCodeMap_usable_iff (emap : Option Text) (R : Rendering) :
    (∀ map, parseExitCodeMap emap = .ok map →
      (Usable map ↔ Coded (emap.getD "ok=42".toList))) ∧ (GivesBack R ↔ Kept R) := by
  refine ⟨fun map h => ?_, givesBack_iff R⟩
  rw [usable_iff (foldlM_addToken (parse_ok h)).1, coded_iff h]

/-- `ok= 42,43 ko=1`. -/
def okRendering : Rendering where
  parts := [⟨[], "ok".toList, [], [' '], [42, 43], by simp [isBlank, isDelimiter],
      by simp [Blanks, isBlank], by simp⟩,
    ⟨[' '], "ko".toList, [], [], [1], by simp [isBlank, isDelimiter], by simp [Blanks, isBlank],
      by simp⟩]
  trail := []
  distinct := by simp
  apart := by simp
  trail_blank := by simp [Blanks]

theorem parseExitCodeMap_usable :
    parseExitCodeMap (some "ok=42,43 command_not_found=127".toList)
      = .ok [("ok", [42, 43]), ("command_not_found", [127])] ∧
    Usable [("ok", [42, 43]), ("command_not_found", [127])] ∧ GivesBack okRendering := by
  have hparse : parseExitCodeMap (some "ok=42,43 command_not_found=127".toList)
      = .ok [("ok", [42, 43]), ("command_not_found", [127])] := by rfl
  have htokens : tokens "ok=42,43 command_not_found=127".toList
      = ["ok=42,43".toList, "command_not_found=127".toList] := by rfl
  have hcoded : Coded ((some "ok=42,43 command_not_found=127".toList).getD "ok=42".toList) := by
    intro token hlast
    rw [Option.getD_some, htokens] at hlast
    have htoken := hlast.mem
    rw [List.mem_pair] at htoken
    rcases htoken with rfl | rfl
    · exact ⟨'4', by decide +kernel, rfl⟩
    · exact ⟨'1', by decide +kernel, rfl⟩
  have hkept : Kept okRendering := by simp [Kept, okRendering]
  obtain ⟨husable, hback⟩ :=
    parseExitCodeMap_usable_iff (some "ok=42,43 command_not_found=127".toList) okRendering
  exact ⟨hparse, (husable _ hparse).mpr hcoded, hback.mpr hkept⟩

/-- A name alone is accepted, and the report fails. -/
theorem not_usable_bare : parseExitCodeMap (some "ok".toList) = .ok [("ok", [])] ∧
    status [("ok", [])] Jobs.empty = .error "syntax error" ∧ ¬ Usable [("ok", [])] := by
  refine ⟨rfl, rfl, ?_⟩
  rintro ⟨-, h⟩
  obtain ⟨stats, hok, -⟩ := h Jobs.empty
  cases hok

/-- The codes of an empty name go to the name before. -/
example : parseExitCodeMap (some "a=1 =42".toList) = .ok [("a", [1, 42])] := by rfl

end RubyQueue.ExitCodes
