/-
  File trees, and the commands that remove, write, copy and move what is in them.

  A path is the list of its names from the root on, and a tree says for each path what is there.
  The contents of a directory are the paths that go on from its own, so removing and copying act on
  everything behind a prefix: `rmRf_other` and `graft_other` say what they leave alone,
  `graft_copies` what a copy is.  A disk is a tree with finitely many paths, whose directories can be
  listed.

  Taken for granted: the directory a copy is put into is there, and there are no links.
-/
import Mathlib.Data.List.Dedup
import Mathlib.Data.List.DropRight
import Mathlib.Data.List.Infix
import Mathlib.Logic.Function.Basic

namespace RubyQueue.FileTree

abbrev Path := List String

/-- What there can be at a path. -/
inductive Entry
  | directory
  | file (content : String)
deriving DecidableEq, Repr

abbrev Tree := Path → Option Entry

/-! ## Paths -/

/-- The names in the text of a path. -/
def names (text : String) : List String := (text.toList.splitOn '/').map String.ofList

/-- `File.join` of two texts: one separator between them. -/
def join (a b : List Char) : List Char :=
  if b.head? = some '/' then a.rdropWhile (· = '/') ++ b
  else if a.getLast? = some '/' then a ++ b
  else a ++ '/' :: b

/-- Walk on from a path by names, `.` and `..`. -/
def walk : Path → List String → Path
  | p, [] => p
  | p, name :: names =>
    if name = "" ∨ name = "." then walk p names
    else if name = ".." then walk p.dropLast names
    else walk (p ++ [name]) names

/-- The path a text names, seen from `cwd`. -/
def expandPath (cwd : Path) (text : String) : Path :=
  walk (if text.toList.head? = some '/' then [] else cwd) (names text)

/-- Names that are no dots are walked one by one. -/
theorem walk_plain : ∀ {ns : List String} (p : Path), (∀ n ∈ ns, n ≠ "" ∧ n ≠ "." ∧ n ≠ "..") →
    walk p ns = p ++ ns
  | [], p, _ => (List.append_nil p).symm
  | n :: ns, p, h => by
    obtain ⟨hempty, hdot, hdots⟩ := h n List.mem_cons_self
    rw [walk, if_neg (by simp [hempty, hdot]), if_neg hdots,
      walk_plain _ fun m hm => h m (List.mem_cons_of_mem n hm), List.append_assoc,
      List.singleton_append]

/-- What goes on from a path with two names goes on from the path, unless it ends in one of the
    names. -/
theorem prefix_of_append_two {p q : Path} {a b : String} (h : p <+: q ++ [a, b])
    (hb : p.getLast? ≠ some b) (ha : p.getLast? ≠ some a) : p <+: q := by
  have hsplit : q ++ [a, b] = q ++ [a] ++ [b] := by simp
  rw [hsplit, List.prefix_concat_iff, List.prefix_concat_iff] at h
  rcases h with rfl | rfl | h
  · simp at hb
  · simp at ha
  · exact h

/-- To walk by two lists of names is to walk by one and then by the other. -/
theorem walk_append : ∀ (ns ms : List String) (p : Path), walk p (ns ++ ms) = walk (walk p ns) ms
  | [], _, _ => rfl
  | n :: ns, ms, p => by
    rw [List.cons_append, walk, walk]
    split
    · exact walk_append ns ms p
    · split <;> exact walk_append ns ms _

/-- The path of something in a directory. -/
theorem expandPath_child {cwd : Path} {dir : List Char} {n : String} (hdir : dir ≠ [])
    (hn : n ≠ "" ∧ n ≠ "." ∧ n ≠ ".." ∧ '/' ∉ n.toList) :
    expandPath cwd (String.ofList (dir ++ '/' :: n.toList))
      = expandPath cwd (String.ofList dir) ++ [n] := by
  have hnames : names (String.ofList (dir ++ '/' :: n.toList)) = names (String.ofList dir) ++ [n] := by
    simp only [names, String.toList_ofList]
    rw [List.splitOn_append_cons_self, List.splitOn_eq_singleton hn.2.2.2]
    simp
  have hhead : (dir ++ '/' :: n.toList).head? = dir.head? := List.head?_append_of_ne_nil dir hdir
  unfold expandPath
  rw [hnames, walk_append, String.toList_ofList, String.toList_ofList, hhead]
  exact walk_plain _ (by simpa using ⟨hn.1, hn.2.1, hn.2.2.1⟩)

/-! ## Removing and writing -/

/-- `rm -rf`: the path and everything behind it. -/
def rmRf (p : Path) (t : Tree) : Tree := fun x => if p <+: x then none else t x

/-- A file with this content, in place of what was there. -/
def write (p : Path) (content : String) (t : Tree) : Tree :=
  Function.update t p (some (.file content))

/-- The directory, and those above it that are not there. -/
def mkdirP (p : Path) (t : Tree) : Tree := fun x =>
  if x <+: p ∧ (t x).isNone then some .directory else t x

theorem rmRf_other {p x : Path} (h : ¬ p <+: x) (t : Tree) : rmRf p t x = t x := if_neg h

theorem rmRf_under {p x : Path} (h : p <+: x) (t : Tree) : rmRf p t x = none := if_pos h

theorem write_self (p : Path) (content : String) (t : Tree) :
    write p content t p = some (.file content) := Function.update_self ..

theorem write_ne {p x : Path} (h : x ≠ p) (content : String) (t : Tree) :
    write p content t x = t x := Function.update_of_ne h ..

theorem write_other {p x : Path} (h : ¬ p <+: x) (content : String) (t : Tree) :
    write p content t x = t x := by
  refine write_ne ?_ content t
  rintro rfl
  exact h List.prefix_rfl

/-- Remove several paths. -/
def rmAll (ps : List Path) (t : Tree) : Tree := ps.foldl (fun t p => rmRf p t) t

theorem rmAll_other {x : Path} : ∀ {ps : List Path} {t : Tree}, (∀ p ∈ ps, ¬ p <+: x) →
    rmAll ps t x = t x
  | [], _, _ => rfl
  | p :: ps, t, h => by
    show rmAll ps (rmRf p t) x = t x
    rw [rmAll_other fun q hq => h q (List.mem_cons_of_mem _ hq), rmRf_other (h p List.mem_cons_self)]

theorem rmAll_none {x : Path} : ∀ {ps : List Path} {t : Tree}, t x = none → rmAll ps t x = none
  | [], _, h => h
  | p :: ps, t, h => by
    refine @rmAll_none x ps (rmRf p t) ?_
    show (if p <+: x then none else t x) = none
    split
    · rfl
    · exact h

theorem rmAll_under {p x : Path} (hx : p <+: x) : ∀ {ps : List Path} {t : Tree}, p ∈ ps →
    rmAll ps t x = none
  | q :: ps, t, h => by
    rcases List.mem_cons.mp h with rfl | h
    · exact @rmAll_none x ps _ (rmRf_under hx t)
    · exact @rmAll_under p x hx ps _ h

/-! ## Copying and moving -/

/-- Where a copy of `src` goes: into the directory that is there, or to the path itself. -/
def target (t : Tree) (src dst : Path) : Path :=
  if t dst = some .directory then dst ++ src.getLast?.toList else dst

/-- Everything behind `src`, put behind `dst` as well. -/
def graft (src dst : Path) (t : Tree) : Tree := fun x =>
  if dst <+: x then (t (src ++ x.drop dst.length)).or (t x) else t x

/-- `cp -r`.  There must be something to copy, and it is not copied into itself. -/
def cpR (src dst : Path) (t : Tree) : Option Tree :=
  if t src = none ∨ src <+: target t src dst then none
  else some (graft src (target t src dst) t)

/-- `mv`.  A directory that is there is not replaced, and a directory replaces nothing. -/
def mv (src dst : Path) (t : Tree) : Option Tree :=
  let dst := target t src dst
  if t src = none ∨ src <+: dst ∨ t dst = some .directory ∨
      (t src = some .directory ∧ t dst ≠ none) then none
  else some fun x => if dst <+: x then t (src ++ x.drop dst.length) else rmRf src t x

/-- Onto a path with nothing at it, a copy is the same tree behind it; all else is as it was. -/
theorem cpR_eq_some_iff {src dst : Path} {t t' : Tree} (h : ∀ x, dst <+: x → t x = none) :
    cpR src dst t = some t' ↔ t src ≠ none ∧ ¬ src <+: dst ∧ t' = graft src dst t := by
  have hdst : t dst = none := h dst List.prefix_rfl
  have htarget : target t src dst = dst := by
    unfold target
    rw [hdst, if_neg (by simp)]
  unfold cpR
  rw [htarget]
  split
  · rename_i hno
    constructor
    · intro h
      cases h
    · rintro ⟨hsrc, hinto, -⟩
      rcases hno with hno | hno
      · exact absurd hno hsrc
      · exact absurd hno hinto
  · rename_i hno
    rw [not_or] at hno
    constructor
    · intro h
      exact ⟨hno.1, hno.2, (Option.some.inj h).symm⟩
    · rintro ⟨-, -, rfl⟩
      rfl

theorem graft_copies {src dst : Path} {t : Tree} (h : ∀ x, dst <+: x → t x = none) (rel : Path) :
    graft src dst t (dst ++ rel) = t (src ++ rel) := by
  unfold graft
  rw [if_pos (List.prefix_append dst rel), h _ (List.prefix_append dst rel), List.drop_left,
    Option.or_none]

theorem graft_other {src dst x : Path} (h : ¬ dst <+: x) (t : Tree) : graft src dst t x = t x :=
  if_neg h

/-! ## What a command removes -/

/-- What is in `P` is gone, and all else is as it was. -/
def Removes (P : Path → Prop) (t t' : Tree) : Prop :=
  ∀ x, (P x → t' x = none) ∧ (¬ P x → t' x = t x)

variable {P Q : Path → Prop} {t u v : Tree}

theorem removes_rmRf (p : Path) (t : Tree) : Removes (p <+: ·) t (rmRf p t) :=
  fun _ => ⟨fun h => rmRf_under h t, fun h => rmRf_other h t⟩

theorem Removes.of_eq (h : ∀ x, ¬ P x) (t : Tree) : Removes P t t :=
  fun x => ⟨fun hx => absurd hx (h x), fun _ => rfl⟩

theorem Removes.trans (htu : Removes P t u) (huv : Removes Q u v) :
    Removes (fun x => P x ∨ Q x) t v := by
  intro x
  by_cases hQ : Q x
  · exact ⟨fun _ => (huv x).1 hQ, fun h => absurd (Or.inr hQ) h⟩
  · have hv := (huv x).2 hQ
    exact ⟨fun h => hv.trans ((htu x).1 (h.resolve_right hQ)),
      fun h => hv.trans ((htu x).2 fun hP => h (Or.inl hP))⟩

/-- To have removed what is there of `Q` is to have removed `Q`. -/
theorem Removes.congr (h : Removes P t u) (hPQ : ∀ x, P x → Q x)
    (hQP : ∀ x, Q x → t x ≠ none → P x) : Removes Q t u := by
  intro x
  refine ⟨fun hQ => ?_, fun hQ => (h x).2 fun hP => hQ (hPQ x hP)⟩
  by_cases hP : P x
  · exact (h x).1 hP
  · rw [(h x).2 hP]
    by_contra hx
    exact hP (hQP x hQ hx)

/-- Nothing is there that was not there before. -/
theorem Removes.sub (h : Removes P t u) {x : Path} (hx : u x ≠ none) : t x ≠ none := by
  by_cases hP : P x
  · exact absurd ((h x).1 hP) hx
  · rwa [← (h x).2 hP]

/-! ## Disks -/

/-- Finitely many paths with something at them, by names a directory can list. -/
structure Disk where
  files : List (Path × Entry)
  plain : ∀ f ∈ files, ∀ n ∈ f.1, n ≠ "" ∧ n ≠ "." ∧ n ≠ ".." ∧ '/' ∉ n.toList

namespace Disk

/-- The tree on a disk. -/
def tree (w : Disk) : Tree := fun x => (w.files.find? fun f => f.1 = x).map Prod.snd

/-- The names in a directory. -/
def entries (w : Disk) (p : Path) : List String :=
  (w.files.filterMap fun f => if p <+: f.1 then (f.1.drop p.length).head? else none).dedup

/-- `rm -rf` on a disk. -/
def rmRf (p : Path) (w : Disk) : Disk where
  files := w.files.filter fun f => ¬ p <+: f.1
  plain := fun f hf => w.plain f (List.mem_of_mem_filter hf)

/-- `rm -f` of one path: a file goes, and of a directory nothing does. -/
def rmF (p : Path) (w : Disk) : Disk :=
  match w.tree p with
  | some (.file _) => {
      files := w.files.filter fun f => f.1 ≠ p
      plain := fun f hf => w.plain f (List.mem_of_mem_filter hf) }
  | _ => w

theorem tree_ne_none {w : Disk} {x : Path} : w.tree x ≠ none ↔ ∃ f ∈ w.files, f.1 = x := by
  simp [tree]

/-- A name is listed when there is something at it, or behind it. -/
theorem mem_entries {w : Disk} {p : Path} {n : String} :
    n ∈ w.entries p ↔ ∃ x, p ++ [n] <+: x ∧ w.tree x ≠ none := by
  have hone : ∀ x : Path, (if p <+: x then (x.drop p.length).head? else none) = some n ↔
      p ++ [n] <+: x := by
    intro x
    constructor
    · intro h
      split at h
      · rename_i hp
        obtain ⟨r, rfl⟩ := hp
        rw [List.drop_left] at h
        obtain ⟨r, rfl⟩ := List.head?_eq_some_iff.mp h
        exact ⟨r, by simp⟩
      · cases h
    · rintro ⟨r, rfl⟩
      simp
  simp only [entries, List.mem_dedup, List.mem_filterMap, hone, tree_ne_none]
  constructor
  · rintro ⟨f, hf, hx⟩
    exact ⟨f.1, hx, f, hf, rfl⟩
  · rintro ⟨x, hx, f, hf, rfl⟩
    exact ⟨f, hf, hx⟩

theorem entries_plain {w : Disk} {p : Path} {n : String} (h : n ∈ w.entries p) :
    n ≠ "" ∧ n ≠ "." ∧ n ≠ ".." ∧ '/' ∉ n.toList := by
  obtain ⟨x, ⟨r, rfl⟩, hx⟩ := mem_entries.mp h
  obtain ⟨f, hf, hfx⟩ := tree_ne_none.mp hx
  exact w.plain f hf n (by simp [hfx])

/-- Removing on a disk is removing in its tree. -/
theorem tree_rmRf (p : Path) (w : Disk) : (w.rmRf p).tree = FileTree.rmRf p w.tree := by
  funext x
  unfold tree rmRf FileTree.rmRf
  rw [List.find?_filter]
  by_cases h : p <+: x
  · rw [if_pos h, Option.map_eq_none_iff, List.find?_eq_none]
    rintro f - hf
    simp only [decide_not, Bool.not_eq_true', decide_eq_false_iff_not,
      decide_eq_true_eq] at hf
    exact hf.1 (hf.2 ▸ h)
  · rw [if_neg h]
    congr 2
    funext f
    by_cases hf : f.1 = x
    · simp [hf, h]
    · simp [hf]

theorem removes_rmF (p : Path) (w : Disk) :
    Removes (fun x => x = p ∧ ∃ content, w.tree p = some (.file content)) w.tree (w.rmF p).tree := by
  unfold rmF
  split
  · rename_i content hfile
    intro x
    constructor
    · rintro ⟨rfl, -⟩
      by_contra hx
      obtain ⟨f, hf, rfl⟩ := tree_ne_none.mp hx
      simpa using List.of_mem_filter hf
    · intro hx
      have hne : x ≠ p := fun h => hx ⟨h, content, hfile⟩
      unfold tree
      rw [List.find?_filter]
      congr 2
      funext f
      by_cases hf : f.1 = x
      · simp [hf, hne]
      · simp [hf]
  · rename_i hno
    refine Removes.of_eq ?_ w.tree
    rintro x ⟨-, content, hfile⟩
    exact hno content hfile

/-- **A loop of removals.**  What each round removes, from disks with `I`, and `I` is kept. -/
theorem removes_foldl {α : Type} {f : Disk → α → Disk} {R : α → Path → Prop} {I : Disk → Prop} :
    ∀ {l : List α} {w : Disk}, (∀ a ∈ l, ∀ w, I w → Removes (R a) w.tree (f w a).tree) →
      (∀ a ∈ l, ∀ w, I w → I (f w a)) → I w →
      Removes (fun x => ∃ a ∈ l, R a x) w.tree (l.foldl f w).tree
  | [], w, _, _, _ => Removes.of_eq (by simp) w.tree
  | a :: l, w, hstep, hkeep, hw => by
    have hfirst := hstep a List.mem_cons_self w hw
    have hrest : Removes (fun x => ∃ a ∈ l, R a x) (f w a).tree (l.foldl f (f w a)).tree :=
      removes_foldl (fun b hb => hstep b (List.mem_cons_of_mem a hb))
        (fun b hb => hkeep b (List.mem_cons_of_mem a hb)) (hkeep a List.mem_cons_self w hw)
    refine (hfirst.trans hrest).congr (fun x hx => ?_) (fun x hx _ => ?_)
    · rcases hx with hx | ⟨b, hb, hx⟩
      · exact ⟨a, List.mem_cons_self, hx⟩
      · exact ⟨b, List.mem_cons_of_mem a hb, hx⟩
    · obtain ⟨b, hb, hx⟩ := hx
      rcases List.mem_cons.mp hb with rfl | hb
      · exact Or.inl hx
      · exact Or.inr ⟨b, hb, hx⟩

end Disk

end RubyQueue.FileTree
