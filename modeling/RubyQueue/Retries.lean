/-
  Transactions that are run again.

  `transaction` counts the errors of `transaction_wrap`, and begins to count anew when
  `lockd_recover_wrap` finds that the recovery marker has moved.  So there is no bound on the attempts
  of one transaction, and however many of them fail, in the block or in the commit, there are rounds in
  which it makes just these and then commits (`transaction_of_tries`).
-/
import RubyQueue.Transaction

namespace RubyQueue.Qdb

universe u v w

variable {δ : Type u} {π : Type v} {β : Type w} {body : Body δ π β} {d d' : δ} {p q : π}

/-- An attempt on the database `d` fails and leaves `q` of `p`: the block raises, or it returns and the
    commit raises. -/
def Fails (body : Body δ π β) (d : δ) (p q : π) : Prop :=
  ∃ b d' e, body b d p = ((d', q), e) ∧ (e = none ∨ e = some .standard)

/-- Any number of attempts fail. -/
abbrev Tries (body : Body δ π β) (d : δ) : π → π → Prop := Relation.ReflTransGen (Fails body d)

theorem attempt_of_fails (h : Fails body d p q) : ∃ a : Attempt β,
    attempt body a { db := d, priv := p, inTransaction := true } =
      ({ db := d, priv := q, inTransaction := true }, some .standard) := by
  obtain ⟨b, d', e, hb, he⟩ := h
  refine ⟨{ faults := { commit := true }, script := b }, ?_⟩
  unfold attempt aquireLock connect beginCommit
  rcases he with rfl | rfl
  · simp [hb]
  · simp [hb]

theorem attempt_of_returns {b : β} (h : body b d p = ((d', q), none)) :
    attempt body { script := b } { db := d, priv := p, inTransaction := true } =
      ({ db := d', priv := q, inTransaction := true }, none) := by
  unfold attempt aquireLock connect beginCommit
  simp [h]

/-- What is left of a transaction after `errors` errors of a round: this round, and then `rounds`. -/
def afterErrors (retries : Nat) (body : Body δ π β) (errors : Nat) (as : List (Attempt β))
    (rounds : List (Round β)) (s : State δ π) : Option (State δ π × Option Err) :=
  match transactionWrap retries body as errors s with
  | none => none
  | some (s, none) => some (s, none)
  | some (s, some _) => lockdRecoverWrap retries body rounds true s

theorem lockdRecoverWrap_advanced {retries : Nat} {as : List (Attempt β)} {rounds : List (Round β)}
    {tryAgain : Bool} {s : State δ π} :
    lockdRecoverWrap retries body (⟨true, as⟩ :: rounds) tryAgain s =
      afterErrors retries body 0 as rounds s := by
  rw [lockdRecoverWrap, afterErrors]
  split <;> simp_all

/-- One more attempt that fails: in the same round, or at its end. -/
theorem afterErrors_of_fails {retries : Nat} {r : Option (State δ π × Option Err)}
    (hf : Fails body d p q)
    (h : ∀ errors, ∃ as rounds, afterErrors retries body errors as rounds
      { db := d, priv := q, inTransaction := true } = r) (errors : Nat) :
    ∃ as rounds, afterErrors retries body errors as rounds
      { db := d, priv := p, inTransaction := true } = r := by
  obtain ⟨a, ha⟩ := attempt_of_fails hf
  by_cases hmore : errors < retries
  · obtain ⟨as, rounds, hr⟩ := h (errors + 1)
    refine ⟨a :: as, rounds, ?_⟩
    rw [← hr, afterErrors, afterErrors, transactionWrap, ha]
    simp [retriesAfter, hmore]
  · obtain ⟨as, rounds, hr⟩ := h 0
    refine ⟨[a], ⟨true, as⟩ :: rounds, ?_⟩
    rw [afterErrors, transactionWrap, ha]
    simp only [retriesAfter, hmore, decide_false, Bool.false_eq_true, if_false]
    rw [lockdRecoverWrap_advanced, hr]

/-- **Attempts that fail and one that returns are a transaction.** -/
theorem transaction_of_tries (retries : Nat) {b : β} {p' : π} (ht : Tries body d p q)
    (hb : body b d q = ((d', p'), none)) :
    ∃ rounds, transaction retries body rounds { db := d, priv := p } =
      some ({ db := d', priv := p' }, none) := by
  have hall : ∀ errors, ∃ as rounds, afterErrors retries body errors as rounds
      { db := d, priv := p, inTransaction := true } =
        some ({ db := d', priv := p', inTransaction := true }, none) := by
    induction ht using Relation.ReflTransGen.head_induction_on with
    | refl =>
      intro errors
      refine ⟨[{ script := b }], [], ?_⟩
      rw [afterErrors, transactionWrap, attempt_of_returns hb]
    | head hf _ ih => exact afterErrors_of_fails hf ih
  obtain ⟨as, rounds, hr⟩ := hall 0
  refine ⟨⟨true, as⟩ :: rounds, ?_⟩
  simp [transaction, lockdRecoverWrap_advanced, hr]

/-! ## What all attempts keep -/

section Keeps

variable {I : π → Prop} (hbody : ∀ b d p, I p → I (body b d p).1.2)
include hbody

/-- What the block keeps of the private state, however it ends, any number of failing attempts keep. -/
theorem Tries.keeps (h : Tries body d p q) (hp : I p) : I q := by
  induction h with
  | refl => exact hp
  | tail _ hf ih =>
    obtain ⟨b, d', e, hb, -⟩ := hf
    have hnext := hbody b d _ ih
    rwa [hb] at hnext

theorem attempt_keeps (a : Attempt β) {s : State δ π} (hs : I s.priv) :
    I (attempt body a s).1.priv := by
  rcases attempt_cases body a s with ⟨-, -, -, hpriv⟩ | ⟨-, -, hpriv | hpriv⟩
  · exact hpriv ▸ hbody _ _ _ hs
  · exact hpriv ▸ hs
  · exact hpriv ▸ hbody _ _ _ hs

/-- And so does the transaction. -/
theorem transaction_keeps {retries : Nat} {rounds : List (Round β)} {s : State δ π}
    {r : State δ π × Option Err} (hin : s.inTransaction = false) (hs : I s.priv)
    (h : transaction retries body rounds s = some r) : I r.1.priv := by
  have hends : Ends (fun _ p => I p) (fun _ p => I p) r :=
    transaction_rule (fun _ _ a _ s hs =>
      ⟨fun _ => attempt_keeps hbody a hs, fun _ => attempt_keeps hbody a hs⟩) hin hs h
  by_cases hr : r.2 = none
  · exact hends.1 hr
  · exact hends.2 hr

end Keeps

end RubyQueue.Qdb
