import BhtBhte.Withdrawal.Runs
import Mathlib.Data.List.Nodup

/-!
# Executed once

Within an epoch only the first withdrawal with an identifier can be approved and executed, and a
status that it has left never comes back.  A new epoch forgets all of it: a request that was
executed before is accepted once more.  Without such a request every identifier is executed at most
once (`nodup_of_fresh`).
-/
namespace BhtBhte.Withdrawal

open BhtBhte.Lib
open BhtBhte.Script (MldsaLevel)

section Invariant
variable {P : Primitives} {w : World} {r r' : WithdrawalRequest}

/-- Nothing is executed twice, and what was executed cannot be executed again. -/
structure OnceInv (P : Primitives) (w : World) : Prop where
  nodup : w.executions.Nodup
  done : ∀ i hash r, FirstAt P w.validator.mPendingWithdrawals hash i r →
    hash ∈ w.executions → r.status = .pending ∨ r.status = .approved →
      maxWithdrawalDelay < r.amount

/-- A status is written that does not lead to an execution, unless the old one did. -/
theorem OnceInv.write {i : ℕ} {v' : CWithdrawalValidator} {notes : List Note} {clock : UInt64}
    (h : OnceInv P w) (hget : w.validator.mPendingWithdrawals[i]? = some r)
    (hpending : v'.mPendingWithdrawals = w.validator.mPendingWithdrawals.set i r')
    (hid : calculateWithdrawalId P r' = calculateWithdrawalId P r) (hamount : r'.amount = r.amount)
    (hstatus : r'.status = .pending ∨ r'.status = .approved →
      r.status = .pending ∨ r.status = .approved) :
    OnceInv P ⟨v', notes, w.executions, clock⟩ where
  nodup := h.nodup
  done j hash s hfirst hmem hopen := by
    rw [hpending] at hfirst
    rcases firstAt_set hget hid hfirst with ⟨rfl, rfl, hold⟩ | ⟨-, hold⟩
    · rw [hamount]
      exact h.done j hash r hold hmem (hstatus hopen)
    · exact h.done j hash s hold hmem hopen

theorem OnceInv.execute {i : ℕ} {hash : Bytes} {v' : CWithdrawalValidator} {notes : List Note}
    {clock : UInt64} (h : OnceInv P w)
    (hfirst : FirstAt P w.validator.mPendingWithdrawals hash i r) (hstatus : r.status = .approved)
    (hamount : r.amount ≤ maxWithdrawalDelay)
    (hpending : v'.mPendingWithdrawals = w.validator.mPendingWithdrawals.set i
      { r with status := .executed }) :
    OnceInv P ⟨v', notes, w.executions ++ [hash], clock⟩ where
  nodup := by
    refine List.nodup_append.mpr ⟨h.nodup, List.nodup_singleton hash, fun x hx y hy heq => ?_⟩
    rw [heq, List.mem_singleton.mp hy] at hx
    exact absurd (h.done i hash r hfirst hx (.inr hstatus)) (UInt64.not_lt.mpr hamount)
  done j hash' s hfirst' hmem hopen := by
    rw [hpending] at hfirst'
    rcases firstAt_set hfirst.1 (by rfl) hfirst' with ⟨rfl, rfl, -⟩ | ⟨hji, hold⟩
    · exact absurd hopen (by simp)
    · rcases List.mem_append.mp hmem with hmem | hmem
      · exact h.done j hash' s hold hmem hopen
      · rw [List.mem_singleton.mp hmem] at hold
        exact absurd (hold.eq hfirst).1 hji

/-- No request that would count was executed in an earlier epoch. -/
def Fresh (P : Primitives) (w : World) (call : Call) : Prop :=
  match call.op with
  | .submitWithdrawal request =>
    w.validator.verifyWithdrawalSignature P request = true →
      w.validator.verifyStateRootAnchor request.stateRoot = true →
      (∀ r ∈ w.validator.mPendingWithdrawals,
        calculateWithdrawalId P r ≠ calculateWithdrawalId P request) →
      request.amount ≤ maxWithdrawalDelay →
        calculateWithdrawalId P request ∉ w.executions
  | _ => True

theorem OnceInv.submit {v' : CWithdrawalValidator} {notes : List Note} {clock : UInt64}
    (h : OnceInv P w)
    (hpending : v'.mPendingWithdrawals = w.validator.mPendingWithdrawals ++ [r])
    (hfresh : (∀ s ∈ w.validator.mPendingWithdrawals,
        calculateWithdrawalId P s ≠ calculateWithdrawalId P r) →
      r.amount ≤ maxWithdrawalDelay → calculateWithdrawalId P r ∉ w.executions) :
    OnceInv P ⟨v', notes, w.executions, clock⟩ where
  nodup := h.nodup
  done j hash s hfirst hmem hopen := by
    rw [hpending] at hfirst
    rcases firstAt_of_concat hfirst with hold | ⟨rfl, rfl, hnew⟩
    · exact h.done j hash s hold hmem hopen
    · obtain rfl := hfirst.2.1
      by_contra hsmall
      exact hfresh hnew (UInt64.not_lt.mp hsmall) hmem

theorem OnceInv.exec {call : Call} (h : OnceInv P w) (hfresh : Fresh P w call) :
    OnceInv P (exec P call w) := by
  have hout := outcome_exec P call w
  generalize BhtBhte.Withdrawal.exec P call w = w' at hout
  cases hout with
  | same => exact ⟨h.nodup, h.done⟩
  | epoch hpending =>
      refine ⟨h.nodup, fun i hash r hfirst => ?_⟩
      rw [hpending] at hfirst
      cases hfirst.1
  | submitted hop haccepted hpending =>
      obtain ⟨hsignature, hanchor, -⟩ := submitWithdrawal_eq_true haccepted
      simp only [Fresh, hop] at hfresh
      exact h.submit hpending (hfresh hsignature hanchor)
  | challenged hop hproof hfirst hpending =>
      exact h.write hfirst.1 hpending rfl rfl (by simp)
  | approved hop hfirst hstatus hend hpending =>
      exact h.write hfirst.1 hpending rfl rfl fun _ => .inl hstatus
  | executed hop hfirst hstatus hamount hpending =>
      exact h.execute hfirst hstatus hamount hpending
  | expired hget hstatus hpending => exact h.write hget hpending rfl rfl (by simp)

/-- A request that was executed in an earlier epoch can be executed again. -/
theorem exists_twice {call : Call}
    (hlength : w.notes.length = w.validator.mPendingWithdrawals.length)
    (hstale : ¬ Fresh P w call) :
    ∃ calls, ¬ (runOps (exec P) (call :: calls) w).executions.Nodup := by
  obtain ⟨now, op⟩ := call
  cases op with
  | submitWithdrawal request =>
      simp only [Fresh, Classical.not_imp, not_not] at hstale
      obtain ⟨hsignature, hanchor, hnew, hamount, hmem⟩ := hstale
      refine ⟨(straight P request now request.challengeEndTime).tail, ?_⟩
      have hrun := @runOps_straight P w request now request.challengeEndTime hsignature hanchor hnew
        hamount (UInt64.le_refl _) hlength
      rw [show Call.mk now (.submitWithdrawal request) ::
          (straight P request now request.challengeEndTime).tail =
        straight P request now request.challengeEndTime from rfl, hrun]
      simpa [List.nodup_append] using fun _ => hmem
  | _ => exact absurd trivial hstale

end Invariant

/-- **Without a replay from an earlier epoch every identifier is executed at most once.** -/
theorem nodup_of_fresh (P : Primitives) (level : MldsaLevel) (calls : List Call)
    (hfresh : Allowed (exec P) (Fresh P) calls (.start level)) :
    (runOps (exec P) calls (.start level)).executions.Nodup := by
  have hstart : OnceInv P (.start level) := ⟨List.nodup_nil, fun i hash r h => by cases h.1⟩
  exact (run_induction (fun call w h hcall => h.exec hcall) hstart hfresh).nodup

/-- The same request in two epochs. -/
def replayedCalls : List Call :=
  ⟨0, .initWithdrawalEpoch [1] 7⟩ :: straight trusting (someRequest 0) 0 0 ++
    ⟨0, .initWithdrawalEpoch [1] 7⟩ :: straight trusting (someRequest 0) 0 0

theorem not_nodup_replayedCalls :
    ¬ (runOps (exec trusting) replayedCalls (.start .level3)).executions.Nodup := by
  decide

/-- A request of another transaction. -/
def otherRequest : WithdrawalRequest :=
  { someRequest 0 with l2TransactionHash := List.replicate 32 4 }

/-- Two epochs with a request each. -/
def freshCalls : List Call :=
  ⟨0, .initWithdrawalEpoch [1] 7⟩ :: straight trusting (someRequest 0) 0 0 ++
    ⟨0, .initWithdrawalEpoch [1] 7⟩ :: straight trusting otherRequest 0 0

/-- Both are executed, each of them once. -/
theorem nodup_freshCalls :
    (runOps (exec trusting) freshCalls (.start .level3)).executions =
        [calculateWithdrawalId trusting (someRequest 0),
          calculateWithdrawalId trusting otherRequest] ∧
      (runOps (exec trusting) freshCalls (.start .level3)).executions.Nodup := by
  have hsecond : calculateWithdrawalId trusting otherRequest ∉
      [calculateWithdrawalId trusting (someRequest 0)] := by decide
  exact ⟨by decide, nodup_of_fresh trusting .level3 _
    ⟨trivial, fun _ _ _ _ => List.not_mem_nil, trivial, trivial, trivial, fun _ _ _ _ => hsecond,
      trivial, trivial, trivial⟩⟩

end BhtBhte.Withdrawal
