import Mathlib.Data.List.DropRight
import NeuroMap.Diagnostic.Log

/-!
# What a log remembers of its calls

A log keeps a list, which is handed over and emptied, and a count, which is never taken back. Both are read off the
calls made so far: the list is what was emitted since it was last drained, and the count is that of the errors emitted
at any time. `Accounts` says so; one call keeps it true (`Accounts.call`), hence all calls do (`Accounts.calls`). Every
answer is then fixed by the calls before it.
-/

namespace NeuroMap.Log

/-- A call of a log. -/
inductive Call where
  | emit (d : Diagnostic)
  | drain
  | pending
  | hasCode (c : Code)
  | hasErrors
  | errorCount
deriving DecidableEq, Repr

/-- What a call returns. -/
inductive Answer where
  | nothing
  | diagnostics (ds : List Diagnostic)
  | truth (b : Bool)
  | count (n : Nat)
deriving DecidableEq, Repr

/-- What a call returns, and the log after it. -/
def call (l : Log) : Call → Answer × Log
  | .emit d => (.nothing, l.emit d)
  | .drain =>
    let (ds, rest) := l.drain
    (.diagnostics ds, rest)
  | .pending => (.diagnostics l.pending, l)
  | .hasCode c => (.truth (l.hasCode c), l)
  | .hasErrors => (.truth l.hasErrors, l)
  | .errorCount => (.count l.errorCount, l)

/-- Each of a sequence of calls with what it returns, and the log after all of them. -/
def calls (l : Log) : List Call → List (Call × Answer) × Log
  | [] => ([], l)
  | c :: rest =>
    let (answer, next) := l.call c
    let (answered, last) := next.calls rest
    ((c, answer) :: answered, last)

/-! ## The calls alone -/

/-- The diagnostics emitted, in order. -/
def emitted (cs : List Call) : List Diagnostic :=
  cs.filterMap fun
    | .emit d => some d
    | _ => none

/-- The calls after the last one that drains. -/
def sinceDrain (cs : List Call) : List Call :=
  cs.rtakeWhile (· ≠ .drain)

/-- The number of errors among diagnostics. -/
def errors (ds : List Diagnostic) : Nat :=
  ds.countP (·.severity = .error)

/-- What a call has to return after the calls before it. -/
def expected (before : List Call) : Call → Answer
  | .emit _ => .nothing
  | .drain => .diagnostics (emitted (sinceDrain before))
  | .pending => .diagnostics (emitted (sinceDrain before))
  | .hasCode c => .truth (∃ d ∈ emitted (sinceDrain before), d.code = c)
  | .hasErrors => .truth (0 < errors (emitted before))
  | .errorCount => .count (errors (emitted before))

/-- The diagnostics that one call handed over. -/
def handedOver : Call × Answer → List Diagnostic
  | (.drain, .diagnostics ds) => ds
  | _ => []

/-- The diagnostics handed over by all calls that drain, in order. -/
def drained (answered : List (Call × Answer)) : List Diagnostic :=
  answered.flatMap handedOver

theorem emitted_concat (cs : List Call) (c : Call) : emitted (cs ++ [c]) = emitted cs ++ emitted [c] :=
  List.filterMap_append

theorem sinceDrain_concat_drain (cs : List Call) : sinceDrain (cs ++ [.drain]) = [] := by
  unfold sinceDrain
  rw [List.rtakeWhile_concat]
  rfl

theorem emitted_sinceDrain_concat (cs : List Call) {c : Call} (hc : c ≠ .drain) :
    emitted (sinceDrain (cs ++ [c])) = emitted (sinceDrain cs) ++ emitted [c] := by
  have hlast : sinceDrain (cs ++ [c]) = sinceDrain cs ++ [c] := by
    unfold sinceDrain
    rw [List.rtakeWhile_concat, if_pos (by simpa using hc)]
  rw [hlast, emitted_concat]

/-! ## The log beside its calls -/

/-- What the log keeps, beside the calls made so far and the diagnostics handed over. -/
structure Accounts (l : Log) (before : List Call) (taken : List Diagnostic) : Prop where
  /-- Nothing emitted is lost or repeated. -/
  complete : taken ++ l.pending = emitted before
  recent : l.pending = emitted (sinceDrain before)
  counted : l.errorCount = errors (emitted before)

theorem accounts_empty : empty.Accounts [] [] where
  complete := rfl
  recent := rfl
  counted := rfl

variable {l : Log} {before : List Call} {taken : List Diagnostic}

theorem errorCount_emit (l : Log) (d : Diagnostic) : (l.emit d).errorCount = l.errorCount + errors [d] := by
  unfold emit errors
  by_cases hd : d.severity = .error
  · simp [hd, Severity.isError]
  · simp [hd, Severity.isError]

namespace Accounts

theorem hasErrors_iff (h : l.Accounts before taken) : l.hasErrors = true ↔ 0 < errors (emitted before) := by
  unfold hasErrors
  rw [h.counted, decide_eq_true_eq]

theorem hasCode_iff (h : l.Accounts before taken) (c : Code) :
    l.hasCode c = true ↔ ∃ d ∈ emitted (sinceDrain before), d.code = c := by
  unfold hasCode
  rw [h.recent, List.any_eq_true]
  simp only [beq_iff_eq]

/-- A question changes nothing that is accounted for, and hands nothing over. -/
theorem ask (h : l.Accounts before taken) {c : Call} (hc : c ≠ .drain) (hemitted : emitted [c] = []) :
    l.Accounts (before ++ [c]) (taken ++ []) where
  complete := by rw [emitted_concat, hemitted, List.append_nil, List.append_nil, h.complete]
  recent := by rw [emitted_sinceDrain_concat before hc, hemitted, List.append_nil, h.recent]
  counted := by rw [emitted_concat, hemitted, List.append_nil, h.counted]

theorem emit (h : l.Accounts before taken) (d : Diagnostic) :
    (l.emit d).Accounts (before ++ [.emit d]) (taken ++ []) where
  complete := by
    rw [emitted_concat, ← h.complete, List.append_nil, List.append_assoc]
    rfl
  recent := by
    rw [emitted_sinceDrain_concat before (by simp), ← h.recent]
    rfl
  counted := by
    rw [errorCount_emit, h.counted, emitted_concat]
    exact List.countP_append.symm

theorem drain (h : l.Accounts before taken) : l.drain.2.Accounts (before ++ [.drain]) (taken ++ l.pending) where
  complete := by
    rw [emitted_concat, h.complete]
    rfl
  recent := by
    rw [sinceDrain_concat_drain]
    rfl
  counted := by
    rw [emitted_concat]
    show l.errorCount = errors (emitted before ++ [])
    rw [List.append_nil, h.counted]

/-- **One call** returns what the calls before it require, and the accounts go on. -/
theorem call (h : l.Accounts before taken) (c : Call) :
    (l.call c).1 = expected before c ∧ (l.call c).2.Accounts (before ++ [c]) (taken ++ handedOver (c, (l.call c).1)) := by
  cases c with
  | emit d => exact ⟨rfl, h.emit d⟩
  | drain => exact ⟨congrArg Answer.diagnostics h.recent, h.drain⟩
  | pending => exact ⟨congrArg Answer.diagnostics h.recent, h.ask (by simp) rfl⟩
  | hasCode c =>
    refine ⟨congrArg Answer.truth (Bool.eq_iff_iff.mpr ?_), h.ask (by simp) rfl⟩
    rw [h.hasCode_iff, decide_eq_true_eq]
  | hasErrors =>
    refine ⟨congrArg Answer.truth (Bool.eq_iff_iff.mpr ?_), h.ask (by simp) rfl⟩
    rw [h.hasErrors_iff, decide_eq_true_eq]
  | errorCount => exact ⟨congrArg Answer.count h.counted, h.ask (by simp) rfl⟩

/-- **All calls** return what the calls before them require, and the accounts go on. -/
theorem calls (h : l.Accounts before taken) (cs : List Call) :
    (l.calls cs).2.Accounts (before ++ cs) (taken ++ drained (l.calls cs).1) ∧
      ∀ k c, cs[k]? = some c → (l.calls cs).1[k]? = some (c, expected (before ++ cs.take k) c) := by
  induction cs generalizing l before taken with
  | nil =>
    show l.Accounts (before ++ []) (taken ++ []) ∧ _
    rw [List.append_nil, List.append_nil]
    exact ⟨h, fun k c hk => by simp at hk⟩
  | cons c rest ih =>
    obtain ⟨hanswer, hnext⟩ := h.call c
    obtain ⟨hlast, hanswers⟩ := ih hnext
    refine ⟨?_, fun k c' hk => ?_⟩
    · rw [List.append_assoc, List.append_assoc] at hlast
      exact hlast
    · cases k with
      | zero =>
        obtain rfl : c = c' := by simpa using hk
        show some (c, (l.call c).1) = some (c, expected (before ++ []) c)
        rw [hanswer, List.append_nil]
      | succ k =>
        have hrest := hanswers k c' hk
        rw [List.append_assoc] at hrest
        exact hrest

end Accounts

/-- **The log neither loses nor repeats.** After any calls on a new log, what was handed over followed by what is pending
is what was emitted, in order; the count is that of all errors emitted, whatever was drained; there are errors exactly
if the count is positive, and a code is found exactly if a diagnostic with it was emitted since the log was last
drained. Every call on the way returned what the calls before it require. -/
theorem accounts_of_calls (cs : List Call) :
    drained (empty.calls cs).1 ++ (empty.calls cs).2.pending = emitted cs ∧
      (empty.calls cs).2.errorCount = errors (emitted cs) ∧
      ((empty.calls cs).2.hasErrors = true ↔ 0 < errors (emitted cs)) ∧
      (∀ c, (empty.calls cs).2.hasCode c = true ↔ ∃ d ∈ emitted (sinceDrain cs), d.code = c) ∧
      ∀ k c, cs[k]? = some c → (empty.calls cs).1[k]? = some (c, expected (cs.take k) c) := by
  obtain ⟨h, hanswers⟩ := accounts_empty.calls cs
  exact ⟨h.complete, h.counted, h.hasErrors_iff, h.hasCode_iff, hanswers⟩

end NeuroMap.Log
