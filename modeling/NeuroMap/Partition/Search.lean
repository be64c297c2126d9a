import NeuroMap.Partition.Constraint
import NeuroMap.Partition.Usage

/-!
# The search for a chunk's length

For one budget the longest chunk that starts at an atom is found by bisection. The search only asks whether chunks of
certain lengths fit, and it keeps the list of its questions and their answers. It needs no assumption on the answers to
end: the length that it returns was accepted, unless it is zero, and the next longer one was rejected, unless
there is none.
-/

namespace NeuroMap

/-- A constraint and the estimator of the resource that it limits. -/
structure Budget where
  constraint : Constraint
  usage : Usage

namespace Budget

/-- Whether a range of atoms stays within the budget. -/
def fits (b : Budget) (r : AtomRange) : Bool :=
  b.usage r ≤ b.constraint.maxUsage

end Budget

/-- A length that was asked about, and the answer. -/
structure Trial where
  length : Nat
  accepted : Bool
deriving DecidableEq, Repr

/-- The length found and all trials, in order. -/
structure Search where
  length : Nat
  trials : List Trial
deriving DecidableEq, Repr

namespace Search

/-- Bisects between `lo`, which counts as accepted, and `hi`, beyond which nothing counts. -/
def bisect (fits : Nat → Bool) (lo hi : Nat) : Search :=
  if lo < hi then
    let mid := lo + (hi - lo + 1) / 2
    if fits mid then
      let rest := bisect fits mid hi
      ⟨rest.length, ⟨mid, true⟩ :: rest.trials⟩
    else
      let rest := bisect fits lo (mid - 1)
      ⟨rest.length, ⟨mid, false⟩ :: rest.trials⟩
  else ⟨lo, []⟩
termination_by hi - lo
decreasing_by all_goals omega

end Search

namespace Budget

/-- The search for the longest chunk that starts at `cursor`, does not pass `stop` and stays within the budget. -/
def search (b : Budget) (cursor stop : Nat) : Search :=
  Search.bisect (fun n => b.fits ⟨cursor, cursor + n⟩) 0 (stop - cursor)

end Budget

end NeuroMap
