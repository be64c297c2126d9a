import NeuroMap.Partition.Search

/-!
# Cutting a range of atoms

A cutter yields the chunks of a range one by one. Each chunk is as long as all budgets allow at its start. When some
budget does not even allow one atom, the cutter reports the first such budget and stops.
-/

namespace NeuroMap

/-- The atom at `position` does not fit the constraint, even alone. -/
structure Unpartitionable where
  constraint : Constraint
  position : Nat
deriving DecidableEq, Repr

namespace Unpartitionable

/-- The error in words. -/
def message (e : Unpartitionable) : String :=
  s!"cannot place atom {e.position}: a single-atom chunk exceeds constraint " ++ e.constraint.text

end Unpartitionable

/-- A range on which the budget with the given number was asked. -/
structure Probe where
  budget : Nat
  range : AtomRange
deriving DecidableEq, Repr

/-- What is left of a range to cut, and whether a chunk was refused. -/
structure Cutter where
  budgets : List Budget
  cursor : Nat
  stop : Nat
  failed : Bool

namespace Cutter

/-- A cutter at the start of a range. -/
def new (budgets : List Budget) (r : AtomRange) : Cutter :=
  ⟨budgets, r.start, r.stop, false⟩

/-- Nothing more will be yielded. -/
def done (c : Cutter) : Bool :=
  c.failed || c.stop ≤ c.cursor

/-- The search of each budget at the cursor. -/
def searches (c : Cutter) : List (Budget × Search) :=
  c.budgets.map fun b => (b, b.search c.cursor c.stop)

/-- The first budget that allows no chunk at all. -/
def blocking (searches : List (Budget × Search)) : Option (Budget × Search) :=
  searches.find? (·.2.length = 0)

/-- The length that all budgets allow, starting from `limit`. -/
def shortest (searches : List (Budget × Search)) (limit : Nat) : Nat :=
  searches.foldl (fun n s => min n s.2.length) limit

/-- The next chunk or the error, and the cutter after it. -/
def next (c : Cutter) : Option (Except Unpartitionable AtomRange) × Cutter :=
  if c.done then (none, c)
  else
    let searches := c.searches
    match blocking searches with
    | some (b, _) => (some (.error ⟨b.constraint, c.cursor⟩), { c with failed := true })
    | none =>
      let stop := c.cursor + shortest searches (c.stop - c.cursor)
      (some (.ok ⟨c.cursor, stop⟩), { c with cursor := stop })

/-- The questions that the next call asks, in order: budgets after the first blocking one are not asked. -/
def probes (c : Cutter) : List Probe :=
  if c.done then []
  else
    let searches := c.searches
    let asked := match searches.findIdx? (·.2.length = 0) with
      | some i => searches.take (i + 1)
      | none => searches
    asked.zipIdx.flatMap fun (s, i) =>
      s.2.trials.map fun t => ⟨i, ⟨c.cursor, c.cursor + t.length⟩⟩

theorem shortest_pos {searches : List (Budget × Search)} {limit : Nat} (hlimit : 0 < limit)
    (h : blocking searches = none) : 0 < shortest searches limit := by
  have hall : ∀ s ∈ searches, 0 < s.2.length := by
    intro s hs
    have := List.find?_eq_none.1 h s hs
    simp at this
    omega
  clear h
  unfold shortest
  induction searches generalizing limit with
  | nil => exact hlimit
  | cons s rest ih =>
    rw [List.foldl_cons]
    exact ih (by have := hall s (by simp); omega) fun t ht => hall t (by simp [ht])

/-- A yielded chunk leaves less to cut. -/
theorem remaining_lt_of_next {c d : Cutter} {r : AtomRange} (h : c.next = (some (.ok r), d)) :
    d.stop - d.cursor < c.stop - c.cursor := by
  unfold next at h
  split at h
  · simp at h
  · rename_i hdone
    simp [done] at hdone
    dsimp only at h
    split at h
    · simp at h
    · rename_i hblock
      have hpos : 0 < shortest c.searches (c.stop - c.cursor) := shortest_pos (by omega) hblock
      obtain ⟨-, rfl⟩ := Prod.mk.inj h
      show c.stop - (c.cursor + _) < _
      omega

/-- Yields until the end or the first error, after the chunks already yielded. -/
def gather (c : Cutter) (chunks : Array AtomRange) : Except Unpartitionable (Array AtomRange) :=
  match _h : c.next with
  | (none, _) => .ok chunks
  | (some (.error e), _) => .error e
  | (some (.ok r), d) => gather d (chunks.push r)
termination_by c.stop - c.cursor
decreasing_by exact remaining_lt_of_next _h

/-- All chunks, or the first error. -/
def all (c : Cutter) : Except Unpartitionable (List AtomRange) :=
  (c.gather #[]).map (·.toList)

/-- All questions asked until the end or the first error, after those already asked. -/
def allProbes (c : Cutter) (asked : Array Probe) : Array Probe :=
  match _h : c.next with
  | (none, _) => asked
  | (some (.error _), _) => asked ++ c.probes
  | (some (.ok _), d) => allProbes d (asked ++ c.probes)
termination_by c.stop - c.cursor
decreasing_by exact remaining_lt_of_next _h

end Cutter

end NeuroMap
