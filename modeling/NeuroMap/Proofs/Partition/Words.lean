import Mathlib.Data.Nat.Size
import Mathlib.Logic.Function.Basic
import NeuroMap.Proofs.Partition.Search
import NeuroMap.Proofs.Word.Checked

/-!
# Searches in words

Atoms are counted in words. A search in words computes the middle of what is left to bisect, and the end of the range that
it asks about, by operations that may leave the word, and it goes on until nothing is left to bisect. Its answers need not
come from an estimator that always says the same: an `Oracle` may look at all earlier questions, so it can give any
sequence of answers at all. `Window.run?` has no result if an operation leaves the word or if the loop is not over after a
given number of turns.

Every turn halves the window (`Window.exists_turn?`), so the loop is over after as many turns as the first window has bits,
and no length is asked about twice. Hence some predicate gives the same answers, and the search in words is the bisection
for this predicate (`Window.bisects`), about which everything is known already.
-/

namespace NeuroMap

/-- What answers the questions of a search, after the trials made before. -/
abbrev Oracle := List Trial → AtomRange → Bool

/-- The trials made after those asked before have the answers that were given. -/
def Oracle.Gave (answer : Oracle) (cursor : Nat) : List Trial → List Trial → Prop
  | _, [] => True
  | asked, t :: rest =>
    t.accepted = answer asked ⟨cursor, cursor + t.length⟩ ∧ Gave answer cursor (asked ++ [t]) rest

/-- An estimator without memory gives every trial its own answer. -/
theorem Oracle.Gave.accepted_eq {fits : AtomRange → Bool} {cursor : Nat} {asked trials : List Trial}
    (h : Oracle.Gave (fun _ => fits) cursor asked trials) :
    ∀ t ∈ trials, fits ⟨cursor, cursor + t.length⟩ = t.accepted := by
  induction trials generalizing asked with
  | nil => simp
  | cons t rest ih =>
    obtain ⟨hfirst, hrest⟩ := h
    intro u hu
    rcases List.mem_cons.mp hu with rfl | hu
    · exact hfirst.symm
    · exact ih hrest u hu

/-! ## The loop -/

/-- The lengths that are left to bisect: up to `lo` they count as accepted, above `hi` as rejected. -/
structure Window where
  lo : UInt32
  hi : UInt32

namespace Window

/-- The length in the middle, rounded up. -/
def middle? (w : Window) : Option UInt32 :=
  (Word.sub? w.hi w.lo).bind fun width => (Word.divUp? width 2).bind fun half => Word.add? w.lo half

/-- The window after the answer about its middle. -/
def narrow? (w : Window) (middle : UInt32) (accepted : Bool) : Option Window :=
  if accepted then some ⟨middle, w.hi⟩ else (Word.sub? middle 1).map fun hi => ⟨w.lo, hi⟩

/-- One turn of the loop: the window after it and the trial that was made. -/
def turn? (w : Window) (answer : Oracle) (cursor : UInt32) (asked : List Trial) : Option (Window × Trial) :=
  w.middle?.bind fun middle => (Word.add? cursor middle).bind fun stop =>
    let accepted := answer asked ⟨cursor.toNat, stop.toNat⟩
    (w.narrow? middle accepted).map fun rest => (rest, ⟨middle.toNat, accepted⟩)

/-- The loop, if it is over after a number of turns. -/
def run? (answer : Oracle) (cursor : UInt32) : Nat → Window → List Trial → Option Search
  | 0, w, asked => if w.lo < w.hi then none else some ⟨w.lo.toNat, asked⟩
  | turns + 1, w, asked =>
    if w.lo < w.hi then
      (w.turn? answer cursor asked).bind fun (rest, t) => run? answer cursor turns rest (asked ++ [t])
    else some ⟨w.lo.toNat, asked⟩

variable {w : Window} {answer : Oracle} {cursor : UInt32} {asked : List Trial}

theorem run?_of_closed (h : ¬ w.lo < w.hi) (turns : Nat) :
    run? answer cursor turns w asked = some ⟨w.lo.toNat, asked⟩ := by
  cases turns with
  | zero => exact if_neg h
  | succ turns => exact if_neg h

/-- A loop that is over stays over, however many turns it may still make. -/
theorem run?_of_le_turns {turns more : Nat} {s : Search} (hle : turns ≤ more)
    (h : run? answer cursor turns w asked = some s) : run? answer cursor more w asked = some s := by
  induction turns generalizing w asked more with
  | zero =>
    by_cases hopen : w.lo < w.hi
    · rw [run?, if_pos hopen] at h
      cases h
    · rw [run?_of_closed hopen] at h ⊢
      exact h
  | succ turns ih =>
    obtain ⟨more, rfl⟩ := Nat.exists_eq_add_of_le' (Nat.le_trans (Nat.le_add_left 1 turns) hle)
    by_cases hopen : w.lo < w.hi
    · rw [run?, if_pos hopen] at h ⊢
      obtain ⟨⟨rest, t⟩, hturn, hrest⟩ := Option.bind_eq_some_iff.mp h
      rw [hturn]
      exact ih (Nat.le_of_succ_le_succ hle) hrest
    · rw [run?_of_closed hopen] at h ⊢
      exact h

/-! ## One turn -/

/-- What a trial leaves of the lengths above `lo` and up to `hi`: those above it, or those below it. -/
def Leaves (lo hi : Nat) (t : Trial) (lo' hi' : Nat) : Prop :=
  (t.accepted = true ∧ lo' = t.length ∧ hi' = hi) ∨ (t.accepted = false ∧ lo' = lo ∧ hi' = t.length - 1)

theorem exists_middle? (h : w.lo.toNat < w.hi.toNat) :
    ∃ middle, w.middle? = some middle ∧ middle.toNat = w.lo.toNat + (w.hi.toNat - w.lo.toNat + 1) / 2 := by
  obtain ⟨width, hwidth, hwidth'⟩ := Word.exists_sub? (Nat.le_of_lt h)
  obtain ⟨half, hhalf, hhalf'⟩ := Word.exists_divUp?_two width
  have hhi : w.hi.toNat < UInt32.size := w.hi.toNat_lt
  have hroom : w.lo.toNat + half.toNat < UInt32.size := by
    rw [hhalf', hwidth']
    omega
  obtain ⟨middle, hmiddle, hmiddle'⟩ := Word.exists_add? hroom
  refine ⟨middle, ?_, by rw [hmiddle', hhalf', hwidth']⟩
  rw [middle?, hwidth, Option.bind_some, hhalf, Option.bind_some, hmiddle]

theorem exists_narrow? (w : Window) {middle : UInt32} (hpos : 0 < middle.toNat) (accepted : Bool) :
    ∃ rest, w.narrow? middle accepted = some rest ∧
      Leaves w.lo.toNat w.hi.toNat ⟨middle.toNat, accepted⟩ rest.lo.toNat rest.hi.toNat := by
  cases accepted with
  | true => exact ⟨⟨middle, w.hi⟩, rfl, .inl ⟨rfl, rfl, rfl⟩⟩
  | false =>
    obtain ⟨hi, hhi, hhi'⟩ := Word.exists_sub? (a := middle) (b := 1) hpos
    refine ⟨⟨w.lo, hi⟩, ?_, .inr ⟨rfl, rfl, hhi'⟩⟩
    rw [narrow?, hhi]
    rfl

/-- **One turn** stays inside the words and asks about the middle of the window. -/
theorem exists_turn? (answer : Oracle) (asked : List Trial) (hopen : w.lo.toNat < w.hi.toNat)
    (hroom : cursor.toNat + w.hi.toNat < UInt32.size) :
    ∃ rest t, w.turn? answer cursor asked = some (rest, t) ∧
      t.length = w.lo.toNat + (w.hi.toNat - w.lo.toNat + 1) / 2 ∧
      t.accepted = answer asked ⟨cursor.toNat, cursor.toNat + t.length⟩ ∧
      Leaves w.lo.toNat w.hi.toNat t rest.lo.toNat rest.hi.toNat := by
  obtain ⟨middle, hmiddle, hmiddle'⟩ := exists_middle? hopen
  have hstop : cursor.toNat + middle.toNat < UInt32.size := by omega
  obtain ⟨stop, hstop, hstop'⟩ := Word.exists_add? hstop
  have hpos : 0 < middle.toNat := by omega
  obtain ⟨rest, hrest, hleaves⟩ := exists_narrow? w hpos (answer asked ⟨cursor.toNat, stop.toNat⟩)
  refine ⟨rest, ⟨middle.toNat, answer asked ⟨cursor.toNat, stop.toNat⟩⟩, ?_, hmiddle', ?_, hleaves⟩
  · rw [turn?, hmiddle, Option.bind_some, hstop, Option.bind_some]
    dsimp only
    rw [hrest]
    rfl
  · rw [hstop']

end Window

/-! ## All turns -/

/-- Whatever is found in the lengths that a trial leaves, some answers lead there. -/
theorem Search.exists_bisect_cons {lo hi lo' hi' : Nat} {t : Trial} (hlt : lo < hi)
    (ht : t.length = lo + (hi - lo + 1) / 2) (hleaves : Window.Leaves lo hi t lo' hi') (fits : Nat → Bool) :
    ∃ fits', bisect fits' lo hi = ⟨(bisect fits lo' hi').length, t :: (bisect fits lo' hi').trials⟩ := by
  -- the length tried is not asked about again, so the other answers may stay as they are
  have hsame : bisect (Function.update fits t.length t.accepted) lo' hi' = bisect fits lo' hi' := by
    apply bisect_congr
    intro u hu
    obtain ⟨hlo, hhi⟩ := mem_bounds_of_mem_trials hu
    have hne : u.length ≠ t.length := by
      rcases hleaves with ⟨-, rfl, rfl⟩ | ⟨-, rfl, rfl⟩
      · omega
      · omega
    rw [Function.update_of_ne hne]
    exact (accepted_of_mem_trials hu).symm
  have hanswer : Function.update fits t.length t.accepted t.length = t.accepted := Function.update_self ..
  refine ⟨Function.update fits t.length t.accepted, ?_⟩
  obtain ⟨length, accepted⟩ := t
  rcases hleaves with ⟨rfl, rfl, rfl⟩ | ⟨rfl, rfl, rfl⟩
  · rw [bisect_of_accepted hlt ht hanswer, hsame]
  · rw [bisect_of_rejected hlt ht hanswer, hsame]

namespace Window

variable {w : Window} {answer : Oracle} {cursor : UInt32} {asked : List Trial}

/-- The search in words is the bisection for some predicate, after the trials made before, and the answers are those that
were given. -/
def Bisects (answer : Oracle) (cursor : UInt32) (turns : Nat) (w : Window) (asked : List Trial) : Prop :=
  ∃ fits s, Search.bisect fits w.lo.toNat w.hi.toNat = s ∧
    run? answer cursor turns w asked = some ⟨s.length, asked ++ s.trials⟩ ∧ answer.Gave cursor.toNat asked s.trials

theorem bisects_of_closed (h : ¬ w.lo < w.hi) (turns : Nat) : Bisects answer cursor turns w asked := by
  have hle : w.hi.toNat ≤ w.lo.toNat := Nat.le_of_not_lt fun hlt => h (UInt32.lt_iff_toNat_lt.mpr hlt)
  refine ⟨fun _ => false, ⟨w.lo.toNat, []⟩, Search.bisect_of_le hle, ?_, trivial⟩
  rw [run?_of_closed h, List.append_nil]

theorem bisects_of_turn {turns : Nat} {rest : Window} {t : Trial} (hopen : w.lo < w.hi)
    (hturn : w.turn? answer cursor asked = some (rest, t))
    (hlength : t.length = w.lo.toNat + (w.hi.toNat - w.lo.toNat + 1) / 2)
    (hgave : t.accepted = answer asked ⟨cursor.toNat, cursor.toNat + t.length⟩)
    (hleaves : Leaves w.lo.toNat w.hi.toNat t rest.lo.toNat rest.hi.toNat)
    (hrest : Bisects answer cursor turns rest (asked ++ [t])) : Bisects answer cursor (turns + 1) w asked := by
  obtain ⟨fits, s, rfl, hrun, hanswers⟩ := hrest
  obtain ⟨fits', hbisect⟩ := Search.exists_bisect_cons (UInt32.lt_iff_toNat_lt.mp hopen) hlength hleaves fits
  refine ⟨fits', _, hbisect, ?_, hgave, hanswers⟩
  rw [run?, if_pos hopen, hturn, Option.bind_some]
  dsimp only
  rw [hrun, List.append_assoc]
  rfl

/-- **All turns** together are a bisection. There are no more of them than the window has bits. -/
theorem bisects (answer : Oracle) (asked : List Trial) {turns : Nat} (hroom : cursor.toNat + w.hi.toNat < UInt32.size)
    (hturns : w.hi.toNat - w.lo.toNat < 2 ^ turns) : Bisects answer cursor turns w asked := by
  induction turns generalizing w asked with
  | zero =>
    apply bisects_of_closed
    rw [UInt32.lt_iff_toNat_lt]
    omega
  | succ turns ih =>
    by_cases hopen : w.lo < w.hi
    · have hlt : w.lo.toNat < w.hi.toNat := UInt32.lt_iff_toNat_lt.mp hopen
      obtain ⟨rest, t, hturn, hlength, hgave, hleaves⟩ := exists_turn? answer asked hlt hroom
      have hhalf : rest.hi.toNat ≤ w.hi.toNat ∧ rest.hi.toNat - rest.lo.toNat < 2 ^ turns := by
        rw [Nat.pow_succ] at hturns
        rcases hleaves with ⟨-, hlo, hhi⟩ | ⟨-, hlo, hhi⟩
        · omega
        · omega
      exact bisects_of_turn hopen hturn hlength hgave hleaves (ih _ (by omega) hhalf.2)
    · exact bisects_of_closed hopen _

end Window

/-! ## The search -/

namespace Search

/-- The search for the longest chunk that starts at `cursor` and does not pass `stop`, in words and in a number of
turns. -/
def inWords? (answer : Oracle) (cursor stop : UInt32) (turns : Nat) : Option Search :=
  (Word.sub? stop cursor).bind fun limit => Window.run? answer cursor turns ⟨0, limit⟩ []

/-- What the trials of a search have settled about the lengths up to `limit`. -/
structure Settled (answer : Oracle) (cursor limit : Nat) (s : Search) : Prop where
  answers : answer.Gave cursor [] s.trials
  inside : ∀ t ∈ s.trials, 1 ≤ t.length ∧ t.length ≤ limit
  few : s.trials.length ≤ limit.size
  within : s.length ≤ limit
  accepted : 0 < s.length → ⟨s.length, true⟩ ∈ s.trials
  rejected : s.length < limit → ⟨s.length + 1, false⟩ ∈ s.trials
  single : s.length = 0 ↔ ⟨1, false⟩ ∈ s.trials

theorem settled_bisect {answer : Oracle} {cursor limit : Nat} {fits : Nat → Bool} (hpos : 0 < limit)
    (hanswers : answer.Gave cursor [] (bisect fits 0 limit).trials) :
    Settled answer cursor limit (bisect fits 0 limit) where
  answers := hanswers
  inside _ ht := mem_bounds_of_mem_trials ht
  few := length_trials_le (Nat.lt_size_self limit)
  within := (length_mem_bounds (Nat.zero_le limit)).2
  accepted := length_mem_trials
  rejected := succ_length_mem_trials (Nat.zero_le limit)
  single := by
    constructor
    · intro hzero
      have hlt : (bisect fits 0 limit).length < limit := by omega
      have hrejected := succ_length_mem_trials (Nat.zero_le limit) hlt
      rwa [hzero] at hrejected
    · intro hrejected
      have hnot : ¬ 1 ≤ (bisect fits 0 limit).length := fun h => by
        cases (accepted_iff_le_length hrejected).mpr h
      omega

variable {cursor stop : UInt32}

/-- With as many turns as the distance has bits, or more, a search in words is a bisection. -/
theorem exists_inWords? (answer : Oracle) (h : cursor < stop) :
    ∃ fits s, bisect fits 0 (stop.toNat - cursor.toNat) = s ∧ answer.Gave cursor.toNat [] s.trials ∧
      ∀ turns, (stop.toNat - cursor.toNat).size ≤ turns → inWords? answer cursor stop turns = some s := by
  have hlt : cursor.toNat < stop.toNat := UInt32.lt_iff_toNat_lt.mp h
  have hstop : stop.toNat < UInt32.size := stop.toNat_lt
  obtain ⟨limit, hlimit, hlimit'⟩ := Word.exists_sub? (Nat.le_of_lt hlt)
  have hroom : cursor.toNat + (Window.mk 0 limit).hi.toNat < UInt32.size := by
    show cursor.toNat + limit.toNat < UInt32.size
    omega
  obtain ⟨fits, s, hbisect, hrun, hanswers⟩ := Window.bisects answer [] hroom (Nat.lt_size_self _)
  rw [← hlimit']
  refine ⟨fits, s, hbisect, hanswers, ?_⟩
  intro turns hturns
  rw [inWords?, hlimit, Option.bind_some]
  exact Window.run?_of_le_turns hturns hrun

/-- **Searches in words**, for any answers. For a cursor before the end, the loop stays inside the words and is over after as
many turns as the number of atoms has bits; it only asks about chunks that are not empty and do not pass the end. The
length it finds was accepted, unless it is zero, and the next longer one was rejected, unless there is none; it is zero
exactly if the single atom was rejected. For the answers of a budget it is the search of that budget. -/
theorem inWords_settled (h : cursor < stop) :
    (∀ answer : Oracle, ∃ s, Settled answer cursor.toNat (stop.toNat - cursor.toNat) s ∧
      ∀ turns, (stop.toNat - cursor.toNat).size ≤ turns → inWords? answer cursor stop turns = some s) ∧
    ∀ (b : Budget) (turns : Nat), (stop.toNat - cursor.toNat).size ≤ turns →
      inWords? (fun _ => b.fits) cursor stop turns = some (b.search cursor.toNat stop.toNat) := by
  have hlt : cursor.toNat < stop.toNat := UInt32.lt_iff_toNat_lt.mp h
  constructor
  · intro answer
    obtain ⟨fits, s, rfl, hanswers, hrun⟩ := exists_inWords? answer h
    exact ⟨_, settled_bisect (by omega) hanswers, hrun⟩
  · intro b turns hturns
    obtain ⟨fits, s, rfl, hanswers, hrun⟩ := exists_inWords? (fun _ => b.fits) h
    have hsearch : b.search cursor.toNat stop.toNat = bisect fits 0 (stop.toNat - cursor.toNat) :=
      bisect_congr hanswers.accepted_eq
    rw [hsearch]
    exact hrun turns hturns

/-- All atoms that a word can count, and answers that take turns. -/
theorem inWords_settled_alternating :
    (0 : UInt32) < 4294967295 ∧
      (inWords? (fun asked _ => asked.length % 2 == 1) 0 4294967295 32).map (·.length) = some 1431655765 ∧
      ∃ s, Settled (fun asked _ => asked.length % 2 == 1) 0 4294967295 s ∧
        inWords? (fun asked _ => asked.length % 2 == 1) 0 4294967295 32 = some s := by
  have hlt : (0 : UInt32) < 4294967295 := by decide
  obtain ⟨s, hsettled, hrun⟩ := (inWords_settled hlt).1 fun asked _ => asked.length % 2 == 1
  exact ⟨hlt, by decide +kernel, s, hsettled, hrun 32 (by decide +kernel)⟩

end Search

end NeuroMap
