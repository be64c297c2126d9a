import NeuroMap.Proofs.Outcome
import NeuroMap.Proofs.Partition.Greedy

/-!
# The plain scan

A cutter bisects once for each budget and takes the shortest of the lengths found. The plain scan has one loop instead:
at every cursor it tries the lengths 1, 2, 3, … on all budgets together and takes the largest that fits. If no budget
rejects a chunk and accepts a longer one from the same start, both give the same results. The proof is a simulation: what
a cutter will still return is kept as a list, `results`, and every call takes the first item off this list.
-/

namespace NeuroMap

/-! ## Trying all lengths -/

/-- The largest of the lengths 1, …, `limit` that fits; zero if none does. -/
def longest (fits : Nat → Bool) (limit : Nat) : Nat :=
  (List.range' 1 limit).foldl (fun best n => if fits n then n else best) 0

section Longest

variable {fits : Nat → Bool} {limit n : Nat}

theorem longest_succ (fits : Nat → Bool) (limit : Nat) :
    longest fits (limit + 1) = if fits (limit + 1) then limit + 1 else longest fits limit := by
  unfold longest
  rw [List.range'_1_concat, List.foldl_append, Nat.add_comm 1]
  rfl

theorem longest_spec (fits : Nat → Bool) (limit : Nat) :
    longest fits limit ≤ limit ∧ (0 < longest fits limit → fits (longest fits limit) = true) ∧
      ∀ n, longest fits limit < n → n ≤ limit → fits n = false := by
  induction limit with
  | zero => exact ⟨Nat.le_refl 0, fun hpos => absurd hpos (Nat.lt_irrefl 0), fun n hn hle => by omega⟩
  | succ limit ih =>
    obtain ⟨hle, hfit, habove⟩ := ih
    rw [longest_succ]
    by_cases hlast : fits (limit + 1) = true
    · rw [if_pos hlast]
      exact ⟨Nat.le_refl _, fun _ => hlast, fun n hn hle => by omega⟩
    · rw [if_neg hlast]
      refine ⟨by omega, hfit, fun n hn hn' => ?_⟩
      rcases Nat.lt_or_eq_of_le hn' with hlt | rfl
      · exact habove n hn (by omega)
      · simpa using hlast

/-- A length that fits, with none that fits above it. -/
theorem eq_longest (hle : n ≤ limit) (hfit : 0 < n → fits n = true) (habove : ∀ m, n < m → m ≤ limit → fits m = false) :
    n = longest fits limit := by
  obtain ⟨hle', hfit', habove'⟩ := longest_spec fits limit
  rcases Nat.lt_trichotomy n (longest fits limit) with hlt | heq | hgt
  · have hrejected := habove _ hlt hle'
    rw [hfit' (by omega)] at hrejected
    cases hrejected
  · exact heq
  · have hrejected := habove' n hgt hle
    rw [hfit (by omega)] at hrejected
    cases hrejected

end Longest

/-! ## The reference -/

/-- A chunk fits all budgets at once. -/
def fitsAll (budgets : List Budget) (r : AtomRange) : Bool :=
  budgets.all (·.fits r)

theorem fitsAll_iff {budgets : List Budget} {r : AtomRange} :
    fitsAll budgets r = true ↔ ∀ b ∈ budgets, b.fits r = true :=
  List.all_eq_true

theorem exists_rejects {budgets : List Budget} {r : AtomRange} (h : fitsAll budgets r = false) :
    ∃ b ∈ budgets, b.fits r = false := by
  obtain ⟨b, hb, hrejects⟩ := List.all_eq_false.mp h
  exact ⟨b, hb, by simpa using hrejects⟩

/-- The first budget that rejects a single atom. -/
def firstRejecting (budgets : List Budget) (position : Nat) : Option Budget :=
  budgets.find? fun b => !b.fits ⟨position, position + 1⟩

/-- The results of the plain scan from a cursor on: at each cursor the longest chunk that fits all budgets, or else the
first budget that rejects a single atom. -/
def plainScan (budgets : List Budget) (cursor stop : Nat) : List (Except Unpartitionable AtomRange) :=
  if cursor < stop then
    match longest (fun n => fitsAll budgets ⟨cursor, cursor + n⟩) (stop - cursor) with
    | 0 => ((firstRejecting budgets cursor).map fun b => .error ⟨b.constraint, cursor⟩).toList
    | n + 1 => .ok ⟨cursor, cursor + (n + 1)⟩ :: plainScan budgets (cursor + (n + 1)) stop
  else []
termination_by stop - cursor

section Reference

variable {budgets : List Budget} {cursor stop n : Nat}

theorem plainScan_of_le (h : stop ≤ cursor) : plainScan budgets cursor stop = [] := by
  rw [plainScan, if_neg (by omega)]

theorem plainScan_of_longest (hpos : 0 < n)
    (h : n = longest (fun n => fitsAll budgets ⟨cursor, cursor + n⟩) (stop - cursor)) :
    plainScan budgets cursor stop = .ok ⟨cursor, cursor + n⟩ :: plainScan budgets (cursor + n) stop := by
  have hle := (longest_spec (fun n => fitsAll budgets ⟨cursor, cursor + n⟩) (stop - cursor)).1
  obtain ⟨m, rfl⟩ : ∃ m, n = m + 1 := ⟨n - 1, by omega⟩
  rw [plainScan, if_pos (by omega), ← h]

theorem plainScan_of_rejected {b : Budget} (hlt : cursor < stop) (hb : firstRejecting budgets cursor = some b)
    (h : 0 = longest (fun n => fitsAll budgets ⟨cursor, cursor + n⟩) (stop - cursor)) :
    plainScan budgets cursor stop = [.error ⟨b.constraint, cursor⟩] := by
  rw [plainScan, if_pos hlt, ← h, hb]
  rfl

/-- A chunk of the plain scan fits, and no longer one from the same start does. -/
theorem of_mem_plainScan_ok {chunk : AtomRange} (h : .ok chunk ∈ plainScan budgets cursor stop) :
    fitsAll budgets chunk = true ∧
      (chunk.stop ≠ stop → fitsAll budgets ⟨chunk.start, chunk.stop + 1⟩ = false) := by
  fun_induction plainScan budgets cursor stop with
  | case1 cursor hlt hnone =>
    obtain ⟨b, -, hb⟩ := List.mem_map.mp (Option.toList_map .. ▸ h)
    cases hb
  | case2 cursor hlt n hlongest ih =>
    obtain ⟨hle, hfit, habove⟩ := longest_spec (fun n => fitsAll budgets ⟨cursor, cursor + n⟩) (stop - cursor)
    rw [hlongest] at hle hfit habove
    rcases List.mem_cons.mp h with heq | hrest
    · obtain rfl := Except.ok.inj heq
      refine ⟨hfit (Nat.succ_pos n), fun hstop => habove (n + 2) (Nat.lt_succ_self _) ?_⟩
      have hstop : cursor + (n + 1) ≠ stop := hstop
      omega
    · exact ih hrest
  | case3 cursor hle => cases h

theorem of_mem_plainScan_error {e : Unpartitionable} (h : .error e ∈ plainScan budgets cursor stop) :
    ∃ b, firstRejecting budgets e.position = some b ∧ e.constraint = b.constraint := by
  fun_induction plainScan budgets cursor stop with
  | case1 cursor hlt hnone =>
    obtain ⟨b, hb, heq⟩ := Option.map_eq_some_iff.mp (Option.mem_toList.mp h)
    obtain rfl := Except.error.inj heq
    exact ⟨b, hb, rfl⟩
  | case2 cursor hlt n hlongest ih =>
    rcases List.mem_cons.mp h with heq | hrest
    · cases heq
    · exact ih hrest
  | case3 cursor hle => cases h

end Reference

/-! ## The simulation -/

namespace Budget

/-- Inside the range, every shorter chunk from the start of one that fits the budget fits it too. -/
def PrefixClosed (b : Budget) (r : AtomRange) : Prop :=
  ∀ s : AtomRange, s.Within r → b.fits s = true → ∀ q ≤ s.stop, s.start < q → b.fits ⟨s.start, q⟩ = true

instance (b : Budget) (r : AtomRange) : Decidable (b.PrefixClosed r) :=
  inferInstanceAs (Decidable (∀ s : AtomRange, s.Within r → _))

theorem PrefixClosed.shorterFits {b : Budget} {r : AtomRange} (h : b.PrefixClosed r) {cursor : Nat}
    (hcursor : r.start ≤ cursor) : b.ShorterFits cursor r.stop := by
  intro m n hm hmn hn hfit
  have hwithin : AtomRange.Within ⟨cursor, cursor + n⟩ r := by
    refine ⟨hcursor, ?_, ?_⟩
    · show cursor < cursor + n
      omega
    · show cursor + n ≤ r.stop
      omega
  refine h _ hwithin hfit (cursor + m) ?_ ?_
  · show cursor + m ≤ cursor + n
    omega
  · show cursor < cursor + m
    omega

end Budget

namespace Cutter

variable {c d : Cutter}

/-- From the cursor on, shorter chunks fit wherever longer ones do. -/
def Steady (c : Cutter) : Prop :=
  ∀ b ∈ c.budgets, ∀ p, c.cursor ≤ p → b.ShorterFits p c.stop

theorem Steady.shorterFits (hc : c.Steady) : ∀ b ∈ c.budgets, b.ShorterFits c.cursor c.stop :=
  fun b hb => hc b hb c.cursor le_rfl

/-- What the plain scan has for the calls to come. -/
def results (c : Cutter) : List (Except Unpartitionable AtomRange) :=
  if c.failed then [] else plainScan c.budgets c.cursor c.stop

theorem results_of_done (h : c.done = true) : c.results = [] := by
  unfold results
  by_cases hfailed : c.failed = true
  · rw [if_pos hfailed]
  · rw [if_neg hfailed]
    have hstop : c.stop ≤ c.cursor := by simpa [done, hfailed] using h
    exact plainScan_of_le hstop

theorem results_of_not_failed (h : c.failed = false) : c.results = plainScan c.budgets c.cursor c.stop := by
  unfold results
  rw [if_neg (by simp [h])]

theorem not_failed_of_open (h : c.done = false) : c.failed = false := by
  unfold done at h
  exact (Bool.or_eq_false_iff.mp h).1

/-- The chunk that a call yields has the length that the plain scan takes. -/
theorem longest_of_next {r : AtomRange} (hc : c.Steady) (h : c.next = (some (.ok r), d)) :
    ∃ n, 0 < n ∧ r = ⟨c.cursor, c.cursor + n⟩ ∧ d = { c with cursor := c.cursor + n } ∧
      n = longest (fun n => fitsAll c.budgets ⟨c.cursor, c.cursor + n⟩) (c.stop - c.cursor) := by
  obtain ⟨n, hr, hd, hpos, hle, -⟩ := of_next_ok h
  refine ⟨n, hpos, hr, hd, eq_longest hle (fun _ => ?_) fun m hm hmle => ?_⟩
  · rw [← hr]
    exact fitsAll_iff.mpr (fits_of_next hc.shorterFits h)
  · by_contra hfits
    have hall : fitsAll c.budgets ⟨c.cursor, c.cursor + m⟩ = true := by simpa using hfits
    have hlong : c.cursor + m ≤ r.stop := le_stop_of_next hc.shorterFits h (by omega) (fitsAll_iff.mp hall)
    rw [hr] at hlong
    have hlong : c.cursor + m ≤ c.cursor + n := hlong
    omega

/-- A budget blocks a call where the plain scan finds no length, and it is the one that the plain scan names. -/
theorem longest_of_blocked {b : Budget} (hc : c.Steady) (hopen : c.done = false)
    (hb : c.budgets.find? c.blocks = some b) :
    c.cursor < c.stop ∧ firstRejecting c.budgets c.cursor = some b ∧
      0 = longest (fun n => fitsAll c.budgets ⟨c.cursor, c.cursor + n⟩) (c.stop - c.cursor) := by
  obtain ⟨hmem, hlt, hrejects⟩ := rejects_of_blocked hopen hb
  refine ⟨hlt, ?_, eq_longest (Nat.zero_le _) (fun hpos => absurd hpos (Nat.lt_irrefl 0)) fun m hm hmle => ?_⟩
  · rw [firstRejecting, ← hb]
    exact List.find?_congr fun b' hb' => (blocks_eq (hc.shorterFits b' hb') hlt).symm
  · -- a longer chunk would have to fit this budget too, and then the single atom would
    by_contra hfits
    have hall : fitsAll c.budgets ⟨c.cursor, c.cursor + m⟩ = true := by simpa using hfits
    have hone := hc.shorterFits b hmem 1 m Nat.one_pos (by omega) hmle (fitsAll_iff.mp hall b hmem)
    rw [hrejects] at hone
    cases hone

/-- **One call** takes the first item off the results. -/
theorem next_results (hc : c.Steady) :
    c.next.1 = c.results.head? ∧ c.next.2.results = c.results.tail ∧ c.next.2.Steady := by
  rcases c.next_cases with ⟨hdone, hnext⟩ | ⟨b, hopen, hb, hnext⟩ | ⟨n, hopen, -, -, -, -, hnext⟩
  · rw [hnext]
    dsimp only
    rw [results_of_done hdone]
    exact ⟨rfl, rfl, hc⟩
  · obtain ⟨hlt, hfirst, hlongest⟩ := longest_of_blocked hc hopen hb
    rw [hnext, results_of_not_failed (not_failed_of_open hopen), plainScan_of_rejected hlt hfirst hlongest]
    exact ⟨rfl, rfl, hc⟩
  · have hfailed := not_failed_of_open hopen
    obtain ⟨n', hpos, hr, hd, hlongest⟩ := longest_of_next hc hnext
    rw [hnext, hr, hd, results_of_not_failed hfailed, plainScan_of_longest hpos hlongest]
    refine ⟨rfl, results_of_not_failed hfailed, fun b hb p hp => hc b hb p ?_⟩
    have hp : c.cursor + n' ≤ p := hp
    omega

/-- **All calls** return the results in order, and then nothing. -/
theorem item_eq_results (hc : c.Steady) (k : Nat) : c.item k = c.results[k]? := by
  induction k generalizing c with
  | zero =>
    show c.next.1 = c.results[0]?
    rw [(next_results hc).1, List.head?_eq_getElem?]
  | succ k ih =>
    obtain ⟨-, htail, hsteady⟩ := next_results hc
    show c.next.2.item k = c.results[k + 1]?
    rw [ih hsteady, htail, List.getElem?_tail]

/-- Collecting stops at the first error of the results. -/
theorem gather_eq_results (hc : c.Steady) (chunks : Array AtomRange) :
    c.gather chunks = (c.results.mapM id).map fun rest => chunks ++ rest.toArray := by
  fun_induction gather c chunks with
  | case1 c chunks d hnext =>
    have hhead := (next_results hc).1
    rw [hnext, eq_comm, List.head?_eq_none_iff] at hhead
    rw [hhead]
    simp [Except.map, pure, Except.pure]
  | case2 c chunks e d hnext =>
    have hhead := (next_results hc).1
    rw [hnext, eq_comm, List.head?_eq_some_iff] at hhead
    obtain ⟨rest, hrest⟩ := hhead
    rw [hrest]
    rfl
  | case3 c chunks r d hnext ih =>
    obtain ⟨hhead, htail, hsteady⟩ := next_results hc
    rw [hnext, eq_comm, List.head?_eq_some_iff] at hhead
    obtain ⟨rest, hrest⟩ := hhead
    rw [hnext] at htail hsteady
    rw [ih hsteady, htail, hrest, List.tail_cons, List.mapM_cons]
    cases rest.mapM id with
    | error e => rfl
    | ok rest => simp [Except.map, bind, Except.bind, pure, Except.pure]

/-- **The cutter is the plain scan.** If shorter chunks fit wherever longer ones from the same start do, the calls return
what the plain scan finds, and so does collecting. Hence every chunk fits all budgets at once, no longer one does unless
the chunk ends the range, and an error names the first budget that rejects the single atom at its position. -/
theorem item_eq_plainScan {budgets : List Budget} {r : AtomRange} (hb : ∀ b ∈ budgets, b.PrefixClosed r) :
    (∀ k, (new budgets r).item k = (plainScan budgets r.start r.stop)[k]?) ∧
      (new budgets r).all = (plainScan budgets r.start r.stop).mapM id ∧
      (∀ k chunk, (new budgets r).item k = some (.ok chunk) → (∀ b ∈ budgets, b.fits chunk = true) ∧
        (chunk.stop ≠ r.stop → ∃ b ∈ budgets, b.fits ⟨chunk.start, chunk.stop + 1⟩ = false)) ∧
      ∀ k e, (new budgets r).item k = some (.error e) →
        ∃ b, firstRejecting budgets e.position = some b ∧ e.constraint = b.constraint := by
  have hsteady : (new budgets r).Steady := fun b hmem p hp => (hb b hmem).shorterFits hp
  have hitem : ∀ k, (new budgets r).item k = (plainScan budgets r.start r.stop)[k]? := item_eq_results hsteady
  refine ⟨hitem, ?_, fun k chunk hk => ?_, fun k e hk => ?_⟩
  · unfold all
    rw [gather_eq_results hsteady]
    show (((plainScan budgets r.start r.stop).mapM id).map _).map _ = _
    cases (plainScan budgets r.start r.stop).mapM id with
    | error e => rfl
    | ok chunks => simp [Except.map]
  · rw [hitem] at hk
    obtain ⟨hfits, hlonger⟩ := of_mem_plainScan_ok (List.mem_of_getElem? hk)
    exact ⟨fitsAll_iff.mp hfits, fun hstop => exists_rejects (hlonger hstop)⟩
  · rw [hitem] at hk
    exact of_mem_plainScan_error (List.mem_of_getElem? hk)

/-- Chunks from an odd start need three times as much; the other budget has no room beyond a position. -/
def unevenBudgets (last : Float) : List Budget :=
  [⟨⟨3, 1, none⟩, fun r => if r.start % 2 = 0 then Usage.count r else 3 * Usage.count r⟩, ⟨⟨last, 1, none⟩, .position⟩]

/-- These budgets are not hereditary: a part of a chunk that fits may not fit. -/
theorem item_eq_plainScan_uneven :
    (¬ ∀ b ∈ unevenBudgets 6, b.Hereditary ⟨0, 6⟩) ∧
      (new (unevenBudgets 6) ⟨0, 6⟩).all = .ok [⟨0, 3⟩, ⟨3, 4⟩, ⟨4, 6⟩] ∧
      (∃ b ∈ unevenBudgets 6, b.fits ⟨3, 5⟩ = false) ∧
      (new (unevenBudgets 5) ⟨0, 6⟩).item 3 = some (.error ⟨⟨5, 1, none⟩, 5⟩) ∧
      (new (unevenBudgets 5) ⟨0, 6⟩).item 3 = (plainScan (unevenBudgets 5) 0 6)[3]? := by
  have hclosed : ∀ last ∈ [(5 : Float), 6], ∀ b ∈ unevenBudgets last, b.PrefixClosed ⟨0, 6⟩ := by decide +kernel
  obtain ⟨-, -, hchunks, -⟩ := item_eq_plainScan (hclosed 6 (by simp))
  obtain ⟨hitems, -⟩ := item_eq_plainScan (hclosed 5 (by simp))
  have hsecond : (new (unevenBudgets 6) ⟨0, 6⟩).item 1 = some (.ok ⟨3, 4⟩) := by decide +kernel
  exact ⟨by decide +kernel, by decide +kernel, (hchunks 1 _ hsecond).2 (by decide), by decide +kernel, hitems 3⟩

end Cutter

end NeuroMap
