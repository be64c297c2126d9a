import NeuroMap.Proofs.Netlist.Clusters

/-!
# Cluster passes that fail

A cluster pass looks at every net twice: once to check that the cluster of the net's source fits the key, and once to
write it. The two looks decide alike (`KeyPass.step_eq_error_iff`), so a pass whose checks succeed finds no number too
large while it writes, and a pass that returns an error has written nothing.
-/

namespace NeuroMap

namespace Seating

variable {s : Seating} {net : Net}

theorem exists_set_of_checkNet_ok (h : s.checkNet net = .ok ()) {seat : Seat} (hseat : s.seat? net.source = some seat)
    (hhas : net.key.has Format.clusterField = true) : ∃ key, net.key.set Format.clusterField seat.cluster.toNat = .ok key := by
  unfold checkNet at h
  rw [hseat] at h
  simp only [if_pos hhas] at h
  cases hset : net.key.set Format.clusterField seat.cluster.toNat with
  | ok key => exact ⟨key, rfl⟩
  | error e => simp [hset] at h

end Seating

namespace KeyPass

variable {n : Netlist} {s : Seating} {e : ClusterError}

/-- **One net.** The net stops the writing exactly when it fails its check, and with the same error. -/
theorem step_eq_error_iff (p : KeyPass) (net : Net) :
    p.step n s net = .error (.error e) ↔ s.checkNet net = .error e := by
  unfold step Seating.checkNet
  cases hseat : s.seat? net.source with
  | none => simp
  | some seat =>
    dsimp only
    by_cases hhas : net.key.has Format.clusterField = true
    · rw [if_pos hhas, if_pos hhas]
      cases hset : net.key.set Format.clusterField seat.cluster.toNat with
      | ok key => simp
      | error e' => simp
    · rw [if_neg hhas, if_neg hhas]
      -- What is left can only fault: it looks up the group, and the slice and the vertex of a report.
      have hnone : (Except.ok () : Except ClusterError Unit) ≠ .error e := by simp
      refine iff_of_false ?_ hnone
      intro h
      split at h
      · cases h
      · split at h
        · split at h
          · cases h
          · split at h <;> cases h
        · cases h

/-- **All nets.** -/
theorem checkNet_of_run_error {p : KeyPass} {nets : List Net} (h : (run n s p nets).1 = .error (.error e)) :
    ∃ net ∈ nets, s.checkNet net = .error e := by
  induction nets generalizing p with
  | nil => cases h
  | cons net rest ih =>
    unfold run at h
    cases hstep : p.step n s net with
    | ok q =>
      rw [hstep] at h
      obtain ⟨net', hmem, herror⟩ := ih h
      exact ⟨net', .tail _ hmem, herror⟩
    | error failure =>
      rw [hstep] at h
      obtain rfl : failure = .error e := Except.error.inj h
      exact ⟨net, .head _, (step_eq_error_iff p net).mp hstep⟩

end KeyPass

namespace Mapping

variable {α : Type} [DecidableEq α] {m : Mapping} {location : SliceId → Option α} {groups : List (List SliceId)} {s : Seating}

theorem checkNet_of_checkClusters (h : m.checkClusters location groups = .ok s) :
    ∀ net ∈ m.netlist.nets, s.checkNet net = .ok () := by
  intro net hnet
  exact Outcome.forM_eq_ok_iff.mp (checkClusters_eq_ok_iff.mp h).2 net (by simpa using hnet)

/-- Nets that passed their checks do not stop the writing. -/
theorem run_ne_error_of_checkClusters (h : m.checkClusters location groups = .ok s) (p : KeyPass)
    (nets : List Net) (hnets : ∀ net ∈ nets, net ∈ m.netlist.nets) (e : ClusterError) :
    (KeyPass.run m.netlist s p nets).1 ≠ .error (.error e) := by
  intro herror
  obtain ⟨net, hmem, hcheck⟩ := KeyPass.checkNet_of_run_error herror
  rw [checkNet_of_checkClusters h net (hnets net hmem)] at hcheck
  cases hcheck

theorem identifyClusters_ne_error_of_check_ok (h : m.checkClusters location groups = .ok s) (e : ClusterError) :
    (m.identifyClusters location groups).1 ≠ .error (.error e) := by
  have hrun := run_ne_error_of_checkClusters h ⟨#[], [], m.log, 0⟩ m.netlist.nets.toList (by simp) e
  rw [identifyClusters_of_check_ok h]
  exact fun herror => hrun (Outcome.map_eq_error_iff.mp herror)

/-- **All or nothing.** A cluster pass that returns an error leaves the netlist and the log as they were. All its errors
are those of its checks: once these have succeeded, every key that is to be written takes its number, and no part of the
writing, wherever it starts, ends in an error. -/
theorem identifyClusters_atomic (m : Mapping) (location : SliceId → Option α) (groups : List (List SliceId)) :
    (∀ e m', m.identifyClusters location groups = (.error (.error e), m') → m' = m) ∧
    (∀ e, (m.identifyClusters location groups).1 = .error (.error e) ↔ m.checkClusters location groups = .error e) ∧
    ∀ s, m.checkClusters location groups = .ok s →
      (∀ net ∈ m.netlist.nets, ∀ seat, s.seat? net.source = some seat → net.key.has Format.clusterField = true →
        ∃ key, net.key.set Format.clusterField seat.cluster.toNat = .ok key) ∧
      ∀ (p : KeyPass) (nets : List Net), (∀ net ∈ nets, net ∈ m.netlist.nets) →
        ∀ e, (KeyPass.run m.netlist s p nets).1 ≠ .error (.error e) := by
  cases hcheck : m.checkClusters location groups with
  | error e =>
    have heq := identifyClusters_of_check_error hcheck
    refine ⟨fun e' m' h => ?_, fun e' => ?_, fun s hs => nomatch hs⟩
    · rw [heq] at h
      exact (Prod.mk.inj h).2.symm
    · rw [heq]
      simp only [Except.error.injEq, Failure.error.injEq]
  | ok s =>
    have hne := identifyClusters_ne_error_of_check_ok hcheck
    refine ⟨fun e m' h => absurd (congrArg Prod.fst h) (hne e), fun e => iff_of_false (hne e) nofun, ?_⟩
    intro s' hs'
    obtain rfl : s = s' := Except.ok.inj hs'
    refine ⟨fun net hnet seat => ?_, run_ne_error_of_checkClusters hcheck⟩
    exact Seating.exists_set_of_checkNet_ok (checkNet_of_checkClusters hcheck net hnet)

/-- Keys with one bit for a cluster. -/
def narrowFormat : Format where
  name := "narrow"
  fields := [⟨⟨Format.clusterField, 31, 1, []⟩, by decide, by decide, by decide⟩]
  apart := by decide

/-- Three slices of a vertex, of which the last one's keys have no room for a third cluster. -/
def crowded : Mapping where
  netlist :=
    { vertices := #[⟨0, "pre", 30⟩]
      slices := #[⟨0, 0, ⟨0, 10⟩, 5⟩, ⟨1, 0, ⟨10, 20⟩, 6⟩, ⟨2, 0, ⟨20, 30⟩, 7⟩]
      nets := #[⟨0, 1, [0], 1, .new .standard⟩, ⟨1, 0, [2], 1, .new plainFormat⟩, ⟨2, 1, [2], 1, .new narrowFormat⟩,
        ⟨3, 2, [0], 1, .new narrowFormat⟩]
      groups := #[[0, 1, 2]] }
  log := Log.empty.emit (ambiguousSource ⟨9, "before", 1⟩ 2 "plain")

/-- The pass over `crowded` stops at the last net, after three that can be written or reported; that over `scattered`
passes its checks. -/
theorem identifyClusters_atomic_crowded :
    (crowded.identifyClusters some [[0, 1, 2]]).1 = .error (.error (.key (.valueTooLarge "cluster" 2 1))) ∧
    (crowded.identifyClusters some [[0, 1, 2]]).2 = crowded ∧
    ∃ s, scattered.checkClusters scatteredAt [[2, 1, 0], [4, 3]] = .ok s ∧
      ∀ e, (KeyPass.run scattered.netlist s ⟨#[], [], scattered.log, 0⟩ scattered.netlist.nets.toList).1 ≠
        .error (.error e) := by
  have herror : (crowded.identifyClusters some [[0, 1, 2]]).1 =
      .error (.error (.key (.valueTooLarge "cluster" 2 1))) := by decide +kernel
  have hcheck : ∃ s, scattered.checkClusters scatteredAt [[2, 1, 0], [4, 3]] = .ok s :=
    ⟨⟨#[some ⟨0, 1⟩, some ⟨0, 1⟩, some ⟨0, 0⟩, some ⟨1, 0⟩, some ⟨1, 0⟩, none], #[2, 1]⟩, by decide +kernel⟩
  obtain ⟨s, hs⟩ := hcheck
  refine ⟨herror, (identifyClusters_atomic crowded some [[0, 1, 2]]).1 _ _ (Prod.ext herror rfl), s, hs, ?_⟩
  exact ((identifyClusters_atomic scattered scatteredAt [[2, 1, 0], [4, 3]]).2.2 s hs).2 _ _ (by simp)

end Mapping

end NeuroMap
