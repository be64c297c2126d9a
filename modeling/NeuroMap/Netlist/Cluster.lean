import NeuroMap.Netlist.Mapping

/-!
# Clusters

The slices of a group that were placed at the same location form a cluster. Clusters are numbered within their group in
the order in which their locations first occur. The pass numbers the clusters of all groups first and checks that every
net can carry its number; only then it writes the numbers to the slices and to the keys of the nets. A net whose
key has no field for the number is reported once per group, if the group has several clusters.
-/

namespace NeuroMap

/-- Why clusters cannot be numbered. -/
inductive ClusterError where
  /-- The slice has no location. -/
  | unplaced (slice : SliceId)
  /-- The slice occurs twice in the groups. -/
  | alreadyClustered (slice : SliceId)
  /-- The netlist has no such slice. -/
  | unknownSlice (slice : SliceId)
  /-- The number does not fit a key. -/
  | key (e : KeyError)
deriving DecidableEq, Repr

namespace ClusterError

/-- The error in words. -/
def message : ClusterError → String
  | unplaced s => s!"slice {s} is in a cluster group but has not been placed"
  | alreadyClustered s => s!"slice {s} is listed in more than one cluster group"
  | unknownSlice s => s!"slice {s} does not exist in the netlist"
  | key e => e.message

end ClusterError

/-- The number of clusters of each group, cut to a word, and the number of keys that carry a cluster number. -/
structure ClusterReport where
  clustersPerGroup : Array UInt32
  keysWritten : Nat
deriving DecidableEq, Repr

/-- The group of a slice and its cluster in that group. -/
structure Seat where
  group : Nat
  cluster : UInt32
deriving DecidableEq, Repr

/-- The seats given so far, by slice, and the number of clusters of each group seen, cut to a word. -/
structure Seating where
  seats : Array (Option Seat)
  counts : Array UInt32
deriving DecidableEq, Repr

namespace Seating

/-- No slice of the netlist has a seat. -/
def empty (n : Netlist) : Seating :=
  ⟨Array.replicate n.slices.size none, #[]⟩

/-- The seat of a slice. -/
def seat? (s : Seating) (slice : SliceId) : Option Seat :=
  (s.seats[slice.toNat]?).join

section

variable {α : Type} [DecidableEq α] (location : SliceId → Option α)

/-- The locations of a group with `x` among them, and the position of `x`, cut to a word. -/
def locate (locations : Array α) (x : α) : Array α × UInt32 :=
  match locations.idxOf? x with
  | some i => (locations, UInt32.ofNat i)
  | none => (locations.push x, UInt32.ofNat locations.size)

/-- Gives a member of a group its seat. -/
def seatMember (group : Nat) (state : Array (Option Seat) × Array α) (slice : SliceId) :
    Except ClusterError (Array (Option Seat) × Array α) :=
  match state.1[slice.toNat]? with
  | none => .error (.unknownSlice slice)
  | some (some _) => .error (.alreadyClustered slice)
  | some none =>
    match location slice with
    | none => .error (.unplaced slice)
    | some x =>
      let (locations, cluster) := locate state.2 x
      .ok (state.1.setIfInBounds slice.toNat (some ⟨group, cluster⟩), locations)

/-- Gives all members of the next group their seats. -/
def seatGroup (s : Seating) (group : List SliceId) : Except ClusterError Seating :=
  match group.foldlM (seatMember location s.counts.size) (s.seats, #[]) with
  | .error e => .error e
  | .ok (seats, locations) => .ok ⟨seats, s.counts.push (UInt32.ofNat locations.size)⟩

/-- Gives the members of all groups their seats. -/
def ofGroups (n : Netlist) (groups : List (List SliceId)) : Except ClusterError Seating :=
  groups.foldlM (seatGroup location) (empty n)

end

/-- Whether the key of a net can carry the cluster of the net's source. -/
def checkNet (s : Seating) (net : Net) : Except ClusterError Unit :=
  match s.seat? net.source with
  | none => .ok ()
  | some seat =>
    if net.key.has Format.clusterField then
      match net.key.set Format.clusterField seat.cluster.toNat with
      | .ok _ => .ok ()
      | .error e => .error (.key e)
    else .ok ()

/-- The slices that have a seat, in order, each with its seat. -/
def visits (s : Seating) : List (SliceId × Seat) :=
  ((List.range (min s.seats.size UInt32.size)).map UInt32.ofNat).filterMap fun slice =>
    (s.seat? slice).map fun seat => (slice, seat)

end Seating

/-- Moves slices to the clusters of their seats, one after the other. -/
def Netlist.moveAll (n : Netlist) (visits : List (SliceId × Seat)) : Except Fault Netlist :=
  visits.foldlM (fun n visit => n.setCluster visit.1 visit.2.cluster) n

/-- The report that placed parts of a source share their key. -/
def ambiguousSource (v : Vertex) (clusters : UInt32) (format : String) : Diagnostic :=
  Diagnostic.ofCode .ambiguousSource "instances of a partitioned source cannot be told apart"
    |>.about ("vertex `" ++ v.name ++ "`")
    |>.noting (s!"its slices occupy {clusters} locations but key format `{format}` has no `"
        ++ Format.clusterField ++ "` field")

/-- The nets written so far, the groups reported, the log, and the number of keys written. -/
structure KeyPass where
  nets : Array Net
  reported : List Nat
  log : Log
  written : Nat

namespace KeyPass

/-- Writes the key of one net, or reports its group. -/
def step (n : Netlist) (s : Seating) (p : KeyPass) (net : Net) : Except (Failure ClusterError) KeyPass :=
  match s.seat? net.source with
  | none => .ok { p with nets := p.nets.push net }
  | some seat =>
    if net.key.has Format.clusterField then
      match net.key.set Format.clusterField seat.cluster.toNat with
      | .ok key => .ok { p with nets := p.nets.push { net with key }, written := p.written + 1 }
      | .error e => .error (.error (.key e))
    else
      match s.counts[seat.group]? with
      | none => .error (.fault (.noGroup seat.group))
      | some clusters =>
        if 1 < clusters && !p.reported.contains seat.group then
          match n.slice net.source with
          | .error f => .error (.fault f)
          | .ok slice =>
            match n.vertex slice.vertex with
            | .error f => .error (.fault f)
            | .ok v =>
              .ok { p with
                nets := p.nets.push net
                reported := seat.group :: p.reported
                log := p.log.emit (ambiguousSource v clusters net.key.formatName) }
        else .ok { p with nets := p.nets.push net }

/-- Writes the keys of all nets in order. The first net that cannot be written stops the pass; it and the nets after it
stay as they are. -/
def run (n : Netlist) (s : Seating) : KeyPass → List Net → Except (Failure ClusterError) Unit × KeyPass
  | p, [] => (.ok (), p)
  | p, net :: rest =>
    match p.step n s net with
    | .ok p => run n s p rest
    | .error e => (.error e, { p with nets := p.nets ++ net :: rest })

end KeyPass

namespace Mapping

/-- Writes the keys of all nets. -/
def writeKeys (m : Mapping) (s : Seating) : Except (Failure ClusterError) ClusterReport × Mapping :=
  let (result, p) := KeyPass.run m.netlist s ⟨#[], [], m.log, 0⟩ m.netlist.nets.toList
  (result.map fun _ => ⟨s.counts, p.written⟩, { netlist := { m.netlist with nets := p.nets }, log := p.log })

/-- Numbers the clusters of the groups by the locations of their slices. -/
def identifyClusters {α : Type} [DecidableEq α] (m : Mapping) (location : SliceId → Option α)
    (groups : List (List SliceId)) : Except (Failure ClusterError) ClusterReport × Mapping :=
  match Seating.ofGroups location m.netlist groups with
  | .error e => (.error (.error e), m)
  | .ok s =>
    match m.netlist.nets.toList.forM s.checkNet with
    | .error e => (.error (.error e), m)
    | .ok () =>
      match m.netlist.moveAll s.visits with
      | .error f => (.error (.fault f), m)
      | .ok netlist => { m with netlist }.writeKeys s

end Mapping

end NeuroMap
