import NeuroMap.Network.Basic

/-!
# Mapping a network

The populations are cut into slices, the connections become nets between slices, the slices are placed and their
clusters numbered, and every slice that receives signals gets the image of its core. The first error ends the mapping;
what was reported until then stays in the log.
-/

namespace NeuroMap

/-- An outcome and the mapping in progress at that point. -/
abbrev Progress (α : Type) := Except (Failure MapError) α × Mapping

namespace Mapping

/-- Cuts a population into slices. -/
def addPopulation (m : Mapping) (s : Settings) (p : Population) : Progress (List SliceId) :=
  let (vertex, netlist) := m.netlist.addVertex p.name p.size
  let m := { m with netlist }
  match p.budgets s with
  | .error e => (.error (.error (.constraint e)), m)
  | .ok budgets =>
    match m.cutVertex vertex budgets with
    | (.error (.error e), m) => (.error (.error (.partition e)), m)
    | (.error (.fault f), m) => (.error (.fault f), m)
    | (.ok slices, m) => (.ok slices, m)

/-- Cuts all populations into slices. -/
def addPopulations (s : Settings) : Mapping → List Population → Progress (List (List SliceId))
  | m, [] => (.ok [], m)
  | m, p :: ps =>
    match m.addPopulation s p with
    | (.error e, m) => (.error e, m)
    | (.ok slices, m) =>
      match addPopulations s m ps with
      | (.error e, m) => (.error e, m)
      | (.ok rest, m) => (.ok (slices :: rest), m)

end Mapping

namespace Connection

/-- The key field that tells the source population. -/
def objectField : String := "object"

/-- The key field that tells the connection. -/
def connectionField : String := "connection"

/-- Sets a field, if the key has it, to a number cut to a word. -/
def setIfDeclared (k : Key) (field : String) (n : Nat) : Except KeyError Key :=
  if k.has field then k.set field (UInt32.ofNat n).toNat else .ok k

/-- The key of the connection at a position. -/
def key (c : Connection) (format : Format) (index : Nat) : Except KeyError Key := do
  let k ← setIfDeclared (Key.new format) objectField c.source
  setIfDeclared k connectionField index

end Connection

namespace Mapping

/-- Adds the nets of the connection at a position, between the slices of its populations. -/
def addConnection (m : Mapping) (format : Format) (slices : Array (List SliceId)) (index : Nat) (c : Connection) :
    Progress Link :=
  match c.key format index with
  | .error e => (.error (.error (.key e)), m)
  | .ok key =>
    match slices[c.target]?, slices[c.source]? with
    | none, _ => (.error (.fault (.noPopulation c.target)), m)
    | _, none => (.error (.fault (.noPopulation c.source)), m)
    | some sinks, some sources =>
      let (nets, netlist) := m.netlist.addNets sources sinks c.width.toNat key
      (.ok ⟨c, sinks, nets⟩, { m with netlist })

/-- Adds the nets of connections from position `index` on. -/
def addConnections (format : Format) (slices : Array (List SliceId)) :
    Mapping → Nat → List Connection → Progress (List Link)
  | m, _, [] => (.ok [], m)
  | m, index, c :: cs =>
    match m.addConnection format slices index c with
    | (.error e, m) => (.error e, m)
    | (.ok link, m) =>
      match addConnections format slices m (index + 1) cs with
      | (.error e, m) => (.error e, m)
      | (.ok rest, m) => (.ok (link :: rest), m)

end Mapping

namespace Link

/-- The signals of a link, one for each net, under the keys that the nets have now. -/
def signals (n : Netlist) (l : Link) : Except Fault (List (Signal × Reception)) :=
  l.nets.mapM fun id => do
    let net ← n.net id
    return (⟨net.key, l.connection.latching⟩, ⟨l.connection.filter, l.connection.width⟩)

end Link

namespace Mapping

/-- The signals that a slice receives, by link. -/
def signalsTo (n : Netlist) (links : List Link) (slice : SliceId) : Except Fault (List (Signal × Reception)) := do
  let all ← (links.filter (·.sinks.contains slice)).mapM (Link.signals n)
  return all.flatten

/-- Makes the tables and the image of a slice that receives the given signals. -/
def addReceiver (m : Mapping) (s : Settings) (slice : SliceId) (signals : List (Signal × Reception)) :
    Progress Receiver :=
  let tables := ReceptionTables.make signals s.dt s.options
  match tables.encode m.log with
  | (.error (.error e), log) => (.error (.error (.region e)), { m with log })
  | (.error (.fault f), log) => (.error (.fault f), { m with log })
  | (.ok _, log) =>
    let m := { m with log }
    match Image.build [tables.filters.region, tables.routing.region] with
    | .error e => (.error (.error (.region e)), m)
    | .ok image => (.ok ⟨slice, tables, image⟩, m)

/-- Makes the tables and images of all slices that receive anything. -/
def addReceivers (s : Settings) (links : List Link) : Mapping → List SliceId → Progress (List Receiver)
  | m, [] => (.ok [], m)
  | m, slice :: slices =>
    match signalsTo m.netlist links slice with
    | .error f => (.error (.fault f), m)
    | .ok [] => addReceivers s links m slices
    | .ok signals =>
      match m.addReceiver s slice signals with
      | (.error e, m) => (.error e, m)
      | (.ok receiver, m) =>
        match addReceivers s links m slices with
        | (.error e, m) => (.error e, m)
        | (.ok rest, m) => (.ok (receiver :: rest), m)

/-- Numbers the clusters of all groups; every slice is placed. -/
def placeSlices {α : Type} [DecidableEq α] (m : Mapping) (place : Netlist → SliceId → α) : Progress ClusterReport :=
  let n := m.netlist
  match m.identifyClusters (fun slice => if n.hasSlice slice then some (place n slice) else none) n.groups.toList with
  | (.error (.error e), m) => (.error (.error (.cluster e)), m)
  | (.error (.fault f), m) => (.error (.fault f), m)
  | (.ok report, m) => (.ok report, m)

end Mapping

namespace Network

/-- Maps a network whose slices are placed by `place`, and reports to a log. -/
def map {α : Type} [DecidableEq α] (network : Network) (s : Settings) (place : Netlist → SliceId → α) (log : Log) :
    Progress MappedNetwork :=
  let m : Mapping := ⟨.empty, log⟩
  match s.format with
  | .error e => (.error (.error (.key e)), m)
  | .ok format =>
    match m.addPopulations s network.populations with
    | (.error e, m) => (.error e, m)
    | (.ok slices, m) =>
      match m.addConnections format slices.toArray 0 network.connections with
      | (.error e, m) => (.error e, m)
      | (.ok links, m) =>
        match m.placeSlices place with
        | (.error e, m) => (.error e, m)
        | (.ok clusters, m) =>
          match m.addReceivers s links slices.flatten with
          | (.error e, m) => (.error e, m)
          | (.ok receivers, m) =>
            (.ok {
              netlist := m.netlist
              slices
              nets := links.map (·.nets)
              clusters
              receivers
              diagnostics := m.log.pending }, m)

end Network

end NeuroMap
