import NeuroMap.Codec.Basic
import NeuroMap.Region.Reception
import NeuroMap.Region.SynapseTable

/-!
# Codecs of filters, receptions and synapse tables
-/

namespace NeuroMap

namespace FilterKind

/-- A filtering method as a record that starts with the name of the method. All of it has to be readable, also what is
not asked for. -/
def codec : Codec FilterKind where
  read d := do
    guard d.isReadable
    d.asRecord true do
      match ← Fields.required "type" Data.asText with
      | "none" => return none
      | "lowpass" => return lowpass (← Fields.required "time_constant" Data.asFloat)
      | "linear" =>
        let num ← Fields.required "num" (Data.asList Data.asFloat)
        let den ← Fields.required "den" (Data.asList Data.asFloat)
        return linear num den
      | _ => failure
  write
    | none => .ofMembers [("type", .text "none")]
    | lowpass tau => .ofMembers [("type", .text "lowpass"), ("time_constant", .decimal tau)]
    | linear num den =>
      .ofMembers [("type", .text "linear"), ("num", .list (num.map .decimal)), ("den", .list (den.map .decimal))]

end FilterKind

namespace Filter

/-- A filter as a record. -/
def codec : Codec Filter :=
  .ofFields
    (do
      let width ← Fields.required "width" Data.asWord
      let latching ← Fields.required "latching" Data.asBool
      let kind ← Fields.required "kind" FilterKind.codec.read
      return { width, latching, kind })
    fun f => [("width", .ofWord f.width), ("latching", .bool f.latching), ("kind", FilterKind.codec.write f.kind)]

end Filter

namespace Reception

/-- The way a signal is received as a record. -/
def codec : Codec Reception :=
  .ofFields
    (do
      let filter ← Fields.required "filter" FilterKind.codec.read
      let width ← Fields.required "width" Data.asWord
      return { filter, width })
    fun r => [("filter", FilterKind.codec.write r.filter), ("width", .ofWord r.width)]

end Reception

namespace FilterOptions

/-- The options of filter tables as a record. -/
def codec : Codec FilterOptions :=
  .ofFields
    (do
      let minimise ← Fields.required "minimise" Data.asBool
      let width ← Fields.optional "width" Data.asWord
      let routingTag ← Fields.required "filter_routing_tag" Data.asText
      let indexField ← Fields.required "index_field" Data.asText
      return { minimise, width, routingTag, indexField })
    fun o =>
      [("minimise", .bool o.minimise), ("width", .ofOption .ofWord o.width),
        ("filter_routing_tag", .text o.routingTag), ("index_field", .text o.indexField)]

end FilterOptions

namespace SynapseEntry

/-- An entry of a synapse table as a record. -/
def codec : Codec SynapseEntry :=
  .ofFields
    (do
      let key ← Fields.required "key" Data.asWord
      let mask ← Fields.required "mask" Data.asWord
      let blockOffset ← Fields.required "block_offset" Data.asWord
      let neuronMask ← Fields.required "neuron_mask" Data.asWord
      return { key, mask, blockOffset, neuronMask })
    fun e =>
      [("key", .ofWord e.key), ("mask", .ofWord e.mask), ("block_offset", .ofWord e.blockOffset),
        ("neuron_mask", .ofWord e.neuronMask)]

end SynapseEntry

namespace SynapseTable

/-- A synapse table as a record. -/
def codec : Codec SynapseTable :=
  .ofFields
    (do return ⟨← Fields.required "entries" (Data.asList SynapseEntry.codec.read)⟩)
    fun t => [("entries", .list (t.entries.map SynapseEntry.codec.write))]

end SynapseTable

end NeuroMap
