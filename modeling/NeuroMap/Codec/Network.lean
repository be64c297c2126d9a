import NeuroMap.Codec.Basic
import NeuroMap.Netlist.Basic
import NeuroMap.Partition.Constraint

/-!
# Codecs of key fields, constraints, vertices and slices
-/

namespace NeuroMap

namespace FieldDecl

/-- The fields of a field declaration; the tags may be missing. -/
def fields : Fields FieldDecl := do
  let name ← Fields.required "name" Data.asText
  let offset ← Fields.required "offset" Data.asWord
  let length ← Fields.required "length" Data.asWord
  let tags ← Fields.defaulted "tags" (Data.asList Data.asText) []
  return new name offset length tags

/-- A field declaration as a record. -/
def codec : Codec FieldDecl :=
  .ofFields fields fun d =>
    [("name", .text d.name), ("offset", .ofWord d.offset), ("length", .ofWord d.length), ("tags", .ofTexts d.tags)]

end FieldDecl

namespace Constraint

/-- A constraint as a record; whether it makes sense is not checked. -/
def codec : Codec Constraint :=
  .ofFields
    (do
      let maximum ← Fields.required "maximum" Data.asFloat
      let target ← Fields.required "target" Data.asFloat
      let name ← Fields.optional "name" Data.asText
      return { maximum, target, name })
    fun c => [("maximum", .decimal c.maximum), ("target", .decimal c.target), ("name", .ofOption .text c.name)]

end Constraint

namespace AtomRange

/-- A range of atoms as a record without any other member. -/
def codec : Codec AtomRange where
  read d := do
    let d ← d.withNames ["start", "end"]
    d.asRecord true do
      return ⟨← Fields.required "start" Data.asNat, ← Fields.required "end" Data.asNat⟩
  write r := .ofMembers [("start", .ofNat r.start), ("end", .ofNat r.stop)]

end AtomRange

namespace Vertex

/-- A vertex as a record. -/
def codec : Codec Vertex :=
  .ofFields
    (do
      let id ← Fields.required "id" Data.asWord
      let name ← Fields.required "name" Data.asText
      let atoms ← Fields.required "n_atoms" Data.asNat
      return { id, name, atoms })
    fun v => [("id", .ofWord v.id), ("name", .text v.name), ("n_atoms", .ofNat v.atoms)]

end Vertex

namespace Slice

/-- A slice as a record. -/
def codec : Codec Slice :=
  .ofFields
    (do
      let id ← Fields.required "id" Data.asWord
      let vertex ← Fields.required "vertex" Data.asWord
      let atoms ← Fields.required "atoms" AtomRange.codec.read
      let cluster ← Fields.required "cluster" Data.asWord
      return { id, vertex, atoms, cluster })
    fun s =>
      [("id", .ofWord s.id), ("vertex", .ofWord s.vertex), ("atoms", AtomRange.codec.write s.atoms),
        ("cluster", .ofWord s.cluster)]

end Slice

end NeuroMap
