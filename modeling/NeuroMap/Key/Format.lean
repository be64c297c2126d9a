import NeuroMap.Key.Field

/-!
# Key formats

A format is a named list of fields with different names and no bit in common. It is built by adding one declaration
after the other.
-/

namespace NeuroMap

/-- Two fields can stand in one format. -/
def Field.Apart (e f : Field) : Prop :=
  e.name ≠ f.name ∧ e.mask &&& f.mask = 0

instance (e f : Field) : Decidable (e.Apart f) :=
  inferInstanceAs (Decidable (_ ∧ _))

/-- How the bits of a routing key are used. -/
structure Format where
  name : String
  fields : List Field
  apart : fields.Pairwise Field.Apart
deriving DecidableEq

namespace Format

/-- The format without fields. -/
def empty (name : String) : Format :=
  ⟨name, [], .nil⟩

/-- Adds a field at the end; the first earlier field that it cannot stand beside is reported. -/
def add (format : Format) (d : FieldDecl) : Except KeyError Format :=
  match d.place with
  | .error e => .error e
  | .ok f =>
    match h : format.fields.find? (fun e => ¬ e.Apart f) with
    | some e =>
      if e.name = f.name then .error (.duplicateField f.name) else .error (.overlappingFields e.name f.name)
    | none =>
      .ok ⟨format.name, format.fields ++ [f], List.pairwise_append.2
        ⟨format.apart, List.pairwise_singleton _ _, fun e he f' hf' => by
          have := List.find?_eq_none.1 h e he
          rw [List.mem_singleton.1 hf']
          simpa using this⟩⟩

/-- The format with the given declarations. -/
def build (name : String) (decls : List FieldDecl) : Except KeyError Format :=
  decls.foldlM add (empty name)

/-- The field of the given name. -/
def field? (format : Format) (name : String) : Option Field :=
  format.fields.find? (·.name = name)

/-- Whether the format declares the field. -/
def has (format : Format) (name : String) : Bool :=
  (format.field? name).isSome

/-- The field of the given name, or the error that there is none. -/
def require (format : Format) (name : String) : Except KeyError Field :=
  match format.field? name with
  | some f => .ok f
  | none => .error (.unavailableField name format.name)

/-- The fields that carry a tag, in order of declaration. -/
def tagged (format : Format) (tag : String) : List Field :=
  format.fields.filter (·.hasTag tag)

/-- The bits of a list of fields. -/
def maskOf (fields : List Field) : UInt32 :=
  fields.foldl (fun mask f => mask ||| f.mask) 0

/-- The bits of all fields that carry a tag. -/
def maskForTag (format : Format) (tag : String) : UInt32 :=
  maskOf (format.tagged tag)

/-- The bits of all fields. -/
def mask (format : Format) : UInt32 :=
  maskOf format.fields

/-- The tag of fields that routers look at. -/
def routingTag : String := "routing"

/-- The tag of fields that select a filter at the receiver. -/
def filterRoutingTag : String := "filter_routing"

/-- The field that tells the placed parts of a source apart. -/
def clusterField : String := "cluster"

/-- The field that holds the number of a neuron. -/
def indexField : String := "index"

/-- The format used when none is configured. -/
def standard : Format where
  name := "nengo"
  fields :=
    [⟨⟨"object", 24, 8, [filterRoutingTag, routingTag]⟩, by decide, by decide, by decide⟩,
     ⟨⟨clusterField, 18, 6, [filterRoutingTag, routingTag]⟩, by decide, by decide, by decide⟩,
     ⟨⟨"connection", 10, 8, [filterRoutingTag]⟩, by decide, by decide, by decide⟩,
     ⟨⟨indexField, 0, 10, []⟩, by decide, by decide, by decide⟩]
  apart := by decide

end Format

end NeuroMap
