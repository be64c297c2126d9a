import NeuroMap.Codec.Network
import NeuroMap.Region.Reception

/-!
# Settings

The settings of a mapping have three sections, for partitioning, for filter tables and for routing keys. Everything
has a default.
-/

namespace NeuroMap

/-- The settings of a mapping. -/
structure Settings where
  /-- The share of a core's resources to use. -/
  target : Float
  /-- The time step of the simulation. -/
  dt : Float
  /-- How filter tables are made. -/
  options : FilterOptions
  /-- The name of the key format. -/
  keyName : String
  /-- The declared key fields; with none the standard format is used. -/
  keyFields : List FieldDecl
deriving DecidableEq, Repr

namespace Settings

/-- The settings when nothing is set. -/
def standard : Settings where
  target := 1
  dt := 0.001
  options := .standard
  keyName := "nengo"
  keyFields := []

/-- The key format. -/
def format (s : Settings) : Except KeyError Format :=
  if s.keyFields.isEmpty then .ok .standard else Format.build s.keyName s.keyFields

/-- The constraint to use the target share of a maximum. -/
def constraint (s : Settings) (maximum : Float) : Except ConstraintError Constraint :=
  Constraint.withTarget maximum s.target

/-- What can be wrong with settings. -/
inductive Fault where
  | target (x : Float)
  | dt (x : Float)
  | zeroWidth
  | emptyRoutingTag
  | emptyIndexField
  | keyFormat (e : KeyError)
  /-- The key format lacks the index field. -/
  | noIndexField (format field : String)
deriving DecidableEq, Repr

/-- The fault in words. -/
def Fault.message : Fault → String
  | target x => "partition.target must be in (0, 1], got " ++ floatText x
  | dt x => "filters.dt must be positive, got " ++ floatText x
  | zeroWidth => "filters.width must be at least 1"
  | emptyRoutingTag => "filters.filter_routing_tag must not be empty"
  | emptyIndexField => "filters.index_field must not be empty"
  | keyFormat e => "keyspace: " ++ e.message
  | noIndexField format field => s!"keyspace `{format}` does not declare index field `{field}`"

/-- Whether the settings make sense; the first fault counts. -/
def validate (s : Settings) : Except Fault Unit :=
  if !Constraint.isShare s.target then .error (.target s.target)
  else if !isPositive s.dt then .error (.dt s.dt)
  else if s.options.width = some 0 then .error .zeroWidth
  else if s.options.routingTag.isEmpty then .error .emptyRoutingTag
  else if s.options.indexField.isEmpty then .error .emptyIndexField
  else
    match s.format with
    | .error e => .error (.keyFormat e)
    | .ok format =>
      if format.has s.options.indexField then .ok ()
      else .error (.noIndexField format.name s.options.indexField)

end Settings

end NeuroMap
