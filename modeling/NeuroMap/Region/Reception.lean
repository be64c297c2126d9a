import NeuroMap.Diagnostic.Log
import NeuroMap.Failure
import NeuroMap.Region.FilterTable
import NeuroMap.Region.RoutingTable

/-!
# Reception

What a core receives is a list of signals, each with the way it is to be filtered. From them the core's filter table and
routing table are made; signals that are filtered alike can share a filter.
-/

namespace NeuroMap

/-- The packets under one key; the values of a latching signal are kept until the next arrive. -/
structure Signal where
  key : Key
  latching : Bool
deriving DecidableEq

/-- How a signal is received. -/
structure Reception where
  filter : FilterKind
  width : UInt32
deriving DecidableEq, Repr

/-- How filter tables are made. -/
structure FilterOptions where
  /-- Whether equal filters are shared. -/
  minimise : Bool
  /-- The width of all filters, instead of each signal's own. -/
  width : Option UInt32
  /-- The tag of the key fields that packets are matched by. -/
  routingTag : String
  /-- The key field that holds the index of a component. -/
  indexField : String
deriving DecidableEq, Repr

namespace FilterOptions

/-- The options of a mapping that asks for nothing else. -/
def standard : FilterOptions where
  minimise := false
  width := none
  routingTag := Format.filterRoutingTag
  indexField := Format.indexField

/-- The filter for a signal. -/
def filterOf (o : FilterOptions) (signal : Signal) (reception : Reception) : Filter where
  width := o.width.getD reception.width
  latching := signal.latching
  kind := reception.filter

/-- Enters a filter into a list, which an equal one there may stand for; its position comes first. -/
def enter (o : FilterOptions) (filters : List Filter) (f : Filter) : Nat × List Filter :=
  match if o.minimise then filters.findIdx? (·.agrees f) else none with
  | some i => (i, filters)
  | none => (filters.length, filters ++ [f])

/-- Enters the filters of all signals after those in the list; the positions come first. -/
def enterAll (o : FilterOptions) (filters : List Filter) : List (Signal × Reception) → List Nat × List Filter
  | [] => ([], filters)
  | (signal, reception) :: rest =>
    let (i, filters) := o.enter filters (o.filterOf signal reception)
    let (is, filters) := o.enterAll filters rest
    (i :: is, filters)

end FilterOptions

/-- The two tables of a core that receives signals. -/
structure ReceptionTables where
  filters : FilterTable
  routing : RoutingTable
deriving DecidableEq

namespace ReceptionTables

/-- The tables for the given signals. -/
def make (signals : List (Signal × Reception)) (dt : Float) (o : FilterOptions) : ReceptionTables :=
  let (positions, filters) := o.enterAll [] signals
  { filters := ⟨filters, dt⟩
    routing := ⟨(signals.map (·.1.key)).zip positions, o.routingTag, o.indexField⟩ }

/-- What is reported about a filter that cannot be encoded. -/
def complaint (f : Filter) (index : Nat) (e : FilterError) : Diagnostic :=
  let subject := s!"filter {index} (method " ++ toString f.kind.methodIndex ++ ")"
  match e with
  | .notStrictlyProper _ =>
    ((Diagnostic.ofCode .notStrictlyProper "linear filter is not strictly proper after discretization").about subject
      |>.noting e.message).advising "the numerator must have lower order than the denominator"
  | _ => ((Diagnostic.ofCode .invalidFilter "invalid filter parameters").about subject).noting e.message

/-- Reports an error of the filter table, if it is about a filter. -/
def report (t : ReceptionTables) (log : Log) : RegionError → Except Fault Log
  | .filter index e =>
    match t.filters.filters[index]? with
    | some f => .ok (log.emit (complaint f index e))
    | none => .error (.noFilter index)
  | _ => .ok log

/-- The bytes of the filter table and of the routing table; a filter that cannot be encoded is reported. -/
def encode (t : ReceptionTables) (log : Log) : Except (Failure RegionError) (List UInt8 × List UInt8) × Log :=
  match t.filters.region.encoding with
  | .error e =>
    match t.report log e with
    | .ok log => (.error (.error e), log)
    | .error f => (.error (.fault f), log)
  | .ok filters =>
    match t.routing.region.encoding with
    | .error e => (.error (.error e), log)
    | .ok routing => (.ok (filters, routing), log)

end ReceptionTables

end NeuroMap
