import NeuroMap.Filter.Transfer
import NeuroMap.Number.Fixed
import NeuroMap.Number.Text

/-!
# Filters

A core filters each of its input signals with one of three methods. A filter is packed as a header of four words (the
number of payload words, the method, the width, the flags) and a payload that depends on the method and on the time
step.
-/

namespace NeuroMap

/-- What can be wrong with a filter. -/
inductive FilterError where
  | invalidTimeConstant (tau : Float)
  | malformed (m : Malformed)
  | invalidTimestep (dt : Float)
  /-- The discrete filter would pass its input through without delay. -/
  | notStrictlyProper (leading : Float)
deriving DecidableEq, Repr

namespace Malformed

/-- The fault in words. -/
def message : Malformed → String
  | emptyDenominator => "transfer function has an empty denominator"
  | zeroLeadingDenominator => "leading denominator coefficient must be non-zero"
  | improper num den => s!"transfer function is improper: numerator has {num} coefficients, denominator {den}"
  | nonFinite => "filter parameters must be finite"

end Malformed

namespace FilterError

/-- The error in words. -/
def message : FilterError → String
  | invalidTimeConstant tau => "lowpass time constant must be positive and finite, got " ++ floatText tau
  | malformed m => m.message
  | invalidTimestep dt => "simulation timestep must be positive and finite, got " ++ floatText dt
  | notStrictlyProper leading =>
    "discretized filter is not strictly proper (leading numerator coefficient " ++ floatText leading ++ ")"

end FilterError

/-- A filtering method and its parameters. -/
inductive FilterKind where
  /-- The signal itself. -/
  | none
  /-- A first-order lag. -/
  | lowpass (tau : Float)
  /-- Any transfer function. -/
  | linear (num den : List Float)
deriving DecidableEq, Repr

/-- The discrete transfer function for a step of length `dt`, which has to be positive and finite. -/
def discretise (t : Transfer Float) (dt : Float) : Except FilterError (Transfer Float) :=
  if !isPositive dt then .error (.invalidTimestep dt)
  else (t.zeroOrderHold dt).mapError .malformed

namespace FilterKind

/-- Whether the parameters are usable. -/
def validate : FilterKind → Except FilterError Unit
  | none => .ok ()
  | lowpass tau => if isPositive tau then .ok () else .error (.invalidTimeConstant tau)
  | linear num den => (Transfer.check ⟨num, den⟩).mapError .malformed

/-- The kind itself, if its parameters are usable. -/
def validated (k : FilterKind) : Except FilterError FilterKind :=
  k.validate.map fun _ => k

/-- The number by which cores know the method. -/
def methodIndex : FilterKind → UInt32
  | none => 0
  | lowpass _ => 1
  | linear _ _ => 2

/-- The number of payload words. -/
def payloadWords : FilterKind → Nat
  | none => 0
  | lowpass _ => 2
  | linear _ den => 1 + 2 * (den.length - 1)

/-- The fixed point form of a float as a word. -/
def fixedWord (x : Float) : UInt32 :=
  (Fixed.ofFloat x).toUInt32

/-- The payload of a discrete transfer function: its order, then feedback and feed-forward coefficients in turn. -/
def linearPayload (t : Transfer Float) : List UInt32 :=
  UInt32.ofNat t.order ::
    (t.den.tail.zip t.num.tail).flatMap fun (a, b) => [fixedWord (-a), fixedWord b]

/-- The payload for a step of length `dt`. -/
def payload (k : FilterKind) (dt : Float) : Except FilterError (List UInt32) :=
  if !isPositive dt then .error (.invalidTimestep dt)
  else
    match k.validate with
    | .error e => .error e
    | .ok () =>
      match k with
      | none => .ok []
      | lowpass tau =>
        let a := (-dt / tau).exp
        .ok [fixedWord a, fixedWord (1 - a)]
      | linear num den =>
        match discretise ⟨num, den⟩ dt with
        | .error e => .error e
        | .ok t =>
          match t.num with
          | [] => .ok (linearPayload t)
          | leading :: _ =>
            if leading == 0 then .ok (linearPayload t) else .error (.notStrictlyProper leading)

/-- Whether two kinds have the same method and equal parameters, as floats are compared: the two zeros are equal, and
what is no number equals nothing. -/
def agrees : FilterKind → FilterKind → Bool
  | none, none => true
  | lowpass a, lowpass b => a == b
  | linear num den, linear num' den' => num == num' && den == den'
  | _, _ => false

end FilterKind

/-- A filter of signals with `width` components; a latching one keeps its last input. -/
structure Filter where
  width : UInt32
  latching : Bool
  kind : FilterKind
deriving DecidableEq, Repr

namespace Filter

/-- The number of header words. -/
def headerWords : Nat := 4

/-- The flags word. -/
def flags (f : Filter) : UInt32 :=
  if f.latching then 1 else 0

/-- The number of words of the packed filter. -/
def sizeWords (f : Filter) : Nat :=
  headerWords + f.kind.payloadWords

/-- The packed filter. -/
def pack (f : Filter) (dt : Float) : Except FilterError (List UInt32) :=
  match f.kind.payload dt with
  | .error e => .error e
  | .ok payload => .ok ([UInt32.ofNat payload.length, f.kind.methodIndex, f.width, f.flags] ++ payload)

/-- Whether two filters are equal, with their parameters compared as floats are. -/
def agrees (f g : Filter) : Bool :=
  f.width == g.width && f.latching == g.latching && f.kind.agrees g.kind

end Filter

end NeuroMap
