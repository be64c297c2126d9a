import Mathlib.Data.List.GetD
import NeuroMap.Proofs.Filter.Payload

/-!
# Coefficients by position

Coefficients come in lists, and a filter is discretised and packed from those at given positions. The definitions with a
question mark take each coefficient at its position and have no result if it is not there. They always have a result, the
one of the definition without the question mark (`Transfer.zeroOrderHold?_eq`, `FilterKind.payload?_eq`): a list that is too
short has been refused before, an empty numerator has been filled up, and discretising has kept the order.
-/

namespace NeuroMap

universe u

variable {α : Type u} {n : Nat}

/-- The members of a family, if all are there. -/
def collect? : {n : Nat} → (Fin n → Option α) → Option (Fin n → α)
  | 0, _ => some Fin.elim0
  | _ + 1, f => do
    let first ← f 0
    let rest ← collect? fun i => f i.succ
    return Fin.cases first rest

theorem collect?_eq_some {f : Fin n → Option α} {g : Fin n → α} (h : ∀ i, f i = some (g i)) : collect? f = some g := by
  induction n with
  | zero => exact congrArg some (funext fun i => i.elim0)
  | succ n ih =>
    have hrest : collect? (fun i => f i.succ) = some fun i => g i.succ := ih fun i => h i.succ
    rw [collect?, h 0, hrest]
    refine congrArg some (funext fun i => ?_)
    refine Fin.cases ?_ (fun j => ?_) i
    · rfl
    · rfl

/-! ## Coefficients that are there -/

/-- The lists have the coefficients of the filter at their positions. -/
def Normal.Lists (f : Normal α n) (num den : List α) : Prop :=
  (∀ i : Fin (n + 1), num[i.val]? = some f.num[i]) ∧ ∀ i : Fin (n + 1), den[i.val]? = some f.den[i]

namespace Transfer

section Normalising

variable [Zero α] [Div α] {lead : α} {num den : List α}

/-- The numerator divided by `lead` and filled up in front to the length of the denominator. -/
def filled (t : Transfer α) (lead : α) : List α :=
  List.replicate (t.den.length - t.num.length) 0 ++ t.num.map (· / lead)

/-- Filling up makes the numerator as long as the denominator. -/
theorem length_filled (h : num.length ≤ den.length + 1) : (filled ⟨num, lead :: den⟩ lead).length = den.length + 1 := by
  simp only [filled, List.length_append, List.length_replicate, List.length_map, List.length_cons]
  omega

/-- Every position below the order is there. -/
theorem getElem?_filled (h : num.length ≤ den.length + 1) {i : Nat} (hi : i < den.length + 1) :
    (filled ⟨num, lead :: den⟩ lead)[i]? = some ((filled ⟨num, lead :: den⟩ lead).getD i 0) := by
  have hbound : i < (filled ⟨num, lead :: den⟩ lead).length := by rwa [length_filled h]
  rw [List.getD_eq_getElem _ _ hbound, List.getElem?_eq_getElem hbound]

/-- Normalised coefficients are there up to the order. -/
theorem normalise_of_check_ok [BEq α] [Magnitude α] (h : check ⟨num, lead :: den⟩ = .ok ()) :
    ∃ f : Normal α den.length, normalise ⟨num, lead :: den⟩ = .ok ⟨den.length, f⟩ ∧
      f.Lists (filled ⟨num, lead :: den⟩ lead) ((lead :: den).map (· / lead)) := by
  refine ⟨⟨Vector.ofFn fun i => (filled ⟨num, lead :: den⟩ lead).getD i 0, Vector.ofFn fun i => (lead :: den)[i] / lead⟩,
    by simp [normalise, h, filled], fun i => ?_, fun i => ?_⟩
  · rw [getElem?_filled (of_check_ok h).2 i.isLt, Fin.getElem_fin, Vector.getElem_ofFn]
  · rw [List.getElem?_map, List.getElem?_eq_getElem i.isLt, Fin.getElem_fin, Vector.getElem_ofFn]
    rfl

end Normalising

end Transfer

/-! ## Discretising -/

section Discretising

variable [Zero α] [One α] [Sub α] [Neg α] [Mul α]

/-- The canonical form of a system with `n` states, from coefficients at their positions. -/
def Realisation.ofLists? (n : Nat) (num den : List α) : Option (Realisation α n) := do
  let direct ← num[0]?
  let below ← collect? fun j : Fin n => den[j.val + 1]?
  let above ← collect? fun j : Fin n => num[j.val + 1]?
  return {
    a := Mat.ofFn fun i j => if i.val = 0 then -below j else if i.val = j.val + 1 then 1 else 0
    c := fun j => above j - direct * below j
    d := direct }

theorem Realisation.ofLists?_eq {num den : List α} {f : Normal α n} (h : f.Lists num den) :
    ofLists? n num den = some f.realise := by
  obtain ⟨hnum, hden⟩ := h
  have hdirect : num[0]? = some f.realise.d := hnum 0
  have hbelow : collect? (fun j : Fin n => den[j.val + 1]?) = some fun j => f.den[j.succ] :=
    collect?_eq_some fun j => hden j.succ
  have habove : collect? (fun j : Fin n => num[j.val + 1]?) = some fun j => f.num[j.succ] :=
    collect?_eq_some fun j => hnum j.succ
  rw [ofLists?, hdirect, hbelow, habove]
  rfl

variable [Div α]

namespace Transfer

/-- The canonical form, from coefficients at their positions. -/
def realise? (t : Transfer α) : Option (Realisation α t.order) :=
  t.den[0]?.bind fun lead => Realisation.ofLists? t.order (t.filled lead) (t.den.map (· / lead))

end Transfer

variable [Add α]

/-- The discrete transfer function of a system for a step of length `dt`. -/
def Realisation.hold [Magnitude α] (r : Realisation α n) (dt : α) : Except Malformed (Transfer α) :=
  if n = 0 then .ok ⟨[r.d], [1]⟩
  else
    match Magnitude.halvings (r.augmented dt) with
    | none => .error .nonFinite
    | some k =>
      let t := (r.discrete ((r.augmented dt).exponential k)).transfer
      if (t.num ++ t.den).all Magnitude.isFinite then .ok t else .error .nonFinite

theorem Normal.discretise_eq_hold [Magnitude α] (f : Normal α n) (dt : α) : f.discretise dt = f.realise.hold dt :=
  rfl

namespace Transfer

variable [BEq α] [Magnitude α]

/-- The discrete transfer function, from coefficients at their positions. -/
def zeroOrderHold? (t : Transfer α) (dt : α) : Option (Except Malformed (Transfer α)) :=
  match t.check with
  | .error e => some (.error e)
  | .ok () => t.realise?.map (·.hold dt)

/-- **Discretising** finds every coefficient at its position. -/
theorem zeroOrderHold?_eq (t : Transfer α) (dt : α) : t.zeroOrderHold? dt = some (t.zeroOrderHold dt) := by
  unfold zeroOrderHold?
  cases hcheck : t.check with
  | error e => rw [zeroOrderHold, normalise_of_check hcheck]
  | ok =>
    obtain ⟨num, den⟩ := t
    cases den with
    | nil => cases hcheck
    | cons lead den =>
      obtain ⟨f, hf, hlists⟩ := normalise_of_check_ok hcheck
      have hrealise : realise? ⟨num, lead :: den⟩ = some f.realise := Realisation.ofLists?_eq hlists
      rw [zeroOrderHold, hf, hrealise]
      exact congrArg some (f.discretise_eq_hold dt).symm

end Transfer

end Discretising

/-! ## Packing -/

namespace FilterKind

/-- The payload of a discrete transfer function that passes nothing on without delay, from coefficients at their
positions. -/
def packed? (t : Transfer Float) : Option (Except FilterError (List UInt32)) := do
  let leading ← t.num[0]?
  if leading == 0 then
    let feedback ← t.den.tail?
    let forward ← t.num.tail?
    return .ok (UInt32.ofNat t.order :: (feedback.zip forward).flatMap fun (a, b) => [fixedWord (-a), fixedWord b])
  else return .error (.notStrictlyProper leading)

/-- The payload, from coefficients at their positions. -/
def payload? : FilterKind → Float → Option (Except FilterError (List UInt32))
  | linear num den, dt =>
    if !isPositive dt then some (.error (.invalidTimestep dt))
    else
      (Transfer.zeroOrderHold? ⟨num, den⟩ dt).bind fun
        | .error m => some (.error (.malformed m))
        | .ok t => packed? t
  | k, dt => some (k.payload dt)

/-- A discrete filter has a first coefficient above and below. -/
theorem packed?_eq {t : Transfer Float} (hnum : t.num.length = n + 1) (hden : t.den.length = n + 1) :
    packed? t = some (match t.undelayed? with
      | .none => .ok (linearPayload t)
      | .some x => .error (.notStrictlyProper x)) := by
  obtain ⟨num, den⟩ := t
  obtain ⟨x, num, rfl⟩ := List.exists_cons_of_length_eq_add_one hnum
  obtain ⟨a, den, rfl⟩ := List.exists_cons_of_length_eq_add_one hden
  rw [Transfer.undelayed?_eq List.head?_cons]
  by_cases hx : (x == 0) = true
  · rw [if_pos hx]
    simp [packed?, hx, linearPayload]
  · rw [if_neg hx]
    simp [packed?, hx]

/-- **Packing** finds every coefficient at its position. -/
theorem payload?_eq (k : FilterKind) (dt : Float) : k.payload? dt = some (k.payload dt) := by
  cases k with
  | none => rfl
  | lowpass tau => rfl
  | linear num den =>
    rw [payload?, payload_linear, Transfer.zeroOrderHold?_eq, discretise, Option.bind_some]
    by_cases hdt : isPositive dt = true
    · rw [hdt, Bool.not_true, if_neg Bool.false_ne_true, if_neg Bool.false_ne_true]
      cases hhold : Transfer.zeroOrderHold ⟨num, den⟩ dt with
      | error m => rfl
      | ok t =>
        obtain ⟨n, -, hnum, hden⟩ := Transfer.length_of_zeroOrderHold hhold
        exact packed?_eq hnum hden
    · rw [Bool.not_eq_true] at hdt
      rw [hdt]
      rfl

end FilterKind

end NeuroMap
