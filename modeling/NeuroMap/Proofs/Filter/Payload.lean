import NeuroMap.Filter.Basic
import Mathlib.Data.List.Basic

/-!
# The payload of a linear filter

Discretising a transfer function keeps its order, whatever the numbers do: characteristic polynomials of `n` by `n`
matrices have `n + 1` coefficients, and the numerator is filled up to as many. So the payload of a linear filter of order
`n` is its order and `n` pairs of coefficients (`FilterKind.SpellsLinear`), as many words as the filter declares without
looking at the time step (`FilterKind.length_payload`). There is no payload if there is no discrete filter or if that filter
passes something on without delay (`FilterKind.payload_linear`).
-/

namespace NeuroMap

universe u

variable {α : Type u} {n : Nat}

/-! ## The order of a discrete filter -/

theorem Transfer.order_of_normalise [Zero α] [Div α] [BEq α] [Magnitude α] {t : Transfer α}
    {f : (n : Nat) × Normal α n} (h : t.normalise = .ok f) : t.den.length = f.1 + 1 := by
  unfold normalise at h
  split at h
  · cases h
  · cases h
  · obtain rfl := Except.ok.inj h
    rfl

section Order

variable [Zero α] [One α] [Add α] [Neg α] [Mul α] [Div α]

namespace Mat

theorem length_charpolyFrom (a m : Mat α n n) (c : α) (k steps : Nat) :
    (charpolyFrom a m c k steps).length = steps + 1 := by
  induction steps generalizing m c k with
  | zero => rfl
  | succ steps ih =>
    unfold charpolyFrom
    rw [List.length_cons, ih]

theorem length_charpoly (a : Mat α n n) : a.charpoly.length = n + 1 :=
  length_charpolyFrom a zero 1 0 n

end Mat

variable [Sub α]

theorem Discrete.length_transfer (s : Discrete α n) :
    s.transfer.num.length = n + 1 ∧ s.transfer.den.length = n + 1 := by
  have hden : s.transfer.den.length = n + 1 := s.a.length_charpoly
  refine ⟨?_, hden⟩
  show (List.zipWith _ _ _).length = n + 1
  rw [List.length_zipWith, Mat.length_charpoly, Mat.length_charpoly, Nat.min_self]

variable [Magnitude α]

/-- A discrete filter is the constant itself or read back from the exponential of the augmented matrix. -/
theorem Normal.of_discretise {f : Normal α n} {dt : α} {t : Transfer α} (h : f.discretise dt = .ok t) :
    (n = 0 ∧ t = ⟨[f.realise.d], [1]⟩) ∨
      ∃ k, n ≠ 0 ∧ t = (f.realise.discrete ((f.realise.augmented dt).exponential k)).transfer := by
  unfold discretise at h
  by_cases hn : n = 0
  · rw [if_pos hn] at h
    exact .inl ⟨hn, (Except.ok.inj h).symm⟩
  · rw [if_neg hn] at h
    dsimp only at h
    split at h
    · cases h
    · rename_i k _
      split at h
      · exact .inr ⟨k, hn, (Except.ok.inj h).symm⟩
      · cases h

theorem Normal.length_of_discretise {f : Normal α n} {dt : α} {t : Transfer α} (h : f.discretise dt = .ok t) :
    t.num.length = n + 1 ∧ t.den.length = n + 1 := by
  obtain ⟨hn, rfl⟩ | ⟨k, -, rfl⟩ := of_discretise h
  · simp [hn]
  · exact Discrete.length_transfer _

theorem Transfer.length_of_zeroOrderHold [BEq α] {t d : Transfer α} {dt : α} (h : t.zeroOrderHold dt = .ok d) :
    ∃ n, t.den.length = n + 1 ∧ d.num.length = n + 1 ∧ d.den.length = n + 1 := by
  unfold zeroOrderHold at h
  split at h
  · cases h
  · rename_i n f hnormal
    exact ⟨n, order_of_normalise hnormal, Normal.length_of_discretise h⟩

end Order

theorem length_of_discretise {t d : Transfer Float} {dt : Float} (h : discretise t dt = .ok d) :
    ∃ n, t.den.length = n + 1 ∧ d.num.length = n + 1 ∧ d.den.length = n + 1 := by
  unfold discretise at h
  split at h
  · cases h
  · cases hhold : t.zeroOrderHold dt with
    | error e => simp [hhold, Except.mapError] at h
    | ok d' =>
      rw [hhold] at h
      obtain rfl : d' = d := Except.ok.inj h
      exact Transfer.length_of_zeroOrderHold hhold

/-! ## What passes without delay -/

namespace Transfer

variable [Zero α] [BEq α]

/-- What a discrete filter passes on without delay: the leading coefficient of the numerator, unless that is zero. -/
def undelayed? (t : Transfer α) : Option α :=
  t.num.head?.filter (· != 0)

theorem undelayed?_eq {t : Transfer α} {x : α} (h : t.num.head? = some x) :
    t.undelayed? = if x == 0 then none else some x := by
  rw [undelayed?, h, Option.filter_some]
  cases hx : x == 0 with
  | false => simp [bne, hx]
  | true => simp [bne, hx]

theorem normalise_of_check [Div α] [Magnitude α] {t : Transfer α} {e : Malformed} (h : t.check = .error e) :
    t.normalise = .error e := by
  simp [normalise, h]

/-- Coefficients that pass the check have a leading one to divide by and no more zeros than poles. -/
theorem of_check_ok [Magnitude α] {lead : α} {num den : List α} (h : check ⟨num, lead :: den⟩ = .ok ()) :
    (lead == 0) = false ∧ num.length ≤ den.length + 1 := by
  unfold check at h
  dsimp only at h
  split at h
  · cases h
  · split at h
    · cases h
    · rename_i hlead
      split at h
      · cases h
      · rename_i hlength
        exact ⟨Bool.not_eq_true _ ▸ hlead, Nat.le_of_not_lt hlength⟩

end Transfer

/-! ## Words -/

namespace FilterKind

/-- The words are the order `n` and the `n` pairs of coefficients of a discrete filter, feedback first. -/
def SpellsLinear (d : Transfer Float) (n : Nat) (words : List UInt32) : Prop :=
  ∃ (order : UInt32) (pairs : List (UInt32 × UInt32)), words = order :: pairs.flatMap (fun p => [p.1, p.2]) ∧
    order.toNat = n ∧ pairs.length = n ∧
    ∀ k, 1 ≤ k → k ≤ n → ∃ a b, d.den[k]? = some a ∧ d.num[k]? = some b ∧
      pairs[k - 1]? = some (fixedWord (-a), fixedWord b)

theorem length_flatMap_pair {β : Type} (f g : β → UInt32) (l : List β) :
    (l.flatMap fun p => [f p, g p]).length = 2 * l.length := by
  induction l with
  | nil => rfl
  | cons p l ih =>
    rw [List.flatMap_cons, List.length_append, ih, List.length_cons]
    simp only [List.length_cons, List.length_nil]
    omega

theorem length_linearPayload {d : Transfer Float} (hnum : d.num.length = n + 1) (hden : d.den.length = n + 1) :
    (linearPayload d).length = 1 + 2 * n := by
  unfold linearPayload
  rw [List.length_cons, length_flatMap_pair, List.length_zip, List.length_tail, List.length_tail, hnum, hden]
  omega

theorem spellsLinear_linearPayload {d : Transfer Float} (hnum : d.num.length = n + 1) (hden : d.den.length = n + 1)
    (hfits : n < UInt32.size) : SpellsLinear d n (linearPayload d) := by
  refine ⟨UInt32.ofNat d.order, (d.den.tail.zip d.num.tail).map fun p => (fixedWord (-p.1), fixedWord p.2),
    ?_, ?_, ?_, ?_⟩
  · rw [List.flatMap_map]
    rfl
  · rw [Transfer.order, hden, Nat.add_sub_cancel, UInt32.toNat_ofNat_of_lt' hfits]
  · simp [hnum, hden]
  · intro k hk hkn
    have hkden : k < d.den.length := by omega
    have hknum : k < d.num.length := by omega
    have hk' : k - 1 + 1 = k := by omega
    refine ⟨d.den[k], d.num[k], List.getElem?_eq_getElem hkden, List.getElem?_eq_getElem hknum, ?_⟩
    have hzip : (d.den.tail.zip d.num.tail)[k - 1]? = some (d.den[k], d.num[k]) := by
      rw [List.getElem?_zip_eq_some, List.getElem?_tail, List.getElem?_tail, hk']
      exact ⟨List.getElem?_eq_getElem hkden, List.getElem?_eq_getElem hknum⟩
    rw [List.getElem?_map, hzip]
    rfl

/-- **The payload of a linear filter** is refused for the reasons for which there is no discrete filter, and for what that
filter passes on without delay. -/
theorem payload_linear (num den : List Float) (dt : Float) :
    (linear num den).payload dt = match discretise ⟨num, den⟩ dt with
      | .error e => .error e
      | .ok t => match t.undelayed? with
        | .none => .ok (linearPayload t)
        | .some x => .error (.notStrictlyProper x) := by
  unfold payload
  cases hdt : isPositive dt with
  | false => simp [discretise, hdt]
  | true =>
    cases hcheck : Transfer.check ⟨num, den⟩ with
    | error m =>
      -- The coefficients are checked twice, with one result.
      simp [validate, hcheck, discretise, hdt, Transfer.zeroOrderHold, Transfer.normalise_of_check hcheck,
        Except.mapError]
    | ok =>
      have hvalid : (linear num den).validate = .ok () := by simp [validate, hcheck, Except.mapError]
      rw [hvalid, Bool.not_true, if_neg Bool.false_ne_true]
      dsimp only
      cases discretise ⟨num, den⟩ dt with
      | error e => rfl
      | ok t =>
        obtain ⟨tnum, tden⟩ := t
        cases tnum with
        | nil => rfl
        | cons x xs =>
          dsimp only
          rw [Transfer.undelayed?_eq List.head?_cons]
          split
          · rfl
          · rfl

theorem discretise_ne_notStrictlyProper (t : Transfer Float) (dt x : Float) :
    discretise t dt ≠ .error (.notStrictlyProper x) := by
  unfold discretise
  split
  · simp
  · cases t.zeroOrderHold dt with
    | error e => simp [Except.mapError]
    | ok d => simp [Except.mapError]

theorem payload_eq_notStrictlyProper_iff (num den : List Float) (dt x : Float) :
    (linear num den).payload dt = .error (.notStrictlyProper x) ↔
      ∃ t, discretise ⟨num, den⟩ dt = .ok t ∧ t.undelayed? = some x := by
  have hne := discretise_ne_notStrictlyProper ⟨num, den⟩ dt x
  rw [payload_linear]
  cases hd : discretise ⟨num, den⟩ dt with
  | error e =>
    rw [hd] at hne
    simpa using hne
  | ok t =>
    cases hx : t.undelayed? with
    | none => simp [hx]
    | some y => simp [hx]

variable {num den : List Float} {dt : Float} {payload : List UInt32}

/-- A linear filter that has a payload was discretised. -/
theorem of_payload_linear (h : (linear num den).payload dt = .ok payload) :
    ∃ d n, discretise ⟨num, den⟩ dt = .ok d ∧ payload = linearPayload d ∧ den.length = n + 1 ∧
      d.num.length = n + 1 ∧ d.den.length = n + 1 := by
  rw [payload_linear] at h
  cases hd : discretise ⟨num, den⟩ dt with
  | error e => simp [hd] at h
  | ok d =>
    obtain ⟨n, hn, hlengths⟩ := length_of_discretise hd
    refine ⟨d, n, rfl, ?_, hn, hlengths⟩
    rw [hd] at h
    dsimp only at h
    split at h
    · exact (Except.ok.inj h).symm
    · cases h

/-- The payload has the length that the filter declares without looking at the time step. -/
theorem length_payload {k : FilterKind} (h : k.payload dt = .ok payload) : payload.length = k.payloadWords := by
  cases k with
  | none =>
    unfold FilterKind.payload at h
    split at h
    · cases h
    · obtain rfl := Except.ok.inj h
      rfl
  | lowpass tau =>
    unfold FilterKind.payload at h
    split at h
    · cases h
    · split at h
      · cases h
      · obtain rfl := Except.ok.inj h
        rfl
  | linear num den =>
    obtain ⟨d, n, -, rfl, hden, hdnum, hdden⟩ := of_payload_linear h
    rw [length_linearPayload hdnum hdden, payloadWords, hden, Nat.add_sub_cancel]

end FilterKind

end NeuroMap
