import NeuroMap.Filter.Basic
import NeuroMap.Proofs.Outcome

/-!
# When filters agree

Filters are compared as their parameters are, and these are floats: the two zeros are equal, and what is no number is equal
to nothing, not even to itself. Equality of floats is still symmetric and transitive, and so is agreement of filters; a
filter agrees with itself, or with any other one, exactly when all its parameters are numbers.
-/

namespace NeuroMap

namespace Comparison

/-! ## Floats -/

open Float.Model Float.Model.UnpackedFloat

/-- Numbers are equal if they have the same parts, and zeros are equal whatever their signs. -/
inductive Equal : UnpackedFloat → UnpackedFloat → Prop where
  | infinity (s : Sign) : Equal (.infinity s) (.infinity s)
  | zero (s s' : Sign) : Equal (.zero s) (.zero s')
  | finite (s : Sign) (m : Nat) (e : Int) (hm : 0 < m) : Equal (.finite s m e hm) (.finite s m e hm)

theorem Equal.symm {a b : UnpackedFloat} (h : Equal a b) : Equal b a := by
  cases h with
  | infinity s => exact .infinity s
  | zero s s' => exact .zero s' s
  | finite s m e hm => exact .finite s m e hm

theorem Equal.trans {a b c : UnpackedFloat} (h : Equal a b) (h' : Equal b c) : Equal a c := by
  cases h with
  | infinity s => exact h'
  | zero s s' =>
    cases h' with
    | zero _ s'' => exact .zero s s''
  | finite s m e hm => exact h'

theorem equal_self_iff {a : UnpackedFloat} : Equal a a ↔ a.isNaN = false := by
  cases a with
  | infinity s => exact iff_of_true (.infinity s) rfl
  | notANumber => exact iff_of_false nofun nofun
  | zero s => exact iff_of_true (.zero s s) rfl
  | finite s m e hm => exact iff_of_true (.finite s m e hm) rfl

theorem compare_eq_of_equal {a b : UnpackedFloat} (h : Equal a b) : a.compare b = some .eq := by
  cases h with
  | infinity s => cases s <;> rfl
  | zero s s' => rfl
  | finite s m e hm =>
    have hself : (compare e e).then (compare m m) = .eq :=
      Ordering.then_eq_eq.mpr ⟨Int.compare_eq_eq.mpr rfl, Nat.compare_eq_eq.mpr rfl⟩
    cases s with
    | positive => exact congrArg some hself
    | negative => exact congrArg (fun o => some o.swap) hself

theorem finite_eq {m m' : Nat} {e e' : Int} (h : (compare e e').then (compare m m') = .eq) : m = m' ∧ e = e' := by
  obtain ⟨he, hm⟩ := Ordering.then_eq_eq.mp h
  exact ⟨Nat.compare_eq_eq.mp hm, Int.compare_eq_eq.mp he⟩

theorem equal_of_compare_eq {a b : UnpackedFloat} (h : a.compare b = some .eq) : Equal a b := by
  cases a with
  | notANumber => cases h
  | infinity s =>
    cases s <;> cases b with
    | notANumber => cases h
    | infinity s' => cases s' <;> first | exact .infinity _ | cases h
    | zero s' => cases h
    | finite s' m e hm => cases h
  | zero s =>
    cases b with
    | notANumber => cases h
    | infinity s' => cases s' <;> cases h
    | zero s' => exact .zero s s'
    | finite s' m e hm => cases s' <;> cases h
  | finite s m e hm =>
    cases b with
    | notANumber => cases s <;> cases h
    | infinity s' => cases s <;> cases s' <;> cases h
    | zero s' => cases s <;> cases h
    | finite s' m' e' hm' =>
      cases s with
      | positive =>
        cases s' with
        | negative => cases h
        | positive =>
          obtain ⟨rfl, rfl⟩ := finite_eq (Option.some.inj h)
          exact .finite _ _ _ _
      | negative =>
        cases s' with
        | positive => cases h
        | negative =>
          obtain ⟨rfl, rfl⟩ := finite_eq (Ordering.swap_eq_eq.mp (Option.some.inj h))
          exact .finite _ _ _ _

theorem beq_iff {x y : Float} : (x == y) = true ↔ Equal x.toModel.unpack y.toModel.unpack := by
  show (x.toModel.unpack.compare y.toModel.unpack == some .eq) = true ↔ _
  rw [beq_iff_eq]
  exact ⟨equal_of_compare_eq, compare_eq_of_equal⟩

theorem beq_symm {x y : Float} (h : (x == y) = true) : (y == x) = true :=
  beq_iff.mpr (beq_iff.mp h).symm

theorem beq_trans {x y z : Float} (h : (x == y) = true) (h' : (y == z) = true) : (x == z) = true :=
  beq_iff.mpr ((beq_iff.mp h).trans (beq_iff.mp h'))

theorem self_iff (x : Float) : (x == x) = true ↔ x.isNaN = false := by
  rw [beq_iff]
  exact equal_self_iff

/-! ## Lists of floats -/

theorem list_beq_iff {l l' : List Float} : (l == l') = true ↔ List.Forall₂ (fun x y => (x == y) = true) l l' := by
  induction l generalizing l' with
  | nil =>
    cases l' with
    | nil => simp
    | cons y l' => simp
  | cons x l ih =>
    cases l' with
    | nil => simp
    | cons y l' => rw [List.cons_beq_cons, Bool.and_eq_true, ih, List.forall₂_cons]

theorem list_symm {l l' : List Float} (h : (l == l') = true) : (l' == l) = true := by
  have hflip := (list_beq_iff.mp h).flip
  exact list_beq_iff.mpr (hflip.imp fun _ _ hxy => beq_symm hxy)

theorem list_trans {l l' l'' : List Float} (h : (l == l') = true) (h' : (l' == l'') = true) : (l == l'') = true := by
  refine list_beq_iff.mpr (Outcome.forall₂_trans (list_beq_iff.mp h) (list_beq_iff.mp h') ?_)
  intro x _ y z hxy hyz
  exact beq_trans hxy hyz

theorem list_self_iff (l : List Float) : (l == l) = true ↔ l.any Float.isNaN = false := by
  rw [list_beq_iff, List.forall₂_same, List.any_eq_false]
  simp only [self_iff, Bool.not_eq_true]

end Comparison

/-! ## Filters -/

/-- Whether a parameter of the method is no number. -/
def FilterKind.hasNaN : FilterKind → Bool
  | none => false
  | lowpass tau => tau.isNaN
  | linear num den => num.any Float.isNaN || den.any Float.isNaN

namespace FilterKind

variable {k k' k'' : FilterKind}

theorem agrees_symm (h : k.agrees k' = true) : k'.agrees k = true := by
  unfold agrees at h ⊢
  split at h
  · rfl
  · exact Comparison.beq_symm h
  · rw [Bool.and_eq_true] at h ⊢
    exact ⟨Comparison.list_symm h.1, Comparison.list_symm h.2⟩
  · cases h

theorem agrees_trans (h : k.agrees k' = true) (h' : k'.agrees k'' = true) : k.agrees k'' = true := by
  cases k' with
  | none =>
    cases k with
    | none => exact h'
    | lowpass a => cases h
    | linear num den => cases h
  | lowpass b =>
    cases k with
    | none => cases h
    | linear num den => cases h
    | lowpass a =>
      cases k'' with
      | none => cases h'
      | linear num den => cases h'
      | lowpass c =>
        have hab : (a == b) = true := h
        have hbc : (b == c) = true := h'
        exact Comparison.beq_trans hab hbc
  | linear num' den' =>
    cases k with
    | none => cases h
    | lowpass a => cases h
    | linear num den =>
      cases k'' with
      | none => cases h'
      | lowpass c => cases h'
      | linear num'' den'' =>
        obtain ⟨hnum, hden⟩ := Bool.and_eq_true_iff.mp h
        obtain ⟨hnum', hden'⟩ := Bool.and_eq_true_iff.mp h'
        exact Bool.and_eq_true_iff.mpr ⟨Comparison.list_trans hnum hnum', Comparison.list_trans hden hden'⟩

theorem agrees_self_iff (k : FilterKind) : k.agrees k = true ↔ k.hasNaN = false := by
  cases k with
  | none => simp [agrees, hasNaN]
  | lowpass tau => exact Comparison.self_iff tau
  | linear num den =>
    show (num == num && den == den) = true ↔ (num.any Float.isNaN || den.any Float.isNaN) = false
    rw [Bool.and_eq_true, Comparison.list_self_iff, Comparison.list_self_iff, Bool.or_eq_false_iff]

end FilterKind

namespace Filter

variable {f g h : Filter}

theorem agrees_iff : f.agrees g = true ↔ f.width = g.width ∧ f.latching = g.latching ∧ f.kind.agrees g.kind = true := by
  simp only [agrees, Bool.and_eq_true, beq_iff_eq, and_assoc]

theorem agrees_symm (hfg : f.agrees g = true) : g.agrees f = true := by
  obtain ⟨hwidth, hlatching, hkind⟩ := agrees_iff.mp hfg
  exact agrees_iff.mpr ⟨hwidth.symm, hlatching.symm, FilterKind.agrees_symm hkind⟩

theorem agrees_trans (hfg : f.agrees g = true) (hgh : g.agrees h = true) : f.agrees h = true := by
  obtain ⟨hwidth, hlatching, hkind⟩ := agrees_iff.mp hfg
  obtain ⟨hwidth', hlatching', hkind'⟩ := agrees_iff.mp hgh
  exact agrees_iff.mpr ⟨hwidth.trans hwidth', hlatching.trans hlatching', FilterKind.agrees_trans hkind hkind'⟩

theorem agrees_self_iff (f : Filter) : f.agrees f = true ↔ f.kind.hasNaN = false := by
  rw [agrees_iff, FilterKind.agrees_self_iff]
  exact ⟨fun hself => hself.2.2, fun hnumbers => ⟨rfl, rfl, hnumbers⟩⟩

/-- A filter that agrees with some filter agrees with itself. -/
theorem agrees_self_of_agrees (hfg : f.agrees g = true) : f.agrees f = true ∧ g.agrees g = true :=
  ⟨agrees_trans hfg (agrees_symm hfg), agrees_trans (agrees_symm hfg) hfg⟩

/-- **Parameters that are no numbers.** A filter with one agrees with no filter. -/
theorem agrees_eq_false_of_hasNaN (hnan : f.kind.hasNaN = true) (g : Filter) :
    f.agrees g = false ∧ g.agrees f = false := by
  have hself : ¬ f.agrees f = true := by
    rw [agrees_self_iff, hnan]
    simp
  refine ⟨?_, ?_⟩
  · by_contra hfg
    exact hself (agrees_self_of_agrees (by simpa using hfg)).1
  · by_contra hgf
    exact hself (agrees_self_of_agrees (by simpa using hgf)).2

end Filter

end NeuroMap
