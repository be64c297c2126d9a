import Mathlib.Data.List.Forall2

/-!
# Outcomes of chains of steps

A chain of steps succeeds exactly when each of its steps does, and fails with the error of one of them. These lemmas take
chains apart.
-/

namespace NeuroMap.Outcome

variable {ε ε' α β : Type}

theorem bind_eq_ok_iff {x : Except ε α} {f : α → Except ε β} {b : β} :
    (x >>= f) = .ok b ↔ ∃ a, x = .ok a ∧ f a = .ok b := by
  cases x with
  | error e => simp [bind, Except.bind]
  | ok a => simp [bind, Except.bind]

theorem bind_eq_error_iff {x : Except ε α} {f : α → Except ε β} {e : ε} :
    (x >>= f) = .error e ↔ x = .error e ∨ ∃ a, x = .ok a ∧ f a = .error e := by
  cases x with
  | error e' => simp [bind, Except.bind]
  | ok a => simp [bind, Except.bind]

theorem map_eq_ok_iff {x : Except ε α} {f : α → β} {b : β} : x.map f = .ok b ↔ ∃ a, x = .ok a ∧ f a = b := by
  cases x with
  | error e => simp [Except.map]
  | ok a => simp [Except.map]

theorem mapError_eq_ok_iff {x : Except ε α} {f : ε → ε'} {a : α} : x.mapError f = .ok a ↔ x = .ok a := by
  cases x with
  | error e => simp [Except.mapError]
  | ok b => simp [Except.mapError]

theorem map_eq_error_iff {x : Except ε α} {f : α → β} {e : ε} : x.map f = .error e ↔ x = .error e := by
  cases x with
  | error e' => simp [Except.map]
  | ok a => simp [Except.map]

theorem mapError_eq_error_iff {x : Except ε α} {f : ε → ε'} {e' : ε'} :
    x.mapError f = .error e' ↔ ∃ e, x = .error e ∧ f e = e' := by
  cases x with
  | error e => simp [Except.mapError]
  | ok a => simp [Except.mapError]

theorem exists_ok_iff {x : Except ε α} : (∃ a, x = .ok a) ↔ ¬ ∃ e, x = .error e := by
  cases x with
  | error e => simp
  | ok a => simp

theorem pure_eq_ok_iff {a b : α} : (pure a : Except ε α) = .ok b ↔ a = b :=
  Except.ok.injEq a b ▸ Iff.rfl

theorem mapM_eq_ok_iff {f : α → Except ε β} {l : List α} {l' : List β} :
    l.mapM f = .ok l' ↔ List.Forall₂ (fun a b => f a = .ok b) l l' := by
  induction l generalizing l' with
  | nil => rw [List.mapM_nil, pure_eq_ok_iff, List.forall₂_nil_left_iff, eq_comm]
  | cons a l ih =>
    simp only [List.mapM_cons, bind_eq_ok_iff, pure_eq_ok_iff, ih, List.forall₂_cons_left_iff]
    constructor
    · rintro ⟨b, hb, bs, hbs, rfl⟩
      exact ⟨b, bs, hb, hbs, rfl⟩
    · rintro ⟨b, bs, hb, hbs, rfl⟩
      exact ⟨b, hb, bs, hbs, rfl⟩

theorem exists_of_isOk {x : Except ε α} (h : x.isOk = true) : ∃ a, x = .ok a := by
  cases x with
  | ok a => exact ⟨a, rfl⟩
  | error e => cases h

theorem forM_eq_ok_iff {f : α → Except ε Unit} {l : List α} : l.forM f = .ok () ↔ ∀ a ∈ l, f a = .ok () := by
  induction l with
  | nil => simp [pure, Except.pure]
  | cons a l ih =>
    rw [List.forM_eq_forM, List.forM_cons, bind_eq_ok_iff, List.forall_mem_cons, ← ih]
    exact ⟨fun ⟨_, ha, hl⟩ => ⟨ha, hl⟩, fun ⟨ha, hl⟩ => ⟨(), ha, hl⟩⟩

theorem exists_of_mapM_error {f : α → Except ε β} {l : List α} {e : ε} (h : l.mapM f = .error e) :
    ∃ a ∈ l, f a = .error e := by
  induction l with
  | nil => cases h
  | cons a l ih =>
    rw [List.mapM_cons] at h
    rcases bind_eq_error_iff.mp h with ha | ⟨b, -, hrest⟩
    · exact ⟨a, .head _, ha⟩
    · rcases bind_eq_error_iff.mp hrest with hl | ⟨bs, -, hpure⟩
      · obtain ⟨a', ha', he⟩ := ih hl
        exact ⟨a', .tail _ ha', he⟩
      · cases hpure

/-- Lists whose items fail alike. -/
theorem mapM_error_congr {α' β' : Type} {f : α → Except ε β} {g : α' → Except ε β'} {l : List α} {l' : List α'}
    (h : List.Forall₂ (fun a a' => ∀ e, f a = .error e ↔ g a' = .error e) l l') (e : ε) :
    l.mapM f = .error e ↔ l'.mapM g = .error e := by
  induction h with
  | nil => exact iff_of_false (by simp [pure, Except.pure]) (by simp [pure, Except.pure])
  | @cons a a' l l' ha _ ih =>
    rw [List.mapM_cons, List.mapM_cons]
    cases hf : f a with
    | error e' =>
      rw [(ha e').mp hf]
      simp [bind_eq_error_iff]
    | ok b =>
      cases hg : g a' with
      | error e' =>
        rw [(ha e').mpr hg] at hf
        cases hf
      | ok b' =>
        simp only [bind_eq_error_iff, Except.ok.injEq, exists_eq_left', reduceCtorEq, false_or]
        rw [ih]
        simp [pure, Except.pure]

theorem exists_of_forM_error {f : α → Except ε Unit} {l : List α} {e : ε} (h : l.forM f = .error e) :
    ∃ a ∈ l, f a = .error e := by
  induction l with
  | nil => cases h
  | cons a l ih =>
    rw [List.forM_eq_forM, List.forM_cons] at h
    rcases bind_eq_error_iff.mp h with ha | ⟨-, -, hrest⟩
    · exact ⟨a, .head _, ha⟩
    · obtain ⟨a', ha', he⟩ := ih hrest
      exact ⟨a', .tail _ ha', he⟩

/-- A chain of steps that fails has a first step that does. -/
theorem of_foldlM_error {σ : Type} {f : σ → α → Except ε σ} {l : List α} {s : σ} {e : ε} (h : l.foldlM f s = .error e) :
    ∃ before a after s', l = before ++ a :: after ∧ before.foldlM f s = .ok s' ∧ f s' a = .error e := by
  induction l generalizing s with
  | nil => cases h
  | cons a l ih =>
    rw [List.foldlM_cons] at h
    cases hstep : f s a with
    | error e' =>
      rw [hstep] at h
      obtain rfl : e' = e := Except.error.inj h
      exact ⟨[], a, l, s, rfl, rfl, hstep⟩
    | ok s₁ =>
      rw [hstep] at h
      obtain ⟨before, b, after, s', rfl, hbefore, hb⟩ := ih h
      exact ⟨a :: before, b, after, s', rfl, by rw [List.foldlM_cons, hstep]; exact hbefore, hb⟩

/-! ## Lists that agree item by item -/

variable {R : α → β → Prop} {l : List α} {l' : List β} {i : Nat}

theorem getElem?_right (h : List.Forall₂ R l l') {a : α} (ha : l[i]? = some a) : ∃ b, l'[i]? = some b ∧ R a b := by
  obtain ⟨hlength, hget⟩ := List.forall₂_iff_get.mp h
  obtain ⟨hi, rfl⟩ := List.getElem?_eq_some_iff.mp ha
  exact ⟨l'[i], List.getElem?_eq_getElem _, hget i hi (hlength ▸ hi)⟩

theorem getElem?_left (h : List.Forall₂ R l l') {b : β} (hb : l'[i]? = some b) : ∃ a, l[i]? = some a ∧ R a b :=
  getElem?_right (List.Forall₂.flip (R := fun b a => R a b) h) hb

theorem exists_mem_left (h : List.Forall₂ R l l') {b : β} (hb : b ∈ l') : ∃ a ∈ l, R a b := by
  obtain ⟨i, hi⟩ := List.getElem?_of_mem hb
  obtain ⟨a, ha, hab⟩ := getElem?_left h hi
  exact ⟨a, List.mem_of_getElem? ha, hab⟩

theorem mem_of_mapM {f : α → Except ε β} (h : l.mapM f = .ok l') {b : β} : b ∈ l' ↔ ∃ a ∈ l, f a = .ok b := by
  have hall := mapM_eq_ok_iff.mp h
  refine ⟨exists_mem_left hall, ?_⟩
  rintro ⟨a, ha, hab⟩
  obtain ⟨i, hi⟩ := List.getElem?_of_mem ha
  obtain ⟨b', hb', hab'⟩ := getElem?_right hall hi
  rw [hab, Except.ok.injEq] at hab'
  exact hab' ▸ List.mem_of_getElem? hb'

theorem forall₂_imp_of_mem {S : α → β → Prop} (h : List.Forall₂ R l l') (himp : ∀ a, ∀ b ∈ l', R a b → S a b) :
    List.Forall₂ S l l' := by
  induction h with
  | nil => exact .nil
  | cons hab _ ih => exact .cons (himp _ _ (.head _) hab) (ih fun a b hb => himp a b (.tail _ hb))

variable {γ : Type}

theorem forall₂_trans {S : β → γ → Prop} {T : α → γ → Prop} {l'' : List γ} (h : List.Forall₂ R l l')
    (h' : List.Forall₂ S l' l'') (hT : ∀ a ∈ l, ∀ b c, R a b → S b c → T a c) : List.Forall₂ T l l'' := by
  induction h generalizing l'' with
  | nil =>
    cases h'
    exact .nil
  | cons hab _ ih =>
    cases h' with
    | cons hbc hrest => exact .cons (hT _ (.head _) _ _ hab hbc) (ih hrest fun a ha => hT a (.tail _ ha))

/-- Items that are all of one form. -/
theorem exists_eq_map {S : α → γ → Prop} {g : γ → β} (h : List.Forall₂ R l l')
    (hform : ∀ a b, R a b → ∃ c, S a c ∧ b = g c) : ∃ cs, List.Forall₂ S l cs ∧ l' = cs.map g := by
  induction h with
  | nil => exact ⟨[], .nil, rfl⟩
  | cons hab _ ih =>
    obtain ⟨c, hc, rfl⟩ := hform _ _ hab
    obtain ⟨cs, hcs, rfl⟩ := ih
    exact ⟨c :: cs, .cons hc hcs, rfl⟩

/-! ## The first refusal -/

/-- In the order of the list, the first item that is refused after the items before it is refused with `e`. -/
def FirstRefused (refused : List α → α → ε → Prop) (l : List α) (e : ε) : Prop :=
  ∃ before a after, l = before ++ a :: after ∧ refused before a e ∧
    ∀ before' b after' e', before = before' ++ b :: after' → ¬ refused before' b e'

section FirstRefusal

variable {refused : List α → α → ε → Prop} {e e' : ε}

/-- If an item is refused, there is a first one. -/
theorem exists_firstRefused {before after : List α} {a : α} (h : refused before a e) :
    ∃ e', FirstRefused refused (before ++ a :: after) e' := by
  induction hn : before.length using Nat.strongRecOn generalizing before a after e with
  | _ n ih =>
    by_cases hfirst : ∀ before' b after' e', before = before' ++ b :: after' → ¬ refused before' b e'
    · exact ⟨e, before, a, after, rfl, h, hfirst⟩
    · push Not at hfirst
      obtain ⟨before', b, after', e', rfl, hb⟩ := hfirst
      have hlt : before'.length < n := by
        rw [← hn]
        simp
      have hearlier : ∃ e'', FirstRefused refused (before' ++ b :: (after' ++ a :: after)) e'' := ih _ hlt hb rfl
      simpa using hearlier

theorem exists_firstRefused_iff :
    (∃ e, FirstRefused refused l e) ↔ ∃ before a after, l = before ++ a :: after ∧ ∃ e, refused before a e := by
  constructor
  · rintro ⟨e, before, a, after, rfl, ha, -⟩
    exact ⟨before, a, after, rfl, e, ha⟩
  · rintro ⟨before, a, after, rfl, e, ha⟩
    exact exists_firstRefused ha

theorem flatten_eq_append_cons {ls : List (List α)} {p q : List α} {a : α} (h : ls.flatten = p ++ a :: q) :
    ∃ before done rest after, ls = before ++ (done ++ a :: rest) :: after ∧ p = before.flatten ++ done := by
  induction ls generalizing p with
  | nil => simp at h
  | cons l ls ih =>
    rw [List.flatten_cons] at h
    rcases List.append_eq_append_iff.mp h with ⟨mid, rfl, hrest⟩ | ⟨mid, rfl, hmid⟩
    · obtain ⟨before, done, rest, after, rfl, rfl⟩ := ih hrest
      exact ⟨l :: before, done, rest, after, rfl, by simp⟩
    · cases mid with
      | nil =>
        obtain ⟨before, done, rest, after, rfl, hdone⟩ := ih (p := []) hmid.symm
        exact ⟨p :: before, done, rest, after, by simp, by simpa using hdone⟩
      | cons b mid =>
        obtain ⟨rfl, -⟩ := List.cons.inj hmid
        exact ⟨[], p, mid, ls, rfl, rfl⟩

/-- Going through lists one after the other is going through their items. -/
theorem firstRefused_flatten {ls : List (List α)} :
    FirstRefused (fun before l e => FirstRefused (fun done a e => refused (before.flatten ++ done) a e) l e) ls e ↔
      FirstRefused refused ls.flatten e := by
  constructor
  · rintro ⟨before, l, after, rfl, ⟨done, a, rest, rfl, ha, hdone⟩, hbefore⟩
    refine ⟨before.flatten ++ done, a, rest ++ after.flatten, by simp, ha, ?_⟩
    intro before' b after' e' hsplit hb
    -- An item before stands in an earlier list or earlier in its own.
    rcases List.append_eq_append_iff.mp hsplit.symm with ⟨mid, hflat, hmid⟩ | ⟨mid, rfl, hmid⟩
    · cases mid with
      | nil => exact hdone [] b after' e' (by simpa using hmid.symm) (by simpa [hflat] using hb)
      | cons c mid =>
        obtain ⟨rfl, -⟩ := List.cons.inj hmid
        obtain ⟨front, done', rest', back, rfl, rfl⟩ := flatten_eq_append_cons hflat
        have hfirst : ∃ e, FirstRefused (fun done a e => refused (front.flatten ++ done) a e) (done' ++ b :: rest') e :=
          exists_firstRefused hb
        obtain ⟨e'', hfirst⟩ := hfirst
        exact hbefore front _ back e'' rfl hfirst
    · exact hdone mid b after' e' hmid hb
  · rintro ⟨before', a, after', hsplit, ha, hfirst⟩
    obtain ⟨before, done, rest, after, rfl, rfl⟩ := flatten_eq_append_cons hsplit
    refine ⟨before, _, after, rfl, ⟨done, a, rest, rfl, ha, ?_⟩, ?_⟩
    · rintro done' b rest' e' rfl
      exact hfirst (before.flatten ++ done') b rest' e' (by simp)
    · rintro front l back e' rfl ⟨done', b, rest', rfl, hb, -⟩
      exact hfirst (front.flatten ++ done') b (rest' ++ back.flatten ++ done) e' (by simp) hb

theorem not_firstRefused_nil : ¬ FirstRefused refused [] e := by
  rintro ⟨before, a, after, hsplit, -⟩
  simp at hsplit

/-- The first item is refused, or it is not and the first one to be refused comes later. -/
theorem firstRefused_cons {a : α} :
    FirstRefused refused (a :: l) e ↔
      refused [] a e ∨ (∀ e', ¬ refused [] a e') ∧ FirstRefused (fun before => refused (a :: before)) l e := by
  constructor
  · rintro ⟨before, b, after, hsplit, hb, hfirst⟩
    rcases List.cons_eq_append_iff.mp hsplit with ⟨rfl, hcons⟩ | ⟨before, rfl, rfl⟩
    · obtain ⟨rfl, -⟩ := List.cons.inj hcons
      exact .inl hb
    · refine .inr ⟨fun e' => hfirst [] a before e' rfl, before, b, after, rfl, hb, ?_⟩
      rintro before' c after' e' rfl
      exact hfirst (a :: before') c after' e' rfl
  · rintro (ha | ⟨ha, before, b, after, rfl, hb, hfirst⟩)
    · refine ⟨[], a, l, rfl, ha, ?_⟩
      intro before' c after' e' hsplit
      simp at hsplit
    · refine ⟨a :: before, b, after, rfl, hb, ?_⟩
      intro before' c after' e' hsplit
      rcases List.cons_eq_append_iff.mp hsplit with ⟨rfl, hcons⟩ | ⟨front, rfl, hrest⟩
      · obtain ⟨rfl, -⟩ := List.cons.inj hcons
        exact ha e'
      · exact hfirst front c after' e' hrest

/-- A chain whose steps fail exactly for refused items fails with the error of the first of them. -/
theorem foldlM_eq_error_iff {σ : Type} {f : σ → α → Except ε σ} {s : σ}
    (hstep : ∀ before a s' e, before.foldlM f s = .ok s' → (f s' a = .error e ↔ refused before a e)) :
    l.foldlM f s = .error e ↔ FirstRefused refused l e := by
  constructor
  · intro h
    obtain ⟨before, a, after, s', rfl, hbefore, ha⟩ := of_foldlM_error h
    refine ⟨before, a, after, rfl, (hstep before a s' e hbefore).mp ha, ?_⟩
    rintro before' b after' e' rfl hrefused
    rw [List.foldlM_append] at hbefore
    obtain ⟨t, ht, hrest⟩ := bind_eq_ok_iff.mp hbefore
    rw [List.foldlM_cons, (hstep before' b t e' ht).mpr hrefused] at hrest
    cases hrest
  · rintro ⟨before, a, after, rfl, hrefused, hfirst⟩
    cases hbefore : before.foldlM f s with
    | ok s' =>
      have ha : f s' a = .error e := (hstep before a s' e hbefore).mpr hrefused
      rw [List.foldlM_append, hbefore]
      refine bind_eq_error_iff.mpr (.inr ⟨s', rfl, ?_⟩)
      rw [List.foldlM_cons, ha]
      rfl
    | error e' =>
      obtain ⟨before', b, after', t, rfl, ht, hb⟩ := of_foldlM_error hbefore
      exact absurd ((hstep before' b t e' ht).mp hb) (hfirst before' b after' e' rfl)

theorem forM_eq_error_iff {f : α → Except ε Unit} :
    l.forM f = .error e ↔ FirstRefused (fun _ a e => f a = .error e) l e := by
  have hfold (l : List α) : l.forM f = l.foldlM (fun _ a => f a) () := by
    induction l with
    | nil => rfl
    | cons a l ih =>
      rw [List.forM_eq_forM, List.forM_cons, List.foldlM_cons, ← List.forM_eq_forM, ih]
  rw [hfold]
  exact foldlM_eq_error_iff fun _ _ _ _ _ => Iff.rfl

theorem mapM_eq_error_iff {f : α → Except ε β} :
    l.mapM f = .error e ↔ FirstRefused (fun _ a e => f a = .error e) l e := by
  induction l with
  | nil => exact iff_of_false (by simp [pure, Except.pure]) not_firstRefused_nil
  | cons a l ih =>
    rw [List.mapM_cons, firstRefused_cons, ← ih, bind_eq_error_iff]
    cases f a with
    | error e' => simp
    | ok b =>
      cases l.mapM f with
      | error e' => simp [bind, Except.bind]
      | ok bs => simp [bind, Except.bind, pure, Except.pure]

end FirstRefusal

end NeuroMap.Outcome
