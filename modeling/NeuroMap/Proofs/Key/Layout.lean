import Mathlib.Order.Interval.Finset.Nat
import NeuroMap.Proofs.Key.Packing
import NeuroMap.Proofs.Word.Checked

/-!
# Layouts of keys

A declaration covers the bits from its offset up to its offset plus its length, as natural numbers. A list of declarations
is a sound layout if each has a name and bits of its own inside the key (`Format.SoundLayout`). Formats are built by
comparing masks; here the masks are tied to the bits covered, so that exactly the sound layouts are built, and what is
wrong with any other list is found by going through it in order (`FieldDecl.Refused`).

The masks of fields outside the key could not even be computed. `Format.scan?` is the scan in words whose operations have
no result when they leave the word; it never comes to that.
-/

namespace NeuroMap

namespace FieldDecl

/-- The bits of a declaration, inside the key or not. -/
def bits (d : FieldDecl) : Finset Nat :=
  Finset.Ico d.offset.toNat (d.offset.toNat + d.length.toNat)

/-- What is wrong with a declaration on its own; the checks are made in this order. -/
inductive Faulty (d : FieldDecl) : FieldFault → Prop where
  | unnamed (hname : d.name = "") : Faulty d .unnamed
  | zeroWidth (hname : d.name ≠ "") (hlength : d.length.toNat = 0) : Faulty d .zeroWidth
  | outside (hname : d.name ≠ "") (hlength : d.length.toNat ≠ 0) (hbits : keyBits < d.offset.toNat + d.length.toNat) :
      Faulty d (.outside d.offset.toNat (d.offset.toNat + d.length.toNat))

/-- What is wrong with a declaration beside an earlier one; the names are compared first. -/
inductive Clashes (earlier d : FieldDecl) : KeyError → Prop where
  | duplicate (hname : earlier.name = d.name) : Clashes earlier d (.duplicateField d.name)
  | overlapping (hname : earlier.name ≠ d.name) (hbits : ¬ Disjoint earlier.bits d.bits) :
      Clashes earlier d (.overlappingFields earlier.name d.name)

/-- What is wrong with a declaration after others: its own fault, or else its clash with the first that it clashes with. -/
inductive Refused (earlier : List FieldDecl) (d : FieldDecl) : KeyError → Prop where
  | invalid {fault : FieldFault} (hfault : d.Faulty fault) : Refused earlier d (.invalidField d.name fault)
  | clash {e : KeyError} (hsound : ∀ fault, ¬ d.Faulty fault)
      (hclash : Outcome.FirstRefused (fun _ f e => f.Clashes d e) earlier e) : Refused earlier d e

/-! ## One declaration -/

variable {d : FieldDecl} {e : KeyError}

theorem length_eq_zero_iff : d.length = 0 ↔ d.length.toNat = 0 := by
  rw [← UInt32.toNat_inj]
  rfl

theorem place_of_faulty {fault : FieldFault} (h : d.Faulty fault) : d.place = .error (.invalidField d.name fault) := by
  unfold place
  cases h with
  | unnamed hname => rw [dif_pos hname]
  | zeroWidth hname hlength => rw [dif_neg hname, dif_pos (length_eq_zero_iff.mpr hlength)]
  | outside hname hlength hbits =>
    rw [dif_neg hname, dif_neg (fun h => hlength (length_eq_zero_iff.mp h)), dif_neg (Nat.not_le_of_lt hbits)]

/-- **Its own faults.** A declaration has no place exactly when something is wrong with it on its own. -/
theorem place_eq_error_iff : d.place = .error e ↔ ∃ fault, d.Faulty fault ∧ e = .invalidField d.name fault := by
  constructor
  · intro h
    unfold place at h
    split at h
    case isTrue hname => exact ⟨_, .unnamed hname, (Except.error.inj h).symm⟩
    case isFalse hname =>
      split at h
      case isTrue hlength => exact ⟨_, .zeroWidth hname (length_eq_zero_iff.mp hlength), (Except.error.inj h).symm⟩
      case isFalse hlength =>
        have hpos : d.length.toNat ≠ 0 := fun h => hlength (length_eq_zero_iff.mpr h)
        split at h
        case isTrue hinside => cases h
        case isFalse hinside => exact ⟨_, .outside hname hpos (Nat.lt_of_not_le hinside), (Except.error.inj h).symm⟩
  · rintro ⟨fault, hfault, rfl⟩
    exact place_of_faulty hfault

theorem not_faulty_of_place {f : Field} (h : d.place = .ok f) (fault : FieldFault) : ¬ d.Faulty fault := by
  intro hfault
  rw [place_of_faulty hfault] at h
  cases h

end FieldDecl

namespace Field

variable {e f : Field}

/-- **Masks and bits.** The mask of a field has exactly the bits that the field covers. -/
theorem testBit_mask (f : Field) (i : Nat) : f.mask.toNat.testBit i = true ↔ i ∈ f.bits := by
  have hshift : f.mask.toNat = (2 ^ f.length.toNat - 1) * 2 ^ f.offset.toNat := by
    rw [mask, toNat_shift (UInt32.le_refl _), toNat_maxValue]
  rw [hshift, Nat.testBit_mul_two_pow, Nat.testBit_two_pow_sub_one, FieldDecl.bits, Finset.mem_Ico, Bool.and_eq_true,
    decide_eq_true_iff, decide_eq_true_iff]
  omega

theorem mask_and_eq_zero_iff : e.mask &&& f.mask = 0 ↔ Disjoint e.bits f.bits := by
  rw [← UInt32.toNat_inj, UInt32.toNat_and, Finset.disjoint_left]
  constructor
  · intro hzero i he hf
    have hbit : (e.mask.toNat &&& f.mask.toNat).testBit i = true := by
      rw [Nat.testBit_and, (testBit_mask e i).mpr he, (testBit_mask f i).mpr hf]
      rfl
    rw [hzero, UInt32.toNat_zero, Nat.zero_testBit] at hbit
    cases hbit
  · intro hdisjoint
    refine Nat.eq_of_testBit_eq fun i => ?_
    rw [Nat.testBit_and, UInt32.toNat_zero, Nat.zero_testBit, ← Bool.not_eq_true, Bool.and_eq_true]
    rintro ⟨he, hf⟩
    exact hdisjoint ((testBit_mask e i).mp he) ((testBit_mask f i).mp hf)

/-- Fields cannot stand in one format exactly when their declarations clash. -/
theorem not_apart_iff : ¬ e.Apart f ↔ ∃ err, e.toFieldDecl.Clashes f.toFieldDecl err := by
  unfold Apart
  rw [mask_and_eq_zero_iff]
  constructor
  · intro h
    by_cases hname : e.name = f.name
    · exact ⟨_, .duplicate hname⟩
    · exact ⟨_, .overlapping hname fun hbits => h ⟨hname, hbits⟩⟩
  · rintro ⟨err, hclash⟩ ⟨hname, hbits⟩
    cases hclash with
    | duplicate h => exact hname h
    | overlapping _ h => exact h hbits

end Field

/-! ## All declarations -/

namespace Format

variable {format : Format} {name : String} {d : FieldDecl} {decls : List FieldDecl} {e : KeyError}

/-- Every declaration has a name and bits of its own inside the key. -/
structure SoundLayout (decls : List FieldDecl) : Prop where
  named : ∀ d ∈ decls, d.name ≠ ""
  nonempty : ∀ d ∈ decls, 1 ≤ d.length.toNat
  inside : ∀ d ∈ decls, d.offset.toNat + d.length.toNat ≤ keyBits
  names : decls.Pairwise fun d d' => d.name ≠ d'.name
  disjoint : decls.Pairwise fun d d' => Disjoint d.bits d'.bits

/-- The error that the first field in the way gives. -/
theorem find?_not_apart_iff {fields : List Field} {f : Field} :
    (∃ g, fields.find? (fun e => ¬ e.Apart f) = some g ∧
        e = if g.name = f.name then .duplicateField f.name else .overlappingFields g.name f.name) ↔
      Outcome.FirstRefused (fun _ g e => g.Clashes f.toFieldDecl e) (fields.map (·.toFieldDecl)) e := by
  constructor
  · rintro ⟨g, hfind, rfl⟩
    obtain ⟨hg, before, after, rfl, hbefore⟩ := List.find?_eq_some_iff_append.mp hfind
    obtain ⟨err, hclash⟩ := Field.not_apart_iff.mp (by simpa using hg)
    refine ⟨before.map (·.toFieldDecl), g.toFieldDecl, after.map (·.toFieldDecl), by simp, ?_, ?_⟩
    · cases hclash with
      | duplicate hname =>
        rw [if_pos hname]
        exact .duplicate hname
      | overlapping hname hbits =>
        rw [if_neg hname]
        exact .overlapping hname hbits
    · intro before' b after' e' hsplit hb
      obtain ⟨h, hh, rfl⟩ := List.mem_map.mp (hsplit ▸ List.mem_append_right before' (List.mem_cons_self (a := b)))
      exact Field.not_apart_iff.mpr ⟨e', hb⟩ (by simpa using hbefore h hh)
  · rintro ⟨before, b, after, hsplit, hclash, hfirst⟩
    obtain ⟨before, rest, rfl, rfl, hrest⟩ := List.map_eq_append_iff.mp hsplit
    obtain ⟨g, after, rfl, rfl, rfl⟩ := List.map_eq_cons_iff.mp hrest
    refine ⟨g, List.find?_eq_some_iff_append.mpr ⟨?_, before, after, rfl, ?_⟩, ?_⟩
    · simpa using Field.not_apart_iff.mpr ⟨e, hclash⟩
    · intro h hh
      obtain ⟨before', after', rfl⟩ := List.append_of_mem hh
      have hnone : ∀ e', ¬ h.Clashes f.toFieldDecl e' := fun e' =>
        hfirst (before'.map (·.toFieldDecl)) h.toFieldDecl (after'.map (·.toFieldDecl)) e' (by simp)
      by_contra hapart
      obtain ⟨err, hclash'⟩ := Field.not_apart_iff.mp (by simpa using hapart)
      exact hnone err hclash'
    · cases hclash with
      | duplicate hname => rw [if_pos hname]
      | overlapping hname hbits => rw [if_neg hname]

/-- **One declaration more.** It is not added exactly when it is refused after those that are there. -/
theorem add_eq_error_iff : format.add d = .error e ↔ d.Refused (format.fields.map (·.toFieldDecl)) e := by
  unfold add
  cases hplace : d.place with
  | error e' =>
    obtain ⟨fault, hfault, rfl⟩ := FieldDecl.place_eq_error_iff.mp hplace
    simp only [Except.error.injEq]
    constructor
    · rintro rfl
      exact .invalid hfault
    · intro hrefused
      cases hrefused with
      | invalid hfault' =>
        have hplace' := FieldDecl.place_of_faulty hfault'
        rw [hplace, Except.error.injEq] at hplace'
        exact hplace'
      | clash hsound _ => exact absurd hfault (hsound fault)
  | ok f =>
    obtain rfl := FieldDecl.toFieldDecl_of_place hplace
    have hsound := FieldDecl.not_faulty_of_place hplace
    have hclash : f.Refused (format.fields.map (·.toFieldDecl)) e ↔
        Outcome.FirstRefused (fun _ g e => g.Clashes f.toFieldDecl e) (format.fields.map (·.toFieldDecl)) e := by
      constructor
      · intro hrefused
        cases hrefused with
        | invalid hfault => exact absurd hfault (hsound _)
        | clash _ hclash => exact hclash
      · exact .clash hsound
    rw [hclash, ← find?_not_apart_iff]
    dsimp only
    split
    case h_1 g hg =>
      simp only [hg, Option.some.injEq, exists_eq_left']
      split
      · rw [Except.error.injEq, eq_comm]
      · rw [Except.error.injEq, eq_comm]
    case h_2 hnone =>
      refine iff_of_false (by simp) ?_
      rintro ⟨g, hg, -⟩
      rw [hnone] at hg
      cases hg

/-- **All declarations.** The first one that is refused after those before it decides the error. -/
theorem build_eq_error_iff : build name decls = .error e ↔ Outcome.FirstRefused FieldDecl.Refused decls e := by
  refine Outcome.foldlM_eq_error_iff fun before d format e hbefore => ?_
  rw [add_eq_error_iff, decls_of_build hbefore]

theorem soundLayout_of_fields (format : Format) : SoundLayout (format.fields.map (·.toFieldDecl)) := by
  refine
    { named := List.forall_mem_map.mpr fun f _ => f.named
      nonempty := List.forall_mem_map.mpr fun f _ => f.length_pos
      inside := List.forall_mem_map.mpr fun f _ => f.inside
      names := List.pairwise_map.mpr (format.apart.imp fun h => h.1)
      disjoint := List.pairwise_map.mpr (format.apart.imp fun h => Field.mask_and_eq_zero_iff.mp h.2) }

/-- Nothing in a sound layout is refused. -/
theorem SoundLayout.not_refused (h : SoundLayout decls) : ¬ Outcome.FirstRefused FieldDecl.Refused decls e := by
  rintro ⟨before, d, after, rfl, hrefused, -⟩
  have hd : d ∈ before ++ d :: after := List.mem_append_right _ (.head _)
  cases hrefused with
  | invalid hfault =>
    cases hfault with
    | unnamed hname => exact h.named d hd hname
    | zeroWidth _ hlength => exact Nat.ne_of_gt (h.nonempty d hd) hlength
    | outside _ _ hbits => exact absurd (h.inside d hd) (Nat.not_le_of_lt hbits)
  | clash _ hclash =>
    obtain ⟨before', f, after', rfl, hf, -⟩ := hclash
    have hmem : f ∈ before' ++ f :: after' := List.mem_append_right _ (.head _)
    cases hf with
    | duplicate hname => exact (List.pairwise_append.mp h.names).2.2 f hmem d (.head _) hname
    | overlapping _ hbits => exact hbits ((List.pairwise_append.mp h.disjoint).2.2 f hmem d (.head _))

theorem exists_build_iff : (∃ format, build name decls = .ok format) ↔ SoundLayout decls := by
  constructor
  · rintro ⟨format, hbuild⟩
    rw [← decls_of_build hbuild]
    exact soundLayout_of_fields format
  · intro hsound
    cases hbuild : build name decls with
    | ok format => exact ⟨format, rfl⟩
    | error e => exact absurd (build_eq_error_iff.mp hbuild) hsound.not_refused

end Format

/-! ## The scan in words -/

namespace FieldDecl

/-- The largest value of the field, in words. -/
def maxValue? (d : FieldDecl) : Option UInt32 :=
  if d.length < 32 then (Word.shiftLeft? 1 d.length).bind (Word.sub? · 1) else some 0xFFFFFFFF

/-- The mask of the field, in words. -/
def wordMask? (d : FieldDecl) : Option UInt32 :=
  d.maxValue?.bind (Word.shiftLeft? · d.offset)

/-- The error that the field leaves the key, with the end of its bits as a long word. -/
def outside? (d : FieldDecl) : Option (Except KeyError Unit) :=
  (Word.addLong? d.offset.toUInt64 d.length.toUInt64).map fun stop =>
    .error (.invalidField d.name (.outside d.offset.toNat stop.toNat))

/-- The check of a declaration on its own, in words: the room above the offset is computed for an offset inside only. -/
def check? (d : FieldDecl) : Option (Except KeyError Unit) :=
  if d.name = "" then some (.error (.invalidField d.name .unnamed))
  else if d.length = 0 then some (.error (.invalidField d.name .zeroWidth))
  else if d.offset < 32 then
    (Word.sub? 32 d.offset).bind fun room => if d.length ≤ room then some (.ok ()) else d.outside?
  else d.outside?

/-- The check of a declaration beside earlier ones, in words. -/
def compare? (d : FieldDecl) : List FieldDecl → Option (Except KeyError Unit)
  | [] => some (.ok ())
  | e :: earlier =>
    if e.name = d.name then some (.error (.duplicateField d.name))
    else
      e.wordMask?.bind fun mask => d.wordMask?.bind fun mask' =>
        if mask &&& mask' = 0 then compare? d earlier else some (.error (.overlappingFields e.name d.name))

variable {d : FieldDecl}

theorem maxValue?_eq (d : FieldDecl) : d.maxValue? = some d.maxValue := by
  unfold maxValue? maxValue
  by_cases hlength : d.length < 32
  · have hlt : d.length.toNat < 32 := UInt32.lt_iff_toNat_lt.mp hlength
    have hpow : 2 ^ d.length.toNat < 2 ^ 32 := Nat.pow_lt_pow_right (by decide) hlt
    have hone : (1 : UInt32) ≤ 1 <<< d.length := by
      rw [UInt32.le_iff_toNat_le, UInt32.toNat_shiftLeft, Nat.mod_eq_of_lt hlt, UInt32.toNat_one, Nat.one_shiftLeft,
        Nat.mod_eq_of_lt hpow]
      exact Nat.one_le_two_pow
    rw [if_pos hlength, if_pos hlength, Word.shiftLeft?, if_pos hlength, Option.bind_some, Word.sub?, if_pos hone]
  · rw [if_neg hlength, if_neg hlength]

theorem wordMask?_eq (d : FieldDecl) : d.wordMask? = d.mask? := by
  rw [wordMask?, maxValue?_eq]
  rfl

theorem outside?_eq (d : FieldDecl) : d.outside? =
    some (.error (.invalidField d.name (.outside d.offset.toNat (d.offset.toNat + d.length.toNat)))) := by
  obtain ⟨stop, hstop, hval⟩ := Word.addLong?_toUInt64 d.offset d.length
  rw [outside?, hstop, Option.map_some, hval]

theorem check?_eq (d : FieldDecl) : d.check? = some (d.place.map fun _ => ()) := by
  unfold check? place
  by_cases hname : d.name = ""
  · rw [if_pos hname, dif_pos hname]
    rfl
  · rw [if_neg hname, dif_neg hname]
    by_cases hlength : d.length = 0
    · rw [if_pos hlength, dif_pos hlength]
      rfl
    · rw [if_neg hlength, dif_neg hlength, outside?_eq]
      have hpos : d.length.toNat ≠ 0 := fun h => hlength (length_eq_zero_iff.mpr h)
      by_cases hoffset : d.offset < 32
      · have hle : d.offset ≤ 32 := UInt32.le_of_lt hoffset
        have hroom : (32 - d.offset).toNat = 32 - d.offset.toNat := UInt32.toNat_sub_of_le _ _ hle
        have hlt : d.offset.toNat < 32 := UInt32.lt_iff_toNat_lt.mp hoffset
        have hinside : d.length ≤ 32 - d.offset ↔ d.offset.toNat + d.length.toNat ≤ keyBits := by
          rw [UInt32.le_iff_toNat_le, hroom, keyBits]
          omega
        rw [if_pos hoffset, Word.sub?, if_pos hle, Option.bind_some]
        by_cases hbits : d.offset.toNat + d.length.toNat ≤ keyBits
        · rw [if_pos (hinside.mpr hbits), dif_pos hbits]
          rfl
        · rw [if_neg (fun h => hbits (hinside.mp h)), dif_neg hbits]
          rfl
      · have hge : ¬ d.offset.toNat < 32 := fun h => hoffset (UInt32.lt_iff_toNat_lt.mpr h)
        have hbits : ¬ d.offset.toNat + d.length.toNat ≤ keyBits := by
          rw [keyBits]
          omega
        rw [if_neg hoffset, dif_neg hbits]
        rfl

end FieldDecl

namespace Format

/-- The scan of declarations in words, after earlier ones. -/
def scan? (earlier : List FieldDecl) : List FieldDecl → Option (Except KeyError Unit)
  | [] => some (.ok ())
  | d :: rest =>
    d.check?.bind fun
      | .error e => some (.error e)
      | .ok () =>
        (d.compare? earlier).bind fun
          | .error e => some (.error e)
          | .ok () => scan? (earlier ++ [d]) rest

/-- Masks are compared for fields only, so the comparison has a result: that of the first field in the way. -/
theorem compare?_eq (f : Field) (fields : List Field) :
    f.compare? (fields.map (·.toFieldDecl)) = some (match fields.find? (fun e => ¬ e.Apart f) with
      | some e => if e.name = f.name then .error (.duplicateField f.name) else .error (.overlappingFields e.name f.name)
      | none => .ok ()) := by
  induction fields with
  | nil => rfl
  | cons e fields ih =>
    rw [List.map_cons, FieldDecl.compare?, FieldDecl.wordMask?_eq, FieldDecl.wordMask?_eq, e.mask?_eq_some,
      f.mask?_eq_some, Option.bind_some, Option.bind_some]
    by_cases hname : e.name = f.name
    · have hnot : ¬ e.Apart f := fun h => h.1 hname
      rw [if_pos hname, List.find?_cons_of_pos (by simpa using hnot)]
      dsimp only
      rw [if_pos hname]
    · by_cases hmask : e.mask &&& f.mask = 0
      · rw [if_neg hname, if_pos hmask, ih, List.find?_cons_of_neg (by simpa using ⟨hname, hmask⟩)]
      · have hnot : ¬ e.Apart f := fun h => hmask h.2
        rw [if_neg hname, if_neg hmask, List.find?_cons_of_pos (by simpa using hnot)]
        dsimp only
        rw [if_neg hname]

/-- **One declaration more,** in words. -/
theorem scan?_cons (format : Format) (d : FieldDecl) (rest : List FieldDecl) :
    scan? (format.fields.map (·.toFieldDecl)) (d :: rest) = match format.add d with
      | .error e => some (.error e)
      | .ok format' => scan? (format'.fields.map (·.toFieldDecl)) rest := by
  rw [scan?, FieldDecl.check?_eq]
  generalize hadd : format.add d = outcome
  unfold add at hadd
  cases hplace : d.place with
  | error e =>
    rw [hplace] at hadd
    rw [← hadd]
    rfl
  | ok f =>
    obtain rfl := FieldDecl.toFieldDecl_of_place hplace
    rw [hplace] at hadd
    dsimp only [Except.map, Option.bind_some] at hadd ⊢
    rw [compare?_eq]
    split at hadd
    case h_1 g hg =>
      rw [hg, ← hadd]
      by_cases hname : g.name = f.name
      · simp only [if_pos hname, Option.bind_some]
      · simp only [if_neg hname, Option.bind_some]
    case h_2 hnone =>
      rw [hnone, ← hadd]
      simp only [Option.bind_some, List.map_append, List.map_singleton]

/-- **All declarations,** in words: the scan always has a result, and it is that of building the format. -/
theorem scan?_eq (format : Format) (rest : List FieldDecl) :
    scan? (format.fields.map (·.toFieldDecl)) rest = some ((rest.foldlM add format).map fun _ => ()) := by
  induction rest generalizing format with
  | nil => rfl
  | cons d rest ih =>
    rw [scan?_cons, List.foldlM_cons]
    cases format.add d with
    | error e => rfl
    | ok format' => exact ih format'

/-- **Which formats are built.** Exactly the sound layouts are, with their declarations as fields. For any other list the
first declaration that is refused after those before it decides the error. The scan in words finds the same, so it shifts
no word by its width or more and no operation of it leaves the words. -/
theorem builds_soundLayouts (name : String) (decls : List FieldDecl) :
    ((∃ format, build name decls = .ok format) ↔ SoundLayout decls) ∧
    (∀ format, build name decls = .ok format → format.fields.map (·.toFieldDecl) = decls) ∧
    (∀ e, build name decls = .error e ↔ Outcome.FirstRefused FieldDecl.Refused decls e) ∧
    scan? [] decls = some ((build name decls).map fun _ => ()) :=
  ⟨exists_build_iff, fun _ => decls_of_build, fun _ => build_eq_error_iff, scan?_eq (empty name) decls⟩

end Format

end NeuroMap
