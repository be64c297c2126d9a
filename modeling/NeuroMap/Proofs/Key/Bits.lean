import Mathlib.Algebra.Group.Nat.Defs
import Mathlib.Data.List.Pairwise
import NeuroMap.Proofs.Key.Access

/-!
# The bits of a key word

Every field has its own bits in the key word, so the fields that carry a tag can be cut out of it: cutting a word to the
mask of a tag leaves the values of these fields, each in its place. From this follows the law by which tables are
searched, `word_and_maskForTag_eq_iff`: a word agrees with a key under the mask of a tag exactly when the two have the
same values in all fields that carry the tag.
-/

namespace NeuroMap

theorem Word.or_and (a b c : UInt32) : (a ||| b) &&& c = a &&& c ||| b &&& c := by
  rw [← UInt32.toNat_inj]
  simp only [UInt32.toNat_and, UInt32.toNat_or, Nat.and_or_distrib_right]

theorem Word.and_or (a b c : UInt32) : a &&& (b ||| c) = a &&& b ||| a &&& c := by
  rw [← UInt32.toNat_inj]
  simp only [UInt32.toNat_and, UInt32.toNat_or, Nat.and_or_distrib_left]

theorem Word.or_and_self (a b : UInt32) : a ||| a &&& b = a := by
  rw [← UInt32.toNat_inj, UInt32.toNat_or, UInt32.toNat_and]
  refine Nat.eq_of_testBit_eq fun i => ?_
  rw [Nat.testBit_or, Nat.testBit_and]
  cases a.toNat.testBit i <;> rfl

theorem Word.foldl_or {α : Type} (g : α → UInt32) (w : UInt32) (l : List α) :
    l.foldl (fun w a => w ||| g a) w = w ||| l.foldl (fun w a => w ||| g a) 0 := by
  induction l generalizing w with
  | nil => simp
  | cons a l ih => rw [List.foldl_cons, List.foldl_cons, ih (w ||| g a), ih (0 ||| g a), UInt32.zero_or,
    UInt32.or_assoc]

namespace Field

variable {f g : Field} {v w : UInt32}

theorem length_pos (f : Field) : 0 < f.length.toNat := by
  refine Nat.pos_of_ne_zero fun h => f.nonempty ?_
  rw [← UInt32.toNat_inj]
  exact h

theorem offset_lt (f : Field) : f.offset.toNat < 32 := by
  have hinside : f.offset.toNat + f.length.toNat ≤ 32 := f.inside
  have hpos := f.length_pos
  omega

theorem toNat_maxValue (f : Field) : f.maxValue.toNat = 2 ^ f.length.toNat - 1 := by
  have hinside : f.offset.toNat + f.length.toNat ≤ 32 := f.inside
  unfold FieldDecl.maxValue
  split
  case isTrue hlt =>
    have hlt : f.length.toNat < 32 := UInt32.lt_iff_toNat_lt.mp hlt
    have hpow : 2 ^ f.length.toNat < 2 ^ 32 := Nat.pow_lt_pow_right (by decide) hlt
    have hone : ((1 : UInt32) <<< f.length).toNat = 2 ^ f.length.toNat := by
      rw [UInt32.toNat_shiftLeft, Nat.mod_eq_of_lt hlt, UInt32.toNat_one, Nat.one_shiftLeft, Nat.mod_eq_of_lt hpow]
    rw [UInt32.toNat_sub_of_le _ _ (UInt32.le_iff_toNat_le.mpr (by rw [hone]; exact Nat.one_le_two_pow)), hone]
    rfl
  case isFalse hlt =>
    have hge : ¬ f.length.toNat < 32 := fun h => hlt (UInt32.lt_iff_toNat_lt.mpr h)
    have heq : f.length.toNat = 32 := by omega
    rw [heq]
    rfl

theorem and_maxValue (h : v ≤ f.maxValue) : v &&& f.maxValue = v := by
  have hle : v.toNat ≤ f.maxValue.toNat := UInt32.le_iff_toNat_le.mp h
  have hpos : 0 < 2 ^ f.length.toNat := Nat.two_pow_pos _
  rw [toNat_maxValue] at hle
  rw [← UInt32.toNat_inj, UInt32.toNat_and, toNat_maxValue, Nat.and_two_pow_sub_one_eq_mod]
  exact Nat.mod_eq_of_lt (by omega)

/-- A value that fits the field stays inside the word when it is moved to its place. -/
theorem toNat_shift (h : v ≤ f.maxValue) : (v <<< f.offset).toNat = v.toNat * 2 ^ f.offset.toNat := by
  have hle : v.toNat ≤ f.maxValue.toNat := UInt32.le_iff_toNat_le.mp h
  have hpos : 0 < 2 ^ f.length.toNat := Nat.two_pow_pos _
  rw [toNat_maxValue] at hle
  have hbound : v.toNat * 2 ^ f.offset.toNat < 2 ^ 32 :=
    calc v.toNat * 2 ^ f.offset.toNat
      _ < 2 ^ f.length.toNat * 2 ^ f.offset.toNat := Nat.mul_lt_mul_of_pos_right (by omega) (Nat.two_pow_pos _)
      _ = 2 ^ (f.offset.toNat + f.length.toNat) := by rw [← Nat.pow_add, Nat.add_comm]
      _ ≤ 2 ^ 32 := Nat.pow_le_pow_right (by decide) f.inside
  rw [UInt32.toNat_shiftLeft, Nat.mod_eq_of_lt f.offset_lt, Nat.shiftLeft_eq, Nat.mod_eq_of_lt hbound]

theorem eq_of_shift_eq (hv : v ≤ f.maxValue) (hw : w ≤ f.maxValue) (h : v <<< f.offset = w <<< f.offset) : v = w := by
  rw [← UInt32.toNat_inj, toNat_shift hv, toNat_shift hw] at h
  rw [← UInt32.toNat_inj]
  exact Nat.eq_of_mul_eq_mul_right (Nat.two_pow_pos _) h

theorem shift_and_mask (h : v ≤ f.maxValue) : v <<< f.offset &&& f.mask = v <<< f.offset := by
  rw [mask, ← UInt32.shiftLeft_and, and_maxValue h]

theorem mask_ne_zero (f : Field) : f.mask ≠ 0 := by
  intro h
  have hone : 1 < 2 ^ f.length.toNat := Nat.one_lt_two_pow (Nat.ne_of_gt f.length_pos)
  have htwo : 0 < 2 ^ f.offset.toNat := Nat.two_pow_pos _
  have hmask := toNat_shift (f := f) (UInt32.le_refl f.maxValue)
  rw [toNat_maxValue, show f.maxValue <<< f.offset = 0 from h] at hmask
  exact absurd hmask (Nat.ne_of_lt (Nat.mul_pos (by omega) htwo))

instance : Std.Symm Apart :=
  ⟨fun _ _ h => ⟨h.1.symm, by rw [UInt32.and_comm]; exact h.2⟩⟩

/-- A field that shares its word with another one leaves it a bit. -/
theorem length_lt_of_apart (h : f.Apart g) : f.length.toNat < 32 := by
  have hinside : f.offset.toNat + f.length.toNat ≤ 32 := f.inside
  refine Nat.lt_of_le_of_ne (by omega) fun hlen => g.mask_ne_zero ?_
  have hall : f.mask = 0xFFFFFFFF := by
    rw [← UInt32.toNat_inj, mask, toNat_shift (UInt32.le_refl _), toNat_maxValue, hlen,
      show f.offset.toNat = 0 by omega]
    rfl
  have hzero := h.2
  rw [hall] at hzero
  rw [← UInt32.toNat_inj, UInt32.toNat_and] at hzero
  rw [← UInt32.toNat_inj]
  have hmod := Nat.and_two_pow_sub_one_eq_mod g.mask.toNat 32
  rw [Nat.and_comm, Nat.mod_eq_of_lt g.mask.toNat_lt] at hmod
  exact hmod.symm.trans hzero

end Field

namespace Format

variable {format : Format} {f g : Field} {m : UInt32} {fields : List Field}

theorem apart_of_ne (hf : f ∈ format.fields) (hg : g ∈ format.fields) (h : f ≠ g) : f.Apart g :=
  format.apart.forall hf hg h

theorem field?_of_mem (hf : f ∈ format.fields) : format.field? f.name = some f := by
  obtain ⟨g, hg⟩ : ∃ g, format.field? f.name = some g :=
    Option.isSome_iff_exists.mp (List.find?_isSome.mpr ⟨f, hf, by simp⟩)
  have hname : g.name = f.name := by simpa using List.find?_some hg
  rw [hg]
  by_contra hne
  exact (apart_of_ne (List.mem_of_find?_eq_some hg) hf fun h => hne (congrArg some h)).1 hname

theorem mem_of_field? {name : String} (h : format.field? name = some f) : f ∈ format.fields ∧ f.name = name :=
  ⟨List.mem_of_find?_eq_some h, by simpa using List.find?_some h⟩

theorem maskOf_cons (f : Field) (fields : List Field) : maskOf (f :: fields) = f.mask ||| maskOf fields := by
  unfold maskOf
  rw [List.foldl_cons, Word.foldl_or, UInt32.zero_or]

theorem mask_and_maskOf (hf : f ∈ fields) : f.mask &&& maskOf fields = f.mask := by
  induction fields with
  | nil => simp at hf
  | cons g fields ih =>
    rw [maskOf_cons, Word.and_or]
    rcases List.mem_cons.mp hf with rfl | hf
    · rw [UInt32.and_self, Word.or_and_self]
    · rw [ih hf, UInt32.or_comm, Word.or_and_self]

theorem and_maskOf_eq_zero (h : ∀ f ∈ fields, m &&& f.mask = 0) : m &&& maskOf fields = 0 := by
  induction fields with
  | nil => exact UInt32.and_zero
  | cons f fields ih =>
    obtain ⟨hf, hfields⟩ := List.forall_mem_cons.mp h
    rw [maskOf_cons, Word.and_or, hf, ih hfields, UInt32.or_self]

end Format

namespace Slot

variable {s : Slot} {m : UInt32}

theorem read_le (s : Slot) : s.read ≤ s.field.maxValue := by
  unfold read
  cases hv : s.value with
  | none => simp
  | some v => exact s.fits v hv

theorem bits_and_mask (s : Slot) : s.bits &&& s.field.mask = s.bits :=
  Field.shift_and_mask s.read_le

theorem bits_and_of_mask (h : s.field.mask &&& m = s.field.mask) : s.bits &&& m = s.bits := by
  rw [← s.bits_and_mask, UInt32.and_assoc, h]

theorem bits_and_eq_zero (h : s.field.mask &&& m = 0) : s.bits &&& m = 0 := by
  rw [← s.bits_and_mask, UInt32.and_assoc, h, UInt32.and_zero]

end Slot

namespace Key

variable {k k' : Key} {s : Slot} {tag : String} {slots : List Slot} {m : UInt32}

theorem apart_of_ne {t : Slot} (hs : s ∈ k.slots) (ht : t ∈ k.slots) (h : s ≠ t) : s.field.Apart t.field :=
  haveI : Std.Symm fun s t : Slot => s.field.Apart t.field := ⟨fun _ _ => symm⟩
  (List.pairwise_map.mp k.apart).forall hs ht h

theorem get_of_mem (hs : s ∈ k.slots) : k.get s.field.name = .ok s.read := by
  obtain ⟨t, ht⟩ : ∃ t, k.slot? s.field.name = some t :=
    Option.isSome_iff_exists.mp (List.find?_isSome.mpr ⟨s, hs, by simp⟩)
  have hname : t.field.name = s.field.name := by simpa using List.find?_some ht
  have heq : t = s := by
    by_contra hne
    exact (apart_of_ne (List.mem_of_find?_eq_some ht) hs hne).1 hname
  rw [get_of_slot ht, heq]

theorem pack_cons (s : Slot) (slots : List Slot) : pack (s :: slots) = s.bits ||| pack slots := by
  unfold pack
  rw [List.foldl_cons, Word.foldl_or, UInt32.zero_or]

/-- A mask that takes some slots and leaves out the others. -/
theorem pack_and_eq_pack_filter (p : Slot → Bool) (hin : ∀ s ∈ slots, p s = true → s.bits &&& m = s.bits)
    (hout : ∀ s ∈ slots, p s = false → s.bits &&& m = 0) : pack slots &&& m = pack (slots.filter p) := by
  induction slots with
  | nil => exact UInt32.zero_and
  | cons s slots ih =>
    obtain ⟨hs, hslots⟩ := List.forall_mem_cons.mp hin
    obtain ⟨hs', hslots'⟩ := List.forall_mem_cons.mp hout
    rw [pack_cons, Word.or_and, ih hslots hslots']
    cases hp : p s with
    | true => rw [hs hp, List.filter_cons_of_pos hp, pack_cons]
    | false => rw [hs' hp, List.filter_cons_of_neg (by simp [hp]), UInt32.zero_or]

theorem mem_format_fields {f : Field} : f ∈ k.format.fields ↔ ∃ s ∈ k.slots, s.field = f :=
  List.mem_map

/-- **Cutting out.** The word cut to the mask of a tag holds the fields that carry the tag. -/
theorem word_and_maskForTag (k : Key) (tag : String) : k.word &&& k.maskForTag tag = k.valueForTag tag := by
  refine pack_and_eq_pack_filter _ (fun s hs htag => ?_) fun s hs htag => ?_
  · refine Slot.bits_and_of_mask (Format.mask_and_maskOf ?_)
    exact List.mem_filter.mpr ⟨mem_format_fields.mpr ⟨s, hs, rfl⟩, htag⟩
  · refine Slot.bits_and_eq_zero (Format.and_maskOf_eq_zero fun f hf => ?_)
    obtain ⟨hmem, hftag⟩ := List.mem_filter.mp hf
    refine (Format.apart_of_ne (mem_format_fields.mpr ⟨s, hs, rfl⟩) hmem fun h => ?_).2
    rw [h, hftag] at htag
    cases htag

/-- Each of the slots can be cut out of the word packed from them. -/
theorem pack_and_mask (hapart : slots.Pairwise fun s t => s.field.Apart t.field) (hs : s ∈ slots) :
    pack slots &&& s.field.mask = s.bits := by
  induction slots with
  | nil => simp at hs
  | cons t slots ih =>
    obtain ⟨ht, hslots⟩ := List.pairwise_cons.mp hapart
    rw [pack_cons, Word.or_and]
    rcases List.mem_cons.mp hs with rfl | hs
    · have hrest : pack slots &&& s.field.mask = pack (slots.filter fun _ => false) :=
        pack_and_eq_pack_filter _ (fun _ _ h => by cases h) fun t htmem _ => Slot.bits_and_eq_zero (symm (ht t htmem)).2
      rw [s.bits_and_mask, hrest, List.filter_false]
      exact UInt32.or_zero
    · rw [Slot.bits_and_eq_zero (ht s hs).2, ih hslots hs, UInt32.zero_or]

theorem valueForTag_and_mask (hs : s ∈ k.slots) (htag : s.field.hasTag tag = true) :
    k.valueForTag tag &&& s.field.mask = s.bits :=
  pack_and_mask ((List.pairwise_map.mp k.apart).filter _) (List.mem_filter.mpr ⟨hs, htag⟩)

/-- Slots of the same fields that read the same are packed into the same word. -/
theorem pack_congr {slots' : List Slot} (hfields : slots.map (·.field) = slots'.map (·.field))
    (h : ∀ s ∈ slots, ∀ s' ∈ slots', s.field = s'.field → s.read = s'.read) : pack slots = pack slots' := by
  induction slots generalizing slots' with
  | nil =>
    rw [List.map_nil] at hfields
    rw [List.map_eq_nil_iff.mp hfields.symm]
  | cons s slots ih =>
    cases slots' with
    | nil => cases hfields
    | cons s' slots' =>
      simp only [List.map_cons, List.cons.injEq] at hfields
      have hrest := ih hfields.2 fun t ht t' ht' => h t (.tail _ ht) t' (.tail _ ht')
      rw [pack_cons, pack_cons, hrest, Slot.bits, Slot.bits, h s (.head _) s' (.head _) hfields.1, hfields.1]

/-- **The law of matching.** A word agrees with a key of the same format under the mask of a tag exactly when all fields
that carry the tag read the same. -/
theorem word_and_maskForTag_eq_iff (hformat : k.format = k'.format) :
    k.word &&& k'.maskForTag tag = k'.valueForTag tag ↔
      ∀ f ∈ k'.format.tagged tag, k.get f.name = k'.get f.name := by
  have hmask : k'.maskForTag tag = k.maskForTag tag := by rw [maskForTag, maskForTag, hformat]
  have hfields : k.slots.map (·.field) = k'.slots.map (·.field) := congrArg Format.fields hformat
  rw [hmask, word_and_maskForTag]
  constructor
  · intro hvalue f hf
    obtain ⟨hmem, htag⟩ := List.mem_filter.mp hf
    obtain ⟨s', hs', rfl⟩ := mem_format_fields.mp hmem
    rw [← hformat] at hmem
    obtain ⟨s, hs, hfield⟩ := mem_format_fields.mp hmem
    have hbits : s.bits = s'.bits := by
      rw [← valueForTag_and_mask hs (hfield ▸ htag), ← valueForTag_and_mask hs' htag, hvalue, hfield]
    have hread : s.read = s'.read := by
      refine Field.eq_of_shift_eq s.read_le (hfield ▸ s'.read_le) ?_
      rw [Slot.bits, Slot.bits, ← hfield] at hbits
      exact hbits
    rw [← hfield, get_of_mem hs, hfield, get_of_mem hs', hread]
  · intro hget
    refine pack_congr ?_ fun s hs s' hs' hfield => ?_
    · have hfilter := congrArg (List.filter (·.hasTag tag)) hfields
      rwa [List.filter_map, List.filter_map] at hfilter
    · obtain ⟨hs, -⟩ := List.mem_filter.mp hs
      obtain ⟨hs', htag⟩ := List.mem_filter.mp hs'
      have hread := hget s'.field (List.mem_filter.mpr ⟨mem_format_fields.mpr ⟨s', hs', rfl⟩, htag⟩)
      rw [get_of_mem hs', ← hfield, get_of_mem hs] at hread
      exact Except.ok.inj hread

/-- Keys of one format have the same value for a tag exactly when all fields that carry the tag read the same. -/
theorem valueForTag_eq_iff (hformat : k.format = k'.format) :
    k.valueForTag tag = k'.valueForTag tag ↔ ∀ f ∈ k'.format.tagged tag, k.get f.name = k'.get f.name := by
  have hmask : k'.maskForTag tag = k.maskForTag tag := by rw [maskForTag, maskForTag, hformat]
  rw [← word_and_maskForTag_eq_iff hformat, hmask, word_and_maskForTag]

end Key

end NeuroMap
