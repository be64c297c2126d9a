import NeuroMap.Proofs.Key.Matching

/-!
# Keys as packed fields

A key is kept as a list of values and sent as a word. The word can stand for the values because every value fits its
field, no two fields have the same name and no two fields share a bit. Nothing but the format and the checks of `set`
takes care of this, so it holds of every key, whatever was tried on it before: each field can be cut out of the word, a
write changes the bits of its field only, and keys of one format with the same word read the same everywhere.
-/

namespace NeuroMap

/-! ## Words cut in two by a mask -/

namespace Word

variable {w m : UInt32}

theorem join (w m : UInt32) : (w &&& ~~~m) ||| (w &&& m) = w := by
  rw [← UInt32.toBitVec_inj]
  simp only [UInt32.toBitVec_or, UInt32.toBitVec_and, UInt32.toBitVec_not]
  ext i hi
  simp only [BitVec.getElem_or, BitVec.getElem_and, BitVec.getElem_not]
  cases w.toBitVec[i] <;> cases m.toBitVec[i] <;> rfl

theorem and_not_of_and_eq_zero (h : w &&& m = 0) : w &&& ~~~m = w := by
  have hjoin := join w m
  rwa [h, UInt32.or_zero] at hjoin

theorem and_not_of_and_eq_self (h : w &&& m = w) : w &&& ~~~m = 0 := by
  rw [← h, UInt32.and_assoc, UInt32.and_not_self, UInt32.and_zero]

end Word

/-- A value that fits the field comes back from its place. -/
theorem Field.shiftRight_shift {f : Field} {v : UInt32} (h : v ≤ f.maxValue) : (v <<< f.offset) >>> f.offset = v := by
  have hpos : 0 < 2 ^ f.offset.toNat := Nat.two_pow_pos _
  rw [← UInt32.toNat_inj, UInt32.toNat_shiftRight, toNat_shift h, Nat.mod_eq_of_lt f.offset_lt, Nat.shiftRight_eq_div_pow,
    Nat.mul_div_cancel _ hpos]

theorem Field.mask?_eq_some (f : Field) : f.mask? = some f.mask := by
  have hlt : f.offset < 32 := UInt32.lt_iff_toNat_lt.mpr f.offset_lt
  unfold FieldDecl.mask?
  rw [if_pos hlt]
  rfl

namespace Key

variable {k k' : Key} {f : Field} {name : String}

/-! ## Reading the word -/

theorem word_and_mask {s : Slot} (hs : s ∈ k.slots) : k.word &&& s.field.mask = s.bits :=
  pack_and_mask (List.pairwise_map.mp k.apart) hs

/-- **One field.** Its bits, moved to the right end, are the value that the field reads as, and this value fits. -/
theorem get_eq_word (hf : f ∈ k.format.fields) :
    k.get f.name = .ok ((k.word &&& f.mask) >>> f.offset) ∧ (k.word &&& f.mask) >>> f.offset ≤ f.maxValue := by
  obtain ⟨s, hs, rfl⟩ := mem_format_fields.mp hf
  have hread : (k.word &&& s.field.mask) >>> s.field.offset = s.read := by
    rw [word_and_mask hs]
    exact Field.shiftRight_shift s.read_le
  rw [hread]
  exact ⟨get_of_mem hs, s.read_le⟩

/-- **All fields.** The word has no bits but theirs. -/
theorem word_and_mask_self (k : Key) : k.word &&& k.mask = k.word := by
  have hpack : k.word &&& k.mask = pack (k.slots.filter fun _ => true) := by
    refine pack_and_eq_pack_filter _ (fun s hs _ => ?_) fun s _ hfalse => by cases hfalse
    exact Slot.bits_and_of_mask (Format.mask_and_maskOf (mem_format_fields.mpr ⟨s, hs, rfl⟩))
  rw [hpack, List.filter_true]
  rfl

/-- Keys of one format have the same word exactly when all their fields read the same. -/
theorem word_eq_iff (hformat : k.format = k'.format) :
    k.word = k'.word ↔ ∀ f ∈ k.format.fields, k.get f.name = k'.get f.name := by
  constructor
  · intro hword f hf
    rw [(get_eq_word hf).1, (get_eq_word (hformat ▸ hf)).1, hword]
  · intro hget
    refine pack_congr (congrArg Format.fields hformat) fun s hs s' hs' hfield => ?_
    have hread := hget s.field (mem_format_fields.mpr ⟨s, hs, rfl⟩)
    rw [get_of_mem hs, hfield, get_of_mem hs'] at hread
    exact Except.ok.inj hread

/-! ## Writing to the word -/

/-- The bits outside a field belong to the slots of other names. -/
theorem word_and_not_mask (hf : f ∈ k.format.fields) :
    k.word &&& ~~~f.mask = pack (k.slots.filter fun s => s.field.name ≠ f.name) := by
  obtain ⟨t, ht, rfl⟩ := mem_format_fields.mp hf
  refine pack_and_eq_pack_filter _ (fun s hs hother => ?_) fun s hs hsame => ?_
  · have hne : s ≠ t := by
      rintro rfl
      simp at hother
    exact Word.and_not_of_and_eq_zero (Slot.bits_and_eq_zero (apart_of_ne hs ht hne).2)
  · have heq : s = t := by
      by_contra hne
      exact (apart_of_ne hs ht hne).1 (by simpa using hsame)
    rw [heq]
    exact Word.and_not_of_and_eq_self t.bits_and_mask

theorem filter_slots_write (k : Key) (name : String) (v : UInt32) :
    (k.write name v).slots.filter (fun s => s.field.name ≠ name) = k.slots.filter fun s => s.field.name ≠ name := by
  show (k.slots.map fun s => if s.field.name = name then s.write v else s).filter _ = _
  induction k.slots with
  | nil => rfl
  | cons s slots ih =>
    rw [List.map_cons]
    by_cases hs : s.field.name = name
    · rw [if_pos hs, List.filter_cons_of_neg (by simp [hs]), List.filter_cons_of_neg (by simp [hs]), ih]
    · rw [if_neg hs, List.filter_cons_of_pos (by simpa using hs), List.filter_cons_of_pos (by simpa using hs), ih]

/-- The bits of a field after a write to it. -/
theorem word_and_mask_of_set {v : Nat} (h : k.set name v = .ok k') (hf : k.format.field? name = some f) :
    k'.word &&& f.mask = UInt32.ofNat v <<< f.offset := by
  obtain ⟨hmem, hname⟩ := Format.mem_of_field? hf
  rw [← format_of_set h] at hmem
  obtain ⟨s, hs, rfl⟩ := mem_format_fields.mp hmem
  obtain ⟨w, hget, hw⟩ := get_of_set h
  have hread : s.read = w := Except.ok.inj ((get_of_mem hs).symm.trans (hname ▸ hget))
  rw [word_and_mask hs, Slot.bits, hread, ← hw, UInt32.ofNat_toNat]

/-- **A write** replaces the bits of its field and keeps all others. -/
theorem word_of_set {v : Nat} (h : k.set name v = .ok k') (hf : k.format.field? name = some f) :
    k'.word = (k.word &&& ~~~f.mask) ||| (UInt32.ofNat v <<< f.offset) := by
  obtain ⟨hmem, hname⟩ := Format.mem_of_field? hf
  have hmem' : f ∈ k'.format.fields := by rwa [format_of_set h]
  obtain ⟨g, -, -, hk'⟩ := set_eq_ok_iff.mp h
  have hoff : k'.word &&& ~~~f.mask = k.word &&& ~~~f.mask := by
    rw [word_and_not_mask hmem', word_and_not_mask hmem, hname, hk', filter_slots_write]
  calc k'.word
    _ = (k'.word &&& ~~~f.mask) ||| (k'.word &&& f.mask) := (Word.join _ _).symm
    _ = (k.word &&& ~~~f.mask) ||| (UInt32.ofNat v <<< f.offset) := by rw [hoff, word_and_mask_of_set h hf]

/-! ## Keys of a format -/

/-- The word of a key and the values of the declared fields tell the same, now and after any further write. -/
structure Packs (decls : List FieldDecl) (k : Key) : Prop where
  /-- A field reads as its bits of the word, and what is stored fits. -/
  fields : ∀ d ∈ decls, ∃ mask v, d.mask? = some mask ∧ k.get d.name = .ok v ∧ v ≤ d.maxValue ∧
    (k.word &&& mask) >>> d.offset = v
  inside : k.word &&& ~~~k.mask = 0
  tags : ∀ tag, k.valueForTag tag = k.word &&& k.maskForTag tag
  /-- A write that succeeds replaces the bits of its field and keeps the values of all others. -/
  written : ∀ name v k', k.set name v = .ok k' → k.attempt (name, v) = k' ∧
    (∃ d ∈ decls, ∃ mask, d.name = name ∧ d.mask? = some mask ∧ v ≤ d.maxValue.toNat ∧
      k'.word = (k.word &&& ~~~mask) ||| (UInt32.ofNat v <<< d.offset)) ∧
    ∀ other, other ≠ name → k'.get other = k.get other
  /-- A write fails for a field that is not declared or has no room for the value, and changes nothing. -/
  refused : ∀ name v e, k.set name v = .error e → k.attempt (name, v) = k ∧
    ∀ d ∈ decls, d.name = name → d.maxValue.toNat < v

theorem packs_of_fields {decls : List FieldDecl} (hdecls : k.format.fields.map (·.toFieldDecl) = decls) :
    Packs decls k := by
  have hdeclared : ∀ d, d ∈ decls ↔ ∃ f ∈ k.format.fields, f.toFieldDecl = d := by
    intro d
    rw [← hdecls]
    exact List.mem_map
  refine
    { fields := fun d hd => ?_
      inside := Word.and_not_of_and_eq_self k.word_and_mask_self
      tags := fun tag => (k.word_and_maskForTag tag).symm
      written := fun name v k' hset => ?_
      refused := fun name v e hset => ?_ }
  · obtain ⟨f, hf, rfl⟩ := (hdeclared d).mp hd
    obtain ⟨hget, hle⟩ := get_eq_word hf
    exact ⟨f.mask, _, f.mask?_eq_some, hget, hle, rfl⟩
  · obtain ⟨f, hf, hle, -⟩ := set_eq_ok_iff.mp hset
    obtain ⟨hmem, hname⟩ := Format.mem_of_field? hf
    have hd : f.toFieldDecl ∈ decls := (hdeclared _).mpr ⟨f, hmem, rfl⟩
    refine ⟨by simp [attempt, hset], ⟨f.toFieldDecl, hd, f.mask, hname, f.mask?_eq_some, hle, word_of_set hset hf⟩, ?_⟩
    intro other hne
    exact get_of_set_of_ne hset hne
  · refine ⟨by simp [attempt, hset], fun d hd hname => ?_⟩
    obtain ⟨f, hf, rfl⟩ := (hdeclared d).mp hd
    have hfield : k.format.field? name = some f := hname ▸ Format.field?_of_mem hf
    exact ((set_eq_error_iff hfield).mp hset).1

/-- **Faithful packing.** A key of a format that was built, after any attempts to set fields, packs its fields: each can
be cut out of the word, and a further write changes the bits of its field only. Two such keys have the same word exactly
when all declared fields read the same. -/
theorem packs_of_build {decls : List FieldDecl} {format : Format} (hbuild : Format.build name decls = .ok format)
    (writes : List (String × Nat)) :
    Packs decls ((new format).attemptAll writes) ∧
      ∀ writes', ((new format).attemptAll writes).word = ((new format).attemptAll writes').word ↔
        ∀ d ∈ decls, ((new format).attemptAll writes).get d.name = ((new format).attemptAll writes').get d.name := by
  have hdecls := Format.decls_of_build hbuild
  have hformat (writes : List (String × Nat)) : ((new format).attemptAll writes).format = format := by
    rw [format_attemptAll, format_new]
  refine ⟨packs_of_fields (by rw [hformat, hdecls]), fun writes' => ?_⟩
  rw [word_eq_iff ((hformat writes).trans (hformat writes').symm), hformat, ← hdecls, List.forall_mem_map]

/-- A format with a gap and a field at each end of the key. -/
def outerFields : List FieldDecl :=
  [⟨"high", 28, 4, ["routing"]⟩, ⟨"low", 0, 5, []⟩]

/-- Of four attempts the first and the last succeed; a further one replaces the upper four bits. -/
theorem packs_outerFields :
    ∃ format k, Format.build "outer" outerFields = .ok format ∧
      (new format).attemptAll [("high", 15), ("high", 16), ("middle", 1), ("low", 19)] = k ∧ k.word = 0xF0000013 ∧
      Packs outerFields k ∧ (k.attempt ("high", 6)).word = 0x60000013 ∧
      k.word ≠ ((new format).attemptAll [("low", 19)]).word := by
  have hbuild : Format.build "outer" outerFields = .ok
      ⟨"outer", [⟨⟨"high", 28, 4, ["routing"]⟩, by decide, by decide, by decide⟩,
        ⟨⟨"low", 0, 5, []⟩, by decide, by decide, by decide⟩], by decide⟩ := by decide +kernel
  obtain ⟨hpacks, hsame⟩ := packs_of_build hbuild [("high", 15), ("high", 16), ("middle", 1), ("low", 19)]
  refine ⟨_, _, hbuild, rfl, by decide +kernel, hpacks, by decide +kernel, fun hword => ?_⟩
  have hhigh := (hsame [("low", 19)]).mp hword ⟨"high", 28, 4, ["routing"]⟩ (by decide)
  exact absurd hhigh (by decide +kernel)

end Key

end NeuroMap
