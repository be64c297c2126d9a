import NeuroMap.Proofs.Key.Bits
import NeuroMap.Proofs.Outcome

/-!
# Packets and table entries

A table entry is made from one key, a packet from another key of the same format, with some more fields written to it
before it is sent. This module takes the law of matching to such packets: a packet matches an entry exactly when the two
keys have the same values in the declared fields that carry the tag, whatever was tried on the keys before and whatever
the packet carries in other fields.
-/

namespace NeuroMap

/-! ## The fields of a format are those declared -/

theorem FieldDecl.toFieldDecl_of_place {d : FieldDecl} {f : Field} (h : d.place = .ok f) : f.toFieldDecl = d := by
  unfold place at h
  split at h
  · cases h
  · split at h
    · cases h
    · split at h
      · rw [← Except.ok.inj h]
      · cases h

namespace Format

variable {format format' : Format} {name : String} {d : FieldDecl} {decls : List FieldDecl}

theorem decls_of_add (h : format.add d = .ok format') :
    format'.fields.map (·.toFieldDecl) = format.fields.map (·.toFieldDecl) ++ [d] := by
  unfold add at h
  cases hplace : d.place with
  | error e => simp [hplace] at h
  | ok f =>
    rw [hplace] at h
    dsimp only at h
    split at h
    · split at h <;> cases h
    · obtain rfl := Except.ok.inj h
      rw [List.map_append, List.map_singleton, FieldDecl.toFieldDecl_of_place hplace]

theorem decls_of_build (h : build name decls = .ok format) : format.fields.map (·.toFieldDecl) = decls := by
  have hrun : ∀ (rest : List FieldDecl) (start : Format), rest.foldlM add start = .ok format →
      format.fields.map (·.toFieldDecl) = start.fields.map (·.toFieldDecl) ++ rest := by
    intro rest
    induction rest with
    | nil =>
      intro start hstart
      obtain rfl := Outcome.pure_eq_ok_iff.mp hstart
      simp
    | cons d rest ih =>
      intro start hstart
      rw [List.foldlM_cons] at hstart
      obtain ⟨next, hadd, hrest⟩ := Outcome.bind_eq_ok_iff.mp hstart
      rw [ih next hrest, decls_of_add hadd, List.append_assoc, List.singleton_append]
  exact hrun decls (empty name) h

end Format

/-! ## Writes in turn -/

namespace Key

variable {k k' : Key} {writes : List (String × Nat)} {name : String}

/-- The key after one attempt to set a field; an attempt that fails changes nothing. -/
def attempt (k : Key) (write : String × Nat) : Key :=
  match k.set write.1 write.2 with
  | .ok k' => k'
  | .error _ => k

/-- The key after any number of attempts. -/
def attemptAll (k : Key) (writes : List (String × Nat)) : Key :=
  writes.foldl attempt k

theorem format_attempt (k : Key) (write : String × Nat) : (k.attempt write).format = k.format := by
  unfold attempt
  cases hset : k.set write.1 write.2 with
  | ok k' => exact format_of_set hset
  | error e => rfl

@[simp] theorem format_attemptAll (k : Key) (writes : List (String × Nat)) :
    (k.attemptAll writes).format = k.format := by
  induction writes generalizing k with
  | nil => rfl
  | cons write writes ih =>
    show ((k.attempt write).attemptAll writes).format = k.format
    rw [ih, format_attempt]

theorem setAll_cons {write : String × Nat} :
    k.setAll (write :: writes) = .ok k' ↔ ∃ mid, k.set write.1 write.2 = .ok mid ∧ mid.setAll writes = .ok k' := by
  unfold setAll
  rw [List.foldlM_cons, Outcome.bind_eq_ok_iff]

theorem format_of_setAll (h : k.setAll writes = .ok k') : k'.format = k.format := by
  induction writes generalizing k with
  | nil => rw [Outcome.pure_eq_ok_iff.mp h]
  | cons write writes ih =>
    obtain ⟨mid, hset, hrest⟩ := setAll_cons.mp h
    rw [ih hrest, format_of_set hset]

theorem get_of_setAll_of_forall_ne (h : k.setAll writes = .ok k') (hne : ∀ write ∈ writes, write.1 ≠ name) :
    k'.get name = k.get name := by
  induction writes generalizing k with
  | nil => rw [Outcome.pure_eq_ok_iff.mp h]
  | cons write writes ih =>
    obtain ⟨hhead, htail⟩ := List.forall_mem_cons.mp hne
    obtain ⟨mid, hset, hrest⟩ := setAll_cons.mp h
    rw [ih hrest htail, get_of_set_of_ne hset hhead.symm]

theorem exists_get_of_mem_fields (k : Key) {f : Field} (hf : f ∈ k.format.fields) : ∃ v, k.get f.name = .ok v := by
  obtain ⟨s, hs, rfl⟩ := mem_format_fields.mp hf
  exact ⟨s.read, get_of_mem hs⟩

/-- **Matching.** Two keys of a format are reached by any attempts to set fields. A packet made from the first one by
writes to fields without the tag matches the entry of the second one exactly when both keys have the same values in all
declared fields with the tag. -/
theorem matches_iff_get_eq {decls : List FieldDecl} {format : Format} {packet : Key} (tag : String)
    (writes writes' further : List (String × Nat)) (hbuild : Format.build name decls = .ok format)
    (hother : ∀ write ∈ further, ∀ d ∈ decls, d.name = write.1 → d.hasTag tag = false)
    (hpacket : ((new format).attemptAll writes).setAll further = .ok packet) :
    packet.word &&& ((new format).attemptAll writes').maskForTag tag =
        ((new format).attemptAll writes').valueForTag tag ↔
      ∀ d ∈ decls, d.hasTag tag = true → ∃ v, ((new format).attemptAll writes).get d.name = .ok v ∧
        ((new format).attemptAll writes').get d.name = .ok v := by
  have hformat : packet.format = ((new format).attemptAll writes').format := by
    rw [format_of_setAll hpacket, format_attemptAll, format_attemptAll]
  have hdecls : ∀ d, d ∈ decls ↔ ∃ f ∈ format.fields, f.toFieldDecl = d := by
    intro d
    rw [← Format.decls_of_build hbuild]
    exact List.mem_map
  -- No write of the packet reaches a field with the tag.
  have hkept : ∀ f ∈ format.tagged tag, packet.get f.name = ((new format).attemptAll writes).get f.name := by
    intro f hf
    obtain ⟨hmem, htag⟩ := List.mem_filter.mp hf
    refine get_of_setAll_of_forall_ne hpacket fun write hwrite hname => ?_
    have hnot := hother write hwrite f.toFieldDecl ((hdecls _).mpr ⟨f, hmem, rfl⟩) hname.symm
    rw [hnot] at htag
    cases htag
  rw [word_and_maskForTag_eq_iff hformat, format_attemptAll, format_new]
  constructor
  · intro hget d hd htag
    obtain ⟨f, hf, rfl⟩ := (hdecls d).mp hd
    have htagged : f ∈ format.tagged tag := List.mem_filter.mpr ⟨hf, htag⟩
    have hfield : f ∈ ((new format).attemptAll writes).format.fields := by simpa using hf
    obtain ⟨v, hv⟩ := exists_get_of_mem_fields _ hfield
    refine ⟨v, hv, ?_⟩
    rw [← hget f htagged, hkept f htagged, hv]
  · intro hvalues f hf
    obtain ⟨hmem, htag⟩ := List.mem_filter.mp hf
    obtain ⟨v, hv, hv'⟩ := hvalues f.toFieldDecl ((hdecls _).mpr ⟨f, hmem, rfl⟩) htag
    rw [hkept f hf, hv, hv']

/-- A packet with all index bits set, from a key on which two attempts failed, matches an entry for the same object and
not one for another. -/
theorem matches_iff_get_eq_standard :
    ∃ packet, ((new .standard).attemptAll [("object", 255), ("object", 256), ("bias", 1)]).setAll [("index", 1023)] =
        .ok packet ∧
      packet.word &&& ((new .standard).attemptAll [("object", 255), ("index", 4)]).maskForTag "filter_routing" =
        ((new .standard).attemptAll [("object", 255), ("index", 4)]).valueForTag "filter_routing" ∧
      packet.word &&& ((new .standard).attemptAll [("object", 254)]).maskForTag "filter_routing" ≠
        ((new .standard).attemptAll [("object", 254)]).valueForTag "filter_routing" := by
  have hbuild : Format.build "nengo" (Format.standard.fields.map (·.toFieldDecl)) = .ok .standard := by decide +kernel
  have hother : ∀ write ∈ [("index", 1023)], ∀ d ∈ Format.standard.fields.map (·.toFieldDecl), d.name = write.1 →
      d.hasTag "filter_routing" = false := by decide +kernel
  have hpacket : ((new .standard).attemptAll [("object", 255), ("object", 256), ("bias", 1)]).setAll [("index", 1023)] =
      .ok (((new .standard).write "object" 255).write "index" 1023) := by decide +kernel
  refine ⟨_, hpacket, ?_, fun h => ?_⟩
  · refine (matches_iff_get_eq "filter_routing" _ [("object", 255), ("index", 4)] _ hbuild hother hpacket).mpr ?_
    intro d hd htag
    simp only [Format.standard, List.map_cons, List.map_nil, List.mem_cons, List.not_mem_nil, or_false] at hd
    rcases hd with rfl | rfl | rfl | rfl
    · exact ⟨255, by decide +kernel, by decide +kernel⟩
    · exact ⟨0, by decide +kernel, by decide +kernel⟩
    · exact ⟨0, by decide +kernel, by decide +kernel⟩
    · exact absurd htag (by decide)
  · have hget := (matches_iff_get_eq "filter_routing" _ [("object", 254)] _ hbuild hother hpacket).mp h
    obtain ⟨v, hv, hv'⟩ := hget ⟨"object", 24, 8, ["filter_routing", "routing"]⟩ (by decide +kernel) (by decide +kernel)
    exact absurd (hv.trans hv'.symm) (by decide +kernel)

end Key

end NeuroMap
