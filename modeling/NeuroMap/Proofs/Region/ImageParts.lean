import NeuroMap.Proofs.Region.Image

/-!
# Taking an image apart

The regions of an image are found by its table of offsets: each one lies between its own offset and the next. `Image.read`
does this and gets nothing but the bytes. The module ends with the whole story of an image: when it is built, what it then
holds, and which error is reported otherwise.
-/

namespace NeuroMap

namespace Image

/-- The bytes from `start` up to `stop`. -/
def slice (bytes : List UInt8) (start stop : Nat) : List UInt8 :=
  (bytes.take stop).drop start

/-- The blocks between the offsets; the last one ends with the image. -/
def cut (bytes : List UInt8) (offsets : List Nat) : List (List UInt8) :=
  offsets.mapIdx fun i start => slice bytes start ((offsets[i + 1]?).getD bytes.length)

/-- The blocks of an image, found by its table of offsets. -/
def read (bytes : List UInt8) : Option (List (List UInt8)) :=
  match Word.nth bytes 0 with
  | none => none
  | some count =>
    match Word.read (bytes.take (headerSize count.toNat)) with
    | some (_ :: offsets) => some (cut bytes (offsets.map (·.toNat)))
    | _ => none

theorem length_starts (start : Nat) (blocks : List (List UInt8)) : (starts start blocks).length = blocks.length := by
  induction blocks generalizing start with
  | nil => rfl
  | cons block blocks ih => rw [starts, List.length_cons, ih, List.length_cons]

theorem getElem?_starts {blocks : List (List UInt8)} {i : Nat} (start : Nat) (hi : i < blocks.length) :
    (starts start blocks)[i]? = some (start + (blocks.take i).flatten.length) := by
  induction blocks generalizing start i with
  | nil => simp at hi
  | cons block blocks ih =>
    rw [starts]
    cases i with
    | zero => rfl
    | succ i =>
      rw [List.getElem?_cons_succ, ih _ (Nat.lt_of_succ_lt_succ hi), List.take_succ_cons, List.flatten_cons,
        List.length_append, Nat.add_assoc]

theorem mod_size_of_mem_starts {start : Nat} {blocks : List (List UInt8)} (hstart : start % Word.size = 0)
    (hwhole : ∀ block ∈ blocks, block.length % Word.size = 0) : ∀ o ∈ starts start blocks, o % Word.size = 0 := by
  induction blocks generalizing start with
  | nil => simp [starts]
  | cons block blocks ih =>
    obtain ⟨hblock, hblocks⟩ := List.forall_mem_cons.mp hwhole
    refine List.forall_mem_cons.mpr ⟨hstart, ih ?_ hblocks⟩
    rw [Nat.add_mod, hstart, hblock, Nat.zero_add, Nat.zero_mod]

theorem slice_append (front block back : List UInt8) :
    slice (front ++ (block ++ back)) front.length (front.length + block.length) = block := by
  unfold slice
  rw [List.take_length_add_append, List.take_left, List.drop_left]

/-- Between its start and the next one, or the end, each block is found. -/
theorem slice_starts {blocks : List (List UInt8)} {i : Nat} (header : List UInt8) (hi : i < blocks.length) :
    slice (header ++ blocks.flatten) (header.length + (blocks.take i).flatten.length)
      (((starts header.length blocks)[i + 1]?).getD (header ++ blocks.flatten).length) = blocks[i] := by
  have hblocks : blocks.flatten = (blocks.take i).flatten ++ (blocks[i] ++ (blocks.drop (i + 1)).flatten) := by
    rw [← List.flatten_cons, ← List.flatten_append, List.getElem_cons_drop, List.take_append_drop]
  have hstop : ((starts header.length blocks)[i + 1]?).getD (header ++ blocks.flatten).length =
      (header ++ (blocks.take i).flatten).length + blocks[i].length := by
    by_cases hnext : i + 1 < blocks.length
    · rw [getElem?_starts _ hnext, List.take_add_one, List.getElem?_eq_getElem hi]
      simp only [Option.getD_some, Option.toList_some, List.flatten_append, List.flatten_singleton, List.length_append]
      omega
    · have hnone : (starts header.length blocks)[i + 1]? = none := by
        rw [List.getElem?_eq_none]
        rw [length_starts]
        omega
      rw [hnone, Option.getD_none, hblocks, List.drop_eq_nil_of_le (by omega), List.flatten_nil, List.append_nil]
      simp only [List.length_append]
      omega
  rw [hstop, hblocks, ← List.append_assoc, ← List.length_append, slice_append]

theorem cut_starts (header : List UInt8) (blocks : List (List UInt8)) :
    cut (header ++ blocks.flatten) (starts header.length blocks) = blocks := by
  refine List.ext_getElem? fun i => ?_
  unfold cut
  rw [List.getElem?_mapIdx]
  by_cases hi : i < blocks.length
  · rw [getElem?_starts _ hi, Option.map_some, slice_starts header hi, List.getElem?_eq_getElem hi]
  · have hlength := length_starts header.length blocks
    have hnone : (starts header.length blocks)[i]? = none := List.getElem?_eq_none (by omega)
    rw [hnone, Option.map_none, List.getElem?_eq_none (by omega)]

/-- The image holds the blocks, and its bytes alone tell which. -/
structure Holds (image : Image) (blocks : List (List UInt8)) : Prop where
  count : ∃ w, Word.nth image.bytes 0 = some w ∧ w.toNat = blocks.length
  length : image.offsets.length = blocks.length
  table : ∀ i < blocks.length, Word.nth image.bytes (i + 1) = image.offsets[i]?
  first : ∀ o, image.offsets[0]? = some o → o.toNat = 4 * (1 + blocks.length)
  aligned : ∀ o ∈ image.offsets, o.toNat % 4 = 0
  /-- A block lies between its own offset and the next one, or the end of the image. -/
  block : ∀ i block, blocks[i]? = some block → ∃ o, image.offsets[i]? = some o ∧
    slice image.bytes o.toNat (((image.offsets[i + 1]?).map (·.toNat)).getD image.bytes.length) = block
  readable : read image.bytes = some blocks
  fingerprint : image.fingerprint = .ofBytes image.bytes

section OfBlocks

variable {blocks : List (List UInt8)}

theorem toNat_offsets_ofBlocks (hstarts : ∀ o ∈ starts (headerSize blocks.length) blocks, o < UInt32.size) :
    (ofBlocks blocks).offsets.map (·.toNat) = starts (headerSize blocks.length) blocks := by
  show ((starts (headerSize blocks.length) blocks).map UInt32.ofNat).map (·.toNat) = _
  rw [List.map_map]
  refine (List.map_congr_left fun o ho => ?_).trans (List.map_id _)
  exact UInt32.toNat_ofNat_of_lt' (hstarts o ho)

theorem length_header_ofBlocks (blocks : List (List UInt8)) :
    (Word.flatten (UInt32.ofNat blocks.length :: (ofBlocks blocks).offsets)).length = headerSize blocks.length := by
  rw [Word.length_flatten]
  simp only [ofBlocks, List.length_cons, List.length_map, length_starts, headerSize, Word.size]
  omega

theorem read_ofBlocks (hstarts : ∀ o ∈ starts (headerSize blocks.length) blocks, o < UInt32.size) :
    read (ofBlocks blocks).bytes = some blocks := by
  have hcount : Word.nth (ofBlocks blocks).bytes 0 = some (UInt32.ofNat blocks.length) :=
    Word.nth_flatten_append (by simp) _
  have hheader := length_header_ofBlocks blocks
  have htake : (ofBlocks blocks).bytes.take (headerSize blocks.length) =
      Word.flatten (UInt32.ofNat blocks.length :: (ofBlocks blocks).offsets) := by
    rw [← hheader]
    exact List.take_left
  have hcut : cut (ofBlocks blocks).bytes (starts (headerSize blocks.length) blocks) = blocks := by
    rw [← hheader]
    exact cut_starts _ _
  rw [read, hcount]
  dsimp only
  rw [UInt32.toNat_ofNat_of_lt' (length_lt_of_starts hstarts), htake, Word.read_flatten]
  dsimp only
  rw [toNat_offsets_ofBlocks hstarts, hcut]

theorem holds_ofBlocks (hwhole : ∀ block ∈ blocks, block.length % Word.size = 0)
    (hstarts : ∀ o ∈ starts (headerSize blocks.length) blocks, o < UInt32.size) : (ofBlocks blocks).Holds blocks := by
  have hnat := toNat_offsets_ofBlocks hstarts
  have hlength : (ofBlocks blocks).offsets.length = blocks.length := by
    rw [← List.length_map, hnat, length_starts]
  have hget (i : Nat) : ((ofBlocks blocks).offsets[i]?).map (·.toNat) = (starts (headerSize blocks.length) blocks)[i]? := by
    rw [← hnat, List.getElem?_map]
  refine
    { count := ⟨UInt32.ofNat blocks.length, Word.nth_flatten_append (by simp) _,
        UInt32.toNat_ofNat_of_lt' (length_lt_of_starts hstarts)⟩
      length := hlength
      table := fun i hi => ?_
      first := fun o ho => ?_
      aligned := fun o ho => ?_
      block := fun i block hi => ?_
      readable := read_ofBlocks hstarts
      fingerprint := rfl }
  · have hlt : i + 1 < (UInt32.ofNat blocks.length :: (ofBlocks blocks).offsets).length := by
      rw [List.length_cons, hlength]
      omega
    exact Word.nth_flatten_append hlt _
  · have hstart := hget 0
    rw [ho] at hstart
    cases blocks with
    | nil => cases hstart
    | cons block blocks => exact Option.some.inj hstart
  · have hmem : o.toNat ∈ starts (headerSize blocks.length) blocks := by
      rw [← hnat]
      exact List.mem_map_of_mem ho
    exact mod_size_of_mem_starts (Nat.mul_mod_right _ _) hwhole _ hmem
  · obtain ⟨hlt, rfl⟩ := List.getElem?_eq_some_iff.mp hi
    have hstart := hget i
    rw [getElem?_starts _ hlt] at hstart
    obtain ⟨o, ho, hvalue⟩ := Option.map_eq_some_iff.mp hstart
    refine ⟨o, ho, ?_⟩
    rw [hvalue, hget, ← length_header_ofBlocks blocks]
    exact slice_starts _ hlt

end OfBlocks

/-- **Images.** An image is built exactly when every region encodes to as many bytes as it declares, in whole words, and
the number of regions and all their offsets fit words. The image then holds the encodings. Otherwise the error is that of
the first region in the way. -/
theorem build_exact (regions : List Region) :
    ((∃ image, build regions = .ok image) ↔ regions.length < UInt32.size ∧
      ∃ encodings, Places (headerSize regions.length) regions encodings) ∧
    (∀ image, build regions = .ok image →
      ∃ encodings, List.Forall₂ Region.Encodes regions encodings ∧ image.Holds encodings) ∧
    ∀ e, build regions = .error e ↔ FirstOffence (headerSize regions.length) regions e := by
  rcases places_or_firstOffence (headerSize regions.length) regions with ⟨encodings, hplaces⟩ | ⟨e, hoffence⟩
  · have hbuild := build_of_places hplaces
    have hlength : regions.length = encodings.length := hplaces.1.length_eq
    have hstarts : ∀ o ∈ starts (headerSize encodings.length) encodings, o < UInt32.size := hlength ▸ hplaces.2
    refine ⟨iff_of_true ⟨_, hbuild⟩ ⟨?_, encodings, hplaces⟩, fun image himage => ?_, fun e => ⟨fun h => ?_, fun h => ?_⟩⟩
    · rw [hlength]
      exact length_lt_of_starts hstarts
    · obtain rfl : ofBlocks encodings = image := Except.ok.inj (hbuild.symm.trans himage)
      refine ⟨encodings, hplaces.1, holds_ofBlocks (fun block hblock => ?_) hstarts⟩
      obtain ⟨r, -, hr⟩ := Outcome.exists_mem_left hplaces.1 hblock
      exact hr.whole
    · rw [hbuild] at h
      cases h
    · rw [build_of_firstOffence h] at hbuild
      cases hbuild
  · have hbuild := build_of_firstOffence hoffence
    refine ⟨iff_of_false ?_ ?_, fun image himage => ?_, fun e' => ⟨fun h => ?_, build_of_firstOffence⟩⟩
    · rintro ⟨image, himage⟩
      rw [hbuild] at himage
      cases himage
    · rintro ⟨-, encodings, hplaces⟩
      rw [build_of_places hplaces] at hbuild
      cases hbuild
    · rw [hbuild] at himage
      cases himage
    · obtain rfl : e = e' := Except.error.inj (hbuild.symm.trans h)
      exact hoffence

/-- Three regions, the second one empty. -/
def someRegions : List Region :=
  [⟨8, .ok [1, 2, 3, 4, 5, 6, 7, 8]⟩, ⟨0, .ok []⟩, ⟨4, .ok [255, 0, 255, 0]⟩]

/-- Regions of which the third can be encoded but declares another size, and the fourth cannot be encoded. -/
def faultyRegions : List Region :=
  [⟨4, .ok [9, 9, 9, 9]⟩, ⟨0, .ok []⟩, ⟨8, .ok [1, 2, 3]⟩, ⟨4, .error .bufferFull⟩]

theorem build_exact_someRegions :
    (∃ image encodings, build someRegions = .ok image ∧ List.Forall₂ Region.Encodes someRegions encodings ∧
      image.Holds encodings) ∧
    build faultyRegions = .error (.internal ⟨"region encoded to 3 bytes but declares 8"⟩) ∧
    FirstOffence 20 faultyRegions (.internal ⟨"region encoded to 3 bytes but declares 8"⟩) := by
  have hok : (build someRegions).isOk = true := by decide +kernel
  have herror : build faultyRegions = .error (.internal ⟨"region encoded to 3 bytes but declares 8"⟩) := by
    decide +kernel
  refine ⟨?_, herror, ((build_exact faultyRegions).2.2 _).mp herror⟩
  cases h : build someRegions with
  | error e =>
    rw [h] at hok
    cases hok
  | ok image =>
    obtain ⟨encodings, hencodes, hholds⟩ := (build_exact someRegions).2.1 image h
    exact ⟨image, encodings, rfl, hencodes, hholds⟩

end Image

end NeuroMap
