import NeuroMap.Proofs.Fingerprint.Streaming
import NeuroMap.Proofs.Outcome
import NeuroMap.Proofs.Region.Reader
import NeuroMap.Region.Image

/-!
# The layout of an image

Every region starts where the one before it ends, and every start has to fit a word. A region can be placed at a start
(`Region.Encodes`) or is in the way there (`Region.Offends`). Walking the regions in order, an image is built if all can be
placed, and the first one in the way decides the error otherwise.
-/

namespace NeuroMap

/-! ## One region -/

namespace Region

/-- The bytes of a region, as many as it declares and in whole words. -/
structure Encodes (r : Region) (bytes : List UInt8) : Prop where
  encoding : r.encoding = .ok bytes
  size : bytes.length = r.size
  whole : bytes.length % Word.size = 0

/-- What is wrong with a region that is to start at `start`; the checks are made in this order. -/
inductive Offends (start : Nat) (r : Region) : RegionError → Prop where
  | offset (hstart : UInt32.size ≤ start) : Offends start r (.overflow .regionOffset start)
  | encoding {e : RegionError} (hstart : start < UInt32.size) (hencoding : r.encoding = .error e) : Offends start r e
  | size {bytes : List UInt8} (hstart : start < UInt32.size) (hencoding : r.encoding = .ok bytes)
      (hsize : bytes.length ≠ r.size) :
      Offends start r (.internal ⟨s!"region encoded to {bytes.length} bytes but declares " ++ toString r.size⟩)
  | whole {bytes : List UInt8} (hstart : start < UInt32.size) (hencoding : r.encoding = .ok bytes)
      (hsize : bytes.length = r.size) (hwhole : bytes.length % Word.size ≠ 0) :
      Offends start r (.internal ⟨s!"region size {bytes.length} is not a whole number of words"⟩)

theorem encodes_or_offends (r : Region) (start : Nat) :
    (start < UInt32.size ∧ ∃ bytes, r.Encodes bytes) ∨ ∃ e, r.Offends start e := by
  by_cases hstart : start < UInt32.size
  · cases hencoding : r.encoding with
    | error e => exact .inr ⟨e, .encoding hstart hencoding⟩
    | ok bytes =>
      by_cases hsize : bytes.length = r.size
      · by_cases hwhole : bytes.length % Word.size = 0
        · exact .inl ⟨hstart, bytes, hencoding, hsize, hwhole⟩
        · exact .inr ⟨_, .whole hstart hencoding hsize hwhole⟩
      · exact .inr ⟨_, .size hstart hencoding hsize⟩
  · exact .inr ⟨_, .offset (by omega)⟩

end Region

namespace Image

variable {r : Region} {rs : List Region} {start : Nat} {e : RegionError} {encodings : List (List UInt8)}

theorem layout_cons_of_encodes {bytes : List UInt8} (hstart : start < UInt32.size) (h : r.Encodes bytes) :
    layout start (r :: rs) = (layout (start + bytes.length) rs).map fun (offsets, body) =>
      (UInt32.ofNat start :: offsets, bytes ++ body) := by
  have hcount : countWord .regionOffset start = .ok (UInt32.ofNat start) := countWord_eq_ok_iff.mpr ⟨hstart, rfl⟩
  have hcheck : r.checkSize bytes.length = .ok () := by
    unfold Region.checkSize
    rw [if_neg (not_not.mpr h.size), if_neg (not_not.mpr h.whole)]
  rw [layout, hcount, h.encoding]
  dsimp only [bind, Except.bind]
  rw [hcheck]
  dsimp only
  cases layout (start + bytes.length) rs with
  | error e => rfl
  | ok pair => rfl

theorem layout_cons_of_offends (h : r.Offends start e) : layout start (r :: rs) = .error e := by
  have hcount (hstart : start < UInt32.size) : countWord .regionOffset start = .ok (UInt32.ofNat start) :=
    countWord_eq_ok_iff.mpr ⟨hstart, rfl⟩
  rw [layout]
  cases h with
  | offset hstart =>
    rw [countWord, if_neg (by omega)]
    rfl
  | encoding hstart hencoding =>
    rw [hcount hstart, hencoding]
    rfl
  | size hstart hencoding hsize =>
    rw [hcount hstart, hencoding]
    dsimp only [bind, Except.bind]
    rw [Region.checkSize, if_pos hsize]
  | whole hstart hencoding hsize hwhole =>
    rw [hcount hstart, hencoding]
    dsimp only [bind, Except.bind]
    rw [Region.checkSize, if_neg (not_not.mpr hsize), if_pos hwhole]

/-! ## All regions -/

/-- Where each of the blocks starts if they are put one after the other from `start` on. -/
def starts (start : Nat) : List (List UInt8) → List Nat
  | [] => []
  | block :: blocks => start :: starts (start + block.length) blocks

/-- Each region has its bytes, and each one's start fits a word. -/
def Places (start : Nat) (rs : List Region) (encodings : List (List UInt8)) : Prop :=
  List.Forall₂ Region.Encodes rs encodings ∧ ∀ o ∈ starts start encodings, o < UInt32.size

/-- The first region that cannot be placed, and what is wrong with it. -/
def FirstOffence (start : Nat) (rs : List Region) (e : RegionError) : Prop :=
  ∃ before r after encodings, rs = before ++ r :: after ∧ Places start before encodings ∧
    r.Offends (start + encodings.flatten.length) e

theorem Places.cons {bytes : List UInt8} (hstart : start < UInt32.size) (h : r.Encodes bytes)
    (hrest : Places (start + bytes.length) rs encodings) : Places start (r :: rs) (bytes :: encodings) := by
  refine ⟨.cons h hrest.1, ?_⟩
  intro o ho
  rcases List.mem_cons.mp ho with rfl | ho
  · exact hstart
  · exact hrest.2 o ho

theorem layout_of_places (h : Places start rs encodings) :
    layout start rs = .ok ((starts start encodings).map UInt32.ofNat, encodings.flatten) := by
  obtain ⟨hencodes, hstarts⟩ := h
  induction hencodes generalizing start with
  | nil => rfl
  | cons hr _ ih =>
    obtain ⟨hstart, hrest⟩ := List.forall_mem_cons.mp hstarts
    rw [layout_cons_of_encodes hstart hr, ih hrest]
    rfl

theorem layout_of_firstOffence (h : FirstOffence start rs e) : layout start rs = .error e := by
  obtain ⟨before, r, after, encodings, rfl, ⟨hencodes, hstarts⟩, hr⟩ := h
  induction hencodes generalizing start with
  | nil => exact layout_cons_of_offends hr
  | cons hfirst _ ih =>
    obtain ⟨hstart, hrest⟩ := List.forall_mem_cons.mp hstarts
    rw [List.flatten_cons, List.length_append, ← Nat.add_assoc] at hr
    rw [List.cons_append, layout_cons_of_encodes hstart hfirst, ih hr hrest]
    rfl

theorem places_or_firstOffence (start : Nat) (rs : List Region) :
    (∃ encodings, Places start rs encodings) ∨ ∃ e, FirstOffence start rs e := by
  induction rs generalizing start with
  | nil => exact .inl ⟨[], .nil, by simp [starts]⟩
  | cons r rs ih =>
    rcases r.encodes_or_offends start with ⟨hstart, bytes, hbytes⟩ | ⟨e, he⟩
    · rcases ih (start + bytes.length) with ⟨encodings, hrest⟩ | ⟨e, before, r', after, encodings, rfl, hbefore, hr'⟩
      · exact .inl ⟨bytes :: encodings, hrest.cons hstart hbytes⟩
      · refine .inr ⟨e, r :: before, r', after, bytes :: encodings, rfl, hbefore.cons hstart hbytes, ?_⟩
        rw [List.flatten_cons, List.length_append, ← Nat.add_assoc]
        exact hr'
    · exact .inr ⟨e, [], r, rs, [], rfl, ⟨.nil, by simp [starts]⟩, he⟩

/-! ## The image of given blocks -/

/-- The blocks one after the other behind the table of their offsets. -/
def ofBlocks (blocks : List (List UInt8)) : Image where
  offsets := (starts (headerSize blocks.length) blocks).map UInt32.ofNat
  bytes := Word.flatten (UInt32.ofNat blocks.length :: (starts (headerSize blocks.length) blocks).map UInt32.ofNat) ++
    blocks.flatten
  fingerprint := .ofBytes (Word.flatten (UInt32.ofNat blocks.length ::
    (starts (headerSize blocks.length) blocks).map UInt32.ofNat) ++ blocks.flatten)

/-- A table of offsets that fit words has a length that fits a word. -/
theorem length_lt_of_starts {blocks : List (List UInt8)}
    (h : ∀ o ∈ starts (headerSize blocks.length) blocks, o < UInt32.size) : blocks.length < UInt32.size := by
  cases blocks with
  | nil => decide
  | cons block blocks =>
    have hfirst := h _ (.head _)
    unfold headerSize Word.size at hfirst
    omega

theorem build_of_places (h : Places (headerSize rs.length) rs encodings) : build rs = .ok (ofBlocks encodings) := by
  have hlength : rs.length = encodings.length := h.1.length_eq
  have hlayout := layout_of_places h
  have hcount : countWord .regionCount rs.length = .ok (UInt32.ofNat rs.length) := by
    refine countWord_eq_ok_iff.mpr ⟨?_, rfl⟩
    rw [hlength]
    exact length_lt_of_starts (hlength ▸ h.2)
  have hstream (table : List UInt32) (body : List UInt8) :
      ((Hasher.new.words table).bytes body).finish = .ofBytes (Word.flatten table ++ body) :=
    ((Hasher.holds_new.words table).bytes body).finish_eq
  unfold build
  rw [hlayout, hcount]
  dsimp only [bind, Except.bind]
  rw [hstream, hlength]
  rfl

theorem build_of_firstOffence (h : FirstOffence (headerSize rs.length) rs e) : build rs = .error e := by
  unfold build
  rw [layout_of_firstOffence h]
  rfl

/-- An image that cannot be built has a region in the way. -/
theorem exists_offends_of_build_error (h : build rs = .error e) : ∃ r ∈ rs, ∃ start, r.Offends start e := by
  rcases places_or_firstOffence (headerSize rs.length) rs with ⟨encodings, hplaces⟩ | ⟨e', hoffence⟩
  · rw [build_of_places hplaces] at h
    cases h
  · rw [build_of_firstOffence hoffence] at h
    obtain rfl := Except.error.inj h
    obtain ⟨before, r, after, encodings, rfl, -, hr⟩ := hoffence
    exact ⟨r, by simp, _, hr⟩

/-- A region that is followed by another one has a size that fits a word. -/
theorem length_lt_of_build {r' : Region} {image : Image} (h : build (r :: r' :: rs) = .ok image) :
    ∃ bytes, r.encoding = .ok bytes ∧ bytes.length < UInt32.size := by
  rcases places_or_firstOffence (headerSize (r :: r' :: rs).length) (r :: r' :: rs) with ⟨_, hencodes, hstarts⟩ | ⟨e, he⟩
  · obtain ⟨bytes, _, hr, hrest, rfl⟩ := List.forall₂_cons_left_iff.mp hencodes
    obtain ⟨bytes', _, -, -, rfl⟩ := List.forall₂_cons_left_iff.mp hrest
    -- The second region starts behind the first one.
    have hnext := hstarts _ (.tail _ (.head _))
    exact ⟨bytes, hr.encoding, by omega⟩
  · rw [build_of_firstOffence he] at h
    cases h

end Image

end NeuroMap
