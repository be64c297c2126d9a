import NeuroMap.Proofs.Filter.Positions
import NeuroMap.Proofs.Region.Failures

/-!
# Declared sizes

A region declares its size before it is encoded, and an image is refused with an internal error if the encoding turns out
otherwise. The tables of a core are sound (`Region.Sound`): each has the size that it declares whenever it can be encoded,
although the size of a filter table is that of the continuous filters and its bytes are those of the discrete ones, and no
table blames an internal error itself. So no image of such tables fails for one (`Image.build_ne_internal`).
-/

namespace NeuroMap

/-! ## Sound regions -/

/-- A region that has the size that it declares, and cannot be encoded only for reasons of its own. -/
structure Region.Sound (r : Region) : Prop where
  encodes : ∀ bytes, r.encoding = .ok bytes → r.Encodes bytes
  ne_internal : ∀ e, r.encoding ≠ .error (.internal e)

theorem Region.Sound.not_offends_internal {r : Region} {start : Nat} {e : InternalError} (h : r.Sound) :
    ¬ r.Offends start (.internal e) := by
  intro hoffends
  cases hoffends with
  | encoding hstart hencoding => exact h.ne_internal e hencoding
  | size hstart hencoding hsize => exact hsize (h.encodes _ hencoding).size
  | whole hstart hencoding hsize hwhole => exact hwhole (h.encodes _ hencoding).whole

/-- **No internal errors.** An image of sound regions is not refused for one, because no such region is in the way for one. -/
theorem Image.build_ne_internal {rs : List Region} (h : ∀ r ∈ rs, r.Sound) (e : InternalError) :
    build rs ≠ .error (.internal e) := by
  intro hbuild
  obtain ⟨r, hr, start, hoffends⟩ := exists_offends_of_build_error hbuild
  exact (h r hr).not_offends_internal hoffends

/-! ## The tables of a core -/

theorem FilterTable.sound (t : FilterTable) : t.region.Sound where
  encodes _ := encodes_of_encoding
  ne_internal e h := by
    rcases of_encoding_error h with ⟨-, hcount⟩ | hpack
    · cases hcount
    · obtain ⟨_, _, _, _, -, -, -, hfilter⟩ := of_packFrom_error hpack
      cases hfilter

theorem RoutingTable.sound (t : RoutingTable) : t.region.Sound where
  encodes _ := encodes_of_encoding
  ne_internal e h := by
    rcases of_encoding_error h with ⟨_, _, hoverflow⟩ | ⟨_, -, -, hkey⟩
    · cases hoverflow
    · cases hkey

theorem SynapseTable.sound (t : SynapseTable) : t.region.Sound where
  encodes _ := encodes_of_encoding
  ne_internal e h := by
    obtain ⟨-, hcount⟩ := encoding_eq_error_iff.mp h
    cases hcount

/-- A table in the memory of a core. -/
inductive CoreTable where
  | filters (t : FilterTable)
  | routing (t : RoutingTable)
  | synapses (t : SynapseTable)

namespace CoreTable

/-- The table as a region. -/
def region : CoreTable → Region
  | filters t => t.region
  | routing t => t.region
  | synapses t => t.region

theorem sound (t : CoreTable) : t.region.Sound := by
  cases t with
  | filters t => exact t.sound
  | routing t => exact t.sound
  | synapses t => exact t.sound

/-- **Sizes are as declared.** The encoding of every table has as many bytes as the table declares, in whole words. This
holds also for filters that were never validated, because whatever the coefficients, discretising and packing find each of
them at its position. So an image of such tables, whichever they are, is not refused for an internal error. -/
theorem sizes_declared :
    (∀ (t : CoreTable) (bytes : List UInt8), t.region.encoding = .ok bytes →
      bytes.length = t.region.size ∧ bytes.length % 4 = 0) ∧
    (∀ (t : Transfer Float) (dt : Float), t.zeroOrderHold? dt = some (t.zeroOrderHold dt)) ∧
    (∀ (k : FilterKind) (dt : Float), k.payload? dt = some (k.payload dt)) ∧
    ∀ (ts : List CoreTable) (e : InternalError), Image.build (ts.map region) ≠ .error (.internal e) := by
  refine ⟨?_, Transfer.zeroOrderHold?_eq, FilterKind.payload?_eq, ?_⟩
  · intro t bytes h
    have hbytes := t.sound.encodes bytes h
    exact ⟨hbytes.size, hbytes.whole⟩
  · intro ts e
    refine Image.build_ne_internal (fun r hr => ?_) e
    obtain ⟨t, -, rfl⟩ := List.mem_map.mp hr
    exact t.sound

/-- Filters of all methods, with linear ones of order one and zero, both with a numerator to fill up. -/
def filterChain : CoreTable :=
  filters ⟨[⟨3, true, .linear [1] [1, 1]⟩, ⟨2, false, .linear [] [2]⟩, ⟨1, false, .none⟩, ⟨1, true, .lowpass 0.5⟩], 0.125⟩

/-- Filters that no validation lets pass: no denominator, and more zeros than poles. -/
def invalidFilters : CoreTable :=
  filters ⟨[⟨1, false, .linear [1, 2, 3] []⟩, ⟨1, false, .linear [1, 2, 3] [1]⟩], 0.125⟩

theorem sizes_declared_filterChain :
    (∃ bytes, filterChain.region.encoding = .ok bytes ∧ bytes.length = 92 ∧ filterChain.region.size = 92) ∧
    ∀ e, Image.build ([filterChain, invalidFilters, filterChain].map region) ≠ .error (.internal e) := by
  have hok : filterChain.region.encoding.isOk = true := by decide +kernel
  have hsize : filterChain.region.size = 92 := by decide +kernel
  refine ⟨?_, fun e => sizes_declared.2.2.2 _ e⟩
  cases h : filterChain.region.encoding with
  | error e =>
    rw [h] at hok
    cases hok
  | ok bytes => exact ⟨bytes, rfl, (sizes_declared.1 filterChain bytes h).1.trans hsize, hsize⟩

end CoreTable

end NeuroMap
