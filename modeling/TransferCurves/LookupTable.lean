import TransferCurves.ColorMap

/-!
# Lookup tables

A lookup table holds uniform samples of a color map over the range of its color points. A scalar is
then colored by the nearest sample. Where the map is discretized, the samples are those at the
centers of equal bands.
-/

namespace TransferCurves

open scoped Scalar

structure LookupTable (α : Type) where
  range : Range α
  entries : List (Rgba α)
  nanColor : Rgba α
deriving DecidableEq

structure Rgba8 where
  r : UInt8
  g : UInt8
  b : UInt8
  a : UInt8
deriving DecidableEq

variable {α : Type} [Scalar α]

namespace Rgba8

/-- A channel between zero and one in eight bits, halves going up; zero for what is not a number. -/
def encode (x : α) : UInt8 := .ofNatClamp (Scalar.nearest (Scalar.clamp 0 1 x * 255))

/-- A color channel between zero and one in eight bits, halves going to the even neighbour; full for
what is not a number. -/
def encodeColor (x : α) : UInt8 :=
  .ofNatClamp (Scalar.nearestEven (Scalar.min (Scalar.clamp 0 1 x * 255) 255))

def ofRgba (c : Rgba α) : Rgba8 :=
  ⟨encodeColor c.r, encodeColor c.g, encodeColor c.b, encode c.a⟩

end Rgba8

namespace LookupTable

def defaultSize : Nat := 256

def band (t : α) (bands : Nat) : α :=
  Scalar.min (Scalar.floor (t * (bands : α))) ((bands : α) - 1)

def bandCenter (t : α) (bands : Nat) : α := (band t bands + 0.5) / (bands : α)

def sampleFraction (m : ColorMap α) (size i : Nat) : α :=
  let t : α := (i : α) / ((size - 1 : Nat) : α)
  if m.discretize then bandCenter t (max m.numberOfValues 1) else t

def build (m : ColorMap α) (size : Nat) : LookupTable α :=
  let size := max size 2
  let range := m.range
  let sampler := m.sampler
  { range := range
    entries := (List.range size).map fun i =>
      sampler.rgba (range.denormalize (sampleFraction m size i))
    nanColor := m.nanColor }

theorem build_congr {m n : ColorMap α} (hrange : m.range = n.range)
    (hsampler : m.sampler = n.sampler) (hdiscretize : m.discretize = n.discretize)
    (hvalues : m.numberOfValues = n.numberOfValues) (hnan : m.nanColor = n.nanColor) (size : Nat) :
    build m size = build n size := by
  simp only [build, sampleFraction, hrange, hsampler, hdiscretize, hvalues, hnan]

def size (t : LookupTable α) : Nat := t.entries.length

theorem size_build (m : ColorMap α) (size : Nat) : (build m size).size = max size 2 :=
  (List.length_map _).trans List.length_range

theorem getElem?_build (m : ColorMap α) {size i : Nat} (h : i < max size 2) :
    (build m size).entries[i]? =
      some (m.sampler.rgba (m.range.denormalize (sampleFraction m (max size 2) i))) := by
  rw [build, List.getElem?_map, List.getElem?_range h, Option.map_some]

def isEmpty (t : LookupTable α) : Bool := t.entries.isEmpty

def fraction (t : LookupTable α) (x : α) : α :=
  if t.range.isDegenerate then 0 else Scalar.clamp 0 1 ((x - t.range.min) / t.range.width)

def index (t : LookupTable α) (x : α) : Nat :=
  Scalar.nearest (t.fraction x * ((t.size - 1 : Nat) : α))

def valueAt (t : LookupTable α) (x : α) : Rgba α :=
  if Scalar.isNaN x then t.nanColor else t.entries.getD (t.index x) t.nanColor

def toRgba8 (t : LookupTable α) : List Rgba8 := t.entries.map Rgba8.ofRgba

end LookupTable

end TransferCurves
