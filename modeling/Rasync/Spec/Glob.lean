import Rasync.Lib.Wildcard
import Rasync.Spec.Scan

/-! What the patterns of `core/ignore.h` mean. -/

namespace Rasync

/-- Within a segment, `*` stands for any run of characters, `?` for one, and every other
character for itself. -/
abbrev SegMatches : Bytes → Bytes → Prop := Wildcard.Reads star question Wildcard.Free

/-- The same, where a `*` of the pattern that meets a `*` of the name stands for that one
character. -/
abbrev SegTakesStars : Bytes → Bytes → Prop := Wildcard.Reads star question (Wildcard.Lone star)

/-- Segment by segment, with `**` for any run of segments. -/
inductive SegsMatch (seg : Bytes → Bytes → Prop) : List Bytes → List Bytes → Prop
  | nil : SegsMatch seg [] []
  | one {p s : Bytes} (hp : p ≠ [star, star]) (hs : seg p s) {pat path : List Bytes} (h : SegsMatch seg pat path) :
      SegsMatch seg (p :: pat) (s :: path)
  | span (run : List Bytes) {pat path : List Bytes} (h : SegsMatch seg pat path) :
      SegsMatch seg ([star, star] :: pat) (run ++ path)

/-- An anchored pattern is for the whole path, any other for some segment of it. -/
def GlobMatches (seg : Bytes → Bytes → Prop) (pattern path : Bytes) (anchored : Bool) : Prop :=
  if anchored then SegsMatch seg (split slash pattern) (split slash path)
  else ∃ s ∈ split slash path, seg pattern s

end Rasync
