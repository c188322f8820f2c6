/-!
# PhpImports — language versions

Units are fixed for a version of the language. Versions are compared field by field;
the cut between old and new versions is made by a version's number. A number that does
not fit a word of 32 bits wraps around: the overflow is not checked.

* `Version.id` — the number of a version.
* `Version.isLegacy` — the versions for which units are fixed.
-/

namespace PhpImports

/-- A version of the language. -/
structure Version where
  major : UInt32
  minor : UInt32
  release : UInt32 := 0
  deriving DecidableEq

namespace Version

/-- The number of a version: two decimal places each for minor version and release. It is computed
in words of 32 bits. -/
def id (v : Version) : Nat :=
  (v.major * 10000 + v.minor * 100 + v.release).toNat

/-- The first version for which units are left as they are. -/
def firstModern : Version := ⟨7, 2, 0⟩

/-- Whether units are fixed for a version. -/
def isLegacy (v : Version) : Bool :=
  v.id < firstModern.id

/-- The fields with points between them. -/
def text (v : Version) : String :=
  toString v.major.toNat ++ "." ++ toString v.minor.toNat ++ "." ++ toString v.release.toNat

/-- Versions are ordered by their fields, the major version first. -/
instance : Ord Version where
  compare v w :=
    (compare v.major w.major).then ((compare v.minor w.minor).then (compare v.release w.release))

theorem id_eq (v : Version) :
    v.id = (v.major.toNat * 10000 + v.minor.toNat * 100 + v.release.toNat) % UInt32.size := by
  simp [id, UInt32.toNat_add, UInt32.toNat_mul]

theorem isLegacy_iff {v : Version} :
    v.isLegacy = true ↔
      (v.major.toNat * 10000 + v.minor.toNat * 100 + v.release.toNat) % UInt32.size < 70200 := by
  rw [isLegacy, decide_eq_true_eq, id_eq]
  exact Iff.rfl

end Version

end PhpImports
