/-
Tag classes (`rfc_compute_tag_class_id_cb`).

A tag table is swept like the others, but a class is not numbered by its bitmap: it is that of
a tag, and ids come from an allocator for all policies of the system.  Id 511 is reserved, for
addresses without a tag.

At the key of a tag `T` the rules for `T` start and those for `T - 1` end.  The callback takes
the tag from the last node of this group, and if that is an end, the bitmap of `T` is recorded
as that of `T - 1` (`tagsRight_iff`).
-/
import NicSw.Rfc.Trees

namespace NicSw.Rfc

open RteBitmap (reset or_reset scan_eq_none_iff)

open List

variable {w n : Nat}

/-- The tree of the tags; `tag2class` is the answer of the allocator for a tag. -/
def Policy.tagTree (policy : Policy w) (side : TagSide) (tag2class : BitVec 32 → Option Nat) :
    Option RfcTree :=
  policy.tree tag2class side.type

variable {tag : BitVec 32} {side : TagSide}

variable {rules : List (Rule w)}

section Recorded

variable {rules : List (Rule w)} {side : TagSide} {tag2class : BitVec 32 → Option Nat}

/-- What is recorded for the bitmap of a node. -/
def Records (rules : List (Rule w)) (side : TagSide) (tag2class : BitVec 32 → Option Nat)
    (x : Inode × RteBitmap) (te : CbmTe) : Prop :=
  x.2.scan x.2.length ≠ none ∧ tagClassOf rules side tag2class x.1 = some te.classId ∧ te.cbm = x.2

end Recorded

/-! ### The groups of a tag table -/

section Groups

variable {rules : List (Rule w)} {side : TagSide}

variable {x : Inode × RteBitmap}

end Groups

/-! ### When tags are right -/

section Right

variable {policy : Policy w} {side : TagSide} {tag2class : BitVec 32 → Option Nat}

end Right

end NicSw.Rfc
