import GreenFuzz.AflFuzz.FastResume
import GreenFuzz.Library.PaddedNumbers

/-!
# Numbers in names

The names of queue files carry a number, `%06u`. As long as it has at most six digits, names are
ordered as their numbers are, whatever follows (`Numbered.increasing`), and the digits give the
number away (`pad6_injective`). `alphasort` lists them in that order.
-/

set_option autoImplicit false

namespace GreenFuzz.AflFuzz

open Library

/-- `alphasort` sorts by name. -/
theorem alphasort_names (dir : List SavedFile) :
    ((alphasort dir).map SavedFile.name).Pairwise (· ≤ ·) := by
  rw [List.pairwise_map]
  have total : Std.Total fun a b : SavedFile => a.name ≤ b.name := ⟨fun a b => le_total _ _⟩
  have trans : IsTrans SavedFile fun a b => a.name ≤ b.name := ⟨fun _ _ _ => le_trans⟩
  exact List.pairwise_insertionSort _ dir

theorem toList_pushn (n : ℕ) (c : Char) : ("".pushn c n).toList = List.replicate n c := by
  induction n with
  | zero => rfl
  | succ n ih =>
      rw [List.replicate_succ', ← ih]
      exact String.toList_push c

theorem toList_pad6 (n : ℕ) : (pad6 n).toList = paddedDigits 6 n := by
  rw [pad6, zeroPadded, String.toList_append, toList_pushn, Nat.toString_eq_repr, Nat.toList_repr,
    ← String.length_toList, Nat.toList_repr]
  rfl

theorem length_pad6 {n : ℕ} (fits : n < 10 ^ 6) : (pad6 n).toList.length = 6 := by
  rw [toList_pad6, paddedDigits_eq (by decide) fits, length_lastDigits]

theorem length_pad6_of_large {n : ℕ} (large : 10 ^ 6 ≤ n) : 6 < (pad6 n).toList.length := by
  have digits : 6 < (Nat.toDigits 10 n).length := by
    rw [← Nat.not_le, Nat.length_toDigits_le_iff (by decide) (by decide)]
    exact Nat.not_lt.mpr large
  rw [toList_pad6, paddedDigits, List.length_append]
  omega

theorem isDigit_of_mem_pad6 {n : ℕ} {c : Char} (member : c ∈ (pad6 n).toList) :
    c.isDigit = true := by
  rw [toList_pad6] at member
  exact isDigit_of_mem_paddedDigits member

/-- Different numbers are written differently. -/
theorem pad6_injective {m n : ℕ} (same : (pad6 m).toList = (pad6 n).toList) : m = n := by
  rw [toList_pad6, toList_pad6] at same
  exact paddedDigits_injective same

/-- Every name starts with its place in the queue, in six digits. -/
def Numbered (fnames : List String) : Prop :=
  ∀ i name, fnames[i]? = some name → ∃ rest, name = "id:" ++ pad6 i ++ rest

/-- Numbers of six digits increase along the queue. -/
theorem Numbered.increasing {fnames : List String} (numbered : Numbered fnames)
    (few : fnames.length ≤ 10 ^ 6) : fnames.Pairwise (· < ·) := by
  rw [List.pairwise_iff_getElem]
  intro i j early late order
  obtain ⟨s, first⟩ := numbered i _ (List.getElem?_eq_getElem early)
  obtain ⟨r, second⟩ := numbered j _ (List.getElem?_eq_getElem late)
  rw [first, second, String.lt_iff_toList_lt]
  simp only [String.toList_append, toList_pad6, List.append_assoc]
  exact List.append_left_lt (paddedDigits_lt (by decide) order (late.trans_le few) _ _)

end GreenFuzz.AflFuzz
