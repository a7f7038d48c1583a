/-
# Rows of fields

A layout divides the low bits of a number among fields, one next to the other. The
numbers that are read in the fields make up those bits (`Layout.assemble_cut`), numbers
that are put into the fields are read in them again (`Layout.cut_assemble`), and so a
number that the layout covers and the row of its fields determine each other
(`Layout.cut_eq_iff`).

Key definitions: `Layout`, `Layout.Fits`, `Layout.assemble`, `Layout.cut`.
Key theorems: `Layout.assemble_cut`, `Layout.cut_assemble`, `Layout.cut_eq_iff`.
-/
import Mathlib.Algebra.Ring.Nat
import Mathlib.Data.List.Forall2

namespace SparcIU

/-- The widths in bits of the fields that divide a number, from the top. -/
abbrev Layout := List Nat

namespace Layout

variable {l : Layout} {values : List Nat} {n : Nat}

/-- There is one number for each field, and it has no more bits than the field. -/
def Fits (l : Layout) (values : List Nat) : Prop :=
  List.Forall₂ (fun width v => v < 2 ^ width) l values

instance decidableFits (l : Layout) (values : List Nat) : Decidable (l.Fits values) :=
  inferInstanceAs (Decidable (List.Forall₂ _ l values))

/-- The number whose fields have the given numbers in them. -/
def assemble : Layout → List Nat → Nat
  | _ :: l, v :: values => v * 2 ^ l.sum + assemble l values
  | _, _ => 0

/-- The numbers in the fields of a number. -/
def cut : Layout → Nat → List Nat
  | [], _ => []
  | width :: l, n => n / 2 ^ l.sum % 2 ^ width :: cut l n

theorem cut_singleton (width n : Nat) : cut [width] n = [n % 2 ^ width] := by
  rw [cut, cut, List.sum_nil, Nat.pow_zero, Nat.div_one]

theorem fits_cut (l : Layout) (n : Nat) : l.Fits (l.cut n) := by
  induction l with
  | nil => exact .nil
  | cons width l ih => exact .cons (Nat.mod_lt _ (Nat.two_pow_pos width)) ih

/-- A number is made of its fields. -/
theorem assemble_cut (l : Layout) (n : Nat) : l.assemble (l.cut n) = n % 2 ^ l.sum := by
  induction l with
  | nil => exact (Nat.mod_one n).symm
  | cons width l ih =>
    calc n / 2 ^ l.sum % 2 ^ width * 2 ^ l.sum + assemble l (cut l n)
      _ = n % 2 ^ l.sum + 2 ^ l.sum * (n / 2 ^ l.sum % 2 ^ width) := by
        rw [ih, Nat.add_comm, Nat.mul_comm]
      _ = n % (2 ^ l.sum * 2 ^ width) := Nat.mod_mul.symm
      _ = n % 2 ^ (width :: l).sum := by rw [List.sum_cons, Nat.pow_add, Nat.mul_comm]

theorem assemble_lt (h : l.Fits values) : l.assemble values < 2 ^ l.sum := by
  induction h with
  | nil => decide
  | @cons width v l values hv _ ih =>
    calc v * 2 ^ l.sum + assemble l values
      _ < (v + 1) * 2 ^ l.sum := by
        rw [Nat.succ_mul]
        exact Nat.add_lt_add_left ih _
      _ ≤ 2 ^ width * 2 ^ l.sum := Nat.mul_le_mul_right _ hv
      _ = 2 ^ (width :: l).sum := by rw [List.sum_cons, Nat.pow_add]

/-- What stands above the fields does not show in them. -/
theorem cut_above (l : Layout) (v n : Nat) : l.cut (v * 2 ^ l.sum + n) = l.cut n := by
  induction l generalizing v with
  | nil => rfl
  | cons width l ih =>
    have hsplit : v * 2 ^ (width :: l).sum = v * 2 ^ width * 2 ^ l.sum := by
      rw [List.sum_cons, Nat.pow_add, Nat.mul_assoc]
    rw [cut, cut, hsplit, ih, Nat.add_comm, Nat.add_mul_div_right _ _ (Nat.two_pow_pos _),
      Nat.add_mul_mod_self_right]

/-- What is put into the fields is read in them. -/
theorem cut_assemble (h : l.Fits values) : l.cut (l.assemble values) = values := by
  induction h with
  | nil => rfl
  | @cons width v l values hv hrest ih =>
    have hfield : (v * 2 ^ l.sum + assemble l values) / 2 ^ l.sum = v := by
      rw [Nat.add_comm, Nat.add_mul_div_right _ _ (Nat.two_pow_pos _),
        Nat.div_eq_of_lt (assemble_lt hrest), Nat.zero_add]
    rw [assemble, cut, hfield, Nat.mod_eq_of_lt hv, cut_above, ih]

/-- **The numbers in the fields are the only ones that fit and make the number.** -/
theorem cut_eq_iff (hn : n < 2 ^ l.sum) :
    l.cut n = values ↔ l.Fits values ∧ l.assemble values = n := by
  constructor
  · rintro rfl
    exact ⟨l.fits_cut n, (l.assemble_cut n).trans (Nat.mod_eq_of_lt hn)⟩
  · rintro ⟨hfits, rfl⟩
    exact cut_assemble hfits

end Layout

end SparcIU
