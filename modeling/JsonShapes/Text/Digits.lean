/-! # Decimal digits

The number that a run of decimal digits stands for. Only the ten digits of ASCII count.
-/
namespace JsonShapes.Text
set_option autoImplicit false

def digitsValue (digits : List Char) : Nat :=
  digits.foldl (fun n c => 10 * n + (c.toNat - '0'.toNat)) 0

/-- The digits at the beginning of the text, and what follows them. -/
def spanDigits (cs : List Char) : List Char × List Char :=
  (cs.takeWhile Char.isDigit, cs.dropWhile Char.isDigit)

theorem toList_toString (n : Nat) : (toString n).toList = Nat.toDigits 10 n := by
  rw [Nat.toString_eq_repr, Nat.repr_eq_ofList_toDigits, String.toList_ofList]

theorem digitsValue_toString (n : Nat) : digitsValue (toString n).toList = n := by
  rw [toList_toString]
  exact Nat.ofDigitChars_toDigits (by decide) (by decide)

theorem isDigit_of_mem_toString {n : Nat} {c : Char} (h : c ∈ (toString n).toList) : c.isDigit := by
  rw [toList_toString] at h
  exact Nat.isDigit_of_mem_toDigits (by decide) (by decide) h

theorem spanDigits_toString (n : Nat) {c : Char} (h : c.isDigit = false) (rest : List Char) :
    spanDigits ((toString n).toList ++ c :: rest) = ((toString n).toList, c :: rest) := by
  have hDigits : ∀ d ∈ (toString n).toList, d.isDigit := fun _ hd => isDigit_of_mem_toString hd
  have hOther : ¬ c.isDigit = true := Bool.eq_false_iff.mp h
  rw [spanDigits, List.takeWhile_append_of_pos hDigits, List.dropWhile_append_of_pos hDigits,
    List.takeWhile_cons_of_neg hOther, List.dropWhile_cons_of_neg hOther, List.append_nil]

end JsonShapes.Text
