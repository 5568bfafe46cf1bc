import JsonShapes.Accum.Basic

/-! # The values of an accumulation

An accumulation is read as the list of its values. What joining in rounds makes of several
accumulations, how many values there are and which is the first are all said of this list.
-/
namespace JsonShapes.Accum
set_option autoImplicit false
variable {α : Type}

theorem length_toList (t : Accum α) : t.toList.length = t.length := by
  induction t with
  | single a => rfl
  | join l r ihLeft ihRight => rw [toList_join, List.length_append, ihLeft, ihRight, length]

theorem head?_toList (t : Accum α) : t.toList.head? = some t.first := by
  induction t with
  | single a => rfl
  | join l r ihLeft _ => rw [toList_join, List.head?_append, ihLeft, Option.some_or, first]

theorem flatMap_toList_pairUp (items : List (Accum α)) :
    (pairUp items).flatMap toList = items.flatMap toList := by
  fun_induction pairUp items with
  | case1 a b rest ih =>
    simp only [List.flatMap_cons, toList_join, ih, List.append_assoc]
  | case2 rest => rfl

theorem toList_joinAll (head : Accum α) (items : List (Accum α)) :
    (joinAll head items).toList = head.toList ++ items.flatMap toList := by
  fun_induction joinAll head items with
  | case1 head => simp
  | case2 head second rest ih =>
    rw [ih, toList_join, flatMap_toList_pairUp, List.flatMap_cons, List.append_assoc]

end JsonShapes.Accum
