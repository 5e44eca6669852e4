import Mathlib
import PageCompiler.Json.Value

/-!
Members of objects: what is found behind a name after members have been put in.
-/

namespace PageCompiler.Json.Object

theorem get?_cons (o : Object) (name other : String) (v : Value) :
    get? ((name, v) :: o) other = if other = name then some v else o.get? other := by
  rw [get?, List.lookup_cons]
  split_ifs with h
  · rw [h, beq_self_eq_true]
  · rw [beq_false_of_ne h, get?]

theorem get?_insert (o : Object) (name other : String) (v : Value) :
    (insert name v o).get? other = if other = name then some v else o.get? other := by
  induction o with
  | nil => rw [insert, get?_cons]
  | cons m o ih =>
    obtain ⟨n, w⟩ := m
    rw [insert]
    by_cases ho : other = name
    · rw [if_pos ho]
      split_ifs with hn
      · rw [get?_cons, if_pos ho]
      · rw [get?_cons, if_pos ho]
      · rw [get?_cons, ih, if_pos ho, if_neg fun h => hn (h.symm.trans ho)]
    · rw [if_neg ho]
      split_ifs with hn
      · rw [get?_cons, get?_cons, hn, if_neg ho, if_neg ho]
      · rw [get?_cons, if_neg ho]
      · rw [get?_cons, get?_cons, ih, if_neg ho]

/-- Where no name comes twice, the members are those of the list. -/
theorem get?_ofList {members : List (String × Value)} (h : (members.map Prod.fst).Nodup)
    (name : String) : (ofList members).get? name = members.lookup name := by
  induction members using List.reverseRecOn with
  | nil => rfl
  | append_singleton members m ih =>
    obtain ⟨n, v⟩ := m
    rw [List.map_append, List.nodup_append] at h
    obtain ⟨hd, -, hne⟩ := h
    have hstep : ofList (members ++ [(n, v)]) = insert n v (ofList members) := by
      rw [ofList, List.foldl_append]
      rfl
    rw [hstep, get?_insert, List.lookup_append, ih hd]
    split_ifs with hn
    · subst hn
      have hnone : members.lookup name = none := by
        rw [List.lookup_eq_none_iff]
        intro m hm
        exact bne_iff_ne.2 (hne _ (List.mem_map_of_mem hm) name (List.mem_singleton_self _)).symm
      simp [hnone]
    · simp [List.lookup_cons, beq_false_of_ne hn]

theorem get?_ofList_map {α : Type} {key : α → String} {value : α → Value} {as : List α}
    (h : (as.map key).Nodup) (name : String) :
    (ofList (as.map fun a => (key a, value a))).get? name =
      (as.find? fun a => key a = name).map value := by
  rw [get?_ofList (by rwa [List.map_map])]
  clear h
  induction as with
  | nil => rfl
  | cons a as ih =>
    rw [List.map_cons, List.lookup_cons, List.find?_cons, ih]
    by_cases hn : key a = name
    · simp [hn]
    · simp [hn, beq_false_of_ne (Ne.symm hn)]

end PageCompiler.Json.Object
