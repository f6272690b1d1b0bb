import Mathlib.Data.List.Sort

/-! Insertion into a list that is sorted by a key, behind the elements with the same key. -/
namespace Nachos.KeyedInsert

variable {α K : Type*} [LinearOrder K] (key : α → K)
  [DecidableRel fun a b : α => key a < key b] {x y : α} {l : List α}

theorem insert_cons_of_lt (h : key x < key y) :
    (y :: l).orderedInsert (fun a b => key a < key b) x = x :: y :: l :=
  List.orderedInsert_cons_of_le _ l h

theorem insert_cons_of_not_lt (h : ¬ key x < key y) :
    (y :: l).orderedInsert (fun a b => key a < key b) x =
      y :: l.orderedInsert (fun a b => key a < key b) x :=
  List.orderedInsert_of_not_le _ l h

theorem insert_append (h : ∀ y ∈ l, ¬ key x < key y) (l' : List α) :
    (l ++ l').orderedInsert (fun a b => key a < key b) x =
      l ++ l'.orderedInsert (fun a b => key a < key b) x := by
  induction l with
  | nil => rfl
  | cons y l ih =>
    have hrest := ih fun z hz => h z (List.mem_cons_of_mem y hz)
    rw [List.cons_append, insert_cons_of_not_lt key (h y List.mem_cons_self), hrest]
    rfl

theorem filter_insert_of_not {p : α → Bool} (h : p x = false) :
    (l.orderedInsert (fun a b => key a < key b) x).filter p = l.filter p := by
  induction l with
  | nil => simp [h]
  | cons y l ih =>
    by_cases hlt : key x < key y
    · rw [insert_cons_of_lt key hlt, List.filter_cons_of_neg (by simp [h])]
    · rw [insert_cons_of_not_lt key hlt, List.filter_cons, List.filter_cons, ih]

theorem pairwise_insert (h : l.Pairwise (key · ≤ key ·)) :
    (l.orderedInsert (fun a b => key a < key b) x).Pairwise (key · ≤ key ·) := by
  induction l with
  | nil => exact List.pairwise_singleton _ _
  | cons y l ih =>
    have hy := List.pairwise_cons.mp h
    by_cases hlt : key x < key y
    · rw [insert_cons_of_lt key hlt, List.pairwise_cons]
      refine ⟨?_, h⟩
      intro z hz
      obtain rfl | hz := List.mem_cons.mp hz
      · exact hlt.le
      · exact hlt.le.trans (hy.1 z hz)
    · rw [insert_cons_of_not_lt key hlt, List.pairwise_cons]
      refine ⟨?_, ih hy.2⟩
      intro z hz
      obtain rfl | hz := (List.mem_orderedInsert _).mp hz
      · exact not_lt.mp hlt
      · exact hy.1 z hz

theorem filter_insert [DecidableEq K] (h : l.Pairwise (key · ≤ key ·)) (k : K) :
    (l.orderedInsert (fun a b => key a < key b) x).filter (key · = k) =
      (l ++ [x]).filter (key · = k) := by
  induction l with
  | nil => rfl
  | cons y l ih =>
    have hy := List.pairwise_cons.mp h
    by_cases hlt : key x < key y
    · rw [insert_cons_of_lt key hlt]
      by_cases hk : key x = k
      · have hnone : (y :: l).filter (key · = k) = [] := by
          rw [List.filter_eq_nil_iff]
          intro z hz
          have hle : key y ≤ key z := by
            obtain rfl | hz := List.mem_cons.mp hz
            · exact le_rfl
            · exact hy.1 z hz
          have hne := (hlt.trans_le hle).ne'
          simpa [← hk] using hne
        rw [List.filter_append, hnone, List.filter_cons, hnone]
        simp [hk]
      · simp [List.filter_append, List.filter_cons, hk]
    · rw [insert_cons_of_not_lt key hlt, List.filter_cons, ih hy.2, List.cons_append,
        List.filter_cons]

end Nachos.KeyedInsert
