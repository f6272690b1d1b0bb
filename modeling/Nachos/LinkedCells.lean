import Mathlib.Data.List.Basic
import Mathlib.Logic.Function.Basic

/-! Cells on a heap that a `next` field links to a chain. A chain is entered at `first`, visits
each of its cells once and ends in the cell `last`, which links to nothing. The rest of the heap
is as it is `outside`. -/
namespace Nachos.LinkedCells

variable {P C : Type*} {next : C → Option P} {heap outside : P → Option C}
  {stop first last : Option P} {ns ms : List (P × C)} {p q : P} {c d e : C}

def entry (stop : Option P) : List (P × C) → Option P
  | [] => stop
  | n :: _ => some n.1

/-- The cells `ns` are on the heap, each links to the one behind it and the last one to `stop`. -/
def Linked (next : C → Option P) (heap : P → Option C) (stop : Option P) :
    List (P × C) → Prop
  | [] => True
  | n :: ns => heap n.1 = some n.2 ∧ next n.2 = entry stop ns ∧ Linked next heap stop ns

theorem entry_append : entry stop (ns ++ ms) = entry (entry stop ms) ns := by
  cases ns with
  | nil => rfl
  | cons n ns => rfl

theorem entry_eq_none : entry none ns = none ↔ ns = [] := by
  cases ns with
  | nil => simp [entry]
  | cons n ns => simp [entry]

theorem linked_append : Linked next heap stop (ns ++ ms) ↔
    Linked next heap (entry stop ms) ns ∧ Linked next heap stop ms := by
  induction ns with
  | nil => simp [Linked]
  | cons n ns ih => simp only [List.cons_append, Linked, entry_append, ih, and_assoc]

theorem Linked.heap_eq (h : Linked next heap stop (ns ++ (p, c) :: ms)) : heap p = some c :=
  (linked_append.mp h).2.1

theorem Linked.next_eq (h : Linked next heap stop (ns ++ (p, c) :: ms)) :
    next c = entry stop ms := (linked_append.mp h).2.2.1

variable [DecidableEq P]

theorem Linked.update (h : Linked next heap stop ns) (hp : p ∉ ns.map Prod.fst)
    (x : Option C) : Linked next (Function.update heap p x) stop ns := by
  induction ns with
  | nil => trivial
  | cons n ns ih =>
    obtain ⟨hne, hp⟩ := not_or.mp (mt List.mem_cons.mpr hp)
    refine ⟨?_, h.2.1, ih h.2.2 hp⟩
    rw [Function.update_of_ne (Ne.symm hne)]
    exact h.1

theorem Linked.insertAfter (h : Linked next heap stop (ns ++ (p, c) :: ms))
    (hns : p ∉ ns.map Prod.fst) (hms : p ∉ ms.map Prod.fst)
    (hq : q ∉ (ns ++ (p, c) :: ms).map Prod.fst) (hd : next d = next c) (hc : next e = some q) :
    Linked next (Function.update (Function.update heap q (some d)) p (some e)) stop
      (ns ++ (p, e) :: (q, d) :: ms) := by
  simp only [List.map_append, List.map_cons, List.mem_append, List.mem_cons, not_or] at hq
  obtain ⟨hqns, hqp, hqms⟩ := hq
  obtain ⟨hfront, hcell, hlink, hback⟩ := linked_append.mp h
  rw [linked_append]
  refine ⟨(hfront.update hqns _).update hns _, ?_, hc, ?_, ?_, (hback.update hqms _).update hms _⟩
  · exact Function.update_self _ _ _
  · rw [Function.update_of_ne hqp]
    exact Function.update_self _ _ _
  · exact hd.trans hlink

omit [DecidableEq P] in
/-- The representation of a chain by its first and its last cell. -/
structure Chain (next : C → Option P) (outside heap : P → Option C) (first last : Option P)
    (ns : List (P × C)) : Prop where
  linked : Linked next heap none ns
  nodup : (ns.map Prod.fst).Nodup
  first_eq : first = entry none ns
  last_eq : last = ns.getLast?.map Prod.fst
  others : ∀ a, a ∉ ns.map Prod.fst → heap a = outside a
  own : ∀ a ∈ ns.map Prod.fst, outside a = none

namespace Chain

omit [DecidableEq P] in
theorem empty (heap : P → Option C) : Chain next heap heap none none [] where
  linked := trivial
  nodup := List.nodup_nil
  first_eq := rfl
  last_eq := rfl
  others := fun _ _ => rfl
  own := nofun

omit [DecidableEq P] in
theorem first_eq_none (h : Chain next outside heap first last ns) : first = none ↔ ns = [] := by
  rw [h.first_eq, entry_eq_none]

omit [DecidableEq P] in
theorem first_eq_last_iff (h : Chain next outside heap first last ((p, c) :: ns)) :
    first = last ↔ ns = [] := by
  rw [h.first_eq, h.last_eq]
  constructor
  · intro heq
    by_contra hne
    have hp := (List.nodup_cons.mp h.nodup).1
    rw [List.getLast?_cons, List.getLast?_eq_some_getLast hne] at heq
    have hlast : p = (ns.getLast hne).1 := Option.some.inj heq
    refine hp (List.mem_map.mpr ⟨ns.getLast hne, List.getLast_mem hne, hlast.symm⟩)
  · rintro rfl
    rfl

omit [DecidableEq P] in
theorem fresh (h : Chain next outside heap first last ns) (hq : heap q = none) :
    q ∉ ns.map Prod.fst := by
  intro hmem
  obtain ⟨⟨_, c⟩, hn, rfl⟩ := List.mem_map.mp hmem
  obtain ⟨s, t, rfl⟩ := List.append_of_mem hn
  rw [h.linked.heap_eq] at hq
  cases hq

theorem cons (h : Chain next outside heap first last ns) (hq : heap q = none)
    (hd : next d = first) :
    Chain next outside (Function.update heap q (some d)) (some q) (last <|> some q)
      ((q, d) :: ns) := by
  have hnew := h.fresh hq
  constructor
  case linked =>
    exact ⟨Function.update_self _ _ _, hd.trans h.first_eq, h.linked.update hnew _⟩
  case nodup => exact List.nodup_cons.mpr ⟨hnew, h.nodup⟩
  case first_eq => rfl
  case last_eq =>
    rw [h.last_eq, List.getLast?_cons]
    cases ns.getLast? <;> rfl
  case others =>
    intro a ha
    obtain ⟨hne, ha⟩ := not_or.mp (mt List.mem_cons.mpr ha)
    rw [Function.update_of_ne hne]
    exact h.others a ha
  case own =>
    intro a ha
    obtain rfl | ha := List.mem_cons.mp ha
    · rw [← h.others _ hnew, hq]
    · exact h.own a ha

theorem insertAfter (h : Chain next outside heap first last (ns ++ (p, c) :: ms))
    (hq : heap q = none) (hd : next d = next c) (hc : next e = some q) {l : Option P}
    (hl : l = if ms = [] then some q else last) :
    Chain next outside (Function.update (Function.update heap q (some d)) p (some e)) first l
      (ns ++ (p, e) :: (q, d) :: ms) := by
  have hnew := h.fresh hq
  have hnodup := h.nodup
  simp only [List.map_append, List.map_cons] at hnodup hnew
  have hsplit := List.nodup_append.mp hnodup
  have hpms := (List.nodup_cons.mp hsplit.2.1).1
  have hpns : p ∉ ns.map Prod.fst := fun hmem => hsplit.2.2 p hmem p List.mem_cons_self rfl
  have hperm : ((ns ++ (p, e) :: (q, d) :: ms).map Prod.fst).Perm
      (q :: (ns.map Prod.fst ++ p :: ms.map Prod.fst)) := by
    rw [List.map_append, List.map_cons, List.map_cons]
    exact ((List.Perm.swap q p _).append_left _).trans List.perm_middle
  constructor
  case linked =>
    refine h.linked.insertAfter hpns hpms ?_ hd hc
    simpa only [List.map_append, List.map_cons] using hnew
  case nodup => exact hperm.nodup_iff.mpr (List.nodup_cons.mpr ⟨hnew, hnodup⟩)
  case first_eq => rw [h.first_eq, entry_append, entry_append]; rfl
  case last_eq =>
    rw [hl, h.last_eq]
    cases ms with
    | nil => simp
    | cons m ms => simp [List.getLast?_append, List.getLast?_cons]
  case others =>
    intro a ha
    rw [hperm.mem_iff, List.mem_cons, not_or] at ha
    have hap : a ≠ p := fun he => ha.2 (by simp [he])
    rw [Function.update_of_ne hap, Function.update_of_ne ha.1]
    refine h.others a ?_
    simpa only [List.map_append, List.map_cons] using ha.2
  case own =>
    intro a ha
    obtain rfl | ha := List.mem_cons.mp (hperm.mem_iff.mp ha)
    · rw [← h.others _ (h.fresh hq), hq]
    · refine h.own a ?_
      simpa only [List.map_append, List.map_cons] using ha

theorem tail (h : Chain next outside heap first last ((p, c) :: ns)) :
    Chain next outside (Function.update heap p none) (next c)
      (if ns = [] then none else last) ns := by
  have hnodup := List.nodup_cons.mp h.nodup
  constructor
  case linked => exact h.linked.2.2.update hnodup.1 _
  case nodup => exact hnodup.2
  case first_eq => exact h.linked.2.1
  case last_eq =>
    rw [h.last_eq]
    cases ns with
    | nil => rfl
    | cons n ns => simp [List.getLast?_cons]
  case others =>
    intro a ha
    by_cases hap : a = p
    · rw [hap, Function.update_self]
      exact (h.own p List.mem_cons_self).symm
    · rw [Function.update_of_ne hap]
      exact h.others a fun hmem => (List.mem_cons.mp hmem).elim hap ha
  case own => exact fun a ha => h.own a (List.mem_cons_of_mem _ ha)

end Chain

end Nachos.LinkedCells
