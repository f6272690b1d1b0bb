import Nachos.KeyedInsert
import Nachos.LinkedList

/-! The linked list keeps its representation and behaves as a plain sequence; used with
`SortedInsert` and `SortedRemove` alone it is a priority queue that is first in, first out among
equal keys. -/
namespace Nachos.LinkedList
open LinkedCells

variable {Ptr Item : Type} [DecidableEq Ptr]

/-- The pointers `first` and `last` of the list and the elements between them. -/
abbrev Represents (outside : Ptr → Option (ListElement Ptr Item)) (s : State Ptr Item)
    (ns : List (Ptr × ListElement Ptr Item)) : Prop :=
  Chain ListElement.next outside s.heap s.first s.last ns

def contents (ns : List (Ptr × ListElement Ptr Item)) : List (Item × ℤ) :=
  ns.map fun n => (n.2.item, n.2.key)

variable {s : State Ptr Item} {outside : Ptr → Option (ListElement Ptr Item)}
  {ns ms : List (Ptr × ListElement Ptr Item)} {p q : Ptr} {c : ListElement Ptr Item}
  (item : Item) (sortKey : ℤ)

omit [DecidableEq Ptr] in
theorem contents_append : contents (ns ++ ms) = contents ns ++ contents ms := List.map_append

omit [DecidableEq Ptr] in
@[simp] theorem contents_cons : contents ((p, c) :: ns) = (c.item, c.key) :: contents ns := rfl

theorem setNext_eq {e : ListElement Ptr Item} (h : s.heap p = some e) (next : Option Ptr) :
    s.setNext (some p) next =
      some { s with heap := Function.update s.heap p (some { e with next := next }) } := by
  simp [State.setNext, h]

theorem newNode_setNext (next : Option Ptr) :
    (s.newNode q item sortKey).setNext (some q) next =
      some { s with heap := Function.update s.heap q (some ⟨next, sortKey, item⟩) } := by
  have hq : (s.newNode q item sortKey).heap q = some ⟨none, sortKey, item⟩ := by
    simp [State.newNode]
  rw [setNext_eq hq]
  simp [State.newNode]

theorem newNode_heap (h : s.heap p = some c) (hq : s.heap q = none) :
    (s.newNode q item sortKey).heap p = some c := by
  have hne : p ≠ q := by
    rintro rfl
    rw [h] at hq
    cases hq
  simp [State.newNode, Function.update_of_ne hne, h]

omit [DecidableEq Ptr] in
theorem isEmpty_iff (h : Represents outside s ns) : s.isEmpty = true ↔ ns = [] := by
  rw [State.isEmpty, Option.isNone_iff_eq_none, h.first_eq_none]

theorem single_represents (h : Represents outside s []) (hq : s.heap q = none) :
    Represents outside { s.newNode q item sortKey with first := some q, last := some q }
      [(q, ⟨none, sortKey, item⟩)] := by
  have hcons := h.cons (d := ⟨none, sortKey, item⟩) hq h.first_eq.symm
  have hlast : s.last = none := h.last_eq
  rw [hlast] at hcons
  exact hcons

theorem front_represents (h : Represents outside s ns) (hne : ns ≠ []) (hq : s.heap q = none) :
    Represents outside
      { s with
        heap := Function.update s.heap q (some ⟨s.first, sortKey, item⟩)
        first := some q } ((q, ⟨s.first, sortKey, item⟩) :: ns) := by
  have hcons := h.cons (d := ⟨s.first, sortKey, item⟩) hq rfl
  obtain ⟨l, hl⟩ : ∃ l, s.last = some l := by
    rw [h.last_eq, List.getLast?_eq_some_getLast hne]
    exact ⟨_, rfl⟩
  rw [hl] at hcons
  unfold Represents
  rw [hl]
  exact hcons

theorem setLast_represents (h : Represents outside s ns) (hne : ns ≠ []) (hq : s.heap q = none) :
    ∃ s' ns', (s.newNode q item sortKey).setNext s.last (some q) = some s' ∧
      Represents outside { s' with last := some q } ns' ∧
      contents ns' = contents ns ++ [(item, sortKey)] := by
  obtain ⟨ns, ⟨p, c⟩, rfl⟩ := ns.eq_nil_or_concat'.resolve_left hne
  have hp := newNode_heap item sortKey h.linked.heap_eq hq
  have hlast : s.last = some p := by
    rw [h.last_eq]
    simp
  rw [hlast]
  have hcell := h.insertAfter (d := ⟨none, sortKey, item⟩) (e := { c with next := some q })
    (l := some q) hq h.linked.next_eq.symm rfl rfl
  exact ⟨_, _, setNext_eq hp _, hcell, by simp [contents]⟩

theorem between_represents (h : Represents outside s (ns ++ (p, c) :: ms)) (hne : ms ≠ [])
    (hq : s.heap q = none) :
    ∃ s' : State Ptr Item, ((s.newNode q item sortKey).setNext (some q) c.next).bind
        (fun s => s.setNext (some p) (some q)) = some s' ∧
      Represents outside s'
        (ns ++ (p, { c with next := some q }) :: (q, ⟨c.next, sortKey, item⟩) :: ms) := by
  have hcell := h.insertAfter (d := ⟨c.next, sortKey, item⟩) (e := { c with next := some q })
    (l := s.last) hq rfl rfl (if_neg hne).symm
  have hpq : p ≠ q := fun he => h.fresh hq (by simp [he])
  have hp : (Function.update s.heap q (some ⟨c.next, sortKey, item⟩)) p = some c := by
    rw [Function.update_of_ne hpq]
    exact h.linked.heap_eq
  refine ⟨{ s with heap := _ }, ?_, hcell⟩
  rw [newNode_setNext, Option.bind_some]
  exact setNext_eq hp _

theorem append_represents (h : Represents outside s ns) (hq : s.heap q = none) :
    ∃ s' ns', s.append q item = some s' ∧ Represents outside s' ns' ∧
      contents ns' = contents ns ++ [(item, 0)] := by
  by_cases hns : ns = []
  · subst hns
    have hempty := (isEmpty_iff h).mpr rfl
    exact ⟨_, _, if_pos hempty, single_represents _ _ h hq, rfl⟩
  · have hfull := mt (isEmpty_iff h).mp hns
    obtain ⟨s', ns', hset, hchain, hcontents⟩ := setLast_represents item 0 h hns hq
    refine ⟨_, ns', (if_neg hfull).trans ?_, hchain, hcontents⟩
    simp only [State.newNode] at hset ⊢
    rw [hset]
    rfl

theorem prepend_represents (h : Represents outside s ns) (hq : s.heap q = none) :
    ∃ s' ns', s.prepend q item = some s' ∧ Represents outside s' ns' ∧
      contents ns' = (item, 0) :: contents ns := by
  by_cases hns : ns = []
  · subst hns
    have hempty := (isEmpty_iff h).mpr rfl
    exact ⟨_, _, if_pos hempty, single_represents _ _ h hq, rfl⟩
  · have hfull := mt (isEmpty_iff h).mp hns
    refine ⟨_, _, (if_neg hfull).trans ?_, front_represents _ _ h hns hq, rfl⟩
    have hset := newNode_setNext (s := s) (q := q) item 0 s.first
    simp only [State.newNode] at hset ⊢
    rw [hset]
    rfl

/-- The search from an element whose key, like those before it, is not greater. -/
theorem insertFrom_represents (h : Represents outside s (ns ++ (p, c) :: ms))
    (hq : s.heap q = none) (hle : ∀ x ∈ contents (ns ++ [(p, c)]), ¬ sortKey < x.2) {fuel : ℕ}
    (hf : ms.length < fuel) :
    ∃ s' ns', (s.newNode q item sortKey).insertFrom q sortKey fuel (some p) = some s' ∧
      Represents outside s' ns' ∧
      contents ns' = plainInsert (item, sortKey) (contents (ns ++ (p, c) :: ms)) := by
  induction ms generalizing ns p c fuel with
  | nil =>
    obtain ⟨fuel, rfl⟩ := Nat.exists_eq_add_one_of_ne_zero (Nat.ne_zero_of_lt hf)
    have hp := newNode_heap item sortKey h.linked.heap_eq hq
    have hnext : c.next = none := h.linked.next_eq
    obtain ⟨s', ns', hset, hchain, hcontents⟩ :=
      setLast_represents item sortKey h (by simp) hq
    refine ⟨_, ns', ?_, hchain, ?_⟩
    · simp only [State.newNode] at hp hset
      simp [State.insertFrom, State.newNode, State.deref, hp, hnext, hset]
    · have hsplit := KeyedInsert.insert_append Prod.snd (x := (item, sortKey)) hle []
      rw [List.append_nil] at hsplit
      rw [hcontents, plainInsert, hsplit]
      rfl
  | cons m ms ih =>
    obtain ⟨p', c'⟩ := m
    obtain ⟨fuel, rfl⟩ := Nat.exists_eq_add_one_of_ne_zero (Nat.ne_zero_of_lt hf)
    have h' : Represents outside s ((ns ++ [(p, c)]) ++ (p', c') :: ms) := by simpa using h
    have hp := newNode_heap item sortKey h.linked.heap_eq hq
    have hp' := newNode_heap item sortKey h'.linked.heap_eq hq
    have hnext : c.next = some p' := h.linked.next_eq
    by_cases hlt : sortKey < c'.key
    · obtain ⟨s', hset, hchain⟩ := between_represents item sortKey h (List.cons_ne_nil _ _) hq
      refine ⟨s', _, ?_, hchain, ?_⟩
      · simp only [State.insertFrom, State.deref, Option.bind_some, hp, hp', hnext, hlt,
          Option.bind_eq_bind, ne_eq, reduceCtorEq, not_false_eq_true, if_true] at hset ⊢
        exact hset
      · have hfront := KeyedInsert.insert_cons_of_lt Prod.snd (x := (item, sortKey))
          (y := (c'.item, c'.key)) (l := contents ms) hlt
        have hsplit := KeyedInsert.insert_append Prod.snd (x := (item, sortKey)) hle
          (contents ((p', c') :: ms))
        rw [contents_cons, hfront] at hsplit
        simp only [contents_append, contents_cons, List.append_assoc, plainInsert] at hsplit ⊢
        exact hsplit.symm
    · have hle' : ∀ x ∈ contents ((ns ++ [(p, c)]) ++ [(p', c')]), ¬ sortKey < x.2 := by
        intro x hx
        rw [contents_append] at hx
        obtain hx | hx := List.mem_append.mp hx
        · exact hle x hx
        · rw [List.mem_singleton.mp hx]
          exact hlt
      obtain ⟨s', ns', hrun, hchain, hcontents⟩ := ih h' hle' (Nat.lt_of_succ_lt_succ hf)
      refine ⟨s', ns', ?_, hchain, by simpa using hcontents⟩
      simp only [State.insertFrom, State.deref, Option.bind_some, hp, hp', hnext, hlt,
        Option.bind_eq_bind, ne_eq, reduceCtorEq, not_false_eq_true, if_true, if_false]
      exact hrun

theorem sortedInsert_represents (h : Represents outside s ns) (hq : s.heap q = none) {fuel : ℕ}
    (hf : ns.length ≤ fuel) :
    ∃ s' ns', s.sortedInsert fuel q item sortKey = some s' ∧ Represents outside s' ns' ∧
      contents ns' = plainInsert (item, sortKey) (contents ns) := by
  cases ns with
  | nil =>
    have hempty := (isEmpty_iff h).mpr rfl
    exact ⟨_, _, if_pos hempty, single_represents _ _ h hq, rfl⟩
  | cons n ns =>
    obtain ⟨p, c⟩ := n
    have hfull := mt (isEmpty_iff h).mp (List.cons_ne_nil _ _)
    have hp := newNode_heap item sortKey h.linked.1 hq
    have hfirst : s.first = some p := h.first_eq
    have hstep : s.sortedInsert fuel q item sortKey =
        if sortKey < c.key then
          ((s.newNode q item sortKey).setNext (some q) s.first).bind
            fun s => some { s with first := some q }
        else (s.newNode q item sortKey).insertFrom q sortKey fuel s.first := by
      have hderef : (s.newNode q item sortKey).deref s.first = some c := by
        rw [hfirst]
        exact hp
      refine (if_neg hfull).trans ?_
      refine (congrArg (Option.bind · _) hderef).trans ?_
      rfl
    rw [hstep]
    split_ifs with hlt
    · refine ⟨_, _, ?_, front_represents item sortKey h (List.cons_ne_nil _ _) hq, ?_⟩
      · rw [newNode_setNext]
        rfl
      · exact (KeyedInsert.insert_cons_of_lt Prod.snd hlt).symm
    · rw [hfirst]
      have h' : Represents outside s ([] ++ (p, c) :: ns) := h
      refine insertFrom_represents item sortKey h' hq ?_ hf
      intro x hx
      rw [List.mem_singleton.mp hx]
      exact hlt

theorem sortedRemove_nil [Inhabited Item] (h : Represents outside s []) (keyPtr : Option ℤ) :
    s.sortedRemove keyPtr = some (s, default, keyPtr) :=
  if_pos ((isEmpty_iff h).mpr rfl)

theorem sortedRemove_cons [Inhabited Item] (h : Represents outside s ((p, c) :: ns))
    (keyPtr : Option ℤ) :
    ∃ s', s.sortedRemove keyPtr = some (s', c.item, keyPtr.map fun _ => c.key) ∧
      Represents outside s' ns := by
  have hfull := mt (isEmpty_iff h).mp (List.cons_ne_nil _ _)
  have hfirst : s.first = some p := h.first_eq
  have hp : s.heap p = some c := h.linked.1
  have hderef : s.deref s.first = some c := by
    rw [hfirst]
    exact hp
  have hkey : (if keyPtr ≠ none then some c.key else none) = keyPtr.map fun _ => c.key := by
    cases keyPtr <;> rfl
  have hread (first last : Option Ptr) :
      (⟨s.heap, first, last⟩ : State Ptr Item).deref s.first = some c := hderef
  have hdelete (first last : Option Ptr) :
      (⟨s.heap, first, last⟩ : State Ptr Item).delete s.first =
        some ⟨Function.update s.heap p none, first, last⟩ := by
    simp [State.delete, hfirst, hp]
  have htail := h.tail
  by_cases hns : ns = []
  · refine ⟨⟨Function.update s.heap p none, none, none⟩, ?_, ?_⟩
    · have hsingle := h.first_eq_last_iff.mpr hns
      simp only [State.sortedRemove, if_neg hfull, hderef, if_pos hsingle, Option.bind_eq_bind,
        Option.bind_some, hread, hdelete, hkey]
    · have hnext : c.next = none := htail.first_eq.trans (by rw [hns]; rfl)
      rw [if_pos hns, hnext] at htail
      exact htail
  · refine ⟨⟨Function.update s.heap p none, c.next, s.last⟩, ?_, ?_⟩
    · have hmore := mt h.first_eq_last_iff.mp hns
      simp only [State.sortedRemove, if_neg hfull, hderef, if_neg hmore, Option.bind_eq_bind,
        Option.bind_some, hread, hdelete, hkey]
    · rw [if_neg hns] at htail
      exact htail

variable [Inhabited Item]

/-- A call keeps the representation and does what it does on the plain sequence. -/
theorem call_represents (h : Represents outside s ns) {call : Call Item}
    (hq : call.allocates → s.heap q = none) {fuel : ℕ} (hf : ns.length ≤ fuel) :
    ∃ s' ns', s.call fuel q call = some (s', (plainCall (contents ns) call).2) ∧
      Represents outside s' ns' ∧ contents ns' = (plainCall (contents ns) call).1 := by
  cases call with
  | prepend item =>
    obtain ⟨s', ns', hs, hr, hc⟩ := prepend_represents item h (hq rfl)
    exact ⟨s', ns', by rw [State.call, hs]; rfl, hr, hc⟩
  | append item =>
    obtain ⟨s', ns', hs, hr, hc⟩ := append_represents item h (hq rfl)
    exact ⟨s', ns', by rw [State.call, hs]; rfl, hr, hc⟩
  | sortedInsert item sortKey =>
    obtain ⟨s', ns', hs, hr, hc⟩ := sortedInsert_represents item sortKey h (hq rfl) hf
    exact ⟨s', ns', by rw [State.call, hs]; rfl, hr, hc⟩
  | remove =>
    cases ns with
    | nil => exact ⟨s, [], by rw [State.call, State.remove, sortedRemove_nil h]; rfl, h, rfl⟩
    | cons n ns =>
      obtain ⟨s', hs, hr⟩ := sortedRemove_cons h none
      exact ⟨s', ns, by rw [State.call, State.remove, hs]; rfl, hr, rfl⟩
  | sortedRemove keyPtr =>
    cases ns with
    | nil => exact ⟨s, [], by rw [State.call, sortedRemove_nil h]; rfl, h, rfl⟩
    | cons n ns =>
      obtain ⟨s', hs, hr⟩ := sortedRemove_cons h keyPtr
      exact ⟨s', ns, by rw [State.call, hs]; rfl, hr, rfl⟩

omit [DecidableEq Ptr] [Inhabited Item] in
theorem length_contents : (contents ns).length = ns.length := List.length_map _

theorem length_plainCall (xs : List (Item × ℤ)) (call : Call Item) :
    (plainCall xs call).1.length ≤ xs.length + 1 := by
  cases call with
  | prepend item => exact le_rfl
  | append item => simp [plainCall]
  | remove => simp [plainCall]; omega
  | sortedInsert item sortKey => simp [plainCall, plainInsert, List.orderedInsert_length]
  | sortedRemove keyPtr => cases xs <;> simp [plainCall]; omega

def Ready (outside : Ptr → Option (ListElement Ptr Item)) (fuel : ℕ)
    (calls : List (Call Item × Ptr)) (s : State Ptr Item) (xs : List (Item × ℤ)) : Prop :=
  ∃ ns, Represents outside s ns ∧ contents ns = xs ∧ ns.length + calls.length ≤ fuel ∧
    NewFresh fuel calls s

theorem call_ready {fuel : ℕ} (c : Call Item × Ptr) (calls : List (Call Item × Ptr))
    (s : State Ptr Item) (xs : List (Item × ℤ)) (h : Ready outside fuel (c :: calls) s xs) :
    ∃ s', s.call fuel c.2 c.1 = some (s', (plainCall xs c.1).2) ∧
      Ready outside fuel calls s' (plainCall xs c.1).1 := by
  obtain ⟨ns, hr, rfl, hf, hnew⟩ := h
  obtain ⟨call, element⟩ := c
  rw [List.length_cons] at hf
  obtain ⟨s', ns', hs, hr', hc⟩ := call_represents hr hnew.1 (by omega : ns.length ≤ fuel)
  refine ⟨s', hs, ns', hr', hc, ?_, ?_⟩
  · have hplain := length_plainCall (contents ns) call
    rw [← hc, length_contents, length_contents] at hplain
    omega
  · have hrest := hnew.2
    rw [hs] at hrest
    exact hrest

theorem run_represents (h : Represents outside s ns) {calls : List (Call Item × Ptr)} {fuel : ℕ}
    (hf : ns.length + calls.length ≤ fuel) (hnew : NewFresh fuel calls s) :
    ∃ s' ns', run fuel calls s =
        some (s', (plainRun (calls.map Prod.fst) (contents ns)).2) ∧ Represents outside s' ns' ∧
      contents ns' = (plainRun (calls.map Prod.fst) (contents ns)).1 := by
  have hready : Ready outside fuel calls s (contents ns) := ⟨ns, h, rfl, hf, hnew⟩
  obtain ⟨s', hrun, ns', hr, hc, -⟩ := CallRuns.run_simulates
    (fun s c => s.call fuel c.2 c.1) (fun xs c => plainCall xs c.1) (Ready outside fuel)
    call_ready hready
  rw [CallRuns.plainRun_map plainCall Prod.fst] at hrun hc
  exact ⟨s', ns', hrun, hr, hc⟩

def Call.isSorted : Call Item → Bool
  | .sortedInsert _ _ | .sortedRemove _ => true
  | .prepend _ | .append _ | .remove => false

/-- The items put on the list by `SortedInsert`, in the order of the calls. -/
def inserted (calls : List (Call Item)) : List (Item × ℤ) :=
  calls.filterMap fun
    | .sortedInsert item sortKey => some (item, sortKey)
    | _ => none

theorem plainRun_sorted {calls : List (Call Item)} (h : ∀ call ∈ calls, call.isSorted)
    {xs : List (Item × ℤ)} (hs : xs.Pairwise (·.2 ≤ ·.2)) :
    (plainRun calls xs).1.Pairwise (·.2 ≤ ·.2) ∧
      ∀ k, (plainRun calls xs).1.filter (·.2 = k) <:+
        (xs ++ inserted calls).filter (·.2 = k) := by
  induction calls generalizing xs with
  | nil => exact ⟨hs, fun k => by simp [plainRun, CallRuns.plainRun, inserted]⟩
  | cons call calls ih =>
    have hrest : ∀ call ∈ calls, call.isSorted := fun d hd => h d (List.mem_cons_of_mem call hd)
    cases call with
    | sortedInsert item sortKey =>
      obtain ⟨hsorted, hsuffix⟩ := ih hrest (KeyedInsert.pairwise_insert Prod.snd hs)
      refine ⟨hsorted, fun k => (hsuffix k).trans ?_⟩
      rw [List.filter_append, KeyedInsert.filter_insert Prod.snd hs, ← List.filter_append,
        List.append_assoc]
      exact List.suffix_rfl
    | sortedRemove keyPtr =>
      cases xs with
      | nil => exact ih hrest hs
      | cons x xs =>
        obtain ⟨hsorted, hsuffix⟩ := ih hrest (List.pairwise_cons.mp hs).2
        exact ⟨hsorted, fun k => (hsuffix k).trans ((List.suffix_cons x _).filter _)⟩
    | prepend item => exact absurd (h _ List.mem_cons_self) (by simp [Call.isSorted])
    | append item => exact absurd (h _ List.mem_cons_self) (by simp [Call.isSorted])
    | remove => exact absurd (h _ List.mem_cons_self) (by simp [Call.isSorted])

/-- Every sequence of calls on a new list. -/
theorem list_refines (heap : Ptr → Option (ListElement Ptr Item))
    (calls : List (Call Item × Ptr)) {fuel : ℕ} (hf : calls.length ≤ fuel)
    (hnew : NewFresh fuel calls (State.new heap)) :
    ∃ s ns results, run fuel calls (State.new heap) = some (s, results) ∧
      Represents heap s ns ∧ (s.first = none ↔ ns = []) ∧
      (contents ns, results) = plainRun (calls.map Prod.fst) [] ∧
      ((∀ c ∈ calls, c.1.isSorted) → (contents ns).Pairwise (·.2 ≤ ·.2) ∧
        (∀ k, (contents ns).filter (·.2 = k) <:+
          (inserted (calls.map Prod.fst)).filter (·.2 = k)) ∧
        (ns ≠ [] → ∀ keyPtr element, ∃ s' x, x ∈ contents ns ∧ (∀ y ∈ contents ns, x.2 ≤ y.2) ∧
          s.call fuel element (.sortedRemove keyPtr) =
            some (s', some (x.1, keyPtr.map fun _ => x.2)))) := by
  obtain ⟨s, ns, hrun, hr, hc⟩ :=
    run_represents (Chain.empty heap) (by simpa using hf) hnew
  refine ⟨s, ns, _, hrun, hr, hr.first_eq_none, Prod.ext hc rfl, ?_⟩
  intro hsorted
  have hcalls : ∀ call ∈ calls.map Prod.fst, call.isSorted := by
    intro call hcall
    obtain ⟨c, hmem, rfl⟩ := List.mem_map.mp hcall
    exact hsorted c hmem
  have hempty : ([] : List (Item × ℤ)).Pairwise (·.2 ≤ ·.2) := List.Pairwise.nil
  obtain ⟨hpairwise, hsuffix⟩ := plainRun_sorted hcalls hempty
  have hplain : contents ns = (plainRun (calls.map Prod.fst) []).1 := hc
  rw [← hplain] at hpairwise hsuffix
  refine ⟨hpairwise, hsuffix, fun hne keyPtr element => ?_⟩
  cases ns with
  | nil => exact absurd rfl hne
  | cons n ns =>
    obtain ⟨p, c⟩ := n
    obtain ⟨s', hs, -⟩ := sortedRemove_cons hr keyPtr
    refine ⟨s', (c.item, c.key), List.mem_cons_self, ?_, ?_⟩
    · intro y hy
      obtain rfl | hy := List.mem_cons.mp hy
      · exact le_rfl
      · exact (List.pairwise_cons.mp hpairwise).1 y hy
    · rw [State.call, hs]
      rfl

/-- Insertions at the front, in the middle and at the end, and removals down to the empty list. -/
def queueCalls : List (Call ℕ × ℕ) :=
  [(.sortedInsert 1 5, 0), (.sortedInsert 2 5, 1), (.sortedInsert 3 2, 2), (.sortedInsert 4 7, 3),
    (.sortedRemove (some 0), 9), (.sortedInsert 5 5, 2), (.sortedRemove none, 9)]

theorem list_refines_queue : ∃ s ns results,
    run 7 queueCalls (State.new fun _ => none) = some (s, results) ∧
      contents ns = [(2, 5), (5, 5), (4, 7)] ∧ Represents (fun _ => none) s ns ∧
      results = [none, none, none, none, some (3, some 2), none, some (1, none)] := by
  have hnew : NewFresh 7 queueCalls (State.new fun _ => none) :=
    ⟨fun _ => rfl, fun _ => rfl, fun _ => rfl, fun _ => rfl, nofun, fun _ => rfl, nofun, trivial⟩
  obtain ⟨s, ns, results, hrun, hr, -, hplain, -⟩ :=
    list_refines (fun _ => none) queueCalls (by decide) hnew
  have hvalue : plainRun (queueCalls.map Prod.fst) [] = ([(2, 5), (5, 5), (4, 7)],
    [none, none, none, none, some (3, some 2), none, some (1, none)]) := by decide
  rw [hvalue] at hplain
  exact ⟨s, ns, results, hrun, congrArg Prod.fst hplain, hr, congrArg Prod.snd hplain⟩

end Nachos.LinkedList
