import Nachos.HandleTables
import Nachos.SemaphoreCorrect

/-! The semaphores of user programs (`exception.cc`, `semTabla.cc`) under every schedule. A call
looks its semaphore up and runs the first round of `P`, or `V`, in one step: threads switch only
where interrupts are enabled again, at the end of `P` and `V` and in `Sleep`. A semaphore is
never deleted, so each new one has an address of its own. The counters beside the semaphore are
not in the source. -/
namespace Nachos.UserSemaphores
open SemaphoreRun (places_update places_update_same ncard_sub_one_le)

/-- Where a thread is: in user code, asleep in `P`, removed from the queue by a `V`, or behind the
end of `P` or `V` and not back in user code. -/
inductive Place where
  | user
  | asleep (sem : ℤ)
  | woken (sem : ℤ)
  | waited (sem : ℤ)
  | signalled (sem : ℤ)
  deriving DecidableEq, Repr

/-- A semaphore with the number of its completed `P` and `V`, and of the calls that returned 1. -/
structure Entry (T : Type) where
  sem : Semaphore T
  initval : ℤ
  passed : ℕ
  raised : ℕ
  waits : ℕ
  signals : ℕ
  deriving DecidableEq, Repr

structure State (T : Type) where
  smt : SemTabla
  heap : ℤ → Option (Entry T)
  place : T → Place

inductive Event (T : Type) where
  | semCreate (t : T) (initval sem : ℤ)
  | semDestroy (t : T) (id : ℤ)
  | semSignal (t : T) (id : ℤ)
  | semWait (t : T) (id : ℤ)
  | resume (t : T)
  | back (t : T)

variable {T : Type}

def Entry.new (initval : ℤ) : Entry T := ⟨⟨initval, []⟩, initval, 0, 0, 0, 0⟩

namespace State

def semCreate (s : State T) (initval sem : ℤ) : Option (State T) :=
  if sem ≠ -1 ∧ s.heap sem = none then
    match s.smt.create sem with
    | .ok (_, smt) =>
      some { s with smt := smt, heap := Function.update s.heap sem (some (.new initval)) }
    | .error _ => none
  else none

def semDestroy (s : State T) (id : ℤ) : Option (State T) :=
  match SemTabla.close s.smt id with
  | .ok (_, smt) => some { s with smt := smt }
  | .error _ => none

variable [DecidableEq T]

def v (s : State T) (t : T) (sem : ℤ) : Option (State T) :=
  match s.heap sem with
  | none => none
  | some e =>
    let place := match e.sem.queue with
      | [] => s.place
      | u :: _ => Function.update s.place u (.woken sem)
    some { s with
      heap := Function.update s.heap sem (some { e with sem := e.sem.v, raised := e.raised + 1 })
      place := Function.update place t (.signalled sem) }

def p (s : State T) (t : T) (sem : ℤ) : Option (State T) :=
  match s.heap sem with
  | none => none
  | some e =>
    match e.sem.p t with
    | none => none
    | some (q, false) =>
      some { s with
        heap := Function.update s.heap sem (some { e with sem := q })
        place := Function.update s.place t (.asleep sem) }
    | some (q, true) =>
      some { s with
        heap := Function.update s.heap sem (some { e with sem := q, passed := e.passed + 1 })
        place := Function.update s.place t (.waited sem) }

/-- `SemSignal` and `SemWait` up to their operation; an id that is not in use returns -1. -/
def onSemaphore (s : State T) (op : ℤ → Option (State T)) (id : ℤ) : Option (State T) :=
  match s.smt.getSemaphore id with
  | .ok idReal => if idReal = -1 then some s else op idReal
  | .error _ => none

def back (s : State T) (t : T) : Option (State T) :=
  match s.place t with
  | .waited sem => (s.heap sem).map fun e => { s with
      heap := Function.update s.heap sem (some { e with waits := e.waits + 1 })
      place := Function.update s.place t .user }
  | .signalled sem => (s.heap sem).map fun e => { s with
      heap := Function.update s.heap sem (some { e with signals := e.signals + 1 })
      place := Function.update s.place t .user }
  | _ => none

def resume (s : State T) (t : T) : Option (State T) :=
  match s.place t with
  | .woken sem => s.p t sem
  | _ => none

/-- A thread that calls is in user code. -/
def step (s : State T) : Event T → Option (State T)
  | .semCreate t initval sem => if s.place t = .user then s.semCreate initval sem else none
  | .semDestroy t id => if s.place t = .user then s.semDestroy id else none
  | .semSignal t id => if s.place t = .user then s.onSemaphore (s.v t) id else none
  | .semWait t id => if s.place t = .user then s.onSemaphore (s.p t) id else none
  | .resume t => s.resume t
  | .back t => s.back t

def new (T : Type) (usage : ℤ) : State T := ⟨.new usage, fun _ => none, fun _ => .user⟩

def Init (s : State T) : Prop := ∃ usage, s = new T usage

def Step (s s' : State T) : Prop := ∃ e, s.step e = some s'

def threadsAt (s : State T) (q : Place) : Set T := {t | s.place t = q}

end State

open State

variable [DecidableEq T]

theorem finite_update {place : T → Place} {q : Place} (t : T) (r : Place)
    (h : {u | place u = q}.Finite) : {u | Function.update place t r u = q}.Finite := by
  refine (h.insert t).subset fun u hu => ?_
  by_cases hut : u = t
  · exact .inl hut
  · rw [Set.mem_ofPred_eq, Function.update_of_ne hut] at hu
    exact .inr hu

theorem places_update_other {place : T → Place} {q r : Place} {t : T} (ht : place t ≠ q)
    (hr : r ≠ q) : {u | Function.update place t r u = q} = {u | place u = q} := by
  rw [places_update _ _ hr, Set.sdiff_singleton_eq_self]
  exact ht

def Place.pending : Place → Option ℤ
  | .waited sem => some sem
  | .signalled sem => some sem
  | _ => none

/-- The value counts the units; `m` calls of `SemWait` and `n` of `SemSignal` have yet to return. -/
structure Entry.Counts (e : Entry T) (m n : ℕ) : Prop where
  value_eq : e.sem.value = e.initval + e.raised - e.passed
  nonneg : 0 ≤ e.initval → 0 ≤ e.sem.value
  passed_eq : e.passed = e.waits + m
  raised_eq : e.raised = e.signals + n

structure Inv (s : State T) : Prop where
  table : ∀ id sem, s.smt.binding id = some sem → sem ≠ -1 ∧ (s.heap sem).isSome
  asleep_iff : ∀ t sem, s.place t = .asleep sem ↔ ∃ e, s.heap sem = some e ∧ t ∈ e.sem.queue
  nodup : ∀ sem e, s.heap sem = some e → e.sem.queue.Nodup
  allocated : ∀ t sem, (s.place t).pending = some sem → (s.heap sem).isSome
  finite : ∀ q, q ≠ .user → (s.threadsAt q).Finite
  counts : ∀ sem e, s.heap sem = some e →
    e.Counts (s.threadsAt (.waited sem)).ncard (s.threadsAt (.signalled sem)).ncard

omit [DecidableEq T] in
theorem inv_new (usage : ℤ) : Inv (State.new T usage) where
  table id sem h := by
    rw [HandleTable.binding, HandleTable.holds] at h
    simp [State.new, SemTabla.new, BitMap.bit_empty] at h
  asleep_iff t sem := by simp [State.new]
  nodup sem e h := by cases h
  allocated t sem h := by cases h
  finite q hq := by
    have : (State.new T usage).threadsAt q = ∅ := by
      ext t
      exact ⟨fun h => hq h.symm, fun h => h.elim⟩
    rw [this]
    exact Set.finite_empty
  counts sem e h := by cases h

variable {s s' : State T} {t : T} {sem : ℤ} {e : Entry T}

omit [DecidableEq T] in
/-- What a change of one semaphore and of the places has to keep. -/
theorem Inv.change (h : Inv s) (he : s.heap sem = some e) {e' : Entry T} {place : T → Place}
    (hqueue : ∀ u, place u = .asleep sem ↔ u ∈ e'.sem.queue)
    (hasleep : ∀ u k, k ≠ sem → (place u = .asleep k ↔ s.place u = .asleep k))
    (hnodup : e'.sem.queue.Nodup) (hfinite : ∀ q, q ≠ .user → {u | place u = q}.Finite)
    (hpending : ∀ q k, q.pending = some k → k ≠ sem → {u | place u = q} = s.threadsAt q)
    (hcounts : e'.Counts {u | place u = .waited sem}.ncard {u | place u = .signalled sem}.ncard) :
    Inv { s with heap := Function.update s.heap sem (some e'), place := place } where
  table id k hk := by
    refine ⟨(h.table id k hk).1, ?_⟩
    dsimp only
    rw [Function.update_apply]
    split_ifs
    · rfl
    · exact (h.table id k hk).2
  asleep_iff u k := by
    dsimp only
    by_cases hk : k = sem
    · subst hk
      simp [hqueue]
    · rw [hasleep u k hk, h.asleep_iff, Function.update_of_ne hk]
  nodup k f hf := by
    dsimp only at hf
    by_cases hk : k = sem
    · subst hk
      rw [Function.update_self] at hf
      exact Option.some.inj hf ▸ hnodup
    · rw [Function.update_of_ne hk] at hf
      exact h.nodup k f hf
  allocated u k hu := by
    dsimp only
    by_cases hk : k = sem
    · subst hk
      simp
    · have hmem : u ∈ s.threadsAt (place u) := hpending _ k hu hk ▸ rfl
      rw [Function.update_of_ne hk]
      exact h.allocated u k (hmem.symm ▸ hu)
  finite := hfinite
  counts k f hf := by
    dsimp only at hf
    by_cases hk : k = sem
    · subst hk
      rw [Function.update_self] at hf
      exact Option.some.inj hf ▸ hcounts
    · rw [Function.update_of_ne hk] at hf
      rw [threadsAt, threadsAt, hpending _ k rfl hk, hpending _ k rfl hk]
      exact h.counts k f hf

omit [DecidableEq T] in
theorem semCreate_eq_some {initval : ℤ} (hs : s.semCreate initval sem = some s') :
    sem ≠ -1 ∧ s.heap sem = none ∧ ∃ space smt, s.smt.register sem = .ok (space, smt) ∧
      s' = { s with smt := smt, heap := Function.update s.heap sem (some (.new initval)) } := by
  unfold semCreate SemTabla.create at hs
  split_ifs at hs with hnew
  split at hs
  · exact ⟨hnew.1, hnew.2, _, _, by assumption, (Option.some.inj hs).symm⟩
  · cases hs

omit [DecidableEq T] in
theorem semDestroy_eq_some {id : ℤ} (hs : s.semDestroy id = some s') :
    s' = s ∨ ∃ smt, s' = { s with smt := smt } ∧ s.smt.usage = 0 ∧ s.smt.holds id = true ∧
      smt.binding = Function.update s.smt.binding id none := by
  unfold semDestroy at hs
  split at hs
  · rename_i ret smt hclose
    obtain rfl := Option.some.inj hs
    obtain ⟨-, rfl⟩ | ⟨-, hu, hh, hrel⟩ := SemTabla.close_cases hclose
    · exact .inl rfl
    · exact .inr ⟨smt, rfl, hu, hh, (HandleTable.release_binding hrel).2⟩
  · cases hs

theorem p_eq_some (hs : s.p t sem = some s') :
    ∃ e, s.heap sem = some e ∧ t ∉ e.sem.queue ∧
      ((e.sem.value = 0 ∧ s' = { s with
          heap := Function.update s.heap sem (some { e with
            sem := { e.sem with queue := e.sem.queue ++ [t] } })
          place := Function.update s.place t (.asleep sem) }) ∨
        (e.sem.value ≠ 0 ∧ s' = { s with
          heap := Function.update s.heap sem (some { e with
            sem := { e.sem with value := e.sem.value - 1 }
            passed := e.passed + 1 })
          place := Function.update s.place t (.waited sem) })) := by
  unfold State.p at hs
  split at hs
  · cases hs
  · rename_i e he
    refine ⟨e, he, ?_⟩
    split at hs
    · cases hs
    · rename_i q hp
      obtain ⟨ht, ⟨hv, -, rfl⟩ | ⟨-, hb, -⟩⟩ := Semaphore.p_eq_some hp
      · exact ⟨ht, .inl ⟨hv, (Option.some.inj hs).symm⟩⟩
      · cases hb
    · rename_i q hp
      obtain ⟨ht, ⟨-, hb, -⟩ | ⟨hv, -, rfl⟩⟩ := Semaphore.p_eq_some hp
      · cases hb
      · exact ⟨ht, .inr ⟨hv, (Option.some.inj hs).symm⟩⟩

theorem v_eq_some (hs : s.v t sem = some s') :
    ∃ e, s.heap sem = some e ∧
      ((e.sem.queue = [] ∧ s' = { s with
          heap := Function.update s.heap sem (some { e with
            sem := e.sem.v, raised := e.raised + 1 })
          place := Function.update s.place t (.signalled sem) }) ∨
        ∃ u us, e.sem.queue = u :: us ∧ s' = { s with
          heap := Function.update s.heap sem (some { e with
            sem := e.sem.v, raised := e.raised + 1 })
          place := Function.update (Function.update s.place u (.woken sem)) t
            (.signalled sem) }) := by
  unfold State.v at hs
  split at hs
  · cases hs
  · rename_i e he
    obtain rfl := Option.some.inj hs
    refine ⟨e, he, ?_⟩
    cases hq : e.sem.queue with
    | nil => exact .inl ⟨rfl, rfl⟩
    | cons u us => exact .inr ⟨u, us, rfl, rfl⟩

theorem back_eq_some (hs : s.back t = some s') :
    ∃ sem e, s.heap sem = some e ∧
      ((s.place t = .waited sem ∧ s' = { s with
          heap := Function.update s.heap sem (some { e with waits := e.waits + 1 })
          place := Function.update s.place t .user }) ∨
        (s.place t = .signalled sem ∧ s' = { s with
          heap := Function.update s.heap sem (some { e with signals := e.signals + 1 })
          place := Function.update s.place t .user })) := by
  unfold State.back at hs
  split at hs
  · rename_i sem hplace
    obtain ⟨e, he, rfl⟩ := Option.map_eq_some_iff.mp hs
    exact ⟨sem, e, he, .inl ⟨hplace, rfl⟩⟩
  · rename_i sem hplace
    obtain ⟨e, he, rfl⟩ := Option.map_eq_some_iff.mp hs
    exact ⟨sem, e, he, .inr ⟨hplace, rfl⟩⟩
  · cases hs

omit [DecidableEq T] in
theorem Inv.create (h : Inv s) {initval : ℤ} (hs : s.semCreate initval sem = some s') : Inv s' := by
  obtain ⟨hne, hfree, space, smt, hreg, rfl⟩ := semCreate_eq_some hs
  obtain ⟨-, -, -, hbind⟩ := HandleTable.register_binding hreg
  have hnone : ∀ u, s.place u ≠ .asleep sem := by
    intro u hu
    obtain ⟨e, he, -⟩ := (h.asleep_iff u sem).mp hu
    rw [hfree] at he
    cases he
  have hempty : ∀ q : Place, q.pending = some sem → (s.threadsAt q).ncard = 0 := by
    intro q hq
    have hnobody : s.threadsAt q = ∅ := by
      refine Set.eq_empty_of_forall_notMem fun u hu => ?_
      have := h.allocated u sem (hu.symm ▸ hq)
      rw [hfree] at this
      cases this
    rw [hnobody, Set.ncard_empty]
  constructor
  case table =>
    intro id k hk
    dsimp only at hk ⊢
    rw [hbind, Function.update_apply] at hk
    split_ifs at hk with hid
    · obtain rfl := Option.some.inj hk
      exact ⟨hne, by simp⟩
    · refine ⟨(h.table id k hk).1, ?_⟩
      rw [Function.update_apply]
      split_ifs
      · rfl
      · exact (h.table id k hk).2
  case asleep_iff =>
    intro u k
    dsimp only
    by_cases hk : k = sem
    · subst hk
      simp [hnone, Entry.new]
    · rw [Function.update_of_ne hk, h.asleep_iff]
  case nodup =>
    intro k f hf
    dsimp only at hf
    rw [Function.update_apply] at hf
    split_ifs at hf
    · exact Option.some.inj hf ▸ List.nodup_nil
    · exact h.nodup k f hf
  case allocated =>
    intro u k hu
    dsimp only
    rw [Function.update_apply]
    split_ifs
    · rfl
    · exact h.allocated u k hu
  case finite => exact h.finite
  case counts =>
    intro k f hf
    dsimp only at hf
    by_cases hk : k = sem
    · subst hk
      rw [Function.update_self] at hf
      obtain rfl := Option.some.inj hf
      refine ⟨by simp [Entry.new], fun h => h, ?_, ?_⟩
      · rw [Entry.new, Nat.zero_add]
        exact (hempty (.waited k) rfl).symm
      · rw [Entry.new, Nat.zero_add]
        exact (hempty (.signalled k) rfl).symm
    · rw [Function.update_of_ne hk] at hf
      exact h.counts k f hf

omit [DecidableEq T] in
theorem Inv.destroy (h : Inv s) {id : ℤ} (hs : s.semDestroy id = some s') : Inv s' := by
  obtain rfl | ⟨smt, rfl, -, -, hbind⟩ := semDestroy_eq_some hs
  · exact h
  · refine ⟨fun i k hk => ?_, h.asleep_iff, h.nodup, h.allocated, h.finite, h.counts⟩
    dsimp only at hk
    rw [hbind, Function.update_apply] at hk
    split_ifs at hk
    exact h.table i k hk

theorem Inv.move (h : Inv s) (he : s.heap sem = some e) {e' : Entry T} {q : Place}
    (ht : ∀ k, s.place t ≠ .asleep k) (hq : ∀ k, q ≠ .asleep k)
    (hqueue : e'.sem.queue = e.sem.queue)
    (hpending : ∀ k, k ≠ sem → (s.place t).pending ≠ some k ∧ q.pending ≠ some k)
    (hcounts : e'.Counts {u | Function.update s.place t q u = .waited sem}.ncard
      {u | Function.update s.place t q u = .signalled sem}.ncard) :
    Inv { s with
      heap := Function.update s.heap sem (some e')
      place := Function.update s.place t q } := by
  have hasleep : ∀ u k, Function.update s.place t q u = .asleep k ↔ s.place u = .asleep k := by
    intro u k
    by_cases hu : u = t
    · subst hu
      simp [ht k, hq k]
    · rw [Function.update_of_ne hu]
  refine h.change he (fun u => ?_) (fun u k _ => hasleep u k) ?_
    (fun r hr => finite_update t q (h.finite r hr)) (fun r k hr hk => ?_) hcounts
  · rw [hasleep, h.asleep_iff, hqueue]
    simp [he]
  · rw [hqueue]
    exact h.nodup sem e he
  · refine places_update_other ?_ ?_
    · rintro rfl
      exact (hpending k hk).1 hr
    · rintro rfl
      exact (hpending k hk).2 hr

theorem Inv.p (h : Inv s) (ht : s.place t = .user ∨ s.place t = .woken sem)
    (hs : s.p t sem = some s') : Inv s' := by
  have hpending : ∀ q : Place, q.pending ≠ none → s.place t ≠ q := by
    rintro q hq rfl
    obtain ht | ht := ht
    · exact hq (by rw [ht]; rfl)
    · exact hq (by rw [ht]; rfl)
  have hasleep : ∀ k, s.place t ≠ .asleep k := by
    intro k
    obtain ht | ht := ht <;> simp [ht]
  obtain ⟨e, he, hnot, ⟨hv, rfl⟩ | ⟨hv, rfl⟩⟩ := p_eq_some hs
  · refine h.change he (fun u => ?_) (fun u k hk => ?_) ?_
      (fun r hr => finite_update t _ (h.finite r hr)) (fun q k hq _ => ?_) ?_
    · by_cases hu : u = t
      · subst hu
        simp
      · rw [Function.update_of_ne hu, h.asleep_iff]
        simp [he, hu]
    · by_cases hu : u = t
      · subst hu
        rw [Function.update_self]
        exact iff_of_false (fun hk' => hk (Place.asleep.inj hk').symm) (hasleep k)
      · rw [Function.update_of_ne hu]
    · rw [List.nodup_append]
      refine ⟨h.nodup sem e he, List.nodup_singleton t, ?_⟩
      intro a ha b hb hab
      rw [List.mem_singleton] at hb
      exact hnot (hb ▸ hab ▸ ha)
    · refine places_update_other (hpending q (by simp [hq])) ?_
      rintro rfl
      cases hq
    · rw [places_update_other (hpending _ (by simp [Place.pending])) (by simp),
        places_update_other (hpending _ (by simp [Place.pending])) (by simp)]
      have hc := h.counts sem e he
      exact ⟨hc.value_eq, hc.nonneg, hc.passed_eq, hc.raised_eq⟩
  · refine h.move he hasleep (by simp) rfl (fun k hk => ⟨fun hk' => ?_, ?_⟩) ?_
    · exact hpending _ (by simp [hk']) rfl
    · exact fun hk' => hk (Option.some.inj hk').symm
    · have hwaited : t ∉ s.threadsAt (.waited sem) := hpending _ (by simp [Place.pending])
      rw [places_update_same, places_update_other (hpending _ (by simp [Place.pending])) (by simp)]
      have hcard := Set.ncard_insert_of_notMem hwaited (h.finite _ (by simp))
      rw [threadsAt] at hcard
      have hc := h.counts sem e he
      have hvalue := hc.value_eq
      have hpassed := hc.passed_eq
      rw [threadsAt] at hpassed
      refine ⟨?_, fun hn => ?_, ?_, hc.raised_eq⟩
      · dsimp only
        push_cast
        omega
      · have := hc.nonneg hn
        dsimp only
        omega
      · dsimp only
        omega

theorem Inv.v (h : Inv s) (ht : s.place t = .user) (hs : s.v t sem = some s') : Inv s' := by
  obtain ⟨e, he, hcase⟩ := v_eq_some hs
  have hc := h.counts sem e he
  have hcounts : ∀ m n, m = (s.threadsAt (.waited sem)).ncard →
      n = (s.threadsAt (.signalled sem)).ncard + 1 →
      Entry.Counts { e with sem := e.sem.v, raised := e.raised + 1 } m n := by
    rintro m n rfl rfl
    have hvalue := hc.value_eq
    have hraised := hc.raised_eq
    refine ⟨?_, fun hn => ?_, hc.passed_eq, ?_⟩
    · simp only [Semaphore.v_value]
      push_cast
      omega
    · have := hc.nonneg hn
      simp only [Semaphore.v_value]
      omega
    · dsimp only
      omega
  have hfin : ∀ k, (s.threadsAt (.signalled k)).Finite := fun k => h.finite _ (by simp)
  obtain ⟨hq, rfl⟩ | ⟨u, us, hq, rfl⟩ := hcase
  · refine h.move he (by simp [ht]) (by simp) (by simp [hq])
      (fun k hk => ⟨by simp [ht, Place.pending], fun hk' => hk (Option.some.inj hk').symm⟩)
      (hcounts _ _ ?_ ?_)
    · rw [places_update_other (by simp [ht]) (by simp)]
      rfl
    · rw [places_update_same]
      exact Set.ncard_insert_of_notMem (by simp [ht]) (hfin sem)
  · have hu : s.place u = .asleep sem := (h.asleep_iff u sem).mpr ⟨e, he, by simp [hq]⟩
    have hut : u ≠ t := by
      rintro rfl
      rw [hu] at ht
      cases ht
    have hnodup := h.nodup sem e he
    rw [hq, List.nodup_cons] at hnodup
    have hwoken : ∀ q : Place, q.pending ≠ none →
        {x | Function.update s.place u (.woken sem) x = q} = s.threadsAt q := by
      intro q hq
      refine places_update_other ?_ ?_
      · rintro rfl
        exact hq (by rw [hu]; rfl)
      · rintro rfl
        exact hq rfl
    have htu : Function.update s.place u (.woken sem) t = .user := by
      rw [Function.update_of_ne hut.symm, ht]
    refine h.change he (fun x => ?_) (fun x k hk => ?_) (by simpa [hq] using hnodup.2)
      (fun r hr => finite_update t _ (finite_update u _ (h.finite r hr))) (fun q k hq hk => ?_)
      (hcounts _ _ ?_ ?_)
    · by_cases hxt : x = t
      · subst hxt
        have hx : x ∉ us := fun hx => by
          have := (h.asleep_iff x sem).mpr ⟨e, he, by simp [hq, hx]⟩
          rw [ht] at this
          cases this
        simp [hq, hx]
      · rw [Function.update_of_ne hxt]
        by_cases hxu : x = u
        · subst hxu
          simpa [hq] using hnodup.1
        · rw [Function.update_of_ne hxu, h.asleep_iff]
          simp [he, hq, hxu]
    · by_cases hxt : x = t
      · subst hxt
        simp [ht]
      · rw [Function.update_of_ne hxt]
        by_cases hxu : x = u
        · subst hxu
          simp [hu, hk.symm]
        · rw [Function.update_of_ne hxu]
    · rw [places_update_other, hwoken q (by simp [hq])]
      · rw [htu]
        rintro rfl
        cases hq
      · rintro rfl
        exact hk (Option.some.inj hq).symm
    · rw [places_update_other (by simp [htu]) (by simp), hwoken _ (by simp [Place.pending])]
    · rw [places_update_same, hwoken _ (by simp [Place.pending])]
      exact Set.ncard_insert_of_notMem (by simp [threadsAt, ht]) (hfin sem)

theorem ncard_leave (h : Inv s) {q : Place} (hq : q ≠ .user) (ht : s.place t = q) :
    {u | Function.update s.place t .user u = q}.ncard + 1 = (s.threadsAt q).ncard := by
  have hmem : t ∈ s.threadsAt q := ht
  rw [places_update _ _ hq.symm]
  exact Set.ncard_sdiff_singleton_add_one hmem (h.finite q hq)

theorem Inv.back (h : Inv s) (hs : s.back t = some s') : Inv s' := by
  obtain ⟨sem, e, he, ⟨ht, rfl⟩ | ⟨ht, rfl⟩⟩ := back_eq_some hs
  · refine h.move he (by simp [ht]) (by simp) rfl
      (fun k hk => ⟨fun hk' => ?_, by simp [Place.pending]⟩) ?_
    · rw [ht] at hk'
      exact hk (Option.some.inj hk').symm
    · have hc := h.counts sem e he
      have hpassed := hc.passed_eq
      have hcard := ncard_leave h (by simp) ht
      rw [places_update_other (q := .signalled sem) (by simp [ht]) (by simp)]
      refine ⟨hc.value_eq, hc.nonneg, ?_, hc.raised_eq⟩
      dsimp only
      omega
  · refine h.move he (by simp [ht]) (by simp) rfl
      (fun k hk => ⟨fun hk' => ?_, by simp [Place.pending]⟩) ?_
    · rw [ht] at hk'
      exact hk (Option.some.inj hk').symm
    · have hc := h.counts sem e he
      have hraised := hc.raised_eq
      have hcard := ncard_leave h (by simp) ht
      rw [places_update_other (q := .waited sem) (by simp [ht]) (by simp)]
      refine ⟨hc.value_eq, hc.nonneg, hc.passed_eq, ?_⟩
      dsimp only
      omega

omit [DecidableEq T] in
theorem onSemaphore_eq_some {op : ℤ → Option (State T)} {id : ℤ}
    (hs : s.onSemaphore op id = some s') :
    s' = s ∨ ∃ sem, s.smt.binding id = some sem ∧ op sem = some s' := by
  unfold onSemaphore at hs
  split at hs
  · rename_i idReal hget
    split_ifs at hs with hneg
    · exact .inl (Option.some.inj hs).symm
    · refine .inr ⟨idReal, ?_, hs⟩
      obtain ⟨-, hval⟩ := HandleTable.lookup_ok hget
      cases hb : s.smt.binding id with
      | none =>
        rw [hb] at hval
        exact absurd hval hneg
      | some sem =>
        rw [hb] at hval
        rw [hval, Option.getD_some]
  · cases hs

theorem step_cases {ev : Event T} (hs : s.step ev = some s') :
    s' = s ∨
    (∃ initval sem, s.semCreate initval sem = some s') ∨
    (∃ u id, ev = .semDestroy u id ∧ s.semDestroy id = some s') ∨
    (∃ u id sem, s.place u = .user ∧ s.smt.binding id = some sem ∧ s.v u sem = some s') ∨
    (∃ u id sem, s.place u = .user ∧ s.smt.binding id = some sem ∧ s.p u sem = some s') ∨
    (∃ u sem, s.place u = .woken sem ∧ s.p u sem = some s') ∨
    ∃ u, s.back u = some s' := by
  cases ev with
  | semCreate u initval sem =>
    rw [step] at hs
    split_ifs at hs
    exact .inr (.inl ⟨initval, sem, hs⟩)
  | semDestroy u id =>
    rw [step] at hs
    split_ifs at hs
    exact .inr (.inr (.inl ⟨u, id, rfl, hs⟩))
  | semSignal u id =>
    rw [step] at hs
    split_ifs at hs with hu
    obtain rfl | ⟨sem, hb, hv⟩ := onSemaphore_eq_some hs
    · exact .inl rfl
    · exact .inr (.inr (.inr (.inl ⟨u, id, sem, hu, hb, hv⟩)))
  | semWait u id =>
    rw [step] at hs
    split_ifs at hs with hu
    obtain rfl | ⟨sem, hb, hp⟩ := onSemaphore_eq_some hs
    · exact .inl rfl
    · exact .inr (.inr (.inr (.inr (.inl ⟨u, id, sem, hu, hb, hp⟩))))
  | resume u =>
    rw [step, State.resume] at hs
    split at hs
    · rename_i sem hu
      exact .inr (.inr (.inr (.inr (.inr (.inl ⟨u, sem, hu, hs⟩)))))
    · cases hs
  | back u => exact .inr (.inr (.inr (.inr (.inr (.inr ⟨u, hs⟩)))))

theorem Inv.step {ev : Event T} (h : Inv s) (hs : s.step ev = some s') : Inv s' := by
  obtain rfl | ⟨_, _, hs⟩ | ⟨_, _, -, hs⟩ | ⟨_, _, _, hu, -, hs⟩ | ⟨_, _, _, hu, -, hs⟩ |
    ⟨_, _, hu, hs⟩ | ⟨_, hs⟩ := step_cases hs
  · exact h
  · exact h.create hs
  · exact h.destroy hs
  · exact h.v hu hs
  · exact h.p (.inl hu) hs
  · exact h.p (.inr hu) hs
  · exact h.back hs

theorem reachable_inv (h : Reachable Init Step s) : Inv s := by
  refine h.invariant ?_ ?_
  · rintro s ⟨usage, rfl⟩
    exact inv_new usage
  · rintro s s' hi ⟨ev, hs⟩
    exact hi.step hs

/-- In every run, a semaphore that was not created with a negative value has let through no more
calls of `SemWait` than its value and the calls of `SemSignal` that passed their `V`: those that
returned 1 and those that have yet to return. -/
theorem waits_le_initval_add_signals (h : Reachable Init Step s) (he : s.heap sem = some e)
    (hn : 0 ≤ e.initval) :
    (e.waits : ℤ) ≤ e.initval + e.signals + (s.threadsAt (.signalled sem)).ncard := by
  have hc := (reachable_inv h).counts sem e he
  have hvalue := hc.value_eq
  have hpassed := hc.passed_eq
  have hraised := hc.raised_eq
  have hpos := hc.nonneg hn
  omega

theorem step_reachable {l : List (Event ℕ)} {s : State ℕ}
    (h : l.foldlM State.step (State.new ℕ 0) = some s) : Reachable Init Step s :=
  Reachable.of_foldlM (fun _ ev _ hs => ⟨ev, hs⟩) (.init ⟨0, rfl⟩) h

/-- One call of `SemWait` is through, with the only unit. -/
theorem oneWait_bounded : ∃ (s : State ℕ) (e : Entry ℕ), Reachable Init Step s ∧
    s.heap 100 = some e ∧ e.initval = 1 ∧ e.waits = 1 ∧
      (e.waits : ℤ) ≤ e.initval + e.signals + (s.threadsAt (.signalled 100)).ncard := by
  have hrun : ([.semCreate 0 1 100, .semWait 1 0, .back 1].foldlM State.step (State.new ℕ 0)).any
      (fun s : State ℕ => (s.heap 100).any fun e : Entry ℕ =>
        decide (e.initval = 1) && decide (e.waits = 1)) = true := by
    decide +kernel
  obtain ⟨s, hs, hheap⟩ := (Option.any_eq_true _ _).mp hrun
  obtain ⟨e, he, hcounts⟩ := (Option.any_eq_true _ _).mp hheap
  simp only [Bool.and_eq_true, decide_eq_true_eq] at hcounts
  have hr := step_reachable hs
  exact ⟨s, e, hr, he, hcounts.1, hcounts.2, waits_le_initval_add_signals hr he (by omega)⟩

/-- A `SemSignal` that is switched away at the end of `V` has not returned when the thread that
it woke is through; with a negative value no `SemSignal` is needed at all. -/
theorem waits_exceed_returned_signals :
    (∃ (s : State ℕ) (e : Entry ℕ), Reachable Init Step s ∧ s.heap 100 = some e ∧ e.initval = 0 ∧
      (e.waits : ℤ) > max e.initval 0 + e.signals) ∧
    ∃ (s : State ℕ) (e : Entry ℕ), Reachable Init Step s ∧ s.heap 100 = some e ∧ e.initval = -1 ∧
      e.raised = 0 ∧ (e.waits : ℤ) > max e.initval 0 + e.signals := by
  have hzero : ([.semCreate 0 0 100, .semWait 1 0, .semSignal 2 0, .resume 1, .back 1].foldlM
      State.step (State.new ℕ 0)).any (fun s : State ℕ => (s.heap 100).any fun e : Entry ℕ =>
        decide (e.initval = 0) && decide ((e.waits : ℤ) > max e.initval 0 + e.signals)) = true := by
    decide +kernel
  have hneg : ([.semCreate 0 (-1) 100, .semWait 1 0, .back 1].foldlM State.step
      (State.new ℕ 0)).any (fun s : State ℕ => (s.heap 100).any fun e : Entry ℕ =>
        decide (e.initval = -1) && decide (e.raised = 0) &&
          decide ((e.waits : ℤ) > max e.initval 0 + e.signals)) = true := by
    decide +kernel
  constructor
  · obtain ⟨s, hs, hheap⟩ := (Option.any_eq_true _ _).mp hzero
    obtain ⟨e, he, hcounts⟩ := (Option.any_eq_true _ _).mp hheap
    simp only [Bool.and_eq_true, decide_eq_true_eq] at hcounts
    exact ⟨s, e, step_reachable hs, he, hcounts.1, hcounts.2⟩
  · obtain ⟨s, hs, hheap⟩ := (Option.any_eq_true _ _).mp hneg
    obtain ⟨e, he, hcounts⟩ := (Option.any_eq_true _ _).mp hheap
    simp only [Bool.and_eq_true, decide_eq_true_eq] at hcounts
    exact ⟨s, e, step_reachable hs, he, hcounts.1.1, hcounts.1.2, hcounts.2⟩

/-- Nobody sleeps on the semaphore, and there is a unit for every thread that was woken; with a
negative value a thread never sleeps. -/
def Quiet (s : State T) (sem : ℤ) : Prop :=
  ∀ e, s.heap sem = some e → e.sem.queue = [] ∧
    (e.sem.value < 0 ∨ ((s.threadsAt (.woken sem)).ncard : ℤ) ≤ e.sem.value)

/-- A `SemDestroy` that succeeds finds its semaphore quiet. -/
def Meets (s : State T) : Event T → Prop
  | .semDestroy _ id => s.smt.usage = 0 → ∀ sem, s.smt.binding id = some sem → Quiet s sem
  | _ => True

def QuietStep (s s' : State T) : Prop := ∃ ev, Meets s ev ∧ s.step ev = some s'

/-- A semaphore that is not in the table is quiet. -/
def Orphanless (s : State T) : Prop :=
  ∀ sem, (∀ id, s.smt.binding id ≠ some sem) → Quiet s sem

omit [DecidableEq T] in
theorem quiet_congr (h : Quiet s sem) (hheap : s'.heap sem = s.heap sem)
    (hwoken : s'.threadsAt (.woken sem) = s.threadsAt (.woken sem)) : Quiet s' sem := by
  intro e he
  rw [hwoken]
  exact h e (hheap ▸ he)

theorem quiet_other {k : ℤ} (h : Quiet s k) (hk : k ≠ sem) {e' : Entry T} {q : Place}
    (ht : s.place t ≠ .woken k) (hq : q ≠ .woken k) : Quiet { s with
      heap := Function.update s.heap sem (some e')
      place := Function.update s.place t q } k :=
  quiet_congr h (Function.update_of_ne hk _ _) (places_update_other ht hq)

omit [DecidableEq T] in
theorem Orphanless.create (h : Orphanless s) {initval : ℤ}
    (hs : s.semCreate initval sem = some s') : Orphanless s' := by
  obtain ⟨-, hfree, space, smt, hreg, rfl⟩ := semCreate_eq_some hs
  obtain ⟨-, hspace, -, hbind⟩ := HandleTable.register_binding hreg
  intro k hk
  have hne : k ≠ sem := by
    rintro rfl
    refine hk space ?_
    dsimp only
    rw [hbind, Function.update_self]
  refine quiet_congr (h k fun id hid => hk id ?_) (Function.update_of_ne hne _ _) rfl
  dsimp only
  rw [hbind, Function.update_of_ne, hid]
  rintro rfl
  rw [hspace] at hid
  cases hid

omit [DecidableEq T] in
theorem Orphanless.destroy (h : Orphanless s) {id : ℤ} {u : T}
    (hm : Meets s (.semDestroy u id)) (hs : s.semDestroy id = some s') : Orphanless s' := by
  obtain rfl | ⟨smt, rfl, husage, hholds, hbind⟩ := semDestroy_eq_some hs
  · exact h
  · intro k hk
    by_cases hid : s.smt.binding id = some k
    · exact hm husage k hid
    · refine h k fun i hi => hk i ?_
      dsimp only
      rw [hbind, Function.update_of_ne, hi]
      rintro rfl
      exact hid hi

omit [DecidableEq T] in
theorem Orphanless.registered (h : Orphanless s) (hsem : ∃ id, s.smt.binding id = some sem)
    (hsmt : s'.smt = s.smt) (hother : ∀ k, k ≠ sem → Quiet s k → Quiet s' k) : Orphanless s' := by
  intro k hk
  rw [hsmt] at hk
  refine hother k ?_ (h k hk)
  rintro rfl
  obtain ⟨id, hid⟩ := hsem
  exact hk id hid

theorem Orphanless.wait (h : Orphanless s) (ht : s.place t = .user)
    (hsem : ∃ id, s.smt.binding id = some sem) (hs : s.p t sem = some s') : Orphanless s' := by
  obtain ⟨e, -, -, ⟨-, rfl⟩ | ⟨-, rfl⟩⟩ := p_eq_some hs
  · exact h.registered hsem rfl fun k hk hq => quiet_other hq hk (by simp [ht]) (by simp)
  · exact h.registered hsem rfl fun k hk hq => quiet_other hq hk (by simp [ht]) (by simp)

theorem Orphanless.resume (h : Orphanless s) (hi : Inv s) (ht : s.place t = .woken sem)
    (hs : s.p t sem = some s') : Orphanless s' := by
  have hother : ∀ {k e' q}, k ≠ sem → (∀ k, q ≠ .woken k) → Quiet s k → Quiet { s with
      heap := Function.update s.heap sem (some e')
      place := Function.update s.place t q } k := by
    intro k e' q hk hq hquiet
    refine quiet_other hquiet hk ?_ (hq k)
    rw [ht]
    exact fun hk' => hk (Place.woken.inj hk').symm
  have hcard := Set.ncard_sdiff_singleton_add_one (show t ∈ s.threadsAt (.woken sem) from ht)
    (hi.finite _ (by simp))
  obtain ⟨e, he, -, ⟨hv, rfl⟩ | ⟨hv, rfl⟩⟩ := p_eq_some hs
  · by_cases hsem : ∃ id, s.smt.binding id = some sem
    · exact h.registered hsem rfl fun k hk hq => hother hk (by simp) hq
    · obtain ⟨-, hunits⟩ := h sem (not_exists.mp hsem) e he
      omega
  · intro k hk
    by_cases hne : k = sem
    · subst hne
      obtain ⟨hqueue, hunits⟩ := h k hk e he
      intro e' he'
      dsimp only at he'
      rw [Function.update_self] at he'
      obtain rfl := Option.some.inj he'
      refine ⟨hqueue, ?_⟩
      rw [threadsAt, places_update _ _ (by simp)]
      rw [threadsAt] at hcard hunits
      dsimp only
      omega
    · exact hother hne (by simp) (h k hk)

theorem Orphanless.signal (h : Orphanless s) (hi : Inv s) (ht : s.place t = .user)
    (hsem : ∃ id, s.smt.binding id = some sem) (hs : s.v t sem = some s') : Orphanless s' := by
  obtain ⟨e, he, ⟨-, rfl⟩ | ⟨u, us, hq, rfl⟩⟩ := v_eq_some hs
  · exact h.registered hsem rfl fun k hk hq => quiet_other hq hk (by simp [ht]) (by simp)
  · have hu : s.place u = .asleep sem := (hi.asleep_iff u sem).mpr ⟨e, he, by simp [hq]⟩
    have hut : t ≠ u := by
      rintro rfl
      rw [hu] at ht
      cases ht
    refine h.registered hsem rfl fun k hk hquiet => ?_
    refine quiet_congr hquiet (Function.update_of_ne hk _ _) ?_
    rw [threadsAt, places_update_other, places_update_other (by simp [hu])]
    · rfl
    · exact fun hk' => hk (Place.woken.inj hk').symm
    · rw [Function.update_of_ne hut, ht]
      simp
    · simp

theorem Orphanless.back (h : Orphanless s) (hs : s.back t = some s') : Orphanless s' := by
  obtain ⟨sem, e, he, hcase⟩ := back_eq_some hs
  have hwoken : ∀ k, s.place t ≠ .woken k := by
    intro k
    obtain ⟨ht, -⟩ | ⟨ht, -⟩ := hcase <;> simp [ht]
  have hkeep : ∀ e' : Entry T, e'.sem = e.sem → ∀ k, Quiet s k → Quiet { s with
      heap := Function.update s.heap sem (some e')
      place := Function.update s.place t .user } k := by
    intro e' hsem k hq f hf
    rw [threadsAt, places_update_other (hwoken k) (by simp)]
    dsimp only at hf
    by_cases hk : k = sem
    · subst hk
      rw [Function.update_self] at hf
      rw [← Option.some.inj hf, hsem]
      exact hq e he
    · rw [Function.update_of_ne hk] at hf
      exact hq f hf
  obtain ⟨-, rfl⟩ | ⟨-, rfl⟩ := hcase
  · exact fun k hk => hkeep { e with waits := e.waits + 1 } rfl k (h k hk)
  · exact fun k hk => hkeep { e with signals := e.signals + 1 } rfl k (h k hk)

theorem Orphanless.step {ev : Event T} (h : Orphanless s) (hi : Inv s) (hm : Meets s ev)
    (hstep : s.step ev = some s') : Orphanless s' := by
  obtain rfl | ⟨_, _, hs⟩ | ⟨_, _, rfl, hs⟩ | ⟨_, id, _, hu, hb, hs⟩ | ⟨_, id, _, hu, hb, hs⟩ |
    ⟨_, _, hu, hs⟩ | ⟨_, hs⟩ := step_cases hstep
  · exact h
  · exact h.create hs
  · exact h.destroy hm hs
  · exact h.signal hi hu ⟨id, hb⟩ hs
  · exact h.wait hu ⟨id, hb⟩ hs
  · exact h.resume hi hu hs
  · exact h.back hs

theorem quiet_reachable (h : Reachable Init QuietStep s) : Reachable Init Step s :=
  h.mono (fun _ hi => hi) fun _ _ ⟨ev, _, hs⟩ => ⟨ev, hs⟩

theorem orphanless_reachable (h : Reachable Init QuietStep s) : Orphanless s := by
  refine h.invariant_of (Q := Inv) (fun hr => reachable_inv (quiet_reachable hr)) ?_ ?_
  · rintro s ⟨usage, rfl⟩ sem - e he
    cases he
  · rintro s s' hi ho ⟨ev, hm, hs⟩
    exact ho.step hi hm hs

/-- In every run whose `SemDestroy` calls find their semaphore quiet, a thread that sleeps in
`SemWait` sleeps on a semaphore that `SemSignal` can look up. -/
theorem asleep_registered (h : Reachable Init QuietStep s) (ht : s.place t = .asleep sem) :
    ∃ id, s.smt.getSemaphore id = .ok sem ∧ sem ≠ -1 := by
  have hi := reachable_inv (quiet_reachable h)
  obtain ⟨e, he, hmem⟩ := (hi.asleep_iff t sem).mp ht
  by_contra hno
  have hquiet := orphanless_reachable h sem fun id hid =>
    hno ⟨id, HandleTable.lookup_binding hid, (hi.table id sem hid).1⟩
  rw [(hquiet e he).1] at hmem
  cases hmem

def unitTaken : List (Event ℕ) :=
  [.semCreate 0 0 100, .semCreate 0 1 200, .semWait 1 1, .back 1]

set_option maxRecDepth 8000 in
theorem unitTaken_place : (unitTaken.foldlM State.step (State.new ℕ 0)).map State.place =
    some (Function.update (Function.update (fun _ => .user) 1 (.waited 200)) 1 .user) := rfl

/-- The second semaphore is destroyed, and the thread sleeps on the first. -/
theorem sleeper_registered : ∃ s₁ s₂ s : State ℕ, Reachable Init QuietStep s₁ ∧
    s₁.smt.binding 1 = some 200 ∧ Meets s₁ (.semDestroy 0 1) ∧
    s₁.step (.semDestroy 0 1) = some s₂ ∧ s₂.smt.binding 1 = none ∧
    Reachable Init QuietStep s ∧ s.place 1 = .asleep 100 ∧
    ∃ id, s.smt.getSemaphore id = .ok 100 ∧ (100 : ℤ) ≠ -1 := by
  have hrun : (unitTaken.foldlM State.step (State.new ℕ 0)).any (fun s₁ : State ℕ =>
      decide (s₁.smt.binding 1 = some 200) &&
      (s₁.heap 200).all (fun e : Entry ℕ =>
        decide (e.sem.queue = []) && decide (0 ≤ e.sem.value)) &&
      (s₁.step (.semDestroy 0 1)).any fun s₂ : State ℕ => decide (s₂.smt.binding 1 = none) &&
        (s₂.step (.semWait 1 0)).any fun s : State ℕ =>
          decide (s.place 1 = .asleep 100)) = true := by
    decide +kernel
  obtain ⟨s₁, h₁, hafter⟩ := (Option.any_eq_true _ _).mp hrun
  simp only [Bool.and_eq_true, decide_eq_true_eq] at hafter
  obtain ⟨⟨hbound, hheap⟩, hdestroyed⟩ := hafter
  obtain ⟨s₂, h₂, hwaits⟩ := (Option.any_eq_true _ _).mp hdestroyed
  simp only [Bool.and_eq_true, decide_eq_true_eq] at hwaits
  obtain ⟨s, hs, hplace⟩ := (Option.any_eq_true _ _).mp hwaits.2
  have hr₁ : Reachable Init QuietStep s₁ := by
    refine Reachable.of_foldlM_mem (fun s s' ev hev hstep => ⟨ev, ?_, hstep⟩) (.init ⟨0, rfl⟩) h₁
    simp only [unitTaken, List.mem_cons, List.not_mem_nil, or_false] at hev
    obtain rfl | rfl | rfl | rfl := hev <;> trivial
  have hnone : s₁.threadsAt (.woken 200) = ∅ := by
    have hp := unitTaken_place
    rw [h₁] at hp
    ext u
    simp only [threadsAt, Option.some.inj hp, Set.mem_ofPred_eq, Set.mem_empty_iff_false, iff_false]
    by_cases hu : u = 1
    · subst hu
      rw [Function.update_self]
      exact fun h => by cases h
    · rw [Function.update_of_ne hu, Function.update_of_ne hu]
      exact fun h => by cases h
  have hm : Meets s₁ (.semDestroy 0 1) := by
    intro _ sem hsem e he
    obtain rfl := Option.some.inj (hbound.symm.trans hsem)
    rw [he, Option.all_some, Bool.and_eq_true] at hheap
    refine ⟨of_decide_eq_true hheap.1, .inr ?_⟩
    rw [hnone, Set.ncard_empty]
    exact of_decide_eq_true hheap.2
  have hr : Reachable Init QuietStep s :=
    (hr₁.step ⟨.semDestroy 0 1, hm, h₂⟩).step ⟨.semWait 1 0, trivial, hs⟩
  exact ⟨s₁, s₂, s, hr₁, hbound, hm, h₂, hwaits.1, hr, of_decide_eq_true hplace,
    asleep_registered hr (of_decide_eq_true hplace)⟩

/-- `SemDestroy` removes a semaphore from the table while a thread sleeps on it. -/
theorem sleeper_orphaned : ∃ s : State ℕ, Reachable Init Step s ∧ s.place 1 = .asleep 100 ∧
    ∀ id, s.smt.getSemaphore id ≠ .ok 100 := by
  have hrun : ([.semCreate 0 0 100, .semWait 1 0, .semDestroy 0 0].foldlM State.step
      (State.new ℕ 0)).any (fun s : State ℕ => decide (s.place 1 = .asleep 100) &&
        (List.range maxSem).all fun i => decide (s.smt.getSemaphore i ≠ .ok 100)) = true := by
    decide +kernel
  obtain ⟨s, hs, hh⟩ := (Option.any_eq_true _ _).mp hrun
  simp only [Bool.and_eq_true, decide_eq_true_eq, List.all_eq_true, List.mem_range] at hh
  refine ⟨s, step_reachable hs, hh.1, fun id hid => ?_⟩
  have hr := (HandleTable.lookup_ok hid).1
  simp only [BitMap.inRange, decide_eq_true_eq] at hr
  refine hh.2 id.toNat (by omega) ?_
  rw [Int.toNat_of_nonneg hr.1]
  exact hid

end Nachos.UserSemaphores
