import Nachos.Reachability
import Nachos.Semaphore
import Mathlib.Data.Set.Card

/-! The bookkeeping of one semaphore (`synch.cc`) under every schedule. A thread calls `P`
from `out`; it is `asleep` from `Sleep` on until a `V` puts it on the ready list, and `woken`
from there until it runs again and re-tests the value. `V` may come from a thread that is not
inside `P`, or from an interrupt handler. `completedP` and `completedV` are not in the source. -/
namespace Nachos.SemaphoreRun

inductive Place where
  | out
  | asleep
  | woken
  deriving DecidableEq, Repr

structure State (T : Type) where
  sem : Semaphore T
  place : T → Place
  completedP : ℕ
  completedV : ℕ

inductive Event (T : Type) where
  | p (t : T)
  | v

variable {T : Type} [DecidableEq T]

def State.p (s : State T) (t : T) : Option (State T) :=
  match s.sem.p t with
  | none => none
  | some (sem, false) => some { s with sem := sem, place := Function.update s.place t .asleep }
  | some (sem, true) =>
    some { s with
      sem := sem
      place := Function.update s.place t .out
      completedP := s.completedP + 1 }

def State.v (s : State T) : State T :=
  { s with
    sem := s.sem.v
    place := match s.sem.queue with
      | [] => s.place
      | t :: _ => Function.update s.place t .woken
    completedV := s.completedV + 1 }

def State.step (s : State T) : Event T → Option (State T)
  | .p t => s.p t
  | .v => some s.v

def State.new (T : Type) (n : ℤ) : State T where
  sem := ⟨n, []⟩
  place := fun _ => .out
  completedP := 0
  completedV := 0

def Step (s s' : State T) : Prop := ∃ e, s.step e = some s'

/-- The threads that a `V` has removed from the queue and that have not re-tested yet. -/
def State.woken (s : State T) : Set T := {t | s.place t = .woken}

structure Inv (n : ℤ) (s : State T) : Prop where
  value_nonneg : 0 ≤ s.sem.value
  value_eq : s.sem.value = n + s.completedV - s.completedP
  nodup : s.sem.queue.Nodup
  asleep_iff : ∀ t, s.place t = .asleep ↔ t ∈ s.sem.queue
  finite : s.woken.Finite
  value_le : s.sem.queue ≠ [] → s.sem.value ≤ s.woken.ncard

omit [DecidableEq T] in
theorem new_inv {n : ℤ} (hn : 0 ≤ n) : Inv n (State.new T n) where
  value_nonneg := hn
  value_eq := by simp [State.new]
  nodup := List.nodup_nil
  asleep_iff t := by simp [State.new]
  finite := by simp [State.woken, State.new]
  value_le h := absurd rfl h

theorem places_update {P : Type} (place : T → P) (t : T) {p q : P} (hp : p ≠ q) :
    {u | Function.update place t p u = q} = {u | place u = q} \ {t} := by
  ext u
  by_cases h : u = t
  · subst h
    simp [hp]
  · simp [h]

theorem places_update_same {P : Type} (place : T → P) (t : T) (q : P) :
    {u | Function.update place t q u = q} = insert t {u | place u = q} := by
  ext u
  by_cases h : u = t
  · subst h
    simp
  · simp [h]

theorem ncard_sub_one_le {T : Type} (w : Set T) (t : T) :
    (w.ncard : ℤ) - 1 ≤ (w \ {t}).ncard := by
  have := Set.ncard_le_ncard_sdiff_add_ncard w {t}
  rw [Set.ncard_singleton] at this
  omega

/-- A thread that finds the value at zero goes to sleep at the end of the queue. -/
theorem Inv.sleep {n : ℤ} {s : State T} {t : T} (h : Inv n s) (ht : t ∉ s.sem.queue)
    (hv : s.sem.value = 0) :
    Inv n { s with
      sem := { s.sem with queue := s.sem.queue ++ [t] }
      place := Function.update s.place t .asleep } where
  value_nonneg := h.value_nonneg
  value_eq := h.value_eq
  nodup := by
    rw [List.nodup_append]
    refine ⟨h.nodup, List.nodup_singleton t, ?_⟩
    intro a ha b hb hab
    rw [List.mem_singleton] at hb
    exact ht (hb ▸ hab ▸ ha)
  asleep_iff u := by
    by_cases hu : u = t
    · subst hu
      simp
    · simp [hu, h.asleep_iff u]
  finite := by
    rw [State.woken, places_update _ _ (by decide)]
    exact h.finite.sdiff
  value_le _ := by
    show s.sem.value ≤ _
    omega

/-- A thread that finds a unit takes it, whether or not it was woken for it. -/
theorem Inv.take {n : ℤ} {s : State T} {t : T} (h : Inv n s) (ht : t ∉ s.sem.queue)
    (hv : s.sem.value ≠ 0) :
    Inv n { s with
      sem := { s.sem with value := s.sem.value - 1 }
      place := Function.update s.place t .out
      completedP := s.completedP + 1 } where
  value_nonneg := by
    have := h.value_nonneg
    show 0 ≤ s.sem.value - 1
    omega
  value_eq := by
    have := h.value_eq
    show s.sem.value - 1 = _
    push_cast
    omega
  nodup := h.nodup
  asleep_iff u := by
    by_cases hu : u = t
    · subst hu
      simpa using ht
    · simp [hu, h.asleep_iff u]
  finite := by
    rw [State.woken, places_update _ _ (by decide)]
    exact h.finite.sdiff
  value_le hq := by
    have hle := h.value_le hq
    have hdiff := ncard_sub_one_le s.woken t
    rw [State.woken, places_update _ _ (by decide)]
    show s.sem.value - 1 ≤ _
    exact (by omega : s.sem.value - 1 ≤ s.woken.ncard - 1).trans hdiff

theorem Inv.v_nil {n : ℤ} {s : State T} (h : Inv n s) (hq : s.sem.queue = []) : Inv n s.v where
  value_nonneg := by
    have := h.value_nonneg
    simp only [State.v, Semaphore.v_value]
    omega
  value_eq := by
    have := h.value_eq
    simp only [State.v, Semaphore.v_value]
    push_cast
    omega
  nodup := by simp [State.v, hq]
  asleep_iff u := by simp [State.v, hq, h.asleep_iff u]
  finite := by simpa [State.v, State.woken, hq] using h.finite
  value_le hne := by simp [State.v, hq] at hne

theorem Inv.v_cons {n : ℤ} {s : State T} {t : T} {ts : List T} (h : Inv n s)
    (hq : s.sem.queue = t :: ts) : Inv n s.v := by
  have hnodup := h.nodup
  rw [hq, List.nodup_cons] at hnodup
  have hplace : s.v.place = Function.update s.place t .woken := by simp [State.v, hq]
  have hwoken : s.v.woken = insert t s.woken := by
    rw [State.woken, hplace]
    exact places_update_same s.place t _
  have hasleep : s.place t = .asleep := (h.asleep_iff t).mpr (by simp [hq])
  have hnot : t ∉ s.woken := by simp [State.woken, hasleep]
  constructor
  case value_nonneg =>
    have := h.value_nonneg
    simp only [State.v, Semaphore.v_value]
    omega
  case value_eq =>
    have := h.value_eq
    simp only [State.v, Semaphore.v_value]
    push_cast
    omega
  case nodup => simpa [State.v, hq] using hnodup.2
  case asleep_iff =>
    intro u
    rw [hplace]
    by_cases hu : u = t
    · subst hu
      simpa [State.v, hq] using hnodup.1
    · simp [State.v, hu, hq, h.asleep_iff u]
  case finite =>
    rw [hwoken]
    exact h.finite.insert t
  case value_le =>
    intro _
    have hle := h.value_le (by simp [hq])
    rw [hwoken, Set.ncard_insert_of_notMem hnot h.finite]
    simp only [State.v, Semaphore.v_value]
    push_cast
    omega

theorem Inv.v {n : ℤ} {s : State T} (h : Inv n s) : Inv n s.v := by
  cases hq : s.sem.queue with
  | nil => exact h.v_nil hq
  | cons t ts => exact h.v_cons hq

theorem Inv.p {n : ℤ} {s s' : State T} {t : T} (h : Inv n s) (hs : s.p t = some s') :
    Inv n s' := by
  unfold State.p at hs
  cases hp : s.sem.p t with
  | none => simp [hp] at hs
  | some r =>
    obtain ⟨sem, b⟩ := r
    obtain ⟨ht, ⟨hv, rfl, rfl⟩ | ⟨hv, rfl, rfl⟩⟩ := Semaphore.p_eq_some hp
    · simp only [hp, Option.some.injEq] at hs
      exact hs ▸ h.sleep ht hv
    · simp only [hp, Option.some.injEq] at hs
      exact hs ▸ h.take ht hv

theorem Inv.step {n : ℤ} {s s' : State T} (h : Inv n s) (hs : Step s s') : Inv n s' := by
  obtain ⟨e, hs⟩ := hs
  cases e with
  | p t => exact h.p hs
  | v =>
    obtain rfl := Option.some.inj hs
    exact h.v

theorem reachable_inv {n : ℤ} (hn : 0 ≤ n) {s : State T}
    (h : Reachable (· = State.new T n) Step s) : Inv n s :=
  Reachable.invariant (fun _ hs => hs ▸ new_inv hn) (fun _ _ hi hs => hi.step hs) h

/-- In every run of `P` and `V` from `n ≥ 0` units the value counts them, nobody sleeps twice,
and while somebody sleeps every free unit has a woken thread on its way to it. -/
theorem value_counts_no_lost_wakeup {n : ℤ} (hn : 0 ≤ n) {s : State T}
    (h : Reachable (· = State.new T n) Step s) :
    0 ≤ s.sem.value ∧ s.sem.value = n + s.completedV - s.completedP ∧ s.sem.queue.Nodup ∧
      s.woken.Finite ∧ (s.sem.queue ≠ [] → s.sem.value ≤ s.woken.ncard) := by
  have hi := reachable_inv hn h
  exact ⟨hi.value_nonneg, hi.value_eq, hi.nodup, hi.finite, hi.value_le⟩

/-- Threads 0 and 1 sleep, and one `V` has removed thread 0. -/
theorem oneWoken_counts : ∃ s : State ℕ, Reachable (· = State.new ℕ 0) Step s ∧
    s.sem = ⟨1, [1]⟩ ∧ s.sem.value ≤ s.woken.ncard := by
  have hrun : ([.p 0, .p 1, .v].foldlM State.step (State.new ℕ 0)).any
      (fun s : State ℕ => s.sem = ⟨1, [1]⟩) = true := by decide
  obtain ⟨s, hs, hsem⟩ := (Option.any_eq_true _ _).mp hrun
  have hr : Reachable (· = State.new ℕ 0) Step s :=
    Reachable.of_foldlM (fun _ e _ h => ⟨e, h⟩) (.init rfl) hs
  have hsem := of_decide_eq_true hsem
  exact ⟨s, hr, hsem, (value_counts_no_lost_wakeup le_rfl hr).2.2.2.2 (by simp [hsem])⟩

end Nachos.SemaphoreRun
