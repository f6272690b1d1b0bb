import Mathlib.Tactic

/-! Counting semaphores with a queue of sleepers (`synch.cc`). Both operations run with
interrupts off, so each is one step; a thread asleep in the queue takes no step until a
`V` removes it, and then tests the value again. -/
namespace Nachos

structure Semaphore (T : Type) where
  value : ℤ
  queue : List T
  deriving DecidableEq, Repr

namespace Semaphore
variable {T : Type}

/-- One round of the loop in `P`: the new semaphore, and whether `t` got through.
`none` while `t` is asleep in the queue. -/
def p [DecidableEq T] (s : Semaphore T) (t : T) : Option (Semaphore T × Bool) :=
  if t ∈ s.queue then none
  else if s.value = 0 then some ({ s with queue := s.queue ++ [t] }, false)
  else some ({ s with value := s.value - 1 }, true)

/-- `V` wakes the first sleeper, if any, and counts up. -/
def v (s : Semaphore T) : Semaphore T := { value := s.value + 1, queue := s.queue.tail }

theorem p_eq_some [DecidableEq T] {s s' : Semaphore T} {t : T} {b : Bool}
    (h : s.p t = some (s', b)) :
    t ∉ s.queue ∧
      ((s.value = 0 ∧ b = false ∧ s' = { s with queue := s.queue ++ [t] }) ∨
        (s.value ≠ 0 ∧ b = true ∧ s' = { s with value := s.value - 1 })) := by
  unfold p at h
  split_ifs at h with hq hv
  · obtain ⟨rfl, rfl⟩ := Prod.mk.inj (Option.some.inj h)
    exact ⟨hq, .inl ⟨hv, rfl, rfl⟩⟩
  · obtain ⟨rfl, rfl⟩ := Prod.mk.inj (Option.some.inj h)
    exact ⟨hq, .inr ⟨hv, rfl, rfl⟩⟩

@[simp] theorem v_value (s : Semaphore T) : s.v.value = s.value + 1 := rfl

@[simp] theorem v_queue (s : Semaphore T) : s.v.queue = s.queue.tail := rfl

end Semaphore

end Nachos
