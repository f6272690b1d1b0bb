import Nachos.Lock

/-! No sleeper of a lock is left behind (`synch.cc`). `waiting` holds of the threads that are
inside the `P` of the mutex, asleep in its queue or awake and about to test its value. -/
namespace Nachos.Lock

/-- Sleepers are waiting; a value of zero has an owner, and a value that sleepers do not see is
there for a thread that is awake. -/
structure Waking {T : Type} (waiting : T → Prop) (phase : T → Phase) (l : Lock T) : Prop where
  asleep : ∀ t ∈ l.mutex.queue, waiting t
  nodup : l.mutex.queue.Nodup
  owner : l.mutex.value = 0 → ∃ t, phase t ≠ .outside
  awake : l.mutex.value ≠ 0 → l.mutex.queue ≠ [] → ∃ t, waiting t ∧ t ∉ l.mutex.queue

variable {T : Type} {waiting waiting' : T → Prop} {phase phase' : T → Phase} {l l' : Lock T}
  {t : T}

theorem new_waking : Waking waiting phase (new T) := by
  constructor <;> simp [new]

namespace Waking

theorem keep (h : Waking waiting phase l) (hl : l'.mutex = l.mutex)
    (hw : ∀ u, waiting u → waiting' u) (hp : ∀ u, phase u ≠ .outside → phase' u ≠ .outside) :
    Waking waiting' phase' l' := by
  constructor
  · intro u hu
    rw [hl] at hu
    exact hw u (h.asleep u hu)
  · rw [hl]
    exact h.nodup
  · intro hv
    rw [hl] at hv
    obtain ⟨u, hu⟩ := h.owner hv
    exact ⟨u, hp u hu⟩
  · intro hv hq
    rw [hl] at hv hq ⊢
    obtain ⟨u, hu, hnot⟩ := h.awake hv hq
    exact ⟨u, hw u hu, hnot⟩

theorem block (h : Waking waiting phase l) (ht : waiting t) (hq : t ∉ l.mutex.queue)
    (hv : l.mutex.value = 0) :
    Waking waiting phase { l with mutex := { l.mutex with queue := l.mutex.queue ++ [t] } } where
  asleep u hu := by
    obtain hu | hu := List.mem_append.mp hu
    · exact h.asleep u hu
    · rw [List.mem_singleton.mp hu]
      exact ht
  nodup := List.nodup_append.mpr ⟨h.nodup, List.nodup_singleton t, fun a ha b hb hab =>
    hq (List.mem_singleton.mp hb ▸ hab ▸ ha)⟩
  owner := h.owner
  awake hn := absurd hv hn

theorem pass (h : Waking waiting phase l) (hi : Inv phase l) (hq : t ∉ l.mutex.queue)
    (hv : l.mutex.value ≠ 0) (hw : ∀ u, u ≠ t → waiting u → waiting' u)
    (hp : phase' t ≠ .outside) :
    Waking waiting' phase'
      { l with mutex := { l.mutex with value := l.mutex.value - 1 } } where
  asleep u hu := hw u (fun heq => hq (heq ▸ hu)) (h.asleep u hu)
  nodup := h.nodup
  owner _ := ⟨t, hp⟩
  awake hn := by
    have h0 := hi.value_nonneg
    have h1 := hi.value_le_one
    have hzero : l.mutex.value - 1 = 0 := by omega
    exact absurd hzero hn

theorem unlock (h : Waking waiting phase l) (hi : Inv phase l) (ht : phase t ≠ .outside)
    (hw : ∀ u, waiting u → waiting' u) : Waking waiting' phase' { l with mutex := l.mutex.v } where
  asleep u hu := hw u (h.asleep u (List.mem_of_mem_tail hu))
  nodup := h.nodup.sublist (List.tail_sublist _)
  owner hv := by
    rw [Semaphore.v_value, hi.value_of_owner t ht] at hv
    cases hv
  awake _ hne := by
    cases hq : l.mutex.queue with
    | nil => simp [hq] at hne
    | cons u us =>
      have hnd := h.nodup
      rw [hq, List.nodup_cons] at hnd
      refine ⟨u, hw u (h.asleep u (hq ▸ List.mem_cons_self)), ?_⟩
      rw [Semaphore.v_queue, hq]
      exact hnd.1

end Waking

end Nachos.Lock
