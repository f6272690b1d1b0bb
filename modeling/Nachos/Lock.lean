import Nachos.Semaphore

/-! Locks (`synch.cc`) and what is true of one between any two steps of the threads that use
it. Ownership is kept in the value of `mutex` and in `lockHolder`, and the two are not set
together: a thread passes from `outside` to `taken` with `mutex->P()`, to `held` with
`lockHolder = currentThread`, to `unlocking` with `lockHolder = NULL` and back to `outside`
with `mutex->V()`. -/
namespace Nachos

structure Lock (T : Type) where
  mutex : Semaphore T
  lockHolder : Option T
  deriving DecidableEq, Repr

namespace Lock
variable {T : Type}

def new (T : Type) : Lock T := ⟨⟨1, []⟩, none⟩

def isHeldByCurrentThread [DecidableEq T] (l : Lock T) (currentThread : T) : Bool :=
  l.lockHolder = some currentThread

inductive Phase where
  | outside
  | taken
  | held
  | unlocking
  deriving DecidableEq, Repr

inductive Move (t : T) : Phase → Phase → Lock T → Lock T → Prop
  | stay (p : Phase) (l : Lock T) : Move t p p l l
  | block (p : Phase) (l : Lock T) (queue : List T) :
      Move t p p l { l with mutex := { l.mutex with queue := queue } }
  | lock (p : Phase) (l : Lock T) (hv : l.mutex.value ≠ 0) :
      Move t p .taken l { l with mutex := { l.mutex with value := l.mutex.value - 1 } }
  | hold (l : Lock T) : Move t .taken .held l { l with lockHolder := some t }
  | release (l : Lock T) : Move t .held .unlocking l { l with lockHolder := none }
  | unlock (l : Lock T) : Move t .unlocking .outside l { l with mutex := l.mutex.v }

/-- At most one thread is past its `mutex->P()`, the value says whether there is one, and
`lockHolder` is the thread that has set it and not cleared it. -/
structure Inv (phase : T → Phase) (l : Lock T) : Prop where
  value_nonneg : 0 ≤ l.mutex.value
  value_le_one : l.mutex.value ≤ 1
  value_of_owner : ∀ t, phase t ≠ .outside → l.mutex.value = 0
  owner_unique : ∀ t u, phase t ≠ .outside → phase u ≠ .outside → t = u
  holder_iff : ∀ t, l.lockHolder = some t ↔ phase t = .held

theorem new_inv : Inv (fun _ : T => .outside) (new T) where
  value_nonneg := by simp [new]
  value_le_one := by simp [new]
  value_of_owner _ h := absurd rfl h
  owner_unique _ _ h := absurd rfl h
  holder_iff t := by simp [new]

namespace Inv
variable {phase : T → Phase} {l : Lock T} {t : T}

theorem outside_of_value (h : Inv phase l) (hv : l.mutex.value ≠ 0) (u : T) :
    phase u = .outside := by
  by_contra hu
  exact hv (h.value_of_owner u hu)

theorem outside_of_ne (h : Inv phase l) (ht : phase t ≠ .outside) {u : T} (hu : u ≠ t) :
    phase u = .outside := by
  by_contra ho
  exact hu (h.owner_unique u t ho ht)

theorem lockHolder_eq_none (h : Inv phase l) (ht : phase t ≠ .outside) (hh : phase t ≠ .held) :
    l.lockHolder = none := by
  cases hl : l.lockHolder with
  | none => rfl
  | some u =>
    have hu := (h.holder_iff u).mp hl
    have : u = t := h.owner_unique u t (by simp [hu]) ht
    exact absurd (this ▸ hu) hh

variable [DecidableEq T]

theorem owner_unique_update {p : Phase} (hout : ∀ u, u ≠ t → phase u = .outside) (u w : T)
    (hu : Function.update phase t p u ≠ .outside) (hw : Function.update phase t p w ≠ .outside) :
    u = w := by
  have heq : ∀ x, Function.update phase t p x ≠ .outside → x = t := by
    intro x hx
    by_contra hxt
    rw [Function.update_of_ne hxt] at hx
    exact hx (hout x hxt)
  exact (heq u hu).trans (heq w hw).symm

theorem lock (h : Inv phase l) (hv : l.mutex.value ≠ 0) :
    Inv (Function.update phase t .taken)
      { l with mutex := { l.mutex with value := l.mutex.value - 1 } } := by
  have hout := h.outside_of_value hv
  have h0 := h.value_nonneg
  have h1 := h.value_le_one
  constructor
  case value_nonneg => exact (by omega : 0 ≤ l.mutex.value - 1)
  case value_le_one => exact (by omega : l.mutex.value - 1 ≤ 1)
  case value_of_owner => exact fun _ _ => (by omega : l.mutex.value - 1 = 0)
  case owner_unique => exact owner_unique_update fun u _ => hout u
  case holder_iff =>
    intro u
    have hu := h.holder_iff u
    by_cases hut : u = t
    · subst hut
      simp_all
    · simpa [hut] using hu

theorem hold (h : Inv phase l) (ht : phase t = .taken) :
    Inv (Function.update phase t .held) { l with lockHolder := some t } := by
  have hne : phase t ≠ .outside := by simp [ht]
  constructor
  case value_nonneg => exact h.value_nonneg
  case value_le_one => exact h.value_le_one
  case value_of_owner => exact fun _ _ => h.value_of_owner t hne
  case owner_unique => exact owner_unique_update fun _ => h.outside_of_ne hne
  case holder_iff =>
    intro u
    by_cases hut : u = t
    · simp [hut]
    · simp [hut, h.outside_of_ne hne hut, Ne.symm hut]

theorem release (h : Inv phase l) (ht : phase t = .held) :
    Inv (Function.update phase t .unlocking) { l with lockHolder := none } := by
  have hne : phase t ≠ .outside := by simp [ht]
  constructor
  case value_nonneg => exact h.value_nonneg
  case value_le_one => exact h.value_le_one
  case value_of_owner => exact fun _ _ => h.value_of_owner t hne
  case owner_unique => exact owner_unique_update fun _ => h.outside_of_ne hne
  case holder_iff =>
    intro u
    by_cases hut : u = t
    · simp [hut]
    · simp [hut, h.outside_of_ne hne hut]

theorem unlock (h : Inv phase l) (ht : phase t = .unlocking) :
    Inv (Function.update phase t .outside) { l with mutex := l.mutex.v } := by
  have hne : phase t ≠ .outside := by simp [ht]
  have h0 := h.value_of_owner t hne
  have hout : ∀ u, Function.update phase t .outside u = .outside := by
    intro u
    by_cases hut : u = t
    · simp [hut]
    · simp [hut, h.outside_of_ne hne hut]
  constructor
  case value_nonneg => simp [h0]
  case value_le_one => simp [h0]
  case value_of_owner => exact fun u hu => absurd (hout u) hu
  case owner_unique => exact fun u _ hu => absurd (hout u) hu
  case holder_iff =>
    intro u
    simp [hout u, h.lockHolder_eq_none hne (by simp [ht])]

/-- Every step that moves the phase of one thread and the lock together keeps the invariant. -/
theorem move {p : Phase} {l' : Lock T} (h : Inv phase l) (hm : Move t (phase t) p l l') :
    Inv (Function.update phase t p) l' := by
  generalize hq : phase t = q at hm
  cases hm with
  | stay =>
    rw [← hq, Function.update_eq_self]
    exact h
  | block queue =>
    rw [← hq, Function.update_eq_self]
    exact ⟨h.value_nonneg, h.value_le_one, h.value_of_owner, h.owner_unique, h.holder_iff⟩
  | lock _ _ hv => exact h.lock hv
  | hold => exact h.hold hq
  | release => exact h.release hq
  | unlock => exact h.unlock hq

end Inv

end Lock

end Nachos
