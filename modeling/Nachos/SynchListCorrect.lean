import Nachos.SynchList

/-! Correctness of the synchronized list over every schedule. `Exclusion` and `Waiting` say
who may own the lock and who may sit on the wait queue; `Guarded` is the invariant of the
lock, with what its owner knows at each statement. -/
set_option linter.unusedSectionVars false

namespace Nachos.SynchList
variable {T Item : Type}

structure Exclusion (s : State T Item) : Prop where
  value : s.mutex.value = 0 ∨ s.mutex.value = 1
  free : s.mutex.value = 1 → ∀ t, (s.pc t).owns = false
  unique : ∀ t u, (s.pc t).owns = true → (s.pc u).owns = true → t = u
  held : ∀ t, (s.pc t).holds = true → s.lockHolder = some t

structure Waiting (s : State T Item) : Prop where
  nodup : s.waitQueue.Nodup
  queued : ∀ t ∈ s.waitQueue, (s.pc t).enqueued = true ∧ (s.waiter t).value = 0
  wake : ∀ t w, s.pc t = .appendWake w → (s.pc w).pending = true ∧ w ∉ s.waitQueue
  dequeue : ∀ t, s.pc t = .appendDequeue → s.waitQueue ≠ []

theorem Pc.owns_of_holds (p : Pc T Item) (h : p.holds = true) : p.owns = true := by
  cases p <;> simp_all [Pc.owns, Pc.holds]

theorem Pc.pending_of_enqueued (p : Pc T Item) (h : p.enqueued = true) (ho : p.owns = false) :
    p.pending = true := by
  cases p <;> simp_all [Pc.owns, Pc.enqueued, Pc.pending]

variable [DecidableEq T] {s s' : State T Item} {t : T}

theorem Exclusion.of_keep {p : Pc T Item} (hi : Exclusion s)
    (hpc : s'.pc = Function.update s.pc t p)
    (hv : s'.mutex.value = s.mutex.value) (ho : p.owns = (s.pc t).owns)
    (hh : p.holds = true → s'.lockHolder = some t)
    (hl : s'.lockHolder = s.lockHolder ∨ (s.pc t).owns = true) : Exclusion s' := by
  have hown : ∀ u, (s'.pc u).owns = (s.pc u).owns := by
    intro u
    by_cases hut : u = t
    · rw [hut, hpc, Function.update_self, ho]
    · rw [hpc, Function.update_of_ne hut]
  obtain ⟨hval, hfree, hun, hheld⟩ := hi
  refine ⟨by rw [hv]; exact hval, fun h u => ?_, fun a b ha hb => ?_, fun u hu => ?_⟩
  · rw [hown]
    exact hfree (by rw [← hv]; exact h) u
  · rw [hown] at ha hb
    exact hun a b ha hb
  · by_cases hut : u = t
    · subst hut
      rw [hpc, Function.update_self] at hu
      exact hh hu
    · rw [hpc, Function.update_of_ne hut] at hu
      obtain hl | hl := hl
      · rw [hl]
        exact hheld u hu
      · exact absurd (hun u t (Pc.owns_of_holds _ hu) hl) hut

theorem Exclusion.of_lock {p : Pc T Item} (hi : Exclusion s)
    (hpc : s'.pc = Function.update s.pc t p)
    (hv : s.mutex.value ≠ 0) (hv' : s'.mutex.value = s.mutex.value - 1)
    (hh : p.holds = false) : Exclusion s' := by
  have hval := hi.value.resolve_left hv
  have hfree := hi.free hval
  have hother : ∀ u, (s'.pc u).owns = true → u = t := by
    intro u hu
    by_contra hut
    rw [hpc, Function.update_of_ne hut, hfree u] at hu
    cases hu
  refine ⟨.inl (by rw [hv', hval]; rfl), fun h => ?_, fun a b ha hb => ?_, fun u hu => ?_⟩
  · rw [hv', hval] at h
    cases h
  · rw [hother a ha, hother b hb]
  · have hut := hother u (Pc.owns_of_holds _ hu)
    subst hut
    rw [hpc, Function.update_self, hh] at hu
    cases hu

theorem Exclusion.of_unlock {p : Pc T Item} (hi : Exclusion s)
    (hpc : s'.pc = Function.update s.pc t p) (hv : s'.mutex.value = s.mutex.value + 1)
    (ho : (s.pc t).owns = true) (hp : p.owns = false) : Exclusion s' := by
  have hval : s.mutex.value = 0 := by
    refine hi.value.resolve_right fun hv => ?_
    rw [hi.free hv t] at ho
    cases ho
  have hnone : ∀ u, (s'.pc u).owns = false := by
    intro u
    by_cases hut : u = t
    · rw [hut, hpc, Function.update_self, hp]
    · rw [hpc, Function.update_of_ne hut]
      by_contra hu
      exact hut (hi.unique u t (by simpa using hu) ho)
  refine ⟨.inr (by rw [hv, hval]; rfl), fun _ => hnone, fun a b ha => ?_, fun u hu => ?_⟩
  · rw [hnone a] at ha
    cases ha
  · have hu := Pc.owns_of_holds _ hu
    rw [hnone u] at hu
    cases hu

theorem Waiting.of_update {p : Pc T Item} (hi : Waiting s)
    (hpc : s'.pc = Function.update s.pc t p) (hq : s'.waitQueue = s.waitQueue)
    (hv : ∀ u ∈ s.waitQueue, (s'.waiter u).value = 0)
    (he : (s.pc t).enqueued = true → t ∈ s.waitQueue → p.enqueued = true)
    (hp : (s.pc t).pending = true → (∃ u, s.pc u = .appendWake t) → p.pending = true)
    (hw : ∀ w, p ≠ .appendWake w) (hd : p = .appendDequeue → s.waitQueue ≠ []) : Waiting s' := by
  obtain ⟨hn, hqueued, hwake, hdeq⟩ := hi
  refine ⟨by rw [hq]; exact hn, fun u hu => ?_, fun u w hu => ?_, fun u hu => ?_⟩
  · rw [hq] at hu
    refine ⟨?_, hv u hu⟩
    by_cases hut : u = t
    · subst hut
      rw [hpc, Function.update_self]
      exact he (hqueued u hu).1 hu
    · rw [hpc, Function.update_of_ne hut]
      exact (hqueued u hu).1
  · have hut : u ≠ t := by
      rintro rfl
      rw [hpc, Function.update_self] at hu
      exact hw w hu
    rw [hpc, Function.update_of_ne hut] at hu
    rw [hq, hpc]
    refine ⟨?_, (hwake u w hu).2⟩
    by_cases hwt : w = t
    · subst hwt
      rw [Function.update_self]
      exact hp (hwake u w hu).1 ⟨u, hu⟩
    · rw [Function.update_of_ne hwt]
      exact (hwake u w hu).1
  · rw [hq]
    by_cases hut : u = t
    · subst hut
      rw [hpc, Function.update_self] at hu
      exact hd hu
    · rw [hpc, Function.update_of_ne hut] at hu
      exact hdeq u hu

theorem no_abort (he : Exclusion s) (hw : Waiting s) :
    ¬(((s.pc t).holds = true ∧ s.lockHolder ≠ some t) ∨
      (s.pc t = .appendDequeue ∧ s.waitQueue = [])) := by
  rintro (⟨hh, hl⟩ | ⟨hd, hq⟩)
  · exact hl (he.held t hh)
  · exact hw.dequeue t hd hq

theorem Exclusion.value_of_owns (he : Exclusion s) (ho : (s.pc t).owns = true) :
    s.mutex.value = 0 := by
  refine he.value.resolve_right fun hv => ?_
  rw [he.free hv t] at ho
  cases ho

variable [Inhabited Item]

theorem exclusion_step (he : Exclusion s) (hw : Waiting s) (h : Move s t s') : Exclusion s' := by
  cases h with
  | callAppend item h | callRemove h =>
    exact he.of_keep rfl rfl (by rw [h]; rfl) (fun hp => by cases hp) (.inl rfl)
  | block queue | sleep queue h hv => exact ⟨he.value, he.free, he.unique, he.held⟩
  | lock p hv h =>
    refine he.of_lock rfl hv rfl ?_
    obtain ⟨item, -, rfl⟩ | ⟨-, rfl⟩ | ⟨-, rfl⟩ := h <;> rfl
  | hold p h =>
    obtain ⟨item, h, rfl⟩ | ⟨h, rfl⟩ | ⟨h, rfl⟩ := h
    all_goals exact he.of_keep rfl rfl (by rw [h]; rfl) (fun _ => rfl) (.inr (by rw [h]; rfl))
  | append item h | noSignal h hq | signal h hq | dequeue w ws h hq | wake w h | testEmpty h hl
  | testFull h hl | enqueue h | take h =>
    exact he.of_keep rfl rfl (by rw [h]; rfl) (fun _ => he.held t (by rw [h]; rfl)) (.inl rfl)
  | release p h =>
    obtain ⟨h, rfl⟩ | ⟨h, rfl⟩ | ⟨item, h, rfl⟩ := h
    all_goals
      exact he.of_keep rfl rfl (by rw [h]; rfl) (fun hp => by cases hp) (.inr (by rw [h]; rfl))
  | unlock p h =>
    obtain ⟨h, rfl⟩ | ⟨h, rfl⟩ := h
    all_goals exact he.of_unlock rfl rfl (by rw [h]; rfl) rfl
  | resume h hv => exact he.of_keep rfl rfl (by rw [h]; rfl) (fun hp => by cases hp) (.inl rfl)
  | finish item h => exact he.of_unlock rfl rfl (by rw [h]; rfl) rfl
  | abort h => exact absurd h (no_abort he hw)

theorem waiting_dequeue {w : T} {ws : List T} (he : Exclusion s) (hi : Waiting s)
    (h : s.pc t = .appendDequeue) (hq : s.waitQueue = w :: ws) :
    Waiting ({ s with waitQueue := ws }.goto t (.appendWake w)) := by
  have ho : (s.pc t).owns = true := by rw [h]; rfl
  have hn := hi.nodup
  rw [hq] at hn
  obtain ⟨hw, hn⟩ := List.nodup_cons.mp hn
  have hmem : ∀ u ∈ w :: ws, u ≠ t ∧ (s.pc u).enqueued = true ∧ (s.waiter u).value = 0 := by
    intro u hu
    rw [← hq] at hu
    refine ⟨?_, hi.queued u hu⟩
    rintro rfl
    have hc := (hi.queued u hu).1
    rw [h] at hc
    cases hc
  refine ⟨hn, fun u hu => ?_, fun u v hu => ?_, fun u hu => ?_⟩
  · obtain ⟨hut, hu⟩ := hmem u (List.mem_cons_of_mem _ hu)
    simpa [State.goto, hut] using hu
  · have hut : u = t := by
      by_contra hut
      simp only [State.goto, Function.update_of_ne hut] at hu
      exact hut (he.unique u t (by rw [hu]; rfl) ho)
    simp only [State.goto, hut, Function.update_self, Pc.appendWake.injEq] at hu
    subst hu
    obtain ⟨hwt, hen, -⟩ := hmem w List.mem_cons_self
    have hwo : (s.pc w).owns = false := by
      by_contra hwo
      exact hwt (he.unique w t (by simpa using hwo) ho)
    simpa [State.goto, hwt, hw] using Pc.pending_of_enqueued _ hen hwo
  · by_cases hut : u = t
    · simp [State.goto, hut] at hu
    · simp only [State.goto, Function.update_of_ne hut] at hu
      exact absurd (he.unique u t (by rw [hu]; rfl) ho) hut

theorem waiting_enqueue (he : Exclusion s) (hi : Waiting s) (h : s.pc t = .waitEnqueue) :
    Waiting ({ s with
      waiter := Function.update s.waiter t ⟨0, []⟩
      waitQueue := s.waitQueue ++ [t] }.goto t .waitRelease) := by
  have ho : (s.pc t).owns = true := by rw [h]; rfl
  have hmem : ∀ u ∈ s.waitQueue, u ≠ t := by
    rintro u hu rfl
    have hc := (hi.queued u hu).1
    rw [h] at hc
    cases hc
  refine ⟨?_, fun u hu => ?_, fun u v hu => ?_, fun _ _ => by simp [State.goto]⟩
  · simp only [State.goto, List.nodup_append]
    exact ⟨hi.nodup, List.nodup_singleton _, fun u hu v hv => by
      rw [List.mem_singleton.mp hv]; exact hmem u hu⟩
  · obtain hu | hu := List.mem_append.mp hu
    · simpa [State.goto, hmem u hu] using hi.queued u hu
    · simp [State.goto, List.mem_singleton.mp hu, Pc.enqueued]
  · by_cases hut : u = t
    · simp [State.goto, hut] at hu
    · simp only [State.goto, Function.update_of_ne hut] at hu
      exact absurd (he.unique u t (by rw [hu]; rfl) ho) hut

theorem waiting_step (he : Exclusion s) (hi : Waiting s) (h : Move s t s') : Waiting s' := by
  have hval : ∀ u ∈ s.waitQueue, (s.waiter u).value = 0 := fun u hu => (hi.queued u hu).2
  have hwake_free : s.mutex.value ≠ 0 → ¬∃ u, s.pc u = .appendWake t := by
    rintro hv ⟨u, hu⟩
    exact hv (he.value_of_owns (t := u) (by rw [hu]; rfl))
  cases h with
  | callAppend item h | callRemove h | append item h | noSignal h hq | testEmpty h hl
  | testFull h hl | take h | finish item h =>
    refine hi.of_update rfl rfl hval ?_ ?_ (fun w hw => by cases hw) (fun hd => by cases hd)
    all_goals
      rw [h]
      rintro ⟨⟩
  | block queue => exact ⟨hi.nodup, hi.queued, hi.wake, hi.dequeue⟩
  | lock p hv h =>
    refine hi.of_update rfl rfl hval ?_ (fun _ hu => absurd hu (hwake_free hv)) ?_ ?_
    all_goals
      obtain ⟨item, h, rfl⟩ | ⟨h, rfl⟩ | ⟨h, rfl⟩ := h
      all_goals simp [h, Pc.enqueued]
  | hold p h =>
    refine hi.of_update rfl rfl hval ?_ ?_ ?_ ?_
    all_goals
      obtain ⟨item, h, rfl⟩ | ⟨h, rfl⟩ | ⟨h, rfl⟩ := h
      all_goals simp [h, Pc.enqueued, Pc.pending]
  | signal h hq =>
    refine hi.of_update rfl rfl hval ?_ ?_ (fun w hw => by cases hw) (fun _ => hq)
    all_goals
      rw [h]
      rintro ⟨⟩
  | dequeue w ws h hq => exact waiting_dequeue he hi h hq
  | wake w h =>
    refine hi.of_update rfl rfl (fun u hu => ?_) ?_ ?_ (fun w hw => by cases hw)
      (fun hd => by cases hd)
    · have hne : u ≠ w := by
        rintro rfl
        exact (hi.wake t u h).2 hu
      simp [State.goto, hne, hval u hu]
    all_goals
      rw [h]
      rintro ⟨⟩
  | release p h =>
    refine hi.of_update rfl rfl hval ?_ ?_ ?_ ?_
    all_goals
      obtain ⟨h, rfl⟩ | ⟨h, rfl⟩ | ⟨item, h, rfl⟩ := h
      all_goals simp [h, Pc.enqueued, Pc.pending]
  | unlock p h =>
    refine hi.of_update rfl rfl hval ?_ ?_ ?_ ?_
    all_goals
      obtain ⟨h, rfl⟩ | ⟨h, rfl⟩ := h
      all_goals simp [h, Pc.enqueued, Pc.pending]
  | enqueue h => exact waiting_enqueue he hi h
  | sleep queue h hv =>
    refine ⟨hi.nodup, fun u hu => ⟨(hi.queued u hu).1, ?_⟩, hi.wake, hi.dequeue⟩
    by_cases hut : u = t
    · simp [hut, hv]
    · simp [hut, hval u hu]
  | resume h hv =>
    refine hi.of_update rfl rfl (fun u hu => ?_) ?_ ?_ (fun w hw => by cases hw)
      (fun hd => by cases hd)
    · have hne : u ≠ t := by
        rintro rfl
        exact hv (hval u hu)
      simp [State.goto, hne, hval u hu]
    · exact fun _ ht => absurd (hval t ht) hv
    · exact fun _ _ => rfl
  | abort h => exact absurd h (no_abort he hi)

variable [Fintype T]

/-- The removers taken off the wait queue that have not taken the lock again. -/
def signalled (s : State T Item) : Finset T :=
  Finset.univ.filter fun t => (s.pc t).pending = true ∧ t ∉ s.waitQueue

/-- While removers wait, all but `k` of the items are promised to signalled ones. -/
def Promised (s : State T Item) (k : ℕ) : Prop :=
  s.waitQueue ≠ [] → s.list.length ≤ (signalled s).card + k

/-- What the lock protects, whoever has it. -/
structure Logs (s : State T Item) : Prop where
  items : s.removed.map Prod.snd ++ s.list = s.appended.map Prod.snd
  appended_lt : ∀ e ∈ s.appended, e.1 < s.acquisitions
  removed_lt : ∀ e ∈ s.removed, e.1 < s.acquisitions
  appended_sorted : (s.appended.map Prod.fst).Pairwise (· < ·)
  removed_sorted : (s.removed.map Prod.fst).Pairwise (· < ·)
  returned_prefix : s.returned <+: s.removed

/-- What the owner of the lock knows at each of its statements. -/
def Owned (s : State T Item) (t : T) : Pc T Item → Prop
  | .appendHold _ | .appendList _ =>
    s.removed = s.returned ∧ (∀ e ∈ s.appended, e.1 < s.turn t) ∧ Promised s 0
  | .appendSignal | .appendDequeue => s.removed = s.returned ∧ Promised s 1
  | .appendWake _ | .appendRelease | .appendUnlock => s.removed = s.returned ∧ Promised s 0
  | .removeHold | .waitHold | .removeTest =>
    s.removed = s.returned ∧ (∀ e ∈ s.removed, e.1 < s.turn t) ∧ Promised s 1
  | .removeTake =>
    s.removed = s.returned ∧ (∀ e ∈ s.removed, e.1 < s.turn t) ∧ Promised s 1 ∧ s.list ≠ []
  | .waitEnqueue | .waitRelease | .waitUnlock => s.removed = s.returned ∧ s.list = []
  | .removeRelease item | .removeUnlock item =>
    s.removed = s.returned ++ [(s.turn t, item)] ∧ Promised s 0
  | _ => True

structure Guarded (s : State T Item) : Prop where
  logs : Logs s
  free : s.mutex.value = 1 → s.removed = s.returned ∧ Promised s 0
  turn_lt : ∀ t, (s.pc t).owns = true → s.turn t < s.acquisitions
  owned : ∀ t, (s.pc t).owns = true → Owned s t (s.pc t)

@[simp] theorem mem_signalled {u : T} :
    u ∈ signalled s ↔ (s.pc u).pending = true ∧ u ∉ s.waitQueue := by
  simp [signalled]

theorem signalled_congr (hq : s'.waitQueue = s.waitQueue)
    (hp : ∀ u, (s'.pc u).pending = (s.pc u).pending) : signalled s' = signalled s := by
  simp [signalled, hq, hp]

theorem pending_update {p : Pc T Item} (hp : p.pending = (s.pc t).pending) (u : T) :
    (Function.update s.pc t p u).pending = (s.pc u).pending := by
  by_cases h : u = t
  · subst h
    simp [hp]
  · simp [h]

theorem Promised.trans {k k' : ℕ} (h : Promised s k) (hq : s'.waitQueue = s.waitQueue)
    (hl : s'.list.length + k ≤ s.list.length + k')
    (hp : ∀ u, (s'.pc u).pending = (s.pc u).pending) : Promised s' k' := by
  intro hne
  have hs := h (by rwa [← hq])
  rw [signalled_congr hq hp]
  omega

theorem Promised.congr {k : ℕ} (h : Promised s k) (hq : s'.waitQueue = s.waitQueue)
    (hl : s'.list = s.list) (hp : ∀ u, (s'.pc u).pending = (s.pc u).pending) : Promised s' k :=
  h.trans hq (by rw [hl]) hp

theorem Promised.of_nil {k : ℕ} (h : s.list = []) : Promised s k := by
  simp [Promised, h]

theorem Guarded.of_owner (he : Exclusion s') (ho : (s'.pc t).owns = true) (hl : Logs s')
    (ht : s'.turn t < s'.acquisitions) (h : Owned s' t (s'.pc t)) : Guarded s' := by
  refine ⟨hl, fun hv => ?_, fun u hu => ?_, fun u hu => ?_⟩
  · have hf := he.free hv t
    rw [ho] at hf
    cases hf
  · obtain rfl := he.unique u t hu ho
    exact ht
  · obtain rfl := he.unique u t hu ho
    exact h

theorem Guarded.of_free (he : Exclusion s') (hv : s'.mutex.value = 1) (hl : Logs s')
    (hr : s'.removed = s'.returned) (hp : Promised s' 0) : Guarded s' := by
  refine ⟨hl, fun _ => ⟨hr, hp⟩, fun u hu => ?_, fun u hu => ?_⟩ <;>
  · have hf := he.free hv u
    rw [hu] at hf
    cases hf

theorem Owned.congr {p : Pc T Item} (h : Owned s t p) (hq : s'.waitQueue = s.waitQueue)
    (hl : s'.list = s.list) (ha : s'.appended = s.appended) (hr : s'.removed = s.removed)
    (hr' : s'.returned = s.returned) (ht : s'.turn = s.turn)
    (hp : ∀ u, (s'.pc u).pending = (s.pc u).pending) : Owned s' t p := by
  have hk : ∀ k, Promised s k → Promised s' k := fun k h => h.congr hq hl hp
  cases p <;> simp only [Owned, hl, ha, hr, hr', ht] at h ⊢ <;> grind

/-- A step of a thread that does not own the lock. -/
theorem Guarded.of_outside {pc : T → Pc T Item} {waiter : T → Semaphore T} {queue : List T}
    (h : Guarded s) (ho : ∀ u, (pc u).owns = true → pc u = s.pc u)
    (hp : ∀ u, (pc u).pending = (s.pc u).pending) :
    Guarded { s with
      pc := pc
      waiter := waiter
      mutex := { s.mutex with queue := queue } } := by
  obtain ⟨⟨h1, h2, h3, h4, h5, h6⟩, hfree, hturn, howned⟩ := h
  refine ⟨⟨h1, h2, h3, h4, h5, h6⟩, fun hv => ?_, fun u hu => ?_, fun u hu => ?_⟩
  · exact ⟨(hfree hv).1, (hfree hv).2.congr rfl rfl hp⟩
  · refine hturn u ?_
    rw [← ho u hu]
    exact hu
  · simp only [ho u hu]
    simp only [ho u hu] at hu
    exact (howned u hu).congr rfl rfl rfl rfl rfl rfl hp

theorem update_eq_of_owns {p : Pc T Item} (hp : p.owns = false) (u : T)
    (hu : (Function.update s.pc t p u).owns = true) : Function.update s.pc t p u = s.pc u := by
  by_cases hut : u = t
  · subst hut
    rw [Function.update_self, hp] at hu
    cases hu
  · exact Function.update_of_ne hut _ _

theorem card_signalled_lock {p : Pc T Item} {mutex : Semaphore T} {n : ℕ} {turn : T → ℕ} :
    (signalled s).card ≤ (signalled ({ s with
        mutex := mutex
        acquisitions := n
        turn := turn }.goto t p)).card + 1 := by
  have hsub : signalled s ⊆ insert t (signalled ({ s with
      mutex := mutex
      acquisitions := n
      turn := turn }.goto t p)) := by
    intro u hu
    by_cases hut : u = t
    · simp [hut]
    · simpa [State.goto, hut] using hu
  exact (Finset.card_le_card hsub).trans (Finset.card_insert_le _ _)

theorem card_signalled_dequeue {w : T} {ws : List T} {p : Pc T Item} (hw : s.waitQueue = w :: ws)
    (hn : (w :: ws).Nodup) (hpw : (s.pc w).pending = true) (hpt : (s.pc t).pending = false) :
    (signalled s).card + 1 ≤ (signalled ({ s with waitQueue := ws }.goto t p)).card := by
  have hwt : w ≠ t := by
    rintro rfl
    rw [hpw] at hpt
    cases hpt
  have hnw : w ∉ signalled s := by simp [hw]
  rw [← Finset.card_insert_of_notMem hnw]
  refine Finset.card_le_card fun u hu => ?_
  obtain rfl | hu := Finset.mem_insert.mp hu
  · simp [State.goto, hwt, hpw, (List.nodup_cons.mp hn).1]
  · have hut : u ≠ t := by
      rintro rfl
      simp [hpt] at hu
    have hu' : (s.pc u).pending = true ∧ ¬u = w ∧ u ∉ ws := by simpa [hw] using hu
    simp [State.goto, hut, hu'.1, hu'.2.2]

theorem Guarded.owned_at (hg : Guarded s) {p : Pc T Item} (h : s.pc t = p) (ho : p.owns = true) :
    s.turn t < s.acquisitions ∧ Owned s t p := by
  subst h
  exact ⟨hg.turn_lt t ho, hg.owned t ho⟩

theorem Logs.lock {mutex : Semaphore T} {turn : T → ℕ} {p : Pc T Item} (h : Logs s) :
    Logs ({ s with
      mutex := mutex
      acquisitions := s.acquisitions + 1
      turn := turn }.goto t p) := by
  obtain ⟨h1, h2, h3, h4, h5, h6⟩ := h
  exact ⟨h1, fun e he => (h2 e he).trans (Nat.lt_succ_self _),
    fun e he => (h3 e he).trans (Nat.lt_succ_self _), h4, h5, h6⟩

theorem guarded_lock {p : Pc T Item} (he' : Exclusion s') (hi : Guarded s)
    (hf : s.mutex.value = 1)
    (h : (∃ item, s.pc t = .appendAcquire item ∧ p = .appendHold item) ∨
      (s.pc t = .removeAcquire ∧ p = .removeHold) ∨ (s.pc t = .waitAcquire ∧ p = .waitHold))
    (hs : s' = { s with
      mutex := { s.mutex with value := s.mutex.value - 1 }
      acquisitions := s.acquisitions + 1
      turn := Function.update s.turn t s.acquisitions }.goto t p) : Guarded s' := by
  obtain ⟨hr, hp⟩ := hi.free hf
  have hlogs : Logs s' := by
    subst hs
    exact hi.logs.lock
  have hturn : s'.turn t = s.acquisitions := by simp [hs, State.goto]
  have hpc : s'.pc t = p := by simp [hs, State.goto]
  have hcard : Promised s' 1 := by
    subst hs
    intro hq
    exact (hp hq).trans card_signalled_lock
  have hrem : ∀ e ∈ s'.removed, e.1 < s'.turn t := by
    rw [hturn, hs]
    exact hi.logs.removed_lt
  refine .of_owner (t := t) he' ?_ hlogs ?_ ?_
  · rw [hpc]
    obtain ⟨item, -, rfl⟩ | ⟨-, rfl⟩ | ⟨-, rfl⟩ := h <;> rfl
  · simp [hs, State.goto]
  · rw [hpc]
    have hret : s'.removed = s'.returned := by rw [hs]; exact hr
    obtain ⟨item, hpt, rfl⟩ | ⟨-, rfl⟩ | ⟨-, rfl⟩ := h
    · refine ⟨hret, ?_, ?_⟩
      · rw [hturn, hs]
        exact hi.logs.appended_lt
      · rw [hs]
        exact hp.congr rfl rfl (pending_update (by rw [hpt]; rfl))
    · exact ⟨hret, hrem, hcard⟩
    · exact ⟨hret, hrem, hcard⟩

theorem Pc.pending_of_owns (p : Pc T Item) (h : p.owns = true) : p.pending = false := by
  cases p <;> simp_all [Pc.owns, Pc.pending]

/-- A step of the owner that touches neither the list nor the wait queue. -/
theorem Guarded.of_inside {p q : Pc T Item} {holder : Option T} {waiter : T → Semaphore T}
    (hi : Guarded s)
    (he' : Exclusion { s with
      pc := Function.update s.pc t p, lockHolder := holder, waiter := waiter })
    (h : s.pc t = q) (hq : q.owns = true) (hp : p.owns = true)
    (hown : Owned s t q → Owned s t p) :
    Guarded { s with pc := Function.update s.pc t p, lockHolder := holder, waiter := waiter } := by
  obtain ⟨ht, ho⟩ := hi.owned_at h hq
  have hpend : p.pending = (s.pc t).pending := by
    rw [h, p.pending_of_owns hp, q.pending_of_owns hq]
  obtain ⟨h1, h2, h3, h4, h5, h6⟩ := hi.logs
  refine .of_owner (t := t) he' (by simpa using hp) ⟨h1, h2, h3, h4, h5, h6⟩ ht ?_
  simp only [Function.update_self]
  exact (hown ho).congr rfl rfl rfl rfl rfl rfl (pending_update hpend)

theorem pairwise_concat_lt {l : List (ℕ × Item)} {e : ℕ × Item}
    (h : (l.map Prod.fst).Pairwise (· < ·)) (he : ∀ x ∈ l, x.1 < e.1) :
    ((l ++ [e]).map Prod.fst).Pairwise (· < ·) := by
  rw [List.map_append, List.pairwise_append]
  refine ⟨h, List.pairwise_singleton _ _, fun a ha b hb => ?_⟩
  obtain ⟨x, hx, rfl⟩ := List.mem_map.mp ha
  obtain rfl := List.mem_singleton.mp hb
  exact he x hx

theorem forall_mem_concat_lt {l : List (ℕ × Item)} {e : ℕ × Item} {n : ℕ}
    (h : ∀ x ∈ l, x.1 < n) (he : e.1 < n) : ∀ x ∈ l ++ [e], x.1 < n := by
  intro x hx
  obtain hx | hx := List.mem_append.mp hx
  · exact h x hx
  · rw [List.mem_singleton.mp hx]
    exact he

theorem guarded_append {item : Item} (hi : Guarded s)
    (he' : Exclusion ({ s with
      list := s.list ++ [item]
      appended := s.appended ++ [(s.turn t, item)] }.goto t .appendSignal))
    (h : s.pc t = .appendList item) :
    Guarded ({ s with
      list := s.list ++ [item]
      appended := s.appended ++ [(s.turn t, item)] }.goto t .appendSignal) := by
  obtain ⟨ht, hr, hfresh, hp⟩ := hi.owned_at h rfl
  obtain ⟨h1, h2, h3, h4, h5, h6⟩ := hi.logs
  refine .of_owner (t := t) he' (by simp [State.goto, Pc.owns]) ⟨?_, ?_, h3, ?_, h5, h6⟩ ht ?_
  · simp only [State.goto, List.map_append, ← h1, List.append_assoc]
    rfl
  · exact forall_mem_concat_lt h2 ht
  · exact pairwise_concat_lt h4 hfresh
  · simp only [State.goto, Function.update_self]
    exact ⟨hr, hp.trans rfl (by simp) (pending_update (by rw [h]; rfl))⟩

theorem guarded_dequeue {w : T} {ws : List T} (he : Exclusion s) (hw : Waiting s) (hi : Guarded s)
    (he' : Exclusion ({ s with waitQueue := ws }.goto t (.appendWake w)))
    (h : s.pc t = .appendDequeue) (hq : s.waitQueue = w :: ws) :
    Guarded ({ s with waitQueue := ws }.goto t (.appendWake w)) := by
  obtain ⟨ht, hr, hp⟩ := hi.owned_at h rfl
  obtain ⟨h1, h2, h3, h4, h5, h6⟩ := hi.logs
  have hmem : w ∈ s.waitQueue := by simp [hq]
  have hwe := (hw.queued w hmem).1
  have hown : (s.pc w).owns = false := by
    by_contra ho
    have hwt := he.unique w t (by simpa using ho) (by rw [h]; rfl)
    rw [hwt, h] at hwe
    cases hwe
  refine .of_owner (t := t) he' (by simp [State.goto, Pc.owns]) ⟨h1, h2, h3, h4, h5, h6⟩ ht ?_
  simp only [State.goto, Function.update_self]
  refine ⟨hr, fun _ => ?_⟩
  have hnd := hw.nodup
  rw [hq] at hnd
  exact (hp (by simp [hq])).trans
    (card_signalled_dequeue hq hnd (Pc.pending_of_enqueued _ hwe hown) (by rw [h]; rfl))

theorem guarded_take (hi : Guarded s)
    (he' : Exclusion ({ s with
      list := s.list.tail
      removed := s.removed ++ [(s.turn t, s.list.headD default)] }.goto t
        (.removeRelease (s.list.headD default))))
    (h : s.pc t = .removeTake) :
    Guarded ({ s with
      list := s.list.tail
      removed := s.removed ++ [(s.turn t, s.list.headD default)] }.goto t
        (.removeRelease (s.list.headD default))) := by
  obtain ⟨ht, hr, hfresh, hp, hl⟩ := hi.owned_at h rfl
  obtain ⟨h1, h2, h3, h4, h5, h6⟩ := hi.logs
  refine .of_owner (t := t) he' (by simp [State.goto, Pc.owns]) ⟨?_, h2, ?_, h4, ?_, ?_⟩ ht ?_
  · obtain ⟨item, items, hcons⟩ := List.exists_cons_of_ne_nil hl
    simp [State.goto, ← h1, hcons]
  · exact forall_mem_concat_lt h3 ht
  · exact pairwise_concat_lt h5 hfresh
  · exact h6.trans (List.prefix_append _ _)
  · simp only [State.goto, Function.update_self]
    have hpos := List.length_pos_iff.mpr hl
    exact ⟨by rw [hr], hp.trans rfl (by simp; omega) (pending_update (by rw [h]; rfl))⟩

theorem guarded_enqueue (hi : Guarded s)
    (he' : Exclusion ({ s with
      waiter := Function.update s.waiter t ⟨0, []⟩
      waitQueue := s.waitQueue ++ [t] }.goto t .waitRelease))
    (h : s.pc t = .waitEnqueue) :
    Guarded ({ s with
      waiter := Function.update s.waiter t ⟨0, []⟩
      waitQueue := s.waitQueue ++ [t] }.goto t .waitRelease) := by
  obtain ⟨ht, ho⟩ := hi.owned_at h rfl
  obtain ⟨h1, h2, h3, h4, h5, h6⟩ := hi.logs
  refine .of_owner (t := t) he' (by simp [State.goto, Pc.owns]) ⟨h1, h2, h3, h4, h5, h6⟩ ht ?_
  simp only [State.goto, Function.update_self]
  exact ho

theorem guarded_unlock {p : Pc T Item} (he : Exclusion s) (hi : Guarded s)
    (he' : Exclusion ({ s with mutex := s.mutex.v }.goto t p))
    (h : (s.pc t = .appendUnlock ∧ p = .idle) ∨ (s.pc t = .waitUnlock ∧ p = .waitSleep)) :
    Guarded ({ s with mutex := s.mutex.v }.goto t p) := by
  obtain ⟨h1, h2, h3, h4, h5, h6⟩ := hi.logs
  have ho : (s.pc t).owns = true := by obtain ⟨h, -⟩ | ⟨h, -⟩ := h <;> rw [h] <;> rfl
  have hv : s.mutex.v.value = 1 := by simp [he.value_of_owns ho]
  obtain ⟨h, rfl⟩ | ⟨h, rfl⟩ := h
  · obtain ⟨-, hr, hp⟩ := hi.owned_at h rfl
    exact .of_free he' hv ⟨h1, h2, h3, h4, h5, h6⟩ hr
      (hp.congr rfl rfl (pending_update (by rw [h]; rfl)))
  · obtain ⟨-, hr, hl⟩ := hi.owned_at h rfl
    exact .of_free he' hv ⟨h1, h2, h3, h4, h5, h6⟩ hr (.of_nil hl)

theorem guarded_finish {item : Item} (he : Exclusion s) (hi : Guarded s)
    (he' : Exclusion ({ s with
      mutex := s.mutex.v
      returned := s.returned ++ [(s.turn t, item)] }.goto t .idle))
    (h : s.pc t = .removeUnlock item) :
    Guarded ({ s with
      mutex := s.mutex.v
      returned := s.returned ++ [(s.turn t, item)] }.goto t .idle) := by
  obtain ⟨h1, h2, h3, h4, h5, h6⟩ := hi.logs
  obtain ⟨-, hr, hp⟩ := hi.owned_at h rfl
  have hv : s.mutex.v.value = 1 := by simp [he.value_of_owns (t := t) (by rw [h]; rfl)]
  exact .of_free he' hv ⟨h1, h2, h3, h4, h5, hr ▸ List.prefix_rfl⟩ hr
    (hp.congr rfl rfl (pending_update (by rw [h]; rfl)))

theorem guarded_step (he : Exclusion s) (hw : Waiting s) (he' : Exclusion s') (hi : Guarded s)
    (h : Move s t s') : Guarded s' := by
  cases h with
  | callAppend item h =>
    exact hi.of_outside (update_eq_of_owns rfl) (pending_update (by rw [h]; rfl))
  | callRemove h => exact hi.of_outside (update_eq_of_owns rfl) (pending_update (by rw [h]; rfl))
  | block queue => exact hi.of_outside (fun _ _ => rfl) fun _ => rfl
  | lock p hv h => exact guarded_lock he' hi (he.value.resolve_left hv) h rfl
  | hold p h =>
    obtain ⟨item, h, rfl⟩ | ⟨h, rfl⟩ | ⟨h, rfl⟩ := h
    all_goals exact hi.of_inside he' h rfl rfl id
  | append item h => exact guarded_append hi he' h
  | noSignal h hq => exact hi.of_inside he' h rfl rfl fun ho => ⟨ho.1, fun hne => absurd hq hne⟩
  | signal h hq => exact hi.of_inside he' h rfl rfl id
  | dequeue w ws h hq => exact guarded_dequeue he hw hi he' h hq
  | wake w h => exact hi.of_inside he' h rfl rfl id
  | release p h =>
    obtain ⟨h, rfl⟩ | ⟨h, rfl⟩ | ⟨item, h, rfl⟩ := h
    all_goals exact hi.of_inside he' h rfl rfl id
  | unlock p h => exact guarded_unlock he hi he' h
  | testEmpty h hl => exact hi.of_inside he' h rfl rfl fun ho => ⟨ho.1, hl⟩
  | testFull h hl => exact hi.of_inside he' h rfl rfl fun ho => ⟨ho.1, ho.2.1, ho.2.2, hl⟩
  | enqueue h => exact guarded_enqueue hi he' h
  | sleep queue h hv => exact hi.of_outside (fun _ _ => rfl) fun _ => rfl
  | resume h hv => exact hi.of_outside (update_eq_of_owns rfl) (pending_update (by rw [h]; rfl))
  | take h => exact guarded_take hi he' h
  | finish item h => exact guarded_finish he hi he' h
  | abort h => exact absurd h (no_abort he hw)


theorem ne_aborted_step (he : Exclusion s) (hw : Waiting s) (hi : ∀ u, s.pc u ≠ .aborted)
    (h : Move s t s') (u : T) : s'.pc u ≠ .aborted := by
  by_cases hut : u = t
  · subst hut
    cases h with
    | block queue | sleep queue h hv => exact hi u
    | lock p hv h | hold p h =>
      obtain ⟨item, -, rfl⟩ | ⟨-, rfl⟩ | ⟨-, rfl⟩ := h
      all_goals simp [State.goto]
    | release p h =>
      obtain ⟨-, rfl⟩ | ⟨-, rfl⟩ | ⟨item, -, rfl⟩ := h
      all_goals simp [State.goto]
    | unlock p h =>
      obtain ⟨-, rfl⟩ | ⟨-, rfl⟩ := h
      all_goals simp [State.goto]
    | abort h => exact absurd h (no_abort he hw)
    | _ => simp [State.goto]
  · have hpc : s'.pc u = s.pc u := by cases h <;> simp [State.goto, hut]
    rw [hpc]
    exact hi u

structure Inv (s : State T Item) : Prop where
  exclusion : Exclusion s
  waiting : Waiting s
  guarded : Guarded s
  noAbort : ∀ t, s.pc t ≠ .aborted

theorem inv_init (h : Init s) : Inv s := by
  obtain ⟨hpc, hm, -, hq, hl, ha, hr, hr'⟩ := h
  have ho : ∀ t, (s.pc t).owns = false := fun t => by rw [hpc]; rfl
  have he : Exclusion s := by
    refine ⟨.inr (by rw [hm]), fun _ => ho, fun t u ht => ?_, fun t ht => ?_⟩
    · rw [ho] at ht
      cases ht
    · rw [hpc] at ht
      cases ht
  refine ⟨he, ⟨by simp [hq], by simp [hq], fun t w ht => ?_, fun t ht => ?_⟩, ?_, fun t ht => ?_⟩
  · rw [hpc] at ht
    cases ht
  · rw [hpc] at ht
    cases ht
  · exact .of_free he (by rw [hm]) ⟨by simp [ha, hr, hl], by simp [ha], by simp [hr],
      by simp [ha], by simp [hr], by simp [hr']⟩ (by rw [hr, hr']) (.of_nil hl)
  · rw [hpc] at ht
    cases ht

theorem inv_step (hi : Inv s) (h : Step s s') : Inv s' := by
  obtain ⟨t, call, h⟩ := h
  have hm := step_move h
  have he := exclusion_step hi.exclusion hi.waiting hm
  exact ⟨he, waiting_step hi.exclusion hi.waiting hm,
    guarded_step hi.exclusion hi.waiting he hi.guarded hm,
    ne_aborted_step hi.exclusion hi.waiting hi.noAbort hm⟩

theorem reachable_inv (h : Reachable Init Step s) : Inv s :=
  h.invariant (fun _ h => inv_init h) (fun _ _ hi h => inv_step hi h)

/-- Items come out in the order they went in, each once, and no wake-up is lost. -/
theorem remove_returns_prefix_of_append (h : Reachable Init Step s) :
    (s.appended.map Prod.fst).Pairwise (· < ·) ∧ (s.returned.map Prod.fst).Pairwise (· < ·) ∧
    s.returned.map Prod.snd <+: s.appended.map Prod.snd ∧
    (∀ t, s.pc t = .removeTake → s.list ≠ []) ∧ (∀ t, s.pc t ≠ .aborted) ∧
    (s.mutex.value ≠ 0 →
      s.appended.map Prod.snd = s.returned.map Prod.snd ++ s.list ∧
      (s.waitQueue ≠ [] → s.list.length ≤ (signalled s).card)) := by
  have hi := reachable_inv h
  obtain ⟨hitems, -, -, happ, hrem, hpre⟩ := hi.guarded.logs
  refine ⟨happ, hrem.sublist (hpre.map _).sublist, ?_, fun t ht => ?_, hi.noAbort, fun hv => ?_⟩
  · rw [← hitems]
    exact (hpre.map _).trans (List.prefix_append _ _)
  · exact (hi.guarded.owned_at ht rfl).2.2.2.2
  · obtain ⟨hr, hp⟩ := hi.guarded.free (hi.exclusion.value.resolve_left hv)
    exact ⟨by rw [← hr, hitems], hp⟩

def signalledRun : Option (State Bool ℕ) :=
  (List.replicate 8 (true, Call.remove) ++ List.replicate 9 (false, Call.append 7) ++
    List.replicate 8 (true, Call.remove) ++ List.replicate 9 (false, Call.append 8)).foldlM
      (fun s (t, call) => s.step t call) State.new

private theorem signalledRun_isSome : signalledRun.isSome = true := by decide

theorem signalledRun_returned :
    (signalledRun.get signalledRun_isSome).returned.map Prod.snd = [7] ∧
      (signalledRun.get signalledRun_isSome).returned.map Prod.snd <+:
        (signalledRun.get signalledRun_isSome).appended.map Prod.snd := by
  have hr : Reachable Init Step (signalledRun.get signalledRun_isSome) :=
    Reachable.of_foldlM (fun s a s' h => ⟨a.1, a.2, h⟩)
      (.init ⟨fun _ => rfl, rfl, rfl, rfl, rfl, rfl, rfl, rfl⟩)
      (Option.some_get signalledRun_isSome).symm
  exact ⟨by decide, (remove_returns_prefix_of_append hr).2.2.1⟩

end Nachos.SynchList
