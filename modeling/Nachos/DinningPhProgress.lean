import Nachos.DinningPhSeats
import Nachos.LockWaking

/-! No schedule of the threads of `dinningph.cc` keeps them from their meals: a schedule can go
on until all have finished, and it cannot go on forever. -/
namespace Nachos.DinningPh

def Pc.left : Pc → ℕ
  | .finished => 0
  | .philo => 1
  | .releaseUnlock .putdown => 2
  | .releaseClear .putdown => 3
  | .releaseAssert .putdown => 4
  | .signalV .right _ _ => 5
  | .signalRemove .right _ => 6
  | .signalTest .right _ => 7
  | .signalAssert .right _ => 8
  | .setEating .right => 9
  | .testIf .right => 10
  | .signalV .left _ _ => 11
  | .signalRemove .left _ => 12
  | .signalTest .left _ => 13
  | .signalAssert .left _ => 14
  | .setEating .left => 15
  | .testIf .left => 16
  | .setThinking => 17
  | .acquireSet .putdown => 18
  | .acquireP .putdown => 19
  | .eat => 20
  | .releaseUnlock .pickup => 21
  | .releaseClear .pickup => 22
  | .releaseAssert .pickup => 23
  | .waitDelete _ => 24
  | .acquireSet (.wait _) => 25
  | .acquireP (.wait _) => 26
  | .waitP _ => 27
  | .releaseUnlock (.wait _) => 28
  | .releaseClear (.wait _) => 29
  | .releaseAssert (.wait _) => 30
  | .waitAppend _ => 31
  | .waitNew => 32
  | .waitAssert => 33
  | .ifHungry => 34
  | .signalV .own _ _ => 35
  | .signalRemove .own _ => 36
  | .signalTest .own _ => 37
  | .signalAssert .own _ => 38
  | .setEating .own => 39
  | .testIf .own => 40
  | .setHungry => 41
  | .acquireSet .pickup => 42
  | .acquireP .pickup => 43

def State.asleep (s : State) (t : Seat) : Bool :=
  match s.pc t with
  | .acquireP _ => t ∈ s.lock.mutex.queue
  | .waitP w => t ∈ ((s.self t).waiter w).queue
  | _ => false

/-- A statement takes two from this, and the wake-up that it may be for another thread gives one
back; a thread that falls asleep gives up one. -/
def State.effort (s : State) (t : Seat) : ℕ :=
  2 * (43 * s.rounds t + (s.pc t).left) + if s.asleep t then 0 else 1

variable {s s' : State} {t : Seat}

theorem State.asleep_iff : s.asleep t = true ↔
    (∃ site, s.pc t = .acquireP site ∧ t ∈ s.lock.mutex.queue) ∨
      ∃ w, s.pc t = .waitP w ∧ t ∈ ((s.self t).waiter w).queue := by
  unfold State.asleep
  split <;> simp_all

theorem Move.not_asleep (hm : Move s t s') (ha : s'.aborted = false) : s.asleep t = false := by
  cases hm with
  | block _ hpc hq | pass _ hpc hq | sleep _ hpc hq | resume _ hpc hq =>
    simp only [State.asleep, hpc]
    exact decide_eq_false hq
  | abort => cases ha
  | asserted p q hpc hp =>
    obtain ⟨check, start, rfl, rfl⟩ | ⟨rfl, rfl⟩ | ⟨site, rfl, rfl⟩ := hp <;>
      simp only [State.asleep, hpc]
  | done hpc | round _ hpc | hold _ hpc | setHungry hpc | allow _ hpc | refuse _ hpc
  | setEating _ hpc | noWaiter _ _ hpc | waiter _ _ hpc | remove _ _ _ _ hpc | wake _ _ _ hpc
  | mustWait hpc | served hpc | newWaiter hpc | append _ hpc | delete _ hpc | clear _ hpc
  | unlock _ hpc | eat hpc | setThinking hpc => simp only [State.asleep, hpc]

theorem asleep_of_queues {u : Seat} (hpc : s'.pc u = s.pc u)
    (hm : u ∈ s.lock.mutex.queue → u ∈ s'.lock.mutex.queue)
    (hw : ∀ w, u ∈ ((s.self u).waiter w).queue → u ∈ ((s'.self u).waiter w).queue)
    (h : s.asleep u = true) : s'.asleep u = true := by
  rw [State.asleep_iff] at h ⊢
  rw [hpc]
  exact h.imp (fun ⟨site, hsite, hq⟩ => ⟨site, hsite, hm hq⟩) fun ⟨w, hpw, hq⟩ => ⟨w, hpw, hw w hq⟩

theorem Move.left_lt (hm : Move s t s') (ha : s'.aborted = false) :
    (s'.pc = s.pc ∧ s'.rounds = s.rounds ∧ s'.asleep t = true ∧
      ∀ u, u ≠ t → s.asleep u = true → s'.asleep u = true) ∨
      43 * s'.rounds t + (s'.pc t).left < 43 * s.rounds t + (s.pc t).left := by
  cases hm with
  | block site hpc hq hv =>
    refine .inl ⟨rfl, rfl, ?_, fun u hu => ?_⟩
    · simp [State.asleep, State.setLock, hpc]
    · exact asleep_of_queues rfl (fun h => List.mem_append_left _ h) fun _ hw => hw
  | sleep w hpc hq hv =>
    refine .inl ⟨rfl, rfl, ?_, fun u hu => ?_⟩
    · simp [State.asleep, State.setSelf, Condition.setWaiter, hpc]
    · refine asleep_of_queues rfl (fun h => h) fun x hx => ?_
      simp only [State.setSelf, Function.update_of_ne hu]
      exact hx
  | abort => cases ha
  | asserted p q hpc hp =>
    refine .inr ?_
    obtain ⟨check, start, rfl, rfl⟩ | ⟨rfl, rfl⟩ | ⟨site, rfl, rfl⟩ := hp
    · cases check <;> simp [State.goto, hpc, Pc.left]
    · simp [State.goto, hpc, Pc.left]
    · cases site <;> simp [State.goto, hpc, Pc.left]
  | round k hpc hr =>
    refine .inr ?_
    simp only [State.goto, Function.update_self, hpc, hr, Pc.left]
    omega
  | allow check hpc | refuse check hpc | setEating check hpc | noWaiter check _ hpc
  | waiter check _ hpc | remove check _ _ _ hpc | wake check _ _ hpc =>
    refine .inr ?_
    cases check <;> simp [State.goto, State.setState, State.setSelf, hpc, tested, Pc.left]
  | pass site hpc | hold site hpc | clear site hpc | unlock site hpc =>
    refine .inr ?_
    cases site <;> simp [State.goto, State.setLock, hpc, acquired, released, Pc.left]
  | done hpc | setHungry hpc | mustWait hpc | served hpc | newWaiter hpc | append _ hpc
  | resume _ hpc | delete _ hpc | eat hpc | setThinking hpc =>
    refine .inr ?_
    simp [State.goto, State.setState, State.setSelf, hpc, Pc.left]

/-- A `V` wakes one thread at most. -/
theorem Move.wakes (hm : Move s t s') : ∃ v, ∀ u, u ≠ t → u ≠ v → s.asleep u = true →
    s'.asleep u = true := by
  cases hm with
  | unlock site hpc =>
    refine ⟨s.lock.mutex.queue.headD t, fun u hu hv => ?_⟩
    refine asleep_of_queues (Function.update_of_ne hu _ _) (fun hq => ?_) fun _ hw => hw
    change u ∈ s.lock.mutex.queue.tail
    cases hqueue : s.lock.mutex.queue with
    | nil =>
      rw [hqueue] at hq
      cases hq
    | cons x xs =>
      rw [hqueue] at hq hv
      exact (List.mem_cons.mp hq).resolve_left hv
  | wake check start w hpc | noWaiter check start hpc hq | remove check start w ws hpc hq =>
    refine ⟨check.seat t, fun u hu hv => ?_⟩
    refine asleep_of_queues (Function.update_of_ne hu _ _) (fun h => h) fun x hx => ?_
    simp only [State.goto, State.setSelf, Function.update_of_ne hv]
    exact hx
  | block site hpc hq hv =>
    refine ⟨t, fun u hu _ => ?_⟩
    exact asleep_of_queues rfl (fun h => List.mem_append_left _ h) fun _ hw => hw
  | sleep w hpc hq hv =>
    refine ⟨t, fun u hu _ => ?_⟩
    refine asleep_of_queues rfl (fun h => h) fun x hx => ?_
    simp only [State.setSelf, Function.update_of_ne hu]
    exact hx
  | abort => exact ⟨t, fun u _ _ h => h⟩
  | newWaiter | append | resume | delete =>
    refine ⟨t, fun u hu _ => ?_⟩
    refine asleep_of_queues (Function.update_of_ne hu _ _) (fun h => h) fun x hx => ?_
    simp only [State.goto, State.setSelf, Function.update_of_ne hu]
    exact hx
  | _ =>
    refine ⟨t, fun u hu _ => ?_⟩
    exact asleep_of_queues (Function.update_of_ne hu _ _) (fun h => h) fun _ hw => hw

theorem Move.rounds_of_ne (hm : Move s t s') {u : Seat} (hu : u ≠ t) :
    s'.rounds u = s.rounds u := by
  cases hm <;> first | rfl | exact Function.update_of_ne hu _ _

theorem State.effort_le {u : Seat} (hpc : s'.pc u = s.pc u) (hr : s'.rounds u = s.rounds u)
    (ha : s.asleep u = true → s'.asleep u = true) : s'.effort u ≤ s.effort u := by
  unfold State.effort
  rw [hpc, hr]
  split_ifs <;> simp_all

/-- Every statement lowers the effort that is left. -/
theorem Move.effort_lt (hm : Move s t s') (ha : s'.aborted = false) :
    ∑ u, s'.effort u < ∑ u, s.effort u := by
  have hawake := hm.not_asleep ha
  obtain ⟨hpc, hr, hasleep, hother⟩ | hleft := hm.left_lt ha
  · refine Finset.sum_lt_sum (fun u _ => ?_) ⟨t, Finset.mem_univ t, ?_⟩
    · refine State.effort_le (by rw [hpc]) (by rw [hr]) fun hu => ?_
      by_cases hut : u = t
      · exact hut ▸ hasleep
      · exact hother u hut hu
    · simp [State.effort, hpc, hr, hasleep, hawake]
  · obtain ⟨v, hv⟩ := hm.wakes
    have hstep : ∀ u, s'.effort u + (if u = t then 2 else 0) ≤
        s.effort u + if u = v then 1 else 0 := by
      intro u
      by_cases hut : u = t
      · subst hut
        simp only [State.effort, hawake, Bool.false_eq_true, if_false, if_true]
        split_ifs <;> omega
      · have hpc := hm.pc_of_ne hut
        have hr := hm.rounds_of_ne hut
        by_cases huv : u = v
        · simp only [State.effort, hpc, hr]
          split_ifs <;> omega
        · have hle := State.effort_le hpc hr (hv u hut huv)
          simpa [hut, huv] using hle
    have hsum := Finset.sum_le_sum fun u (_ : u ∈ Finset.univ) => hstep u
    simp only [Finset.sum_add_distrib, Finset.sum_ite_eq', Finset.mem_univ, if_true] at hsum
    omega

def State.Waking (s : State) : Prop :=
  s.lock.Waking (fun t => ∃ site, s.pc t = .acquireP site) fun t => (s.pc t).phase

theorem Move.waking (hm : Move s t s') (hi : Inv s) (h : s.Waking) : s'.Waking := by
  -- a thread that is not in the `P` and moves on
  have hkeep : ∀ {p q : Pc}, s.pc t = q → s'.pc = Function.update s.pc t p →
      s'.lock.mutex = s.lock.mutex → (∀ site, q ≠ .acquireP site) →
      (q.phase ≠ .outside → p.phase ≠ .outside) → s'.Waking := by
    intro p q hpc hpc' hl hq hp
    refine h.keep hl (fun u hu => ?_) fun u hu => ?_
    · have hut : u ≠ t := by
        rintro rfl
        obtain ⟨site, hsite⟩ := hu
        exact hq site (hpc.symm.trans hsite)
      rw [hpc', Function.update_of_ne hut]
      exact hu
    · by_cases hut : u = t
      · subst hut
        rw [hpc', Function.update_self]
        exact hp (hpc ▸ hu)
      · rw [hpc', Function.update_of_ne hut]
        exact hu
  cases hm with
  | block site hpc hq hv => exact Lock.Waking.block h ⟨site, hpc⟩ hq hv
  | pass site hpc hq hv =>
    refine Lock.Waking.pass h hi.lock hq hv (fun u hu hw => ?_) ?_
    · simpa [State.goto, State.setLock, Function.update_of_ne hu] using hw
    · simp [State.goto, Pc.phase]
  | unlock site hpc =>
    refine Lock.Waking.unlock h hi.lock (t := t) (by rw [hpc]; simp [Pc.phase]) fun u hu => ?_
    have hut : u ≠ t := by
      rintro rfl
      obtain ⟨site', hsite⟩ := hu
      rw [hpc] at hsite
      cases hsite
    simpa [State.goto, Function.update_of_ne hut] using hu
  | sleep | abort => exact h.keep rfl (fun _ hu => hu) fun _ hu => hu
  | asserted p q hpc hp =>
    obtain ⟨check, start, rfl, rfl⟩ | ⟨rfl, rfl⟩ | ⟨site, rfl, rfl⟩ := hp <;>
      exact hkeep hpc rfl rfl (by simp) (fun _ => by simp [Pc.phase])
  | hold site hpc =>
    exact hkeep hpc rfl rfl (by simp) (fun _ => by cases site <;> simp [acquired, Pc.phase])
  | refuse check hpc | noWaiter check _ hpc | wake check _ _ hpc =>
    exact hkeep hpc rfl rfl (by simp) (fun _ => by simp)
  | setHungry hpc | allow _ hpc | setEating _ hpc | waiter _ _ hpc | remove _ _ _ _ hpc
  | mustWait hpc | served hpc | newWaiter hpc | append _ hpc | delete _ hpc | clear _ hpc
  | setThinking hpc => exact hkeep hpc rfl rfl (by simp) (fun _ => by simp [Pc.phase])
  | done hpc | round _ hpc | resume _ hpc | eat hpc =>
    exact hkeep hpc rfl rfl (by simp) (fun ho => absurd rfl ho)

theorem reachable_waking {n : ℕ} (h : Reachable (· = State.new n) Step s) : s.Waking := by
  refine Reachable.invariant_of (Q := Inv) reachable_inv ?_ ?_ h
  · rintro _ rfl
    exact Lock.new_waking
  · rintro s s' hi hw ⟨t, h⟩
    unfold State.step at h
    split_ifs at h
    exact (exec_move h).waking hi hw

def Pc.owed (p : Pc) : ℕ := if 20 < p.left then 1 else 0

theorem Move.meals (hm : Move s t s') (ha : s'.aborted = false) (u : Seat) :
    s'.meals u + s'.rounds u + (s'.pc u).owed = s.meals u + s.rounds u + (s.pc u).owed := by
  by_cases hu : u = t
  · subst hu
    cases hm with
    | round k hpc hr =>
      simp [State.goto, hpc, hr, Pc.owed, Pc.left]
      omega
    | unlock site hpc =>
      cases site with
      | pickup =>
        simp [State.goto, hpc, Pc.owed, Pc.left, released]
        omega
      | putdown | wait w => simp [State.goto, hpc, Pc.owed, Pc.left, released]
    | block | sleep => rfl
    | abort => cases ha
    | asserted p q hpc hp =>
      obtain ⟨check, start, rfl, rfl⟩ | ⟨rfl, rfl⟩ | ⟨site, rfl, rfl⟩ := hp
      · cases check <;> simp [State.goto, hpc, Pc.owed, Pc.left]
      · simp [State.goto, hpc, Pc.owed, Pc.left]
      · cases site <;> simp [State.goto, hpc, Pc.owed, Pc.left]
    | allow check hpc | refuse check hpc | setEating check hpc | noWaiter check _ hpc
    | waiter check _ hpc | remove check _ _ _ hpc | wake check _ _ hpc =>
      cases check <;>
        simp [State.goto, State.setState, State.setSelf, hpc, tested, Pc.owed, Pc.left]
    | pass site hpc | hold site hpc | clear site hpc =>
      cases site <;> simp [State.goto, State.setLock, hpc, acquired, Pc.owed, Pc.left]
    | done hpc | setHungry hpc | mustWait hpc | served hpc | newWaiter hpc | append _ hpc
    | resume _ hpc | delete _ hpc | eat hpc | setThinking hpc =>
      simp [State.goto, State.setState, State.setSelf, hpc, Pc.owed, Pc.left]
  · have hmeals : s'.meals u = s.meals u := by
      cases hm with
      | unlock site hpc => cases site <;> simp [State.goto, hu]
      | _ => rfl
    rw [hmeals, hm.rounds_of_ne hu, hm.pc_of_ne hu]

theorem Move.finished (hm : Move s t s') (h : s'.pc t = .finished) : s'.rounds t = 0 := by
  cases hm with
  | done hpc hr => exact hr
  | block site hpc | sleep w hpc =>
    have hpc' : s.pc t = .finished := h
    rw [hpc] at hpc'
    cases hpc'
  | abort ha =>
    obtain ⟨hheld, -⟩ | ⟨check, start, hpc, -⟩ := ha
    · rw [(h : s.pc t = .finished)] at hheld
      cases hheld
    · rw [(h : s.pc t = .finished)] at hpc
      cases hpc
  | asserted p q hpc hp =>
    obtain ⟨check, start, rfl, rfl⟩ | ⟨rfl, rfl⟩ | ⟨site, rfl, rfl⟩ := hp <;>
      simp [State.goto] at h
  | refuse check | noWaiter check | wake check =>
    cases check <;> simp [State.goto, tested] at h
  | hold site | unlock site => cases site <;> simp [State.goto, acquired, released] at h
  | _ => simp [State.goto] at h

/-- The account of the meals, and nothing left to a thread that has finished. -/
structure Fed (n : ℕ) (s : State) : Prop where
  meals : ∀ t, s.meals t + s.rounds t + (s.pc t).owed = n
  finished : ∀ t, s.pc t = .finished → s.rounds t = 0

theorem Fed.move {n : ℕ} (h : Fed n s) (hm : Move s t s') (ha : s'.aborted = false) :
    Fed n s' where
  meals u := (hm.meals ha u).trans (h.meals u)
  finished u hu := by
    by_cases hut : u = t
    · subst hut
      exact hm.finished hu
    · rw [hm.rounds_of_ne hut]
      exact h.finished u (by rw [← hm.pc_of_ne hut, hu])

theorem exec_eq_none (h : s.exec t = none) : s.pc t = .finished ∨ s.asleep t = true := by
  have hp : ∀ {sem : Semaphore Seat}, sem.p t = none → t ∈ sem.queue := by
    intro sem hsem
    by_contra hq
    rw [Semaphore.p, if_neg hq] at hsem
    split_ifs at hsem
  cases hpc : s.pc t <;> simp only [State.exec, hpc] at h
  case finished => exact .inl rfl
  case acquireP site =>
    refine .inr (State.asleep_iff.mpr (.inl ⟨site, hpc, ?_⟩))
    split at h
    · exact hp ‹_›
    · cases h
    · cases h
  case waitP w =>
    refine .inr (State.asleep_iff.mpr (.inr ⟨w, hpc, ?_⟩))
    split at h
    · exact hp ‹_›
    · cases h
    · cases h
  case philo => split at h <;> cases h
  case signalTest => split_ifs at h
  case signalRemove => split at h <;> cases h
  all_goals cases h

theorem step_exec (hi : Inv s) : s.step t = s.exec t := by
  rw [State.step, hi.running, if_neg Bool.false_ne_true]

theorem reachable_fed {n : ℕ} (h : Reachable (· = State.new n) Step s) : Fed n s := by
  refine Reachable.invariant_of (Q := Inv) reachable_inv ?_ ?_ h
  · rintro _ rfl
    exact ⟨fun t => by simp [State.new, Pc.owed, Pc.left], fun t ht => by cases ht⟩
  · rintro s s' hi hf ⟨t, h⟩
    rw [step_exec hi] at h
    exact hf.move (exec_move h) (hi.move (exec_move h)).running

section stuck

variable (hi : Inv s) (hs : Seats s) (hw : s.Waking)
  (hstuck : ∀ t, s.pc t = .finished ∨ s.asleep t = true)
include hstuck

/-- Where the threads are when none can go on. -/
theorem stuck_pc (t : Seat) : s.pc t = .finished ∨ (∃ site, s.pc t = .acquireP site ∧
    t ∈ s.lock.mutex.queue) ∨ ∃ w, s.pc t = .waitP w ∧ t ∈ ((s.self t).waiter w).queue := by
  obtain h | h := hstuck t
  · exact .inl h
  · exact .inr (State.asleep_iff.mp h)

theorem stuck_outside (t : Seat) : (s.pc t).phase = .outside := by
  obtain h | ⟨site, h, -⟩ | ⟨w, h, -⟩ := stuck_pc hstuck t <;> rw [h] <;> rfl

include hw in
theorem stuck_not_acquire (site : Site) : s.pc t ≠ .acquireP site := by
  intro hpc
  obtain h | ⟨_, -, hq⟩ | ⟨w, h, -⟩ := stuck_pc hstuck t
  · rw [hpc] at h
    cases h
  · have hv : s.lock.mutex.value ≠ 0 := by
      intro hv
      obtain ⟨u, hu⟩ := hw.owner hv
      exact hu (stuck_outside hstuck u)
    obtain ⟨u, ⟨site', hu⟩, hnot⟩ := hw.awake hv (List.ne_nil_of_mem hq)
    obtain h | ⟨_, -, hq'⟩ | ⟨w, h, -⟩ := stuck_pc hstuck u
    · rw [hu] at h
      cases h
    · exact hnot hq'
    · rw [hu] at h
      cases h
  · rw [hpc] at h
    cases h

include hi hs in
/-- Who waits is hungry: a waiter whose seat has its turn would have been woken. -/
theorem stuck_hungry {w : ℕ} (hpc : s.pc t = .waitP w) : s.state t = .hungry := by
  have hplace := hs.place t
  rw [hpc] at hplace
  have hst : (s.pc t).stage = .queued w := by
    rw [hpc]
    rfl
  have hasleep : t ∈ ((s.self t).waiter w).queue := by
    obtain h | ⟨_, h, -⟩ | ⟨x, h, hq⟩ := stuck_pc hstuck t
    · rw [hpc] at h
      cases h
    · rw [hpc] at h
      cases h
    · obtain rfl := Pc.waitP.inj (hpc.symm.trans h)
      exact hq
  have hat : (s.pc t).stageAt t t = .queued w := by
    rw [hpc]
    exact if_pos rfl
  have hout := stuck_outside hstuck
  have hmem : w ∈ (s.self t).waitQueue := by
    obtain hm | h1 | ⟨u, k, hu⟩ := (hi.cond t).waiters.queued t w hat
    · exact hm
    · obtain ⟨h0, -⟩ | ⟨-, hsem⟩ := (hi.cond t).waiters.sleeper t w hat
      · omega
      · rw [hsem] at hasleep
        cases hasleep
    · have hexcl : (Pc.stageAt u (s.pc u) t).exclusive = true := by
        rw [hu]
        rfl
      have hheld := Pc.held_of_exclusive hexcl
      rw [hout u] at hheld
      cases hheld
  cases hstate : s.state t with
  | thinking => exact absurd hstate hplace
  | hungry => rfl
  | eating =>
    obtain ⟨u, k, hk⟩ := hs.signalled t w hst hstate hmem
    have hexcl : (Pc.stageAt u (s.pc u) t).exclusive = true := by
      rw [hk]
      rfl
    have hheld := Pc.held_of_exclusive hexcl
    rw [hout u] at hheld
    cases hheld

include hi hs hw in
/-- A hungry thread that waits has a neighbour that eats, and who eats can go on. -/
theorem stuck_finished (t : Seat) : s.pc t = .finished := by
  have hnot : ∀ u, s.state u ≠ .eating := by
    intro u hu
    obtain h | ⟨site, h, -⟩ | ⟨w, h, -⟩ := stuck_pc hstuck u
    · have hplace := hs.place u
      rw [h] at hplace
      cases hu.symm.trans hplace
    · exact stuck_not_acquire hw hstuck site h
    · rw [stuck_hungry hi hs hstuck h] at hu
      cases hu
  obtain h | ⟨site, h, -⟩ | ⟨w, h, -⟩ := stuck_pc hstuck t
  · exact h
  · exact absurd h (stuck_not_acquire hw hstuck site)
  · obtain h | h | ⟨u, hu⟩ := hs.covered t (stuck_hungry hi hs hstuck h)
    · exact absurd h (hnot _)
    · exact absurd h (hnot _)
    · have := Pc.held_of_willTest hu
      rw [stuck_outside hstuck u] at this
      cases this

end stuck

/-- In every run of the threads no `ASSERT` fails, the seats that eat have no neighbours that do,
and a thread that is between the return of its `pickup` and the call of its `putdown` has a seat
that eats, so that its neighbours are not there. -/
theorem neighbours_apart {n : ℕ} (h : Reachable (· = State.new n) Step s) :
    s.aborted = false ∧ (∀ i, s.state i = .eating → s.state (i + 1) ≠ .eating) ∧
      (∀ t, s.pc t = .eat → s.state t = .eating) ∧
      ∀ t, s.pc t = .eat → s.pc (t + 1) ≠ .eat := by
  have hi := reachable_inv h
  have hs := reachable_seats h
  have heat : ∀ t, s.pc t = .eat → s.state t = .eating := by
    intro t ht
    have hplace := hs.place t
    rw [ht] at hplace
    exact hplace
  exact ⟨hi.running, hs.apart, heat, fun t ht hn => hs.apart t (heat t ht) (heat _ hn)⟩

def waitingRun : List Seat := List.replicate 12 0 ++ List.replicate 13 1

theorem waitingRun_apart : ∃ s, Reachable (· = State.new 1) Step s ∧ s.pc 0 = .eat ∧
    s.pc 1 = .waitP 0 ∧ s.asleep 1 = true ∧ s.state 0 = .eating ∧ s.state 1 ≠ .eating := by
  have hrun : (waitingRun.foldlM State.step (State.new 1)).any (fun s : State =>
      s.pc 0 = .eat ∧ s.pc 1 = .waitP 0 ∧ s.asleep 1 = true) = true := by
    decide +kernel
  obtain ⟨s, hs, hb⟩ := (Option.any_eq_true _ _).mp hrun
  obtain ⟨h0, h1, ha⟩ := of_decide_eq_true hb
  have hr : Reachable (· = State.new 1) Step s :=
    Reachable.of_foldlM (fun _ t _ h => ⟨t, h⟩) (.init rfl) hs
  obtain ⟨-, hapart, heat, -⟩ := neighbours_apart hr
  exact ⟨s, hr, h0, h1, ha, heat 0 h0, hapart 0 (heat 0 h0)⟩

/-- A schedule is paid for by the effort that its statements have taken. -/
theorem effort_run {n : ℕ} {l : List Seat} (hr : Reachable (· = State.new n) Step s)
    (h : l.foldlM State.step s = some s') :
    (∑ u, s'.effort u) + l.length ≤ ∑ u, s.effort u := by
  induction l generalizing s with
  | nil =>
    obtain rfl := Option.some.inj h
    exact le_rfl
  | cons t l ih =>
    obtain ⟨u, hu, h⟩ := Option.bind_eq_some_iff.mp h
    have hi := reachable_inv hr
    have hrest := ih (hr.step ⟨t, hu⟩) h
    have hm := exec_move (step_exec hi ▸ hu)
    have hlt := hm.effort_lt (hi.move hm).running
    rw [List.length_cons]
    omega

/-- The threads of every schedule come to their ends: the schedule has a bounded number of
statements, and where no thread can go on all have finished, each after all its meals. -/
theorem dinner_finishes {n : ℕ} {l : List Seat} (h : l.foldlM State.step (State.new n) = some s) :
    l.length ≤ 430 * n + 15 ∧
      ((∀ t, s.step t = none) → ∀ t, s.pc t = .finished ∧ s.meals t = n) := by
  have hr : Reachable (· = State.new n) Step s :=
    Reachable.of_foldlM (fun _ t _ h => ⟨t, h⟩) (.init rfl) h
  have hi := reachable_inv hr
  constructor
  · have hrun := effort_run (.init rfl) h
    have hnew : ∑ u, (State.new n).effort u = 430 * n + 15 := by
      simp only [State.effort, State.asleep, State.new, Pc.left, Finset.sum_const,
        Finset.card_univ, Fintype.card_fin, Bool.false_eq_true, if_false, smul_eq_mul]
      ring
    omega
  · intro hstuck t
    have hpc := stuck_finished hi (reachable_seats hr) (reachable_waking hr)
      (fun u => exec_eq_none (step_exec hi ▸ hstuck u)) t
    have hf := reachable_fed hr
    have hmeals := hf.meals t
    rw [hf.finished t hpc, hpc] at hmeals
    exact ⟨hpc, hmeals⟩

def inTurn : List Seat := (List.finRange 5).flatMap (List.replicate 22)

theorem inTurn_finishes : ∃ s, inTurn.foldlM State.step (State.new 1) = some s ∧
    ∀ t, s.pc t = .finished ∧ s.meals t = 1 := by
  have hrun : (inTurn.foldlM State.step (State.new 1)).any (fun s : State =>
      ∀ t, (s.step t).isNone) = true := by
    decide +kernel
  obtain ⟨s, hs, hb⟩ := (Option.any_eq_true _ _).mp hrun
  exact ⟨s, hs, (dinner_finishes hs).2 fun t => Option.isNone_iff_eq_none.mp
    (of_decide_eq_true hb t)⟩

end Nachos.DinningPh
