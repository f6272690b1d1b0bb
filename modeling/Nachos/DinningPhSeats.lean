import Nachos.DinningPh

/-! Who eats at the table of `dinningph.cc`, between any two statements. -/
namespace Nachos.DinningPh

/-- What a thread knows of the seats: `mayEat` is the condition that `test` has found. -/
def Pc.Place (s : State) (who : Seat) : Pc → Prop
  | .philo | .finished | .setHungry | .acquireP .pickup | .acquireSet .pickup
  | .testIf .left | .testIf .right | .releaseAssert .putdown | .releaseClear .putdown
  | .releaseUnlock .putdown => s.state who = .thinking
  | .testIf .own | .waitAssert | .waitNew | .waitAppend _ => s.state who = .hungry
  | .setEating check =>
    s.mayEat (check.seat who) = true ∧ (check ≠ .own → s.state who = .thinking)
  | .signalAssert check _ | .signalTest check _ | .signalRemove check _ | .signalV check _ _ =>
    s.state (check.seat who) = .eating ∧ (check ≠ .own → s.state who = .thinking)
  | .ifHungry | .releaseAssert (.wait _) | .releaseClear (.wait _) | .releaseUnlock (.wait _)
  | .waitP _ => s.state who ≠ .thinking
  | .acquireP .putdown | .acquireSet .putdown | .acquireP (.wait _) | .acquireSet (.wait _)
  | .waitDelete _ | .releaseAssert .pickup | .releaseClear .pickup | .releaseUnlock .pickup
  | .eat | .setThinking => s.state who = .eating

def Pc.Signals (who i : Seat) (p : Pc) : Prop := ∃ k, p.stageAt who i = .signalling k

/-- The thread is to call `test` on seat `i` before it leaves the lock, or has found it true. -/
def Pc.WillTest (who i : Seat) : Pc → Prop
  | .testIf .own | .setEating .own => i = who
  | .testIf .left | .setEating .left => i = who + 4 ∨ i = who + 1
  | .signalAssert .left _ | .signalTest .left _ | .signalRemove .left _ | .signalV .left _ _
  | .testIf .right | .setEating .right => i = who + 1
  | _ => False

structure Seats (s : State) : Prop where
  place : ∀ t, (s.pc t).Place s t
  apart : ∀ i, s.state i = .eating → s.state (i + 1) ≠ .eating
  queued : ∀ t w, (s.pc t).stage = .queued w → w ∉ (s.self t).waitQueue → s.state t = .eating
  signalled : ∀ t w, (s.pc t).stage = .queued w → s.state t = .eating →
    w ∈ (s.self t).waitQueue → ∃ u, (s.pc u).Signals u t
  covered : ∀ i, s.state i = .hungry →
    s.state (i + 4) = .eating ∨ s.state (i + 1) = .eating ∨ ∃ u, (s.pc u).WillTest u i

variable {s s' : State} {t : Seat}

theorem new_seats (n : ℕ) : Seats (State.new n) := by
  constructor <;> simp [State.new, Pc.Place, Pc.stage]

theorem seat_ne (who : Seat) {check : Check} (h : check ≠ .own) : check.seat who ≠ who := by
  revert who
  cases check
  · exact absurd rfl h
  · decide
  · decide

theorem Pc.held_of_willTest {p : Pc} {who i : Seat} (h : p.WillTest who i) : p.phase = .held := by
  unfold Pc.WillTest at h
  split at h <;> first | rfl | exact h.elim

theorem mayEat_iff {i : Seat} : s.mayEat i = true ↔
    s.state (i + 4) ≠ .eating ∧ s.state i = .hungry ∧ s.state (i + 1) ≠ .eating := by
  simp [State.mayEat, and_assoc]

/-- The seats change under the lock, and a thread changes another's only from hungry to eating. -/
theorem move_state (h : Seats s) (hm : Move s t s') :
    (s'.state = s.state ∨ (s.pc t).phase = .held) ∧
      ∀ u, u ≠ t → s'.state u = s.state u ∨ s.state u = .hungry ∧ s'.state u = .eating := by
  have hplace := h.place t
  cases hm with
  | setHungry hpc =>
    refine ⟨.inr (by rw [hpc]; rfl), fun u hu => .inl ?_⟩
    exact Function.update_of_ne hu _ _
  | setThinking hpc =>
    refine ⟨.inr (by rw [hpc]; rfl), fun u hu => .inl ?_⟩
    exact Function.update_of_ne hu _ _
  | setEating check hpc =>
    refine ⟨.inr (by rw [hpc]; rfl), fun u hu => ?_⟩
    rw [hpc] at hplace
    by_cases heq : u = check.seat t
    · exact .inr ⟨heq ▸ (mayEat_iff.mp hplace.1).2.1, heq ▸ Function.update_self ..⟩
    · exact .inl (Function.update_of_ne heq _ _)
  | _ => exact ⟨.inl rfl, fun u _ => .inl rfl⟩

theorem Pc.Place.stable {p : Pc} {who : Seat} (h : p.Place s who) (hout : p.phase = .outside)
    (hs : s'.state who = s.state who ∨ s.state who = .hungry ∧ s'.state who = .eating) :
    p.Place s' who := by
  cases p with
  | acquireP site =>
    cases site <;>
      simp only [Pc.Place] at h ⊢ <;>
      grind
  | waitP w =>
    simp only [Pc.Place] at h ⊢
    grind
  | philo | finished | eat =>
    simp only [Pc.Place] at h ⊢
    grind
  | _ => cases hout

theorem Pc.Place.congr {p : Pc} {who : Seat} (h : p.Place s who) (hs : s'.state = s.state) :
    p.Place s' who := by
  have hmay : s'.mayEat = s.mayEat := by
    unfold State.mayEat
    rw [hs]
  unfold Pc.Place at h ⊢
  rw [hs, hmay]
  exact h

theorem Inv.not_mem_of_value (h : Inv s) {w : ℕ} (hst : (s.pc t).stage = .queued w)
    (hseat : (s.pc t).seat t = t) (hv : ((s.self t).waiter w).value ≠ 0) :
    w ∉ (s.self t).waitQueue := by
  have hat : (s.pc t).stageAt t t = .queued w := by
    rw [Pc.stageAt, if_pos hseat, hst]
  intro hw
  have h0 := ((h.cond t).waiters.mem w hw).1
  obtain ⟨-, hs | hs⟩ | ⟨h1, -⟩ := (h.cond t).waiters.sleeper t w hat
  · simp [hs] at hv
  · simp [hs] at hv
  · omega

theorem Seats.place_own (h : Seats s) (hi : Inv s) (hm : Move s t s') : (s'.pc t).Place s' t := by
  have hplace := h.place t
  cases hm with
  | abort ha => exact hplace
  | block site hpc hq hv => exact hplace.congr rfl
  | sleep w hpc hq hv => exact hplace.congr rfl
  | hold site hpc =>
    rw [hpc] at hplace
    cases site <;> simpa [State.goto, State.setLock, acquired, Pc.Place] using hplace
  | setEating check hpc =>
    rw [hpc] at hplace
    have hne : check ≠ .own → t ≠ check.seat t := fun hc => (seat_ne t hc).symm
    simp only [State.goto, State.setState, Function.update_self, Pc.Place, true_and]
    intro hc
    rw [Function.update_of_ne (hne hc)]
    exact hplace.2 hc
  | resume w hpc hq hv =>
    have hst : (s.pc t).stage = .queued w := by
      rw [hpc]
      rfl
    have heat := h.queued t w hst (hi.not_mem_of_value hst (by rw [hpc]; rfl) hv)
    simpa [State.goto, State.setSelf, Pc.Place] using heat
  | setHungry hpc => simp [State.goto, State.setState, Pc.Place]
  | setThinking hpc => simp [State.goto, State.setState, Pc.Place]
  | allow check hpc hm =>
    rw [hpc] at hplace
    simp only [State.goto, Function.update_self, Pc.Place]
    refine ⟨hm, fun hc => ?_⟩
    cases check
    · exact absurd rfl hc
    · exact hplace
    · exact hplace
  | refuse check hpc hm =>
    rw [hpc] at hplace
    cases check <;> simp [State.goto, tested, Pc.Place] at hplace ⊢ <;> simp [hplace]
  | asserted p q hpc hp =>
    rw [hpc] at hplace
    simp only [State.goto, Function.update_self]
    obtain ⟨check, start, rfl, rfl⟩ | ⟨rfl, rfl⟩ | ⟨site, rfl, rfl⟩ := hp
    · exact hplace
    · exact hplace
    · cases site <;> exact hplace
  | noWaiter check start hpc hq =>
    rw [hpc] at hplace
    cases check <;>
      simp [State.goto, State.setSelf, tested, Pc.Place, Check.seat] at hplace ⊢ <;>
      simp [hplace]
  | wake check start w hpc =>
    rw [hpc] at hplace
    cases check <;>
      simp [State.goto, State.setSelf, tested, Pc.Place, Check.seat] at hplace ⊢ <;>
      simp [hplace]
  | mustWait hpc hs => simpa [State.goto, Pc.Place] using hs
  | served hpc hs =>
    rw [hpc] at hplace
    simp only [State.goto, Function.update_self, Pc.Place] at hplace ⊢
    cases hst : s.state t with
    | thinking => exact absurd hst hplace
    | hungry => exact absurd hst hs
    | eating => rfl
  | pass site hpc hq hv =>
    rw [hpc] at hplace
    cases site <;> simpa [State.goto, State.setLock, Pc.Place] using hplace
  | clear site hpc =>
    rw [hpc] at hplace
    cases site <;> simpa [State.goto, State.setLock, Pc.Place] using hplace
  | unlock site hpc =>
    rw [hpc] at hplace
    cases site <;> simpa [State.goto, released, Pc.Place] using hplace
  | newWaiter hpc =>
    rw [hpc] at hplace
    simpa [State.goto, State.setSelf, Pc.Place] using hplace
  | append w hpc =>
    rw [hpc] at hplace
    simp [State.goto, State.setSelf, Pc.Place] at hplace ⊢
    simp [hplace]
  | waiter check start hpc hq | remove check start w ws hpc hq | delete w hpc | done hpc hr
  | round k hpc hr | eat hpc =>
    rw [hpc] at hplace
    simpa [State.goto, State.setSelf, Pc.Place] using hplace

theorem Move.pc_of_ne (hm : Move s t s') {u : Seat} (hu : u ≠ t) : s'.pc u = s.pc u := by
  cases hm <;> first | rfl | exact Function.update_of_ne hu _ _

theorem Seats.place_move (h : Seats s) (hi : Inv s) (hm : Move s t s') (u : Seat) :
    (s'.pc u).Place s' u := by
  by_cases hu : u = t
  · subst hu
    exact h.place_own hi hm
  · obtain ⟨hsame | hheld, hother⟩ := move_state h hm
    · rw [hm.pc_of_ne hu]
      exact (h.place u).congr hsame
    · rw [hm.pc_of_ne hu]
      exact (h.place u).stable (hi.alone (by simp [hheld]) hu) (hother u hu)

theorem Seats.eating_move (h : Seats s) (hm : Move s t s') {i : Seat} (hi : s'.state i = .eating) :
    s.state i = .eating ∨ ∃ check, s.pc t = .setEating check ∧ i = check.seat t ∧
      s'.state = Function.update s.state i .eating ∧ s.mayEat i = true := by
  have hplace := h.place t
  cases hm with
  | setEating check hpc =>
    rw [hpc] at hplace
    by_cases heq : i = check.seat t
    · subst heq
      exact .inr ⟨check, hpc, rfl, rfl, hplace.1⟩
    · exact .inl ((Function.update_of_ne heq _ _).symm.trans hi)
  | setHungry hpc | setThinking hpc =>
    by_cases heq : i = t
    · subst heq
      simp [State.goto, State.setState] at hi
    · exact .inl ((Function.update_of_ne heq _ _).symm.trans hi)
  | _ => exact .inl hi

theorem succ_ne : ∀ i : Seat, i + 1 ≠ i := by decide

theorem succ_add_four : ∀ i : Seat, i + 1 + 4 = i := by decide

theorem eq_succ_of_add_four : ∀ i j : Seat, i + 4 = j → i = j + 1 := by decide

theorem eq_add_four_of_succ : ∀ i j : Seat, i + 1 = j → i = j + 4 := by decide

theorem Seats.apart_move (h : Seats s) (hm : Move s t s') (i : Seat) (hi : s'.state i = .eating) :
    s'.state (i + 1) ≠ .eating := by
  intro hi'
  obtain hold | ⟨check, -, -, hs, hmay⟩ := h.eating_move hm hi
  · obtain hold' | ⟨check, -, -, -, hmay⟩ := h.eating_move hm hi'
    · exact h.apart i hold hold'
    · have := (mayEat_iff.mp hmay).1
      rw [succ_add_four] at this
      exact this hold
  · rw [hs, Function.update_of_ne (succ_ne i)] at hi'
    exact (mayEat_iff.mp hmay).2.2 hi'

/-- What changes on a wait queue: the waiter of `waitAppend` comes, the one of `signalRemove`
goes. -/
theorem Move.mem_queue (hm : Move s t s') {v : Seat} {w : ℕ} (hw : w ∈ (s'.self v).waitQueue) :
    w ∈ (s.self v).waitQueue ∨ v = t ∧ s.pc t = .waitAppend w := by
  cases hm with
  | append x hpc =>
    by_cases hv : v = t
    · subst hv
      simp only [State.goto, State.setSelf, Function.update_self, Condition.append] at hw
      obtain hw | hw := List.mem_append.mp hw
      · exact .inl hw
      · exact .inr ⟨rfl, List.mem_singleton.mp hw ▸ hpc⟩
    · simp only [State.goto, State.setSelf, Function.update_of_ne hv] at hw
      exact .inl hw
  | remove check start x ws hpc hq =>
    by_cases hv : v = check.seat t
    · subst hv
      simp only [State.goto, State.setSelf, Function.update_self, Condition.remove] at hw
      exact .inl (hq ▸ List.mem_cons_of_mem x hw)
    · simp only [State.goto, State.setSelf, Function.update_of_ne hv] at hw
      exact .inl hw
  | noWaiter check start hpc _ | wake check start x hpc =>
    by_cases hv : v = check.seat t
    · subst hv
      simp only [State.goto, State.setSelf, Function.update_self] at hw
      exact .inl hw
    · simp only [State.goto, State.setSelf, Function.update_of_ne hv] at hw
      exact .inl hw
  | newWaiter | sleep | resume | delete =>
    by_cases hv : v = t
    · subst hv
      simp only [State.goto, State.setSelf, Function.update_self] at hw
      exact .inl hw
    · simp only [State.goto, State.setSelf, Function.update_of_ne hv] at hw
      exact .inl hw
  | _ => exact .inl hw

theorem Move.mem_of_queue (hm : Move s t s') {v : Seat} {w : ℕ}
    (hw : w ∈ (s.self v).waitQueue) : w ∈ (s'.self v).waitQueue ∨
      ∃ check start, s.pc t = .signalRemove check start ∧ v = check.seat t := by
  cases hm with
  | append x hpc =>
    refine .inl ?_
    by_cases hv : v = t
    · subst hv
      simp only [State.goto, State.setSelf, Function.update_self, Condition.append]
      exact List.mem_append_left _ hw
    · simp only [State.goto, State.setSelf, Function.update_of_ne hv]
      exact hw
  | remove check start x ws hpc hq =>
    by_cases hv : v = check.seat t
    · exact .inr ⟨check, start, hpc, hv⟩
    · refine .inl ?_
      simp only [State.goto, State.setSelf, Function.update_of_ne hv]
      exact hw
  | noWaiter check start hpc _ | wake check start x hpc =>
    refine .inl ?_
    by_cases hv : v = check.seat t
    · subst hv
      simp only [State.goto, State.setSelf, Function.update_self]
      exact hw
    · simp only [State.goto, State.setSelf, Function.update_of_ne hv]
      exact hw
  | newWaiter | sleep | resume | delete =>
    refine .inl ?_
    by_cases hv : v = t
    · subst hv
      simp only [State.goto, State.setSelf, Function.update_self]
      exact hw
    · simp only [State.goto, State.setSelf, Function.update_of_ne hv]
      exact hw
  | _ => exact .inl hw

theorem Move.queued (hm : Move s t s') {v : Seat} {w : ℕ} (hst : (s'.pc v).stage = .queued w) :
    (s.pc v).stage = .queued w ∨
      v = t ∧ s.pc t = .waitAppend w ∧ w ∈ (s'.self t).waitQueue := by
  by_cases hv : v = t
  · subst hv
    cases hm with
    | append x hpc =>
      have hx : x = w := by simpa [State.goto, Pc.stage] using hst
      subst hx
      refine .inr ⟨rfl, hpc, ?_⟩
      simp [State.goto, State.setSelf, Condition.append]
    | block | sleep | abort => exact .inl hst
    | asserted p q hpc hp =>
      obtain ⟨check, start, rfl, rfl⟩ | ⟨rfl, rfl⟩ | ⟨site, rfl, rfl⟩ := hp
      · simp [State.goto, Pc.stage] at hst
      · simp [State.goto, Pc.stage] at hst
      · refine .inl (Eq.trans ?_ hst)
        simp only [hpc, State.goto, Function.update_self]
        cases site <;> rfl
    | clear site hpc =>
      refine .inl (Eq.trans ?_ hst)
      simp only [hpc, State.goto, State.setLock, Function.update_self]
      cases site <;> rfl
    | unlock site hpc =>
      refine .inl (Eq.trans ?_ hst)
      simp only [hpc, State.goto, Function.update_self]
      cases site <;> rfl
    | refuse | noWaiter | wake => simp [State.goto] at hst
    | hold site hpc => cases site <;> simp [State.goto, acquired, Pc.stage] at hst
    | pass site hpc => cases site <;> simp [State.goto, Pc.stage] at hst
    | _ => simp [State.goto, Pc.stage] at hst
  · rw [hm.pc_of_ne hv] at hst
    exact .inl hst

theorem Pc.seat_of_queued {p : Pc} {who : Seat} {w : ℕ} (h : p.stage = .queued w) :
    p.seat who = who := by
  unfold Pc.seat
  split <;> first | rfl | cases h

theorem Inv.eq_of_mem (hi : Inv s) {v : Seat} {w x : ℕ} (hst : (s.pc v).stage = .queued w)
    (hx : x ∈ (s.self v).waitQueue) : x = w := by
  obtain ⟨-, u, hu⟩ := (hi.cond v).waiters.mem x hx
  unfold Pc.stageAt at hu
  split_ifs at hu with hseat
  rw [Pc.seat_of_queued hu] at hseat
  subst hseat
  rw [hst] at hu
  exact (Condition.Stage.queued.inj hu).symm

theorem Seats.queued_move (h : Seats s) (hm : Move s t s') (v : Seat) (w : ℕ)
    (hst : (s'.pc v).stage = .queued w) (hw : w ∉ (s'.self v).waitQueue) :
    s'.state v = .eating := by
  have hst' : (s.pc v).stage = .queued w := by
    obtain hst' | ⟨rfl, -, hmem⟩ := hm.queued hst
    · exact hst'
    · exact absurd hmem hw
  have heat : s.state v = .eating := by
    by_cases hmem : w ∈ (s.self v).waitQueue
    · obtain hmem' | ⟨check, start, hpc, rfl⟩ := hm.mem_of_queue hmem
      · exact absurd hmem' hw
      · have hplace := h.place t
        rw [hpc] at hplace
        exact hplace.1
    · exact h.queued v w hst' hmem
  by_cases hv : v = t
  · subst hv
    -- the thread is at none of the assignments
    have hsame : s'.state = s.state := by
      cases hm with
      | setHungry hpc | setThinking hpc | setEating _ hpc =>
        rw [hpc] at hst'
        cases hst'
      | _ => rfl
    rw [hsame, heat]
  · obtain hsame | ⟨-, heat'⟩ := (move_state h hm).2 v hv
    · rw [hsame, heat]
    · exact heat'

theorem Pc.signals_iff {p : Pc} {who i : Seat} : p.Signals who i ↔ ∃ check start,
    (p = .signalAssert check start ∨ p = .signalTest check start ∨
      p = .signalRemove check start) ∧ check.seat who = i := by
  constructor
  · rintro ⟨k, hk⟩
    unfold Pc.stageAt at hk
    split_ifs at hk with hseat
    cases p with
    | signalAssert check start => exact ⟨check, start, .inl rfl, hseat⟩
    | signalTest check start => exact ⟨check, start, .inr (.inl rfl), hseat⟩
    | signalRemove check start => exact ⟨check, start, .inr (.inr rfl), hseat⟩
    | acquireP site | acquireSet site | releaseAssert site | releaseClear site
    | releaseUnlock site => cases site <;> cases hk
    | _ => cases hk
  · rintro ⟨check, start, rfl | rfl | rfl, rfl⟩ <;> exact ⟨signal start, if_pos rfl⟩

theorem Inv.signals_move (hi : Inv s) (hm : Move s t s') {v : Seat} {w : ℕ}
    (hst : (s.pc v).stage = .queued w) (hw : w ∈ (s.self v).waitQueue)
    (hw' : w ∈ (s'.self v).waitQueue) (h : (s.pc t).Signals t v) : (s'.pc t).Signals t v := by
  obtain ⟨check, start, hp, hseat⟩ := Pc.signals_iff.mp h
  rw [Pc.signals_iff]
  cases hm with
  | asserted p q hpc hp' =>
    obtain ⟨check', start', rfl, rfl⟩ | ⟨rfl, rfl⟩ | ⟨site, rfl, rfl⟩ := hp'
    · simp only [hpc, Pc.signalAssert.injEq, reduceCtorEq, or_false] at hp
      obtain ⟨rfl, rfl⟩ := hp
      exact ⟨check', start', .inr (.inl (Function.update_self ..)), hseat⟩
    · simp [hpc] at hp
    · simp [hpc] at hp
  | waiter check' start' hpc hq =>
    simp only [hpc, Pc.signalTest.injEq, reduceCtorEq, or_false, false_or] at hp
    obtain ⟨rfl, rfl⟩ := hp
    exact ⟨check', start', .inr (.inr (Function.update_self ..)), hseat⟩
  | noWaiter check' start' hpc hq =>
    simp only [hpc, Pc.signalTest.injEq, reduceCtorEq, or_false, false_or] at hp
    obtain ⟨rfl, rfl⟩ := hp
    rw [← hseat, hq] at hw
    cases hw
  | remove check' start' x ws hpc hq =>
    simp only [hpc, Pc.signalRemove.injEq, reduceCtorEq, false_or] at hp
    obtain ⟨rfl, rfl⟩ := hp
    subst hseat
    have hsort := (hi.cond (check'.seat t)).waiters.sorted
    rw [hq, List.pairwise_cons] at hsort
    simp only [State.goto, State.setSelf, Function.update_self, Condition.remove] at hw'
    have hx := hi.eq_of_mem hst (hq ▸ List.mem_cons_self (a := x) (l := ws))
    exact absurd (hsort.1 w hw') (hx ▸ lt_irrefl x)
  | block | sleep | abort => exact ⟨check, start, hp, hseat⟩
  | done hpc | round _ hpc | pass _ hpc | hold _ hpc | setHungry hpc | allow _ hpc | refuse _ hpc
  | setEating _ hpc | wake _ _ _ hpc | mustWait hpc | served hpc | newWaiter hpc | append _ hpc
  | resume _ hpc | delete _ hpc | clear _ hpc | unlock _ hpc | eat hpc | setThinking hpc =>
    simp [hpc] at hp

theorem Seats.signalled_move (h : Seats s) (hi : Inv s) (hm : Move s t s') (v : Seat) (w : ℕ)
    (hst : (s'.pc v).stage = .queued w) (heat : s'.state v = .eating)
    (hw : w ∈ (s'.self v).waitQueue) : ∃ u, (s'.pc u).Signals u v := by
  obtain hst' | ⟨rfl, hpc, -⟩ := hm.queued hst
  · have hmem : w ∈ (s.self v).waitQueue := by
      obtain hmem | ⟨rfl, hpc⟩ := hm.mem_queue hw
      · exact hmem
      · rw [hpc] at hst'
        cases hst'
    obtain hold | ⟨check, hpc, rfl, -, -⟩ := h.eating_move hm heat
    · obtain ⟨u, hu⟩ := h.signalled v w hst' hold hmem
      by_cases hut : u = t
      · subst hut
        exact ⟨u, hi.signals_move hm hst' hmem hw hu⟩
      · refine ⟨u, ?_⟩
        rw [hm.pc_of_ne hut]
        exact hu
    · refine ⟨t, Pc.signals_iff.mpr ⟨check, (s.self (check.seat t)).waitQueue, .inl ?_, rfl⟩⟩
      cases hm with
      | setEating check' hpc' =>
        obtain rfl := Pc.setEating.inj (hpc.symm.trans hpc')
        exact Function.update_self ..
      | abort ha => exact absurd (hi.move (.abort ha)).running (by simp)
      | _ => simp_all
  · -- a thread that comes to wait is hungry
    have hplace := h.place v
    rw [hpc] at hplace
    obtain hold | ⟨check, hpc', -, -, -⟩ := h.eating_move hm heat
    · rw [hplace] at hold
      cases hold
    · rw [hpc] at hpc'
      cases hpc'

/-- A seat that is to be tested has been tested without success, has got its place at the table,
or is still to be tested. -/
theorem Move.willTest (hm : Move s t s') {i : Seat} (h : (s.pc t).WillTest t i)
    (hi : s.state i = .hungry) (hi' : s'.state i = .hungry) :
    s.mayEat i = false ∧ s'.state = s.state ∨ (s'.pc t).WillTest t i := by
  cases hm with
  | allow check hpc =>
    rw [hpc] at h
    simp only [State.goto, Function.update_self]
    cases check <;> exact .inr h
  | refuse check hpc hmay =>
    rw [hpc] at h
    simp only [State.goto, Function.update_self]
    cases check with
    | own => exact .inl ⟨h ▸ hmay, trivial⟩
    | left =>
      obtain h | h := h
      · exact .inl ⟨h ▸ hmay, trivial⟩
      · exact .inr h
    | right => exact .inl ⟨h ▸ hmay, trivial⟩
  | setEating check hpc =>
    rw [hpc] at h
    have hne : i ≠ check.seat t := by
      rintro rfl
      simp [State.goto, State.setState] at hi'
    simp only [State.goto, Function.update_self]
    cases check with
    | own => exact absurd h hne
    | left => exact .inr (h.resolve_left hne)
    | right => exact absurd h hne
  | asserted p q hpc hp =>
    rw [hpc] at h
    simp only [State.goto, Function.update_self]
    obtain ⟨check, start, rfl, rfl⟩ | ⟨rfl, rfl⟩ | ⟨site, rfl, rfl⟩ := hp
    · cases check <;> exact .inr h
    · exact h.elim
    · exact h.elim
  | noWaiter check start hpc | waiter check start hpc | remove check start _ _ hpc
  | wake check start _ hpc =>
    rw [hpc] at h
    simp only [State.goto, Function.update_self]
    cases check <;> exact .inr h
  | block | sleep | abort => exact .inr h
  | done hpc | round _ hpc | pass _ hpc | hold _ hpc | setHungry hpc | mustWait hpc | served hpc
  | newWaiter hpc | append _ hpc | resume _ hpc | delete _ hpc | clear _ hpc | unlock _ hpc
  | eat hpc | setThinking hpc =>
    rw [hpc] at h
    exact h.elim

theorem Move.stops (hm : Move s t s') {j : Seat} (h : s.state j = .eating)
    (h' : s'.state j ≠ .eating) (hplace : (s.pc t).Place s t) :
    s.pc t = .setThinking ∧ j = t ∧ s'.pc t = .testIf .left := by
  cases hm with
  | setThinking hpc =>
    by_cases hj : j = t
    · exact ⟨hpc, hj, Function.update_self ..⟩
    · exact absurd ((Function.update_of_ne hj _ _).trans h) h'
  | setHungry hpc =>
    by_cases hj : j = t
    · rw [hpc] at hplace
      rw [hj, hplace] at h
      cases h
    · exact absurd ((Function.update_of_ne hj _ _).trans h) h'
  | setEating check hpc =>
    by_cases hj : j = check.seat t
    · exact absurd (hj ▸ Function.update_self ..) h'
    · exact absurd ((Function.update_of_ne hj _ _).trans h) h'
  | _ => exact absurd h h'

theorem Move.starts (hm : Move s t s') {i : Seat} (h : s'.state i = .hungry) :
    s.state i = .hungry ∨ i = t ∧ s'.pc t = .testIf .own := by
  cases hm with
  | setHungry hpc =>
    by_cases hi : i = t
    · exact .inr ⟨hi, Function.update_self ..⟩
    · exact .inl ((Function.update_of_ne hi _ _).symm.trans h)
  | setThinking hpc =>
    by_cases hi : i = t
    · subst hi
      simp [State.goto, State.setState] at h
    · exact .inl ((Function.update_of_ne hi _ _).symm.trans h)
  | setEating check hpc =>
    by_cases hi : i = check.seat t
    · subst hi
      simp [State.goto, State.setState] at h
    · exact .inl ((Function.update_of_ne hi _ _).symm.trans h)
  | _ => exact .inl h

theorem Seats.covered_move (h : Seats s) (hm : Move s t s') (i : Seat)
    (hs : s'.state i = .hungry) :
    s'.state (i + 4) = .eating ∨ s'.state (i + 1) = .eating ∨ ∃ u, (s'.pc u).WillTest u i := by
  obtain hold | ⟨rfl, hpc⟩ := hm.starts hs
  · have hstop : ∀ j, s.state j = .eating → i = j + 1 ∨ i = j + 4 →
        s'.state j = .eating ∨ ∃ u, (s'.pc u).WillTest u i := by
      intro j hj hij
      by_cases hj' : s'.state j = .eating
      · exact .inl hj'
      · obtain ⟨-, rfl, hpc⟩ := hm.stops hj hj' (h.place t)
        refine .inr ⟨j, ?_⟩
        rw [hpc]
        exact hij.symm
    obtain hj | hj | ⟨u, hu⟩ := h.covered i hold
    · obtain hj | hu := hstop _ hj (.inl (eq_succ_of_add_four i _ rfl))
      · exact .inl hj
      · exact .inr (.inr hu)
    · obtain hj | hu := hstop _ hj (.inr (eq_add_four_of_succ i _ rfl))
      · exact .inr (.inl hj)
      · exact .inr (.inr hu)
    · by_cases hut : u = t
      · subst hut
        obtain ⟨hmay, hsame⟩ | hu' := hm.willTest hu hold hs
        · rw [hsame]
          by_contra hno
          simp only [not_or] at hno
          rw [mayEat_iff.mpr ⟨hno.1, hold, hno.2.1⟩] at hmay
          cases hmay
        · exact .inr (.inr ⟨u, hu'⟩)
      · refine .inr (.inr ⟨u, ?_⟩)
        rw [hm.pc_of_ne hut]
        exact hu
  · refine .inr (.inr ⟨i, ?_⟩)
    rw [hpc]
    exact rfl

theorem Seats.move (h : Seats s) (hi : Inv s) (hm : Move s t s') : Seats s' where
  place := h.place_move hi hm
  apart := h.apart_move hm
  queued := h.queued_move hm
  signalled := h.signalled_move hi hm
  covered := h.covered_move hm

theorem reachable_seats {n : ℕ} (h : Reachable (· = State.new n) Step s) : Seats s := by
  refine Reachable.invariant_of (Q := Inv) reachable_inv ?_ ?_ h
  · rintro _ rfl
    exact new_seats n
  · rintro s s' hi hs ⟨t, h⟩
    unfold State.step at h
    split_ifs at h
    exact hs.move hi (exec_move h)

end Nachos.DinningPh
