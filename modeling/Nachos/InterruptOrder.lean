import Nachos.Interrupt

/-! Interrupts for the same tick. `SortedInsert` puts an element behind those with its key, which
keeps the order in which they were scheduled. `CheckIfDue` also puts the head of the list back
that way when it is not due, and then it is behind those that were scheduled after it. -/
namespace Nachos.Interrupt

def Before (p q : PendingInterrupt) : Prop := p.when < q.when ∨ p.when = q.when ∧ p.id < q.id

/-- The head of the list is not due yet, and the next interrupt is for the same tick. -/
def State.LateTie (s : State) (advanceClock : Bool) : Prop :=
  s.level = .intOff ∧ advanceClock = false ∧ ∃ p q rest, s.pending = p :: q :: rest ∧
    s.totalTicks < p.when ∧ q.when = p.when

instance (s : State) (advanceClock : Bool) : Decidable (s.LateTie advanceClock) :=
  decidable_of_iff (s.level = .intOff ∧ advanceClock = false ∧ ∃ p ∈ s.pending.head?,
    ∃ q ∈ s.pending.tail.head?, s.totalTicks < p.when ∧ q.when = p.when) (by
      unfold State.LateTie
      rcases s.pending with - | ⟨p, - | ⟨q, rest⟩⟩ <;> simp)

/-- A round of a loop does not put the head back behind another interrupt for its tick. -/
def State.Untied (s : State) : Input → Prop
  | .check _ => s.pc ≠ .idleFirst → ¬ s.LateTie false
  | _ => True

instance (s : State) (i : Input) : Decidable (s.Untied i) :=
  match i with
  | .check _ => inferInstanceAs (Decidable (s.pc ≠ .idleFirst → ¬ s.LateTie false))
  | .schedule .. | .setLevel _ | .oneTick | .idle | .setStatus _ => .isTrue trivial

def StepUntied (s s' : State) : Prop := ∃ i, s.Untied i ∧ s.step i = some s'

theorem Before.le {p q : PendingInterrupt} (h : Before p q) : p.when ≤ q.when := by
  unfold Before at h
  omega

theorem sortedInsert_lt {p q : PendingInterrupt} {l : List PendingInterrupt}
    (h : p.when < q.when) : sortedInsert p (q :: l) = p :: q :: l :=
  KeyedInsert.insert_cons_of_lt PendingInterrupt.when h

theorem sortedInsert_not_lt {p q : PendingInterrupt} {l : List PendingInterrupt}
    (h : ¬ p.when < q.when) : sortedInsert p (q :: l) = q :: sortedInsert p l :=
  KeyedInsert.insert_cons_of_not_lt PendingInterrupt.when h

theorem sortedInsert_before {p : PendingInterrupt} {l : List PendingInterrupt}
    (h : l.Pairwise Before) (hnew : ∀ q ∈ l, q.id < p.id) : (sortedInsert p l).Pairwise Before := by
  induction l with
  | nil => simp [sortedInsert]
  | cons q l ih =>
    obtain ⟨hq, hl⟩ := List.pairwise_cons.mp h
    by_cases hlt : p.when < q.when
    · rw [sortedInsert_lt hlt, List.pairwise_cons]
      refine ⟨fun x hx => .inl ?_, h⟩
      obtain rfl | hx := List.mem_cons.mp hx
      · exact hlt
      · exact hlt.trans_le (hq x hx).le
    · rw [sortedInsert_not_lt hlt, List.pairwise_cons]
      refine ⟨fun x hx => ?_, ih hl fun x hx => hnew x (List.mem_cons_of_mem _ hx)⟩
      obtain rfl | hx := mem_sortedInsert.mp hx
      · have := hnew q List.mem_cons_self
        unfold Before
        omega
      · exact hq x hx

/-- The interrupts that have been called and those that are pending, in the order of their ticks
and of their scheduling. -/
structure Fifo (s : State) : Prop where
  order : (s.fired.map Firing.interrupt ++ s.pending).Pairwise Before
  ids : ∀ p ∈ s.fired.map Firing.interrupt ++ s.pending, p.id < s.next
  past : ∀ p ∈ s.fired.map Firing.interrupt, p.when ≤ s.totalTicks

theorem new_fifo : Fifo State.new := ⟨List.Pairwise.nil, nofun, nofun⟩

namespace Fifo
variable {s s' : State} {p : PendingInterrupt} {rest : List PendingInterrupt}

theorem sorted (h : Fifo s) : s.pending.Pairwise (·.when ≤ ·.when) :=
  (List.pairwise_append.mp h.order).2.1.imp Before.le

theorem congr (h : Fifo s) (hf : s'.fired = s.fired) (hp : s'.pending = s.pending)
    (hn : s'.next = s.next) (ht : s.totalTicks ≤ s'.totalTicks) : Fifo s' := by
  constructor
  case order =>
    rw [hf, hp]
    exact h.order
  case ids =>
    rw [hf, hp, hn]
    exact h.ids
  case past =>
    rw [hf]
    exact fun p hp => (h.past p hp).trans ht

theorem schedule (h : Fifo s) (fromNow : ℤ) (type : IntType) : Fifo (s.schedule fromNow type) := by
  unfold State.schedule
  split_ifs with hpos
  · obtain ⟨hfired, hpending, hacross⟩ := List.pairwise_append.mp h.order
    have hids : ∀ q ∈ s.pending, q.id < s.next := fun q hq => h.ids q (List.mem_append_right _ hq)
    constructor
    case order =>
      refine List.pairwise_append.mpr ⟨hfired, sortedInsert_before hpending hids, ?_⟩
      intro f hf q hq
      obtain rfl | hq := mem_sortedInsert.mp hq
      · have := h.past f hf
        exact .inl (by simp only; omega)
      · exact hacross f hf q hq
    case ids =>
      intro q hq
      obtain hq | hq := List.mem_append.mp hq
      · exact (h.ids q (List.mem_append_left _ hq)).trans (Nat.lt_succ_self _)
      · obtain rfl | hq := mem_sortedInsert.mp hq
        · exact Nat.lt_succ_self _
        · exact (hids q hq).trans (Nat.lt_succ_self _)
    case past => exact h.past
  · exact h.congr rfl rfl rfl le_rfl

theorem act (h : Fifo s) (a : Action) : Fifo (s.act a) := by
  unfold State.act
  split_ifs
  · exact h
  · cases a with
    | schedule fromNow type => exact h.schedule fromNow type
    | yieldOnReturn => exact h.congr rfl rfl rfl le_rfl
    | v => exact h

theorem acts (h : Fifo s) (l : List Action) : Fifo (l.foldl State.act s) := by
  induction l generalizing s with
  | nil => exact h
  | cons a l ih => exact ih (h.act a)

theorem fire (h : Fifo s) (hp : s.pending = p :: rest) (hdue : p.when ≤ s.totalTicks)
    (l : List Action) : Fifo ({ s with pending := rest }.fire p l) := by
  have hlist : (s.fired ++ [(⟨p, s.totalTicks, s.level⟩ : Firing)]).map Firing.interrupt ++ rest =
      s.fired.map Firing.interrupt ++ s.pending := by
    rw [hp, List.map_append, List.append_assoc]
    rfl
  have hstart : Fifo { s with
      pending := rest
      inHandler := true
      status := .systemMode
      fired := s.fired ++ [⟨p, s.totalTicks, s.level⟩] } := by
    constructor
    case order =>
      dsimp only
      rw [hlist]
      exact h.order
    case ids =>
      dsimp only
      rw [hlist]
      exact h.ids
    case past =>
      intro q hq
      rw [List.map_append, List.mem_append] at hq
      obtain hq | hq := hq
      · exact h.past q hq
      · rw [List.map_singleton, List.mem_singleton] at hq
        exact hq ▸ hdue
  exact (hstart.acts l).congr rfl rfl rfl le_rfl

theorem invoke (h : Fifo s) (hp : s.pending = p :: rest) (hdue : p.when ≤ s.totalTicks)
    (l : List Action) : Fifo (s.invoke p rest l).1 := by
  unfold State.invoke
  split_ifs with honly
  · refine h.congr rfl ?_ rfl le_rfl
    rw [hp, honly.2.2]
    rfl
  · exact h.fire hp hdue l

end Fifo

/-- An interrupt that is not due goes back to where it was, unless another one is for its tick. -/
theorem putBack_eq {s : State} (h : s.pending.Pairwise (·.when ≤ ·.when)) {p : PendingInterrupt}
    {rest : List PendingInterrupt} (hp : s.pending = p :: rest) (hlevel : s.level = .intOff)
    (hlate : s.totalTicks < p.when) (hno : ¬ s.LateTie false) :
    sortedInsert p rest = p :: rest := by
  cases rest with
  | nil => rfl
  | cons q rest =>
    refine sortedInsert_lt ?_
    rw [hp] at h
    have hle := (List.pairwise_cons.mp h).1 q List.mem_cons_self
    refine lt_of_le_of_ne hle fun heq => hno ?_
    exact ⟨hlevel, rfl, p, q, rest, hp, hlate, heq.symm⟩

namespace Fifo
variable {s s' : State}

theorem checkIfDue (h : Fifo s) (advanceClock : Bool) (l : List Action)
    (hno : ¬ s.LateTie advanceClock) : Fifo (s.checkIfDue advanceClock l).1 := by
  unfold State.checkIfDue
  split_ifs with hlevel
  · cases hp : s.pending with
    | nil => exact h
    | cons p rest =>
      dsimp only
      split_ifs with hadv hlate
      · have hclock : Fifo { s with
            idleTicks := s.idleTicks + (p.when - s.totalTicks)
            totalTicks := p.when } := h.congr rfl rfl rfl hadv.2.le
        exact hclock.invoke hp le_rfl l
      · have hfalse : advanceClock = false := by
          by_contra htrue
          exact hadv ⟨by simpa using htrue, hlate⟩
        rw [hfalse] at hno
        exact h.congr rfl ((putBack_eq h.sorted hp hlevel hlate hno).trans hp.symm) rfl le_rfl
      · exact h.invoke hp (not_lt.mp hlate) l
  · exact h.congr rfl rfl rfl le_rfl

theorem oneTick (h : Fifo s) : Fifo s.oneTick := by
  have hticks := s.oneTick_totalTicks
  unfold State.oneTick at hticks ⊢
  split_ifs at hticks ⊢
  · exact h.congr rfl rfl rfl hticks
  · exact h.congr rfl rfl rfl hticks

theorem endTick (h : Fifo s) : Fifo s.endTick := by
  unfold State.endTick
  split_ifs <;> exact h.congr rfl rfl rfl le_rfl

theorem setLevel (h : Fifo s) (now : IntStatus) : Fifo (s.setLevel now) := by
  have hlevel : Fifo { s with level := now } := h.congr rfl rfl rfl le_rfl
  unfold State.setLevel
  split_ifs
  · exact hlevel.oneTick
  · exact hlevel
  · exact h.congr rfl rfl rfl le_rfl

theorem exec (h : Fifo s) {i : Input} (hu : s.Untied i) (hs : s.exec i = some s') : Fifo s' := by
  cases exec_outcome hs with
  | schedule fromNow type => exact h.schedule fromNow type
  | setLevel now => exact h.setLevel now
  | oneTick => exact h.oneTick
  | idle | setStatus => exact h.congr rfl rfl rfl le_rfl
  | round acts hpc =>
    refine h.checkIfDue false acts (hu ?_)
    obtain hpc | hpc := hpc <;> rw [hpc] <;> decide
  | endTick acts hpc => exact (h.checkIfDue false acts (hu (by rw [hpc]; decide))).endTick
  | idleFirst acts p =>
    have hc := h.checkIfDue true acts fun ht => Bool.noConfusion ht.2.1
    exact hc.congr rfl rfl rfl le_rfl
  | endIdle acts hpc =>
    have hc := h.checkIfDue false acts (hu (by rw [hpc]; decide))
    exact hc.congr rfl rfl rfl le_rfl

end Fifo

theorem reachable_fifo {s : State} (h : Reachable (· = State.new) StepUntied s) : Fifo s := by
  refine Reachable.invariant ?_ ?_ h
  · rintro _ rfl
    exact new_fifo
  · rintro s s' hi ⟨i, hu, hs⟩
    unfold State.step at hs
    split_ifs at hs
    exact hi.exec hu hs

theorem Inv.nodup_pending {s : State} (h : Inv s) : s.pending.Nodup := by
  have hids := h.conserved.nodup_iff.mpr List.nodup_range
  rw [List.map_append] at hids
  exact List.Nodup.of_map _ (List.nodup_append.mp hids).1

theorem checkIfDue_lateTie {s : State} (h : Inv s) {advanceClock : Bool} (l : List Action)
    (ht : s.LateTie advanceClock) : ∃ s', s.checkIfDue advanceClock l = (s', false) ∧
      s'.pending ≠ s.pending := by
  obtain ⟨hlevel, rfl, p, q, rest, hp, hlate, heq⟩ := ht
  refine ⟨{ s with pending := sortedInsert p (q :: rest) }, ?_, ?_⟩
  · simp only [State.checkIfDue, hlevel, hp, if_true]
    rw [if_neg (by simp), if_pos hlate]
  · dsimp only
    rw [hp, sortedInsert_not_lt (by omega)]
    intro hsame
    have hnd := h.nodup_pending
    rw [hp, (List.cons.inj hsame).1] at hnd
    simp at hnd

theorem invoke_keeps {s s' : State} {p : PendingInterrupt} {rest : List PendingInterrupt}
    {l : List Action} (hrun : s.invoke p rest l = (s', false)) : s'.pending = p :: rest := by
  unfold State.invoke at hrun
  split_ifs at hrun with honly
  · obtain ⟨rfl, -⟩ := Prod.mk.inj hrun
    rw [honly.2.2]
    rfl
  · exact absurd (Prod.mk.inj hrun).2 (by decide)

theorem checkIfDue_keeps {s s' : State} (h : s.pending.Pairwise (·.when ≤ ·.when))
    {advanceClock : Bool} {l : List Action} (hno : ¬ s.LateTie advanceClock)
    (hrun : s.checkIfDue advanceClock l = (s', false)) : s'.pending = s.pending := by
  unfold State.checkIfDue at hrun
  split_ifs at hrun with hlevel
  · cases hp : s.pending with
    | nil =>
      simp only [hp, Prod.mk.injEq] at hrun
      rw [← hrun.1, hp]
    | cons p rest =>
      simp only [hp] at hrun
      split_ifs at hrun with hadv hlate
      · exact invoke_keeps hrun
      · have hfalse : advanceClock = false := by
          by_contra htrue
          exact hadv ⟨by simpa using htrue, hlate⟩
        obtain ⟨rfl, -⟩ := Prod.mk.inj hrun
        exact putBack_eq h hp hlevel hlate (hfalse ▸ hno)
      · exact invoke_keeps hrun
  · obtain ⟨rfl, -⟩ := Prod.mk.inj hrun
    rfl

/-- A call of `CheckIfDue` that finds nothing due leaves the list as it is unless the clock stays,
the head of the list is for a later tick and the next interrupt for the same one; and in a run
without such calls the interrupts for one tick are called in the order in which they were
scheduled. -/
theorem putBack_keeps_iff {s : State} (h : Reachable (· = State.new) Step s) :
    (∀ advanceClock acts,
      (∀ s', s.checkIfDue advanceClock acts = (s', false) → s'.pending = s.pending) ↔
        ¬ s.LateTie advanceClock) ∧
      (Reachable (· = State.new) StepUntied s → s.fired.Pairwise fun f g =>
        f.interrupt.when = g.interrupt.when → f.interrupt.id < g.interrupt.id) := by
  have hi := reachable_inv h
  refine ⟨fun advanceClock acts => ⟨?_, ?_⟩, fun hu => ?_⟩
  · intro hkeeps ht
    obtain ⟨s', hrun, hne⟩ := checkIfDue_lateTie hi acts ht
    exact hne (hkeeps s' hrun)
  · intro hno s' hrun
    exact checkIfDue_keeps hi.sorted hno hrun
  · have hfired := (List.pairwise_append.mp (reachable_fifo hu).order).1
    refine (List.pairwise_map.mp hfired).imp ?_
    intro f g hbefore heq
    unfold Before at hbefore
    omega

def idleTies : List Input :=
  [.schedule 20 .timerInt, .schedule 20 .diskInt, .idle, .check [], .check []]

theorem putBack_keeps_idleTies : ∃ s : State, Reachable (· = State.new) Step s ∧
    s.fired.map Firing.interrupt = [⟨0, 20, .timerInt⟩, ⟨1, 20, .diskInt⟩] ∧
    s.fired.Pairwise fun f g =>
      f.interrupt.when = g.interrupt.when → f.interrupt.id < g.interrupt.id := by
  have hrun : (idleTies.foldlM (fun (s : State) i => if s.Untied i then s.step i else none)
      State.new).any (fun s : State => s.fired.map Firing.interrupt =
        [⟨0, 20, .timerInt⟩, ⟨1, 20, .diskInt⟩]) = true := by
    decide
  obtain ⟨s, hs, hb⟩ := (Option.any_eq_true _ _).mp hrun
  have hu : Reachable (· = State.new) StepUntied s := by
    refine Reachable.of_foldlM (fun s i s' h => ?_) (.init rfl) hs
    split_ifs at h with hi
    exact ⟨i, hi, h⟩
  have hr : Reachable (· = State.new) Step s := hu.mono (fun _ h => h) fun _ _ ⟨i, _, h⟩ => ⟨i, h⟩
  exact ⟨s, hr, of_decide_eq_true hb, (putBack_keeps_iff hr).2 hu⟩

def tiedRun : List Input := [.schedule 20 .timerInt, .schedule 20 .diskInt, .oneTick]

def tiedCalls : List Input := [.check [], .oneTick, .check [], .check []]

/-- The two are put in the other order, and are called so. -/
theorem tied_swapped :
    (∃ s s', Reachable (· = State.new) Step s ∧ s.checkIfDue false [] = (s', false) ∧
      s'.pending ≠ s.pending) ∧
    ∃ s, Reachable (· = State.new) Step s ∧
      s.fired.map Firing.interrupt = [⟨1, 20, .diskInt⟩, ⟨0, 20, .timerInt⟩] := by
  constructor
  · have hrun : (tiedRun.foldlM State.step State.new).any (fun s : State =>
        (s.checkIfDue false []).2 = false ∧
          (s.checkIfDue false []).1.pending ≠ s.pending) = true := by
      decide
    obtain ⟨s, hs, hb⟩ := (Option.any_eq_true _ _).mp hrun
    obtain ⟨hfalse, hne⟩ := of_decide_eq_true hb
    exact ⟨s, _, Reachable.of_foldlM (fun _ i _ h => ⟨i, h⟩) (.init rfl) hs, Prod.ext rfl hfalse,
      hne⟩
  · have hrun : ((tiedRun ++ tiedCalls).foldlM State.step State.new).any
        (fun s : State => s.fired.map Firing.interrupt =
          [⟨1, 20, .diskInt⟩, ⟨0, 20, .timerInt⟩]) = true := by
      decide
    obtain ⟨s, hs, hb⟩ := (Option.any_eq_true _ _).mp hrun
    exact ⟨s, Reachable.of_foldlM (fun _ i _ h => ⟨i, h⟩) (.init rfl) hs, of_decide_eq_true hb⟩

end Nachos.Interrupt
