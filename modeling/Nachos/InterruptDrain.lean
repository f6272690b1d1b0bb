import Nachos.InterruptOrder
import Nachos.KeyedInsert

/-! The loop `while (CheckIfDue(false))` of `OneTick` (`interrupt.cc`), with handlers that re-arm
their devices while it runs, like the timer (`timer.cc`). `acts` gives the actions of the handlers
in the order of their calls. -/
namespace Nachos.Interrupt

abbrev timerTicks : ℤ := 100

/-- With the number that `Random` returns. -/
def timeOfNextInterrupt (randomize : Bool) (random : ℤ) : ℤ :=
  if randomize then 1 + random.tmod (timerTicks * 2) else timerTicks

/-- `TimerExpired`, with what the handler of the kernel does in it. -/
def timerExpired (randomize : Bool) (random : ℤ) (handler : List Action) : List Action :=
  .schedule (timeOfNextInterrupt randomize random) .timerInt :: handler

/-- `while (CheckIfDue(false))`, with at most `fuel` calls. -/
def State.drain (s : State) (acts : ℕ → List Action) : ℕ → Option State
  | 0 => none
  | fuel + 1 => match s.checkIfDue false (acts 0) with
    | (s', true) => s'.drain (fun n => acts (n + 1)) fuel
    | (s', false) => some s'

def Action.Later : Action → Prop
  | .schedule fromNow _ => 0 < fromNow
  | .yieldOnReturn | .v => True

theorem timerExpired_later {randomize : Bool} {random : ℤ} (hr : 0 ≤ random)
    {handler : List Action} (h : ∀ a ∈ handler, a.Later) :
    ∀ a ∈ timerExpired randomize random handler, a.Later := by
  intro a ha
  obtain rfl | ha := List.mem_cons.mp ha
  · have hmod : 0 ≤ random.tmod (timerTicks * 2) := Int.tmod_nonneg _ hr
    simp only [Action.Later, timeOfNextInterrupt]
    split_ifs <;> simp only [timerTicks] at hmod ⊢ <;> omega
  · exact h a ha

def State.due (s : State) : List PendingInterrupt :=
  s.pending.filter (·.when ≤ s.totalTicks)

theorem sorted_iff_inserted {l : List PendingInterrupt} :
    l.Pairwise (·.when ≤ ·.when) ↔
      ∃ l' : List PendingInterrupt, l = l'.foldl (fun l p => sortedInsert p l) [] := by
  constructor
  · intro h
    refine ⟨l, ?_⟩
    induction l using List.reverseRecOn with
    | nil => rfl
    | append_singleton l p ih =>
      have hsplit := List.pairwise_append.mp h
      have hlast : ∀ q ∈ l, ¬ p.when < q.when :=
        fun q hq => not_lt.mpr (hsplit.2.2 q hq p (List.mem_singleton_self p))
      rw [List.foldl_append, ← ih hsplit.1]
      have hinsert := KeyedInsert.insert_append PendingInterrupt.when hlast []
      rw [List.append_nil] at hinsert
      exact hinsert.symm
  · rintro ⟨l', rfl⟩
    induction l' using List.reverseRecOn with
    | nil => exact List.Pairwise.nil
    | append_singleton l' p ih =>
      rw [List.foldl_append]
      exact KeyedInsert.pairwise_insert PendingInterrupt.when ih

/-- The handlers leave the clock, the level and what is due. -/
structure Undisturbed (s s' : State) : Prop where
  aborted : s'.aborted = s.aborted
  level : s'.level = s.level
  totalTicks : s'.totalTicks = s.totalTicks
  fired : s'.fired = s.fired
  due : s'.due = s.due
  sorted : s.pending.Pairwise (·.when ≤ ·.when) → s'.pending.Pairwise (·.when ≤ ·.when)

namespace Undisturbed
variable {s s' s'' : State}

theorem refl (s : State) : Undisturbed s s := ⟨rfl, rfl, rfl, rfl, rfl, id⟩

theorem trans (h : Undisturbed s s') (h' : Undisturbed s' s'') : Undisturbed s s'' where
  aborted := h'.aborted.trans h.aborted
  level := h'.level.trans h.level
  totalTicks := h'.totalTicks.trans h.totalTicks
  fired := h'.fired.trans h.fired
  due := h'.due.trans h.due
  sorted := h'.sorted ∘ h.sorted

theorem act {a : Action} (ha : a.Later) (s : State) : Undisturbed s (s.act a) := by
  unfold State.act
  split_ifs
  · exact refl s
  · cases a with
    | schedule fromNow type =>
      have hpos : 0 < fromNow := ha
      have hlate : decide (s.totalTicks + fromNow ≤ s.totalTicks) = false := by
        simp only [decide_eq_false_iff_not]
        omega
      simp only [State.schedule, if_pos hpos]
      refine ⟨rfl, rfl, rfl, rfl, ?_, fun h => KeyedInsert.pairwise_insert _ h⟩
      exact KeyedInsert.filter_insert_of_not PendingInterrupt.when hlate
    | yieldOnReturn => exact ⟨rfl, rfl, rfl, rfl, rfl, id⟩
    | v => exact refl s

theorem acts {l : List Action} (hl : ∀ a ∈ l, a.Later) (s : State) :
    Undisturbed s (l.foldl State.act s) := by
  induction l generalizing s with
  | nil => exact refl s
  | cons a l ih =>
    have ha := act (hl a List.mem_cons_self) s
    exact ha.trans (ih (fun b hb => hl b (List.mem_cons_of_mem a hb)) _)

end Undisturbed

variable {s : State}

theorem fire_due {p : PendingInterrupt} {rest : List PendingInterrupt}
    (hp : s.pending = p :: rest) (hsorted : s.pending.Pairwise (·.when ≤ ·.when))
    (hdue : p.when ≤ s.totalTicks) {l : List Action} (hl : ∀ a ∈ l, a.Later) :
    let s' := { s with pending := rest }.fire p l
    s.due = p :: s'.due ∧ s'.pending.Pairwise (·.when ≤ ·.when) ∧ s'.status = s.status ∧
      s'.level = s.level ∧ s'.aborted = s.aborted ∧ s'.totalTicks = s.totalTicks ∧
      s'.fired = s.fired ++ [⟨p, s.totalTicks, s.level⟩] := by
  have hacts := Undisturbed.acts hl { s with
    pending := rest
    inHandler := true
    status := .systemMode
    fired := s.fired ++ [⟨p, s.totalTicks, s.level⟩] }
  rw [hp] at hsorted
  refine ⟨?_, hacts.sorted (List.pairwise_cons.mp hsorted).2, rfl, hacts.level, hacts.aborted,
    hacts.totalTicks, hacts.fired⟩
  have hrest : ({ s with pending := rest }.fire p l).due =
      rest.filter (·.when ≤ s.totalTicks) := hacts.due
  rw [hrest, State.due, hp, List.filter_cons_of_pos (by simpa using hdue)]

theorem checkIfDue_fire {p : PendingInterrupt} {rest : List PendingInterrupt}
    (hlevel : s.level = .intOff) (hstatus : s.status ≠ .idleMode) (hp : s.pending = p :: rest)
    (hdue : p.when ≤ s.totalTicks) (l : List Action) :
    s.checkIfDue false l = ({ s with pending := rest }.fire p l, true) := by
  simp only [State.checkIfDue, hlevel, if_true, hp, Bool.false_eq_true, false_and, if_false,
    not_lt.mpr hdue, State.invoke, hstatus]

theorem checkIfDue_end (hlevel : s.level = .intOff) (hnone : s.due = []) (l : List Action) :
    ∃ pending, s.checkIfDue false l = ({ s with pending := pending }, false) ∧
      ∀ p ∈ pending, s.totalTicks < p.when := by
  have hlate : ∀ p ∈ s.pending, s.totalTicks < p.when := by
    intro p hp
    have hnot := List.filter_eq_nil_iff.mp hnone p hp
    simpa using hnot
  cases hp : s.pending with
  | nil =>
    refine ⟨[], ?_, nofun⟩
    simp only [State.checkIfDue, hlevel, if_true, hp]
    rw [← hp, ← hlevel]
  | cons p rest =>
    rw [hp] at hlate
    refine ⟨sortedInsert p rest, ?_, ?_⟩
    · simp only [State.checkIfDue, hlevel, if_true, hp, Bool.false_eq_true, false_and, if_false,
        gt_iff_lt, hlate p List.mem_cons_self]
    · intro q hq
      refine hlate q ?_
      rwa [List.mem_cons, ← mem_sortedInsert]

/-- The loop calls the handlers that are due when it starts, in the order of the list, and leaves
nothing due. -/
theorem drain_due (hlevel : s.level = .intOff) (hstatus : s.status ≠ .idleMode)
    (haborted : s.aborted = false) (hsorted : s.pending.Pairwise (·.when ≤ ·.when))
    {acts : ℕ → List Action} (hacts : ∀ n, ∀ a ∈ acts n, a.Later) :
    ∃ s', (∀ fuel, s.drain acts fuel = if s.due.length < fuel then some s' else none) ∧
      s'.fired = s.fired ++ s.due.map (fun p => ⟨p, s.totalTicks, .intOff⟩) ∧
      (∀ p ∈ s'.pending, s'.totalTicks < p.when) ∧ s'.totalTicks = s.totalTicks ∧
      s'.aborted = false := by
  generalize hd : s.due = d
  induction d generalizing s acts with
  | nil =>
    obtain ⟨pending, hend, hlate⟩ := checkIfDue_end hlevel hd (acts 0)
    refine ⟨{ s with pending := pending }, fun fuel => ?_, by simp, hlate, rfl, haborted⟩
    cases fuel with
    | zero => rfl
    | succ fuel => simp [State.drain, hend]
  | cons p d ih =>
    cases hp : s.pending with
    | nil => simp [State.due, hp] at hd
    | cons q rest =>
      have hdue : q.when ≤ s.totalTicks := by
        by_contra hlate
        have hmem : p ∈ s.due := by
          rw [hd]
          exact List.mem_cons_self
        obtain ⟨hpmem, hpdue⟩ := List.mem_filter.mp hmem
        rw [hp] at hpmem hsorted
        obtain rfl | hpmem := List.mem_cons.mp hpmem
        · exact hlate (by simpa using hpdue)
        · have hle := (List.pairwise_cons.mp hsorted).1 p hpmem
          simp only [decide_eq_true_eq] at hpdue
          omega
      obtain ⟨hcons, hsorted', hstatus', hlevel', haborted', hticks', hfired'⟩ :=
        fire_due hp hsorted hdue (hacts 0)
      rw [hd] at hcons
      obtain ⟨rfl, rfl⟩ := List.cons.inj hcons
      have hround := checkIfDue_fire hlevel hstatus hp hdue (acts 0)
      generalize { s with pending := rest }.fire p (acts 0) = s₁ at *
      obtain ⟨s', hrun, hfired, hpending, hticks, hab⟩ := ih (hlevel'.trans hlevel)
        (by rwa [hstatus']) (haborted'.trans haborted) hsorted' (fun n => hacts (n + 1)) rfl
      refine ⟨s', fun fuel => ?_, ?_, hpending, hticks.trans hticks', hab⟩
      · cases fuel with
        | zero => rfl
        | succ fuel => simp only [State.drain, hround, hrun, List.length_cons, Nat.succ_lt_succ_iff]
      · rw [hfired, hfired', hticks', hlevel, List.map_cons, List.append_assoc]
        rfl

def timerTick : State :=
  { State.new with
    pending := [⟨0, 100, .timerInt⟩, ⟨1, 105, .diskInt⟩, ⟨2, 300, .consoleReadInt⟩]
    totalTicks := 110
    next := 3 }

def timerActs : ℕ → List Action
  | 0 => timerExpired true 250 [.yieldOnReturn]
  | _ => [.v]

theorem drain_due_timer : ∃ s', timerTick.drain timerActs 3 = some s' ∧
    s'.fired.map (·.interrupt.id) = [0, 1] ∧ ∀ p ∈ s'.pending, 110 < p.when := by
  have hacts : ∀ n, ∀ a ∈ timerActs n, a.Later := by
    intro n
    cases n with
    | zero => exact timerExpired_later (by decide) (by simp [Action.Later])
    | succ n => simp [timerActs, Action.Later]
  have hsorted : timerTick.pending.Pairwise (·.when ≤ ·.when) := by decide
  have hdue : timerTick.due = [⟨0, 100, .timerInt⟩, ⟨1, 105, .diskInt⟩] := by decide
  obtain ⟨s', hrun, hfired, hpending, hticks, -⟩ :=
    drain_due (s := timerTick) rfl (by decide) rfl hsorted hacts
  rw [hdue] at hrun hfired
  rw [hticks] at hpending
  refine ⟨s', hrun 3, ?_, hpending⟩
  rw [hfired]
  rfl

end Nachos.Interrupt
