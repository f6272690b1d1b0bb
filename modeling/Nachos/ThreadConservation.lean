import Nachos.KernelThreads

/-! Where the threads are. `Placed` says that the ready list and the semaphore queues hold each
waiting thread once, and no other; `Detached` says it of all threads but one, which is in none of
them. A kernel operation detaches a thread, gives it a new state and puts it where that state
belongs. -/
namespace Nachos.Kernel

variable {T S : Type} {k k' : State T S} {t u : T}

theorem nodup_append_singleton {l : List T} (h : l.Nodup) (ht : t ∉ l) : (l ++ [t]).Nodup := by
  rw [← List.concat_eq_append]
  exact h.concat ht

def Cont.waiting : Cont S → Bool
  | .fresh | .yielded | .inP _ => true
  | _ => false

structure At (k : State T S) (t : T) : Prop where
  ready : t ∈ k.readyList → (k.cont t).waiting = true
  queue : ∀ s, t ∈ (k.sem s).queue → k.cont t = .inP s
  runnable : k.cont t = .fresh ∨ k.cont t = .yielded → t ∈ k.readyList
  blocked : ∀ s, k.cont t = .inP s → (t ∈ k.readyList ↔ t ∉ (k.sem s).queue)

structure Placed (k : State T S) : Prop where
  ready_nodup : k.readyList.Nodup
  queue_nodup : ∀ s, (k.sem s).queue.Nodup
  each : ∀ t, At k t

structure Detached (k : State T S) (t : T) : Prop where
  ready_nodup : k.readyList.Nodup
  queue_nodup : ∀ s, (k.sem s).queue.Nodup
  not_ready : t ∉ k.readyList
  not_queued : ∀ s, t ∉ (k.sem s).queue
  others : ∀ u, u ≠ t → At k u

theorem Placed.detach (h : Placed k) (ht : (k.cont t).waiting = false) : Detached k t := by
  refine ⟨h.ready_nodup, h.queue_nodup, ?_, ?_, fun u _ => h.each u⟩
  · intro hr
    rw [(h.each t).ready hr] at ht
    cases ht
  · intro s hq
    rw [(h.each t).queue s hq] at ht
    cases ht

theorem At.congr (h : At k t) (hr : k'.readyList = k.readyList)
    (hq : ∀ s, (k'.sem s).queue = (k.sem s).queue) (hc : k'.cont = k.cont) : At k' t := by
  obtain ⟨hready, hqueue, hrun, hblocked⟩ := h
  constructor
  · rwa [hr, hc]
  · intro s
    rw [hq, hc]
    exact hqueue s
  · rwa [hr, hc]
  · intro s
    rw [hr, hq, hc]
    exact hblocked s

theorem Placed.congr (h : Placed k) (hr : k'.readyList = k.readyList)
    (hq : ∀ s, (k'.sem s).queue = (k.sem s).queue) (hc : k'.cont = k.cont) : Placed k' :=
  ⟨hr ▸ h.ready_nodup, fun s => hq s ▸ h.queue_nodup s, fun t => (h.each t).congr hr hq hc⟩

theorem Detached.congr (h : Detached k t) (hr : k'.readyList = k.readyList)
    (hq : ∀ s, (k'.sem s).queue = (k.sem s).queue) (hc : k'.cont = k.cont) : Detached k' t := by
  refine ⟨hr ▸ h.ready_nodup, fun s => hq s ▸ h.queue_nodup s, hr ▸ h.not_ready,
    fun s => hq s ▸ h.not_queued s, fun u hu => (h.others u hu).congr hr hq hc⟩

theorem Placed.detach_head {rest : List T} (h : Placed k) (hr : k.readyList = t :: rest) :
    Detached { k with readyList := rest } t := by
  have hnodup := h.ready_nodup
  rw [hr, List.nodup_cons] at hnodup
  have hmem : t ∈ k.readyList := by simp [hr]
  constructor
  case ready_nodup => exact hnodup.2
  case queue_nodup => exact h.queue_nodup
  case not_ready => exact hnodup.1
  case not_queued =>
    intro s hq
    have hcont := (h.each t).queue s hq
    exact ((h.each t).blocked s hcont).mp hmem hq
  case others =>
    intro u hu
    have hiff : u ∈ k.readyList ↔ u ∈ rest := by simp [hr, hu]
    obtain ⟨hready, hqueue, hrun, hblocked⟩ := h.each u
    refine ⟨fun hm => hready (hiff.mpr hm), hqueue, fun hc => hiff.mp (hrun hc), ?_⟩
    intro s hs
    rw [← hblocked s hs]
    exact hiff.symm

/-- At most the current thread runs, the current thread of a sleeping kernel has finished or is
in a semaphore, and only waiting threads have been dispatched. -/
structure Inv (k : State T S) : Prop where
  placed : Placed k
  running : ∀ t, k.cont t = .running ↔ t = k.currentThread ∧ k.mode = .user
  asleep : k.mode ≠ .user →
    k.cont k.currentThread = .finished ∨ ∃ s, k.cont k.currentThread = .inP s
  dispatched : ∀ t c, .run t c ∈ k.log → c.waiting = true

structure OnCpu (k : State T S) : Prop where
  detached : Detached k k.currentThread
  others : ∀ t, t ≠ k.currentThread → k.cont t ≠ .running
  dispatched : ∀ t c, .run t c ∈ k.log → c.waiting = true

theorem Inv.onCpu (h : Inv k) (hm : k.mode = .user) : OnCpu k := by
  have hcont : k.cont k.currentThread = .running := (h.running _).mpr ⟨rfl, hm⟩
  refine ⟨h.placed.detach (by rw [hcont]; rfl), fun t ht hrun => ?_, h.dispatched⟩
  exact ht ((h.running t).mp hrun).1

theorem Inv.not_running (h : Inv k) (hm : k.mode ≠ .user) (t : T) : k.cont t ≠ .running :=
  fun hrun => hm ((h.running t).mp hrun).2

theorem reclaim_cases (k : State T S) :
    k.reclaim = k ∨ ∃ t, k.threadToBeDestroyed = some t ∧ k.reclaim =
      { k with threadToBeDestroyed := none, log := k.log ++ [.delete t k.currentThread] } := by
  unfold State.reclaim
  split
  · exact .inl rfl
  · rename_i t ht
    exact .inr ⟨t, ht, rfl⟩

@[simp]
theorem reclaim_currentThread (k : State T S) : k.reclaim.currentThread = k.currentThread := by
  obtain hk | ⟨t, -, hk⟩ := reclaim_cases k <;> rw [hk]

@[simp]
theorem reclaim_cont (k : State T S) : k.reclaim.cont = k.cont := by
  obtain hk | ⟨t, -, hk⟩ := reclaim_cases k <;> rw [hk]

theorem OnCpu.reclaim (h : OnCpu k) : OnCpu k.reclaim := by
  obtain hk | ⟨t, -, hk⟩ := reclaim_cases k
  · rwa [hk]
  · rw [hk]
    refine ⟨h.detached.congr rfl (fun _ => rfl) rfl, h.others, fun u c hc => ?_⟩
    simp only [List.mem_append, List.mem_singleton, reduceCtorEq, or_false] at hc
    exact h.dispatched u c hc

theorem Inv.init (h : Init k) : Inv k := by
  have hcont : ∀ t, (k.cont t).waiting = false := by
    intro t
    by_cases ht : t = k.currentThread
    · rw [ht, h.main]
      rfl
    · rw [h.others t ht]
      rfl
  refine ⟨⟨by simp [h.ready], fun s => by simp [h.queues], fun t => ?_⟩, fun t => ?_,
    fun hm => absurd h.mode hm, fun t c hc => ?_⟩
  · refine ⟨fun hr => ?_, fun s hq => ?_, fun hc => ?_, fun s hs => ?_⟩
    · simp [h.ready] at hr
    · simp [h.queues] at hq
    · have := hcont t
      obtain hc | hc := hc <;> simp [hc, Cont.waiting] at this
    · have := hcont t
      simp [hs, Cont.waiting] at this
  · by_cases ht : t = k.currentThread
    · subst ht
      exact iff_of_true h.main ⟨rfl, h.mode⟩
    · rw [h.others t ht]
      simp [ht]
  · simp [h.log] at hc

section
variable [DecidableEq T]

@[simp]
theorem setCont_cont_self (k : State T S) (t : T) (c : Cont S) : (k.setCont t c).cont t = c := by
  simp [State.setCont]

theorem setCont_cont_of_ne (k : State T S) (hu : u ≠ t) (c : Cont S) :
    (k.setCont t c).cont u = k.cont u := by
  simp [State.setCont, hu]

theorem At.setCont (h : At k u) (hu : u ≠ t) (c : Cont S) : At (k.setCont t c) u := by
  have hcont := setCont_cont_of_ne k hu c
  refine ⟨fun hr => ?_, fun s hq => ?_, fun hc => h.runnable ?_, fun s hs => h.blocked s ?_⟩
  · rw [hcont]
    exact h.ready hr
  · rw [hcont]
    exact h.queue s hq
  · rwa [hcont] at hc
  · rwa [hcont] at hs

theorem Detached.settle (h : Detached k t) {c : Cont S} (hc : c.waiting = false) :
    Placed (k.setCont t c) := by
  refine ⟨h.ready_nodup, h.queue_nodup, fun u => ?_⟩
  by_cases hu : u = t
  · subst hu
    have hcont := setCont_cont_self k u c
    refine ⟨fun hr => absurd hr h.not_ready, fun s hq => absurd hq (h.not_queued s), ?_, ?_⟩
    · rw [hcont]
      rintro (rfl | rfl) <;> cases hc
    · intro s hs
      rw [hcont] at hs
      subst hs
      cases hc
  · exact (h.others u hu).setCont hu c

theorem Detached.readyToRun (h : Detached k t) {c : Cont S} (hc : c = .fresh ∨ c = .yielded) :
    Placed { k.setCont t c with readyList := k.readyList ++ [t] } := by
  refine ⟨?_, h.queue_nodup, fun u => ?_⟩
  · exact nodup_append_singleton h.ready_nodup h.not_ready
  · by_cases hu : u = t
    · subst hu
      have hcont := setCont_cont_self k u c
      refine ⟨fun _ => ?_, fun s hq => absurd hq (h.not_queued s), fun _ => by simp, ?_⟩
      · show ((k.setCont u c).cont u).waiting = true
        rw [hcont]
        obtain rfl | rfl := hc <;> rfl
      · intro s hs
        rw [show (k.setCont u c).cont u = .inP s from hs] at hcont
        obtain rfl | rfl := hc <;> cases hcont
    · obtain ⟨hready, hqueue, hrun, hblocked⟩ := (h.others u hu).setCont hu c
      have hiff : u ∈ k.readyList ++ [t] ↔ u ∈ k.readyList := by simp [hu]
      refine ⟨fun hm => hready (hiff.mp hm), hqueue, fun hc => hiff.mpr (hrun hc), ?_⟩
      intro s hs
      exact hiff.trans (hblocked s hs)

theorem OnCpu.resume (h : OnCpu k) :
    Inv { k.setCont k.currentThread .running with mode := .user } := by
  refine ⟨(h.detached.settle rfl).congr rfl (fun _ => rfl) rfl, fun t => ?_,
    fun hm => absurd rfl hm, h.dispatched⟩
  by_cases ht : t = k.currentThread
  · subst ht
    exact iff_of_true (setCont_cont_self k _ _) ⟨rfl, rfl⟩
  · refine iff_of_false ?_ (fun h' => ht h'.1)
    show (k.setCont k.currentThread .running).cont t ≠ .running
    rw [setCont_cont_of_ne k ht]
    exact h.others t ht

theorem OnCpu.not_running (h : OnCpu k) {c : Cont S} (hc : c ≠ .running) (t : T) :
    (k.setCont k.currentThread c).cont t ≠ .running := by
  by_cases ht : t = k.currentThread
  · subst ht
    rwa [setCont_cont_self]
  · rw [setCont_cont_of_ne k ht]
    exact h.others t ht

theorem OnCpu.finish (h : OnCpu k) : Inv k.finish := by
  refine ⟨(h.detached.settle rfl).congr rfl (fun _ => rfl) rfl, fun t => ?_, fun _ => ?_, ?_⟩
  · refine iff_of_false (h.not_running (by simp) t) (fun h' => ?_)
    cases h'.2
  · exact .inl (setCont_cont_self k _ _)
  · intro t c hc
    simp only [State.finish, List.mem_append, List.mem_singleton, reduceCtorEq, or_false] at hc
    exact h.dispatched t c hc

theorem Inv.fork (h : Inv k) (hm : k.mode = .user) (ht : k.cont t = .unborn) :
    Inv { k.setCont t .fresh with readyList := k.readyList ++ [t] } := by
  have hdetached : Detached k t := h.placed.detach (by rw [ht]; rfl)
  have hne : t ≠ k.currentThread := by
    rintro rfl
    rw [(h.running _).mpr ⟨rfl, hm⟩] at ht
    cases ht
  refine ⟨hdetached.readyToRun (.inl rfl), fun u => ?_, fun hm' => absurd hm hm', h.dispatched⟩
  by_cases hu : u = t
  · subst hu
    refine iff_of_false ?_ (fun h' => hne h'.1)
    show (k.setCont u .fresh).cont u ≠ .running
    simp
  · have hrunning := h.running u
    rwa [← setCont_cont_of_ne k hu .fresh] at hrunning

/-- A waiting thread is in one list, once. -/
theorem Placed.unique (h : Placed k) (ht : (k.cont t).waiting = true) :
    (k.readyList.count t = 1 ∧ ∀ s, t ∉ (k.sem s).queue) ∨
      (t ∉ k.readyList ∧ ∃ s, (k.sem s).queue.count t = 1 ∧
        ∀ r, r ≠ s → t ∉ (k.sem r).queue) := by
  obtain ⟨hready, hqueue, hrun, hblocked⟩ := h.each t
  by_cases hr : t ∈ k.readyList
  · refine .inl ⟨List.count_eq_one_of_mem h.ready_nodup hr, fun s hq => ?_⟩
    exact (hblocked s (hqueue s hq)).mp hr hq
  · have hs : ∃ s, k.cont t = .inP s := by
      cases hc : k.cont t with
      | fresh => exact absurd (hrun (.inl hc)) hr
      | yielded => exact absurd (hrun (.inr hc)) hr
      | inP s => exact ⟨s, rfl⟩
      | _ =>
        rw [hc] at ht
        cases ht
    obtain ⟨s, hs⟩ := hs
    have hq : t ∈ (k.sem s).queue := by
      by_contra hq
      exact hr ((hblocked s hs).mpr hq)
    refine .inr ⟨hr, s, List.count_eq_one_of_mem (h.queue_nodup s) hq, fun r hne hq' => hne ?_⟩
    exact Cont.inP.inj ((hqueue r hq').symm.trans hs)

theorem Inv.head_waiting (h : Inv k) (hm : k.mode = .user) {rest : List T}
    (hr : k.readyList = u :: rest) (c : Cont S) :
    ((k.setCont k.currentThread c).cont u).waiting = true := by
  have hmem : u ∈ k.readyList := by simp [hr]
  have hne : u ≠ k.currentThread := by
    rintro rfl
    exact (h.onCpu hm).detached.not_ready hmem
  rw [setCont_cont_of_ne k hne]
  exact (h.placed.each u).ready hmem

variable [DecidableEq S]

theorem Detached.enqueue (h : Detached k t) (s : S) :
    Placed ((k.setSem s { k.sem s with queue := (k.sem s).queue ++ [t] }).setCont t (.inP s)) := by
  have hsem : ∀ r, ((k.setSem s { k.sem s with queue := (k.sem s).queue ++ [t] }).sem r).queue =
      if r = s then (k.sem s).queue ++ [t] else (k.sem r).queue := by
    intro r
    by_cases hr : r = s
    · subst hr
      simp [State.setSem]
    · simp [State.setSem, hr]
  have hmem : ∀ r u, u ≠ t → (u ∈ ((k.setSem s { k.sem s with
      queue := (k.sem s).queue ++ [t] }).sem r).queue ↔ u ∈ (k.sem r).queue) := by
    intro r u hu
    rw [hsem]
    split_ifs with hr
    · simp [hr, hu]
    · rfl
  refine ⟨h.ready_nodup, fun r => ?_, fun u => ?_⟩
  · show ((k.setSem s _).sem r).queue.Nodup
    rw [hsem]
    split_ifs
    · exact nodup_append_singleton (h.queue_nodup s) (h.not_queued s)
    · exact h.queue_nodup r
  · by_cases hu : u = t
    · subst hu
      have hcont := fun x : State T S => setCont_cont_self x u (.inP s)
      refine ⟨fun hr => absurd hr h.not_ready, fun r hq => ?_, fun hc => ?_, fun r hr => ?_⟩
      · rw [hcont]
        have hq' : u ∈ ((k.setSem s { k.sem s with
          queue := (k.sem s).queue ++ [u] }).sem r).queue := hq
        rw [hsem] at hq'
        split_ifs at hq' with hr
        · rw [hr]
        · exact absurd hq' (h.not_queued r)
      · rw [hcont] at hc
        obtain hc | hc := hc <;> cases hc
      · rw [hcont] at hr
        obtain rfl := Cont.inP.inj hr
        refine iff_of_false h.not_ready (not_not.mpr ?_)
        show u ∈ ((k.setSem s _).sem s).queue
        rw [hsem]
        simp
    · have hat : At (k.setSem s { k.sem s with queue := (k.sem s).queue ++ [t] }) u := by
        obtain ⟨hready, hqueue, hrun, hblocked⟩ := h.others u hu
        refine ⟨hready, fun r hq => hqueue r ((hmem r u hu).mp hq), hrun, fun r hr => ?_⟩
        rw [hmem r u hu]
        exact hblocked r hr
      exact hat.setCont hu _

theorem Placed.v (h : Placed k) (s : S) : Placed (k.v s) := by
  have hsem : ∀ r, ((k.v s).sem r).queue =
      if r = s then (k.sem s).queue.tail else (k.sem r).queue := by
    intro r
    by_cases hr : r = s
    · subst hr
      simp [State.v, State.setSem]
    · simp [State.v, State.setSem, hr]
  have hready : (k.v s).readyList = k.readyList ++ (k.sem s).queue.head?.toList := rfl
  cases hq : (k.sem s).queue with
  | nil =>
    have hsame : ∀ r, ((k.v s).sem r).queue = (k.sem r).queue := by
      intro r
      rw [hsem]
      split_ifs with hr
      · rw [hr, hq, List.tail_nil]
      · rfl
    rw [hq, List.head?_nil, Option.toList_none, List.append_nil] at hready
    exact h.congr hready hsame rfl
  | cons u rest =>
    rw [hq, List.head?_cons, Option.toList_some] at hready
    rw [hq, List.tail_cons] at hsem
    have hu : u ∈ (k.sem s).queue := by simp [hq]
    have hnodup : u ∉ rest ∧ rest.Nodup := List.nodup_cons.mp (hq ▸ h.queue_nodup s)
    have hcont := (h.each u).queue s hu
    have hnot : u ∉ k.readyList := fun hm => ((h.each u).blocked s hcont).mp hm hu
    have hmem : ∀ r t, t ≠ u → (t ∈ ((k.v s).sem r).queue ↔ t ∈ (k.sem r).queue) := by
      intro r t ht
      rw [hsem]
      split_ifs with hr
      · simp [hr, hq, ht]
      · rfl
    refine ⟨?_, fun r => ?_, fun t => ?_⟩
    · rw [hready]
      exact nodup_append_singleton h.ready_nodup hnot
    · rw [hsem]
      split_ifs
      · exact hnodup.2
      · exact h.queue_nodup r
    · by_cases ht : t = u
      · subst ht
        refine ⟨fun _ => ?_, fun r hr => ?_, fun hc => ?_, fun r hr => ?_⟩
        · show (k.cont t).waiting = true
          rw [hcont]
          rfl
        · rw [hsem] at hr
          split_ifs at hr with hrs
          · exact absurd hr hnodup.1
          · exact (h.each t).queue r hr
        · rw [show (k.v s).cont t = .inP s from hcont] at hc
          obtain hc | hc := hc <;> cases hc
        · obtain rfl := Cont.inP.inj (hcont.symm.trans hr)
          rw [hready, hsem, if_pos rfl]
          exact iff_of_true (by simp) hnodup.1
      · obtain ⟨hr, hqueue, hrun, hblocked⟩ := h.each t
        have hiff : t ∈ (k.v s).readyList ↔ t ∈ k.readyList := by simp [hready, ht]
        refine ⟨fun hm => hr (hiff.mp hm), fun r hm => hqueue r ((hmem r t ht).mp hm),
          fun hc => hiff.mpr (hrun hc), fun r hm => ?_⟩
        rw [hiff, hmem r t ht]
        exact hblocked r hm

theorem OnCpu.p (h : OnCpu k) (s : S) : Inv (k.p s) := by
  unfold State.p
  split_ifs with hv
  · refine ⟨(h.detached.enqueue s).congr rfl (fun _ => rfl) rfl, fun t => ?_, fun _ => ?_,
      h.dispatched⟩
    · refine iff_of_false (h.not_running (by simp) t) (fun h' => ?_)
      cases h'.2
    · exact .inr ⟨s, setCont_cont_self k _ _⟩
  · have hsem : OnCpu (k.setSem s { k.sem s with value := (k.sem s).value - 1 }) := by
      refine ⟨h.detached.congr rfl (fun r => ?_) rfl, h.others, h.dispatched⟩
      by_cases hr : r = s
      · subst hr
        simp [State.setSem]
      · simp [State.setSem, hr]
    exact hsem.resume

theorem Placed.run {nextThread : T} {rest : List T} (h : Placed k)
    (hr : k.readyList = nextThread :: rest) (hrun : ∀ t, k.cont t ≠ .running)
    (hlog : ∀ t c, .run t c ∈ k.log → c.waiting = true) :
    Inv ({ k with readyList := rest }.run nextThread) := by
  have hwait : (k.cont nextThread).waiting = true := (h.each nextThread).ready (by simp [hr])
  have hcpu : OnCpu { k with
      readyList := rest
      currentThread := nextThread
      log := k.log ++ [Event.run nextThread (k.cont nextThread)] } := by
    refine ⟨(h.detach_head hr).congr rfl (fun _ => rfl) rfl, fun t _ => hrun t, fun t c hc => ?_⟩
    simp only [List.mem_append, List.mem_singleton, Event.run.injEq] at hc
    obtain hc | ⟨rfl, rfl⟩ := hc
    · exact hlog t c hc
    · exact hwait
  unfold State.run
  dsimp only
  split
  · exact hcpu.resume
  · exact hcpu.reclaim.p _
  · have hinv := hcpu.reclaim.resume
    rwa [reclaim_currentThread] at hinv

theorem Inv.v (h : Inv k) (s : S) : Inv (k.v s) :=
  ⟨h.placed.v s, h.running, h.asleep, h.dispatched⟩

theorem Inv.foldl_v (h : Inv k) (joiners : List S) :
    Inv (joiners.foldl State.v k) ∧
      (joiners.foldl State.v k).mode = k.mode ∧
      (joiners.foldl State.v k).currentThread = k.currentThread := by
  induction joiners generalizing k with
  | nil => exact ⟨h, rfl, rfl⟩
  | cons s joiners ih => exact ih (h.v s)

theorem Inv.move (h : Inv k) (hs : Move k k') : Inv k' := by
  cases hs with
  | fork t hm ht => exact h.fork hm ht
  | stay => exact h
  | yield nextThread rest hm hr =>
    have hcpu := h.onCpu hm
    have hplaced := hcpu.detached.readyToRun (c := .yielded) (.inr rfl)
    exact hplaced.run (by simp [hr]) (hcpu.not_running (by simp)) h.dispatched
  | p s hm => exact (h.onCpu hm).p s
  | v s => exact h.v s
  | finish joiners hm =>
    obtain ⟨hv, hvm, -⟩ := h.foldl_v joiners
    exact (hv.onCpu (hvm.trans hm)).finish
  | exit joiners nextThread rest hm hr =>
    obtain ⟨hv, hvm, hvc⟩ := h.foldl_v joiners
    have hcpu := hv.onCpu (hvm.trans hm)
    have hplaced := hcpu.detached.settle (c := .exited) rfl
    have hinv := hplaced.run hr (hcpu.not_running (by simp)) hv.dispatched
    rwa [hvc] at hinv
  | idle mode hm hmode =>
    refine ⟨h.placed.congr rfl (fun _ => rfl) rfl, fun t => ?_, fun _ => h.asleep hm,
      h.dispatched⟩
    exact iff_of_false (h.not_running hm t) (fun h' => hmode h'.2)
  | wake nextThread rest hm hr => exact h.placed.run hr (h.not_running hm) h.dispatched

theorem reachable_inv (h : Reachable Init Step k) : Inv k :=
  h.invariant (fun _ => Inv.init) (fun _ _ hinv hs => hinv.move (.of_step hs))

/-- While interrupts are enabled each thread that has been forked and is not done for is the
current thread, or once in the ready list, or once in one semaphore, and nowhere else. The
current thread is in the ready list only while it sleeps in `P`, woken in `Idle`; no thread that
is done for has been dispatched. -/
theorem threads_conserved (h : Reachable Init Step k) :
    (k.mode = .user → k.currentThread ∉ k.readyList ∧
      ∀ t, k.cont t ≠ .unborn → k.cont t ≠ .finished → k.cont t ≠ .exited →
        (t = k.currentThread ∧ t ∉ k.readyList ∧ ∀ s, t ∉ (k.sem s).queue) ∨
        (t ≠ k.currentThread ∧ k.readyList.count t = 1 ∧ ∀ s, t ∉ (k.sem s).queue) ∨
        (t ≠ k.currentThread ∧ t ∉ k.readyList ∧ ∃ s, (k.sem s).queue.count t = 1 ∧
          ∀ r, r ≠ s → t ∉ (k.sem r).queue)) ∧
    (k.currentThread ∈ k.readyList →
      k.mode ≠ .user ∧ ∃ s, k.cont k.currentThread = .inP s) ∧
    ∀ t c, .run t c ∈ k.log → c ≠ .finished ∧ c ≠ .exited := by
  have hi := reachable_inv h
  refine ⟨fun hm => ?_, fun hr => ?_, fun t c hc => ?_⟩
  · have hcpu := hi.onCpu hm
    refine ⟨hcpu.detached.not_ready, fun t hborn hfin hex => ?_⟩
    by_cases ht : t = k.currentThread
    · subst ht
      exact .inl ⟨rfl, hcpu.detached.not_ready, hcpu.detached.not_queued⟩
    · have hwait : (k.cont t).waiting = true := by
        have hrun := hcpu.others t ht
        cases hc : k.cont t <;> simp_all [Cont.waiting]
      obtain hready | hqueued := hi.placed.unique hwait
      · exact .inr (.inl ⟨ht, hready⟩)
      · exact .inr (.inr ⟨ht, hqueued⟩)
  · have hm : k.mode ≠ .user := fun hm => (hi.onCpu hm).detached.not_ready hr
    refine ⟨hm, ?_⟩
    have hwait := (hi.placed.each _).ready hr
    obtain hfin | hs := hi.asleep hm
    · rw [hfin] at hwait
      cases hwait
    · exact hs
  · have hwait := hi.dispatched t c hc
    constructor <;> rintro rfl <;> cases hwait

end

def boot : State ℕ Unit where
  currentThread := 0
  readyList := []
  sem := fun _ => ⟨0, []⟩
  cont := fun t => if t = 0 then .running else .unborn
  mode := .user
  threadToBeDestroyed := none
  log := []

theorem boot_init : Init boot :=
  ⟨rfl, fun _ ht => if_neg ht, rfl, fun _ => rfl, rfl, rfl, rfl⟩

theorem reachable_of_boot {l : List (Input ℕ Unit)} {k : State ℕ Unit}
    (h : l.foldlM State.step boot = some k) : Reachable Init Step k :=
  Reachable.of_foldlM (fun _ i _ hi => ⟨i, hi⟩) (.init boot_init) h

/-- Thread 1 sleeps in the semaphore, the main thread is ready and thread 2 runs. -/
theorem threeThreads_conserved : ∃ k : State ℕ Unit, Reachable Init Step k ∧
    k.currentThread = 2 ∧ k.readyList = [0] ∧ (k.sem ()).queue = [1] ∧
    k.currentThread ∉ k.readyList := by
  have hrun : ([.fork 1, .fork 2, .yield, .p (), .next].foldlM State.step boot).any
      (fun k : State ℕ Unit => k.mode = .user ∧ k.currentThread = 2 ∧ k.readyList = [0] ∧
        (k.sem ()).queue = [1]) = true := by
    decide
  obtain ⟨k, hk, hb⟩ := (Option.any_eq_true _ _).mp hrun
  obtain ⟨hm, hc, hr, hq⟩ := of_decide_eq_true hb
  have hreach := reachable_of_boot hk
  exact ⟨k, hreach, hc, hr, hq, ((threads_conserved hreach).1 hm).1⟩

/-- The only thread blocks, and a handler wakes it in `Idle`, before it is dispatched. -/
theorem idle_current_ready : ¬ ∀ k : State ℕ Unit, Reachable Init Step k →
    k.currentThread ∉ k.readyList := by
  intro h
  have hrun : ([.p (), .next, .v ()].foldlM State.step boot).any
      (fun k : State ℕ Unit => k.currentThread ∈ k.readyList) = true := by
    decide
  obtain ⟨k, hk, hb⟩ := (Option.any_eq_true _ _).mp hrun
  exact h k (reachable_of_boot hk) (of_decide_eq_true hb)

end Nachos.Kernel
