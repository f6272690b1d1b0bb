import Nachos.ThreadConservation

/-! The deletion of finished threads (`Thread::Finish` and `Scheduler::Run`). A thread that is
dispatched for the first time starts in `ThreadRoot` and does not delete the thread to be
destroyed, so that what `Finish` finds in `threadToBeDestroyed` depends on the kind of threads
that have been dispatched since the last `Finish`. -/
namespace Nachos.Kernel

variable {T S : Type} {k k' : State T S} {t u : T}

def Event.finished : Event T S → Option T
  | .finish t _ => some t
  | _ => none

def Event.deleted : Event T S → Option T
  | .delete t _ => some t
  | _ => none

def finishedThreads (log : List (Event T S)) : List T := log.filterMap Event.finished

def deletedThreads (log : List (Event T S)) : List T := log.filterMap Event.deleted

@[simp]
theorem finishedThreads_append (l₁ l₂ : List (Event T S)) :
    finishedThreads (l₁ ++ l₂) = finishedThreads l₁ ++ finishedThreads l₂ :=
  List.filterMap_append

@[simp]
theorem deletedThreads_append (l₁ l₂ : List (Event T S)) :
    deletedThreads (l₁ ++ l₂) = deletedThreads l₁ ++ deletedThreads l₂ :=
  List.filterMap_append

@[simp]
theorem finishedThreads_cons (e : Event T S) (l : List (Event T S)) :
    finishedThreads (e :: l) = e.finished.toList ++ finishedThreads l := by
  cases e <;> simp [finishedThreads, List.filterMap_cons, Event.finished]

@[simp]
theorem deletedThreads_cons (e : Event T S) (l : List (Event T S)) :
    deletedThreads (e :: l) = e.deleted.toList ++ deletedThreads l := by
  cases e <;> simp [deletedThreads, List.filterMap_cons, Event.deleted]

@[simp]
theorem finishedThreads_nil : finishedThreads ([] : List (Event T S)) = [] := rfl

@[simp]
theorem deletedThreads_nil : deletedThreads ([] : List (Event T S)) = [] := rfl

def Event.Resumes (e : Event T S) : Prop := ∃ w c, e = .run w c ∧ c ≠ .fresh

/-- Between two calls of `Finish` a thread is dispatched that has run before. -/
def Spaced (log : List (Event T S)) : Prop :=
  ∀ l₁ t p l₂ u q l₃, log = (l₁ ++ .finish t p :: l₂) ++ .finish u q :: l₃ →
    ∃ e ∈ l₂, e.Resumes

/-- Each call of `Finish` found no thread to be destroyed, each finished thread has been deleted
once or is the thread to be destroyed, and no thread has been deleted while it ran. -/
structure Reclaimed (k : State T S) : Prop where
  null : ∀ t previous, .finish t previous ∈ k.log → previous = none
  once : (finishedThreads k.log).Nodup
  deleted : finishedThreads k.log = deletedThreads k.log ++ k.threadToBeDestroyed.toList
  other : ∀ t current, .delete t current ∈ k.log → t ≠ current

theorem concat_eq_append_cons {α : Type} {l l₁ l₂ : List α} {a e : α} :
    l ++ [e] = l₁ ++ a :: l₂ ↔
      (e = a ∧ l = l₁ ∧ l₂ = []) ∨ ∃ l₃, l₂ = l₃ ++ [e] ∧ l = l₁ ++ a :: l₃ := by
  constructor
  · intro h
    induction l₂ using List.reverseRecOn with
    | nil =>
      obtain ⟨hl, he⟩ := List.append_inj' h rfl
      exact .inl ⟨List.singleton_inj.mp he, hl, rfl⟩
    | append_singleton l₃ b _ =>
      rw [← List.cons_append, ← List.append_assoc] at h
      obtain ⟨hl, he⟩ := List.append_inj' h rfl
      rw [List.singleton_inj.mp he]
      exact .inr ⟨l₃, rfl, hl⟩
  · rintro (⟨rfl, rfl, rfl⟩ | ⟨l₃, rfl, rfl⟩) <;> simp

def Followed (log : List (Event T S)) : Prop :=
  ∀ l₁ t p l₂, log = l₁ ++ .finish t p :: l₂ → ∃ e ∈ l₂, e.Resumes

theorem followed_append_finish (log : List (Event T S)) (t : T) (p : Option T) :
    ¬ Followed (log ++ [.finish t p]) := by
  intro h
  obtain ⟨e, he, -⟩ := h log t p [] rfl
  cases he

theorem followed_append_resumes (log : List (Event T S)) {e : Event T S} (he : e.Resumes) :
    Followed (log ++ [e]) := by
  intro l₁ t p l₂ h
  obtain ⟨rfl, -, -⟩ | ⟨l₃, rfl, -⟩ := concat_eq_append_cons.mp h
  · obtain ⟨w, c, hw, -⟩ := he
    cases hw
  · exact ⟨e, by simp, he⟩

theorem followed_append (log : List (Event T S)) {e : Event T S} (he : ¬ e.Resumes)
    (hf : ∀ t p, e ≠ .finish t p) : Followed (log ++ [e]) ↔ Followed log := by
  constructor
  · intro h l₁ t p l₂ hl
    obtain ⟨e', he', hr⟩ := h l₁ t p (l₂ ++ [e]) (by simp [hl])
    rw [List.mem_append, List.mem_singleton] at he'
    obtain he' | rfl := he'
    · exact ⟨e', he', hr⟩
    · exact absurd hr he
  · intro h l₁ t p l₂ hl
    obtain ⟨rfl, -, -⟩ | ⟨l₃, rfl, hlog⟩ := concat_eq_append_cons.mp hl
    · exact absurd rfl (hf t p)
    · obtain ⟨e', he', hr⟩ := h l₁ t p l₃ hlog
      exact ⟨e', List.mem_append_left _ he', hr⟩

section
variable [DecidableEq S]

def Event.afterwards (d : Option T) : Event T S → Option T
  | .run _ c => if c = .fresh then d else none
  | .finish t _ => some t
  | .delete _ _ => d

/-- The thread to be destroyed after the dispatches and the calls of `Finish` in the log. -/
def pending (log : List (Event T S)) : Option T := log.foldl Event.afterwards none

theorem pending_append (log : List (Event T S)) (e : Event T S) :
    pending (log ++ [e]) = e.afterwards (pending log) := by
  simp [pending]

theorem pending_eq_none (log : List (Event T S)) : pending log = none ↔ Followed log := by
  induction log using List.reverseRecOn with
  | nil => simp [pending, Followed]
  | append_singleton log e ih =>
    rw [pending_append]
    cases e with
    | finish t p => simp [Event.afterwards, followed_append_finish]
    | delete t current =>
      rw [followed_append log (by simp [Event.Resumes]) (by simp)]
      exact ih
    | run w c =>
      by_cases hc : c = .fresh
      · rw [followed_append log (by simp [Event.Resumes, hc]) (by simp), Event.afterwards,
          if_pos hc]
        exact ih
      · rw [Event.afterwards, if_neg hc]
        exact iff_of_true rfl (followed_append_resumes log ⟨w, c, rfl, hc⟩)

structure Logged (k : State T S) : Prop where
  destroyed : k.threadToBeDestroyed = pending k.log
  previous : ∀ l₁ t p l₂, k.log = l₁ ++ .finish t p :: l₂ → p = pending l₁
  gone : ∀ t ∈ finishedThreads k.log, k.cont t = .finished
  waits : k.threadToBeDestroyed.toList ⊆ finishedThreads k.log
  once : (finishedThreads k.log).Nodup
  deleted : (∀ t p, .finish t p ∈ k.log → p = none) →
    finishedThreads k.log = deletedThreads k.log ++ k.threadToBeDestroyed.toList
  other : ∀ t current, .delete t current ∈ k.log → t ≠ current

theorem Logged.frame (h : Logged k) (hlog : k'.log = k.log)
    (hd : k'.threadToBeDestroyed = k.threadToBeDestroyed)
    (hc : ∀ t, k.cont t = .finished → k'.cont t = .finished) : Logged k' := by
  refine ⟨?_, ?_, ?_, ?_, ?_, ?_, ?_⟩
  · rw [hlog, hd]
    exact h.destroyed
  · rw [hlog]
    exact h.previous
  · rw [hlog]
    exact fun t ht => hc t (h.gone t ht)
  · rw [hlog, hd]
    exact h.waits
  · rw [hlog]
    exact h.once
  · rw [hlog, hd]
    exact h.deleted
  · rw [hlog]
    exact h.other

theorem previous_append {log : List (Event T S)} {e : Event T S}
    (h : ∀ l₁ t p l₂, log = l₁ ++ .finish t p :: l₂ → p = pending l₁)
    (he : ∀ t p, e = .finish t p → p = pending log) (l₁ : List (Event T S)) (t : T)
    (p : Option T) (l₂ : List (Event T S)) (hl : log ++ [e] = l₁ ++ .finish t p :: l₂) :
    p = pending l₁ := by
  obtain ⟨rfl, rfl, -⟩ | ⟨l₃, -, hlog⟩ := concat_eq_append_cons.mp hl
  · exact he t p rfl
  · exact h l₁ t p l₃ hlog

theorem Logged.dispatch (h : Logged k) (hd : k.cont u = .fresh ∨ k.threadToBeDestroyed = none) :
    Logged { k with currentThread := u, log := k.log ++ [Event.run u (k.cont u)] } := by
  have hpending : k.threadToBeDestroyed =
      (Event.run u (k.cont u)).afterwards (pending k.log) := by
    rw [← h.destroyed, Event.afterwards]
    split_ifs with hc
    · rfl
    · exact hd.resolve_left hc
  refine ⟨?_, previous_append h.previous (by simp), ?_, ?_, ?_, fun hnull => ?_, fun t c ht => ?_⟩
  · rw [pending_append]
    exact hpending
  · simpa [Event.finished] using h.gone
  · simpa [Event.finished] using h.waits
  · simpa [Event.finished] using h.once
  · simpa [Event.finished, Event.deleted] using h.deleted fun t p ht => hnull t p (by simp [ht])
  · exact h.other t c (by simpa using ht)

theorem Logged.dispatch_delete (h : Logged k) (hw : (k.cont u).waiting = true)
    (hc : k.cont u ≠ .fresh) (ht : k.threadToBeDestroyed = some t) :
    Logged { k with
      currentThread := u
      threadToBeDestroyed := none
      log := (k.log ++ [Event.run u (k.cont u)]) ++ [.delete t u] } := by
  have hfinished : t ∈ finishedThreads k.log := h.waits (by simp [ht])
  have hne : t ≠ u := by
    rintro rfl
    rw [h.gone t hfinished] at hw
    cases hw
  refine ⟨?_, previous_append (previous_append h.previous (by simp)) (by simp), ?_, ?_, ?_,
    fun hnull => ?_, fun t' c ht' => ?_⟩
  · rw [pending_append, pending_append]
    simp [Event.afterwards, hc]
  · simpa [Event.finished] using h.gone
  · simp
  · simpa [Event.finished] using h.once
  · have hdeleted := h.deleted fun t p ht => hnull t p (by simp [ht])
    simpa [Event.finished, Event.deleted, ht] using hdeleted
  · simp only [List.mem_append, List.mem_singleton, reduceCtorEq, or_false,
      Event.delete.injEq] at ht'
    obtain ht' | ⟨rfl, rfl⟩ := ht'
    · exact h.other t' c ht'
    · exact hne

theorem Logged.reclaim (h : Logged k) (hw : (k.cont u).waiting = true) (hc : k.cont u ≠ .fresh) :
    Logged (State.reclaim { k with
      currentThread := u, log := k.log ++ [Event.run u (k.cont u)] }) := by
  unfold State.reclaim
  dsimp only
  split
  · rename_i hnone
    exact h.dispatch (.inr hnone)
  · rename_i t ht
    exact h.dispatch_delete hw hc ht

theorem Logged.init (h : Init k) : Logged k := by
  refine ⟨?_, ?_, ?_, ?_, ?_, ?_, ?_⟩ <;> simp [h.log, h.destroyed, pending]

theorem Logged.v (h : Logged k) (s : S) : Logged (k.v s) := h.frame rfl rfl fun _ ht => ht

theorem Logged.foldl_v (h : Logged k) (joiners : List S) : Logged (joiners.foldl State.v k) := by
  induction joiners generalizing k with
  | nil => exact h
  | cons s joiners ih => exact ih (h.v s)

theorem Logged.null_iff (h : Logged k) :
    (∀ t p, .finish t p ∈ k.log → p = none) ↔ Spaced k.log := by
  have hprevious : ∀ l₁ t p l₂, k.log = l₁ ++ .finish t p :: l₂ → (p = none ↔ Followed l₁) := by
    intro l₁ t p l₂ hl
    rw [h.previous l₁ t p l₂ hl]
    exact pending_eq_none l₁
  constructor
  · intro hnull l₁ t p l₂ u q l₃ hl
    have hq : q = none := hnull u q (by simp [hl])
    exact (hprevious _ u q l₃ hl).mp hq l₁ t p l₂ rfl
  · intro hspaced t p ht
    obtain ⟨l₁, l₂, hl⟩ := List.append_of_mem ht
    refine (hprevious l₁ t p l₂ hl).mpr ?_
    rintro l₁' u q l₂' rfl
    exact hspaced l₁' u q l₂' t p l₂ hl

variable [DecidableEq T]

theorem Logged.setCont (h : Logged k) (ht : k.cont t ≠ .finished) (c : Cont S) :
    Logged (k.setCont t c) := by
  refine h.frame rfl rfl fun u hu => ?_
  have hne : u ≠ t := by
    rintro rfl
    exact ht hu
  rw [setCont_cont_of_ne k hne]
  exact hu

theorem Logged.p (h : Logged k) (hc : k.cont k.currentThread ≠ .finished) (s : S) :
    Logged (k.p s) := by
  unfold State.p
  split_ifs
  · have hsem : Logged (k.setSem s { k.sem s with
        queue := (k.sem s).queue ++ [k.currentThread] }) := h.frame rfl rfl fun _ ht => ht
    exact (hsem.setCont hc (.inP s)).frame rfl rfl fun _ ht => ht
  · have hsem : Logged (k.setSem s { k.sem s with value := (k.sem s).value - 1 }) :=
      h.frame rfl rfl fun _ ht => ht
    exact (hsem.setCont hc .running).frame rfl rfl fun _ ht => ht

theorem Logged.run (h : Logged k) (hw : (k.cont u).waiting = true) : Logged (k.run u) := by
  have hfin : k.cont u ≠ .finished := by
    intro hc
    rw [hc] at hw
    cases hw
  unfold State.run
  dsimp only
  split
  · rename_i hc
    exact ((h.dispatch (.inl hc)).setCont hfin .running).frame rfl rfl fun _ ht => ht
  · rename_i s hc
    exact (h.reclaim hw (by simp [hc])).p (by simpa using hfin) s
  · rename_i hc _
    exact ((h.reclaim hw hc).setCont (by simpa using hfin) .running).frame rfl rfl fun _ ht => ht

theorem Logged.finish (h : Logged k) (hc : k.cont k.currentThread = .running) :
    Logged k.finish := by
  have hnot : k.currentThread ∉ finishedThreads k.log := by
    intro ht
    rw [h.gone _ ht] at hc
    cases hc
  have hcont := h.setCont (t := k.currentThread) (by simp [hc]) .finished
  refine ⟨?_, previous_append h.previous ?_, fun t ht => ?_, ?_, ?_, fun hnull => ?_,
    fun t c ht => ?_⟩
  · show some k.currentThread = pending (k.log ++ [_])
    rw [pending_append]
    rfl
  · rintro t p ⟨⟩
    exact h.destroyed
  · simp only [State.finish, finishedThreads_append, finishedThreads_cons, Event.finished,
      Option.toList_some, finishedThreads_nil, List.append_nil, List.mem_append,
      List.mem_singleton] at ht
    obtain ht | rfl := ht
    · exact hcont.gone t ht
    · exact setCont_cont_self k _ _
  · simp [State.finish, Event.finished]
  · simpa [State.finish, Event.finished] using nodup_append_singleton h.once hnot
  · have hnone : k.threadToBeDestroyed = none := hnull k.currentThread _ (by simp [State.finish])
    have hdeleted := h.deleted fun t p ht => hnull t p (by simp [State.finish, ht])
    rw [hnone] at hdeleted
    simpa [State.finish, Event.finished, Event.deleted] using hdeleted
  · exact h.other t c (by simpa [State.finish] using ht)

theorem Logged.move (h : Logged k) (hi : Inv k) (hs : Move k k') : Logged k' := by
  cases hs with
  | fork t hm ht => exact (h.setCont (by simp [ht]) .fresh).frame rfl rfl fun _ ht => ht
  | stay => exact h
  | yield nextThread rest hm hr =>
    have hrun := (hi.running _).mpr ⟨rfl, hm⟩
    have hyield := h.setCont (t := k.currentThread) (by simp [hrun]) .yielded
    have hlist : Logged { k.setCont k.currentThread .yielded with
        readyList := rest ++ [k.currentThread] } := hyield.frame rfl rfl fun _ ht => ht
    exact hlist.run (hi.head_waiting hm hr _)
  | p s hm =>
    have hrun := (hi.running _).mpr ⟨rfl, hm⟩
    exact h.p (by simp [hrun]) s
  | v s => exact h.v s
  | finish joiners hm =>
    obtain ⟨hv, hvm, -⟩ := hi.foldl_v joiners
    exact (h.foldl_v joiners).finish ((hv.running _).mpr ⟨rfl, hvm.trans hm⟩)
  | exit joiners nextThread rest hm hr =>
    obtain ⟨hv, hvm, hvc⟩ := hi.foldl_v joiners
    have hrun := (hv.running _).mpr ⟨rfl, hvm.trans hm⟩
    have hexit := (h.foldl_v joiners).setCont (t := (joiners.foldl State.v k).currentThread)
      (by simp [hrun]) .exited
    have hlist : Logged { (joiners.foldl State.v k).setCont
        (joiners.foldl State.v k).currentThread .exited with readyList := rest } :=
      hexit.frame rfl rfl fun _ ht => ht
    rw [← hvc]
    exact hlist.run (hv.head_waiting (hvm.trans hm) hr _)
  | idle mode hm hmode => exact h.frame rfl rfl fun _ ht => ht
  | wake nextThread rest hm hr =>
    have hlist : Logged { k with readyList := rest } := h.frame rfl rfl fun _ ht => ht
    exact hlist.run ((hi.placed.each nextThread).ready (by simp [hr]))

theorem reachable_logged (h : Reachable Init Step k) : Logged k :=
  h.invariant_of reachable_inv (fun _ => Logged.init) fun _ _ hi hl hs => hl.move hi (.of_step hs)

/-- In every run all finished threads are reclaimed, each once and by another thread, if and only
if between any two calls of `Finish` a thread is dispatched that has run before. -/
theorem reclaimed_iff_spaced (h : Reachable Init Step k) : Reclaimed k ↔ Spaced k.log := by
  have hlogged := reachable_logged h
  rw [← hlogged.null_iff]
  constructor
  · exact fun hr => hr.null
  · exact fun hnull => ⟨hnull, hlogged.once, hlogged.deleted hnull, hlogged.other⟩

end

/-- Thread 1 finishes, the main thread goes on, and thread 2 finishes. -/
theorem finishForkFinish_reclaimed : ∃ k : State ℕ Unit, Reachable Init Step k ∧
    finishedThreads k.log = [1, 2] ∧ Reclaimed k := by
  have hrun : ([.fork 1, .yield, .finish, .next, .fork 2, .yield, .finish].foldlM
      State.step boot).any (fun k : State ℕ Unit => k.log = [.run 1 .fresh, .finish 1 none,
        .run 0 .yielded, .delete 1 0, .run 2 .fresh, .finish 2 none]) = true := by
    decide
  obtain ⟨k, hk, hb⟩ := (Option.any_eq_true _ _).mp hrun
  have hlog := of_decide_eq_true hb
  have hreach := reachable_of_boot hk
  have hnull : ∀ t p, .finish t p ∈ k.log → p = none := by
    intro t p ht
    simp only [hlog, List.mem_cons, reduceCtorEq, Event.finish.injEq, List.not_mem_nil] at ht
    tauto
  refine ⟨k, hreach, by rw [hlog]; rfl, (reclaimed_iff_spaced hreach).mpr ?_⟩
  exact (reachable_logged hreach).null_iff.mp hnull

/-- Thread 2 starts after thread 1 has finished, and finishes too. -/
theorem freshFinish_drops : ∃ k : State ℕ Unit, Reachable Init Step k ∧
    .finish 2 (some 1) ∈ k.log ∧ ¬ Reclaimed k := by
  have hrun : ([.fork 1, .fork 2, .yield, .finish, .next, .finish].foldlM State.step boot).any
      (fun k : State ℕ Unit => Event.finish 2 (some 1) ∈ k.log) = true := by
    decide
  obtain ⟨k, hk, hb⟩ := (Option.any_eq_true _ _).mp hrun
  have hmem := of_decide_eq_true hb
  refine ⟨k, reachable_of_boot hk, hmem, fun hr => ?_⟩
  cases hr.null 2 (some 1) hmem

end Nachos.Kernel
