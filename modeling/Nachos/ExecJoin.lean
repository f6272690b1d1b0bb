import Nachos.Reachability
import Nachos.Semaphore

/-! Exec, Join and Exit (`exception.cc`). `ejecutables` records, for each Exec, the address
of the thread it made and the semaphore of the thread that joins it. Threads and semaphores
have numbers here; a thread's address may be that of a thread that has ended. A thread is
switched out between any two statements, except inside `Nachos_Exit`, `P` and `V`, which run
with interrupts off. `thread` and `joined` are not in the source: the thread an entry was
made for, and the ids whose Join has returned 1. -/
namespace Nachos.ExecJoin

structure ArchivosEjec where
  hilo : ℤ
  sem : Option ℕ
  hiloJ : ℤ
  thread : ℕ
  deriving DecidableEq, Repr

inductive Pc where
  | absent
  | created
  | user
  | execThread
  | execCount (child : ℕ)
  | execPush (child : ℕ)
  | execFork (child id : ℕ)
  | execReturn
  | forkThread
  | forkFork (child : ℕ)
  | openExecutable (id : ℕ)
  | openFailed (id : ℕ)
  | joinNew (id : ℕ)
  | joinStore (id sem : ℕ)
  | joinStoreThread (id sem : ℕ)
  | joinWait (id sem : ℕ)
  | joinReturn (id : ℕ)
  | terminated
  deriving DecidableEq, Repr

structure State where
  pc : ℕ → Pc
  address : ℕ → ℤ
  threads : ℕ
  ejecutables : List ArchivosEjec
  archivoAE : ℤ
  semaphores : ℕ → Semaphore ℕ
  semaphoreCount : ℕ
  r2 : ℕ → ℤ
  joined : List ℕ

/-- What the code leaves open: the call of a user program, the address that `new Thread`
returns and whether `Open` finds the file. -/
inductive Input where
  | exec
  | join (reg4 : BitVec 32)
  | exit
  | fork
  | address (a : ℤ)
  | opened (found : Bool)
  deriving DecidableEq, Repr

/-- `unsigned long id = ReadRegister(4)`. -/
def joinId (reg4 : BitVec 32) : ℕ := (reg4.signExtend 64).toNat

namespace State

def goto (s : State) (t : ℕ) (p : Pc) : State := { s with pc := Function.update s.pc t p }

def live (s : State) (t : ℕ) : Prop := s.pc t ≠ .absent ∧ s.pc t ≠ .terminated

instance (s : State) (t : ℕ) : Decidable (s.live t) := inferInstanceAs (Decidable (_ ∧ _))

/-- `new Thread`: storage that no thread alive occupies. -/
def newThread (s : State) (a : ℤ) : Option State :=
  if ∀ u < s.threads, s.live u → s.address u ≠ a then
    some { s with
      pc := Function.update s.pc s.threads .created
      address := Function.update s.address s.threads a
      threads := s.threads + 1 }
  else none

def notifyEntry (self : ℤ) (sems : ℕ → Semaphore ℕ) (e : ArchivosEjec) :
    (ℕ → Semaphore ℕ) × ArchivosEjec :=
  if e.hilo = self then
    match e.sem with
    | some k => (Function.update sems k (sems k).v, { e with sem := none })
    | none => (sems, e)
  else (sems, e)

def notify (self : ℤ) : (ℕ → Semaphore ℕ) → List ArchivosEjec →
    (ℕ → Semaphore ℕ) × List ArchivosEjec
  | sems, [] => (sems, [])
  | sems, e :: es =>
    let (sems, e) := notifyEntry self sems e
    let (sems, es) := notify self sems es
    (sems, e :: es)

/-- `Nachos_Exit`: the thread is neither ready nor asleep afterwards. -/
def exit (s : State) (t : ℕ) : State :=
  { s with
    semaphores := (notify (s.address t) s.semaphores s.ejecutables).1
    ejecutables := (notify (s.address t) s.semaphores s.ejecutables).2 }.goto t .terminated

def setEntry (s : State) (id : ℕ) (f : ArchivosEjec → ArchivosEjec) : State :=
  { s with ejecutables := s.ejecutables.modify id f }

def joinCall (s : State) (t id : ℕ) : State :=
  if id < s.ejecutables.length then s.goto t (.joinNew id)
  else { s with r2 := Function.update s.r2 t (-1) }

/-- The next step of thread `t`; the input counts only where the code leaves a choice. -/
def step (s : State) (t : ℕ) (input : Input) : Option State :=
  match s.pc t with
  | .user => match input with
    | .exec => some (s.goto t .execThread)
    | .join reg4 => some (s.joinCall t (joinId reg4))
    | .exit => some (s.exit t)
    | .fork => some (s.goto t .forkThread)
    | _ => none
  | .execThread => match input with
    | .address a => (s.newThread a).map (·.goto t (.execCount s.threads))
    | _ => none
  | .execCount child => some ({ s with archivoAE := s.archivoAE + 1 }.goto t (.execPush child))
  | .execPush child =>
    some ({ s with
      ejecutables := s.ejecutables ++ [ArchivosEjec.mk (s.address child) none (-1) child] }.goto t
        (.execFork child s.ejecutables.length))
  | .execFork child id => some ((s.goto child (.openExecutable id)).goto t .execReturn)
  | .execReturn => some ({ s with r2 := Function.update s.r2 t s.archivoAE }.goto t .user)
  | .forkThread => match input with
    | .address a => (s.newThread a).map (·.goto t (.forkFork s.threads))
    | _ => none
  | .forkFork child => some ((s.goto child .user).goto t .user)
  | .openExecutable id => match input with
    | .opened found => some (s.goto t (if found then .user else .openFailed id))
    | _ => none
  | .openFailed _ => some (s.goto t .terminated)
  | .joinNew id =>
    some ({ s with
      semaphores := Function.update s.semaphores s.semaphoreCount ⟨0, []⟩
      semaphoreCount := s.semaphoreCount + 1 }.goto t (.joinStore id s.semaphoreCount))
  | .joinStore id k =>
    some ((s.setEntry id fun e => { e with sem := some k }).goto t (.joinStoreThread id k))
  | .joinStoreThread id k =>
    some ((s.setEntry id fun e => { e with hiloJ := s.address t }).goto t (.joinWait id k))
  | .joinWait id k =>
    match (s.semaphores k).p t with
    | none => none
    | some (sem, false) => some { s with semaphores := Function.update s.semaphores k sem }
    | some (sem, true) =>
      some ({ s with semaphores := Function.update s.semaphores k sem }.goto t (.joinReturn id))
  | .joinReturn id =>
    some ({ s with
      r2 := Function.update s.r2 t 1
      joined := s.joined ++ [id] }.goto t .user)
  | .absent | .created | .terminated => none

def blocked (s : State) (t id : ℕ) : Prop :=
  ∃ k, s.pc t = .joinWait id k ∧ t ∈ (s.semaphores k).queue

def ended (s : State) (id : ℕ) : Prop :=
  ∃ e, s.ejecutables[id]? = some e ∧ s.pc e.thread = .terminated

end State

def Init (s : State) : Prop :=
  s.pc 0 = .user ∧ (∀ t, t ≠ 0 → s.pc t = .absent) ∧ s.threads = 1 ∧ s.ejecutables = [] ∧
    s.archivoAE = -1 ∧ s.semaphoreCount = 0 ∧ s.joined = []

def Step (s s' : State) : Prop := ∃ t input, s.step t input = some s'

def Pc.child? : Pc → Option ℕ
  | .execCount child | .execPush child | .execFork child _ | .forkFork child => some child
  | _ => none

def Pc.join? : Pc → Option (ℕ × ℕ)
  | .joinStore id k | .joinStoreThread id k | .joinWait id k => some (id, k)
  | _ => none

/-- What thread `t` in state `s` can do. -/
inductive Move (s : State) (t : ℕ) : State → Prop
  | call (p : Pc) (r2 : ℕ → ℤ) (h : s.pc t = .user)
      (hp : p = .execThread ∨ p = .forkThread ∨ p = .user ∨
        ∃ id, id < s.ejecutables.length ∧ p = .joinNew id) :
      Move s t ({ s with r2 := r2 }.goto t p)
  | exit (h : s.pc t = .user) : Move s t (s.exit t)
  | newThread (p : Pc) (a : ℤ) (ha : ∀ u < s.threads, s.live u → s.address u ≠ a)
      (h : (s.pc t = .execThread ∧ p = .execCount s.threads) ∨
        (s.pc t = .forkThread ∧ p = .forkFork s.threads)) :
      Move s t ({ s with
        pc := Function.update s.pc s.threads .created
        address := Function.update s.address s.threads a
        threads := s.threads + 1 }.goto t p)
  | count (child : ℕ) (h : s.pc t = .execCount child) :
      Move s t ({ s with archivoAE := s.archivoAE + 1 }.goto t (.execPush child))
  | push (child : ℕ) (h : s.pc t = .execPush child) :
      Move s t ({ s with
        ejecutables := s.ejecutables ++ [ArchivosEjec.mk (s.address child) none (-1) child] }.goto t
          (.execFork child s.ejecutables.length))
  | fork (child : ℕ) (q p : Pc)
      (h : (∃ id, s.pc t = .execFork child id ∧ q = .openExecutable id ∧ p = .execReturn) ∨
        (s.pc t = .forkFork child ∧ q = .user ∧ p = .user)) :
      Move s t ((s.goto child q).goto t p)
  | back (p : Pc) (r2 : ℕ → ℤ)
      (h : (s.pc t = .execReturn ∧ p = .user) ∨
        ∃ id, s.pc t = .openExecutable id ∧ (p = .user ∨ p = .openFailed id)) :
      Move s t ({ s with r2 := r2 }.goto t p)
  | fail (id : ℕ) (h : s.pc t = .openFailed id) : Move s t (s.goto t .terminated)
  | joinNew (id : ℕ) (h : s.pc t = .joinNew id) :
      Move s t ({ s with
        semaphores := Function.update s.semaphores s.semaphoreCount ⟨0, []⟩
        semaphoreCount := s.semaphoreCount + 1 }.goto t (.joinStore id s.semaphoreCount))
  | store (id k : ℕ) (h : s.pc t = .joinStore id k) :
      Move s t ((s.setEntry id fun e => { e with sem := some k }).goto t (.joinStoreThread id k))
  | storeThread (id k : ℕ) (h : s.pc t = .joinStoreThread id k) :
      Move s t ((s.setEntry id fun e => { e with hiloJ := s.address t }).goto t (.joinWait id k))
  | sleep (id k : ℕ) (h : s.pc t = .joinWait id k) (hq : t ∉ (s.semaphores k).queue)
      (hv : (s.semaphores k).value = 0) :
      Move s t { s with
        semaphores := Function.update s.semaphores k
          { s.semaphores k with queue := (s.semaphores k).queue ++ [t] } }
  | wake (id k : ℕ) (h : s.pc t = .joinWait id k) (hq : t ∉ (s.semaphores k).queue)
      (hv : (s.semaphores k).value ≠ 0) :
      Move s t ({ s with
        semaphores := Function.update s.semaphores k
          { s.semaphores k with value := (s.semaphores k).value - 1 } }.goto t (.joinReturn id))
  | joined (id : ℕ) (r2 : ℕ → ℤ) (h : s.pc t = .joinReturn id) :
      Move s t ({ s with r2 := r2, joined := s.joined ++ [id] }.goto t .user)

theorem newThread_eq_some {s s' : State} {a : ℤ} (h : s.newThread a = some s') :
    (∀ u < s.threads, s.live u → s.address u ≠ a) ∧ s' = { s with
      pc := Function.update s.pc s.threads .created
      address := Function.update s.address s.threads a
      threads := s.threads + 1 } := by
  unfold State.newThread at h
  split_ifs at h with ha
  exact ⟨ha, (Option.some.inj h).symm⟩

theorem goto_self {s : State} {t : ℕ} {p : Pc} (h : s.pc t = p) : s.goto t p = s := by
  subst h
  simp [State.goto]

theorem step_move {s s' : State} {t : ℕ} {input : Input} (h : s.step t input = some s') :
    Move s t s' := by
  unfold State.step at h
  cases hpc : s.pc t <;> rw [hpc] at h
  case user =>
    cases input
    case address | opened => cases h
    case join reg4 =>
      obtain rfl := Option.some.inj h
      unfold State.joinCall
      split_ifs with hid
      · exact .call _ s.r2 hpc (.inr (.inr (.inr ⟨_, hid, rfl⟩)))
      · rw [← goto_self (s := { s with r2 := Function.update s.r2 t (-1) }) hpc]
        exact .call _ _ hpc (.inr (.inr (.inl rfl)))
    all_goals obtain rfl := Option.some.inj h
    case exec => exact .call _ s.r2 hpc (.inl rfl)
    case exit => exact .exit hpc
    case fork => exact .call _ s.r2 hpc (.inr (.inl rfl))
  case execThread =>
    cases input
    case exec | join | exit | fork | opened => cases h
    obtain ⟨u, hu, rfl⟩ := Option.map_eq_some_iff.mp h
    obtain ⟨ha, rfl⟩ := newThread_eq_some hu
    exact .newThread _ _ ha (.inl ⟨hpc, rfl⟩)
  case forkThread =>
    cases input
    case exec | join | exit | fork | opened => cases h
    obtain ⟨u, hu, rfl⟩ := Option.map_eq_some_iff.mp h
    obtain ⟨ha, rfl⟩ := newThread_eq_some hu
    exact .newThread _ _ ha (.inr ⟨hpc, rfl⟩)
  case openExecutable id =>
    cases input
    case exec | join | exit | fork | address => cases h
    obtain rfl := Option.some.inj h
    refine .back _ s.r2 (.inr ⟨id, hpc, ?_⟩)
    split_ifs
    · exact .inl rfl
    · exact .inr rfl
  case joinWait id k =>
    dsimp only at h
    split at h
    · cases h
    · rename_i sem hm
      obtain ⟨hq, ⟨hv, -, rfl⟩ | ⟨-, hb, -⟩⟩ := Semaphore.p_eq_some hm
      · obtain rfl := Option.some.inj h
        exact .sleep id k hpc hq hv
      · cases hb
    · rename_i sem hm
      obtain ⟨hq, ⟨-, hb, -⟩ | ⟨hv, -, rfl⟩⟩ := Semaphore.p_eq_some hm
      · cases hb
      · obtain rfl := Option.some.inj h
        exact .wake id k hpc hq hv
  case absent | created | terminated => cases h
  all_goals obtain rfl := Option.some.inj h
  case execCount child => exact .count child hpc
  case execPush child => exact .push child hpc
  case execFork child id => exact .fork child _ _ (.inl ⟨id, hpc, rfl, rfl⟩)
  case execReturn => exact .back _ _ (.inl ⟨hpc, rfl⟩)
  case forkFork child => exact .fork child _ _ (.inr ⟨hpc, rfl, rfl⟩)
  case openFailed id => exact .fail id hpc
  case joinNew id => exact .joinNew id hpc
  case joinStore id k => exact .store id k hpc
  case joinStoreThread id k => exact .storeThread id k hpc
  case joinReturn id => exact .joined id _ hpc

end Nachos.ExecJoin
