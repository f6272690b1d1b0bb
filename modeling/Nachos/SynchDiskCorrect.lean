import Nachos.SynchDisk

/-! The synchronous disk serves one call at a time. `Handshake` ties the device's `active` flag,
the scheduled interrupt and the semaphore to the statement the owner of the lock is at;
`Contents` ties the sectors to the calls in lock order. -/
namespace Nachos.SynchDisk

open ByteBuffer

variable {T : Type} {sectors : Disk} {d d' : Device T} {s s' : State T} {t : T} {r : Request}

structure Idle (d : Device T) : Prop where
  active : d.active = false
  pending : d.pending = []
  semaphore : d.semaphore = ⟨0, []⟩

def Completed (d : Device T) (turn : ℕ) : Prop :=
  [Event.requested turn, .interrupted turn].Sublist d.log

def Handshake (t : T) (r : Request) (d : Device T) : Stage → Prop
  | .acquireSet | .requestAssert | .transfer | .setActive => Idle d
  | .schedule => d.active = true ∧ d.pending = [] ∧ d.semaphore = ⟨0, []⟩
  | .wait =>
    (d.active = true ∧ d.pending = [r.turn] ∧
      (d.semaphore = ⟨0, []⟩ ∨ d.semaphore = ⟨0, [t]⟩) ∧ Event.requested r.turn ∈ d.log) ∨
      (d.active = false ∧ d.pending = [] ∧ d.semaphore = ⟨1, []⟩ ∧ Completed d r.turn)
  | .releaseAssert | .releaseClear | .releaseUnlock => Idle d ∧ Completed d r.turn

def Holds (sectors : Disk) (d : Device T) (calls : List (T × Op)) : Prop :=
  ∀ n : ℤ, 0 ≤ n → d.sectors n.toNat = lastWritten sectors calls n

def Answers (sectors : Disk) (calls : List (T × Op)) (op : Op) (data : Buffer) : Prop :=
  ∀ n, op = .readSector n → data = lastWritten sectors calls n

def Transferred (sectors : Disk) (r : Request) (d : Device T) : Stage → Prop
  | .acquireSet | .requestAssert | .transfer => Holds sectors d (d.order.take r.turn)
  | _ => Holds sectors d d.order ∧ Answers sectors (d.order.take r.turn) r.op r.data

structure Served (sectors : Disk) (t : T) (r : Request) (st : Stage) (d : Device T) : Prop where
  handshake : Handshake t r d st
  transferred : Transferred sectors r d st
  order : d.order[r.turn]? = some (t, r.op)
  last : d.order.length = r.turn + 1
  since : r.since ≤ r.turn
  valid : r.op.Valid

/-- A call that has returned: it got the lock while it was under way, its interrupt came before
it returned, and a reader has the right data. -/
def Linearized (sectors : Disk) (d : Device T) (t : T) (since turn : ℕ) (data : Buffer) : Prop :=
  since ≤ turn ∧ [Event.requested turn, .interrupted turn,
    .returned t since turn data].Sublist d.log ∧
    ∃ op, d.order[turn]? = some (t, op) ∧ Answers sectors (d.order.take turn) op data

def Pc.phase : Pc → Lock.Phase
  | .user | .acquireP _ _ => .outside
  | .serving .acquireSet _ => .taken
  | .serving .releaseUnlock _ => .unlocking
  | .serving _ _ => .held

structure Inv (sectors : Disk) (s : State T) : Prop where
  lock : s.lock.Inv fun t => (s.pc t).phase
  quiet : (∀ t, (s.pc t).phase = .outside) →
    Idle s.device ∧ Holds sectors s.device s.device.order
  served : ∀ t st r, s.pc t = .serving st r → Served sectors t r st s.device
  calls : ∀ t since op, s.pc t = .acquireP since op →
    since ≤ s.device.order.length ∧ op.Valid
  returned : ∀ t since turn data, .returned t since turn data ∈ s.device.log →
    Linearized sectors s.device t since turn data
  running : s.aborted = false

theorem Pc.phase_serving (st : Stage) (r : Request) : (Pc.serving st r).phase ≠ .outside := by
  cases st <;> simp [Pc.phase]

theorem lastWritten_append_read (calls : List (T × Op)) (t : T) (m n : ℤ) :
    lastWritten sectors (calls ++ [(t, .readSector m)]) n = lastWritten sectors calls n := by
  simp [lastWritten, List.foldl_append]

theorem lastWritten_append_write (calls : List (T × Op)) (t : T) (m n : ℤ) (data : Buffer) :
    lastWritten sectors (calls ++ [(t, .writeSector m data)]) n =
      if m = n then data else lastWritten sectors calls n := by
  simp [lastWritten, List.foldl_append]

theorem Served.order_eq {st : Stage} (h : Served sectors t r st d) :
    d.order = d.order.take r.turn ++ [(t, r.op)] := by
  have hlt : r.turn < d.order.length := by
    rw [h.last]
    omega
  have hget : d.order[r.turn] = (t, r.op) := by
    have := h.order
    rw [List.getElem?_eq_getElem hlt] at this
    exact Option.some.inj this
  rw [← hget, List.take_append_getElem, ← h.last, List.take_length]

theorem Served.next {st st' : Stage} (h : Served sectors t r st d) (hh : Handshake t r d st')
    (ht : Transferred sectors r d st') : Served sectors t r st' d :=
  ⟨hh, ht, h.order, h.last, h.since, h.valid⟩

theorem Linearized.mono {t : T} {since turn : ℕ} {data : Buffer} (es : List (Event T))
    (cs : List (T × Op)) (h : Linearized sectors d t since turn data) (hlog : d'.log = d.log ++ es)
    (horder : d'.order = d.order ++ cs) : Linearized sectors d' t since turn data := by
  obtain ⟨hsince, hsub, op, hop, hans⟩ := h
  have hlt : turn < d.order.length := (List.getElem?_eq_some_iff.mp hop).1
  refine ⟨hsince, ?_, op, ?_, ?_⟩
  · rw [hlog]
    exact hsub.trans (List.sublist_append_left _ _)
  · rw [horder, List.getElem?_append_left hlt, hop]
  · rw [horder, List.take_append_of_le_length hlt.le]
    exact hans

theorem Inv.alone (h : Inv sectors s) {st : Stage} (ht : s.pc t = .serving st r) (u : T)
    (hu : u ≠ t) : (s.pc u).phase = .outside := by
  refine h.lock.outside_of_ne (t := t) ?_ hu
  rw [ht]
  exact Pc.phase_serving st r

section
variable [DecidableEq T]

theorem phase_update (pc : T → Pc) (t : T) (p : Pc) :
    (fun u => (Function.update pc t p u).phase) =
      Function.update (fun u => (pc u).phase) t p.phase := by
  funext u
  exact Function.apply_update (fun _ => Pc.phase) pc t p u

theorem Inv.goto_serving (h : Inv sectors s) {st : Stage} {l : Lock T} (es : List (Event T))
    (cs : List (T × Op)) (halone : ∀ u, u ≠ t → (s.pc u).phase = .outside)
    (hl : Lock.Move t (s.pc t).phase (Pc.serving st r).phase s.lock l)
    (hserved : Served sectors t r st d) (hlog : d.log = s.device.log ++ es)
    (hes : ∀ u since turn data, .returned u since turn data ∉ es)
    (horder : d.order = s.device.order ++ cs) : Inv sectors (s.goto t (.serving st r) l d) := by
  constructor
  case lock =>
    simp only [State.goto]
    rw [phase_update]
    exact h.lock.move hl
  case quiet =>
    intro hall
    have := hall t
    simp only [State.goto, Function.update_self] at this
    exact absurd this (Pc.phase_serving st r)
  case served =>
    intro u st' r' hu
    by_cases hut : u = t
    · subst hut
      simp only [State.goto, Function.update_self, Pc.serving.injEq] at hu
      obtain ⟨rfl, rfl⟩ := hu
      exact hserved
    · simp only [State.goto, Function.update_of_ne hut] at hu
      have := halone u hut
      rw [hu] at this
      exact absurd this (Pc.phase_serving st' r')
  case calls =>
    intro u since op hu
    by_cases hut : u = t
    · subst hut
      simp [State.goto] at hu
    · simp only [State.goto, Function.update_of_ne hut] at hu
      obtain ⟨hle, hvalid⟩ := h.calls u since op hu
      refine ⟨?_, hvalid⟩
      simp only [State.goto, horder, List.length_append]
      omega
  case returned =>
    intro u since turn data hmem
    simp only [State.goto, hlog] at hmem
    obtain hmem | hmem := List.mem_append.mp hmem
    · exact (h.returned u since turn data hmem).mono es cs hlog horder
    · exact absurd hmem (hes u since turn data)
  case running => exact h.running

theorem Inv.goto_outside (h : Inv sectors s) {p : Pc} {l : Lock T}
    (ht : (s.pc t).phase = .outside) (hp : p.phase = .outside)
    (hl : Lock.Move t .outside .outside s.lock l)
    (hcall : ∀ since op, p = .acquireP since op →
      since ≤ s.device.order.length ∧ op.Valid) : Inv sectors (s.goto t p l s.device) := by
  have hsame : (fun u => (Function.update s.pc t p u).phase) = fun u => (s.pc u).phase := by
    rw [phase_update, hp, ← ht]
    exact Function.update_eq_self t fun u => (s.pc u).phase
  constructor
  case lock =>
    simp only [State.goto]
    rw [phase_update]
    refine h.lock.move ?_
    rw [ht, hp]
    exact hl
  case quiet =>
    intro hall
    refine h.quiet fun u => ?_
    rw [← hall u]
    exact (congrFun hsame u).symm
  case served =>
    intro u st r hu
    by_cases hut : u = t
    · subst hut
      simp only [State.goto, Function.update_self] at hu
      rw [hu] at hp
      exact absurd hp (Pc.phase_serving st r)
    · simp only [State.goto, Function.update_of_ne hut] at hu
      exact h.served u st r hu
  case calls =>
    intro u since op hu
    by_cases hut : u = t
    · subst hut
      exact hcall since op (by simpa [State.goto] using hu)
    · simp only [State.goto, Function.update_of_ne hut] at hu
      exact h.calls u since op hu
  case returned => exact h.returned
  case running => exact h.running

theorem Inv.goto_user (h : Inv sectors s) (ht : s.pc t = .serving .releaseUnlock r) :
    Inv sectors (s.goto t .user { s.lock with mutex := s.lock.mutex.v } { s.device with
      log := s.device.log ++ [.returned t r.since r.turn r.data] }) := by
  have hserved := h.served t _ r ht
  obtain ⟨hidle, hdone⟩ := hserved.handshake
  obtain ⟨hholds, hans⟩ := hserved.transferred
  constructor
  case lock =>
    simp only [State.goto]
    rw [phase_update]
    refine h.lock.move ?_
    rw [ht]
    exact .unlock _
  case quiet => exact fun _ => ⟨⟨hidle.active, hidle.pending, hidle.semaphore⟩, hholds⟩
  case served =>
    intro u st r' hu
    by_cases hut : u = t
    · subst hut
      simp [State.goto] at hu
    · simp only [State.goto, Function.update_of_ne hut] at hu
      have := h.alone ht u hut
      rw [hu] at this
      exact absurd this (Pc.phase_serving st r')
  case calls =>
    intro u since op hu
    by_cases hut : u = t
    · subst hut
      simp [State.goto] at hu
    · simp only [State.goto, Function.update_of_ne hut] at hu
      exact h.calls u since op hu
  case returned =>
    intro u since turn data hmem
    obtain hmem | hmem := List.mem_append.mp hmem
    · exact (h.returned u since turn data hmem).mono [.returned t r.since r.turn r.data] [] rfl
        (List.append_nil _).symm
    · simp only [List.mem_singleton, Event.returned.injEq] at hmem
      obtain ⟨rfl, rfl, rfl, rfl⟩ := hmem
      exact ⟨hserved.since, hdone.append (List.Sublist.refl _), r.op, hserved.order, hans⟩
  case running => exact h.running

omit [DecidableEq T] in
theorem Served.transfer (h : Served sectors t r .transfer d) :
    Served sectors t (transfer d r).2 .setActive (transfer d r).1 := by
  have heq := h.order_eq
  have hholds : Holds sectors d (d.order.take r.turn) := h.transferred
  obtain ⟨op, since, turn, data⟩ := r
  cases op with
  | readSector n =>
    refine ⟨h.handshake, ⟨?_, ?_⟩, h.order, h.last, h.since, h.valid⟩
    · intro m hm
      simp only [SynchDisk.transfer]
      rw [heq, lastWritten_append_read]
      exact hholds m hm
    · intro m hm
      obtain rfl := Op.readSector.inj hm
      exact hholds n h.valid.1
  | writeSector n written =>
    refine ⟨⟨h.handshake.active, h.handshake.pending, h.handshake.semaphore⟩, ⟨?_, nofun⟩,
      h.order, h.last, h.since, h.valid⟩
    intro m hm
    simp only [SynchDisk.transfer]
    rw [heq, lastWritten_append_write]
    by_cases hmn : n = m
    · rw [if_pos hmn, hmn, Function.update_self]
    · have hn : (0 : ℤ) ≤ n := h.valid.1
      have hne : m.toNat ≠ n.toNat := by omega
      rw [if_neg hmn, Function.update_of_ne hne]
      exact hholds m hm

theorem Served.wait (h : Served sectors t r .wait d) {sem : Semaphore T} {b : Bool}
    (hp : d.semaphore.p t = some (sem, b)) :
    Served sectors t r (if b then .releaseAssert else .wait) { d with semaphore := sem } := by
  obtain ⟨hn, ⟨hv, rfl, rfl⟩ | ⟨hv, rfl, rfl⟩⟩ := Semaphore.p_eq_some hp
  · refine ⟨?_, h.transferred, h.order, h.last, h.since, h.valid⟩
    obtain ⟨ha, hpend, hsem | hsem, hreq⟩ | ⟨-, -, hsem, -⟩ := h.handshake
    · exact .inl ⟨ha, hpend, .inr (by rw [hsem]; rfl), hreq⟩
    · simp [hsem] at hn
    · simp [hsem] at hv
  · refine ⟨?_, h.transferred, h.order, h.last, h.since, h.valid⟩
    obtain ⟨ha, hpend, hsem | hsem, hreq⟩ | ⟨ha, hpend, hsem, hdone⟩ := h.handshake
    · simp [hsem] at hv
    · simp [hsem] at hv
    · exact ⟨⟨ha, hpend, by rw [hsem]; rfl⟩, hdone⟩

theorem Inv.serve (h : Inv sectors s) {st : Stage} (ht : s.pc t = .serving st r)
    (hs : s.serve t r st = some s') : Inv sectors s' := by
  have hserved := h.served t st r ht
  have halone := h.alone ht
  have hnil : s.device.log = s.device.log ++ [] := (List.append_nil _).symm
  have honil : s.device.order = s.device.order ++ [] := (List.append_nil _).symm
  have hstay : (Pc.serving st r).phase = .held →
      Lock.Move t (s.pc t).phase .held s.lock s.lock := by
    intro hheld
    rw [ht, hheld]
    exact .stay _ _
  cases st with
  | acquireSet =>
    obtain rfl := Option.some.inj hs
    refine h.goto_serving [] [] halone ?_
      (hserved.next hserved.handshake hserved.transferred) hnil nofun honil
    rw [ht]
    exact .hold _
  | requestAssert =>
    have hok : s.device.active = false ∧ r.op.Valid := ⟨hserved.handshake.active, hserved.valid⟩
    simp only [State.serve, if_pos hok, Option.some.injEq] at hs
    subst hs
    exact h.goto_serving [] [] halone (hstay rfl)
      (hserved.next hserved.handshake hserved.transferred) hnil nofun honil
  | transfer =>
    obtain rfl := Option.some.inj hs
    refine h.goto_serving [] [] halone (hstay rfl) hserved.transfer ?_ nofun ?_
    · unfold SynchDisk.transfer
      split <;> exact hnil
    · unfold SynchDisk.transfer
      split <;> exact honil
  | setActive =>
    obtain rfl := Option.some.inj hs
    refine h.goto_serving [] [] halone (hstay rfl) ⟨?_, hserved.transferred, hserved.order,
      hserved.last, hserved.since, hserved.valid⟩ hnil nofun honil
    exact ⟨rfl, hserved.handshake.pending, hserved.handshake.semaphore⟩
  | schedule =>
    obtain rfl := Option.some.inj hs
    obtain ⟨ha, hpend, hsem⟩ := hserved.handshake
    refine h.goto_serving [.requested r.turn] [] halone (hstay rfl) ⟨?_, hserved.transferred,
      hserved.order, hserved.last, hserved.since, hserved.valid⟩ rfl (by simp) honil
    refine .inl ⟨ha, ?_, .inl hsem, List.mem_append_right _ (List.mem_singleton_self _)⟩
    simp [hpend]
  | wait =>
    simp only [State.serve] at hs
    cases hp : s.device.semaphore.p t with
    | none => simp [hp] at hs
    | some x =>
      obtain ⟨sem, b⟩ := x
      have hnext := hserved.wait hp
      cases b with
      | false =>
        simp only [hp, Option.some.injEq] at hs
        subst hs
        exact h.goto_serving [] [] halone (hstay rfl) hnext hnil nofun honil
      | true =>
        simp only [hp, Option.some.injEq] at hs
        subst hs
        exact h.goto_serving [] [] halone (hstay rfl) hnext hnil nofun honil
  | releaseAssert =>
    have hheld : s.lock.isHeldByCurrentThread t = true := by
      refine decide_eq_true ((h.lock.holder_iff t).mpr ?_)
      rw [ht]
      rfl
    simp only [State.serve, if_pos hheld, Option.some.injEq] at hs
    subst hs
    exact h.goto_serving [] [] halone (hstay rfl)
      (hserved.next hserved.handshake hserved.transferred) hnil nofun honil
  | releaseClear =>
    obtain rfl := Option.some.inj hs
    refine h.goto_serving [] [] halone ?_
      (hserved.next hserved.handshake hserved.transferred) hnil nofun honil
    rw [ht]
    exact .release _
  | releaseUnlock =>
    obtain rfl := Option.some.inj hs
    exact h.goto_user ht

/-- A thread that gets the lock finds the device idle and takes the next place in the order. -/
theorem Inv.locked (h : Inv sectors s) {since : ℕ} {op : Op} (ht : s.pc t = .acquireP since op)
    (hv : s.lock.mutex.value ≠ 0) :
    Inv sectors (s.goto t (.serving .acquireSet ⟨op, since, s.device.order.length, op.buffer⟩)
      { s.lock with mutex := { s.lock.mutex with value := s.lock.mutex.value - 1 } }
      { s.device with order := s.device.order ++ [(t, op)] }) := by
  have hall := h.lock.outside_of_value hv
  obtain ⟨hidle, hholds⟩ := h.quiet hall
  obtain ⟨hsince, hvalid⟩ := h.calls t since op ht
  refine h.goto_serving [] [(t, op)] (fun u _ => hall u) (.lock _ _ hv) ?_
    (List.append_nil _).symm nofun rfl
  refine ⟨⟨hidle.active, hidle.pending, hidle.semaphore⟩, ?_, ?_, ?_, hsince, hvalid⟩
  · simpa [Transferred, Holds] using hholds
  · simp
  · simp

theorem Inv.exec (h : Inv sectors s) {op : Op} (hop : op.Valid) (hs : s.exec t op = some s') :
    Inv sectors s' := by
  unfold State.exec at hs
  cases hpc : s.pc t with
  | user =>
    simp only [hpc, Option.some.injEq] at hs
    subst hs
    refine h.goto_outside (by rw [hpc]; rfl) rfl (.stay _ _) ?_
    rintro since op' ⟨rfl, rfl⟩
    exact ⟨le_rfl, hop⟩
  | acquireP since op' =>
    simp only [hpc] at hs
    cases hp : s.lock.mutex.p t with
    | none => simp [hp] at hs
    | some x =>
      obtain ⟨mutex, b⟩ := x
      obtain ⟨-, ⟨-, rfl, rfl⟩ | ⟨hv, rfl, rfl⟩⟩ := Semaphore.p_eq_some hp
      · simp only [hp, Option.some.injEq] at hs
        subst hs
        refine h.goto_outside (by rw [hpc]; rfl) rfl (.block _ _ _) ?_
        rintro since' op'' ⟨rfl, rfl⟩
        exact h.calls t since op' hpc
      · simp only [hp, Option.some.injEq] at hs
        subst hs
        exact h.locked hpc hv
  | serving st r =>
    simp only [hpc] at hs
    exact h.serve hpc hs

omit [DecidableEq T] in
/-- Only the interrupt of the request that is being served is ever scheduled. -/
theorem Inv.pending (h : Inv sectors s) {turn : ℕ} (hp : turn ∈ s.device.pending) :
    ∃ t r, s.pc t = .serving .wait r ∧ s.device.pending = [turn] ∧ r.turn = turn ∧
      (s.device.semaphore = ⟨0, []⟩ ∨ s.device.semaphore = ⟨0, [t]⟩) ∧
      Event.requested turn ∈ s.device.log := by
  by_cases hall : ∀ t, (s.pc t).phase = .outside
  · simp [(h.quiet hall).1.pending] at hp
  · obtain ⟨t, ht⟩ := not_forall.mp hall
    cases hpc : s.pc t with
    | user => simp [hpc, Pc.phase] at ht
    | acquireP since op => simp [hpc, Pc.phase] at ht
    | serving st r =>
      have hh := (h.served t st r hpc).handshake
      cases st with
      | wait =>
        obtain ⟨-, hpend, hsem, hreq⟩ | ⟨-, hpend, -⟩ := hh
        · rw [hpend, List.mem_singleton] at hp
          subst hp
          exact ⟨t, r, hpc, hpend, rfl, hsem, hreq⟩
        · simp [hpend] at hp
      | schedule => simp [hh.2.1] at hp
      | acquireSet => simp [hh.pending] at hp
      | requestAssert => simp [hh.pending] at hp
      | transfer => simp [hh.pending] at hp
      | setActive => simp [hh.pending] at hp
      | releaseAssert => simp [hh.1.pending] at hp
      | releaseClear => simp [hh.1.pending] at hp
      | releaseUnlock => simp [hh.1.pending] at hp

/-- The interrupt reaches the thread whose request it completes. -/
theorem Inv.interrupt (h : Inv sectors s) {turn : ℕ} (hp : turn ∈ s.device.pending) :
    Inv sectors { s with device := s.device.handleInterrupt turn } := by
  obtain ⟨t, r, hpc, hpend, rfl, hsem, hreq⟩ := h.pending hp
  have hserved := h.served t .wait r hpc
  have hdone : Completed (s.device.handleInterrupt r.turn) r.turn :=
    (List.singleton_sublist.mpr hreq).append (List.Sublist.refl _)
  have hhand : Handshake t r (s.device.handleInterrupt r.turn) .wait := by
    refine .inr ⟨rfl, ?_, ?_, hdone⟩
    · simp [Device.handleInterrupt, hpend]
    · obtain hsem | hsem := hsem <;> simp [Device.handleInterrupt, hsem, Semaphore.v]
  constructor
  case lock => exact h.lock
  case quiet =>
    intro hall
    have := hall t
    rw [hpc] at this
    exact absurd this (Pc.phase_serving .wait r)
  case served =>
    intro u st r' hu
    have hut : u = t := by
      by_contra hut
      have := h.alone hpc u hut
      rw [hu] at this
      exact absurd this (Pc.phase_serving st r')
    subst hut
    obtain ⟨rfl, rfl⟩ := Pc.serving.inj (hpc.symm.trans hu)
    exact ⟨hhand, hserved.transferred, hserved.order, hserved.last, hserved.since, hserved.valid⟩
  case calls => exact h.calls
  case returned =>
    intro u since turn data hmem
    obtain hmem | hmem := List.mem_append.mp hmem
    · exact (h.returned u since turn data hmem).mono [.interrupted r.turn] [] rfl
        (List.append_nil _).symm
    · simp at hmem
  case running => exact h.running

theorem Inv.step (h : Inv sectors s) (hs : Step s s') : Inv sectors s' := by
  obtain ⟨i, hvalid, hs⟩ := hs
  unfold State.step at hs
  rw [if_neg (by simp [h.running])] at hs
  cases i with
  | thread t op => exact h.exec (hvalid t op rfl) hs
  | interrupt turn =>
    dsimp only at hs
    split_ifs at hs with hp
    obtain rfl := Option.some.inj hs
    exact h.interrupt hp

omit [DecidableEq T] in
theorem new_inv : Inv sectors (State.new T sectors) where
  lock := Lock.new_inv
  quiet _ := ⟨⟨rfl, rfl, rfl⟩, fun _ _ => rfl⟩
  served := nofun
  calls := nofun
  returned := nofun
  running := rfl

theorem reachable_inv (h : Reachable (· = State.new T sectors) Step s) : Inv sectors s :=
  Reachable.invariant (fun _ hs => hs ▸ new_inv) (fun _ _ hi hs => hi.step hs) h

omit [DecidableEq T] in
theorem Inv.pending_length (h : Inv sectors s) : s.device.pending.length ≤ 1 := by
  cases hp : s.device.pending with
  | nil => simp
  | cons turn rest =>
    have hmem : turn ∈ s.device.pending := by simp [hp]
    obtain ⟨-, -, -, hpend, -⟩ := h.pending hmem
    simp [← hp, hpend]

/-- In every run with valid sector numbers no `ASSERT` fails; at most one request is outstanding;
every call that has returned got the lock while it was under way and saw the interrupt of its
own request before it returned; and `ReadSector` returned what the last `WriteSector` to the
sector before it in lock order wrote, or else the initial contents. -/
theorem synchDisk_linearizable (h : Reachable (· = State.new T sectors) Step s) :
    s.aborted = false ∧ s.device.pending.length ≤ 1 ∧
      ∀ t since turn data, .returned t since turn data ∈ s.device.log →
        since ≤ turn ∧
        [Event.requested turn, .interrupted turn, .returned t since turn data].Sublist
          s.device.log ∧
        ∃ op, s.device.order[turn]? = some (t, op) ∧ ∀ n, op = .readSector n →
          data = lastWritten sectors (s.device.order.take turn) n := by
  have hi := reachable_inv h
  exact ⟨hi.running, hi.pending_length, hi.returned⟩

end

def writeThenRead : List (Input ℕ) :=
  List.replicate 7 (.thread 0 (.writeSector 3 fun _ => 7)) ++ [.interrupt 0] ++
    List.replicate 4 (.thread 0 (.readSector 0)) ++ List.replicate 7 (.thread 1 (.readSector 3)) ++
    [.interrupt 1] ++ List.replicate 4 (.thread 1 (.readSector 0))

theorem writeThenRead_valid : ∀ i ∈ writeThenRead, ∀ t op, i = .thread t op → op.Valid := by
  have hops : (writeThenRead.all fun i => match i with
      | .thread _ op => op.Valid
      | .interrupt _ => true) = true := by decide
  intro i hi t op ht
  have := List.all_eq_true.mp hops i hi
  rw [ht] at this
  exact of_decide_eq_true this

theorem writeThenRead_linearized : ∃ s : State ℕ,
    Reachable (· = State.new ℕ fun _ _ => 0) Step s ∧ ∃ data, data 0 = 7 ∧
      .returned 1 1 1 data ∈ s.device.log ∧
      [Event.requested 1, .interrupted 1, .returned 1 1 1 data].Sublist s.device.log := by
  have hrun : (writeThenRead.foldlM State.step (State.new ℕ fun _ _ => 0)).any
      (fun s : State ℕ => s.device.log.any fun e => match e with
        | .returned t since turn data => t = 1 ∧ since = 1 ∧ turn = 1 ∧ data 0 = 7
        | _ => false) = true := by
    decide
  obtain ⟨s, hs, hb⟩ := (Option.any_eq_true _ _).mp hrun
  have hr : Reachable (· = State.new ℕ fun _ _ => 0) Step s := Reachable.of_foldlM_mem
    (fun _ _ i hi h => ⟨i, writeThenRead_valid i hi, h⟩) (.init rfl) hs
  obtain ⟨e, he, hb⟩ := List.any_eq_true.mp hb
  cases e with
  | requested turn => cases hb
  | interrupted turn => cases hb
  | returned t since turn data =>
    obtain ⟨rfl, rfl, rfl, hdata⟩ := of_decide_eq_true hb
    exact ⟨s, hr, data, hdata, he, ((synchDisk_linearizable hr).2.2 1 1 1 data he).2.1⟩

end Nachos.SynchDisk
